import CodeAtlas.Proofs.Pattern.Plain
import Mathlib.Data.List.Forall2

/-!
# What the groups of a match hold

A plain pattern has no alternatives, so that a match fills each of its groups once.  A group then holds a text that
its body spells, and this text is part of what the match reads.
-/

namespace CodeAtlas.Pattern

variable {α : Type} {s t u : Spot} {next : Spot → Option α} {a : α} {accepts : Char → Bool} {p q body : Pattern}
  {w v cs : List Char} {least index : Nat}

/-! ### The groups of a pattern -/

/-- The groups of a pattern with their bodies, in the order in which they end. -/
def parts : Pattern → List (Nat × Pattern)
  | seq p q | alt p q => parts p ++ parts q
  | rep p _ _ _ => parts p
  | group index p => parts p ++ [(index, p)]
  | empty | one _ | same _ | textStart | textEnd | lineStart | finalLineEnd | wordEdge _ => []

theorem parts_concat (ps : List Pattern) : (concat ps).parts = ps.flatMap parts := by
  fun_induction concat ps with
  | case1 => rfl
  | case2 p => simp
  | case3 p rest _ ih => rw [parts, ih, List.flatMap_cons]

theorem parts_literal (text : String) : (literal text).parts = [] := by
  rw [literal, parts_concat, List.flatMap_map, List.flatMap_eq_nil_iff]
  intro c _
  rfl

/-! ### Filled groups -/

/-- A group holds part of a text, and the body of the group spells it. -/
def Holds (w : List Char) (filled : Nat × Nat × List Char) (part : Nat × Pattern) : Prop :=
  filled.1 = part.1 ∧ part.2.Spells filled.2.2 ∧ filled.2.2 <:+: w

theorem Holds.mono {filled : Nat × Nat × List Char} {part : Nat × Pattern} (h : Holds w filled part)
    (hpart : w <:+: v) :
    Holds v filled part := ⟨h.1, h.2.1, h.2.2.trans hpart⟩

/-- All groups of a pattern are filled between two spots, the latest first. -/
def Spot.Fills (s : Spot) (p : Pattern) (w : List Char) (t : Spot) : Prop :=
  ∃ filled, t.groups = filled ++ s.groups ∧ List.Forall₂ (Holds w) filled p.parts.reverse

theorem Spot.Fills.of_groups_eq (hparts : p.parts = []) (h : t.groups = s.groups) : s.Fills p w t := by
  refine ⟨[], h, ?_⟩
  rw [hparts]
  exact .nil

theorem Spot.Fills.seq (hp : s.Fills p w t) (hq : t.Fills q v u) : s.Fills (seq p q) (w ++ v) u := by
  obtain ⟨filled, hgroups, hfilled⟩ := hp
  obtain ⟨filled', hgroups', hfilled'⟩ := hq
  refine ⟨filled' ++ filled, by rw [hgroups', hgroups, List.append_assoc], ?_⟩
  rw [parts, List.reverse_append]
  exact List.rel_append (hfilled'.imp fun _ _ h => h.mono (List.suffix_append w v).isInfix)
    (hfilled.imp fun _ _ h => h.mono (List.prefix_append w v).isInfix)

/-! ### Rows of characters -/

theorem exists_step_of_run_one (h : (one accepts).run s next = some a) :
    ∃ c rest, s.rest = c :: rest ∧ accepts c = true ∧ next (s.step c rest) = some a := by
  rw [run] at h
  split at h
  · next c rest hrest =>
    split at h
    · next hc => exact ⟨c, rest, hrest, hc, h⟩
    · cases h
  · cases h

/-- A row of characters goes on from one of the spots behind characters that it accepts. -/
theorem exists_skip_of_rounds {fuel : Nat} {before : Option Nat} (hfuel : least ≤ fuel)
    (h : rounds (fun t k => (one accepts).run t k) next fuel least none before s = some a) :
    ∃ n ≤ (s.rest.takeWhile accepts).length, least ≤ n ∧ next (s.skip n) = some a := by
  induction fuel generalizing least before s with
  | zero =>
    obtain rfl : least = 0 := by omega
    exact ⟨0, Nat.zero_le _, Nat.le_refl _, by rwa [Spot.skip_zero]⟩
  | succ fuel ih =>
    -- one more character in front of those that are left
    have hround : ∀ {before' : Option Nat},
        (one accepts).run s (fun t =>
          rounds (fun t k => (one accepts).run t k) next fuel (least - 1) none before' t) = some a →
        ∃ n ≤ (s.rest.takeWhile accepts).length, least ≤ n ∧ next (s.skip n) = some a := by
      intro before' hrun
      obtain ⟨c, rest, hrest, hc, hlater⟩ := exists_step_of_run_one hrun
      obtain ⟨n, hn, hleast, hnext⟩ := ih (by omega) hlater
      refine ⟨n + 1, ?_, by omega, by rwa [Spot.skip_succ hrest]⟩
      rw [hrest, List.takeWhile_cons_of_pos hc]
      exact Nat.succ_le_succ hn
    cases least with
    | succ least =>
      rw [rounds] at h
      exact hround h
    | zero =>
      have hstop : next s = some a → ∃ n ≤ (s.rest.takeWhile accepts).length, 0 ≤ n ∧ next (s.skip n) = some a :=
        fun hnext => ⟨0, Nat.zero_le _, Nat.le_refl _, by rwa [Spot.skip_zero]⟩
      rw [rounds] at h
      split at h
      · exact hstop h
      · split at h
        · next b hb =>
          cases h
          exact hround hb
        · exact hstop h

theorem exists_fills_of_row (h : (rep (one accepts) least none false).run s next = some a) :
    ∃ w t, (rep (one accepts) least none false).Spells w ∧ s.Reads w t ∧
      s.Fills (rep (one accepts) least none false) w t ∧ next t = some a := by
  rw [run] at h
  obtain ⟨n, hn, hleast, hnext⟩ := exists_skip_of_rounds (by omega) h
  have hlength : n ≤ s.rest.length := Nat.le_trans hn (List.takeWhile_prefix accepts).length_le
  refine ⟨s.rest.take n, s.skip n, spells_row.2 ⟨?_, fun c hc => ?_⟩, Spot.reads_skip hlength,
    .of_groups_eq rfl (s.groups_skip n), hnext⟩
  · rwa [List.length_take_of_le hlength]
  · have hshorter : s.rest.take n <+: s.rest.takeWhile accepts :=
      List.prefix_of_prefix_length_le (List.take_prefix n s.rest) (List.takeWhile_prefix accepts)
        (Nat.le_trans (List.length_take_le n s.rest) hn)
    exact List.all_eq_true.1 List.all_takeWhile c (hshorter.subset hc)

/-! ### Matches -/

/-- A match of a plain pattern reads a text that the pattern spells and fills the groups of the pattern with parts of
it. -/
theorem Plain.exists_fills_of_run (hp : p.Plain) (h : p.run s next = some a) :
    ∃ w t, p.Spells w ∧ s.Reads w t ∧ s.Fills p w t ∧ next t = some a := by
  induction hp generalizing s next with
  | empty => exact ⟨[], s, rfl, .refl s, .of_groups_eq rfl rfl, h⟩
  | one accepts =>
    obtain ⟨c, rest, hrest, hc, hnext⟩ := exists_step_of_run_one h
    exact ⟨[c], s.step c rest, ⟨c, hc, rfl⟩, Spot.reads_step hrest, .of_groups_eq rfl rfl, hnext⟩
  | many accepts => exact exists_fills_of_row h
  | many1 accepts => exact exists_fills_of_row h
  | seq _ _ ihp ihq =>
    obtain ⟨w, t, hw, hread, hfills, hrest⟩ := ihp h
    obtain ⟨v, u, hv, hread', hfills', hnext⟩ := ihq hrest
    exact ⟨w ++ v, u, ⟨w, v, hw, hv, rfl⟩, hread.trans hread', hfills.seq hfills', hnext⟩
  | @group p index _ ih =>
    obtain ⟨w, t, hw, hread, ⟨filled, hgroups, hfilled⟩, hnext⟩ := ih h
    have hheld : s.rest.take (t.position - s.position) = w := by
      rw [hread.position_eq, Nat.add_sub_cancel_left, hread.rest_eq, List.take_left]
    rw [hheld] at hnext
    refine ⟨w, { t with groups := (index, s.position, w) :: t.groups }, hw,
      ⟨hread.rest_eq, hread.position_eq, hread.last_eq⟩,
      ⟨(index, s.position, w) :: filled, congrArg _ hgroups, ?_⟩, hnext⟩
    rw [parts, List.reverse_concat]
    exact .cons ⟨rfl, hw, List.infix_refl w⟩ hfilled

/-- What the only group of a plain pattern holds after a match from the start of a text. -/
theorem Plain.exists_group? (hp : p.Plain) (hparts : p.parts = [(index, body)])
    (h : p.matchAt (Spot.start cs) = some t) :
    ∃ start text, t.group? index = some (start, text) ∧ body.Spells text ∧ text <:+: cs := by
  obtain ⟨w, t', -, hread, ⟨filled, hgroups, hfilled⟩, ht⟩ := hp.exists_fills_of_run h
  cases ht
  rw [hparts, List.reverse_singleton, List.forall₂_cons_right_iff] at hfilled
  obtain ⟨⟨number, start, text⟩, rest, ⟨hindex, hspells, hpart⟩, hrest, rfl⟩ := hfilled
  obtain rfl : rest = [] := List.forall₂_nil_right_iff.1 hrest
  refine ⟨start, text, ?_, hspells, hpart.trans ⟨[], t.rest, hread.rest_eq.symm⟩⟩
  obtain rfl : number = index := hindex
  rw [Spot.group?, hgroups]
  simp

end CodeAtlas.Pattern
