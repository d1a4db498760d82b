import CodeAtlas.Pattern.Basic
import Mathlib.Data.List.Basic

/-!
# What patterns match

A match reads some of the text that is left, and what it reads is a text that the pattern spells.  The converse needs
that no round is lost when a repetition gives back, which is shown for repeated characters.
-/

namespace CodeAtlas.Pattern

variable {α : Type} {s t u : Spot} {next : Spot → Option α} {w v : List Char} {a : α} {p q : Pattern}

/-! ### Spots -/

/-- A text leads from one spot to another. -/
structure Spot.Reads (s : Spot) (w : List Char) (t : Spot) : Prop where
  rest_eq : s.rest = w ++ t.rest
  position_eq : t.position = s.position + w.length
  last_eq : t.last = w.getLast?.or s.last

namespace Spot.Reads

theorem refl (s : Spot) : s.Reads [] s := ⟨rfl, rfl, rfl⟩

theorem trans (h : s.Reads w t) (h' : t.Reads v u) : s.Reads (w ++ v) u where
  rest_eq := by rw [h.rest_eq, h'.rest_eq, List.append_assoc]
  position_eq := by rw [h'.position_eq, h.position_eq, List.length_append, Nat.add_assoc]
  last_eq := by rw [h'.last_eq, h.last_eq, List.getLast?_append, Option.or_assoc]

end Spot.Reads

/-- The spot behind the next character. -/
def Spot.step (s : Spot) (c : Char) (rest : List Char) : Spot :=
  { s with position := s.position + 1, last := some c, rest }

theorem Spot.reads_step {c : Char} {rest : List Char} (h : s.rest = c :: rest) :
    s.Reads [c] (s.step c rest) := ⟨h, rfl, rfl⟩

@[simp] theorem Spot.skip_zero (s : Spot) : s.skip 0 = s := by rw [Spot.skip]

theorem Spot.skip_succ {c : Char} {rest : List Char} (h : s.rest = c :: rest) (n : Nat) :
    s.skip (n + 1) = (s.step c rest).skip n := by
  rw [Spot.skip, h]
  rfl

theorem Spot.skip_skip (s : Spot) (m n : Nat) : (s.skip m).skip n = s.skip (m + n) := by
  induction m generalizing s with
  | zero => rw [skip_zero, Nat.zero_add]
  | succ m ih =>
    rw [Nat.add_right_comm]
    cases hrest : s.rest with
    | nil =>
      have hstay : ∀ k, s.skip k = s := by
        intro k
        cases k with
        | zero => exact skip_zero s
        | succ k => rw [skip, hrest]
      rw [hstay, hstay, hstay]
    | cons c rest => rw [skip_succ hrest, skip_succ hrest, ih]

theorem Spot.groups_skip (s : Spot) (n : Nat) : (s.skip n).groups = s.groups := by
  induction n generalizing s with
  | zero => rw [skip_zero]
  | succ n ih =>
    rw [skip]
    split
    · rfl
    · rw [ih]

theorem Spot.rest_skip (s : Spot) (n : Nat) : (s.skip n).rest = s.rest.drop n := by
  induction n generalizing s with
  | zero => rw [skip_zero, List.drop_zero]
  | succ n ih =>
    cases hrest : s.rest with
    | nil => rw [skip, hrest, hrest, List.drop_nil]
    | cons c rest =>
      rw [skip_succ hrest, ih, List.drop_succ_cons]
      rfl

theorem Spot.reads_skip {n : Nat} (h : n ≤ s.rest.length) : s.Reads (s.rest.take n) (s.skip n) := by
  induction n generalizing s with
  | zero => simpa using Reads.refl s
  | succ n ih =>
    cases hrest : s.rest with
    | nil => simp [hrest] at h
    | cons c rest =>
      have hstep : n ≤ (s.step c rest).rest.length := by simpa [step, hrest] using h
      rw [skip_succ hrest]
      simpa [step] using (reads_step hrest).trans (ih hstep)

/-! ### Texts that a pattern spells -/

/-- The texts that a pattern can match, wherever they stand.  A reference to a group may stand for any text. -/
def Spells : Pattern → List Char → Prop
  | empty, w => w = []
  | one accepts, w => ∃ c, accepts c = true ∧ w = [c]
  | seq p q, w => ∃ u v, p.Spells u ∧ q.Spells v ∧ w = u ++ v
  | alt p q, w => p.Spells w ∨ q.Spells w
  | rep p least most _, w => ∃ rounds : List (List Char), (∀ u ∈ rounds, p.Spells u) ∧ least ≤ rounds.length ∧
      (∀ n, most = some n → rounds.length ≤ max least n) ∧ w = rounds.flatten
  | group _ p, w => p.Spells w
  | same _, _ => True
  | textStart, w | textEnd, w | lineStart, w | finalLineEnd, w | wordEdge _, w => w = []

/-! ### Soundness -/

section Rounds

variable {least fuel : Nat} {most before : Option Nat} {possessive : Bool}

/-- Where no round is demanded there may be none. -/
theorem spells_rep_nil : (rep p 0 most possessive).Spells [] := ⟨[], by simp, by simp, by simp, rfl⟩

/-- One more round in front of those that are left. -/
theorem spells_rep_append (hmost : least = 0 → most ≠ some 0) (hw : p.Spells w)
    (hv : (rep p (least - 1) (most.map (· - 1)) possessive).Spells v) :
    (rep p least most possessive).Spells (w ++ v) := by
  obtain ⟨us, hus, hlength, hbound, rfl⟩ := hv
  refine ⟨w :: us, by simpa using ⟨hw, hus⟩, by simp only [List.length_cons]; omega, ?_, rfl⟩
  rintro n rfl
  have := hbound (n - 1) rfl
  have : least = 0 → n ≠ 0 := fun hzero heq => hmost hzero (by rw [heq])
  simp only [List.length_cons]
  omega

/-- What is read in rounds, of which each is sound. -/
theorem exists_spells_of_rounds {body : Spot → (Spot → Option α) → Option α}
    (hbody : ∀ {s : Spot} {k : Spot → Option α} {a : α}, body s k = some a → ∃ w t, p.Spells w ∧ s.Reads w t ∧
      k t = some a)
    (hfuel : least ≤ fuel) (h : rounds body next fuel least most before s = some a) :
    ∃ w t, (rep p least most possessive).Spells w ∧ s.Reads w t ∧ next t = some a := by
  induction fuel generalizing least most before s with
  | zero =>
    obtain rfl : least = 0 := by omega
    exact ⟨[], s, spells_rep_nil, .refl s, h⟩
  | succ fuel ih =>
    have hround : ∀ {before' : Option Nat}, (least = 0 → most ≠ some 0) →
        body s (fun t => rounds body next fuel (least - 1) (most.map (· - 1)) before' t) = some a →
        ∃ w t, (rep p least most possessive).Spells w ∧ s.Reads w t ∧ next t = some a := by
      intro before' hmost hrun
      obtain ⟨w, t, hw, hread, hrest⟩ := hbody hrun
      obtain ⟨v, u, hv, hreads, hnext⟩ := ih (by omega) hrest
      exact ⟨w ++ v, u, spells_rep_append hmost hw hv, hread.trans hreads, hnext⟩
    cases least with
    | succ least =>
      rw [rounds] at h
      exact hround (by simp) h
    | zero =>
      rw [rounds] at h
      split at h
      · exact ⟨[], s, spells_rep_nil, .refl s, h⟩
      · next hstop =>
        have hmost : most ≠ some 0 := by
          rintro rfl
          exact hstop (by simp)
        split at h
        · next b hb =>
          cases h
          exact hround (fun _ => hmost) hb
        · exact ⟨[], s, spells_rep_nil, .refl s, h⟩

/-- What is read in rounds that give nothing back. -/
theorem exists_spells_of_fixedRounds {body : Spot → Option Spot}
    (hbody : ∀ {s t : Spot}, body s = some t → ∃ w, p.Spells w ∧ s.Reads w t) (hfuel : least ≤ fuel)
    (h : fixedRounds body fuel least most s = some t) : ∃ w, (rep p least most possessive).Spells w ∧ s.Reads w t := by
  induction fuel generalizing least most s with
  | zero =>
    obtain rfl : least = 0 := by omega
    cases h
    exact ⟨[], spells_rep_nil, .refl _⟩
  | succ fuel ih =>
    cases least with
    | succ least =>
      rw [fixedRounds] at h
      obtain ⟨u, hu, hrest⟩ := Option.bind_eq_some_iff.1 h
      obtain ⟨w, hw, hread⟩ := hbody hu
      obtain ⟨v, hv, hreads⟩ := ih (by omega) hrest
      exact ⟨w ++ v, spells_rep_append (by simp) hw hv, hread.trans hreads⟩
    | zero =>
      rw [fixedRounds] at h
      split at h
      · cases h
        exact ⟨[], spells_rep_nil, .refl _⟩
      · next hstop =>
        have hmost : most ≠ some 0 := by simpa using hstop
        split at h
        · next u hu =>
          obtain ⟨w, hw, hread⟩ := hbody hu
          split at h
          · -- a round that reads nothing is the last one
            cases h
            refine ⟨w ++ [], spells_rep_append (fun _ => hmost) hw spells_rep_nil, ?_⟩
            rwa [List.append_nil]
          · obtain ⟨v, hv, hreads⟩ := ih (Nat.zero_le _) h
            exact ⟨w ++ v, spells_rep_append (fun _ => hmost) hw hv, hread.trans hreads⟩
        · cases h
          exact ⟨[], spells_rep_nil, .refl _⟩

end Rounds

/-- A match reads a text that the pattern spells. -/
theorem exists_spells_of_run (h : p.run s next = some a) : ∃ w t, p.Spells w ∧ s.Reads w t ∧ next t = some a := by
  induction p generalizing α s next a with
  | empty => exact ⟨[], s, rfl, .refl s, h⟩
  | one accepts =>
    rw [run] at h
    split at h
    · next c rest hrest =>
      split at h
      · next hc => exact ⟨[c], s.step c rest, ⟨c, hc, rfl⟩, Spot.reads_step hrest, h⟩
      · cases h
    · cases h
  | seq p q ihp ihq =>
    obtain ⟨w, t, hw, hread, hrest⟩ := ihp h
    obtain ⟨v, u, hv, hread', hnext⟩ := ihq hrest
    exact ⟨w ++ v, u, ⟨w, v, hw, hv, rfl⟩, hread.trans hread', hnext⟩
  | alt p q ihp ihq =>
    rw [run] at h
    cases hp : p.run s next with
    | some b =>
      rw [hp] at h
      cases h
      obtain ⟨w, t, hw, hread, hnext⟩ := ihp hp
      exact ⟨w, t, Or.inl hw, hread, hnext⟩
    | none =>
      rw [hp] at h
      obtain ⟨w, t, hw, hread, hnext⟩ := ihq h
      exact ⟨w, t, Or.inr hw, hread, hnext⟩
  | rep p least most possessive ih =>
    cases possessive with
    | false => exact exists_spells_of_rounds ih (by omega) h
    | true =>
      obtain ⟨t, hrounds, hnext⟩ := Option.bind_eq_some_iff.1 h
      have hbody : ∀ {s t : Spot}, p.run s some = some t → ∃ w, p.Spells w ∧ s.Reads w t := by
        intro s t hrun
        obtain ⟨w, t', hw, hread, heq⟩ := ih hrun
        cases heq
        exact ⟨w, hw, hread⟩
      obtain ⟨w, hw, hread⟩ := exists_spells_of_fixedRounds hbody (by omega) hrounds
      exact ⟨w, t, hw, hread, hnext⟩
  | group i p ih =>
    obtain ⟨w, t, hw, hread, hnext⟩ := ih h
    refine ⟨w, _, hw, ?_, hnext⟩
    exact ⟨hread.rest_eq, hread.position_eq, hread.last_eq⟩
  | same i =>
    rw [run] at h
    split at h
    · next start text _ =>
      split at h
      · next hpre =>
        have hpre := List.isPrefixOf_iff_prefix.1 hpre
        exact ⟨_, _, trivial, Spot.reads_skip hpre.length_le, h⟩
      · cases h
    · cases h
  | textStart | textEnd | lineStart | finalLineEnd =>
    rw [run] at h
    split at h
    · exact ⟨[], s, rfl, .refl s, h⟩
    · cases h
  | wordEdge wanted =>
    rw [run] at h
    split at h
    · cases h
    · split at h
      · exact ⟨[], s, rfl, .refl s, h⟩
      · cases h

/-! ### Characters -/

theorem isSome_run_one (accepts : Char → Bool) (s : Spot) (next : Spot → Option α) :
    ((one accepts).run s next).isSome ↔ ∃ c rest, s.rest = c :: rest ∧ accepts c = true ∧ (next (s.skip 1)).isSome := by
  rw [run]
  cases hrest : s.rest with
  | nil => simp
  | cons c rest =>
    have hskip : s.skip 1 = s.step c rest := by rw [Spot.skip_succ hrest, Spot.skip_zero]
    by_cases hc : accepts c = true
    · simp [hc, hskip, Spot.step]
    · simp [hc]

-- The text left bounds the rounds, so that the fuel is never what ends them.
theorem isSome_rounds_one {accepts : Char → Bool} {fuel : Nat} {before : Option Nat} (hfuel : s.rest.length < fuel)
    (hbefore : before ≠ some s.position) :
    (rounds (fun t k => (one accepts).run t k) next fuel 0 none before s).isSome ↔
      ∃ n ≤ (s.rest.takeWhile accepts).length, (next (s.skip n)).isSome := by
  induction fuel generalizing s before with
  | zero => omega
  | succ fuel ih =>
    have hgo : ¬((none : Option Nat) == some 0 || before == some s.position) = true := by simpa using hbefore
    rw [rounds, if_neg hgo]
    cases hrest : s.rest with
    | nil => simp [run, hrest]
    | cons c rest =>
      by_cases hc : accepts c = true
      · have hstep : (s.step c rest).rest.length < fuel := by
          simp only [Spot.step]
          simp only [hrest, List.length_cons] at hfuel
          omega
        have hmoved : some s.position ≠ some (s.step c rest).position := by simp [Spot.step]
        have hround : (one accepts).run s (fun t =>
            rounds (fun t k => (one accepts).run t k) next fuel 0 none (some s.position) t) =
            rounds (fun t k => (one accepts).run t k) next fuel 0 none (some s.position) (s.step c rest) := by
          rw [run, hrest]
          exact if_pos hc
        have hlater := ih hstep hmoved
        rw [Option.map_none, hround, List.takeWhile_cons_of_pos hc]
        constructor
        · intro h
          split at h
          · next b hb =>
            obtain ⟨n, hn, hnext⟩ := hlater.1 (by rw [hb]; rfl)
            exact ⟨n + 1, by simpa [Spot.step] using hn, by rwa [Spot.skip_succ hrest]⟩
          · exact ⟨0, Nat.zero_le _, by simpa using h⟩
        · rintro ⟨n, hn, hnext⟩
          split
          · rfl
          · next hnone =>
            cases n with
            | zero => simpa using hnext
            | succ n =>
              have hsome := hlater.2 ⟨n, by simpa [Spot.step] using hn, by rwa [← Spot.skip_succ hrest]⟩
              rw [hnone] at hsome
              cases hsome
      · simp [run, hrest, hc]

/-- A repeated character gives back until the rest matches. -/
theorem isSome_run_many_one (accepts : Char → Bool) (s : Spot) (next : Spot → Option α) :
    ((many (one accepts)).run s next).isSome ↔ ∃ n ≤ (s.rest.takeWhile accepts).length, (next (s.skip n)).isSome :=
  isSome_rounds_one (by omega) (by simp)

end CodeAtlas.Pattern
