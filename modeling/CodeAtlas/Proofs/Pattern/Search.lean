import CodeAtlas.Proofs.Pattern.Spelling

/-!
# Where matches are found

A search looks at one position after another, so that what it finds is the first match behind the one before.
-/

namespace CodeAtlas.Pattern

variable {p : Pattern} {cs w : List Char} {t : Spot} {f : Found} {n since : Nat}

/-- The spot at a position of a text. -/
def spotAt (cs : List Char) (n : Nat) : Spot := ⟨n, (cs.take n).getLast?, cs.drop n, []⟩

theorem Spot.Reads.eq_spotAt (h : (spotAt cs n).Reads w t) (hn : n ≤ cs.length) :
    n + w.length ≤ cs.length ∧ { t with groups := [] } = spotAt cs (n + w.length) := by
  have hrest : cs.drop n = w ++ t.rest := h.rest_eq
  have htake : cs.take (n + w.length) = cs.take n ++ w := by rw [List.take_add, hrest, List.take_left]
  have hdrop : cs.drop (n + w.length) = t.rest := by rw [← List.drop_drop, hrest, List.drop_left]
  have hlength : w.length ≤ cs.length - n := by
    rw [← List.length_drop, hrest, List.length_append]
    omega
  refine ⟨by omega, ?_⟩
  rw [spotAt, htake, hdrop, List.getLast?_append, Spot.mk.injEq]
  exact ⟨h.position_eq, h.last_eq, rfl, rfl⟩

theorem skip_spotAt {m : Nat} (h : n + m ≤ cs.length) : (spotAt cs n).skip m = spotAt cs (n + m) := by
  have hm : m ≤ (spotAt cs n).rest.length := by
    rw [spotAt, List.length_drop]
    omega
  have hread := (Spot.reads_skip hm).eq_spotAt (by omega)
  rw [List.length_take_of_le hm] at hread
  rw [← hread.2, ← show (spotAt cs n).groups = [] from rfl, ← Spot.groups_skip]

/-! ### The first match -/

/-- The first match at or behind a position. -/
structure FirstMatch (p : Pattern) (cs : List Char) (since : Nat) (f : Found) : Prop where
  since_le : since ≤ f.start
  start_le : f.start ≤ cs.length
  matchAt_eq : p.matchAt (spotAt cs f.start) = some f.finish
  none_before : ∀ j, since ≤ j → j < f.start → p.matchAt (spotAt cs j) = none

theorem FirstMatch.exists_spells (h : FirstMatch p cs since f) :
    ∃ w, p.Spells w ∧ w <+: cs.drop f.start ∧ f.finish.position = f.start + w.length ∧ f.finish.position ≤ cs.length ∧
      { f.finish with groups := [] } = spotAt cs f.finish.position := by
  obtain ⟨w, t, hw, hread, heq⟩ := exists_spells_of_run h.matchAt_eq
  cases heq
  obtain ⟨hle, hspot⟩ := hread.eq_spotAt h.start_le
  have hposition : f.finish.position = f.start + w.length := hread.position_eq
  exact ⟨w, hw, ⟨_, hread.rest_eq.symm⟩, hposition, by omega, by rwa [hposition]⟩

theorem firstMatch_of_searchFrom {fuel : Nat} (hn : n ≤ cs.length) (h : searchFrom p fuel (spotAt cs n) = some f) :
    FirstMatch p cs n f := by
  induction fuel generalizing n with
  | zero =>
    rw [searchFrom] at h
    obtain ⟨t, ht, rfl⟩ := Option.map_eq_some_iff.1 h
    exact ⟨Nat.le_refl _, hn, ht, fun j hj hlt => absurd hlt (Nat.not_lt.2 hj)⟩
  | succ fuel ih =>
    rw [searchFrom] at h
    split at h
    · next t ht =>
      cases h
      exact ⟨Nat.le_refl _, hn, ht, fun j hj hlt => absurd hlt (Nat.not_lt.2 hj)⟩
    · next hnone =>
      split at h
      · cases h
      · next hrest =>
        have hlt : n < cs.length := by
          by_contra hge
          exact hrest (by simp [spotAt, List.drop_eq_nil_of_le (Nat.not_lt.1 hge)])
        rw [skip_spotAt hlt] at h
        have hfirst := ih hlt h
        refine ⟨by have := hfirst.since_le; omega, hfirst.start_le, hfirst.matchAt_eq, fun j hj hlt => ?_⟩
        rcases Nat.eq_or_lt_of_le hj with rfl | hlater
        · exact hnone
        · exact hfirst.none_before j hlater hlt

/-- Matches one after another, each with the position from which it was searched for. -/
def tracked : Nat → List Found → List (Nat × Found)
  | _, [] => []
  | since, f :: fs => (since, f) :: tracked f.finish.position fs

theorem map_snd_tracked (since : Nat) (fs : List Found) : (tracked since fs).map Prod.snd = fs := by
  induction fs generalizing since with
  | nil => rfl
  | cons f fs ih => rw [tracked, List.map_cons, ih]

theorem firstMatch_of_mem_tracked_findFrom {fuel : Nat} (hn : n ≤ cs.length)
    (h : (since, f) ∈ tracked n (findFrom p fuel (spotAt cs n))) : FirstMatch p cs since f := by
  induction fuel generalizing n with
  | zero => cases h
  | succ fuel ih =>
    rw [findFrom] at h
    split at h
    · next g hg =>
      have hfirst := firstMatch_of_searchFrom hn hg
      rcases List.mem_cons.1 h with heq | hrest
      · cases heq
        exact hfirst
      · obtain ⟨w, -, -, -, hle, hspot⟩ := hfirst.exists_spells
        rw [hspot] at hrest
        exact ih hle hrest
    · cases h

/-- Each match in a text is the first one behind the one before. -/
theorem firstMatch_of_mem_tracked {content : String} (h : (since, f) ∈ tracked 0 (p.findAll content)) :
    FirstMatch p content.toList since f :=
  firstMatch_of_mem_tracked_findFrom (Nat.zero_le _) h

end CodeAtlas.Pattern
