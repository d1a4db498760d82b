import CodeAtlas.Proofs.Section.Ranges

/-!
# Where parts end, and how much they count

Each line that does not fit ends at most one part, and the last line ends one more.  Before a line the current
part is within the limit, line by line, unless it was begun by the line just before: then no boundary lies
inside of it, and without its last line it is within the limit.

## Main definitions

* `Pass.base` — the line with which the current part begins
* `Pass.endedAt`, `Pass.ranges` — the range of the part that a line ends, and of all parts
* `Pass.Settled` — what the current part counts
* `passOf` — the pass over a section

## Main results

* `Pass.splitOnce_eq_map` — the parts of a pass are those of its ranges
* `Pass.endedAt_cases` — why a part ends where it does
* `Pass.ranges_apart` — parts lie one behind the other
* `Pass.tokensOf_range_pred_le` — every part without its last line is within the limit
* `Pass.tokensOf_range_le` — a part with a boundary inside of it is within the limit
* `Pass.parts_of_fit` — how lines are cut of which all but the last fit
-/

namespace CodeAtlas.Section

open Text (isBlankText unlines)

section Tokens

variable {xs ys : List String}

theorem tokensOf_append (count : Counter) (xs ys : List String) :
    tokensOf count (xs ++ ys) = tokensOf count xs + tokensOf count ys := by
  induction xs with
  | nil => simp [tokensOf]
  | cons x xs ih =>
    simp only [tokensOf, List.cons_append, List.foldr_cons] at ih ⊢
    omega

theorem tokensOf_singleton (count : Counter) (line : String) : tokensOf count [line] = count (line ++ "\n") := rfl

theorem tokensOf_le_of_sublist (count : Counter) (h : xs.Sublist ys) :
    tokensOf count xs ≤ tokensOf count ys := by
  induction h with
  | slnil => exact Nat.le_refl _
  | cons y _ ih => exact ih.trans (Nat.le_add_left _ _)
  | cons_cons y _ ih => exact Nat.add_le_add_left ih _

theorem range_sublist {a a' b b' : Nat} (lines : List String) (ha : a' ≤ a) (hb : b ≤ b') :
    (range lines a b).Sublist (range lines a' b') := by
  have hdrop : lines.drop a = (lines.drop a').drop (a - a') := by
    rw [List.drop_drop, Nat.add_sub_cancel' ha]
  have heq : range lines a b = (range lines a' b).drop (a - a') := by
    rw [range, range, List.drop_take, hdrop]
    congr 1
    omega
  rw [heq, range, range]
  refine (List.drop_sublist _ _).trans (List.take_sublist_take_left ?_)
  omega

end Tokens

namespace Pass

section Definitions

variable (p : Pass)

/-- The line with which the current part begins. -/
def base (i : Nat) : Nat := i - (p.progressAt i).current.length

/-- The text of a range of lines. -/
def text (r : Nat × Nat) : String := unlines (range p.lines r.1 r.2)

/-- The range itself, unless its text is blank. -/
def unlessBlank (r : Nat × Nat) : List (Nat × Nat) := if isBlankText (p.text r) then [] else [r]

/-- The range of the part that line number `k` ends, if it ends one. -/
def endedAt (k : Nat) : List (Nat × Nat) :=
  let s := p.progressAt k
  match p.lines[k]? with
  | none => []
  | some line =>
    if (s.tokens + p.count (line ++ "\n") : Nat) ≤ p.limit then []
    else if s.start < latest p.boundaries s.start k then p.unlessBlank (s.start, latest p.boundaries s.start k)
    else if s.current.isEmpty then [] else [(p.base k, k)]

/-- The range of the last part. -/
def lastRange : List (Nat × Nat) :=
  if (p.progressAt p.lines.length).current.isEmpty then []
  else p.unlessBlank (p.base p.lines.length, p.lines.length)

/-- The ranges of all parts. -/
def ranges : List (Nat × Nat) := (List.range p.lines.length).flatMap p.endedAt ++ p.lastRange

/-- The current part is within the limit.  Or no boundary lies inside of it, and it is within the limit without
its last line. -/
def Settled (i : Nat) : Prop :=
  (p.progressAt i).tokens ≤ p.limit ∨
    ((∀ b ∈ p.boundaries, b < i → b ≤ p.base i) ∧
      (p.base i + 1 < i → tokensOf p.count (range p.lines (p.base i) (i - 1)) ≤ p.limit))

end Definitions

variable {p : Pass} {i k : Nat} {r : Nat × Nat}

theorem exists_traced (p : Pass) (hi : i ≤ p.lines.length) : ∃ ranges, p.Traced i (p.base i) ranges := by
  obtain ⟨base, ranges, h⟩ := Traced.run p hi
  have hle := h.base_le
  have hbase : p.base i = base := by
    rw [Pass.base, h.current_eq, length_range hi]
    omega
  exact ⟨ranges, hbase ▸ h⟩

theorem base_le (p : Pass) (i : Nat) : p.base i ≤ i := Nat.sub_le _ _

theorem current_eq (hi : i ≤ p.lines.length) : (p.progressAt i).current = range p.lines (p.base i) i := by
  obtain ⟨ranges, h⟩ := p.exists_traced hi
  exact h.current_eq

theorem start_eq (hi : i ≤ p.lines.length) :
    (p.progressAt i).start = p.base i ∨ (p.progressAt i).start = p.base i + 1 := by
  obtain ⟨ranges, h⟩ := p.exists_traced hi
  exact h.start_eq

theorem base_le_start (hi : i ≤ p.lines.length) : p.base i ≤ (p.progressAt i).start := by
  rcases start_eq hi with h | h <;> omega

theorem isEmpty_current_iff (hi : i ≤ p.lines.length) :
    (p.progressAt i).current.isEmpty = true ↔ p.base i = i := by
  have hle := p.base_le i
  rw [current_eq hi, List.isEmpty_iff_length_eq_zero, length_range hi]
  omega

theorem tokens_eq (hi : i ≤ p.lines.length) :
    (p.progressAt i).tokens = tokensOf p.count (range p.lines (p.base i) i) := by
  rw [← current_eq hi]
  induction i with
  | zero => rfl
  | succ i ih =>
    have hline := List.getElem?_eq_getElem (Nat.lt_of_succ_le hi)
    rcases progressAt_succ hline with ⟨-, hs⟩ | ⟨c, -, hs⟩ | ⟨-, hs⟩
    · rw [hs]
      simp only [tokensOf_append, tokensOf_singleton, ih (Nat.le_of_succ_le hi)]
    · rw [hs]
    · rw [hs]
      rfl

/-! ### What each line does to the current part -/

/-- A line joins the current part, or the part is cut at a boundary, or the line begins a part. -/
theorem base_succ (hi : i < p.lines.length) :
    (¬p.OverflowsAt i ∧ p.base (i + 1) = p.base i) ∨ p.CutAt i (p.base (i + 1)) ∨
      (p.ForcedAt i ∧ p.base (i + 1) = i) := by
  have hline := List.getElem?_eq_getElem hi
  rcases progressAt_succ hline with ⟨hover, hs⟩ | ⟨c, hcut, hs⟩ | ⟨hforced, hs⟩
  · refine Or.inl ⟨hover, ?_⟩
    rw [Pass.base, Pass.base, hs]
    simp
  · have hle := hcut.le
    have hbase : p.base (i + 1) = c := by
      rw [Pass.base, hs, length_range (show i + 1 ≤ p.lines.length from hi)]
      omega
    exact Or.inr (Or.inl (hbase ▸ hcut))
  · refine Or.inr (Or.inr ⟨hforced, ?_⟩)
    rw [Pass.base, hs]
    rfl

theorem base_le_succ (hi : i < p.lines.length) : p.base i ≤ p.base (i + 1) := by
  have hle := base_le_start (p := p) hi.le
  have hi' := p.base_le i
  rcases base_succ hi with ⟨-, h⟩ | h | ⟨-, h⟩
  · omega
  · have := h.start_lt
    omega
  · omega

theorem base_mono {j : Nat} (hij : i ≤ j) (hj : j ≤ p.lines.length) : p.base i ≤ p.base j := by
  induction j, hij using Nat.le_induction with
  | base => exact Nat.le_refl _
  | succ j hij ih => exact (ih (Nat.le_of_succ_le hj)).trans (base_le_succ hj)

theorem base_of_cut {c : Nat} (h : p.CutAt i c) (hi : i < p.lines.length) : p.base (i + 1) = c := by
  rcases base_succ hi with ⟨hover, -⟩ | hcut | ⟨hforced, -⟩
  · exact absurd h.overflows hover
  · exact hcut.eq h
  · exact absurd hforced h.not_forcedAt

theorem base_of_forced (h : p.ForcedAt i) (hi : i < p.lines.length) : p.base (i + 1) = i := by
  rcases base_succ hi with ⟨hover, -⟩ | hcut | ⟨-, hbase⟩
  · exact absurd h.overflows hover
  · exact absurd h hcut.not_forcedAt
  · exact hbase

theorem lt_of_overflows (h : p.OverflowsAt i) : i < p.lines.length := by
  obtain ⟨line, hline, -⟩ := h
  exact (List.getElem?_eq_some_iff.1 hline).1

/-- What a line that does not fit would make of the current part. -/
theorem lt_of_overflowsAt (h : p.OverflowsAt i) :
    p.limit < tokensOf p.count (range p.lines (p.base i) (i + 1)) := by
  have hi := lt_of_overflows h
  obtain ⟨line, hline, hover⟩ := h
  rwa [tokens_eq hi.le, ← tokensOf_singleton p.count, ← tokensOf_append,
    range_concat hline (p.base_le i)] at hover

theorem Settled.succ (h : p.Settled i) (hi : i < p.lines.length) : p.Settled (i + 1) := by
  rcases base_succ hi with ⟨hover, hbase⟩ | hcut | ⟨hforced, hbase⟩
  · -- the line fits, so the part with it does
    refine Or.inl ?_
    rw [tokens_eq (Nat.succ_le_of_lt hi), hbase, ← range_concat (List.getElem?_eq_getElem hi) (p.base_le i),
      tokensOf_append, tokensOf_singleton, ← tokens_eq hi.le]
    exact Int.not_lt.1 fun hlt => hover ⟨_, List.getElem?_eq_getElem hi, hlt⟩
  · refine Or.inr ⟨fun b hb hlt => hcut.latest b hb (Nat.le_of_lt_succ hlt), fun hlt => ?_⟩
    rcases h with hfit | ⟨hnone, -⟩
    · have hstart := hcut.start_lt
      have hbase := base_le_start (p := p) hi.le
      rw [tokens_eq hi.le] at hfit
      have hle := tokensOf_le_of_sublist p.count (range_sublist p.lines
        (show p.base i ≤ p.base (i + 1) by omega) (Nat.le_refl i))
      rw [Nat.add_sub_cancel]
      omega
    · -- a part that is too large already has no boundary inside of it
      have hstart := hcut.start_lt
      have hbase := base_le_start (p := p) hi.le
      have := hnone _ hcut.mem (by omega)
      omega
  · refine Or.inr ⟨fun b _ hlt => by omega, fun hlt => by omega⟩

theorem settled (p : Pass) (hi : i ≤ p.lines.length) : p.Settled i := by
  induction i with
  | zero => exact Or.inr ⟨fun b _ hlt => absurd hlt (Nat.not_lt_zero b), fun hlt => absurd hlt (Nat.not_lt_zero _)⟩
  | succ i ih => exact (ih (Nat.le_of_succ_le hi)).succ hi

/-! ### The ranges of the parts -/

theorem map_unlessBlank (p : Pass) (parts : List String) (r : Nat × Nat) :
    parts ++ (p.unlessBlank r).map p.text = addPart parts (range p.lines r.1 r.2) := by
  rw [unlessBlank, addPart, Pass.text]
  split <;> simp [Pass.text]

theorem parts_eq (hi : i ≤ p.lines.length) :
    (p.progressAt i).parts = ((List.range i).flatMap p.endedAt).map p.text := by
  induction i with
  | zero => rfl
  | succ i ih =>
    have hline := List.getElem?_eq_getElem (Nat.lt_of_succ_le hi)
    have hcurrent := current_eq (p := p) (Nat.le_of_succ_le hi)
    rw [List.range_succ, List.flatMap_append, List.map_append, List.flatMap_singleton, ← ih (Nat.le_of_succ_le hi),
      progressAt, hline, endedAt, hline]
    simp only [Progress.step]
    split
    · simp
    · split
      · rw [map_unlessBlank]
      · split
        · simp
        · simp [Pass.text, hcurrent]

/-- The parts of a pass are those of its ranges. -/
theorem splitOnce_eq_map (p : Pass) : splitOnce p.count p.limit p.boundaries p.lines = p.ranges.map p.text := by
  rw [splitOnce_eq_finish, Progress.finish, ranges, List.map_append, ← parts_eq (Nat.le_refl _), lastRange]
  split
  · simp
  · rw [map_unlessBlank, current_eq (Nat.le_refl _)]

theorem eq_of_mem_unlessBlank {r' : Nat × Nat} (h : r ∈ p.unlessBlank r') : r = r' := by
  rw [unlessBlank] at h
  split at h
  · simp at h
  · simpa using h

/-- A line ends a part at a boundary, or in front of itself. -/
theorem endedAt_cases (h : r ∈ p.endedAt k) :
    (p.CutAt k r.2 ∧ r.1 = (p.progressAt k).start) ∨ (p.ForcedAt k ∧ p.base k < k ∧ r = (p.base k, k)) := by
  rw [endedAt] at h
  cases hline : p.lines[k]? with
  | none => simp [hline] at h
  | some line =>
    obtain ⟨hk, -⟩ := List.getElem?_eq_some_iff.1 hline
    simp only [hline] at h
    split_ifs at h with hfit hcut hempty
    · simp at h
    · have hover : p.OverflowsAt k := ⟨line, hline, Int.not_le.1 hfit⟩
      rw [eq_of_mem_unlessBlank h]
      exact Or.inl ⟨hover.cutAt hcut, rfl⟩
    · simp at h
    · have hover : p.OverflowsAt k := ⟨line, hline, Int.not_le.1 hfit⟩
      rw [isEmpty_current_iff hk.le] at hempty
      exact Or.inr ⟨hover.forcedAt hcut, lt_of_le_of_ne (p.base_le k) hempty, by simpa using h⟩

theorem mem_ranges : r ∈ p.ranges ↔ (∃ k < p.lines.length, r ∈ p.endedAt k) ∨ r ∈ p.lastRange := by
  simp [ranges]

theorem lastRange_cases (h : r ∈ p.lastRange) :
    p.base p.lines.length < p.lines.length ∧ r = (p.base p.lines.length, p.lines.length) := by
  rw [lastRange] at h
  split_ifs at h with hempty
  · simp at h
  · rw [isEmpty_current_iff (Nat.le_refl _)] at hempty
    exact ⟨lt_of_le_of_ne (p.base_le _) hempty, eq_of_mem_unlessBlank h⟩

/-- The part that a line ends lies behind those ended before, and in front of what follows. -/
theorem endedAt_bounds (hk : k < p.lines.length) (h : r ∈ p.endedAt k) :
    p.base k ≤ r.1 ∧ r.1 < r.2 ∧ r.2 ≤ p.base (k + 1) := by
  rcases endedAt_cases h with ⟨hcut, hstart⟩ | ⟨hforced, hlt, rfl⟩
  · rw [base_of_cut hcut hk, hstart]
    exact ⟨base_le_start hk.le, hcut.start_lt, Nat.le_refl _⟩
  · rw [base_of_forced hforced hk]
    exact ⟨Nat.le_refl _, hlt, Nat.le_refl _⟩

theorem ranges_proper (h : r ∈ p.ranges) : r.1 < r.2 ∧ r.2 ≤ p.lines.length := by
  rcases mem_ranges.1 h with ⟨k, hk, h⟩ | h
  · obtain ⟨-, hlt, hle⟩ := endedAt_bounds hk h
    exact ⟨hlt, hle.trans ((p.base_le _).trans hk)⟩
  · obtain ⟨hlt, rfl⟩ := lastRange_cases h
    exact ⟨hlt, Nat.le_refl _⟩

/-- No part reaches over a line with which a part is begun. -/
theorem ranges_apart (hi : i ≤ p.lines.length) (h : r ∈ p.ranges) : r.2 ≤ p.base i ∨ p.base i ≤ r.1 := by
  rcases mem_ranges.1 h with ⟨k, hk, h⟩ | h
  · obtain ⟨hle, -, hle'⟩ := endedAt_bounds hk h
    rcases Nat.lt_or_ge k i with hki | hki
    · exact Or.inl (hle'.trans (base_mono hki hi))
    · exact Or.inr ((base_mono hki hk.le).trans hle)
  · obtain ⟨-, rfl⟩ := lastRange_cases h
    exact Or.inr (base_mono hi (Nat.le_refl _))

theorem endedAt_unique {s : Nat × Nat} (hr : r ∈ p.endedAt k) (hs : s ∈ p.endedAt k) : r = s := by
  rcases endedAt_cases hr with ⟨hcut, hstart⟩ | ⟨hforced, -, rfl⟩
  · rcases endedAt_cases hs with ⟨hcut', hstart'⟩ | ⟨hforced', -, -⟩
    · exact Prod.ext (hstart.trans hstart'.symm) (hcut.eq hcut')
    · exact absurd hforced' hcut.not_forcedAt
  · rcases endedAt_cases hs with ⟨hcut', -⟩ | ⟨-, -, rfl⟩
    · exact absurd hforced hcut'.not_forcedAt
    · rfl

/-- Two parts that overlap are the same. -/
theorem eq_of_overlap {s : Nat × Nat} (hr : r ∈ p.ranges) (hs : s ∈ p.ranges) (hrs : r.1 < s.2) (hsr : s.1 < r.2) :
    r = s := by
  -- what is ended by an earlier line lies in front of what is ended later
  have hordered : ∀ {j k : Nat} {a b : Nat × Nat}, j < k → k ≤ p.lines.length → a ∈ p.endedAt j → p.base k ≤ b.1 →
      a.2 ≤ b.1 := by
    intro j k a b hjk hk ha hb
    have hmono := base_mono (p := p) (show j + 1 ≤ k from hjk) hk
    exact (endedAt_bounds (by omega) ha).2.2.trans (hmono.trans hb)
  rcases mem_ranges.1 hr with ⟨j, hj, hrj⟩ | hrlast
  · rcases mem_ranges.1 hs with ⟨k, hk, hsk⟩ | hslast
    · rcases Nat.lt_trichotomy j k with hjk | rfl | hjk
      · have := hordered hjk hk.le hrj (endedAt_bounds hk hsk).1
        omega
      · exact endedAt_unique hrj hsk
      · have := hordered hjk hj.le hsk (endedAt_bounds hj hrj).1
        omega
    · have := hordered hj (Nat.le_refl _) hrj (b := s) (by rw [(lastRange_cases hslast).2])
      omega
  · rcases mem_ranges.1 hs with ⟨k, hk, hsk⟩ | hslast
    · have := hordered hk (Nat.le_refl _) hsk (b := r) (by rw [(lastRange_cases hrlast).2])
      omega
    · rw [(lastRange_cases hrlast).2, (lastRange_cases hslast).2]

/-- A part is what was current before some line, or the end of it was cut off at a boundary. -/
theorem exists_base_le (h : r ∈ p.ranges) : ∃ k ≤ p.lines.length, p.base k ≤ r.1 ∧ r.2 ≤ k ∧
    (r.2 = k ∨ r.2 ∈ p.boundaries) := by
  rcases mem_ranges.1 h with ⟨k, hk, h⟩ | h
  · have hbase := (endedAt_bounds hk h).1
    rcases endedAt_cases h with ⟨hcut, -⟩ | ⟨-, -, rfl⟩
    · exact ⟨k, hk.le, hbase, hcut.le, Or.inr hcut.mem⟩
    · exact ⟨k, hk.le, hbase, Nat.le_refl _, Or.inl rfl⟩
  · obtain ⟨-, rfl⟩ := lastRange_cases h
    exact ⟨_, Nat.le_refl _, Nat.le_refl _, Nat.le_refl _, Or.inl rfl⟩

theorem tokensOf_range_le_of_base (hk : k ≤ p.lines.length) (hfit : (p.progressAt k).tokens ≤ p.limit) {a b : Nat}
    (ha : p.base k ≤ a) (hb : b ≤ k) : tokensOf p.count (range p.lines a b) ≤ p.limit := by
  rw [tokens_eq hk] at hfit
  have hle := tokensOf_le_of_sublist p.count (range_sublist p.lines ha hb)
  omega

/-- Every part without its last line is within the limit, unless it has no other. -/
theorem tokensOf_range_pred_le (h : r ∈ p.ranges) (hlt : r.1 + 1 < r.2) :
    tokensOf p.count (range p.lines r.1 (r.2 - 1)) ≤ p.limit := by
  obtain ⟨k, hk, hbase, hle, hend⟩ := exists_base_le h
  rcases p.settled hk with hfit | ⟨hnone, hpred⟩
  · exact tokensOf_range_le_of_base hk hfit hbase (by omega)
  · -- a part that is too large already is ended where it is
    have hend : r.2 = k := by
      rcases hend with hend | hend
      · exact hend
      · have := hnone _ hend
        omega
    have hsub := tokensOf_le_of_sublist p.count (range_sublist p.lines hbase (Nat.le_refl (k - 1)))
    have := hpred (by omega)
    rw [hend]
    omega

/-- A part with a boundary inside of it is within the limit. -/
theorem tokensOf_range_le (h : r ∈ p.ranges) {b : Nat} (hb : b ∈ p.boundaries) (hlt : r.1 < b) (hgt : b < r.2) :
    tokensOf p.count (range p.lines r.1 r.2) ≤ p.limit := by
  obtain ⟨k, hk, hbase, hle, -⟩ := exists_base_le h
  rcases p.settled hk with hfit | ⟨hnone, -⟩
  · exact tokensOf_range_le_of_base hk hfit hbase hle
  · have := hnone b hb (by omega)
    omega

/-! ### The lines of parts -/

theorem mem_of_mem_range {lines : List String} {a b : Nat} {line : String} (h : line ∈ range lines a b) :
    line ∈ lines :=
  ((List.take_sublist _ _).trans (List.drop_sublist _ _)).subset h

theorem dropLast_range {lines : List String} {a b : Nat} (hb : b ≤ lines.length) :
    (range lines a b).dropLast = range lines a (b - 1) := by
  rw [List.dropLast_eq_take, length_range hb, range, range, List.take_take]
  congr 1
  omega

theorem lines_text_sublist (hp : ∀ line ∈ p.lines, Text.IsLine line) (r : Nat × Nat) :
    (Text.lines (p.text r)).Sublist (range p.lines r.1 r.2) :=
  Text.lines_unlines_sublist fun line hline => hp line (mem_of_mem_range hline)

theorem dropLast_lines_text_sublist (hp : ∀ line ∈ p.lines, Text.IsLine line) (hr : r.2 ≤ p.lines.length) :
    (Text.lines (p.text r)).dropLast.Sublist (range p.lines r.1 (r.2 - 1)) := by
  have hlines : ∀ line ∈ range p.lines r.1 r.2, Text.IsLine line := fun line h => hp line (mem_of_mem_range h)
  rw [Pass.text, Text.lines_unlines hlines, ← dropLast_range hr]
  split
  · exact List.dropLast_sublist _
  · exact List.Sublist.refl _

/-- A part of several lines is within the limit without its last one. -/
theorem tokensOf_dropLast_lines_le (hp : ∀ line ∈ p.lines, Text.IsLine line) (h : r ∈ p.ranges)
    (hseveral : 1 < (Text.lines (p.text r)).length) :
    tokensOf p.count (Text.lines (p.text r)).dropLast ≤ p.limit := by
  obtain ⟨-, hend⟩ := ranges_proper h
  have hlength := (lines_text_sublist hp r).length_le
  rw [length_range hend] at hlength
  have hfit := tokensOf_range_pred_le h (by omega)
  have hle := tokensOf_le_of_sublist p.count (dropLast_lines_text_sublist hp hend)
  omega

/-! ### Lines that fit -/

theorem overflowsAt_of_mem (h : r ∈ p.endedAt k) : p.OverflowsAt k := by
  rcases endedAt_cases h with ⟨hcut, -⟩ | ⟨hforced, -, -⟩
  · exact hcut.overflows
  · exact hforced.overflows

theorem endedAt_eq_nil (h : tokensOf p.count (p.lines.take (k + 1)) ≤ p.limit) : p.endedAt k = [] := by
  refine List.eq_nil_iff_forall_not_mem.2 fun r hr => ?_
  have hover := lt_of_overflowsAt (overflowsAt_of_mem hr)
  have hle := tokensOf_le_of_sublist p.count (range_sublist p.lines (Nat.zero_le (p.base k)) (Nat.le_refl (k + 1)))
  rw [show range p.lines 0 (k + 1) = p.lines.take (k + 1) from rfl] at hle
  omega

theorem length_unlessBlank_le (p : Pass) (r : Nat × Nat) : (p.unlessBlank r).length ≤ 1 := by
  rw [unlessBlank]
  split <;> simp

theorem length_lastRange_le (p : Pass) : p.lastRange.length ≤ 1 := by
  rw [lastRange]
  split
  · simp
  · exact p.length_unlessBlank_le _

theorem length_endedAt_le (p : Pass) (k : Nat) : (p.endedAt k).length ≤ 1 := by
  rw [endedAt]
  cases p.lines[k]? with
  | none => simp
  | some line =>
    simp only
    split_ifs
    · simp
    · exact p.length_unlessBlank_le _
    · simp
    · simp

/-- If all lines but the last fit, only the last one can end a part in front of itself. -/
theorem ranges_of_fit (h : tokensOf p.count p.lines.dropLast ≤ p.limit) :
    p.ranges = p.endedAt (p.lines.length - 1) ++ p.lastRange := by
  have hnil : ∀ k, k + 1 < p.lines.length → p.endedAt k = [] := by
    intro k hk
    refine endedAt_eq_nil ?_
    have hsub : (p.lines.take (k + 1)).Sublist p.lines.dropLast := by
      rw [List.dropLast_eq_take]
      exact List.take_sublist_take_left (by omega)
    have hle := tokensOf_le_of_sublist p.count hsub
    omega
  rw [ranges]
  congr 1
  cases hlength : p.lines.length with
  | zero =>
    have hnone : p.lines[0]? = none := List.getElem?_eq_none (by omega)
    simp [endedAt, hnone]
  | succ n =>
    have hfront : (List.range n).flatMap p.endedAt = [] := by
      refine List.flatMap_eq_nil_iff.2 fun k hk => hnil k ?_
      have := List.mem_range.1 hk
      omega
    rw [List.range_succ, List.flatMap_append, hfront, List.flatMap_singleton, List.nil_append, Nat.add_sub_cancel]

/-- If all lines fit, no line ends a part in front of itself. -/
theorem ranges_of_all_fit (h : tokensOf p.count p.lines ≤ p.limit) : p.ranges = p.lastRange := by
  have hdrop := tokensOf_le_of_sublist p.count (List.dropLast_sublist p.lines)
  have htake := tokensOf_le_of_sublist p.count (List.take_sublist (p.lines.length - 1 + 1) p.lines)
  rw [ranges_of_fit (by omega), endedAt_eq_nil (by omega), List.nil_append]

theorem base_eq_zero (h : tokensOf p.count p.lines ≤ p.limit) (hi : i ≤ p.lines.length) : p.base i = 0 := by
  induction i with
  | zero => rfl
  | succ i ih =>
    have hnone : ¬p.OverflowsAt i := by
      intro hover
      have hlt := lt_of_overflowsAt hover
      have hsub : (range p.lines (p.base i) (i + 1)).Sublist p.lines :=
        (List.take_sublist _ _).trans (List.drop_sublist _ _)
      have hle := tokensOf_le_of_sublist p.count hsub
      omega
    rcases base_succ hi with ⟨-, hbase⟩ | hcut | ⟨hforced, -⟩
    · rw [hbase, ih (Nat.le_of_succ_le hi)]
    · exact absurd hcut.overflows hnone
    · exact absurd hforced.overflows hnone

/-- If all lines but the last fit, at most one part is in front of the last, and all its lines fit. -/
theorem parts_of_fit (hp : ∀ line ∈ p.lines, Text.IsLine line)
    (h : tokensOf p.count p.lines.dropLast ≤ p.limit) :
    ∃ front back, p.ranges.map p.text = front ++ back ∧ front.length ≤ 1 ∧ back.length ≤ 1 ∧
      ∀ part ∈ front, tokensOf p.count (Text.lines part) ≤ p.limit := by
  rw [ranges_of_fit h, List.map_append]
  refine ⟨_, _, rfl, ?_, ?_, ?_⟩
  · rw [List.length_map]
    exact p.length_endedAt_le _
  · rw [List.length_map]
    exact p.length_lastRange_le
  · intro part hpart
    obtain ⟨r, hr, rfl⟩ := List.mem_map.1 hpart
    have hend : r.2 ≤ p.lines.length - 1 := by
      rcases endedAt_cases hr with ⟨hcut, -⟩ | ⟨-, -, rfl⟩
      · exact hcut.le
      · exact Nat.le_refl _
    have hsub : (range p.lines r.1 r.2).Sublist p.lines.dropLast := by
      rw [List.dropLast_eq_take]
      exact range_sublist p.lines (Nat.zero_le _) hend
    have hle := tokensOf_le_of_sublist p.count ((lines_text_sublist hp r).trans hsub)
    omega

end Pass

/-- The pass over a section. -/
def passOf (p : Policy) (count : Counter) (limit : Int) (extension content : String) : Pass :=
  ⟨count, limit, Boundary.all p.heads (Text.lines content) (p.ends content extension), Text.lines content⟩

theorem firstParts_eq_map (p : Policy) (count : Counter) (limit : Int) (extension content : String) :
    firstParts p count limit extension content =
      (passOf p count limit extension content).ranges.map (passOf p count limit extension content).text :=
  (passOf p count limit extension content).splitOnce_eq_map

end CodeAtlas.Section
