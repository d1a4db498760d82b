import CodeAtlas.Proofs.Section.Pass

/-!
# Where the parts of one pass lie

The parts of a pass are joined ranges of lines, and the ranges do not overlap.  A line can be in none of
them for two reasons only.  The range it was in held nothing but blank lines.  Or the line had begun a
part of its own for want of a boundary, and the next line that did not fit was cut at a boundary further
on: the part that is taken then starts behind the line.

## Main definitions

* `Pass`, `Pass.progressAt` — a pass, and how far it is before each line
* `Pass.CutAt`, `Pass.ForcedAt` — a line that does not fit is cut at a boundary, or begins a part
* `Pass.Pending` — a line that has begun a part and may still be dropped
* `Pass.SkippedRange`, `Pass.Dropped` — why a line is in no part
* `Pass.Traced` — what holds before each line

## Main results

* `Pass.Traced.next` — what one line preserves
* `splitOnce_eq_ranges` — the ranges of the parts, and which lines are in none
-/

namespace CodeAtlas.Section

open Text (isBlankText unlines)

/-- One pass over lines. -/
structure Pass where
  count : Counter
  limit : Int
  boundaries : List Nat
  lines : List String

theorem range_concat {lines : List String} {line : String} {a i : Nat} (h : lines[i]? = some line) (ha : a ≤ i) :
    range lines a i ++ [line] = range lines a (i + 1) := by
  have hget : (lines.drop a)[i - a]? = some line := by
    rw [List.getElem?_drop, Nat.add_sub_cancel' ha]
    exact h
  rw [range, range, Nat.succ_sub ha, List.take_add_one, hget]
  rfl

theorem range_self (lines : List String) (a : Nat) : range lines a a = [] := by
  rw [range, Nat.sub_self, List.take_zero]

theorem length_range {lines : List String} {a b : Nat} (hb : b ≤ lines.length) : (range lines a b).length = b - a := by
  rw [range, List.length_take, List.length_drop]
  omega

namespace Pass

variable (p : Pass)

/-- The state of a pass before line number `i`. -/
def progressAt : Nat → Progress
  | 0 => {}
  | i + 1 =>
    match p.lines[i]? with
    | some line => (progressAt i).step p.count p.limit p.boundaries p.lines line i
    | none => progressAt i

/-- Line number `i` would exceed the limit. -/
def OverflowsAt (i : Nat) : Prop :=
  ∃ line, p.lines[i]? = some line ∧ p.limit < ((p.progressAt i).tokens + p.count (line ++ "\n") : Nat)

/-- Line number `i` would exceed the limit, and boundary `c` is the latest at which a part can end. -/
structure CutAt (i c : Nat) : Prop where
  overflows : p.OverflowsAt i
  mem : c ∈ p.boundaries
  start_lt : (p.progressAt i).start < c
  le : c ≤ i
  latest : ∀ b ∈ p.boundaries, b ≤ i → b ≤ c

/-- Line number `i` would exceed the limit, and there is no boundary at which a part can end. -/
structure ForcedAt (i : Nat) : Prop where
  overflows : p.OverflowsAt i
  none : ∀ b ∈ p.boundaries, b ≤ i → b ≤ (p.progressAt i).start

/-- Line number `j` has begun a part for want of a boundary, and all lines since then have fitted in. -/
structure Pending (i j : Nat) : Prop where
  forced : p.ForcedAt j
  lt : j < i
  fits : ∀ m, j < m → m < i → ¬p.OverflowsAt m

/-- All lines of a range are blank. -/
def Blank (a b : Nat) : Prop := ∀ line ∈ range p.lines a b, isBlankText line = true

/-- Lines that would have been a part but are all blank: they end at a cut, or they are the last ones. -/
structure SkippedRange (a b : Nat) : Prop where
  blank : p.Blank a b
  place : (∃ k, p.CutAt k b ∧ (p.progressAt k).start = a) ∨
    (b = p.lines.length ∧ a + (p.progressAt p.lines.length).current.length = b)

/-- Line number `j` has begun a part for want of a boundary, and the next line that does not fit is cut at
a boundary behind the one that follows line `j`. -/
def Dropped (j : Nat) : Prop := ∃ k c, p.Pending k j ∧ p.CutAt k c ∧ j + 1 < c

variable {p} {i j base : Nat} {ranges : List (Nat × Nat)}

theorem CutAt.eq {c c' : Nat} (h : p.CutAt i c) (h' : p.CutAt i c') : c = c' :=
  Nat.le_antisymm (h'.latest c h.mem h.le) (h.latest c' h'.mem h'.le)

theorem CutAt.not_forcedAt {c : Nat} (h : p.CutAt i c) : ¬p.ForcedAt i := fun hforced =>
  absurd (hforced.none c h.mem h.le) (Nat.not_le_of_lt h.start_lt)

theorem OverflowsAt.cutAt (h : p.OverflowsAt i)
    (hlt : (p.progressAt i).start < Section.latest p.boundaries (p.progressAt i).start i) :
    p.CutAt i (Section.latest p.boundaries (p.progressAt i).start i) := by
  obtain ⟨-, hall, hmem⟩ := latest_spec p.boundaries (p.progressAt i).start i
  exact ⟨h, (hmem hlt).1, hlt, (hmem hlt).2, hall⟩

theorem OverflowsAt.forcedAt (h : p.OverflowsAt i)
    (hlt : ¬(p.progressAt i).start < Section.latest p.boundaries (p.progressAt i).start i) : p.ForcedAt i := by
  obtain ⟨-, hall, -⟩ := latest_spec p.boundaries (p.progressAt i).start i
  exact ⟨h, fun b hb hle => (hall b hb hle).trans (Nat.le_of_not_lt hlt)⟩

/-- What happens at a line, with the state behind it. -/
theorem progressAt_succ {line : String} (hline : p.lines[i]? = some line) :
    (¬p.OverflowsAt i ∧ p.progressAt (i + 1) =
      { p.progressAt i with
        current := (p.progressAt i).current ++ [line]
        tokens := (p.progressAt i).tokens + p.count (line ++ "\n") }) ∨
    (∃ c, p.CutAt i c ∧ p.progressAt (i + 1) =
      ⟨addPart (p.progressAt i).parts (range p.lines (p.progressAt i).start c), range p.lines c (i + 1),
        tokensOf p.count (range p.lines c (i + 1)), c⟩) ∨
    (p.ForcedAt i ∧ p.progressAt (i + 1) =
      ⟨if (p.progressAt i).current.isEmpty then (p.progressAt i).parts
        else (p.progressAt i).parts ++ [unlines (p.progressAt i).current],
        [line], p.count (line ++ "\n"), i + 1⟩) := by
  have hsucc : p.progressAt (i + 1) =
      (p.progressAt i).step p.count p.limit p.boundaries p.lines line i := by rw [progressAt, hline]
  rw [hsucc]
  by_cases hfit : (((p.progressAt i).tokens + p.count (line ++ "\n") : Nat) : Int) ≤ p.limit
  · refine Or.inl ⟨?_, by simp only [Progress.step, if_pos hfit]⟩
    rintro ⟨line', hline', hover⟩
    cases hline.symm.trans hline'
    exact absurd hfit (Int.not_le.2 hover)
  · have hover : p.OverflowsAt i := ⟨line, hline, Int.not_le.1 hfit⟩
    refine Or.inr ?_
    by_cases hcut : (p.progressAt i).start < Section.latest p.boundaries (p.progressAt i).start i
    · exact Or.inl ⟨_, hover.cutAt hcut, by simp only [Progress.step, if_neg hfit, if_pos hcut]⟩
    · exact Or.inr ⟨hover.forcedAt hcut, by simp only [Progress.step, if_neg hfit, if_neg hcut]⟩

theorem foldl_step_eq (i : Nat) (hi : i ≤ p.lines.length) :
    ((p.lines.drop i).zipIdx i).foldl
        (fun s (line, i) => s.step p.count p.limit p.boundaries p.lines line i) (p.progressAt i) =
      p.progressAt p.lines.length := by
  induction hk : p.lines.length - i generalizing i with
  | zero =>
    have hend : i = p.lines.length := by omega
    subst hend
    rw [List.drop_length]
    rfl
  | succ k ih =>
    have hlt : i < p.lines.length := by omega
    have hsucc : p.progressAt (i + 1) =
        (p.progressAt i).step p.count p.limit p.boundaries p.lines p.lines[i] i := by
      rw [progressAt, List.getElem?_eq_getElem hlt]
    rw [List.drop_eq_getElem_cons hlt, List.zipIdx_cons, List.foldl_cons]
    rw [← ih (i + 1) hlt (by omega), hsucc]

theorem splitOnce_eq_finish (p : Pass) :
    splitOnce p.count p.limit p.boundaries p.lines = (p.progressAt p.lines.length).finish := by
  rw [← foldl_step_eq 0 (Nat.zero_le _), List.drop_zero]
  rfl

/-! ### Lines in no range -/

/-- A line lies in none of some ranges. -/
def Uncovered (ranges : List (Nat × Nat)) (j : Nat) : Prop := ∀ r ∈ ranges, ¬(r.1 ≤ j ∧ j < r.2)

theorem uncovered_concat {a b : Nat} :
    Uncovered (ranges ++ [(a, b)]) j ↔ Uncovered ranges j ∧ ¬(a ≤ j ∧ j < b) := by
  simp only [Uncovered, List.mem_append, List.mem_singleton, or_imp, forall_and, forall_eq]

/-- The cut that is made at line number `k` leaves line number `j` out. -/
def LeftOutAt (p : Pass) (k j : Nat) : Prop :=
  ∃ c, p.CutAt k c ∧
    (((p.progressAt k).start ≤ j ∧ j < c ∧ p.Blank (p.progressAt k).start c) ∨ (p.Pending k j ∧ j + 1 < c))

/-- What holds before line number `i`: the parts are ranges of the lines before `base`, and the current part
is made of the lines from there on.  Lines before `base` are in no range if an earlier cut left them out. -/
structure Traced (p : Pass) (i base : Nat) (ranges : List (Nat × Nat)) : Prop where
  parts_eq : (p.progressAt i).parts = ranges.map fun r => unlines (range p.lines r.1 r.2)
  base_le : base ≤ i
  current_eq : (p.progressAt i).current = range p.lines base i
  start_eq : (p.progressAt i).start = base ∨ (p.progressAt i).start = base + 1
  pending_iff : ∀ j, p.Pending i j ↔ (p.progressAt i).start = base + 1 ∧ j = base
  proper : ∀ r ∈ ranges, r.1 < r.2 ∧ r.2 ≤ base
  ordered : ranges.Pairwise fun r s => r.2 ≤ s.1
  left_iff : ∀ j, (j < base ∧ Uncovered ranges j) ↔ ∃ k < i, p.LeftOutAt k j

theorem Uncovered.of_le (hproper : ∀ r ∈ ranges, r.1 < r.2 ∧ r.2 ≤ base) (hj : base ≤ j) : Uncovered ranges j := by
  intro r hr hin
  have := (hproper r hr).2
  omega

theorem exists_lt_succ {P : Nat → Prop} : (∃ k < i + 1, P k) ↔ (∃ k < i, P k) ∨ P i := by
  constructor
  · rintro ⟨k, hk, h⟩
    rcases Nat.lt_succ_iff_lt_or_eq.1 hk with hk | rfl
    · exact Or.inl ⟨k, hk, h⟩
    · exact Or.inr h
  · rintro (⟨k, hk, h⟩ | h)
    · exact ⟨k, Nat.lt_succ_of_lt hk, h⟩
    · exact ⟨i, Nat.lt_succ_self i, h⟩

namespace Traced

theorem start (p : Pass) : p.Traced 0 0 [] where
  parts_eq := rfl
  base_le := Nat.le_refl 0
  current_eq := (range_self p.lines 0).symm
  start_eq := Or.inl rfl
  pending_iff j := ⟨fun h => absurd h.lt (Nat.not_lt_zero j), fun h => absurd h.1 Nat.zero_ne_one⟩
  proper := by simp
  ordered := List.Pairwise.nil
  left_iff j := by simp

/-- One more range behind the others. -/
theorem ordered_concat (h : p.Traced i base ranges) {a b : Nat} (ha : base ≤ a) :
    (ranges ++ [(a, b)]).Pairwise fun r s => r.2 ≤ s.1 := by
  refine List.pairwise_append.2 ⟨h.ordered, List.pairwise_singleton _ _, ?_⟩
  intro r hr s hs
  rw [List.mem_singleton.1 hs]
  exact (h.proper r hr).2.trans ha

theorem proper_concat (h : p.Traced i base ranges) {a b : Nat} (hab : a < b) (hb : base ≤ b) :
    ∀ r ∈ ranges ++ [(a, b)], r.1 < r.2 ∧ r.2 ≤ b := by
  intro r hr
  rcases List.mem_append.1 hr with hr | hr
  · exact ⟨(h.proper r hr).1, (h.proper r hr).2.trans hb⟩
  · rw [List.mem_singleton.1 hr]
    exact ⟨hab, Nat.le_refl b⟩

/-- A line that fits joins the current part. -/
theorem fit (h : p.Traced i base ranges) {line : String} (hline : p.lines[i]? = some line)
    (hover : ¬p.OverflowsAt i) {tokens : Nat}
    (hs : p.progressAt (i + 1) = { p.progressAt i with
      current := (p.progressAt i).current ++ [line], tokens := tokens }) :
    p.Traced (i + 1) base ranges where
  parts_eq := by
    rw [hs]
    exact h.parts_eq
  base_le := Nat.le_succ_of_le h.base_le
  current_eq := by
    rw [hs, ← range_concat hline h.base_le, ← h.current_eq]
  start_eq := by
    rw [hs]
    exact h.start_eq
  pending_iff j := by
    rw [hs, ← h.pending_iff j]
    constructor
    · rintro ⟨hforced, hlt, hfits⟩
      have hne : j ≠ i := fun heq => hover (heq ▸ hforced.overflows)
      exact ⟨hforced, by omega, fun m hjm hm => hfits m hjm (by omega)⟩
    · rintro ⟨hforced, hlt, hfits⟩
      refine ⟨hforced, by omega, fun m hjm hm => ?_⟩
      rcases Nat.lt_succ_iff_lt_or_eq.1 hm with hm | rfl
      · exact hfits m hjm hm
      · exact hover
  proper := h.proper
  ordered := h.ordered
  left_iff j := by
    have hnone : ¬p.LeftOutAt i j := fun ⟨_, hcut, _⟩ => hover hcut.overflows
    rw [h.left_iff, exists_lt_succ, or_iff_left hnone]

/-- No line is pending behind a line that does not fit, unless that line is. -/
theorem not_pending_succ (hover : p.OverflowsAt i) (hj : j ≠ i) : ¬p.Pending (i + 1) j := by
  intro h
  have hlt := h.lt
  exact h.fits i (by omega) (Nat.lt_succ_self i) hover

/-- Which lines a cut leaves out, in terms of the part that ends there. -/
theorem leftOutAt_iff (h : p.Traced i base ranges) {c : Nat} (hcut : p.CutAt i c) :
    p.LeftOutAt i j ↔
      ((p.progressAt i).start ≤ j ∧ j < c ∧ p.Blank (p.progressAt i).start c) ∨
      ((p.progressAt i).start = base + 1 ∧ j = base) := by
  have hstart := hcut.start_lt
  constructor
  · rintro ⟨c', hcut', hleft | ⟨hpending, -⟩⟩
    · cases hcut.eq hcut'
      exact Or.inl hleft
    · exact Or.inr ((h.pending_iff j).1 hpending)
  · rintro (hleft | hpending)
    · exact ⟨c, hcut, Or.inl hleft⟩
    · refine ⟨c, hcut, Or.inr ⟨(h.pending_iff j).2 hpending, ?_⟩⟩
      rw [hpending.2, ← hpending.1]
      exact hstart

/-- A part that is added unless it is blank: its lines are in no range only if they are blank. -/
theorem addPart (h : p.Traced i base ranges) {a b : Nat} (ha : base ≤ a) (hab : a < b) :
    ∃ ranges', Section.addPart (p.progressAt i).parts (range p.lines a b) =
        (ranges'.map fun r => unlines (range p.lines r.1 r.2)) ∧
      (∀ r ∈ ranges', r.1 < r.2 ∧ r.2 ≤ b) ∧ (ranges'.Pairwise fun r s => r.2 ≤ s.1) ∧
      ∀ j, Uncovered ranges' j ↔ Uncovered ranges j ∧ (a ≤ j → j < b → p.Blank a b) := by
  rw [h.parts_eq, Section.addPart]
  by_cases hblank : isBlankText (unlines (range p.lines a b)) = true
  · have hall : p.Blank a b := by
      rw [Text.isBlankText_unlines] at hblank
      exact List.all_eq_true.1 hblank
    refine ⟨ranges, if_pos hblank, ?_, h.ordered, ?_⟩
    · exact fun r hr => ⟨(h.proper r hr).1, (h.proper r hr).2.trans (ha.trans hab.le)⟩
    · exact fun j => ⟨fun hfree => ⟨hfree, fun _ _ => hall⟩, And.left⟩
  · have hnot : ¬p.Blank a b := by
      rw [Text.isBlankText_unlines] at hblank
      exact fun hall => hblank (List.all_eq_true.2 hall)
    refine ⟨ranges ++ [(a, b)], ?_, h.proper_concat hab (ha.trans hab.le), h.ordered_concat ha, ?_⟩
    · rw [List.map_append]
      exact if_neg hblank
    · intro j
      rw [uncovered_concat, not_and]
      exact and_congr_right fun _ => forall_congr' fun _ => ⟨fun hj hlt => absurd hlt hj, fun hj hlt => hnot (hj hlt)⟩

/-- The lines up to a cut are a range, unless they are blank; a line that is pending is in front of them. -/
theorem cut (h : p.Traced i base ranges) {c : Nat} (hcut : p.CutAt i c) {tokens : Nat}
    (hs : p.progressAt (i + 1) = ⟨Section.addPart (p.progressAt i).parts (range p.lines (p.progressAt i).start c),
      range p.lines c (i + 1), tokens, c⟩) :
    ∃ ranges', p.Traced (i + 1) c ranges' := by
  have hstart := hcut.start_lt
  have hbase : base ≤ (p.progressAt i).start := by rcases h.start_eq with heq | heq <;> omega
  obtain ⟨ranges', hparts, hproper, hordered, hfree⟩ := h.addPart hbase hstart
  refine ⟨ranges', by rw [hs, hparts], Nat.le_succ_of_le hcut.le, by rw [hs], Or.inl (by rw [hs]), ?_, hproper,
    hordered, ?_⟩
  · intro j
    rw [hs]
    refine iff_of_false ?_ (by simp)
    by_cases hj : j = i
    · exact fun hpending => hcut.not_forcedAt (hj ▸ hpending.forced)
    · exact not_pending_succ hcut.overflows hj
  · intro j
    rw [exists_lt_succ, ← h.left_iff, h.leftOutAt_iff hcut, hfree]
    constructor
    · rintro ⟨hj, huncovered, hblank⟩
      by_cases hlow : j < base
      · exact Or.inl ⟨hlow, huncovered⟩
      · by_cases hpart : (p.progressAt i).start ≤ j
        · exact Or.inr (Or.inl ⟨hpart, hj, hblank hpart hj⟩)
        · exact Or.inr (Or.inr (by rcases h.start_eq with heq | heq <;> omega))
    · rintro (⟨hlow, huncovered⟩ | ⟨hpart, hj, hblank⟩ | ⟨heq, rfl⟩)
      · exact ⟨by omega, huncovered, fun hpart => by omega⟩
      · exact ⟨hj, .of_le h.proper (by omega), fun _ _ => hblank⟩
      · exact ⟨by omega, .of_le h.proper (Nat.le_refl _), fun hpart => by omega⟩

/-- Without a boundary the current part ends in front of the line. -/
theorem force (h : p.Traced i base ranges) {line : String} (hline : p.lines[i]? = some line) (hforced : p.ForcedAt i)
    {tokens : Nat}
    (hs : p.progressAt (i + 1) = ⟨if (p.progressAt i).current.isEmpty then (p.progressAt i).parts
      else (p.progressAt i).parts ++ [unlines (p.progressAt i).current], [line], tokens, i + 1⟩) :
    ∃ ranges', p.Traced (i + 1) i ranges' := by
  obtain ⟨hi, -⟩ := List.getElem?_eq_some_iff.1 hline
  have hcurrent : (p.progressAt (i + 1)).current = range p.lines i (i + 1) := by
    rw [hs, ← range_concat hline (Nat.le_refl i), range_self]
    rfl
  have hpending : ∀ j, p.Pending (i + 1) j ↔ (p.progressAt (i + 1)).start = i + 1 ∧ j = i := by
    intro j
    rw [hs]
    by_cases hj : j = i
    · subst hj
      exact iff_of_true ⟨hforced, Nat.lt_succ_self j, fun m hjm hm => by omega⟩ ⟨rfl, rfl⟩
    · exact iff_of_false (not_pending_succ hforced.overflows hj) fun hpair => hj hpair.2
  have hleft : ∀ j, (∃ k < i + 1, p.LeftOutAt k j) ↔ j < base ∧ Uncovered ranges j := by
    intro j
    have hnone : ¬p.LeftOutAt i j := fun ⟨_, hcut, _⟩ => hcut.not_forcedAt hforced
    rw [exists_lt_succ, ← h.left_iff, or_iff_left hnone]
  have hlength : (p.progressAt i).current.length = i - base := by rw [h.current_eq, length_range hi.le]
  by_cases hempty : base = i
  · -- there is no current part in front of the first line
    refine ⟨ranges, ?_, Nat.le_succ i, hcurrent, Or.inr (by rw [hs]), hpending, hempty ▸ h.proper, h.ordered,
      fun j => by rw [hleft, hempty]⟩
    have hnil : (p.progressAt i).current = [] := List.eq_nil_of_length_eq_zero (by omega)
    rw [hs, ← h.parts_eq]
    simp only [hnil, List.isEmpty_nil, if_true]
  · have hlt : base < i := lt_of_le_of_ne h.base_le hempty
    have hne : (p.progressAt i).current ≠ [] := List.ne_nil_of_length_pos (by omega)
    refine ⟨ranges ++ [(base, i)], ?_, Nat.le_succ i, hcurrent, Or.inr (by rw [hs]), hpending,
      h.proper_concat hlt hlt.le, h.ordered_concat (Nat.le_refl base), ?_⟩
    · rw [hs, List.map_append, ← h.parts_eq, List.map_singleton, ← h.current_eq]
      simp only [List.isEmpty_eq_false_iff.2 hne, Bool.false_eq_true, if_false]
    · intro j
      rw [hleft, uncovered_concat]
      constructor
      · rintro ⟨hj, hfree, hout⟩
        exact ⟨by omega, hfree⟩
      · rintro ⟨hj, hfree⟩
        exact ⟨by omega, hfree, by omega⟩

/-- What one line preserves. -/
theorem next (h : p.Traced i base ranges) (hi : i < p.lines.length) :
    ∃ base' ranges', p.Traced (i + 1) base' ranges' := by
  have hline := List.getElem?_eq_getElem hi
  rcases progressAt_succ hline with ⟨hover, hs⟩ | ⟨c, hcut, hs⟩ | ⟨hforced, hs⟩
  · exact ⟨base, ranges, h.fit hline hover hs⟩
  · exact ⟨c, h.cut hcut hs⟩
  · exact ⟨i, h.force hline hforced hs⟩

theorem run (p : Pass) (hi : i ≤ p.lines.length) : ∃ base ranges, p.Traced i base ranges := by
  induction i with
  | zero => exact ⟨0, [], start p⟩
  | succ i ih =>
    obtain ⟨base, ranges, h⟩ := ih (Nat.le_of_succ_le hi)
    exact h.next hi

/-- When all lines have been read, the current part is a range too, unless it is blank. -/
theorem finish (h : p.Traced p.lines.length base ranges) :
    ∃ ranges', (p.progressAt p.lines.length).finish = (ranges'.map fun r => unlines (range p.lines r.1 r.2)) ∧
      (∀ r ∈ ranges', r.1 < r.2 ∧ r.2 ≤ p.lines.length) ∧ (ranges'.Pairwise fun r s => r.2 ≤ s.1) ∧
      ∀ j < p.lines.length, Uncovered ranges' j ↔
        (∃ k < p.lines.length, p.LeftOutAt k j) ∨ (base ≤ j ∧ p.Blank base p.lines.length) := by
  rw [Progress.finish, h.current_eq]
  by_cases hempty : base = p.lines.length
  · -- there are no lines at all
    refine ⟨ranges, ?_, hempty ▸ h.proper, h.ordered, ?_⟩
    · rw [hempty, range_self]
      exact h.parts_eq
    · intro j hj
      rw [← h.left_iff, or_iff_left (by omega), and_iff_right (by omega)]
  · have hlt : base < p.lines.length := lt_of_le_of_ne h.base_le hempty
    obtain ⟨ranges', hparts, hproper, hordered, hfree⟩ := h.addPart (Nat.le_refl base) hlt
    rw [List.isEmpty_eq_false_iff.2 (range_ne_nil p.lines hlt hlt), if_neg Bool.false_ne_true]
    refine ⟨ranges', hparts, hproper, hordered, ?_⟩
    intro j hj
    rw [← h.left_iff, hfree]
    constructor
    · rintro ⟨huncovered, hblank⟩
      by_cases hlow : j < base
      · exact Or.inl ⟨hlow, huncovered⟩
      · exact Or.inr ⟨Nat.le_of_not_lt hlow, hblank (Nat.le_of_not_lt hlow) hj⟩
    · rintro (⟨hlow, huncovered⟩ | ⟨hle, hblank⟩)
      · exact ⟨huncovered, fun hle => by omega⟩
      · exact ⟨.of_le h.proper hle, fun _ _ => hblank⟩

end Traced

end Pass

/-- The parts of one pass are joined ranges of lines, none of them empty, each behind the one before.  A line is
in none of them exactly if it was skipped in a range of blank lines, or had begun a part for want of a boundary
and was dropped by the next cut. -/
theorem splitOnce_eq_ranges (p : Pass) :
    ∃ ranges : List (Nat × Nat),
      (splitOnce p.count p.limit p.boundaries p.lines = ranges.map fun r => unlines (range p.lines r.1 r.2)) ∧
      (∀ r ∈ ranges, r.1 < r.2 ∧ r.2 ≤ p.lines.length) ∧
      (ranges.Pairwise fun r s => r.2 ≤ s.1) ∧
      ∀ j < p.lines.length, (∀ r ∈ ranges, ¬(r.1 ≤ j ∧ j < r.2)) ↔
        (∃ a b, a ≤ j ∧ j < b ∧ p.SkippedRange a b) ∨ p.Dropped j := by
  obtain ⟨base, ranges, h⟩ := Pass.Traced.run p (Nat.le_refl p.lines.length)
  obtain ⟨ranges', hparts, hproper, hordered, hfree⟩ := h.finish
  have hlast : base + (p.progressAt p.lines.length).current.length = p.lines.length := by
    have := h.base_le
    rw [h.current_eq, length_range (Nat.le_refl _)]
    omega
  refine ⟨ranges', (Pass.splitOnce_eq_finish p).trans hparts, hproper, hordered, ?_⟩
  intro j hj
  refine (hfree j hj).trans ⟨?_, ?_⟩
  · rintro (⟨k, -, c, hcut, ⟨hstart, hc, hall⟩ | ⟨hpending, hlt⟩⟩ | ⟨hle, hall⟩)
    · exact Or.inl ⟨_, c, hstart, hc, hall, Or.inl ⟨k, hcut, rfl⟩⟩
    · exact Or.inr ⟨k, c, hpending, hcut, hlt⟩
    · exact Or.inl ⟨base, p.lines.length, hle, hj, hall, Or.inr ⟨rfl, hlast⟩⟩
  · have hbound : ∀ {k c : Nat}, p.CutAt k c → k < p.lines.length := by
      intro k c hcut
      obtain ⟨line, hline, -⟩ := hcut.overflows
      exact (List.getElem?_eq_some_iff.1 hline).1
    rintro (⟨a, b, ha, hb, hall, ⟨k, hcut, rfl⟩ | ⟨rfl, heq⟩⟩ | ⟨k, c, hpending, hcut, hlt⟩)
    · exact Or.inl ⟨k, hbound hcut, b, hcut, Or.inl ⟨ha, hb, hall⟩⟩
    · have hbase : a = base := by omega
      exact Or.inr ⟨hbase ▸ ha, hbase ▸ hall⟩
    · exact Or.inl ⟨k, hbound hcut, c, hcut, Or.inr ⟨hpending, hlt⟩⟩

-- The line `b` begins a part of its own, and the boundary in front of `d` drops it.
example : splitOnce String.length 4 [0, 3] ["aaaa", "b", "c", "d"] = ["aaaa", "c", "d"] := by decide

end CodeAtlas.Section
