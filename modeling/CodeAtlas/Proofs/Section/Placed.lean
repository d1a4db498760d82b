import CodeAtlas.Proofs.Section.Ends

/-!
# The place of each part in the section

A part is placed by the number of lines of the section in front of it.  Parts of the first pass are ranges of
lines, and what a part is cut into lies inside of the part.  So it can be said of each line, by its number,
which parts hold it, although a line with the same text may stand elsewhere.

Two lines with a boundary directly behind the first are severed only by a cut of the first pass at a boundary
between them, if the lines from the first to the second fit.  For a part that holds both has this boundary
inside of it, so all its lines fit and it is not cut any further.

## Main definitions

* `Placed` — a part, with the number of lines in front of it
* `Placed.Holds` — a part has the line with a number
* `place` — the parts of a section with their places
* `Severed` — two lines are in different parts

## Main results

* `map_text_place` — the placed parts are the parts
* `severed_iff` — when two lines that belong together are severed
-/

namespace CodeAtlas.Section

/-- A part of a section, with the number of lines in front of it. -/
structure Placed where
  before : Nat
  text : String
  deriving DecidableEq, Repr

/-- The part has the line with a number, counted from one. -/
def Placed.Holds (part : Placed) (n : Nat) : Prop :=
  part.before < n ∧ n ≤ part.before + (Text.lines part.text).length

instance (part : Placed) (n : Nat) : Decidable (part.Holds n) := inferInstanceAs (Decidable (_ ∧ _))

/-- The part, behind more lines. -/
def Placed.shift (n : Nat) (part : Placed) : Placed := ⟨n + part.before, part.text⟩

/-- One part holds the first line and not the second, and another one the second and not the first. -/
def Severed (parts : List Placed) (first second : Nat) : Prop :=
  (∃ part ∈ parts, part.Holds first ∧ ¬part.Holds second) ∧ ∃ part ∈ parts, part.Holds second ∧ ¬part.Holds first

instance (parts : List Placed) (first second : Nat) : Decidable (Severed parts first second) :=
  inferInstanceAs (Decidable (_ ∧ _))

section Definitions

variable (p : Policy) (count : Counter) (limit : Int) (extension : String)

/-- The parts after one pass over the lines of a section. -/
def placeOnce (content : String) : List Placed :=
  (passOf p count limit extension content).ranges.map fun r => ⟨r.1, (passOf p count limit extension content).text r⟩

/-- Visits part number `i`, as `recut` does. -/
def placeAgain (again : String → List Placed) (now : List Placed) (part : Placed) (i : Nat) : List Placed :=
  if tooLarge count limit part.text && i + 1 < now.length then
    now.take i ++ (again part.text).map (Placed.shift part.before) ++ now.drop (i + 1)
  else now

/-- Cuts those parts again that are too large, as `resplit` does. -/
def placeAllAgain (again : String → List Placed) (parts : List Placed) : List Placed :=
  parts.zipIdx.foldl (fun now (part, i) => placeAgain count limit again now part i) parts

/-- The parts of a section, cut again at most `depth` times. -/
def placeFrom : Nat → String → List Placed
  | 0, content => [⟨0, content⟩]
  | depth + 1, content =>
    if count content ≤ limit then [⟨0, content⟩]
    else placeAllAgain count limit (placeFrom depth) (placeOnce p count limit extension content)

/-- The parts of a section with their places. -/
def place (content : String) : List Placed :=
  placeFrom p count (p.limit limit) extension ((Text.lines content).length + 1) content

end Definitions

variable {p : Policy} {count : Counter} {limit : Int} {extension content : String}
variable {again : String → List Placed} {part : Placed} {parts now rest : List Placed}

/-! ### The placed parts are the parts -/

theorem map_text_placeOnce (content : String) :
    (placeOnce p count limit extension content).map Placed.text = firstParts p count limit extension content := by
  rw [firstParts_eq_map, placeOnce, List.map_map]
  rfl

theorem map_text_shift (n : Nat) (parts : List Placed) :
    (parts.map (Placed.shift n)).map Placed.text = parts.map Placed.text := by
  rw [List.map_map]
  rfl

theorem map_text_placeAgain (now : List Placed) (part : Placed) (i : Nat) :
    (placeAgain count limit again now part i).map Placed.text =
      recut count limit (fun text => (again text).map Placed.text) (now.map Placed.text) part.text i := by
  rw [placeAgain, recut, List.length_map]
  split
  · rw [List.map_append, List.map_append, map_text_shift, List.map_take, List.map_drop]
  · rfl

theorem map_text_placeAllAgain (parts : List Placed) :
    (placeAllAgain count limit again parts).map Placed.text =
      resplit count limit (fun text => (again text).map Placed.text) (parts.map Placed.text) := by
  have hrun : ∀ (rest now : List Placed) (i : Nat),
      ((rest.zipIdx i).foldl (fun now e => placeAgain count limit again now e.1 e.2) now).map Placed.text =
        ((rest.map Placed.text).zipIdx i).foldl (fun now e =>
          recut count limit (fun text => (again text).map Placed.text) now e.1 e.2) (now.map Placed.text) := by
    intro rest
    induction rest with
    | nil => exact fun _ _ => rfl
    | cons part rest ih =>
      intro now i
      simp only [List.zipIdx_cons, List.map_cons, List.foldl_cons, ih, map_text_placeAgain]
  exact hrun parts parts 0

/-- The placed parts of a section are its parts. -/
theorem map_text_place (p : Policy) (count : Counter) (limit : Int) (extension content : String) :
    (place p count limit extension content).map Placed.text = split p count limit extension content := by
  have hdepth : ∀ depth text, (placeFrom p count (p.limit limit) extension depth text).map Placed.text =
      splitFrom p count (p.limit limit) extension depth text := by
    intro depth
    induction depth with
    | zero => exact fun _ => rfl
    | succ depth ih =>
      intro text
      rw [placeFrom, splitFrom]
      split
      · rfl
      · rw [map_text_placeAllAgain, map_text_placeOnce, funext ih]
  exact hdepth _ content

/-! ### Where placed parts come from -/

theorem mem_placeAgain {i : Nat} {x : Placed} (h : x ∈ placeAgain count limit again now part i) :
    x ∈ now ∨ x ∈ (again part.text).map (Placed.shift part.before) := by
  rw [placeAgain] at h
  split at h
  · rcases List.mem_append.1 h with h | h
    · rcases List.mem_append.1 h with h | h
      · exact Or.inl (List.mem_of_mem_take h)
      · exact Or.inr h
    · exact Or.inl (List.mem_of_mem_drop h)
  · exact Or.inl h

/-- A placed part is one of the first pass, or a piece of one. -/
theorem mem_placeAllAgain {x : Placed} (h : x ∈ placeAllAgain count limit again parts) :
    x ∈ parts ∨ ∃ part ∈ parts, x ∈ (again part.text).map (Placed.shift part.before) := by
  have hrun : ∀ (rest now : List Placed) (i : Nat),
      x ∈ (rest.zipIdx i).foldl (fun now (part, i) => placeAgain count limit again now part i) now →
        x ∈ now ∨ ∃ part ∈ rest, x ∈ (again part.text).map (Placed.shift part.before) := by
    intro rest
    induction rest with
    | nil => exact fun _ _ h => Or.inl h
    | cons part rest ih =>
      intro now i h
      rcases ih _ _ h with h | ⟨q, hq, h⟩
      · rcases mem_placeAgain h with h | h
        · exact Or.inl h
        · exact Or.inr ⟨part, List.mem_cons_self, h⟩
      · exact Or.inr ⟨q, List.mem_cons_of_mem part hq, h⟩
  exact hrun parts parts 0 h

theorem exists_range_of_mem {depth : Nat} {x : Placed}
    (h : x ∈ placeFrom p count limit extension (depth + 1) content) (hover : limit < count content) :
    ∃ r ∈ (passOf p count limit extension content).ranges,
      x = ⟨r.1, (passOf p count limit extension content).text r⟩ ∨
      x ∈ (placeFrom p count limit extension depth ((passOf p count limit extension content).text r)).map
        (Placed.shift r.1) := by
  rw [placeFrom, if_neg (Int.not_le.2 hover)] at h
  rcases mem_placeAllAgain h with h | ⟨part, hpart, h⟩
  · obtain ⟨r, hr, rfl⟩ := List.mem_map.1 h
    exact ⟨r, hr, Or.inl rfl⟩
  · obtain ⟨r, hr, rfl⟩ := List.mem_map.1 hpart
    exact ⟨r, hr, Or.inr h⟩

/-- Parts lie inside of the section. -/
theorem before_add_length_le {depth : Nat} {x : Placed} (h : x ∈ placeFrom p count limit extension depth content) :
    x.before + (Text.lines x.text).length ≤ (Text.lines content).length := by
  induction depth generalizing content x with
  | zero =>
    obtain rfl := List.mem_singleton.1 h
    simp
  | succ depth ih =>
    rcases Int.lt_or_le limit (count content) with hover | hfit
    · obtain ⟨r, hr, hx⟩ := exists_range_of_mem h hover
      obtain ⟨hlt, hle⟩ := Pass.ranges_proper hr
      have hlength := (Pass.lines_text_sublist (p := passOf p count limit extension content)
        (fun _ => Text.isLine_of_mem_lines) r).length_le
      rw [length_range hle] at hlength
      have hend : r.2 ≤ (Text.lines content).length := hle
      rcases hx with rfl | hx
      · simp only
        omega
      · obtain ⟨y, hy, rfl⟩ := List.mem_map.1 hx
        have hinner := ih hy
        simp only [Placed.shift]
        omega
    · rw [placeFrom, if_pos hfit] at h
      obtain rfl := List.mem_singleton.1 h
      simp

theorem placeAllAgain_of_length_le_one (h : parts.length ≤ 1) : placeAllAgain count limit again parts = parts := by
  match parts with
  | [] => rfl
  | [single] => simp [placeAllAgain, placeAgain]
  | _ :: _ :: _ => simp at h

/-- If all lines fit, nothing stands in front of a part. -/
theorem before_eq_zero {depth : Nat} {x : Placed} (h : x ∈ placeFrom p count limit extension depth content)
    (hfit : tokensOf count (Text.lines content) ≤ limit) : x.before = 0 := by
  cases depth with
  | zero =>
    obtain rfl := List.mem_singleton.1 h
    rfl
  | succ depth =>
    rw [placeFrom] at h
    split at h
    · obtain rfl := List.mem_singleton.1 h
      rfl
    · have hranges := Pass.ranges_of_all_fit (p := passOf p count limit extension content) hfit
      have hlength : (placeOnce p count limit extension content).length ≤ 1 := by
        rw [placeOnce, List.length_map, hranges]
        exact Pass.length_lastRange_le _
      rw [placeAllAgain_of_length_le_one hlength, placeOnce, hranges] at h
      obtain ⟨r, hr, rfl⟩ := List.mem_map.1 h
      rw [(Pass.lastRange_cases hr).2]
      exact Pass.base_eq_zero hfit (Nat.le_refl _)

/-- A part lies inside of a range of the first pass.  If all lines of the range fit, it begins with the range. -/
structure Placed.Within (q : Pass) (x : Placed) (r : Nat × Nat) : Prop where
  mem : r ∈ q.ranges
  le : r.1 ≤ x.before
  length_le : x.before + (Text.lines x.text).length ≤ r.2
  eq_of_fit : tokensOf q.count (range q.lines r.1 r.2) ≤ q.limit → x.before = r.1

theorem Placed.Within.bounds {q : Pass} {x : Placed} {r : Nat × Nat} {n : Nat} (h : x.Within q r) (hx : x.Holds n) :
    r.1 < n ∧ n ≤ r.2 :=
  ⟨Nat.lt_of_le_of_lt h.le hx.1, hx.2.trans h.length_le⟩

theorem exists_within {x : Placed} (h : x ∈ place p count limit extension content)
    (hover : p.limit limit < count content) :
    ∃ r, x.Within (passOf p count (p.limit limit) extension content) r := by
  obtain ⟨r, hr, hx⟩ := exists_range_of_mem h hover
  obtain ⟨hlt, hle⟩ := Pass.ranges_proper hr
  have hlines := Pass.lines_text_sublist (p := passOf p count (p.limit limit) extension content)
    (fun _ => Text.isLine_of_mem_lines) r
  have hlength := hlines.length_le
  rw [length_range hle] at hlength
  rcases hx with rfl | hx
  · exact ⟨r, hr, Nat.le_refl _, by simp only; omega, fun _ => rfl⟩
  · obtain ⟨y, hy, rfl⟩ := List.mem_map.1 hx
    have hinner := before_add_length_le hy
    refine ⟨r, hr, Nat.le_add_right _ _, by simp only [Placed.shift]; omega, fun hfit => ?_⟩
    have htokens := tokensOf_le_of_sublist count hlines
    have hzero := before_eq_zero hy (Int.le_trans (Int.ofNat_le.2 htokens) hfit)
    rw [Placed.shift, hzero]
    rfl

/-! ### Lines that belong together -/

section Together

variable {q : Pass} {first second : Nat}

/-- A line that begins a part for want of a boundary does not sever two lines that fit together, if there is a
boundary behind the first. -/
theorem Pass.ForcedAt.not_between {k : Nat} (h : q.ForcedAt k) (hboundary : first ∈ q.boundaries)
    (hfit : tokensOf q.count (range q.lines (first - 1) second) ≤ q.limit) (hbase : q.base k < first)
    (hle : first ≤ k) : second ≤ k := by
  by_contra hlt
  have hk := Pass.lt_of_overflows h.overflows
  have hstart := h.none first hboundary hle
  -- the current part begins with the first of the two lines
  have hfirst : first - 1 ≤ q.base k := by
    rcases Pass.start_eq hk.le with heq | heq <;> omega
  have hover := Pass.lt_of_overflowsAt h.overflows
  have hsub := tokensOf_le_of_sublist q.count (range_sublist q.lines hfirst (show k + 1 ≤ second by omega))
  omega

/-- The range with the first line ends in front of the second by a cut only. -/
theorem Pass.exists_cutAt {r : Nat × Nat} (hr : r ∈ q.ranges)
    (hboundary : first < q.lines.length → first ∈ q.boundaries)
    (hfit : tokensOf q.count (range q.lines (first - 1) second) ≤ q.limit) (hlow : r.1 < first) (hhigh : first ≤ r.2)
    (hend : r.2 < second) (hsecond : second ≤ q.lines.length) : ∃ k, q.CutAt k r.2 := by
  rcases Pass.mem_ranges.1 hr with ⟨k, hk, hr⟩ | hr
  · rcases Pass.endedAt_cases hr with ⟨hcut, -⟩ | ⟨hforced, -, rfl⟩
    · exact ⟨k, hcut⟩
    · simp only at hlow hhigh hend
      have := hforced.not_between (hboundary (by omega)) hfit hlow hhigh
      omega
  · rw [(Pass.lastRange_cases hr).2] at hend
    simp only at hend
    omega

end Together

section Severed

variable {first second : Nat}

theorem lt_of_severed (h : Severed (place p count limit extension content) first second) :
    p.limit limit < count content := by
  obtain ⟨⟨x, hx, hxfirst, -⟩, y, hy, -, hyfirst⟩ := h
  by_contra hfits
  rw [place, placeFrom, if_pos (Int.not_lt.1 hfits)] at hx hy
  rw [List.mem_singleton.1 hx] at hxfirst
  rw [List.mem_singleton.1 hy] at hyfirst
  exact hyfirst hxfirst

/-- No part reaches over a cut of the first pass. -/
theorem not_holds_both {x : Placed} {k c : Nat} (hx : x ∈ place p count limit extension content)
    (hover : p.limit limit < count content) (hcut : (passOf p count (p.limit limit) extension content).CutAt k c)
    (hfirst : first ≤ c) (hsecond : c < second) (h : x.Holds first) : ¬x.Holds second := by
  intro h'
  have hk := Pass.lt_of_overflows hcut.overflows
  obtain ⟨r, hr⟩ := exists_within hx hover
  have hapart := Pass.ranges_apart (Nat.succ_le_of_lt hk) hr.mem
  rw [Pass.base_of_cut hcut hk] at hapart
  have := hr.bounds h
  have := hr.bounds h'
  omega

/-- A part with the second line and not the first lies behind the range of the first pass that has the first.  For if
that range had both lines, all of it would fit, and every part inside of it would begin with it. -/
theorem range_end_lt {x y : Placed} {r : Nat × Nat} (hle : first ≤ second)
    (hboundary : first < (Text.lines content).length →
      first ∈ Boundary.all p.heads (Text.lines content) (p.ends content extension))
    (hr : x.Within (passOf p count (p.limit limit) extension content) r) (hx : x.Holds first)
    (hy : y ∈ place p count limit extension content) (hover : p.limit limit < count content)
    (hysecond : y.Holds second) (hyfirst : ¬y.Holds first) : r.2 < second := by
  by_contra hcovers
  obtain ⟨s, hs⟩ := exists_within hy hover
  obtain ⟨hrlow, hrhigh⟩ := hr.bounds hx
  obtain ⟨hslow, hshigh⟩ := hs.bounds hysecond
  obtain rfl := Pass.eq_of_overlap hr.mem hs.mem (by omega) (by omega)
  rcases Nat.lt_or_eq_of_le hle with hlt | rfl
  · have hend : r.2 ≤ (Text.lines content).length := (Pass.ranges_proper hr.mem).2
    have hall := Pass.tokensOf_range_le hr.mem (hboundary (by omega)) hrlow (by omega)
    exact hyfirst ⟨(hs.eq_of_fit hall).symm ▸ hrlow, hle.trans hysecond.2⟩
  · exact hyfirst hysecond

/-- Two lines with a boundary directly behind the first, which fit with all that is between them, are severed
exactly if the first pass makes a cut between them, and both are in some part at all. -/
theorem severed_iff (hle : first ≤ second)
    (hboundary : first < (Text.lines content).length →
      first ∈ Boundary.all p.heads (Text.lines content) (p.ends content extension))
    (hfit : tokensOf count (range (Text.lines content) (first - 1) second) ≤ p.limit limit) :
    Severed (place p count limit extension content) first second ↔
      p.limit limit < count content ∧
      (∃ k c, (passOf p count (p.limit limit) extension content).CutAt k c ∧ first ≤ c ∧ c < second) ∧
      (∃ part ∈ place p count limit extension content, part.Holds first) ∧
      ∃ part ∈ place p count limit extension content, part.Holds second := by
  constructor
  · intro hsevered
    have hover := lt_of_severed hsevered
    obtain ⟨⟨x, hx, hxfirst, -⟩, y, hy, hysecond, hyfirst⟩ := hsevered
    refine ⟨hover, ?_, ⟨x, hx, hxfirst⟩, y, hy, hysecond⟩
    obtain ⟨r, hr⟩ := exists_within hx hover
    obtain ⟨s, hs⟩ := exists_within hy hover
    obtain ⟨hlow, hhigh⟩ := hr.bounds hxfirst
    have hend := range_end_lt hle hboundary hr hxfirst hy hover hysecond hyfirst
    have hsecond : second ≤ (Text.lines content).length :=
      (hs.bounds hysecond).2.trans (Pass.ranges_proper hs.mem).2
    obtain ⟨k, hcut⟩ := Pass.exists_cutAt hr.mem hboundary hfit hlow hhigh hend hsecond
    exact ⟨k, r.2, hcut, hhigh, hend⟩
  · rintro ⟨hover, ⟨k, c, hcut, hc, hc'⟩, ⟨x, hx, hxfirst⟩, y, hy, hysecond⟩
    refine ⟨⟨x, hx, hxfirst, not_holds_both hx hover hcut hc hc' hxfirst⟩, y, hy, hysecond, fun hyfirst => ?_⟩
    exact not_holds_both hy hover hcut hc hc' hyfirst hysecond

end Severed

end CodeAtlas.Section
