import CodeAtlas.Proofs.Section.Pass
import CodeAtlas.Proofs.Section.Recut

/-!
# The levels of cutting

A section that counts too many tokens is cut by one pass, and some of the parts are cut again in the same
way.  A part that is cut again has fewer lines than the section, so the bound on the depth of cutting is
never felt, and facts about all levels are proved by induction on them.
-/

namespace CodeAtlas.Section

open Text (IsLine isBlankText unlines)

section Definitions

variable (p : Policy) (count : Counter) (limit : Int) (extension : String)

/-- The parts of a section, for a limit as it is meant. -/
def partsOf (content : String) : List String :=
  splitFrom p count limit extension ((Text.lines content).length + 1) content

/-- The lines that the pass over a section leaves out. -/
def strandedLines (content : String) : List String :=
  stranded count limit (Boundary.all p.heads (Text.lines content) (p.ends content extension)) (Text.lines content)

/-- The visits of parts that are too large, in the closing pass over the parts of a section. -/
def levelVisits (content : String) : List Visit :=
  visits count limit (partsOf p count limit extension) (firstParts p count limit extension content)

/-- The parts of a section that are cut again. -/
def cutAgain (content : String) : List String := cutParts (levelVisits p count limit extension content)

/-- The lines of the entries that pieces of these parts replace. -/
def replacedLines (content : String) : List String :=
  (replacedEntries (levelVisits p count limit extension content)).flatMap Text.lines

/-- The lines of the pieces of these parts. -/
def insertedLines (content : String) : List String :=
  ((cutAgain p count limit extension content).flatMap (partsOf p count limit extension)).flatMap Text.lines

/-- A property holds of a section, if it is cut at all, and of all that is cut again in it. -/
inductive EveryLevel (P : String → Prop) : String → Prop
  | fits {content : String} : count content ≤ limit → EveryLevel P content
  | cut {content : String} : limit < count content → P content →
      (∀ part ∈ cutAgain p count limit extension content, EveryLevel P part) → EveryLevel P content

end Definitions

variable {p : Policy} {count : Counter} {limit : Int} {extension content : String}

/-- The parts of the first pass are joined segments of the lines of the section. -/
theorem firstParts_segments (p : Policy) (count : Counter) (limit : Int) (extension content : String) :
    ∃ segments, firstParts p count limit extension content = segments.map unlines ∧
      Accounts (Text.lines content) segments (strandedLines p count limit extension content) ∧
      ∀ line, (Text.lines content).getLast? = some line → isBlankText line = false →
        line ∈ segments.flatten :=
  splitOnce_segments count limit _ (Text.lines content)

theorem isLine_lines (content : String) : ∀ line ∈ Text.lines content, IsLine line :=
  fun _ => Text.isLine_of_mem_lines

/-- One pass adds and moves no line. -/
theorem firstParts_lines_sublist :
    ((firstParts p count limit extension content).flatMap Text.lines).Sublist (Text.lines content) := by
  obtain ⟨segments, hparts, hacc, _⟩ := firstParts_segments p count limit extension content
  rw [hparts]
  exact hacc.lines_sublist (isLine_lines content)

/-- One pass loses no lines but those that it leaves out, and blank ones. -/
theorem firstParts_count_lines (p : Policy) (count : Counter) (limit : Int) (extension content : String)
    {line : String} (hline : isBlankText line = false) :
    ((firstParts p count limit extension content).flatMap Text.lines).count line +
      (strandedLines p count limit extension content).count line = (Text.lines content).count line := by
  obtain ⟨segments, hparts, hacc, _⟩ := firstParts_segments p count limit extension content
  rw [hparts]
  exact hacc.count_lines (isLine_lines content) hline

/-- Where one pass makes several parts, each has fewer lines than the section. -/
theorem firstParts_length_lines_lt (hlen : 2 ≤ (firstParts p count limit extension content).length)
    {part : String} (hpart : part ∈ firstParts p count limit extension content) :
    (Text.lines part).length < (Text.lines content).length := by
  obtain ⟨segments, hparts, hacc, _⟩ := firstParts_segments p count limit extension content
  rw [hparts] at hlen hpart
  exact hacc.length_lines_lt (isLine_lines content) (by simpa using hlen) hpart

/-- Of a section without blank lines every part of the pass has lines. -/
theorem firstParts_lines_ne_nil (hblank : ∀ line ∈ Text.lines content, isBlankText line = false)
    {part : String} (hpart : part ∈ firstParts p count limit extension content) : Text.lines part ≠ [] := by
  obtain ⟨segments, hparts, hacc, _⟩ := firstParts_segments p count limit extension content
  rw [hparts] at hpart
  exact hacc.lines_ne_nil (isLine_lines content) hblank hpart

/-- A section that has lines, none of them blank, has parts after one pass. -/
theorem firstParts_ne_nil (hlines : Text.lines content ≠ [])
    (hblank : ∀ line ∈ Text.lines content, isBlankText line = false) :
    firstParts p count limit extension content ≠ [] := by
  obtain ⟨segments, hparts, _, hlast⟩ := firstParts_segments p count limit extension content
  have hend := List.getLast?_eq_some_getLast hlines
  have hmem := hlast _ hend (hblank _ (List.getLast_mem hlines))
  rw [hparts]
  intro hnil
  rw [List.map_eq_nil_iff.1 hnil] at hmem
  exact absurd hmem (by simp)

/-- More depth than the section has lines makes no difference. -/
theorem splitFrom_depth {depth depth' : Nat} (h : (Text.lines content).length < depth)
    (h' : (Text.lines content).length < depth') :
    splitFrom p count limit extension depth content = splitFrom p count limit extension depth' content := by
  induction depth generalizing content depth' with
  | zero => exact absurd h (Nat.not_lt_zero _)
  | succ depth ih =>
    obtain ⟨depth', rfl⟩ := Nat.exists_eq_add_one_of_ne_zero (Nat.ne_of_gt (Nat.lt_of_le_of_lt (Nat.zero_le _) h'))
    rw [splitFrom, splitFrom]
    split
    · rfl
    · refine resplit_congr fun hlen part hpart => ih ?_ ?_
      · have := firstParts_length_lines_lt hlen hpart
        omega
      · have := firstParts_length_lines_lt hlen hpart
        omega

/-- A section is left whole if it fits; else its parts are those of one pass, with parts that are too
large cut again in the same way. -/
theorem partsOf_eq (p : Policy) (count : Counter) (limit : Int) (extension content : String) :
    partsOf p count limit extension content =
      if count content ≤ limit then [content]
      else resplit count limit (partsOf p count limit extension)
        (firstParts p count limit extension content) := by
  rw [partsOf, splitFrom]
  split
  · rfl
  · refine resplit_congr fun hlen part hpart => ?_
    exact splitFrom_depth (firstParts_length_lines_lt hlen hpart) (Nat.lt_succ_self _)

theorem partsOf_of_fits (h : count content ≤ limit) : partsOf p count limit extension content = [content] := by
  rw [partsOf_eq, if_pos h]

theorem partsOf_of_cut (h : limit < count content) :
    partsOf p count limit extension content =
      resplit count limit (partsOf p count limit extension) (firstParts p count limit extension content) := by
  rw [partsOf_eq, if_neg (Int.not_le.2 h)]

/-- What of a line is in the parts, was replaced or was left out, is what the section and the pieces have
of it. -/
theorem count_lines_balance (p : Policy) (extension : String) (h : limit < count content) {line : String}
    (hline : isBlankText line = false) :
    ((partsOf p count limit extension content).flatMap Text.lines).count line +
        (replacedLines p count limit extension content).count line +
        (strandedLines p count limit extension content).count line =
      (Text.lines content).count line + (insertedLines p count limit extension content).count line := by
  have hfirst := firstParts_count_lines p count limit extension content hline
  have hclosing : ((partsOf p count limit extension content).flatMap Text.lines).count line +
        (replacedLines p count limit extension content).count line =
      ((firstParts p count limit extension content).flatMap Text.lines).count line +
        (insertedLines p count limit extension content).count line := by
    rw [partsOf_of_cut h]
    exact count_resplitFrom line
  omega

/-- A part that is cut again is too large, and has fewer lines than the section. -/
theorem cutAgain_spec {part : String} (h : part ∈ cutAgain p count limit extension content) :
    part ∈ firstParts p count limit extension content ∧ tooLarge count limit part = true ∧
      (Text.lines part).length < (Text.lines content).length := by
  obtain ⟨hpart, hlarge⟩ := cutParts_spec h
  exact ⟨hpart, hlarge, firstParts_length_lines_lt (two_le_length_of_mem_cutParts h) hpart⟩

/-- The lines of a part that is cut again are lines of the section. -/
theorem cutAgain_lines_sublist {part : String} (h : part ∈ cutAgain p count limit extension content) :
    (Text.lines part).Sublist (Text.lines content) := by
  have hpart : (Text.lines part).Sublist
      ((firstParts p count limit extension content).flatMap Text.lines) :=
    List.sublist_flatten_of_mem (List.mem_map_of_mem (cutAgain_spec h).1)
  exact hpart.trans firstParts_lines_sublist

/-- What holds of sections that fit, and of a section if it holds of the parts that are cut again, holds of every
section. -/
theorem section_induction (p : Policy) (count : Counter) (limit : Int) (extension : String)
    {motive : String → Prop} (fits : ∀ content, count content ≤ limit → motive content)
    (cut : ∀ content, limit < count content →
      (∀ part ∈ cutAgain p count limit extension content, motive part) → motive content)
    (content : String) : motive content := by
  induction hn : (Text.lines content).length using Nat.strongRecOn generalizing content with
  | _ n ih =>
    by_cases hfit : count content ≤ limit
    · exact fits content hfit
    · refine cut content (Int.not_le.1 hfit) fun part hpart => ?_
      exact ih _ (hn ▸ (cutAgain_spec hpart).2.2) part rfl

/-- Every line of a part is a line of the section. -/
theorem partsOf_lines_subset (p : Policy) (count : Counter) (limit : Int) (extension content : String) :
    (partsOf p count limit extension content).flatMap Text.lines ⊆ Text.lines content := by
  induction content using section_induction p count limit extension with
  | fits content hfit =>
    rw [partsOf_of_fits hfit]
    simp
  | cut content hcut ih =>
    rw [partsOf_of_cut hcut]
    intro line hline
    obtain ⟨entry, hentry, hline⟩ := List.mem_flatMap.1 hline
    rcases mem_resplitFrom hentry with hentry | ⟨part, hpart, hentry⟩
    · exact firstParts_lines_sublist.subset (List.mem_flatMap.2 ⟨entry, hentry, hline⟩)
    · exact (cutAgain_lines_sublist hpart).subset
        (ih part hpart (List.mem_flatMap.2 ⟨entry, hentry, hline⟩))

/-- A section without blank lines has parts if it has lines, and each of its parts has lines. -/
theorem partsOf_filled (p : Policy) (count : Counter) (limit : Int) (extension content : String)
    (hlines : Text.lines content ≠ [])
    (hblank : ∀ line ∈ Text.lines content, isBlankText line = false) :
    partsOf p count limit extension content ≠ [] ∧
      ∀ part ∈ partsOf p count limit extension content, Text.lines part ≠ [] := by
  induction content using section_induction p count limit extension with
  | fits content hfit =>
    rw [partsOf_of_fits hfit]
    simpa using hlines
  | cut content hcut ih =>
    rw [partsOf_of_cut hcut]
    refine ⟨resplitFrom_ne_nil (firstParts_ne_nil hlines hblank), fun entry hentry => ?_⟩
    rcases mem_resplitFrom hentry with hentry | ⟨part, hpart, hentry⟩
    · exact firstParts_lines_ne_nil hblank hentry
    · refine (ih part hpart ?_ ?_).2 entry hentry
      · exact firstParts_lines_ne_nil hblank (cutAgain_spec hpart).1
      · exact fun line hline => hblank line ((cutAgain_lines_sublist hpart).subset hline)

end CodeAtlas.Section
