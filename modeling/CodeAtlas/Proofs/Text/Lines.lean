import CodeAtlas.Text.Blank
import CodeAtlas.Text.Lines
import Mathlib.Data.List.TakeWhile

/-!
# Lines joined and taken apart again

Lines that hold no line end come back when their join is taken apart, except for an empty line at the
end, which the join cannot show.
-/

namespace CodeAtlas.Text

/-- A text without line ends. -/
def IsLine (line : String) : Prop := ∀ c ∈ line.toList, isLineEnd c = false

/-- A character that ends no line goes to the first line. -/
theorem splitKeep_cons_of_not_isLineEnd {c : Char} (h : isLineEnd c = false) (rest : List Char) :
    splitKeep (c :: rest) = consLine c (splitKeep rest) := by
  have hc : c ≠ '\r' := by
    rintro rfl
    exact absurd h (by decide)
  rw [splitKeep.eq_3 c rest (by rintro r rfl; exact fun _ => hc rfl)]
  simp [h]

/-- Characters without a line end in front of a line feed are one line. -/
theorem splitKeep_append_lineFeed {cs : List Char} (h : ∀ c ∈ cs, isLineEnd c = false)
    (rest : List Char) :
    splitKeep (cs ++ '\n' :: rest) = (cs ++ ['\n']) :: splitKeep rest := by
  induction cs with
  | nil =>
    rw [List.nil_append, splitKeep.eq_3 _ _ (by rintro r h; exact absurd h (by decide))]
    rfl
  | cons c cs ih =>
    rw [List.cons_append, splitKeep_cons_of_not_isLineEnd (h c List.mem_cons_self),
      ih fun d hd => h d (List.mem_cons_of_mem c hd)]
    rfl

/-- Characters without a line end are one line, unless there are none. -/
theorem splitKeep_of_no_lineEnd {cs : List Char} (h : ∀ c ∈ cs, isLineEnd c = false) :
    splitKeep cs = if cs = [] then [] else [cs] := by
  induction cs with
  | nil => rfl
  | cons c cs ih =>
    rw [splitKeep_cons_of_not_isLineEnd (h c List.mem_cons_self),
      ih fun d hd => h d (List.mem_cons_of_mem c hd)]
    by_cases hcs : cs = []
    · simp [hcs, consLine]
    · simp [hcs, consLine]

/-- A line without an end keeps all its characters. -/
theorem dropLineEnd_of_no_lineEnd {cs : List Char} (h : ∀ c ∈ cs, isLineEnd c = false)
    (rest : List Char) : dropLineEnd (cs ++ '\n' :: rest) = cs := by
  have hcs : ∀ c ∈ cs, (!isLineEnd c) = true := fun c hc => by simp [h c hc]
  rw [dropLineEnd, List.takeWhile_append_of_pos hcs,
    List.takeWhile_cons_of_neg (by decide), List.append_nil]

/-- The lines of a text hold no line ends. -/
theorem isLine_of_mem_lines {text line : String} (h : line ∈ lines text) : IsLine line := by
  simp only [lines, splitLines, List.map_map, List.mem_map, Function.comp_apply] at h
  obtain ⟨cs, _, rfl⟩ := h
  intro c hc
  rw [String.toList_ofList] at hc
  simpa using List.mem_takeWhile_imp hc

/-- The first of several joined lines is the first line of the join. -/
theorem lines_unlines_cons {line : String} (h : IsLine line) {rest : List String} (hrest : rest ≠ []) :
    lines (unlines (line :: rest)) = line :: lines (unlines rest) := by
  have hjoin : (unlines (line :: rest)).toList = line.toList ++ '\n' :: (unlines rest).toList := by
    rw [unlines, String.intercalate_cons_of_ne_nil hrest]
    simp [unlines]
  rw [lines, splitLines, hjoin, splitKeep_append_lineFeed h, List.map_cons, List.map_cons,
    dropLineEnd_of_no_lineEnd h, String.ofList_toList]
  rfl

/-- A single line is the only line of its join, unless it is empty. -/
theorem lines_unlines_singleton {line : String} (h : IsLine line) :
    lines (unlines [line]) = if line = "" then [] else [line] := by
  rw [lines, splitLines, unlines, String.intercalate_singleton, splitKeep_of_no_lineEnd h]
  by_cases hline : line = ""
  · simp [hline]
  · have hcs : line.toList ≠ [] := by simpa using hline
    have hend : dropLineEnd line.toList = line.toList :=
      List.takeWhile_eq_self_iff.2 fun c hc => by simp [h c hc]
    simp [hline, hcs, hend]

/-- The lines of joined lines are these lines again, without an empty one at the end. -/
theorem lines_unlines {ls : List String} (h : ∀ line ∈ ls, IsLine line) :
    lines (unlines ls) = if ls.getLast? = some "" then ls.dropLast else ls := by
  induction ls with
  | nil => rfl
  | cons line rest ih =>
    have hline := h line List.mem_cons_self
    by_cases hrest : rest = []
    · subst hrest
      rw [lines_unlines_singleton hline]
      simp
    · have hlast : (line :: rest).getLast? = rest.getLast? := by
        cases rest with
        | nil => exact absurd rfl hrest
        | cons second rest => exact List.getLast?_cons_cons
      rw [lines_unlines_cons hline hrest, ih fun l hl => h l (List.mem_cons_of_mem line hl), hlast]
      split
      · rw [List.dropLast_cons_of_ne_nil hrest]
      · rfl

/-- Joining lines and taking them apart again adds and moves nothing. -/
theorem lines_unlines_sublist {ls : List String} (h : ∀ line ∈ ls, IsLine line) :
    (lines (unlines ls)).Sublist ls := by
  rw [lines_unlines h]
  split
  · exact List.dropLast_sublist ls
  · exact List.Sublist.refl ls

/-- Lines that are not empty all come back. -/
theorem count_lines_unlines {ls : List String} (h : ∀ line ∈ ls, IsLine line) {line : String}
    (hline : line ≠ "") : (lines (unlines ls)).count line = ls.count line := by
  rw [lines_unlines h]
  split
  · rename_i hlast
    obtain ⟨front, rfl⟩ := List.getLast?_eq_some_iff.1 hlast
    simp [List.count_append, hline.symm]
  · rfl

/-- The empty text is blank, so a line that is not blank is not empty. -/
theorem ne_empty_of_not_isBlankText {line : String} (h : isBlankText line = false) : line ≠ "" := by
  rintro rfl
  exact absurd h (by decide)

/-- Joined lines are blank when each of them is. -/
theorem isBlankText_unlines (ls : List String) : isBlankText (unlines ls) = ls.all isBlankText := by
  induction ls with
  | nil => rfl
  | cons line rest ih =>
    by_cases hrest : rest = []
    · subst hrest
      simp [unlines]
    · rw [List.all_cons, ← ih, unlines, String.intercalate_cons_of_ne_nil hrest]
      have hfeed : isBlank '\n' = true := by decide
      simp [isBlankText, hfeed, unlines]

/-! ### Lines with their ends -/

theorem intercalate_empty (texts : List String) : "".intercalate texts = String.join texts := by
  induction texts with
  | nil => rfl
  | cons first rest ih =>
    cases rest with
    | nil => simp
    | cons second rest => simp [String.intercalate_cons_cons, ih]

theorem flatten_consLine (c : Char) (lines : List (List Char)) :
    (consLine c lines).flatten = c :: lines.flatten := by
  cases lines <;> rfl

theorem flatten_splitKeep (cs : List Char) : (splitKeep cs).flatten = cs := by
  induction cs using splitKeep.induct with
  | case1 => rfl
  | case2 rest ih => simp [splitKeep, ih]
  | case3 c rest hc hend ih =>
    rw [splitKeep.eq_3 c rest hc, if_pos hend]
    simp [ih]
  | case4 c rest hc hend ih => rw [splitKeep.eq_3 c rest hc, if_neg hend, flatten_consLine, ih]

theorem consLine_ne_nil (c : Char) (lines : List (List Char)) (h : ∀ line ∈ lines, line ≠ []) :
    ∀ line ∈ consLine c lines, line ≠ [] := by
  cases lines with
  | nil => simp [consLine]
  | cons first rest => simp_all [consLine]

theorem ne_nil_of_mem_splitKeep (cs : List Char) : ∀ line ∈ splitKeep cs, line ≠ [] := by
  induction cs using splitKeep.induct with
  | case1 => simp [splitKeep]
  | case2 rest ih => simpa [splitKeep] using ih
  | case3 c rest hc hend ih =>
    rw [splitKeep.eq_3 c rest hc, if_pos hend]
    simpa using ih
  | case4 c rest hc hend ih =>
    rw [splitKeep.eq_3 c rest hc, if_neg hend]
    exact consLine_ne_nil c _ ih

/-- Lines that keep their ends make up the text. -/
theorem join_linesKeep (text : String) : String.join (linesKeep text) = text := by
  apply String.toList_injective
  simp [linesKeep, List.flatMap_map, flatten_splitKeep]

theorem ne_empty_of_mem_linesKeep {text line : String} (h : line ∈ linesKeep text) : line ≠ "" := by
  obtain ⟨cs, hcs, rfl⟩ := List.mem_map.1 h
  simpa using ne_nil_of_mem_splitKeep _ cs hcs

/-! ### Carriage returns -/

theorem foldNewlineChars_of_not_mem {cs : List Char} (h : '\r' ∉ cs) : foldNewlineChars cs = cs := by
  induction cs with
  | nil => rfl
  | cons c cs ih =>
    have hc : c ≠ '\r' := fun heq => h (heq ▸ List.mem_cons_self)
    have hrest : '\r' ∉ cs := fun hmem => h (List.mem_cons_of_mem c hmem)
    rw [foldNewlineChars.eq_3 _ _ (fun rest hstart => absurd hstart hc), ih hrest]
    simp [hc]

theorem foldNewlines_of_not_mem {s : String} (h : '\r' ∉ s.toList) : foldNewlines s = s := by
  rw [foldNewlines, foldNewlineChars_of_not_mem h, String.ofList_toList]

theorem not_mem_foldNewlineChars (cs : List Char) : '\r' ∉ foldNewlineChars cs := by
  fun_induction foldNewlineChars cs with
  | case1 => simp
  | case2 rest ih => simpa using ih
  | case3 c rest _ ih =>
    rw [List.mem_cons, not_or]
    refine ⟨?_, ih⟩
    split_ifs with hc
    · decide
    · intro heq
      simp [← heq] at hc

end CodeAtlas.Text
