import CodeAtlas.Proofs.Text.Lines
import Mathlib.Data.List.Basic

/-!
# Lines of texts that are written one behind the other

Where a text ends with a line feed, what is written behind it begins a line of its own.  Elsewhere the last
line of the one text and the first line of the other one become one line, and all other lines stay.

## Main definitions

* `EndsLine` — a text behind which a line begins
* `seams` — neighbours among texts of which the first one does not end its last line
* `tornLines` — the lines at these seams

## Main results

* `lines_append_of_endsLine` — lines behind the end of a line
* `exists_lines_append` — which lines of two texts are lines of both together
* `mem_lines_join` — only lines at a seam may be missing where texts are written one behind the other
-/

namespace CodeAtlas.Text

/-- Behind the text a line begins: it is empty, or ends with a line feed. -/
def EndsLine (text : String) : Prop := text = "" ∨ text.toList.getLast? = some '\n'

instance (text : String) : Decidable (EndsLine text) := inferInstanceAs (Decidable (_ ∨ _))

theorem endsLine_append_lineFeed (text : String) : EndsLine (text ++ "\n") :=
  Or.inr (by simp)

/-! ### Two texts -/

theorem splitKeep_ne_nil {cs : List Char} (h : cs ≠ []) : splitKeep cs ≠ [] := by
  fun_cases splitKeep cs with
  | case1 => exact absurd rfl h
  | case2 => simp
  | case3 => simp
  | case4 c rest =>
    cases hrest : splitKeep rest <;> simp [consLine]

/-- A character other than a carriage return in front of a line feed. -/
theorem splitKeep_cons {c : Char} {rest : List Char} (h : c = '\r' → rest.head? ≠ some '\n') :
    splitKeep (c :: rest) = if isLineEnd c then [c] :: splitKeep rest else consLine c (splitKeep rest) := by
  rw [splitKeep.eq_3 c rest]
  rintro r rfl rfl
  exact h rfl rfl

theorem splitKeep_lineFeed_cons (rest : List Char) : splitKeep ('\n' :: rest) = ['\n'] :: splitKeep rest := by
  rw [splitKeep_cons fun h => absurd h (by decide)]
  rfl

/-- Behind a line feed a line begins. -/
theorem splitKeep_append_of_getLast {front : List Char} (h : front.getLast? = some '\n') (back : List Char) :
    splitKeep (front ++ back) = splitKeep front ++ splitKeep back := by
  induction front with
  | nil => simp at h
  | cons c rest ih =>
    cases rest with
    | nil =>
      obtain rfl : c = '\n' := by simpa using h
      rw [List.singleton_append, splitKeep_lineFeed_cons, splitKeep_lineFeed_cons]
      rfl
    | cons d rest =>
      have hrest := ih (by simpa using h)
      by_cases hpair : c = '\r' ∧ d = '\n'
      · obtain ⟨rfl, rfl⟩ := hpair
        rw [List.cons_append, splitKeep_lineFeed_cons, splitKeep_lineFeed_cons, List.cons_append,
          List.cons_inj_right] at hrest
        simp only [List.cons_append, splitKeep, hrest]
      · have hhead : ∀ more, c = '\r' → (d :: more).head? ≠ some '\n' :=
          fun _ hc hd => hpair ⟨hc, by simpa using hd⟩
        rw [List.cons_append, List.cons_append, splitKeep_cons (hhead _), splitKeep_cons (hhead _),
          ← List.cons_append, hrest]
        have hne : splitKeep (d :: rest) ≠ [] := splitKeep_ne_nil (List.cons_ne_nil d rest)
        obtain ⟨line, lines, hlines⟩ := List.exists_cons_of_ne_nil hne
        rw [hlines]
        split_ifs <;> rfl

/-- All lines of the first text but its last one, and all lines of the second text but its first one, are
lines of both together. -/
theorem exists_splitKeep_append (front back : List Char) :
    ∃ middle, splitKeep (front ++ back) = (splitKeep front).dropLast ++ middle ++ (splitKeep back).tail ∧
      (front ≠ [] → middle ≠ []) := by
  induction front using splitKeep.induct with
  | case1 =>
    refine ⟨(splitKeep back).head?.toList, ?_, by simp⟩
    rw [List.nil_append]
    cases splitKeep back <;> rfl
  | case2 rest ih =>
    obtain ⟨middle, hmiddle, hne⟩ := ih
    by_cases hrest : rest = []
    · subst hrest
      exact ⟨['\r', '\n'] :: middle, by simpa [splitKeep] using hmiddle, by simp⟩
    · refine ⟨middle, ?_, fun _ => hne hrest⟩
      rw [List.cons_append, List.cons_append, splitKeep, splitKeep, hmiddle,
        List.dropLast_cons_of_ne_nil (splitKeep_ne_nil hrest)]
      rfl
  | case3 c rest hc hend ih =>
    obtain ⟨middle, hmiddle, hne⟩ := ih
    by_cases hrest : rest = []
    · subst hrest
      by_cases hpair : c = '\r' ∧ back.head? = some '\n'
      · -- the line end is made up of the last character here and the first one there
        obtain ⟨rfl, hback⟩ := hpair
        obtain ⟨more, rfl⟩ := List.head?_eq_some_iff.1 hback
        exact ⟨[['\r', '\n']], by simp [splitKeep, splitKeep_lineFeed_cons, isLineEnd], by simp⟩
      · refine ⟨[c] :: middle, ?_, by simp⟩
        rw [List.singleton_append, splitKeep_cons fun h hback => hpair ⟨h, hback⟩, if_pos hend,
          splitKeep_cons (by simp), if_pos hend]
        simpa [splitKeep] using hmiddle
    · obtain ⟨d, rest, rfl⟩ := List.exists_cons_of_ne_nil hrest
      have hhead : ∀ more, c = '\r' → (d :: more).head? ≠ some '\n' := by
        rintro more rfl hd
        exact hc rest rfl (by simpa using hd)
      refine ⟨middle, ?_, fun _ => hne hrest⟩
      rw [List.cons_append, List.cons_append, splitKeep_cons (hhead _), splitKeep_cons (hhead _), if_pos hend,
        if_pos hend, ← List.cons_append, hmiddle, List.dropLast_cons_of_ne_nil (splitKeep_ne_nil hrest)]
      rfl
  | case4 c rest hc hend ih =>
    obtain ⟨middle, hmiddle, hne⟩ := ih
    have hc : isLineEnd c = false := by simpa using hend
    rw [List.cons_append, splitKeep_cons_of_not_isLineEnd hc, splitKeep_cons_of_not_isLineEnd hc]
    by_cases hrest : rest = []
    · subst hrest
      rw [List.nil_append]
      cases splitKeep back with
      | nil => exact ⟨[[c]], rfl, by simp⟩
      | cons line lines => exact ⟨[c :: line], rfl, by simp⟩
    · obtain ⟨line, lines, hlines⟩ := List.exists_cons_of_ne_nil (splitKeep_ne_nil hrest)
      obtain ⟨first, middle, rfl⟩ := List.exists_cons_of_ne_nil (hne hrest)
      rw [hmiddle, hlines]
      cases lines with
      | nil => exact ⟨(c :: first) :: middle, rfl, by simp⟩
      | cons second lines => exact ⟨first :: middle, rfl, by simp⟩

theorem lines_append_of_endsLine {front : String} (h : EndsLine front) (back : String) :
    lines (front ++ back) = lines front ++ lines back := by
  rcases h with rfl | h
  · simp [lines, splitLines, splitKeep]
  · simp only [lines, splitLines, String.toList_append, splitKeep_append_of_getLast h, List.map_append]

theorem lines_ne_nil {text : String} (h : text ≠ "") : lines text ≠ [] := by
  have hchars : text.toList ≠ [] := by simpa using h
  simpa [lines, splitLines] using splitKeep_ne_nil hchars

/-- All lines of the first text but its last one, and all lines of the second text but its first one, are
lines of both together, and there is a line between them. -/
theorem exists_lines_append {front : String} (h : front ≠ "") (back : String) :
    ∃ start last middle, lines front = start ++ [last] ∧ middle ≠ [] ∧
      lines (front ++ back) = start ++ (middle ++ (lines back).tail) := by
  obtain ⟨start, last, hstart⟩ := (List.eq_nil_or_concat (lines front)).resolve_left (lines_ne_nil h)
  obtain ⟨middle, hmiddle, hne⟩ := exists_splitKeep_append front.toList back.toList
  rw [List.concat_eq_append] at hstart
  have hne : (middle.map dropLineEnd).map String.ofList ≠ [] := by simpa using hne (by simpa using h)
  refine ⟨start, last, (middle.map dropLineEnd).map String.ofList, hstart, hne, ?_⟩
  calc lines (front ++ back)
      = (lines front).dropLast ++ (middle.map dropLineEnd).map String.ofList ++ (lines back).tail := by
        simp only [lines, splitLines, String.toList_append, hmiddle, List.map_append, List.map_dropLast,
          List.map_tail]
    _ = start ++ ((middle.map dropLineEnd).map String.ofList ++ (lines back).tail) := by
        rw [hstart, List.dropLast_concat, List.append_assoc]

/-! ### Several texts -/

/-- Neighbours among texts of which the first one does not end its last line. -/
def seamsOf : List String → List (String × String)
  | front :: back :: rest => (if EndsLine front then [] else [(front, back)]) ++ seamsOf (back :: rest)
  | _ => []

/-- Neighbours among texts that are not empty, of which the first one does not end its last line. -/
def seams (texts : List String) : List (String × String) := seamsOf (texts.filter (!·.isEmpty))

/-- The lines on both sides of seams. -/
def linesAt (found : List (String × String)) : List String :=
  found.flatMap fun (front, back) => (lines front).getLast?.toList ++ (lines back).head?.toList

/-- The lines at the seams of texts. -/
def tornLines (texts : List String) : List String := linesAt (seams texts)

theorem mem_linesAt_seamsOf_cons {front : String} {rest : List String} {line : String}
    (h : line ∈ linesAt (seamsOf rest)) : line ∈ linesAt (seamsOf (front :: rest)) := by
  cases rest with
  | nil => simp [seamsOf, linesAt] at h
  | cons back rest =>
    rw [seamsOf, linesAt, List.flatMap_append]
    exact List.mem_append_right _ h

/-- The lines on both sides of a first seam. -/
theorem mem_linesAt_first {front back : String} {rest : List String} (hend : ¬ EndsLine front) {line : String}
    (h : (lines front).getLast? = some line ∨ (lines back).head? = some line) :
    line ∈ linesAt (seamsOf (front :: back :: rest)) := by
  rw [seamsOf, if_neg hend, linesAt, List.flatMap_append]
  refine List.mem_append_left _ ?_
  rcases h with h | h <;> simp [h]

theorem head_or_mem_tail {front line : String} {rest : List String}
    (h : line ∈ (front :: rest).flatMap lines) :
    (lines front).head? = some line ∨ line ∈ (lines front).tail ++ rest.flatMap lines := by
  rw [List.flatMap_cons] at h
  cases hfront : lines front with
  | nil => exact Or.inr (by simpa [hfront] using h)
  | cons first others =>
    rw [hfront, List.cons_append, List.mem_cons] at h
    rcases h with rfl | hother
    · exact Or.inl rfl
    · exact Or.inr hother

/-- The first line of the first text is the first line of all of them, or it is at a seam. -/
theorem head_lines_join {front : String} (hfront : front ≠ "") (rest : List String) {line : String}
    (h : (lines front).head? = some line) :
    line ∈ linesAt (seamsOf (front :: rest)) ∨ (lines (String.join (front :: rest))).head? = some line := by
  cases rest with
  | nil => exact Or.inr (by simpa using h)
  | cons back rest =>
    rw [String.join_cons]
    by_cases hend : EndsLine front
    · refine Or.inr ?_
      rw [lines_append_of_endsLine hend, List.head?_append_of_ne_nil _ (lines_ne_nil hfront)]
      exact h
    · obtain ⟨start, last, middle, hstart, _, hlines⟩ :=
        exists_lines_append hfront (String.join (back :: rest))
      rw [hstart] at h
      cases start with
      | nil => exact Or.inl (mem_linesAt_first hend (Or.inl (by simpa [hstart] using h)))
      | cons first start =>
        rw [hlines]
        exact Or.inr (by simpa using h)

/-- Every line but the first one of the first text is a line behind the first one of all texts, or it is at
a seam. -/
theorem mem_tail_lines_join {front : String} {rest : List String} (hne : ∀ text ∈ front :: rest, text ≠ "")
    {line : String} (h : line ∈ (lines front).tail ++ rest.flatMap lines) :
    line ∈ linesAt (seamsOf (front :: rest)) ∨ line ∈ (lines (String.join (front :: rest))).tail := by
  -- the first line is left out, as it may become one line with what is in front
  induction rest generalizing front with
  | nil => exact Or.inr (by simpa using h)
  | cons back rest ih =>
    have hfront : front ≠ "" := hne front List.mem_cons_self
    have hback : back ≠ "" := hne back (by simp)
    have hfurther : line ∈ (back :: rest).flatMap lines → (lines back).head? = some line ∨
        line ∈ linesAt (seamsOf (back :: rest)) ∨ line ∈ (lines (String.join (back :: rest))).tail :=
      fun hline => (head_or_mem_tail hline).imp id (ih fun text ht => hne text (List.mem_cons_of_mem _ ht))
    rw [String.join_cons]
    by_cases hend : EndsLine front
    · rw [lines_append_of_endsLine hend, List.tail_append_of_ne_nil (lines_ne_nil hfront)]
      rcases List.mem_append.1 h with hown | hline
      · exact Or.inr (List.mem_append_left _ hown)
      · rcases hfurther hline with hhead | hseam | htail
        · rcases head_lines_join hback rest hhead with hseam | hfirst
          · exact Or.inl (mem_linesAt_seamsOf_cons hseam)
          · exact Or.inr (List.mem_append_right _ (List.mem_of_mem_head? hfirst))
        · exact Or.inl (mem_linesAt_seamsOf_cons hseam)
        · exact Or.inr (List.mem_append_right _ (List.mem_of_mem_tail htail))
    · obtain ⟨start, last, middle, hstart, hmiddle, hlines⟩ :=
        exists_lines_append hfront (String.join (back :: rest))
      obtain ⟨first, middle, rfl⟩ := List.exists_cons_of_ne_nil hmiddle
      rw [hlines]
      rcases List.mem_append.1 h with hown | hline
      · cases start with
        | nil => simp [hstart] at hown
        | cons second start =>
          rw [hstart, List.cons_append, List.tail_cons, List.mem_append, List.mem_singleton] at hown
          rcases hown with hstart' | rfl
          · exact Or.inr (List.mem_append_left _ hstart')
          · exact Or.inl (mem_linesAt_first hend (Or.inl (by rw [hstart]; exact List.getLast?_concat)))
      · rcases hfurther hline with hhead | hseam | htail
        · exact Or.inl (mem_linesAt_first hend (Or.inr hhead))
        · exact Or.inl (mem_linesAt_seamsOf_cons hseam)
        · refine Or.inr ?_
          cases start with
          | nil => exact List.mem_append_right _ htail
          | cons second start => exact List.mem_append_right _ (List.mem_append_right _ htail)

theorem join_filter_isEmpty (texts : List String) :
    String.join (texts.filter (!·.isEmpty)) = String.join texts := by
  induction texts with
  | nil => rfl
  | cons text texts ih =>
    by_cases h : text = ""
    · simp [h, ih]
    · have hempty : text.isEmpty = false := by simpa using h
      simp [hempty, ih]

/-- Where texts are written one behind the other, their lines are lines of the whole, but for those at a
seam. -/
theorem mem_lines_join {texts : List String} {text line : String} (htext : text ∈ texts)
    (hline : line ∈ lines text) : line ∈ tornLines texts ∨ line ∈ lines (String.join texts) := by
  have hfilled : line ∈ (texts.filter (!·.isEmpty)).flatMap lines := by
    refine List.mem_flatMap.2 ⟨text, List.mem_filter.2 ⟨htext, ?_⟩, hline⟩
    by_contra hempty
    obtain rfl : text = "" := by simpa using hempty
    simp [lines, splitLines, splitKeep] at hline
  have hne : ∀ t ∈ texts.filter (!·.isEmpty), t ≠ "" := fun t ht => by simpa using (List.mem_filter.1 ht).2
  rw [tornLines, seams, ← join_filter_isEmpty texts]
  cases hcons : texts.filter (!·.isEmpty) with
  | nil => simp [hcons] at hfilled
  | cons front rest =>
    rw [hcons] at hfilled hne
    rcases head_or_mem_tail hfilled with hhead | htail
    · exact (head_lines_join (hne front List.mem_cons_self) rest hhead).imp id List.mem_of_mem_head?
    · exact (mem_tail_lines_join hne htail).imp id List.mem_of_mem_tail

theorem mem_of_mem_seamsOf {texts : List String} {front back : String} (h : (front, back) ∈ seamsOf texts) :
    front ∈ texts ∧ back ∈ texts := by
  induction texts with
  | nil => simp [seamsOf] at h
  | cons first rest ih =>
    cases rest with
    | nil => simp [seamsOf] at h
    | cons second rest =>
      rw [seamsOf, List.mem_append] at h
      rcases h with hfirst | hrest
      · split at hfirst
        · simp at hfirst
        · obtain ⟨rfl, rfl⟩ : front = first ∧ back = second := by simpa using hfirst
          simp
      · exact (ih hrest).imp (List.mem_cons_of_mem _) (List.mem_cons_of_mem _)

/-- Lines at a seam are lines of the texts. -/
theorem exists_of_mem_tornLines {texts : List String} {line : String} (h : line ∈ tornLines texts) :
    ∃ text ∈ texts, line ∈ lines text := by
  obtain ⟨⟨front, back⟩, hseam, hline⟩ := List.mem_flatMap.1 h
  obtain ⟨hfront, hback⟩ := mem_of_mem_seamsOf hseam
  rw [List.mem_append, Option.mem_toList, Option.mem_toList] at hline
  rcases hline with hlast | hfirst
  · exact ⟨front, (List.mem_filter.1 hfront).1, List.mem_of_getLast? hlast⟩
  · exact ⟨back, (List.mem_filter.1 hback).1, List.mem_of_mem_head? hfirst⟩

end CodeAtlas.Text
