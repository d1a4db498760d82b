import CodeAtlas.Proofs.Text.Lines

/-!
# Physical lines

A physical line ends at a line feed, a carriage return, or the two together.  These are not all the characters that end
a line of a text: a row, which ends at any of them, may be a part of a physical line.  So the first rows are a part of
as many physical lines, and a proper one as soon as one of these has a line end inside.

## Main definitions

* `physicalLines` — the physical lines of a text, with line feeds as their ends
* `cut` — a text cut behind certain characters
* `Clear` — the first physical lines have no line end inside
* `surplus` — the rows that lines have beyond one each
* `Echoes` — physical lines that repeat what stands before them, row by row

## Main results

* `cut_eq_flatMap` — rows are what physical lines are cut into
* `flatten_take_cut_eq_iff` — when the first rows of a text make up some lines that it does not end with
* `firstRows_eq_iff` — when the first rows make up as many physical lines
* `rows_eq_physicalText_iff` — when the rows from one number to another make up these physical lines
-/

namespace CodeAtlas.Text

variable {p q : Char → Bool} {cs line : List Char} {lines : List (List Char)}

/-! ### Cutting -/

/-- A text cut behind the characters that end a part of it. -/
def cut (ends : Char → Bool) : List Char → List (List Char)
  | [] => []
  | c :: rest => if ends c then [c] :: cut ends rest else consLine c (cut ends rest)

theorem cut_cons_of_pos {c : Char} (h : p c = true) (rest : List Char) : cut p (c :: rest) = [c] :: cut p rest := by
  rw [cut, if_pos h]

theorem cut_cons_of_neg {c : Char} (h : p c = false) (rest : List Char) :
    cut p (c :: rest) = consLine c (cut p rest) := by
  rw [cut, if_neg (by simp [h])]

theorem flatten_cut (p : Char → Bool) (cs : List Char) : (cut p cs).flatten = cs := by
  induction cs with
  | nil => rfl
  | cons c rest ih =>
    cases hc : p c with
    | true => rw [cut_cons_of_pos hc, List.flatten_cons, ih, List.singleton_append]
    | false => rw [cut_cons_of_neg hc, flatten_consLine, ih]

theorem ne_nil_of_mem_cut (p : Char → Bool) (cs : List Char) : ∀ line ∈ cut p cs, line ≠ [] := by
  induction cs with
  | nil => exact nofun
  | cons c rest ih =>
    cases hc : p c with
    | true =>
      rw [cut_cons_of_pos hc]
      exact List.forall_mem_cons.2 ⟨List.cons_ne_nil _ _, ih⟩
    | false =>
      rw [cut_cons_of_neg hc]
      exact consLine_ne_nil c _ ih

theorem cut_ne_nil (h : cs ≠ []) : cut p cs ≠ [] := by
  intro hnil
  have hflatten := flatten_cut p cs
  rw [hnil] at hflatten
  exact h hflatten.symm

/-- A part is cut into a single one if no character but the last ends it. -/
theorem cut_eq_singleton_iff (h : line ≠ []) : cut p line = [line] ↔ ∀ c ∈ line.dropLast, p c = false := by
  induction line with
  | nil => exact absurd rfl h
  | cons c rest ih =>
    by_cases hrest : rest = []
    · subst hrest
      cases hc : p c <;> simp [cut, hc, consLine]
    · rw [List.dropLast_cons_of_ne_nil hrest, List.forall_mem_cons, ← ih hrest]
      cases hc : p c with
      | true => simp [cut_cons_of_pos hc, cut_ne_nil hrest]
      | false =>
        rw [cut_cons_of_neg hc]
        cases hcut : cut p rest with
        | nil => exact absurd hcut (cut_ne_nil hrest)
        | cons first more => simp [consLine]

/-- What ends at more characters is cut out of what ends at fewer. -/
theorem cut_eq_flatMap (hpq : ∀ c, q c = true → p c = true) (cs : List Char) :
    cut p cs = (cut q cs).flatMap (cut p) := by
  induction cs with
  | nil => rfl
  | cons c rest ih =>
    cases hq : q c with
    | true => rw [cut_cons_of_pos hq, cut_cons_of_pos (hpq c hq), List.flatMap_cons, ← ih, cut, if_pos (hpq c hq)]; rfl
    | false =>
      rw [cut_cons_of_neg hq]
      cases hcut : cut q rest with
      | nil =>
        rw [hcut, List.flatMap_nil] at ih
        cases hp : p c <;> simp [cut, hp, ih, consLine]
      | cons first more =>
        have hfirst : first ≠ [] := ne_nil_of_mem_cut q rest first (hcut ▸ List.mem_cons_self)
        rw [hcut, List.flatMap_cons] at ih
        rw [consLine, List.flatMap_cons]
        cases hp : p c with
        | true => rw [cut_cons_of_pos hp, cut_cons_of_pos hp, ih, List.cons_append]
        | false =>
          rw [cut_cons_of_neg hp, cut_cons_of_neg hp, ih]
          cases hparts : cut p first with
          | nil => exact absurd hparts (cut_ne_nil hfirst)
          | cons part parts => rfl

theorem take_consLine (c : Char) (lines : List (List Char)) (k : Nat) :
    (consLine c lines).take (k + 1) = consLine c (lines.take (k + 1)) := by
  cases lines with
  | nil => rw [List.take_nil, List.take_of_length_le (by simp [consLine])]
  | cons first more => rfl

theorem drop_consLine (c : Char) (lines : List (List Char)) (k : Nat) :
    (consLine c lines).drop (k + 1) = lines.drop (k + 1) := by
  cases lines <;> simp [consLine]

/-- The first parts of a text are cut as they were in it. -/
theorem cut_flatten_take (p : Char → Bool) (cs : List Char) (k : Nat) :
    cut p ((cut p cs).take k).flatten = (cut p cs).take k := by
  induction cs generalizing k with
  | nil => simp [cut]
  | cons c rest ih =>
    cases k with
    | zero => rfl
    | succ k =>
      cases hc : p c with
      | true =>
        rw [cut_cons_of_pos hc, List.take_succ_cons, List.flatten_cons, List.singleton_append, cut_cons_of_pos hc, ih]
      | false => rw [cut_cons_of_neg hc, take_consLine, flatten_consLine, cut_cons_of_neg hc, ih]

/-- What is left of a text behind its first parts is cut as it was in it. -/
theorem cut_flatten_drop (p : Char → Bool) (cs : List Char) (k : Nat) :
    cut p ((cut p cs).drop k).flatten = (cut p cs).drop k := by
  induction cs generalizing k with
  | nil => simp [cut]
  | cons c rest ih =>
    cases k with
    | zero => rw [List.drop_zero, flatten_cut]
    | succ k =>
      cases hc : p c with
      | true => rw [cut_cons_of_pos hc, List.drop_succ_cons, ih]
      | false => rw [cut_cons_of_neg hc, drop_consLine, ih]

/-- A part of a text that ends with a character that ends it. -/
def Ended (ends : Char → Bool) (line : List Char) : Prop := line.getLast?.any ends = true

instance (ends : Char → Bool) (line : List Char) : Decidable (Ended ends line) :=
  inferInstanceAs (Decidable (_ = true))

theorem ended_cons (h : line ≠ []) (c : Char) : Ended p (c :: line) ↔ Ended p line := by
  rw [Ended, Ended, List.getLast?_cons_of_ne_nil h]

/-- All parts but the last one are ended. -/
theorem ended_of_mem_dropLast_cut (p : Char → Bool) (cs : List Char) : ∀ line ∈ (cut p cs).dropLast, Ended p line := by
  induction cs with
  | nil => simp [cut]
  | cons c rest ih =>
    cases hc : p c with
    | true =>
      rw [cut_cons_of_pos hc]
      cases hcut : cut p rest with
      | nil => simp
      | cons first more =>
        rw [hcut] at ih
        exact List.forall_mem_cons.2 ⟨by simp [Ended, hc], ih⟩
    | false =>
      rw [cut_cons_of_neg hc]
      cases hcut : cut p rest with
      | nil => simp [consLine]
      | cons first more =>
        rw [hcut] at ih
        cases more with
        | nil => simp [consLine]
        | cons second more =>
          obtain ⟨hfirst, hmore⟩ := List.forall_mem_cons.1 ih
          have hne : first ≠ [] := ne_nil_of_mem_cut p rest first (hcut ▸ List.mem_cons_self)
          exact List.forall_mem_cons.2 ⟨(ended_cons hne c).2 hfirst, hmore⟩

/-- A text is cut where its front is ended. -/
theorem cut_append (h : Ended p line) (cs : List Char) : cut p (line ++ cs) = cut p line ++ cut p cs := by
  induction line with
  | nil => cases h
  | cons c rest ih =>
    by_cases hrest : rest = []
    · subst hrest
      have hends : p c = true := by simpa [Ended] using h
      simp [cut, hends]
    · have hended := (ended_cons hrest c).1 h
      cases hc : p c with
      | true => rw [List.cons_append, cut_cons_of_pos hc, cut_cons_of_pos hc, ih hended, List.cons_append]
      | false =>
        rw [List.cons_append, cut_cons_of_neg hc, cut_cons_of_neg hc, ih hended]
        cases hcut : cut p rest with
        | nil => exact absurd hcut (cut_ne_nil hrest)
        | cons first more => rfl

/-- Lines that are ended, and not before their ends, are cut out of a text that begins with them. -/
theorem cut_flatten_append (h : ∀ line ∈ lines, cut p line = [line] ∧ Ended p line) (cs : List Char) :
    cut p (lines.flatten ++ cs) = lines ++ cut p cs := by
  induction lines with
  | nil => rfl
  | cons line lines ih =>
    obtain ⟨⟨hline, hended⟩, hlines⟩ := List.forall_mem_cons.1 h
    rw [List.flatten_cons, List.append_assoc, cut_append hended, hline, ih hlines]
    rfl

/-! ### The first rows -/

theorem flatten_flatMap_cut (p : Char → Bool) (lines : List (List Char)) :
    (lines.flatMap (cut p)).flatten = lines.flatten := by
  induction lines with
  | nil => rfl
  | cons line lines ih => rw [List.flatMap_cons, List.flatten_append, flatten_cut, ih, List.flatten_cons]

theorem length_cut_eq_one_iff (p : Char → Bool) (line : List Char) : (cut p line).length = 1 ↔ cut p line = [line] := by
  constructor
  · intro h
    obtain ⟨part, hpart⟩ := List.length_eq_one_iff.1 h
    have hflatten := flatten_cut p line
    rw [hpart] at hflatten ⊢
    simpa using hflatten
  · intro h
    rw [h]
    rfl

/-- There are at least as many rows as lines, and no more if every line is one row. -/
theorem length_flatMap_cut (h : ∀ line ∈ lines, line ≠ []) :
    lines.length ≤ (lines.flatMap (cut p)).length ∧
      ((lines.flatMap (cut p)).length ≤ lines.length ↔ ∀ line ∈ lines, cut p line = [line]) := by
  induction lines with
  | nil => simp
  | cons line lines ih =>
    obtain ⟨hline, hlines⟩ := List.forall_mem_cons.1 h
    obtain ⟨hle, hiff⟩ := ih hlines
    have hpos : 0 < (cut p line).length := List.length_pos_iff.2 (cut_ne_nil hline)
    rw [List.flatMap_cons, List.length_append, List.length_cons, List.forall_mem_cons, ← hiff,
      ← length_cut_eq_one_iff]
    omega

/-- The rows that lines have beyond one each. -/
def surplus (ends : Char → Bool) (lines : List (List Char)) : List Char :=
  ((lines.flatMap (cut ends)).drop lines.length).flatten

theorem surplus_eq_nil_iff (h : ∀ line ∈ lines, line ≠ []) :
    surplus p lines = [] ↔ ∀ line ∈ lines, cut p line = [line] := by
  rw [surplus, List.flatten_eq_nil_iff, ← (length_flatMap_cut h).2, ← List.drop_eq_nil_iff]
  refine ⟨fun hnil => List.eq_nil_iff_forall_not_mem.2 fun row hrow => ?_, fun hnil => by simp [hnil]⟩
  obtain ⟨line, -, hmem⟩ := List.mem_flatMap.1 (List.mem_of_mem_drop hrow)
  exact ne_nil_of_mem_cut p line row hmem (hnil row hrow)

section Rows

variable (h : ∀ line ∈ lines, line ≠ []) {k : Nat} (hk : k ≤ lines.length)

include h hk

/-- The first rows are found in as many lines. -/
theorem take_flatMap_cut : (lines.flatMap (cut p)).take k = ((lines.take k).flatMap (cut p)).take k := by
  have hfront : ∀ line ∈ lines.take k, line ≠ [] := fun line hline => h line (List.mem_of_mem_take hline)
  have hle := (length_flatMap_cut (p := p) hfront).1
  rw [List.length_take_of_le hk] at hle
  calc (lines.flatMap (cut p)).take k
    _ = ((lines.take k ++ lines.drop k).flatMap (cut p)).take k := by rw [List.take_append_drop]
    _ = ((lines.take k).flatMap (cut p)).take k := by
      rw [List.flatMap_append, List.take_append_of_le_length hle]

/-- The first rows make up as many lines if each of these is one row. -/
theorem firstRows_eq_iff :
    ((lines.flatMap (cut p)).take k).flatten = (lines.take k).flatten ↔ ∀ line ∈ lines.take k, cut p line = [line] := by
  have hfront : ∀ line ∈ lines.take k, line ≠ [] := fun line hline => h line (List.mem_of_mem_take hline)
  have hsplit : (((lines.take k).flatMap (cut p)).take k).flatten ++ surplus p (lines.take k) =
      (lines.take k).flatten := by
    rw [surplus, List.length_take_of_le hk, ← List.flatten_append, List.take_append_drop, flatten_flatMap_cut]
  rw [take_flatMap_cut h hk, ← surplus_eq_nil_iff hfront, ← hsplit, List.self_eq_append_right]

end Rows

/-- When the first rows of a text make up as many lines, which are not all of it: exactly if the text begins with
these lines, and each of them ends at its last character and not before. -/
theorem flatten_take_cut_eq_iff (h : ∀ line ∈ lines, line ≠ []) (hlines : cut p lines.flatten = lines.flatMap (cut p))
    (hne : lines.flatten ≠ cs) :
    ((cut p cs).take lines.length).flatten = lines.flatten ↔
      (∀ line ∈ lines, cut p line = [line] ∧ Ended p line) ∧ lines.flatten <+: cs := by
  constructor
  · intro heq
    have hrows : (cut p cs).take lines.length = lines.flatMap (cut p) := by
      rw [← hlines, ← heq, cut_flatten_take]
    have hsingle : ∀ line ∈ lines, cut p line = [line] := by
      rw [← (length_flatMap_cut h).2, ← hrows]
      exact List.length_take_le _ _
    have hown : (cut p cs).take lines.length = lines := by
      rw [hrows, List.flatMap_def, List.map_congr_left hsingle, ← List.flatMap_def, List.flatMap_singleton']
    -- there are more rows, or the lines would be all of the text
    have hmore : lines.length < (cut p cs).length := by
      by_contra hall
      rw [List.take_of_length_le (Nat.not_lt.1 hall), flatten_cut] at heq
      exact hne heq.symm
    refine ⟨fun line hline => ⟨hsingle line hline, ?_⟩, ?_⟩
    · refine ended_of_mem_dropLast_cut p cs line ?_
      rw [← hown] at hline
      rw [List.dropLast_eq_take]
      exact List.take_subset_take_left _ (Nat.le_sub_one_of_lt hmore) hline
    · refine ⟨((cut p cs).drop lines.length).flatten, ?_⟩
      rw [← heq, ← List.flatten_append, List.take_append_drop, flatten_cut]
  · rintro ⟨hended, rest, rfl⟩
    rw [cut_flatten_append hended, List.take_left]

/-! ### Physical lines -/

/-- The physical lines of a text.  Each ends at a line feed, a carriage return, or the two together, and whatever its
end is, it is written as a line feed. -/
def physicalLines : List Char → List (List Char)
  | [] => []
  | '\r' :: '\n' :: rest => ['\n'] :: physicalLines rest
  | c :: rest => if c == '\n' || c == '\r' then ['\n'] :: physicalLines rest else consLine c (physicalLines rest)

theorem physicalLines_eq_cut (cs : List Char) : physicalLines cs = cut (· == '\n') (foldNewlineChars cs) := by
  induction cs using physicalLines.induct with
  | case1 => rfl
  | case2 rest ih => rw [physicalLines, foldNewlineChars, cut_cons_of_pos (by decide), ih]
  | case3 c rest hpair hend ih =>
    rw [physicalLines.eq_3 c rest hpair, foldNewlineChars.eq_3 c rest hpair, if_pos hend, ih]
    obtain hc | hc : c = '\n' ∨ c = '\r' := by simpa using hend
    · subst hc
      exact (cut_cons_of_pos (by decide) _).symm
    · subst hc
      exact (cut_cons_of_pos (by decide) _).symm
  | case4 c rest hpair hend ih =>
    obtain ⟨hfeed, hreturn⟩ : c ≠ '\n' ∧ c ≠ '\r' := by simpa using hend
    rw [physicalLines.eq_3 c rest hpair, foldNewlineChars.eq_3 c rest hpair, if_neg hend, ih,
      if_neg (by simpa using hreturn), cut_cons_of_neg (by simpa using hfeed)]

theorem splitKeep_eq_cut (h : '\r' ∉ cs) : splitKeep cs = cut isLineEnd cs := by
  induction cs with
  | nil => rfl
  | cons c rest ih =>
    have hc : c ≠ '\r' := fun heq => h (heq ▸ List.mem_cons_self)
    have hrest : '\r' ∉ rest := fun hmem => h (List.mem_cons_of_mem c hmem)
    rw [splitKeep.eq_3 c rest (fun _ hreturn _ => hc hreturn), cut, ih hrest]

/-- A line feed ends a row, too. -/
theorem cut_isLineEnd (cs : List Char) : cut isLineEnd cs = (cut (· == '\n') cs).flatMap (cut isLineEnd) := by
  refine cut_eq_flatMap (fun c hc => ?_) cs
  obtain rfl : c = '\n' := by simpa using hc
  decide

/-- The rows of a text whose line ends have been folded are what its physical lines are cut into. -/
theorem splitKeep_foldNewlineChars (cs : List Char) :
    splitKeep (foldNewlineChars cs) = (physicalLines cs).flatMap (cut isLineEnd) := by
  rw [splitKeep_eq_cut (not_mem_foldNewlineChars cs), physicalLines_eq_cut, ← cut_isLineEnd]

/-- None of the first physical lines has a line end inside.  The last character of a text is not inside of a line. -/
def Clear (text : String) (count : Nat) : Prop :=
  ∀ line ∈ (physicalLines text.toList).take count, ∀ c ∈ line.dropLast, isLineEnd c = false

instance (text : String) (count : Nat) : Decidable (Clear text count) :=
  decidable_of_iff (((physicalLines text.toList).take count).all fun line => line.dropLast.all fun c => !isLineEnd c)
    (by simp only [Clear, List.all_eq_true, Bool.not_eq_true'])

/-- The physical lines of a text from one of them to another, counted from one. -/
def linesFrom (text : String) (first last : Nat) : List (List Char) :=
  ((physicalLines text.toList).take last).drop (first - 1)

/-- Their text. -/
def physicalText (text : String) (first last : Nat) : String := String.ofList (linesFrom text first last).flatten

/-- The first rows of a text, whose line ends are folded. -/
def firstRows (text : String) (count : Nat) : String := String.join ((linesKeep (foldNewlines text)).take count)

/-- A line before a range of physical lines has a line end inside, so that the rows that are numbered like the range
stand at an earlier place.  But the range repeats the rows by which it is late, over and over, and each of its lines
ends at its last character and not before. -/
def Echoes (text : String) (first last : Nat) : Prop :=
  ¬Clear text (first - 1) ∧
    (∀ line ∈ linesFrom text first last, (∀ c ∈ line.dropLast, isLineEnd c = false) ∧ Ended isLineEnd line) ∧
    (linesFrom text first last).flatten <+:
      surplus isLineEnd ((physicalLines text.toList).take (first - 1)) ++ (linesFrom text first last).flatten

instance (text : String) (first last : Nat) : Decidable (Echoes text first last) :=
  decidable_of_iff (¬Clear text (first - 1) ∧ ((linesFrom text first last).all fun line =>
      (line.dropLast.all fun c => !isLineEnd c) && decide (Ended isLineEnd line)) = true ∧
        (linesFrom text first last).flatten.isPrefixOf (surplus isLineEnd
          ((physicalLines text.toList).take (first - 1)) ++ (linesFrom text first last).flatten) = true)
    (by simp only [Echoes, List.all_eq_true, Bool.and_eq_true, Bool.not_eq_true', decide_eq_true_eq,
      List.isPrefixOf_iff_prefix])

variable {text : String} {first last count : Nat}

theorem Clear.mono (h : Clear text last) (hle : count ≤ last) : Clear text count := by
  intro line hline
  exact h line (List.take_subset_take_left _ hle hline)

theorem toList_firstRows (text : String) (count : Nat) :
    (firstRows text count).toList = (((physicalLines text.toList).flatMap (cut isLineEnd)).take count).flatten := by
  simp [firstRows, linesKeep, foldNewlines, splitKeep_foldNewlineChars, ← List.map_take, List.flatMap_map]

theorem ne_nil_of_mem_physicalLines (cs : List Char) : ∀ line ∈ physicalLines cs, line ≠ [] := by
  rw [physicalLines_eq_cut]
  exact ne_nil_of_mem_cut _ _

theorem length_physicalLines_le (text : String) :
    (physicalLines text.toList).length ≤ (linesKeep (foldNewlines text)).length := by
  rw [linesKeep, foldNewlines, String.toList_ofList, splitKeep_foldNewlineChars, List.length_map]
  exact (length_flatMap_cut (ne_nil_of_mem_physicalLines _)).1

/-- The first physical lines are as many rows if they have no line end inside. -/
theorem toList_firstRows_eq_iff (h : count ≤ (physicalLines text.toList).length) :
    (firstRows text count).toList = ((physicalLines text.toList).take count).flatten ↔ Clear text count := by
  have hlines := ne_nil_of_mem_physicalLines text.toList
  rw [toList_firstRows, firstRows_eq_iff hlines h]
  refine forall₂_congr fun line hline => ?_
  exact cut_eq_singleton_iff (hlines line (List.mem_of_mem_take hline))

theorem take_append_linesFrom (hle : first - 1 ≤ last) :
    (physicalLines text.toList).take (first - 1) ++ linesFrom text first last =
      (physicalLines text.toList).take last := by
  rw [linesFrom, ← Nat.min_eq_left hle, ← List.take_take, Nat.min_eq_left hle, List.take_append_drop]

theorem cut_linesFrom (text : String) (first last : Nat) :
    cut isLineEnd (linesFrom text first last).flatten = (linesFrom text first last).flatMap (cut isLineEnd) := by
  have hcut : cut (· == '\n') (linesFrom text first last).flatten = linesFrom text first last := by
    rw [linesFrom, physicalLines_eq_cut, ← cut_flatten_take (· == '\n') _ last, cut_flatten_drop]
  rw [cut_isLineEnd, hcut]

/-- Behind lines with a surplus, the rows that are numbered like the lines of a range make up these exactly if the range
repeats the surplus, and each of its lines ends at its last character and not before. -/
theorem flatten_rows_eq_iff {front own back : List (List Char)} (h : ∀ line ∈ front ++ own, line ≠ [])
    (hcut : (front ++ (own ++ back)).flatMap (cut p) = cut p cs) (hown : cut p own.flatten = own.flatMap (cut p))
    (hsurplus : surplus p front ≠ []) :
    (((cut p cs).drop front.length).take own.length).flatten = own.flatten ↔
      (∀ line ∈ own, cut p line = [line] ∧ Ended p line) ∧ own.flatten <+: surplus p front ++ own.flatten := by
  obtain ⟨hfront, hlines⟩ := List.forall_mem_append.1 h
  -- behind the first rows the surplus, the range and what follows it are left
  have hleft : ((cut p cs).drop front.length).flatten = surplus p front ++ own.flatten ++ back.flatten := by
    rw [← hcut, List.flatMap_append, List.drop_append_of_le_length (length_flatMap_cut hfront).1, List.flatten_append,
      flatten_flatMap_cut, List.flatten_append, surplus, List.append_assoc]
  have hproper : own.flatten ≠ ((cut p cs).drop front.length).flatten := by
    intro heq
    have hsize := congrArg List.length (heq.trans hleft)
    have hpos := List.length_pos_iff.2 hsurplus
    simp only [List.length_append] at hsize
    omega
  rw [← cut_flatten_drop, flatten_take_cut_eq_iff hlines hown hproper, hleft]
  exact and_congr_right fun _ =>
    ⟨fun hbegins => List.prefix_of_prefix_length_le hbegins (List.prefix_append _ _) (by simp),
    fun hrepeats => hrepeats.trans (List.prefix_append _ _)⟩

/-- Behind a line with a line end inside, the rows that are numbered like a range of physical lines make up these
exactly if the range repeats what stands before it. -/
theorem rows_eq_linesFrom_iff (hle : first - 1 ≤ last) (hlast : last ≤ (physicalLines text.toList).length)
    (hclear : ¬Clear text (first - 1)) :
    ((((physicalLines text.toList).flatMap (cut isLineEnd)).take last).drop (first - 1)).flatten =
      (linesFrom text first last).flatten ↔ Echoes text first last := by
  have hlines := ne_nil_of_mem_physicalLines text.toList
  have hlength : (linesFrom text first last).length = last - (first - 1) := by
    rw [linesFrom, List.length_drop, List.length_take_of_le hlast]
  have hcount := List.length_take_of_le (hle.trans hlast)
  have hfront := @take_append_linesFrom text first last hle
  have hnonempty : ∀ line ∈ (physicalLines text.toList).take (first - 1) ++ linesFrom text first last, line ≠ [] := by
    rw [hfront]
    exact fun line hline => hlines line (List.mem_of_mem_take hline)
  have hrows : ((physicalLines text.toList).take (first - 1) ++ (linesFrom text first last ++
      (physicalLines text.toList).drop last)).flatMap (cut isLineEnd) =
        cut isLineEnd (foldNewlineChars text.toList) := by
    rw [← List.append_assoc, hfront, List.take_append_drop, physicalLines_eq_cut, ← cut_isLineEnd]
  have hsingle : ∀ line ∈ (physicalLines text.toList).take (first - 1) ++ linesFrom text first last,
      cut isLineEnd line = [line] ↔ ∀ c ∈ line.dropLast, isLineEnd c = false := fun line hline =>
    cut_eq_singleton_iff (hnonempty line hline)
  have hsurplus : surplus isLineEnd ((physicalLines text.toList).take (first - 1)) ≠ [] := by
    rw [Ne, surplus_eq_nil_iff fun line hline => hnonempty line (List.mem_append_left _ hline)]
    exact fun hnone => hclear fun line hline => (hsingle line (List.mem_append_left _ hline)).1 (hnone line hline)
  have hiff := flatten_rows_eq_iff hnonempty hrows (cut_linesFrom text first last) hsurplus
  rw [hcount, hlength] at hiff
  rw [physicalLines_eq_cut, ← cut_isLineEnd, List.drop_take, hiff, Echoes, and_iff_right hclear]
  exact and_congr_left fun _ => forall₂_congr fun line hline =>
    and_congr_left fun _ => hsingle line (List.mem_append_right _ hline)

/-- When rows that are numbered like physical lines make up these. -/
theorem rows_eq_physicalText_iff (hle : first - 1 ≤ last) (hlast : last ≤ (physicalLines text.toList).length)
    {rows : String} (hrows : firstRows text (first - 1) ++ rows = firstRows text last) :
    rows = physicalText text first last ↔ Clear text last ∨ Echoes text first last := by
  have hown : ((physicalLines text.toList).take (first - 1)).flatten ++ (physicalText text first last).toList =
      ((physicalLines text.toList).take last).flatten := by
    rw [physicalText, String.toList_ofList, ← List.flatten_append, take_append_linesFrom hle]
  by_cases hclear : Clear text (first - 1)
  · -- the rows start where the physical lines do, so it is a question of where they end
    have hfront := (toList_firstRows_eq_iff (hle.trans hlast)).2 hclear
    have hend : rows = physicalText text first last ↔
        firstRows text (first - 1) ++ physicalText text first last = firstRows text last := by
      rw [← hrows, String.append_right_inj]
      exact eq_comm
    rw [hend, ← String.toList_inj, String.toList_append, hfront, hown, eq_comm, toList_firstRows_eq_iff hlast]
    simp [Echoes, hclear]
  · have hlate : ¬Clear text last := fun h => hclear (h.mono hle)
    have hlist : rows.toList =
        ((((physicalLines text.toList).flatMap (cut isLineEnd)).take last).drop (first - 1)).flatten := by
      have hsplit := congrArg String.toList hrows
      rw [String.toList_append, toList_firstRows, toList_firstRows,
        ← List.take_append_drop (first - 1) (List.take last _), List.take_take, Nat.min_eq_left hle,
        List.flatten_append, List.append_cancel_left_eq] at hsplit
      exact hsplit
    rw [or_iff_right hlate, ← rows_eq_linesFrom_iff hle hlast hclear, ← hlist, ← String.toList_inj, physicalText,
      String.toList_ofList]

example : Echoes "\x0c\n\n" 2 2 := by decide +kernel

end CodeAtlas.Text
