import CodeAtlas.Proofs.Section.Levels
import Mathlib.Algebra.BigOperators.Ring.List
import Mathlib.Algebra.Order.BigOperators.Group.List
import Mathlib.Algebra.Order.Group.Nat
import Mathlib.Algebra.Ring.Nat

/-!
# Lines and limits of the parts of a section

Cutting a section should keep its lines, in order and each once, and should bring every part under the
limit.  Each of the three holds exactly as far as two things go well at every level of cutting: the pass
must not leave out a line, and the closing pass must cut every part that is too large, in its own place.

## Main definitions

* `CutsInPlace`, `LosesNothing`, `CutsAll` — what may go well at a level
* `KeepsLines`, `WithinLimit` — what is asked of the parts

## Main results

* `split_keepsLines_iff` — when no line is lost
* `split_lines_sublist_iff` — when no line is repeated or moved
* `split_withinLimit_iff` — when every part of several lines is within the limit
-/

namespace CodeAtlas.Section

open Text (isBlankText)

section Definitions

variable (p : Policy) (count : Counter) (limit : Int) (extension content : String)

/-- Every part that is cut again is replaced by its own pieces. -/
def CutsInPlace : Prop :=
  InPlace count limit (partsOf p count limit extension) (firstParts p count limit extension content)

/-- The pass leaves out nothing but blank lines. -/
def StrandsOnlyBlanks : Prop :=
  ∀ line ∈ strandedLines p count limit extension content, isBlankText line = true

/-- The pass leaves out nothing but blank lines, and every part that is cut again is replaced by its own
pieces. -/
def LosesNothing : Prop :=
  CutsInPlace p count limit extension content ∧ StrandsOnlyBlanks p count limit extension content

/-- Every part that is too large is cut again, and replaced by its own pieces. -/
def CutsAll : Prop :=
  CutsInPlace p count limit extension content ∧ leftParts (levelVisits p count limit extension content) = []

/-- Every line that is not blank is in the parts at least as often as in the section. -/
def KeepsLines (content : String) (parts : List String) : Prop :=
  ∀ line ∈ Text.lines content, isBlankText line = false →
    (Text.lines content).count line ≤ (parts.flatMap Text.lines).count line

/-- Every part of several lines counts no more than the limit. -/
def WithinLimit (count : Counter) (limit : Int) (parts : List String) : Prop :=
  ∀ part ∈ parts, 1 < (Text.lines part).length → count part ≤ limit

/-- Lines that are joined count no more than the lines do one by one, each with its line feed. -/
def Subadditive (count : Counter) : Prop :=
  ∀ lines : List String, count (Text.unlines lines) ≤ (lines.map fun line => count (line ++ "\n")).sum

/-- No line of the section is blank or repeated. -/
def DistinctLines (content : String) : Prop :=
  (Text.lines content).Nodup ∧ ∀ line ∈ Text.lines content, isBlankText line = false

end Definitions

instance (content : String) (parts : List String) : Decidable (KeepsLines content parts) :=
  inferInstanceAs (Decidable (∀ line ∈ _, _ → _))

instance (count : Counter) (limit : Int) (parts : List String) : Decidable (WithinLimit count limit parts) :=
  inferInstanceAs (Decidable (∀ part ∈ _, _ → _))

instance (content : String) : Decidable (DistinctLines content) :=
  inferInstanceAs (Decidable (_ ∧ _))

variable {p : Policy} {count : Counter} {limit : Int} {extension content : String}

/-- Cutting in place cuts up the parts of the pass. -/
theorem CutsInPlace.refines (h : CutsInPlace p count limit extension content) (hcut : limit < count content) :
    ∃ keeps, Refines (partsOf p count limit extension) (cutAgain p count limit extension content) keeps
        (firstParts p count limit extension content) (partsOf p count limit extension content) ∧
      keeps.filter (tooLarge count limit) = leftParts (levelVisits p count limit extension content) := by
  rw [partsOf_of_cut hcut]
  obtain ⟨keeps, href, _, hleft⟩ := resplit_refines h
  exact ⟨keeps, href, hleft⟩

/-- Cutting in place replaces the parts that are cut again. -/
theorem CutsInPlace.count_replacedLines (h : CutsInPlace p count limit extension content) (line : String) :
    (replacedLines p count limit extension content).count line =
      ((cutAgain p count limit extension content).map fun part => (Text.lines part).count line).sum := by
  obtain ⟨_, _, hown, _⟩ := resplit_refines h
  have hreplaced : replacedLines p count limit extension content =
      (cutAgain p count limit extension content).flatMap Text.lines := congrArg (List.flatMap Text.lines) hown
  rw [hreplaced, List.count_flatMap]
  rfl

theorem count_insertedLines (p : Policy) (count : Counter) (limit : Int) (extension content line : String) :
    (insertedLines p count limit extension content).count line =
      ((cutAgain p count limit extension content).map fun part =>
        ((partsOf p count limit extension part).flatMap Text.lines).count line).sum := by
  rw [insertedLines, List.flatMap_assoc, List.count_flatMap]
  rfl

/-! ### Order -/

/-- Where every part is cut again in place, no line is repeated or moved. -/
theorem partsOf_lines_sublist
    (h : EveryLevel p count limit extension (CutsInPlace p count limit extension) content) :
    ((partsOf p count limit extension content).flatMap Text.lines).Sublist (Text.lines content) := by
  induction h with
  | fits hfit =>
    rw [partsOf_of_fits hfit]
    simp
  | cut hcut hplace _ ih =>
    obtain ⟨keeps, href, _⟩ := hplace.refines hcut
    exact (href.lines_sublist ih).trans firstParts_lines_sublist

/-- Of two lists that are in the order of a third without repetitions, the one is in the order of the other
if it has no further elements. -/
theorem sublist_of_subset {a b whole : List String} (hwhole : whole.Nodup) (ha : a.Sublist whole)
    (hb : b.Sublist whole) (hab : a ⊆ b) : a.Sublist b := by
  have hself : b.filter (· ∈ b) = b := List.filter_eq_self.2 (by simp)
  have hfilter : b = whole.filter (· ∈ b) := by
    have hsub : (b.filter (· ∈ b)).Sublist (whole.filter (· ∈ b)) := hb.filter _
    rw [hself] at hsub
    refine hsub.eq_of_length_le (List.subperm_of_subset (hwhole.filter _) ?_).length_le
    intro line hline
    simpa using (List.mem_filter.1 hline).2
  have hsub : (a.filter (· ∈ b)).Sublist (whole.filter (· ∈ b)) := ha.filter _
  rwa [List.filter_eq_self.2 fun line hline => by simpa using hab hline, ← hfilter] at hsub

/-- Where no line is repeated, a part stays beside its first piece only if a line does. -/
theorem not_nodup_of_doubled {part : String} {entries : List String}
    (hpart : Text.lines part ≠ []) (hblank : ∀ line ∈ Text.lines part, isBlankText line = false)
    (h : Doubled (partsOf p count limit extension) part entries) :
    ¬ (entries.flatMap Text.lines).Nodup := by
  obtain ⟨hsome, hfilled⟩ := partsOf_filled p count limit extension part hpart hblank
  obtain ⟨piece, pieces, hpieces⟩ := List.exists_cons_of_ne_nil hsome
  have hpiece : piece ∈ partsOf p count limit extension part := by
    rw [hpieces]
    exact List.mem_cons_self
  obtain ⟨line, hline⟩ := List.exists_mem_of_ne_nil _ (hfilled piece hpiece)
  have hmem : line ∈ Text.lines part :=
    partsOf_lines_subset p count limit extension part (List.mem_flatMap.2 ⟨piece, hpiece, hline⟩)
  rw [Doubled, hpieces] at h
  obtain ⟨both, hperm, hsub⟩ := h
  intro hnodup
  have hboth : (Text.lines part ++ Text.lines piece).Nodup := by
    have := (hnodup.sublist (hsub.flatMap Text.lines)).perm (hperm.flatMap_right Text.lines)
    simpa using this
  exact (List.nodup_append.1 hboth).2.2 line hmem line hline rfl

theorem DistinctLines.of_cutAgain {part : String} (h : DistinctLines content)
    (hpart : part ∈ cutAgain p count limit extension content) : DistinctLines part := by
  have hsub := cutAgain_lines_sublist hpart
  exact ⟨h.1.sublist hsub, fun line hline => h.2 line (hsub.subset hline)⟩

theorem lines_ne_nil_of_tooLarge {part : String} (h : tooLarge count limit part = true) :
    Text.lines part ≠ [] := by
  rw [tooLarge, Bool.and_eq_true, decide_eq_true_eq, decide_eq_true_eq] at h
  exact List.ne_nil_of_length_pos (Nat.lt_of_succ_lt h.2)

/-- Where no line is blank or repeated, the order of lines is kept only by cutting in place. -/
theorem cutsInPlace_of_lines_sublist (hdistinct : DistinctLines content)
    (hsub : ((partsOf p count limit extension content).flatMap Text.lines).Sublist (Text.lines content)) :
    EveryLevel p count limit extension (CutsInPlace p count limit extension) content := by
  induction content using section_induction p count limit extension with
  | fits content hfit => exact .fits hfit
  | cut content hcut ih =>
    have hplace : CutsInPlace p count limit extension content := by
      by_contra hnot
      obtain ⟨part, hlarge, hdoubled⟩ := exists_doubled_of_not_inPlace hnot
      rw [← partsOf_of_cut hcut] at hdoubled
      have hmem : part ∈ partsOf p count limit extension content :=
        hdoubled.subset List.mem_cons_self
      have hlines : Text.lines part ⊆ Text.lines content := fun line hline =>
        partsOf_lines_subset p count limit extension content (List.mem_flatMap.2 ⟨part, hmem, hline⟩)
      exact not_nodup_of_doubled (lines_ne_nil_of_tooLarge hlarge)
        (fun line hline => hdistinct.2 line (hlines hline)) hdoubled (hdistinct.1.sublist hsub)
    obtain ⟨keeps, href, _⟩ := hplace.refines hcut
    refine .cut hcut hplace fun part hpart => ih part hpart (hdistinct.of_cutAgain hpart) ?_
    have hpieces := ((href.pieces_sublist hpart).2.flatMap Text.lines).trans hsub
    exact sublist_of_subset hdistinct.1 hpieces (cutAgain_lines_sublist hpart)
      (partsOf_lines_subset p count limit extension part)

/-- **Order of lines.**  The lines of the parts are lines of the section, in order and each once, if every
part is cut again in place at every level.  Where no line is blank or repeated, that is also necessary. -/
theorem split_lines_sublist_iff (p : Policy) (count : Counter) (limit : Int) (extension content : String) :
    (EveryLevel p count (p.limit limit) extension (CutsInPlace p count (p.limit limit) extension) content →
      ((split p count limit extension content).flatMap Text.lines).Sublist (Text.lines content)) ∧
    (DistinctLines content →
      (((split p count limit extension content).flatMap Text.lines).Sublist (Text.lines content) ↔
        EveryLevel p count (p.limit limit) extension (CutsInPlace p count (p.limit limit) extension) content)) :=
  ⟨partsOf_lines_sublist, fun hdistinct =>
    ⟨cutsInPlace_of_lines_sublist hdistinct, partsOf_lines_sublist⟩⟩

/-- A section of four lines, of which the second part is cut again, keeps its lines in order. -/
theorem split_lines_sublist_distinct :
    DistinctLines "a\n⋮\nccc\nd" ∧
      EveryLevel .guided String.length 4 ".txt" (CutsInPlace .guided String.length 4 ".txt") "a\n⋮\nccc\nd" :=
  ⟨by decide, ((split_lines_sublist_iff .guided String.length 4 ".txt" "a\n⋮\nccc\nd").2 (by decide)).1
    (by decide)⟩

/-- The second part is cut in two, and so the pieces of the last one are written in front of it, over the
third one. -/
theorem split_repeats_line :
    ¬ ((split .guided String.length 4 ".txt" "a\n⋮\nccc\n⋮\n⋮\nfff").flatMap Text.lines).Sublist
        (Text.lines "a\n⋮\nccc\n⋮\n⋮\nfff") ∧
      ¬ ((split .plain (fun s => s.length * 1024) 4096 ".txt" "a\n⋮\nccc\n⋮\n⋮\nfff").flatMap
        Text.lines).Sublist (Text.lines "a\n⋮\nccc\n⋮\n⋮\nfff") := by
  decide

/-! ### Completeness -/

/-- Where every part is cut again in place and no pass leaves out a line that is not blank, each of these
lines is in the parts as often as in the section. -/
theorem count_lines_partsOf
    (h : EveryLevel p count limit extension (LosesNothing p count limit extension) content)
    {line : String} (hline : isBlankText line = false) :
    ((partsOf p count limit extension content).flatMap Text.lines).count line =
      (Text.lines content).count line := by
  induction h with
  | fits hfit =>
    rw [partsOf_of_fits hfit]
    simp
  | @cut content hcut hlevel _ ih =>
    have hstranded : (strandedLines p count limit extension content).count line = 0 := by
      rw [List.count_eq_zero]
      intro hmem
      rw [hlevel.2 line hmem] at hline
      exact absurd hline (by decide)
    have hsame : (replacedLines p count limit extension content).count line =
        (insertedLines p count limit extension content).count line := by
      rw [hlevel.1.count_replacedLines, count_insertedLines, List.map_congr_left ih]
    have := count_lines_balance p extension hcut hline
    omega

theorem KeepsLines.count_le {parts : List String} (h : KeepsLines content parts) {line : String}
    (hline : isBlankText line = false) :
    (Text.lines content).count line ≤ (parts.flatMap Text.lines).count line := by
  by_cases hmem : line ∈ Text.lines content
  · exact h line hmem hline
  · rw [List.count_eq_zero.2 hmem]
    exact Nat.zero_le _

/-- Where every part is cut again in place, lines that are not blank are kept only if no pass leaves one
out. -/
theorem strandsOnlyBlanks_of_keepsLines
    (h : EveryLevel p count limit extension (CutsInPlace p count limit extension) content)
    (hkeeps : KeepsLines content (partsOf p count limit extension content)) :
    EveryLevel p count limit extension (LosesNothing p count limit extension) content := by
  induction h with
  | fits hfit => exact .fits hfit
  | @cut content hcut hplace hbelow ih =>
    -- the pieces have at most what their part has of a line, so they make up for nothing
    have hledger : ∀ line, isBlankText line = false →
        (strandedLines p count limit extension content).count line = 0 ∧
        ∀ part ∈ cutAgain p count limit extension content, (Text.lines part).count line ≤
          ((partsOf p count limit extension part).flatMap Text.lines).count line := by
      intro line hline
      have hle : ∀ part ∈ cutAgain p count limit extension content,
          ((partsOf p count limit extension part).flatMap Text.lines).count line ≤
            (Text.lines part).count line :=
        fun part hpart => (partsOf_lines_sublist (hbelow part hpart)).count_le line
      have hsum := List.sum_le_sum hle
      have hbalance := count_lines_balance p extension hcut hline
      rw [hplace.count_replacedLines, count_insertedLines] at hbalance
      have hkept := hkeeps.count_le hline
      refine ⟨by omega, fun part hpart => ?_⟩
      by_contra hlt
      have := List.sum_lt_sum _ _ hle ⟨part, hpart, Nat.not_le.1 hlt⟩
      omega
    refine .cut hcut ⟨hplace, fun line hmem => ?_⟩ fun part hpart => ih part hpart fun line _ hline => ?_
    · by_contra hline
      exact List.count_eq_zero.1 (hledger line (Bool.eq_false_of_not_eq_true hline)).1 hmem
    · exact (hledger line hline).2 part hpart

/-- Where no line is blank or repeated, lines are kept only by cutting in place. -/
theorem cutsInPlace_of_keepsLines (hdistinct : DistinctLines content)
    (hkeeps : Text.lines content ⊆ (partsOf p count limit extension content).flatMap Text.lines) :
    EveryLevel p count limit extension (CutsInPlace p count limit extension) content := by
  induction content using section_induction p count limit extension with
  | fits content hfit => exact .fits hfit
  | cut content hcut ih =>
    have hpieces : ∀ part ∈ cutAgain p count limit extension content,
        PiecesOf part (partsOf p count limit extension part) := by
      intro part hpart
      have hpartDistinct := hdistinct.of_cutAgain hpart
      have hne := lines_ne_nil_of_tooLarge (cutAgain_spec hpart).2.1
      exact ⟨(partsOf_filled p count limit extension part hne hpartDistinct.2).2,
        partsOf_lines_subset p count limit extension part,
        fun hall => partsOf_lines_sublist (ih part hpart hpartDistinct hall)⟩
    rw [partsOf_of_cut hcut] at hkeeps
    obtain ⟨hplace, hkept⟩ := inPlace_of_kept hpieces
      (hdistinct.1.sublist firstParts_lines_sublist)
      (fun entry => firstParts_lines_ne_nil hdistinct.2)
      (List.Subset.trans firstParts_lines_sublist.subset hkeeps)
    exact .cut hcut hplace fun part hpart => ih part hpart (hdistinct.of_cutAgain hpart) (hkept part hpart)

/-- Lines are kept exactly if the pieces make up for what was left out and replaced. -/
theorem keepsLines_iff_balance (hcut : limit < count content) :
    KeepsLines content (partsOf p count limit extension content) ↔ ∀ line, isBlankText line = false →
      (strandedLines p count limit extension content).count line +
          (replacedLines p count limit extension content).count line ≤
        (insertedLines p count limit extension content).count line := by
  constructor
  · intro hkeeps line hline
    have hbalance := count_lines_balance p extension hcut hline
    have hkept := hkeeps.count_le hline
    omega
  · intro h line _ hline
    have hbalance := count_lines_balance p extension hcut hline
    have hmade := h line hline
    omega

/-- **Completeness of lines.**  No line that is not blank is lost exactly if the section fits, or what was left
out and replaced of it at the first level comes again with the pieces.  It is enough that at every level the
pass leaves out nothing but blank lines and parts are cut again in place; where parts are cut again in place,
and where no line is blank or repeated, that is also necessary. -/
theorem split_keepsLines_iff (p : Policy) (count : Counter) (limit : Int) (extension content : String) :
    (KeepsLines content (split p count limit extension content) ↔
      count content ≤ p.limit limit ∨ ∀ line, isBlankText line = false →
        (strandedLines p count (p.limit limit) extension content).count line +
            (replacedLines p count (p.limit limit) extension content).count line ≤
          (insertedLines p count (p.limit limit) extension content).count line) ∧
    (EveryLevel p count (p.limit limit) extension (LosesNothing p count (p.limit limit) extension) content →
      KeepsLines content (split p count limit extension content)) ∧
    (EveryLevel p count (p.limit limit) extension (CutsInPlace p count (p.limit limit) extension) content ∨
        DistinctLines content →
      KeepsLines content (split p count limit extension content) →
      EveryLevel p count (p.limit limit) extension (LosesNothing p count (p.limit limit) extension) content) := by
  refine ⟨?_, fun h line _ hline => (count_lines_partsOf h hline).ge, fun hcase hkeeps => ?_⟩
  · by_cases hfit : count content ≤ p.limit limit
    · have hwhole : split p count limit extension content = [content] := partsOf_of_fits hfit
      simp [hwhole, hfit, KeepsLines]
    · rw [or_iff_right hfit]
      exact keepsLines_iff_balance (Int.not_le.1 hfit)
  · rcases hcase with hplace | hdistinct
    · exact strandsOnlyBlanks_of_keepsLines hplace hkeeps
    · refine strandsOnlyBlanks_of_keepsLines (cutsInPlace_of_keepsLines hdistinct ?_) hkeeps
      intro line hline
      have hcount := hkeeps line hline (hdistinct.2 line hline)
      exact List.count_pos_iff.1 ((List.count_pos_iff.2 hline).trans_le hcount)

/-- A section of four lines, of which the second part is cut again, loses no line. -/
theorem split_keepsLines_distinct :
    DistinctLines "a\n⋮\nccc\nd" ∧
      EveryLevel .guided String.length 4 ".txt" (LosesNothing .guided String.length 4 ".txt") "a\n⋮\nccc\nd" :=
  ⟨by decide, (split_keepsLines_iff .guided String.length 4 ".txt" "a\n⋮\nccc\nd").2.2 (Or.inr (by decide))
    (by decide)⟩

/-- The second line begins a part for want of a boundary, and the next cut, at the boundary in front of the
last line, leaves it out. -/
theorem split_loses_line :
    ¬ KeepsLines "aaaa\nb\nc\n⋮" (split .guided String.length 4 ".txt" "aaaa\nb\nc\n⋮") ∧
      ¬ KeepsLines "aaaa\nb\nc\n⋮" (split .plain (fun s => s.length * 1024) 4096 ".txt" "aaaa\nb\nc\n⋮") := by
  decide

/-! ### Limits -/

/-- A part is too large exactly if it has several lines and counts more than the limit. -/
theorem withinLimit_iff {parts : List String} :
    WithinLimit count limit parts ↔ ∀ part ∈ parts, tooLarge count limit part = false := by
  refine forall₂_congr fun part _ => ?_
  rw [tooLarge, Bool.and_eq_false_imp, decide_eq_true_eq, decide_eq_false_iff_not]
  exact ⟨fun h hlimit hlines => absurd (h hlines) (Int.not_le.2 hlimit),
    fun h hlines => Int.not_lt.1 fun hlimit => h hlimit hlines⟩

/-- Where every part that is too large is cut again in place, at every level, no part is too large. -/
theorem partsOf_not_tooLarge (h : EveryLevel p count limit extension (CutsAll p count limit extension) content) :
    ∀ part ∈ partsOf p count limit extension content, tooLarge count limit part = false := by
  induction h with
  | fits hfit =>
    rw [partsOf_of_fits hfit]
    simp [tooLarge, hfit]
  | cut hcut hall _ ih =>
    obtain ⟨keeps, href, hleft⟩ := hall.1.refines hcut
    intro part hpart
    rcases href.mem_out hpart with hkept | ⟨whole, hwhole, hpiece⟩
    · by_contra hlarge
      have hmem : part ∈ keeps.filter (tooLarge count limit) :=
        List.mem_filter.2 ⟨hkept, Bool.eq_true_of_not_eq_false hlarge⟩
      rw [hleft, hall.2] at hmem
      exact absurd hmem (by simp)
    · exact ih whole hwhole part hpiece

/-- If no part is too large, every part that was too large was cut again in place, at every level. -/
theorem cutsAll_of_not_tooLarge
    (h : ∀ part ∈ partsOf p count limit extension content, tooLarge count limit part = false) :
    EveryLevel p count limit extension (CutsAll p count limit extension) content := by
  induction content using section_induction p count limit extension with
  | fits content hfit => exact .fits hfit
  | cut content hcut ih =>
    have hplace : CutsInPlace p count limit extension content := by
      by_contra hnot
      obtain ⟨part, hlarge, hdoubled⟩ := exists_doubled_of_not_inPlace hnot
      rw [← partsOf_of_cut hcut] at hdoubled
      exact absurd hlarge (by simp [h part (hdoubled.subset List.mem_cons_self)])
    obtain ⟨keeps, href, hleft⟩ := hplace.refines hcut
    have hnone : leftParts (levelVisits p count limit extension content) = [] := by
      rw [← hleft, List.filter_eq_nil_iff]
      intro part hpart
      simp [h part (href.keeps_subset hpart)]
    refine .cut hcut ⟨hplace, hnone⟩ fun part hpart => ih part hpart fun piece hpiece => ?_
    exact h piece ((href.pieces_sublist hpart).2.subset hpiece)

/-- **Limit of parts.**  Every part of several lines counts no more than the limit exactly if at every level
each part that is too large is cut again, and in place. -/
theorem split_withinLimit_iff (p : Policy) (count : Counter) (limit : Int) (extension content : String) :
    WithinLimit count (p.limit limit) (split p count limit extension content) ↔
      EveryLevel p count (p.limit limit) extension (CutsAll p count (p.limit limit) extension) content := by
  rw [withinLimit_iff]
  exact ⟨cutsAll_of_not_tooLarge, partsOf_not_tooLarge⟩

theorem subadditive_length : Subadditive String.length := by
  intro lines
  induction lines with
  | nil => simp [Text.unlines]
  | cons line rest ih =>
    cases rest with
    | nil => simp [Text.unlines]
    | cons second rest =>
      simp only [Text.unlines, String.intercalate_cons_cons, String.length_append, List.map_cons,
        List.sum_cons] at ih ⊢
      omega

theorem Subadditive.mul (h : Subadditive count) (m : Nat) : Subadditive fun s => count s * m := by
  intro lines
  have hsum := List.sum_map_mul_right lines (fun line => count (line ++ "\n")) m
  exact (Nat.mul_le_mul_right m (h lines)).trans hsum.ge

/-- The last part is never cut again. -/
theorem split_exceeds_limit :
    (Subadditive String.length ∧
      ¬ WithinLimit String.length 4 (split .guided String.length 4 ".txt" "a\n⋮\nccc")) ∧
    (Subadditive (fun s => s.length * 1024) ∧
      ¬ WithinLimit (fun s => s.length * 1024) 4096
        (split .plain (fun s => s.length * 1024) 4096 ".txt" "a\n⋮\nccc")) :=
  ⟨⟨subadditive_length, by decide⟩, subadditive_length.mul 1024, by decide⟩

end CodeAtlas.Section
