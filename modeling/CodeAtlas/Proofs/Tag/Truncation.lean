import CodeAtlas.Proofs.Tag.SymbolMap
import CodeAtlas.Text.Fields

/-!
# The note at the end of a symbol map

A file or a tag is left out if it does not fit, while the note that something was left out is written if the tokens used
up reach the limit.  So the note is missing where something is left out and tokens remain, and it is there for nothing
where everything fits exactly.
-/

namespace CodeAtlas

namespace Text

/-- A join ends as its last line does, as far as one line is asked for. -/
theorem endsWith_unlines_concat {finish : String} (hline : '\n' ∉ finish.toList) (lines : List String) (last : String) :
    endsWith (unlines (lines ++ [last])) finish = endsWith last finish := by
  rw [Bool.eq_iff_iff, endsWith, endsWith, List.isSuffixOf_iff_suffix, List.isSuffixOf_iff_suffix]
  by_cases hlines : lines = []
  · simp [hlines, unlines]
  · have htext : (unlines (lines ++ [last])).toList = (unlines lines).toList ++ '\n' :: last.toList := by
      rw [unlines, String.intercalate_append_of_ne_nil hlines (List.cons_ne_nil _ _)]
      simp [unlines]
    rw [htext]
    constructor
    · intro h
      have hnot : ¬('\n' :: last.toList <:+ finish.toList) := fun hsuffix => hline (hsuffix.subset List.mem_cons_self)
      have hlast := (List.suffix_or_suffix_of_suffix h (List.suffix_append _ _)).resolve_right hnot
      exact (List.suffix_cons_iff.1 hlast).resolve_left fun heq => hline (heq ▸ List.mem_cons_self)
    · intro h
      exact (h.trans (List.suffix_cons _ _)).trans (List.suffix_append _ _)

end Text

namespace SymbolMap

variable {count : Counter} {limit : Int} {score : Tag → Int} {tags : List Tag} {files : List String}
  {entries : List Entry}

/-! ### What is left out -/

/-- A file of the tags is not shown, or a tag is shown less often than it is given. -/
def Omits (entries : List Entry) (tags : List Tag) : Prop :=
  (∃ t ∈ tags, t.relFile ∉ entries.map Entry.file) ∨
    ∃ t, (entries.flatMap Entry.shown).count t < tags.count t

/-- All files are taken, and of none of them a tag is left out. -/
def Complete (files : List String) (entries : List Entry) : Prop :=
  entries.map Entry.file = files ∧ ∀ e ∈ entries, e.hidden = []

theorem complete_cons {file : String} {e : Entry} :
    Complete (file :: files) (e :: entries) ↔ (e.file = file ∧ e.hidden = []) ∧ Complete files entries := by
  simp only [Complete, List.map_cons, List.cons.injEq, List.forall_mem_cons]
  tauto

/-- The lines of files with all their tags. -/
def allLines (tags : List Tag) (files : List String) : List String :=
  files.flatMap fun file => fileLine file :: (Tag.byLine (Tag.ofFile tags file)).map tagLine

theorem tags_perm (h : InOrder score tags files) :
    (files.flatMap fun file => Tag.byLine (Tag.ofFile tags file)).Perm tags := by
  have hmem : ∀ t ∈ tags, t.relFile ∈ files := fun t ht => (h.mem_iff _).2 ⟨t, ht, rfl⟩
  exact (List.Perm.flatMap_left _ fun file _ => sortBy_perm _ _).trans (flatMap_filter_perm h.nodup hmem)

namespace Filled

variable {used : Nat}

theorem tags_eq (h : Filled count limit tags used files entries) :
    (entries.map Entry.file).flatMap (fun file => Tag.byLine (Tag.ofFile tags file)) =
      entries.flatMap fun e => e.shown ++ e.hidden := by
  rw [List.flatMap_map]
  exact List.flatMap_congr fun e he => (h.append_eq e he).symm

/-- Nothing is left out exactly if there is nothing, or if it fits all together. -/
theorem complete_iff (h : Filled count limit tags used files entries) :
    Complete files entries ↔ files = [] ∨ ((used + ((allLines tags files).map count).sum : Nat) : Int) ≤ limit := by
  induction h with
  | done => simp [Complete]
  | @full used file files hfull =>
    have hmore : limit < ((used + ((allLines tags (file :: files)).map count).sum : Nat) : Int) := by
      simp only [allLines, List.flatMap_cons, List.cons_append, List.map_cons, List.sum_cons]
      omega
    refine iff_of_false ?_ ?_
    · rintro ⟨hnone, -⟩
      exact List.cons_ne_nil _ _ hnone.symm
    · rintro (hnone | hle)
      · exact List.cons_ne_nil _ _ hnone
      · exact absurd hle hmore.not_ge
  | @next used e files entries htags hfits hfull hrest ih =>
    have hall : ((allLines tags (e.file :: files)).map count).sum = (e.body.map count).sum +
        ((e.hidden.map tagLine).map count).sum + ((allLines tags files).map count).sum := by
      simp [allLines, ← htags, Entry.body, Nat.add_assoc]
    rw [complete_cons, ih, hall]
    cases hhidden : e.hidden with
    | nil =>
      have hlines : e.lines = e.body := by simp [Entry.lines, hhidden]
      rw [hlines]
      by_cases hfiles : files = []
      · simpa [hfiles, allLines] using hfits
      · simp [hfiles, Nat.add_assoc]
    | cons t rest =>
      have hstop := hfull t (by simp [hhidden])
      simp only [List.map_cons, List.sum_cons, reduceCtorEq, and_false, false_and, false_or, false_iff, not_le]
      omega

theorem lines_of_complete (h : Filled count limit tags used files entries) (hcomplete : Complete files entries) :
    entries.flatMap Entry.lines = allLines tags files := by
  obtain ⟨rfl, hhidden⟩ := hcomplete
  rw [allLines, List.flatMap_map]
  refine List.flatMap_congr fun e he => ?_
  rw [← h.append_eq e he, hhidden e he, Entry.lines, hhidden e he]
  simp [Entry.body]

/-- What is missing is what is left out. -/
theorem omits_iff (hfiles : InOrder score tags files) (h : Filled count limit tags used files entries) :
    Omits entries tags ↔ ¬Complete files entries := by
  constructor
  · rintro homits ⟨hall, hhidden⟩
    have hshown : (entries.flatMap Entry.shown).Perm tags := by
      have heq : (entries.flatMap fun e => e.shown ++ e.hidden) = entries.flatMap Entry.shown :=
        List.flatMap_congr fun e he => by rw [hhidden e he, List.append_nil]
      rw [← heq, ← h.tags_eq, hall]
      exact tags_perm hfiles
    obtain ⟨t, ht, hfile⟩ | ⟨t, hcount⟩ := homits
    · exact hfile (hall ▸ (hfiles.mem_iff _).2 ⟨t, ht, rfl⟩)
    · exact hcount.ne (hshown.count_eq t)
  · intro hnot
    obtain ⟨left, hleft⟩ := h.files_prefix
    cases left with
    | cons file left =>
      -- a file that is not taken is that of some tag
      have hmem : file ∈ files := hleft ▸ List.mem_append_right _ List.mem_cons_self
      obtain ⟨t, ht, rfl⟩ := (hfiles.mem_iff file).1 hmem
      have hapart := (List.nodup_append.1 (hleft ▸ hfiles.nodup)).2.2
      exact .inl ⟨t, ht, fun hshown => hapart _ hshown _ List.mem_cons_self rfl⟩
    | nil =>
      rw [List.append_nil] at hleft
      obtain ⟨e, he, hhidden⟩ : ∃ e ∈ entries, e.hidden ≠ [] := by
        by_contra hnone
        push Not at hnone
        exact hnot ⟨hleft, hnone⟩
      obtain ⟨t, ht⟩ := List.exists_mem_of_ne_nil _ hhidden
      have hperm : (entries.flatMap Entry.shown ++ entries.flatMap Entry.hidden).Perm tags := by
        refine (List.flatMap_append_perm _ _ _).trans ?_
        rw [← h.tags_eq, hleft]
        exact tags_perm hfiles
      have hpos : 0 < (entries.flatMap Entry.hidden).count t :=
        List.count_pos_iff.2 (List.mem_flatMap.2 ⟨e, he, ht⟩)
      refine .inr ⟨t, ?_⟩
      rw [← hperm.count_eq, List.count_append]
      omega

end Filled

/-! ### The note -/

/-- What the note says, on a line of its own. -/
def noteText : String := "(Symbol map truncated due to token limit)"

/-- The last line of a map with given entries, the note apart. -/
def lastLine (entries : List Entry) : String := (entries.flatMap Entry.lines).getLastD title

/-- What the title, a line for each file and one for each tag count. -/
def wholeCost (count : Counter) (tags : List Tag) : Nat :=
  ((title :: (Tag.files tags).map fileLine ++ tags.map tagLine).map count).sum

theorem sum_allLines (h : InOrder score tags files) (count : Counter) :
    count title + ((allLines tags files).map count).sum = wholeCost count tags := by
  have hfiles : files.Perm (Tag.files tags) :=
    (List.perm_ext_iff_of_nodup h.nodup (nodup_distinct _)).2 fun file => (h.mem_iff file).trans mem_files.symm
  have htags : (files.flatMap fun file => (Tag.byLine (Tag.ofFile tags file)).map tagLine).Perm (tags.map tagLine) := by
    rw [← List.map_flatMap]
    exact (tags_perm h).map tagLine
  have hlines : (allLines tags files).Perm ((Tag.files tags).map fileLine ++ tags.map tagLine) :=
    (List.map_append_flatMap_perm _ _ _).symm.trans ((hfiles.map fileLine).append htags)
  rw [wholeCost, List.cons_append, List.map_cons, List.sum_cons, (hlines.map count).sum_eq]

theorem endsWith_mapLines (count : Counter) (limit : Int) (entries : List Entry) :
    Text.endsWith (Text.unlines (mapLines count limit entries)) noteText = true ↔
      limit ≤ SymbolMap.used count entries ∨ Text.endsWith (lastLine entries) noteText = true := by
  have hline : '\n' ∉ noteText.toList := by decide
  rw [mapLines]
  by_cases hused : limit ≤ SymbolMap.used count entries
  · have hnote : Text.endsWith truncationNote noteText = true := by decide
    rw [if_pos hused, Text.endsWith_unlines_concat hline]
    simp [hused, hnote]
  · have hlast : title :: entries.flatMap Entry.lines =
        (title :: entries.flatMap Entry.lines).dropLast ++ [lastLine entries] := by
      rw [lastLine, ← List.getLast_eq_getLastD (List.cons_ne_nil _ _), List.dropLast_append_getLast]
    rw [if_neg hused, List.append_nil, hlast, Text.endsWith_unlines_concat hline]
    simp [hused]

section Whole

variable (hfiles : InOrder score tags files) (h : Filled count limit tags (count title) files entries)

include hfiles h

/-- Something is missing exactly if not everything fits. -/
theorem omits_iff_wholeCost : Omits entries tags ↔ tags ≠ [] ∧ limit < (wholeCost count tags : Int) := by
  have hempty : files = [] ↔ tags = [] := by
    simp only [List.eq_nil_iff_forall_not_mem, hfiles.mem_iff]
    constructor
    · intro hnone t ht
      exact hnone _ ⟨t, ht, rfl⟩
    · rintro hnone file ⟨t, ht, -⟩
      exact hnone t ht
  rw [h.omits_iff hfiles, h.complete_iff, sum_allLines hfiles, hempty, not_or, not_le]

theorem used_eq_wholeCost (hall : ¬Omits entries tags) : used count entries = wholeCost count tags := by
  have hcomplete : Complete files entries := not_not.1 fun hnot => hall ((h.omits_iff hfiles).2 hnot)
  rw [used, h.lines_of_complete hcomplete, List.map_cons, List.sum_cons, sum_allLines hfiles]

end Whole

/-- **The note at the end of a map.**  It is there exactly if something is missing, in two cases: everything is shown
and counts less than the limit, or not everything fits and what is shown, marks included, reaches the limit.  Besides,
a last line that happens to read like the note counts as one. -/
theorem note_truthful_iff (count : Counter) (limit : Int) (score : Tag → Int) (tags : List Tag) :
    ∃ files entries, InOrder score tags files ∧ Filled count limit tags (count title) files entries ∧
      render count limit score tags = Text.unlines (mapLines count limit entries) ∧
      ((Text.endsWith (render count limit score tags) noteText = true ↔ Omits entries tags) ↔
        ((wholeCost count tags : Int) < limit ∧ Text.endsWith (lastLine entries) noteText = false) ∨
          tags ≠ [] ∧ limit < (wholeCost count tags : Int) ∧
            (limit ≤ used count entries ∨ Text.endsWith (lastLine entries) noteText = true)) := by
  obtain ⟨files, entries, hfiles, hfilled, htext⟩ := exists_entries count limit score tags
  refine ⟨files, entries, hfiles, hfilled, htext, ?_⟩
  have homits := omits_iff_wholeCost hfiles hfilled
  rw [htext, endsWith_mapLines]
  by_cases hsome : Omits entries tags
  · obtain ⟨htags, hlimit⟩ := homits.1 hsome
    simp [hsome, htags, hlimit, hlimit.le]
  · have hused : used count entries = wholeCost count tags := used_eq_wholeCost hfiles hfilled hsome
    have hfits : ¬(tags ≠ [] ∧ limit < (wholeCost count tags : Int) ∧
        (limit ≤ used count entries ∨ Text.endsWith (lastLine entries) noteText = true)) :=
      fun hnot => hsome (homits.2 ⟨hnot.1, hnot.2.1⟩)
    rw [or_iff_left hfits, hused]
    simp [hsome]

/-- One tag and room for the title only: nothing is shown, and nothing is said. -/
theorem render_omits_silently :
    render String.length 20 (fun _ => 1) [⟨"a.py", "a.py", 1, "f", "function"⟩] = "Repository symbols:" ∧
    Filled String.length 20 [⟨"a.py", "a.py", 1, "f", "function"⟩] 19 ["a.py"] [] ∧
    Omits [] [⟨"a.py", "a.py", 1, "f", "function"⟩] ∧ Text.endsWith "Repository symbols:" noteText = false := by
  refine ⟨by decide +kernel, .full (by decide +kernel), ?_, by decide⟩
  exact .inl ⟨_, List.mem_cons_self, List.not_mem_nil⟩

end SymbolMap

end CodeAtlas
