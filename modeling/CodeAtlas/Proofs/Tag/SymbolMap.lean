import CodeAtlas.Proofs.Sorting
import CodeAtlas.Tag.SymbolMap
import Mathlib.Data.Int.Order.Basic
import Mathlib.Data.Prod.Lex
import Mathlib.Algebra.BigOperators.Group.List.Basic
import Mathlib.Algebra.GroupWithZero.Nat
import Mathlib.Algebra.Ring.Int.Defs

/-!
# What a symbol map shows

The files of a map are taken in their order, and the tags of each in the order of their lines, as long as the lines
count no more than the limit.  Tags that are left out are marked, and the mark is counted without asking whether there
is room for it.  Nothing is lost by that: whatever is added behind it fits together with the mark, and all the more
without it.
-/

namespace CodeAtlas.SymbolMap

variable {count : Counter} {limit : Int} {score : Tag → Int} {tags : List Tag} {files : List String}

/-! ### The order of files -/

/-- What files are sorted by: the highest sum of scores first, then names. -/
def fileKey (score : Tag → Int) (tags : List Tag) (file : String) : Lex (Int × String) :=
  toLex (-((Tag.ofFile tags file).map score).sum, file)

/-- The files of some tags, each once, in the order of a map. -/
structure InOrder (score : Tag → Int) (tags : List Tag) (files : List String) : Prop where
  mem_iff : ∀ file, file ∈ files ↔ ∃ t ∈ tags, t.relFile = file
  pairwise : files.Pairwise fun a b => fileKey score tags a < fileKey score tags b

theorem InOrder.nodup (h : InOrder score tags files) : files.Nodup :=
  h.pairwise.imp fun hlt heq => hlt.ne (congrArg _ heq)

theorem fileScore_eq_sum (score : Tag → Int) (tags : List Tag) (file : String) :
    fileScore score tags file = ((Tag.ofFile tags file).map score).sum := by
  rw [fileScore, List.sum_eq_foldr, List.foldr_map]

theorem mem_files {file : String} : file ∈ Tag.files tags ↔ ∃ t ∈ tags, t.relFile = file := by
  rw [Tag.files, mem_distinct, List.mem_map]

theorem sortedFiles_inOrder (score : Tag → Int) (tags : List Tag) : InOrder score tags (sortedFiles score tags) := by
  have hkey : ∀ a b : String, (decide (fileScore score tags b < fileScore score tags a) ||
      (fileScore score tags a == fileScore score tags b && textBefore a b)) = true ↔
        fileKey score tags a < fileKey score tags b := by
    intro a b
    rw [fileKey, fileKey, Prod.Lex.toLex_lt_toLex, ← fileScore_eq_sum, ← fileScore_eq_sum]
    simp [textBefore]
  constructor
  · intro file
    rw [sortedFiles, (sortBy_perm _ _).mem_iff, mem_files]
  · refine ((sortBy_stablySorted hkey _).pairwise_or (nodup_distinct _)).imp fun {a b} h => ?_
    obtain hlt | ⟨heq, hne⟩ := h
    · exact hlt
    · exact absurd (congrArg (fun k => (ofLex k).2) heq) hne

/-! ### Entries -/

/-- The line in the place of the tags that are left out, if there are any. -/
def mark (hidden : List Tag) : List String := if hidden = [] then [] else [ellipsis]

@[simp] theorem mark_nil : mark [] = [] := rfl

@[simp] theorem mark_cons (t : Tag) (ts : List Tag) : mark (t :: ts) = [ellipsis] := rfl

/-- A file of a map, with the tags that are shown and those that are left out. -/
structure Entry where
  file : String
  shown : List Tag
  hidden : List Tag

namespace Entry

/-- The line of the file and those of the tags that are shown. -/
def body (e : Entry) : List String := fileLine e.file :: e.shown.map tagLine

/-- The lines of an entry.  If tags are left out, then a mark says so. -/
def lines (e : Entry) : List String := e.body ++ mark e.hidden

end Entry

/-- Entries that are made of files, one after the other and as far as the limit allows, with so many tokens used before.
A file is taken if its line fits, and then its tags as long as their lines fit. -/
inductive Filled (count : Counter) (limit : Int) (tags : List Tag) : Nat → List String → List Entry → Prop
  | done {used : Nat} : Filled count limit tags used [] []
  | full {used : Nat} {file : String} {files : List String}
      (hfull : limit < ((used + count (fileLine file) : Nat) : Int)) :
      Filled count limit tags used (file :: files) []
  | next {used : Nat} {e : Entry} {files : List String} {entries : List Entry}
      (htags : e.shown ++ e.hidden = Tag.byLine (Tag.ofFile tags e.file))
      (hfits : ((used + (e.body.map count).sum : Nat) : Int) ≤ limit)
      (hfull : ∀ t ∈ e.hidden.head?, limit < ((used + (e.body.map count).sum + count (tagLine t) : Nat) : Int))
      (hrest : Filled count limit tags (used + (e.lines.map count).sum) files entries) :
      Filled count limit tags used (e.file :: files) (e :: entries)

/-- Tags are taken from the first one on, as long as they fit. -/
theorem tagLines_eq (count : Counter) (limit : Int) (used : Nat) (ts : List Tag) (hused : (used : Int) ≤ limit) :
    ∃ shown hidden, ts = shown ++ hidden ∧
      ((used + ((shown.map tagLine).map count).sum : Nat) : Int) ≤ limit ∧
      (∀ t ∈ hidden.head?, limit < ((used + ((shown.map tagLine).map count).sum + count (tagLine t) : Nat) : Int)) ∧
      tagLines count limit used ts = (shown.map tagLine ++ mark hidden,
        used + ((shown.map tagLine ++ mark hidden).map count).sum) := by
  induction ts generalizing used with
  | nil => exact ⟨[], [], rfl, by simpa using hused, by simp, rfl⟩
  | cons t ts ih =>
    rw [tagLines]
    by_cases hfull : limit < ((used + count (tagLine t) : Nat) : Int)
    · refine ⟨[], t :: ts, rfl, by simpa using hused, by simpa using hfull, ?_⟩
      rw [if_pos hfull]
      simp
    · obtain ⟨shown, hidden, rfl, hfits, hstop, hlines⟩ := ih (used + count (tagLine t)) (not_lt.1 hfull)
      refine ⟨t :: shown, hidden, rfl, ?_, ?_, ?_⟩
      · simpa [Nat.add_assoc] using hfits
      · simpa [Nat.add_assoc] using hstop
      · rw [if_neg hfull, hlines]
        simp [Nat.add_assoc]

/-- The lines of files are those of the entries that are made of them. -/
theorem fileLines_filled (count : Counter) (limit : Int) (tags : List Tag) (used : Nat) (files : List String) :
    ∃ entries, Filled count limit tags used files entries ∧
      fileLines count limit tags used files =
        (entries.flatMap Entry.lines, used + ((entries.flatMap Entry.lines).map count).sum) := by
  induction files generalizing used with
  | nil => exact ⟨[], .done, rfl⟩
  | cons file files ih =>
    rw [fileLines]
    by_cases hfull : limit < ((used + count (fileLine file) : Nat) : Int)
    · refine ⟨[], .full hfull, ?_⟩
      rw [if_pos hfull]
      rfl
    · obtain ⟨shown, hidden, htags, hfits, hstop, hown⟩ :=
        tagLines_eq count limit _ (Tag.byLine (Tag.ofFile tags file)) (not_lt.1 hfull)
      obtain ⟨entries, hrest, hothers⟩ := ih (used + ((Entry.lines ⟨file, shown, hidden⟩).map count).sum)
      refine ⟨⟨file, shown, hidden⟩ :: entries, .next htags.symm ?_ ?_ hrest, ?_⟩
      · simpa [Entry.body, Nat.add_assoc] using hfits
      · simpa [Entry.body, Nat.add_assoc] using hstop
      · have hused : used + count (fileLine file) +
            ((shown.map tagLine ++ mark hidden).map count).sum =
              used + ((Entry.lines ⟨file, shown, hidden⟩).map count).sum := by
          simp [Entry.lines, Entry.body, Nat.add_assoc]
        simp only [if_neg hfull, hown, hused, hothers]
        simp [Entry.lines, Entry.body, Nat.add_assoc]

namespace Filled

variable {used : Nat} {entries : List Entry}

theorem files_prefix (h : Filled count limit tags used files entries) : entries.map Entry.file <+: files := by
  induction h with
  | done => exact List.prefix_rfl
  | full => exact List.nil_prefix
  | next _ _ _ _ ih => exact List.prefix_cons_inj _ |>.2 ih

theorem append_eq (h : Filled count limit tags used files entries) :
    ∀ e ∈ entries, e.shown ++ e.hidden = Tag.byLine (Tag.ofFile tags e.file) := by
  induction h with
  | done => exact nofun
  | full => exact nofun
  | next htags _ _ _ ih => exact List.forall_mem_cons.2 ⟨htags, ih⟩

-- The tokens of what is shown are some of those used, since the latter include the marks.
theorem sum_body_le (h : Filled count limit tags used files entries) {weight : Nat} (hweight : weight ≤ used) :
    ((weight + ((entries.flatMap Entry.body).map count).sum : Nat) : Int) ≤ max limit weight := by
  induction h generalizing weight with
  | done => simp
  | full => simp
  | @next used e files entries _ hfits _ _ ih =>
    have hmark : (e.body.map count).sum ≤ (e.lines.map count).sum := by
      rw [Entry.lines, List.map_append, List.sum_append]
      exact Nat.le_add_right _ _
    have hbelow : weight + (e.body.map count).sum ≤ used + (e.lines.map count).sum := by omega
    have hle := ih hbelow
    have hmax : max limit ((weight + (e.body.map count).sum : Nat) : Int) = limit := max_eq_left (by omega)
    rw [hmax] at hle
    rw [List.flatMap_cons, List.map_append, List.sum_append, ← Nat.add_assoc]
    exact hle.trans (le_max_left _ _)

end Filled

/-- The tokens that are used up at the end of a map with given entries. -/
def used (count : Counter) (entries : List Entry) : Nat := ((title :: entries.flatMap Entry.lines).map count).sum

/-- The lines of a map with given entries. -/
def mapLines (count : Counter) (limit : Int) (entries : List Entry) : List String :=
  title :: entries.flatMap Entry.lines ++ if limit ≤ used count entries then [truncationNote] else []

theorem exists_entries (count : Counter) (limit : Int) (score : Tag → Int) (tags : List Tag) :
    ∃ files entries, InOrder score tags files ∧ Filled count limit tags (count title) files entries ∧
      render count limit score tags = Text.unlines (mapLines count limit entries) := by
  obtain ⟨entries, hfilled, hlines⟩ := fileLines_filled count limit tags (count title) (sortedFiles score tags)
  refine ⟨_, entries, sortedFiles_inOrder score tags, hfilled, ?_⟩
  simp only [render, hlines, mapLines, used, List.map_cons, List.sum_cons]

theorem byLine_stablySorted (ts : List Tag) : StablySorted Tag.line ts (Tag.byLine ts) :=
  sortBy_stablySorted (fun _ _ => decide_eq_true_iff) ts

/-- **What a symbol map shows.**  It shows the first of the files, and of each of these the first of its tags by their
lines, tags of one line as they are given.  A mark follows exactly if not all tags of the file are shown.  The title,
the files and the tags that are shown count no more than the limit, unless the title alone does.  Files and tags are
left out only where the next one does not fit. -/
theorem render_shape (count : Counter) (limit : Int) (score : Tag → Int) (tags : List Tag) :
    ∃ files entries, InOrder score tags files ∧ Filled count limit tags (count title) files entries ∧
      render count limit score tags = Text.unlines (mapLines count limit entries) ∧
      entries.map Entry.file <+: files ∧
      (∀ e ∈ entries, StablySorted Tag.line (Tag.ofFile tags e.file) (e.shown ++ e.hidden)) ∧
      ((((title :: entries.flatMap Entry.body).map count).sum : Nat) : Int) ≤ max limit (count title) := by
  obtain ⟨files, entries, hfiles, hfilled, htext⟩ := exists_entries count limit score tags
  refine ⟨files, entries, hfiles, hfilled, htext, hfilled.files_prefix, ?_, ?_⟩
  · intro e he
    rw [hfilled.append_eq e he]
    exact byLine_stablySorted _
  · rw [List.map_cons, List.sum_cons]
    exact hfilled.sum_body_le le_rfl

end CodeAtlas.SymbolMap
