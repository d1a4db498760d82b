import CodeAtlas.Listing
import CodeAtlas.Proofs.Path
import CodeAtlas.Proofs.Sorting
import CodeAtlas.Proofs.Text.Fields
import Mathlib.Algebra.BigOperators.Group.List.Basic
import Mathlib.Data.List.Forall2

/-!
# A listing in parts shows what the whole listing shows

The parts of a listing are pages: each begins with the title and lists groups of files, every group under
its heading.  Where a page is full the heading is repeated on the next one, so that each file stands under
the heading of its own group, and no file is lost or moved.

## Main definitions

* `Page` — groups of files as a part shows them
* `headed` — the lines of files that a text shows, each with the nearest heading above it
* `Refines` — texts that show what the whole listing shows

## Main results

* `Parts.Shows.addGroup` — what listing one group preserves
* `exists_pages` — the parts of a listing as pages
* `groups_perm` — the groups hold every path as often as it is given
* `parts_refines` — the parts of a listing show what the whole listing shows
-/

namespace CodeAtlas.Listing

/-- A list of results, each of which is there. -/
theorem mapM_eq_ok {α β : Type} {f : α → Except Error β} {xs : List α} {ys : List β} :
    xs.mapM f = .ok ys ↔ List.Forall₂ (fun x y => f x = .ok y) xs ys := by
  induction xs generalizing ys with
  | nil =>
    rw [List.mapM_nil, List.forall₂_nil_left_iff]
    constructor
    · intro h
      cases h
      rfl
    · rintro rfl
      rfl
  | cons x xs ih =>
    rw [List.mapM_cons, List.forall₂_cons_left_iff]
    cases hx : f x with
    | error e => simp [bind, Except.bind]
    | ok y =>
      cases hxs : xs.mapM f with
      | error e =>
        rw [hxs] at ih
        simp [bind, Except.bind, ← ih]
      | ok rest =>
        rw [hxs] at ih
        simp [bind, Except.bind, pure, Except.pure, ← ih, eq_comm]

theorem exists_of_mem_of_forall₂ {α β : Type} {R : α → β → Prop} {xs : List α} {ys : List β}
    (h : List.Forall₂ R xs ys) {x : α} (hx : x ∈ xs) : ∃ y ∈ ys, R x y := by
  induction h with
  | nil => cases hx
  | cons hrel _ ih =>
    rcases List.mem_cons.1 hx with rfl | hrest
    · exact ⟨_, List.mem_cons_self, hrel⟩
    · obtain ⟨y, hmem, hy⟩ := ih hrest
      exact ⟨y, List.mem_cons_of_mem _ hmem, hy⟩

theorem exists_mem_of_mapM {α β : Type} {f : α → Except Error β} {xs : List α} {ys : List β}
    (h : xs.mapM f = .ok ys) {x : α} (hx : x ∈ xs) : ∃ y ∈ ys, f x = .ok y :=
  exists_of_mem_of_forall₂ (mapM_eq_ok.1 h) hx

theorem exists_of_mem_mapM {α β : Type} {f : α → Except Error β} {xs : List α} {ys : List β}
    (h : xs.mapM f = .ok ys) {y : β} (hy : y ∈ ys) : ∃ x ∈ xs, f x = .ok y :=
  exists_of_mem_of_forall₂ (mapM_eq_ok.1 h).flip hy

/-- Names depend on the current directory only. -/
theorem relativeName_congr {d d' : Disk} (h : d'.here = d.here) (root path : String) :
    relativeName d' root path = relativeName d root path := by
  simp only [relativeName, Disk.relative, Disk.absolute, Disk.herePath, h]

/-- Groups of files as a part shows them: each file under the heading of its group. -/
abbrev Page := List (String × List String)

/-- The lines of a group. -/
def groupLines (group : String × List String) : List String := headingLine group.1 :: group.2.map fileLine

/-- The lines of a page. -/
def Page.lines (page : Page) : List String := title :: page.flatMap groupLines

/-- The text of a page. -/
def Page.text (page : Page) : String := Text.joined "\n" page.lines

/-- The files of pages, in order. -/
def filesOf (pages : List Page) : List String := pages.flatMap fun page => page.flatMap Prod.snd

/-- Each group is that of one of the given paths, and its files are of that group. -/
def Grouped (paths : List String) (page : Page) : Prop :=
  ∀ group ∈ page, (∃ path ∈ paths, groupOf path = group.1) ∧ ∀ path ∈ group.2, groupOf path = group.1

theorem grouped_nil (paths : List String) : Grouped paths [] := by
  simp [Grouped]

theorem grouped_concat {paths : List String} {page : Page} {group : String × List String} :
    Grouped paths (page ++ [group]) ↔ Grouped paths page ∧
      (∃ path ∈ paths, groupOf path = group.1) ∧ ∀ path ∈ group.2, groupOf path = group.1 := by
  simp only [Grouped, List.forall_mem_append, List.forall_mem_singleton]

/-- Parts with the pages that are finished and the current one. -/
structure Parts.Shows (paths : List String) (p : Parts) (pages : List Page) (page : Page) : Prop where
  done_eq : p.done = pages.map Page.text
  lines_eq : p.lines = page.lines
  grouped : ∀ q ∈ pages, Grouped paths q
  current : Grouped paths page

namespace Parts.Shows

variable {paths : List String} {p : Parts} {pages : List Page} {page front : Page} {group : String}
variable {files : List String}

theorem start (count : Counter) (paths : List String) : (Parts.start count []).Shows paths [] [] :=
  ⟨rfl, rfl, by simp, grouped_nil paths⟩

/-- A finished page stays as it is. -/
theorem next (count : Counter) (h : p.Shows paths pages page) :
    (p.next count).Shows paths (pages ++ [page]) [] where
  done_eq := by simp [Parts.next, Parts.start, Parts.text, Page.text, h.lines_eq, h.done_eq]
  lines_eq := rfl
  grouped := by
    intro q hq
    rcases List.mem_append.1 hq with hold | hnew
    · exact h.grouped q hold
    · rw [List.mem_singleton.1 hnew]
      exact h.current
  current := grouped_nil paths

/-- A heading begins a group on the current page. -/
theorem appendHeading (count : Counter) (h : p.Shows paths pages page)
    (hgroup : ∃ path ∈ paths, groupOf path = group) :
    (p.append count (headingLine group)).Shows paths pages (page ++ [(group, [])]) where
  done_eq := h.done_eq
  lines_eq := by simp [Parts.append, h.lines_eq, Page.lines, groupLines]
  grouped := h.grouped
  current := grouped_concat.2 ⟨h.current, hgroup, by simp⟩

/-- A file joins the last group of the current page. -/
theorem appendFile (count : Counter) {path : String} (h : p.Shows paths pages (front ++ [(group, files)]))
    (hpath : groupOf path = group) :
    (p.append count (fileLine path)).Shows paths pages (front ++ [(group, files ++ [path])]) where
  done_eq := h.done_eq
  lines_eq := by simp [Parts.append, h.lines_eq, Page.lines, groupLines]
  grouped := h.grouped
  current := by
    obtain ⟨hfront, hgroup, hfiles⟩ := grouped_concat.1 h.current
    refine grouped_concat.2 ⟨hfront, hgroup, fun f hf => ?_⟩
    rcases List.mem_append.1 hf with hold | hnew
    · exact hfiles f hold
    · rw [List.mem_singleton.1 hnew]
      exact hpath

/-- A heading that exceeds the current page begins another one. -/
theorem addHeading (count : Counter) (limit : Int) (h : p.Shows paths pages page)
    (hgroup : ∃ path ∈ paths, groupOf path = group) :
    ∃ pages' front, (p.addHeading count limit group).Shows paths pages' (front ++ [(group, [])]) ∧
      filesOf (pages' ++ [front ++ [(group, [])]]) = filesOf (pages ++ [page]) := by
  rw [Parts.addHeading]
  split
  · exact ⟨pages ++ [page], [], (h.next count).appendHeading count hgroup, by simp [filesOf]⟩
  · exact ⟨pages, page, h.appendHeading count hgroup, by simp [filesOf]⟩

/-- A file that exceeds the current page goes to another one, under the same heading. -/
theorem addFile (count : Counter) (limit : Int) {path : String}
    (h : p.Shows paths pages (front ++ [(group, files)])) (hpath : groupOf path = group) :
    ∃ pages' front' files',
      (p.addFile count limit group path).Shows paths pages' (front' ++ [(group, files')]) ∧
      filesOf (pages' ++ [front' ++ [(group, files')]]) =
        filesOf (pages ++ [front ++ [(group, files)]]) ++ [path] := by
  rw [Parts.addFile]
  split
  · refine ⟨pages ++ [front ++ [(group, files)]], [], [path], ?_, by simp [filesOf]⟩
    have hgroup := (grouped_concat.1 h.current).2.1
    exact ((h.next count).appendHeading count hgroup).appendFile count hpath
  · exact ⟨pages, front, files ++ [path], h.appendFile count hpath, by simp [filesOf]⟩

/-- The files of a group are listed one after another. -/
theorem addFiles (count : Counter) (limit : Int) (more : List String)
    (h : p.Shows paths pages (front ++ [(group, files)])) (hmore : ∀ path ∈ more, groupOf path = group) :
    ∃ pages' page', (more.foldl (Parts.addFile count limit group) p).Shows paths pages' page' ∧
      filesOf (pages' ++ [page']) = filesOf (pages ++ [front ++ [(group, files)]]) ++ more := by
  induction more generalizing p pages front files with
  | nil => exact ⟨pages, _, h, by simp⟩
  | cons path more ih =>
    obtain ⟨pages₁, front₁, files₁, h₁, hfiles₁⟩ := h.addFile count limit (hmore path List.mem_cons_self)
    obtain ⟨pages₂, page₂, h₂, hfiles₂⟩ := ih h₁ fun q hq => hmore q (List.mem_cons_of_mem _ hq)
    refine ⟨pages₂, page₂, h₂, ?_⟩
    rw [hfiles₂, hfiles₁, List.append_assoc, List.singleton_append]

/-- What listing one group preserves. -/
theorem addGroup (count : Counter) (limit : Int) (h : p.Shows paths pages page)
    (hgroup : ∃ path ∈ paths, groupOf path = group) (hfiles : ∀ path ∈ files, groupOf path = group) :
    ∃ pages' page', (p.addGroup count limit (group, files)).Shows paths pages' page' ∧
      filesOf (pages' ++ [page']) = filesOf (pages ++ [page]) ++ files := by
  obtain ⟨pages₁, front, h₁, hsame⟩ := h.addHeading count limit hgroup
  obtain ⟨pages₂, page₂, h₂, hadded⟩ := h₁.addFiles count limit files hfiles
  exact ⟨pages₂, page₂, h₂, by rw [hadded, hsame]⟩

/-- What listing all groups preserves. -/
theorem addGroups (count : Counter) (limit : Int) {gs : List (String × List String)}
    (h : p.Shows paths pages page) (hgs : Grouped paths gs) :
    ∃ pages' page', (gs.foldl (Parts.addGroup count limit) p).Shows paths pages' page' ∧
      filesOf (pages' ++ [page']) = filesOf (pages ++ [page]) ++ gs.flatMap Prod.snd := by
  induction gs generalizing p pages page with
  | nil => exact ⟨pages, page, h, by simp⟩
  | cons g gs ih =>
    obtain ⟨hgroup, hfiles⟩ := hgs g List.mem_cons_self
    obtain ⟨pages₁, page₁, h₁, hfiles₁⟩ := h.addGroup count limit hgroup hfiles
    obtain ⟨pages₂, page₂, h₂, hfiles₂⟩ := ih h₁ fun g' hg' => hgs g' (List.mem_cons_of_mem _ hg')
    refine ⟨pages₂, page₂, h₂, ?_⟩
    rw [hfiles₂, hfiles₁, List.flatMap_cons, List.append_assoc]

end Parts.Shows

theorem groups_grouped (paths : List String) : Grouped paths (groups paths) := by
  intro group hgroup
  obtain ⟨g, hg, rfl⟩ := List.mem_map.1 hgroup
  refine ⟨List.mem_map.1 (mem_distinct.1 ((sortTexts_perm _).mem_iff.1 hg)), fun path hpath => ?_⟩
  have hmem := (sortTexts_perm _).mem_iff.1 hpath
  simpa using (List.mem_filter.1 hmem).2

/-- The parts of a listing are pages on which every file stands under the heading of its group, and show the
files of the groups in order. -/
theorem exists_pages (count : Counter) (limit : Int) (paths : List String) :
    ∃ pages, parts count limit paths = pages.map Page.text ∧ (∀ page ∈ pages, Grouped paths page) ∧
      filesOf pages = (groups paths).flatMap Prod.snd := by
  obtain ⟨pages, page, h, hfiles⟩ :=
    (Parts.Shows.start count paths).addGroups count limit (groups_grouped paths)
  refine ⟨pages ++ [page], ?_, ?_, by simpa [filesOf] using hfiles⟩
  · simp [parts, h.done_eq, Parts.text, Page.text, h.lines_eq]
  · intro q hq
    rcases List.mem_append.1 hq with hold | hlast
    · exact h.grouped q hold
    · rw [List.mem_singleton.1 hlast]
      exact h.current

/-! ### Every path as often as it is given -/

/-- The groups hold every path as often as it is given. -/
theorem groups_perm (paths : List String) : ((groups paths).flatMap Prod.snd).Perm paths := by
  have hgroups : (sortTexts (distinct (paths.map groupOf))).Nodup :=
    (sortTexts_perm _).nodup_iff.2 (nodup_distinct _)
  have hmem : ∀ path ∈ paths, groupOf path ∈ sortTexts (distinct (paths.map groupOf)) := fun path hpath =>
    (sortTexts_perm _).mem_iff.2 (mem_distinct.2 (List.mem_map_of_mem hpath))
  rw [groups, List.flatMap_map]
  exact (List.Perm.flatMap_left _ fun g _ => sortTexts_perm _).trans (flatMap_filter_perm hgroups hmem)

/-! ### The lines of a listing as they are read -/

/-- Whether a line is that of a file. -/
def isFileLine (line : String) : Bool := Text.startsWith line "  "

/-- Whether a line is a heading. -/
def isHeading (line : String) : Bool :=
  line == heading noExtension || Text.startsWith line "." && Text.endsWith line " files:"

/-- The lines of files among some lines, each with the nearest heading above it.  The heading above all of
them is given. -/
def headedFrom : Option String → List String → List (Option String × String)
  | _, [] => []
  | above, line :: rest =>
    if isFileLine line then (above, line) :: headedFrom above rest
    else if isHeading line then headedFrom (some line) rest
    else headedFrom above rest

/-- The lines of files that a text shows, each with the nearest heading above it. -/
def headed (text : String) : List (Option String × String) := headedFrom none (Text.fields '\n' text)

/-- The line of a file below the heading of its group. -/
def entry (path : String) : Option String × String := (some (heading (groupOf path)), fileLine path)

/-- The heading of a group is a line, and is read as a heading. -/
theorem heading_groupOf {path : String} (h : '\n' ∉ path.toList) :
    '\n' ∉ (heading (groupOf path)).toList ∧ isFileLine (heading (groupOf path)) = false ∧
      isHeading (heading (groupOf path)) = true := by
  rcases Path.extension_cases path with hempty | ⟨tail, htail, hmem⟩
  · have hgroup : groupOf path = noExtension := by simp [groupOf, hempty]
    rw [hgroup]
    decide
  · have hgroup : (groupOf path).toList = '.' :: tail := by simp [groupOf, htail]
    have hne : groupOf path ≠ noExtension := by
      rw [ne_eq, ← String.toList_inj, hgroup]
      simp [noExtension]
    have hheading : (heading (groupOf path)).toList = '.' :: (tail ++ " files:".toList) := by
      simp [heading, hne, hgroup]
    have hline : '\n' ∉ tail := fun hc => h (hmem _ hc)
    refine ⟨by simp [hheading, hline], ?_, ?_⟩
    · rw [isFileLine, Text.startsWith, hheading]
      rfl
    · have hdot : Text.startsWith (heading (groupOf path)) "." = true := by
        rw [Text.startsWith, hheading]
        rfl
      have hend : Text.endsWith (heading (groupOf path)) " files:" = true := by
        rw [Text.endsWith, hheading, List.isSuffixOf_iff_suffix]
        exact ⟨'.' :: tail, rfl⟩
      simp [isHeading, hdot, hend]

theorem headedFrom_files (above : Option String) (files rest : List String) :
    headedFrom above (files.map fileLine ++ rest) =
      files.map (fun path => (above, fileLine path)) ++ headedFrom above rest := by
  induction files with
  | nil => rfl
  | cons path files ih =>
    have hline : isFileLine (fileLine path) = true := by simp [isFileLine, Text.startsWith, fileLine]
    simp [headedFrom, hline, ih]

/-- The files of a group are read below its heading. -/
theorem headedFrom_group {path : String} (h : '\n' ∉ path.toList) {files : List String}
    (hfiles : ∀ f ∈ files, groupOf f = groupOf path) (above : Option String) (rest : List String) :
    headedFrom above (heading (groupOf path) :: (files.map fileLine ++ rest)) =
      files.map entry ++ headedFrom (some (heading (groupOf path))) rest := by
  obtain ⟨-, hfile, hheading⟩ := heading_groupOf h
  have hentries : files.map (fun f => (some (heading (groupOf path)), fileLine f)) = files.map entry :=
    List.map_congr_left fun f hf => by rw [entry, hfiles f hf]
  rw [headedFrom, if_neg (by simp [hfile]), if_pos hheading, headedFrom_files, hentries]

theorem headedFrom_blank (above : Option String) (rest : List String) :
    headedFrom above ("" :: rest) = headedFrom above rest := rfl

theorem headedFrom_title (above : Option String) (rest : List String) :
    headedFrom above (title :: rest) = headedFrom above rest := rfl

section OneLine

variable {paths : List String} (hline : ∀ path ∈ paths, '\n' ∉ path.toList)

include hline

/-- The groups of a page are read one after another, whatever blank lines stand around them. -/
theorem headedFrom_groups {page : Page} (hpage : Grouped paths page) (front back : List String)
    (hfront : ∀ above rest, headedFrom above (front ++ rest) = headedFrom above rest)
    (hback : ∀ above rest, headedFrom above (back ++ rest) = headedFrom above rest) (above : Option String) :
    headedFrom above (page.flatMap fun group => front ++ heading group.1 :: (group.2.map fileLine ++ back)) =
      page.flatMap fun group => group.2.map entry := by
  induction page generalizing above with
  | nil => rfl
  | cons group page ih =>
    obtain ⟨⟨path, hpath, hgroup⟩, hfiles⟩ := hpage group List.mem_cons_self
    have hlater := ih fun g hg => hpage g (List.mem_cons_of_mem _ hg)
    rw [← hgroup] at hfiles
    rw [List.flatMap_cons, List.flatMap_cons, List.append_assoc, hfront, List.cons_append, List.append_assoc,
      ← hgroup, headedFrom_group (hline path hpath) hfiles, hback, hlater]

/-- Names that are lines are read as they are written. -/
theorem fields_fileLines {files : List String} (hfiles : ∀ f ∈ files, f ∈ paths) :
    (files.map fileLine).flatMap (Text.fields '\n') = files.map fileLine := by
  rw [List.flatMap_map, List.map_eq_flatMap]
  refine List.flatMap_congr fun f hf => Text.fields_of_not_mem ?_
  simpa [fileLine] using hline f (hfiles f hf)

/-- The lines of a page as they are read. -/
theorem fields_page {page : Page} (hpage : Grouped paths page)
    (hfiles : ∀ group ∈ page, ∀ f ∈ group.2, f ∈ paths) :
    Text.fields '\n' page.text =
      title :: page.flatMap fun group => [""] ++ heading group.1 :: (group.2.map fileLine ++ []) := by
  have htitle : Text.fields '\n' title = [title] := Text.fields_of_not_mem (by decide)
  have hsep : "\n" = '\n'.toString := by decide
  rw [Page.text, hsep, Text.fields_joined (by simp [Page.lines]), Page.lines, List.flatMap_cons, htitle,
    List.flatMap_assoc, List.singleton_append]
  refine congrArg _ (List.flatMap_congr fun group hgroup => ?_)
  obtain ⟨⟨path, hpath, hname⟩, -⟩ := hpage group hgroup
  have hheading : Text.fields '\n' (headingLine group.1) = ["", heading group.1] := by
    have hsplit : headingLine group.1 = "" ++ '\n'.toString ++ heading group.1 := by simp [headingLine]
    rw [hsplit, Text.fields_append_separator, ← hname,
      Text.fields_of_not_mem (heading_groupOf (hline path hpath)).1]
    rfl
  rw [groupLines, List.flatMap_cons, hheading, fields_fileLines hline (hfiles group hgroup)]
  simp

theorem headed_page {page : Page} (hpage : Grouped paths page)
    (hfiles : ∀ group ∈ page, ∀ f ∈ group.2, f ∈ paths) :
    headed page.text = page.flatMap fun group => group.2.map entry := by
  rw [headed, fields_page hline hpage hfiles, headedFrom_title]
  exact headedFrom_groups hline hpage [""] [] headedFrom_blank (fun _ _ => rfl) none

/-- The lines of the whole listing as they are read. -/
theorem fields_render (hne : paths ≠ []) :
    Text.fields '\n' (render paths) = title :: "" ::
      (groups paths).flatMap fun group => [] ++ heading group.1 :: (group.2.map fileLine ++ [""]) := by
  have htitle : Text.fields '\n' title = [title] := Text.fields_of_not_mem (by decide)
  have hblank : Text.fields '\n' "" = [""] := Text.fields_of_not_mem (by decide)
  have hsep : "\n" = '\n'.toString := by decide
  rw [render, if_neg (by simpa using hne), hsep, Text.fields_joined (by simp), List.flatMap_cons,
    List.flatMap_cons, htitle, hblank, List.flatMap_assoc, List.singleton_append, List.singleton_append]
  refine congrArg (title :: "" :: ·) (List.flatMap_congr fun group hgroup => ?_)
  obtain ⟨⟨path, hpath, hname⟩, -⟩ := groups_grouped paths group hgroup
  have hfiles : ∀ f ∈ group.2, f ∈ paths := fun f hf =>
    (groups_perm paths).mem_iff.1 (List.mem_flatMap.2 ⟨group, hgroup, hf⟩)
  show (heading group.1 :: group.2.map fileLine ++ [""]).flatMap (Text.fields '\n') = _
  rw [List.cons_append, List.flatMap_cons, List.flatMap_append, fields_fileLines hline hfiles, ← hname,
    Text.fields_of_not_mem (heading_groupOf (hline path hpath)).1, List.flatMap_singleton, hblank]
  rfl

theorem headed_render : headed (render paths) = ((groups paths).flatMap Prod.snd).map entry := by
  rw [List.map_flatMap]
  by_cases hne : paths = []
  · subst hne
    decide
  · rw [headed, fields_render hline hne, headedFrom_title, headedFrom_blank]
    exact headedFrom_groups hline (groups_grouped paths) [] [""] (fun _ _ => rfl) headedFrom_blank none

end OneLine

/-- Texts that show what the whole listing of some paths shows. -/
structure Refines (paths texts : List String) : Prop where
  /-- Every text starts with the title. -/
  titled : ∀ text ∈ texts, (Text.fields '\n' text).head? = some title
  /-- On every text each file stands under the heading of its group, and the files are those of the whole
  listing, in the same order. -/
  paged : ∃ pages, texts = pages.map Page.text ∧ (∀ page ∈ pages, Grouped paths page) ∧
    filesOf pages = (groups paths).flatMap Prod.snd
  /-- Every path is shown as often as it is given. -/
  complete : ((groups paths).flatMap Prod.snd).Perm paths
  /-- If names are lines this can be read off the lines: the nearest heading above the line of a file is that
  of its group, and the lines of files are those of the whole listing, in the same order. -/
  headed : (∀ path ∈ paths, '\n' ∉ path.toList) →
    (∀ text ∈ texts, ∀ line ∈ headed text, ∃ path ∈ paths, line = entry path) ∧
      texts.flatMap headed = headed (render paths)

theorem head_fields_page (page : Page) : (Text.fields '\n' page.text).head? = some title := by
  have htitle : Text.fields '\n' title = [title] := Text.fields_of_not_mem (by decide)
  have hsep : "\n" = '\n'.toString := by decide
  rw [Page.text, hsep, Text.fields_joined (by simp [Page.lines]), Page.lines, List.flatMap_cons, htitle]
  rfl

/-- The parts of a listing show what the whole listing shows. -/
theorem parts_refines (count : Counter) (limit : Int) (paths : List String) :
    Refines paths (parts count limit paths) := by
  obtain ⟨pages, hparts, hgrouped, hfiles⟩ := exists_pages count limit paths
  rw [hparts]
  refine ⟨?_, ⟨pages, rfl, hgrouped, hfiles⟩, groups_perm paths, fun hline => ?_⟩
  · intro text htext
    obtain ⟨page, -, rfl⟩ := List.mem_map.1 htext
    exact head_fields_page page
  have hmem : ∀ page ∈ pages, ∀ group ∈ page, ∀ f ∈ group.2, f ∈ paths := by
    intro page hpage group hgroup f hf
    have hshown : f ∈ filesOf pages :=
      List.mem_flatMap.2 ⟨page, hpage, List.mem_flatMap.2 ⟨group, hgroup, hf⟩⟩
    rw [hfiles] at hshown
    exact (groups_perm paths).mem_iff.1 hshown
  have hread : ∀ page ∈ pages, Listing.headed page.text = page.flatMap fun group => group.2.map entry :=
    fun page hpage => headed_page hline (hgrouped page hpage) (hmem page hpage)
  constructor
  · intro text htext line hentry
    obtain ⟨page, hpage, rfl⟩ := List.mem_map.1 htext
    rw [hread page hpage] at hentry
    obtain ⟨group, hgroup, hf⟩ := List.mem_flatMap.1 hentry
    obtain ⟨f, hmapped, rfl⟩ := List.mem_map.1 hf
    exact ⟨f, hmem page hpage group hgroup f hmapped, rfl⟩
  · rw [headed_render hline, ← hfiles, filesOf, List.flatMap_map, List.flatMap_congr hread, List.map_flatMap]
    simp only [List.map_flatMap]

end CodeAtlas.Listing
