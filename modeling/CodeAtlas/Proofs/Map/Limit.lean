import CodeAtlas.Proofs.Map.Generate
import Mathlib.Algebra.GroupWithZero.Nat

/-!
# What the parts of a map count

A listing is cut by adding up what its lines count one by one, while a part is counted as one text.  So the limit
is kept line by line, but a part may count more than it by what it costs to join its lines.  A listing for which
there are no tags is not cut at all.

## Main definitions

* `Listing.tally` — what lines count one by one
* `Listing.Accounted` — lines that keep a limit one by one, or are too few to be cut
* `Listing.JoinsWithin`, `Listing.JoinsAt` — counters that bound, or fix, what it costs to join two lines
* `Map.KeepsLimit` — every part that is written, and the listing if none is, keeps the limit or shows one file

## Main results

* `Listing.exists_sheets` — the parts of a listing keep the limit line by line
* `Map.generate_keepsLimit_iff` — when a map keeps its limit
* `Map.generate_exceeds_limit` — a map of two files that does not
-/

namespace CodeAtlas

namespace Listing

/-- What lines count one by one. -/
def tally (count : Counter) (lines : List String) : Nat := (lines.map count).sum

/-- The number of files that lines show. -/
def fileCount (lines : List String) : Nat := lines.countP isFileLine

/-- Lines that keep a limit one by one, or are too few to be cut: there is one file among them, or they are the
title with at most one heading. -/
def Accounted (count : Counter) (limit : Int) (known : String → Prop) (lines : List String) : Prop :=
  lines ≠ [] ∧ ((tally count lines : Int) ≤ limit ∨ fileCount lines = 1 ∨
    lines = [title] ∨ ∃ group, known group ∧ lines = [title, headingLine group])

variable {count : Counter} {limit : Int} {known : String → Prop} {lines : List String}

theorem tally_concat (line : String) : tally count (lines ++ [line]) = tally count lines + count line := by
  simp [tally]

theorem isFileLine_title : isFileLine title = false := by decide

theorem isFileLine_headingLine (group : String) : isFileLine (headingLine group) = false := by
  simp only [isFileLine, Text.startsWith, headingLine, String.toList_append]
  rfl

theorem isFileLine_fileLine (path : String) : isFileLine (fileLine path) = true := by
  simp [isFileLine, Text.startsWith, fileLine]

theorem fileCount_heads (group : String) : fileCount [title, headingLine group] = 0 := by
  simp [fileCount, isFileLine_title, isFileLine_headingLine]

/-- Where several files are shown the limit is kept line by line. -/
theorem Accounted.tally_le (h : Accounted count limit known lines) (hfiles : 2 ≤ fileCount lines) :
    (tally count lines : Int) ≤ limit := by
  rcases h.2 with hle | hone | rfl | ⟨group, -, rfl⟩
  · exact hle
  · omega
  · simp [fileCount, isFileLine_title] at hfiles
  · rw [fileCount_heads] at hfiles
    omega

/-- Parts whose lines are accounted for, with the lines of those that are finished. -/
structure Parts.Accounts (count : Counter) (limit : Int) (known : String → Prop) (p : Parts)
    (sheets : List (List String)) : Prop where
  done_eq : p.done = sheets.map (Text.joined "\n")
  tokens_eq : p.tokens = tally count p.lines
  finished : ∀ lines ∈ sheets, Accounted count limit known lines
  current : Accounted count limit known p.lines

namespace Parts.Accounts

variable {p : Parts} {sheets : List (List String)} {group : String}

theorem start (count : Counter) (limit : Int) (known : String → Prop) :
    (Parts.start count []).Accounts count limit known [] :=
  ⟨rfl, by simp [Parts.start, tally], by simp, by simp [Parts.start], Or.inr (Or.inr (Or.inl rfl))⟩

/-- A line that does not exceed the limit keeps it. -/
theorem append {line : String} (h : p.Accounts count limit known sheets)
    (hline : p.exceeds count limit line = false) :
    (p.append count line).Accounts count limit known sheets := by
  have htally : tally count (p.lines ++ [line]) = p.tokens + count line := by rw [tally_concat, h.tokens_eq]
  refine ⟨h.done_eq, htally.symm, h.finished, by simp [Parts.append], Or.inl ?_⟩
  have hle : ¬limit < (p.tokens + count line : Nat) := by simpa [Parts.exceeds] using hline
  show (tally count (p.lines ++ [line]) : Int) ≤ limit
  rw [htally]
  omega

/-- A new part is begun with lines that are too few to be cut. -/
theorem next (h : p.Accounts count limit known sheets) {p' : Parts} (hdone : p'.done = (p.next count).done)
    (htokens : p'.tokens = tally count p'.lines) (hcurrent : Accounted count limit known p'.lines) :
    p'.Accounts count limit known (sheets ++ [p.lines]) := by
  refine ⟨?_, htokens, fun lines hlines => ?_, hcurrent⟩
  · rw [hdone, Parts.next, Parts.start, h.done_eq, List.map_append]
    rfl
  · rcases List.mem_append.1 hlines with hold | hnew
    · exact h.finished lines hold
    · rw [List.mem_singleton.1 hnew]
      exact h.current

theorem addHeading (h : p.Accounts count limit known sheets) (hgroup : known group) :
    ∃ sheets', (p.addHeading count limit group).Accounts count limit known sheets' := by
  rw [Parts.addHeading]
  split
  · refine ⟨_, h.next rfl ?_ ⟨by simp [Parts.append], Or.inr (Or.inr (Or.inr ⟨group, hgroup, rfl⟩))⟩⟩
    simp [Parts.append, Parts.next, Parts.start, tally]
  · next hline => exact ⟨sheets, h.append (by simpa using hline)⟩

theorem addFile (h : p.Accounts count limit known sheets) (group path : String) :
    ∃ sheets', (p.addFile count limit group path).Accounts count limit known sheets' := by
  rw [Parts.addFile]
  split
  · refine ⟨_, h.next rfl ?_ ⟨by simp [Parts.append], Or.inr (Or.inl ?_)⟩⟩
    · simp [Parts.append, Parts.next, Parts.start, tally, Nat.add_assoc]
    · -- the title, the heading and the file
      show fileCount [title, headingLine group, fileLine path] = 1
      simp [fileCount, isFileLine_title, isFileLine_headingLine, isFileLine_fileLine]
  · next hline => exact ⟨sheets, h.append (by simpa using hline)⟩

theorem addFiles (group : String) (files : List String) (h : p.Accounts count limit known sheets) :
    ∃ sheets', (files.foldl (Parts.addFile count limit group) p).Accounts count limit known sheets' := by
  induction files generalizing p sheets with
  | nil => exact ⟨sheets, h⟩
  | cons path files ih =>
    obtain ⟨sheets₁, h₁⟩ := h.addFile group path
    exact ih h₁

theorem addGroups (gs : List (String × List String)) (hgs : ∀ g ∈ gs, known g.1)
    (h : p.Accounts count limit known sheets) :
    ∃ sheets', (gs.foldl (Parts.addGroup count limit) p).Accounts count limit known sheets' := by
  induction gs generalizing p sheets with
  | nil => exact ⟨sheets, h⟩
  | cons g gs ih =>
    obtain ⟨sheets₁, h₁⟩ := h.addHeading (hgs g List.mem_cons_self)
    obtain ⟨sheets₂, h₂⟩ := h₁.addFiles g.1 g.2
    exact ih (fun g' hg' => hgs g' (List.mem_cons_of_mem _ hg')) h₂

end Parts.Accounts

/-- The parts of a listing keep the limit line by line. -/
theorem exists_sheets (count : Counter) (limit : Int) (paths : List String) :
    ∃ sheets : List (List String), parts count limit paths = sheets.map (Text.joined "\n") ∧
      ∀ lines ∈ sheets, Accounted count limit (∃ path ∈ paths, groupOf path = ·) lines := by
  obtain ⟨sheets, h⟩ := (Parts.Accounts.start count limit (∃ path ∈ paths, groupOf path = ·)).addGroups
    (groups paths) fun g hg => (groups_grouped paths g hg).1
  rw [parts]
  generalize (groups paths).foldl (Parts.addGroup count limit) (Parts.start count []) = p at h ⊢
  refine ⟨sheets ++ [p.lines], ?_, fun lines hlines => ?_⟩
  · rw [List.map_append, h.done_eq]
    rfl
  · rcases List.mem_append.1 hlines with hold | hlast
    · exact h.finished lines hold
    · rw [List.mem_singleton.1 hlast]
      exact h.current

/-- Lines that count at most the limit as one text, or show a single file. -/
def Within (count : Counter) (limit : Int) (lines : List String) : Prop :=
  (count (Text.joined "\n" lines) : Int) ≤ limit ∨ fileCount lines = 1

/-- A counter by which a text counts what its lines count one by one, and at most some tokens for each place where two
of them are joined. -/
def JoinsWithin (count : Counter) (cost : Nat) : Prop :=
  ∀ lines, lines ≠ [] → count (Text.joined "\n" lines) ≤ tally count lines + cost * (lines.length - 1)

/-- A counter by which a text counts what its lines count one by one, and the same number of tokens for each place where
two of them are joined. -/
def JoinsAt (count : Counter) (cost : Nat) : Prop :=
  ∀ lines, lines ≠ [] → count (Text.joined "\n" lines) = tally count lines + cost * (lines.length - 1)

theorem JoinsAt.joinsWithin {cost : Nat} (h : JoinsAt count cost) : JoinsWithin count cost :=
  fun lines hlines => (h lines hlines).le

theorem Accounted.joined_le {cost : Nat} (h : Accounted count limit known lines) (hjoins : JoinsWithin count cost)
    (hfiles : 2 ≤ fileCount lines) :
    (count (Text.joined "\n" lines) : Int) ≤ limit + (cost * (lines.length - 1) : Nat) := by
  have hjoined := hjoins lines h.1
  have htally := h.tally_le hfiles
  omega

theorem within_iff_of_joinsAt {cost : Nat} (h : JoinsAt count cost) (hlines : lines ≠ []) :
    Within count limit lines ↔
      (fileCount lines ≠ 1 → ((tally count lines + cost * (lines.length - 1) : Nat) : Int) ≤ limit) := by
  rw [Within, h lines hlines]
  exact or_comm.trans Decidable.or_iff_not_imp_left

/-- A counter by which a text counts at most what its lines count one by one. -/
def JoinsFree (count : Counter) : Prop :=
  ∀ lines, lines ≠ [] → count (Text.joined "\n" lines) ≤ tally count lines

theorem Accounted.within (h : Accounted count limit known lines) (hfree : JoinsFree count)
    (hknown : ∃ group, known group)
    (hheads : ∀ group, known group → (tally count [title, headingLine group] : Int) ≤ limit) :
    Within count limit lines := by
  have hjoined := hfree lines h.1
  rw [Within]
  rcases h.2 with hle | hone | rfl | ⟨group, hgroup, rfl⟩
  · omega
  · exact Or.inr hone
  · obtain ⟨group, hgroup⟩ := hknown
    have hhead := hheads group hgroup
    simp only [tally, List.map_cons, List.map_nil, List.sum_cons, List.sum_nil] at hhead hjoined
    omega
  · have hhead := hheads group hgroup
    omega

end Listing

namespace Map

open Job Listing

variable {r : Request} {w w' : Workspace}

/-- A listing that counts at most the limit, or shows a single file. -/
def WholeFits (r : Request) (paths : List String) : Prop :=
  (r.count (render paths) : Int) ≤ r.effectiveLimit ∨ paths.length = 1

/-- Every part that is written, and the listing if none is, counts at most the limit or shows a single file. -/
def KeepsLimit (r : Request) (out : Outcome) (paths : List String) (sheets : List (List String)) : Prop :=
  (out.parts = [] → WholeFits r paths) ∧ ∀ lines ∈ sheets, Within r.count r.effectiveLimit lines

/-- A listing of which no part is written keeps the limit if it was counted, or fits where it was not. -/
theorem keepsLimit_whole_iff {uncounted : Prop} {paths : List String} (hcounted : ¬uncounted → WholeFits r paths) :
    KeepsLimit r { text := render paths } paths [] ↔ (uncounted → WholeFits r paths) := by
  simp only [KeepsLimit, List.not_mem_nil, IsEmpty.forall_iff, implies_true, and_true, forall_const]
  refine ⟨fun hwhole _ => hwhole, fun hfits => ?_⟩
  by_cases h : uncounted
  · exact hfits h
  · exact hcounted h

/-- Without files there are no tags. -/
theorem exists_mem_of_gather {c c' : Cache} {tags : List Tag} {d : Disk} {paths : List String}
    (h : (gather r c).outcome w = (.ok (tags, c'), w')) (htags : tags ≠ [])
    (hnames : r.files.mapM (relativeName d r.root) = .ok paths) : ∃ path, path ∈ paths := by
  cases hfiles : r.files with
  | nil =>
    obtain ⟨console, hcollect⟩ := gather_eq_ok h
    exact absurd (collect_files_nil hcollect hfiles) htags
  | cons file files =>
    rw [hfiles, mapM_eq_ok] at hnames
    obtain ⟨path, rest, -, -, rfl⟩ := List.forall₂_cons_left_iff.1 hnames
    exact ⟨path, List.mem_cons_self⟩

/-- When a map keeps its limit.  One by one the lines of several files always keep it, so that a part of several files
exceeds it by no more than what the counter adds where lines are joined.  If that is the same number of tokens
everywhere, the limit is kept exactly if there is room for so many of them behind the lines of each part, unless it
shows a single file, and if the map is not left whole beyond the limit because there are no tags or the program is
tested. -/
theorem generate_keepsLimit_iff {c c' : Cache} {out : Outcome}
    (h : (generate r c).outcome w = (.ok (out, c'), w')) :
    ∃ tags w₁ paths sheets, (gather r c).outcome w = (.ok (tags, c'), w₁) ∧
      r.files.mapM (relativeName w.disk r.root) = .ok paths ∧
      (out.parts = [] → out.text = render paths) ∧
      List.Forall₂ (fun file lines => w'.disk.readBytes file = .ok (Text.encode (Text.joined "\n" lines)))
        out.parts sheets ∧
      (∀ lines ∈ sheets, 2 ≤ fileCount lines → (tally r.count lines : Int) ≤ r.effectiveLimit) ∧
      (KeepsLimit r out paths sheets ↔ (w.underTest = true ∨ tags = [] → WholeFits r paths) ∧
        ∀ lines ∈ sheets, Within r.count r.effectiveLimit lines) ∧
      (∀ cost, JoinsWithin r.count cost → ∀ lines ∈ sheets, 2 ≤ fileCount lines →
        (r.count (Text.joined "\n" lines) : Int) ≤ r.effectiveLimit + (cost * (lines.length - 1) : Nat)) ∧
      (∀ cost, JoinsAt r.count cost → (KeepsLimit r out paths sheets ↔
        (w.underTest = true ∨ tags = [] → WholeFits r paths) ∧ ∀ lines ∈ sheets, fileCount lines ≠ 1 →
          ((tally r.count lines + cost * (lines.length - 1) : Nat) : Int) ≤ r.effectiveLimit)) ∧
      (w.underTest = false → tags ≠ [] → JoinsFree r.count →
        (∀ path ∈ paths, (tally r.count [title, headingLine (groupOf path)] : Int) ≤ r.effectiveLimit) →
        KeepsLimit r out paths sheets) := by
  obtain ⟨tags, w₁, paths, hgather, -, hnames, hcases⟩ := generate_eq_ok h
  rcases hcases with ⟨hwhole, rfl, -⟩ | ⟨htest, htags, hlarge, hsplit⟩
  · -- nothing is written, and the listing was counted unless there are no tags
    have hfits : w.underTest = false → tags ≠ [] → WholeFits r paths := by
      intro htest htags
      exact Or.inl ((hwhole.resolve_left (by simp [htest])).resolve_left htags)
    have hkeeps : KeepsLimit r { text := render paths } paths [] ↔
        (w.underTest = true ∨ tags = [] → WholeFits r paths) := by
      refine keepsLimit_whole_iff fun hfree => ?_
      rw [not_or, Bool.not_eq_true] at hfree
      exact hfits hfree.1 hfree.2
    refine ⟨tags, w₁, paths, [], hgather, hnames, fun _ => rfl, .nil, by simp, by simp [hkeeps], by simp,
      by simp [hkeeps], ?_⟩
    · intro htest htags _ _
      exact ⟨fun _ => hfits htest htags, by simp⟩
  · obtain ⟨sheets, hparts, haccounted⟩ := exists_sheets r.count r.effectiveLimit paths
    have hheld := (split_spec hsplit).1
    rw [hparts, List.forall₂_map_right_iff] at hheld
    have hwritten : out.parts ≠ [] := parts_ne_nil_of_split hsplit
    obtain ⟨path, hpath⟩ := exists_mem_of_gather hgather htags hnames
    refine ⟨tags, w₁, paths, sheets, hgather, hnames, fun hnil => absurd hnil hwritten,
      hheld.imp fun _ _ hholds => hholds.readBytes, fun lines hlines => (haccounted lines hlines).tally_le, ?_, ?_, ?_,
      ?_⟩
    · simp [KeepsLimit, hwritten, htest, htags]
    · exact fun cost hjoins lines hlines => (haccounted lines hlines).joined_le hjoins
    · intro cost hjoins
      simp only [KeepsLimit, hwritten, htest, htags, IsEmpty.forall_iff, Bool.false_eq_true, or_self, true_and]
      exact forall₂_congr fun lines hlines => within_iff_of_joinsAt hjoins (haccounted lines hlines).1
    · intro _ _ hfree hheads
      refine ⟨fun hnil => absurd hnil hwritten, fun lines hlines => ?_⟩
      refine (haccounted lines hlines).within hfree ⟨groupOf path, path, hpath, rfl⟩ ?_
      rintro _ ⟨path, hpath, rfl⟩
      exact hheads path hpath

/-- The words of a text. -/
def words (text : String) : Nat := text.toList.count ' ' + 1

/-- The words of a text are those of its lines. -/
theorem joinsFree_words (m : Nat) : JoinsFree fun text => m * words text := by
  intro lines hlines
  induction lines with
  | nil => exact absurd rfl hlines
  | cons line rest ih =>
    by_cases hrest : rest = []
    · simp [hrest, Text.joined, tally]
    · have hcount := ih hrest
      simp only [tally, List.map_cons, List.sum_cons] at hcount ⊢
      rw [Text.joined, String.intercalate_cons_of_ne_nil hrest, ← Text.joined]
      have hwords : words (line ++ "\n" ++ Text.joined "\n" rest) + 1 =
          words line + words (Text.joined "\n" rest) := by
        simp [words]
        omega
      have hmul := congrArg (m * ·) hwords
      simp only [Nat.mul_add] at hmul
      omega

/-- Counted in characters, a line end is added for each line but the first. -/
theorem joinsAt_length (m : Nat) : JoinsAt (fun text => m * text.length) m := by
  intro lines hlines
  induction lines with
  | nil => exact absurd rfl hlines
  | cons line rest ih =>
    by_cases hrest : rest = []
    · simp [hrest, Text.joined, tally]
    · have hcount := ih hrest
      obtain ⟨n, hn⟩ := Nat.exists_eq_succ_of_ne_zero (mt List.length_eq_zero_iff.1 hrest)
      simp only [tally, List.map_cons, List.sum_cons, List.length_cons, hn] at hcount ⊢
      rw [Text.joined, String.intercalate_cons_of_ne_nil hrest, ← Text.joined, String.length_append,
        String.length_append, Nat.mul_add, Nat.mul_add, hcount]
      have hfeed : "\n".length = 1 := rfl
      simp only [hfeed, Nat.succ_eq_add_one, Nat.add_sub_cancel, Nat.mul_add]
      omega

/-- Three files of two extensions, counted by words so that a part has room for one of them. -/
def wordyFiles : Request :=
  { others := ["a.py", "b.py", "c.txt"], count := fun text => 500 * words text }

/-- Two files, counted so that a part has room for both of their lines, but not for the text of both. -/
def twoFiles : Request := { others := ["a.py", "b.py"], count := fun text => 93 * text.length }

/-- Three parts that are counted by words keep the limit.  A part that is counted in characters exceeds it by its line
ends at most. -/
theorem generate_keepsLimit_three_parts :
    (∃ out c w paths sheets, (generate wordyFiles {}).outcome threeFilesWorkspace = (.ok (out, c), w) ∧
      out.parts.length = 3 ∧
      List.Forall₂ (fun file lines => w.disk.readBytes file = .ok (Text.encode (Text.joined "\n" lines)))
        out.parts sheets ∧ KeepsLimit wordyFiles out paths sheets) ∧
    ∃ out c w sheets, (generate twoFiles {}).outcome threeFilesWorkspace = (.ok (out, c), w) ∧ out.parts.length = 1 ∧
      List.Forall₂ (fun file lines => w.disk.readBytes file = .ok (Text.encode (Text.joined "\n" lines)))
        out.parts sheets ∧ ∀ lines ∈ sheets, 2 ≤ fileCount lines →
          (twoFiles.count (Text.joined "\n" lines) : Int) ≤
            twoFiles.effectiveLimit + (93 * (lines.length - 1) : Nat) := by
  constructor
  · have hparts :
        ((generate wordyFiles {}).outcome threeFilesWorkspace).1.toOption.map (·.1.parts.length) = some 3 := by
      decide +kernel
    have htagged :
        ((gather wordyFiles {}).outcome threeFilesWorkspace).1.toOption.map (·.1.isEmpty) = some false := by
      decide +kernel
    have hnamed : (wordyFiles.files.mapM (relativeName threeFilesWorkspace.disk wordyFiles.root)).toOption =
        some ["a.py", "b.py", "c.txt"] := by
      decide +kernel
    obtain ⟨⟨out, c⟩, w, hrun, hthree⟩ := exists_of_toOption hparts
    obtain ⟨tags, w₁, paths, sheets, hgather, hpaths, -, hheld, -, -, -, -, hkeeps⟩ := generate_keepsLimit_iff hrun
    rw [hgather] at htagged
    have htags : tags ≠ [] := List.isEmpty_eq_false_iff.1 (Option.some.inj htagged)
    rw [hpaths] at hnamed
    cases hnamed
    refine ⟨out, c, w, _, sheets, hrun, hthree, hheld, hkeeps rfl htags (joinsFree_words 500) ?_⟩
    decide
  · have hparts :
        ((generate twoFiles {}).outcome threeFilesWorkspace).1.toOption.map (·.1.parts.length) = some 1 := by
      decide +kernel
    obtain ⟨⟨out, c⟩, w, hrun, hone⟩ := exists_of_toOption hparts
    obtain ⟨_, _, _, sheets, -, -, -, hheld, -, -, hexcess, -, -⟩ := generate_keepsLimit_iff hrun
    exact ⟨out, c, w, sheets, hrun, hone, hheld, hexcess 93 (joinsAt_length 93).joinsWithin⟩

/-- Two files without tags. -/
def untaggedFiles : Request := { others := ["b.py", "c.txt"], count := fun text => 100 * text.length }

/-- A part with two files counts more than the limit because of the line ends between its lines, and so does a
listing without tags because it is left whole. -/
theorem generate_exceeds_limit :
    (∃ out c w file text, (generate twoFiles {}).outcome threeFilesWorkspace = (.ok (out, c), w) ∧
      out.parts = [file] ∧ w.disk.readBytes file = .ok (Text.encode text) ∧
      twoFiles.effectiveLimit < twoFiles.count text ∧ (Text.fields '\n' text).countP isFileLine = 2) ∧
    ∃ out c w, (generate untaggedFiles {}).outcome threeFilesWorkspace = (.ok (out, c), w) ∧ out.parts = [] ∧
      untaggedFiles.effectiveLimit < untaggedFiles.count out.text ∧
      (Text.fields '\n' out.text).countP isFileLine = 2 := by
  constructor
  · have hout : ((generate twoFiles {}).outcome threeFilesWorkspace).1.toOption.map (·.1.parts) =
        some ["/tmp/repomap_r_now_part00001.txt"] := by decide +kernel
    have hread : (((generate twoFiles {}).outcome threeFilesWorkspace).2.disk.readBytes
        "/tmp/repomap_r_now_part00001.txt").toOption =
          some (Text.encode "Repository contents:\n\n.py files:\n  a.py\n  b.py") := by decide +kernel
    obtain ⟨⟨out, c⟩, w, hrun, hparts⟩ := exists_of_toOption hout
    rw [hrun] at hread
    exact ⟨out, c, w, _, _, hrun, hparts, eq_ok_of_toOption hread, by decide, by decide⟩
  · have hout : ((generate untaggedFiles {}).outcome threeFilesWorkspace).1.toOption.map (·.1) =
        some { text := "Repository contents:\n\n.py files:\n  b.py\n\n.txt files:\n  c.txt\n" } := by
      decide +kernel
    obtain ⟨⟨out, c⟩, w, hrun, rfl⟩ := exists_of_toOption hout
    exact ⟨_, c, w, hrun, rfl, by decide, by decide⟩

end Map

end CodeAtlas
