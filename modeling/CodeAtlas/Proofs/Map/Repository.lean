import CodeAtlas.Map.Repository
import CodeAtlas.Proofs.Files.Sources
import CodeAtlas.Proofs.Map.Generate

/-!
# What the map of a repository lists

A map lists those files that are asked for and exist, or the first of them if the listing is split.  The options
that skip files are not among the settings of a repository: they decide how many files it is taken to have, and
nothing else.  So a map omits a file that is skipped only if it is not asked for.

## Main definitions

* `Listing.fileLines` — the lines of files that a text shows
* `Files.Skipped` — a file that options leave out of the source files
* `Repository.OmitsSkipped` — a text does not list the files that are skipped

## Main results

* `Repository.map_eq_ok` — what the map of a repository is made of
* `Repository.create_eq_ok` — what a repository is created from
* `Repository.create_skip_eq` — the options change nothing but what is told
* `Repository.map_omitsSkipped_iff` — when a map omits the files that are skipped
-/

namespace CodeAtlas

open Job

namespace Listing

/-- The lines of files that a text shows. -/
def fileLines (text : String) : List String := (Text.fields '\n' text).filter isFileLine

theorem map_snd_headedFrom (above : Option String) (lines : List String) :
    (headedFrom above lines).map Prod.snd = lines.filter isFileLine := by
  induction lines generalizing above with
  | nil => rfl
  | cons line rest ih =>
    rw [headedFrom, List.filter_cons]
    split
    · rw [List.map_cons, ih]
    · split
      · exact ih _
      · exact ih _

theorem map_snd_headed (text : String) : (headed text).map Prod.snd = fileLines text :=
  map_snd_headedFrom none _

theorem fileLines_append_newline (front back : String) :
    fileLines (front ++ "\n" ++ back) = fileLines front ++ fileLines back := by
  have hsep : "\n" = '\n'.toString := by decide
  rw [fileLines, hsep, Text.fields_append_separator, List.filter_append]
  rfl

/-- A text that goes on with a line that is not that of a file. -/
theorem fileLines_append_line (text : String) {line : String} (hline : '\n' ∉ line.toList)
    (hfile : isFileLine line = false) : fileLines (text ++ "\n" ++ line) = fileLines text := by
  have hnone : fileLines line = [] := by simp [fileLines, Text.fields_of_not_mem hline, hfile]
  rw [fileLines_append_newline, hnone, List.append_nil]

theorem fileLine_injective : Function.Injective fileLine := by
  intro path path' h
  rw [fileLine, fileLine, ← String.toList_inj, String.toList_append, String.toList_append] at h
  exact String.toList_inj.1 (List.append_cancel_left h)

section OneLine

variable {paths : List String} (hline : ∀ path ∈ paths, '\n' ∉ path.toList)

include hline

theorem fileLines_render : fileLines (render paths) = ((groups paths).flatMap Prod.snd).map fileLine := by
  rw [← map_snd_headed, headed_render hline, List.map_map]
  rfl

theorem fileLines_page {page : Page} (hpage : Grouped paths page)
    (hfiles : ∀ group ∈ page, ∀ f ∈ group.2, f ∈ paths) :
    fileLines page.text = (page.flatMap Prod.snd).map fileLine := by
  rw [← map_snd_headed, headed_page hline hpage hfiles, List.map_flatMap, List.map_flatMap]
  refine List.flatMap_congr fun group _ => ?_
  rw [List.map_map]
  rfl

end OneLine

/-- The first part of a listing shows the first of its files. -/
theorem exists_shown (count : Counter) (limit : Int) (paths : List String) :
    ∃ shown, shown <+: (groups paths).flatMap Prod.snd ∧
      ((∀ path ∈ paths, '\n' ∉ path.toList) →
        fileLines ((parts count limit paths).headD "") = shown.map fileLine) := by
  obtain ⟨pages, hparts, hgrouped, hfiles⟩ := exists_pages count limit paths
  cases pages with
  | nil => simp [parts] at hparts
  | cons page pages =>
    have hfirst : page.flatMap Prod.snd <+: (groups paths).flatMap Prod.snd := by
      rw [← hfiles, filesOf, List.flatMap_cons]
      exact List.prefix_append _ _
    refine ⟨page.flatMap Prod.snd, hfirst, fun hline => ?_⟩
    rw [hparts, List.map_cons, List.headD_cons]
    refine fileLines_page hline (hgrouped page List.mem_cons_self) fun group hgroup f hf => ?_
    exact (groups_perm paths).mem_iff.1 (hfirst.subset (List.mem_flatMap.2 ⟨group, hgroup, hf⟩))

end Listing

/-- A file that options leave out of the source files below a directory. -/
def Files.Skipped (d : Disk) (root : String) (options : Skip) (file : String) : Prop :=
  ∃ all kept, sources d root {} = .ok all ∧ sources d root options = .ok kept ∧ file ∈ all ∧ file ∉ kept

namespace Repository

variable {r r' : Repository} {s : Settings} {w w' : Workspace} {chat others mentionedFiles mentionedNames : List String}
  {text : String}

theorem outcome_present (v : Voice) (kind : String) (files : List String) (w : Workspace) :
    ∃ console, (present v kind files).outcome w =
      (.ok (files.filter w.disk.exists?), { w with console := console }) := by
  induction files generalizing w with
  | nil => exact ⟨w.console, rfl⟩
  | cons file files ih =>
    rw [present, outcome_bind_of_ok (outcome_disk w), List.filter_cons]
    split
    · obtain ⟨console, hrest⟩ := ih w
      exact ⟨console, outcome_bind_of_ok hrest _⟩
    · obtain ⟨console, hwarn⟩ := outcome_warn v s!"{kind} file does not exist: {file}" w
      obtain ⟨console', hrest⟩ := ih { w with console := console }
      exact ⟨console', (outcome_bind_of_ok hwarn _).trans hrest⟩

/-- What the map of a repository is made of: the map of those files that exist. -/
theorem map_eq_ok
    (h : (r.map chat others mentionedFiles mentionedNames).outcome w = (.ok (text, r'), w')) :
    ∃ console out c, (Map.generate (r.request (chat.filter w.disk.exists?) (others.filter w.disk.exists?)
        mentionedFiles mentionedNames) r.cache).outcome { w with console := console } = (.ok (out, c), w') ∧
      text = out.text ++ (if w'.underTest then "\ntest_environment: True" else "") ∧
      r' = { r with cache := c } := by
  obtain ⟨console₁, hchat⟩ := outcome_present r.voice "Chat" chat w
  replace h := (outcome_bind_of_ok hchat _).symm.trans h
  obtain ⟨console₂, hothers⟩ := outcome_present r.voice "Other" others { w with console := console₁ }
  replace h := (outcome_bind_of_ok hothers _).symm.trans h
  have htold : ∃ console, (Map.generate (r.request (chat.filter w.disk.exists?) (others.filter w.disk.exists?)
      mentionedFiles mentionedNames) r.cache >>= fun made => do
        let ending := if (← get).underTest then "\ntest_environment: True" else ""
        return (made.1.text ++ ending, { r with cache := made.2 })).outcome
          { w with console := console } = (.ok (text, r'), w') := by
    dsimp only at h
    split at h
    · obtain ⟨console, hsay⟩ := outcome_say r.voice "Map splitting disabled, no token limit"
        { w with console := console₂ }
      exact ⟨console, (outcome_bind_of_ok hsay _).symm.trans h⟩
    · exact ⟨console₂, h⟩
  obtain ⟨console, hmade⟩ := htold
  obtain ⟨⟨out, c⟩, w₁, hgenerate, hended⟩ := outcome_bind_eq_ok.1 hmade
  cases (outcome_bind_of_ok (outcome_get w₁) _).symm.trans hended
  exact ⟨console, out, c, hgenerate, rfl, rfl⟩

/-- Lines behind a text that are not those of files. -/
theorem fileLines_append_ending (text : String) (underTest : Bool) :
    Listing.fileLines (text ++ (if underTest then "\ntest_environment: True" else "")) =
      Listing.fileLines text := by
  cases underTest with
  | false => simp
  | true =>
    have hsplit : text ++ "\ntest_environment: True" = text ++ "\n" ++ "test_environment: True" := by
      rw [String.append_assoc]
      rfl
    simp only [if_true]
    rw [hsplit, Listing.fileLines_append_line text (by decide) (by decide)]

/-- The lines that say how often a listing was split are not those of files. -/
theorem fileLines_append_count (text : String) (count : Nat) :
    Listing.fileLines (text ++ s!"\n\n\nRepository map split into {count} parts") = Listing.fileLines text := by
  have hsplit : text ++ s!"\n\n\nRepository map split into {count} parts" =
      text ++ "\n" ++ "" ++ "\n" ++ "" ++ "\n" ++ s!"Repository map split into {count} parts" := by
    rw [← String.toList_inj]
    simp only [String.toList_append, List.append_assoc]
    rfl
  have hdigits : '\n' ∉ s!"Repository map split into {count} parts".toList := by
    intro h
    simp only [String.toList_append, List.mem_append] at h
    rcases h with (hfront | hdigit) | hback
    · revert hfront
      decide
    · have hnumber : '\n' ∈ Nat.toDigits 10 count := by simpa using hdigit
      exact absurd (Nat.isDigit_of_mem_toDigits (by decide) (by decide) hnumber) (by decide)
    · revert hback
      decide
  have hfile : Listing.isFileLine s!"Repository map split into {count} parts" = false := by
    simp only [Listing.isFileLine, Text.startsWith, String.toList_append]
    rfl
  rw [hsplit, Listing.fileLines_append_line _ hdigits hfile, Listing.fileLines_append_line _ (by decide) (by decide),
    Listing.fileLines_append_line _ (by decide) (by decide)]

theorem tells_tellSkipped (v : Voice) (skip : Files.Skip) : Tells (tellSkipped v skip) := by
  have hsay : ∀ text, Tells (v.say text) := fun text w => outcome_say v text w
  refine .guarded (hsay _) (.guarded (hsay _) ?_)
  split
  · exact hsay _
  · exact tells_pure

theorem keeps_create (s : Settings) : (create s).Keeps Workspace.settings := by
  refine (keeps_look _).bind fun root => (Cache.keeps_create _ _).bind fun cache => (keeps_look _).bind fun limit => ?_
  refine (keeps_say _ _).bind fun _ => Keeps.bind (fun w => ?_) fun _ => keeps_pure _
  obtain ⟨console, htell⟩ := tells_tellSkipped s.voice s.skip w
  rw [htell]
  rfl

theorem outcome_create {root : String} {cache : Cache} {limit : Int} (hroot : rootOf s w.disk = .ok root)
    (hcache : (Cache.create root s.voice).outcome w = (.ok cache, w')) (hlimit : limitOf s root w'.disk = .ok limit) :
    ∃ console, (create s).outcome w =
      (.ok { root, voice := s.voice, unsplit := s.unsplit, count := s.count, limit, cache },
        { w' with console := console }) := by
  obtain ⟨console, hsay⟩ := outcome_say s.voice s!"RepoMap initialized with map_mul_no_files: {tokensPerFile}" w'
  obtain ⟨console', htold⟩ := tells_tellSkipped s.voice s.skip { w' with console := console }
  refine ⟨console', (outcome_bind_of_ok (outcome_look_eq_ok.2 ⟨hroot, rfl⟩) _).trans ?_⟩
  refine (outcome_bind_of_ok hcache _).trans ((outcome_bind_of_ok (outcome_look_eq_ok.2 ⟨hlimit, rfl⟩) _).trans ?_)
  exact (outcome_bind_of_ok hsay _).trans (outcome_bind_of_ok htold _)

/-- What a repository is created from. -/
theorem create_eq_ok (h : (create s).outcome w = (.ok r, w')) :
    ∃ root cache limit w₁ console, rootOf s w.disk = .ok root ∧
      (Cache.create root s.voice).outcome w = (.ok cache, w₁) ∧ limitOf s root w₁.disk = .ok limit ∧
      r = { root, voice := s.voice, unsplit := s.unsplit, count := s.count, limit, cache } ∧
      w' = { w₁ with console := console } := by
  obtain ⟨root, w₀, hlook, hrooted⟩ := outcome_bind_eq_ok.1 h
  obtain ⟨hroot, rfl⟩ := outcome_look_eq_ok.1 hlook
  obtain ⟨cache, w₁, hcache, hcached⟩ := outcome_bind_eq_ok.1 hrooted
  obtain ⟨limit, w₂, hlook, -⟩ := outcome_bind_eq_ok.1 hcached
  have hlimit := (outcome_look_eq_ok.1 hlook).1
  obtain ⟨console, hcreate⟩ := outcome_create hroot hcache hlimit
  cases hcreate.symm.trans h
  exact ⟨root, cache, limit, w₁, console, hroot, hcache, hlimit, rfl, rfl⟩

/-- The options change nothing but what is told, unless the number of files decides on the limit. -/
theorem create_skip_eq (h : (create s).outcome w = (.ok r, w')) (htokens : s.tokens ≠ 0) (options : Files.Skip) :
    ∃ console, (create { s with skip := options }).outcome w = (.ok r, { w' with console := console }) := by
  obtain ⟨root, cache, limit, w₁, console, hroot, hcache, hlimit, rfl, rfl⟩ := create_eq_ok h
  have hlimits : limitOf { s with skip := options } root = limitOf s root := by
    funext d
    simp [limitOf, htokens]
  rw [← hlimits] at hlimit
  obtain ⟨console', hcreate⟩ := outcome_create (s := { s with skip := options }) hroot hcache hlimit
  exact ⟨console', hcreate⟩

/-- What a map lists: the files that exist, or the first of them if they count too much. -/
theorem map_lists (h : (r.map chat others mentionedFiles mentionedNames).outcome w = (.ok (text, r'), w')) :
    ∃ paths shown,
      ((chat ++ others).filter w.disk.exists?).mapM (Listing.relativeName w.disk r.root) = .ok paths ∧
      shown <+: (Listing.groups paths).flatMap Prod.snd ∧
      ((r.count (Listing.render paths) : Int) ≤ (r.request chat others [] []).effectiveLimit →
        shown = (Listing.groups paths).flatMap Prod.snd) ∧
      ((∀ path ∈ paths, '\n' ∉ path.toList) → Listing.fileLines text = shown.map Listing.fileLine) := by
  obtain ⟨console, out, c, hgenerate, rfl, -⟩ := map_eq_ok h
  obtain ⟨tags, w₁, paths, -, -, hnames, hcases⟩ := Map.generate_eq_ok hgenerate
  have hpaths : ((chat ++ others).filter w.disk.exists?).mapM (Listing.relativeName w.disk r.root) = .ok paths := by
    rw [List.filter_append]
    exact hnames
  simp only [fileLines_append_ending]
  rcases hcases with ⟨-, rfl, -⟩ | ⟨-, -, hlarge, hsplit⟩
  · exact ⟨paths, _, hpaths, List.prefix_rfl, fun _ => rfl, Listing.fileLines_render⟩
  · obtain ⟨shown, hshown, hlines⟩ := Listing.exists_shown r.count
      (r.request chat others [] []).effectiveLimit paths
    refine ⟨paths, shown, hpaths, hshown, fun hsmall => absurd hsmall (Int.not_le.2 hlarge), fun hline => ?_⟩
    rw [(Map.split_spec hsplit).2, ← hlines hline]
    exact fileLines_append_count _ _

/-- A text does not list the files that are skipped by options that were asked for. -/
def OmitsSkipped (s : Settings) (d : Disk) (root text : String) : Prop :=
  ∀ options : Files.Skip, options.Among s.skip → ∀ file path, Files.Skipped d root options file →
    Listing.relativeName d root file = .ok path → Listing.fileLine path ∉ Listing.fileLines text

/-- A file is skipped by options that were asked for, as far as its name says. -/
def SkipsFile (s : Settings) (d : Disk) (root file : String) : Prop :=
  ∃ options : Files.Skip, options.Among s.skip ∧ ∃ other path, Files.Skipped d root options other ∧
    Listing.relativeName d root other = .ok path ∧ Listing.relativeName d root file = .ok path

/-- A text that shows names of given files omits the skipped ones exactly if it does not show those that were given. -/
theorem omitsSkipped_iff {d : Disk} {root : String} {files paths shown : List String}
    (hlisted : ∀ path, Listing.fileLine path ∈ Listing.fileLines text ↔ path ∈ shown)
    (hnames : files.mapM (Listing.relativeName d root) = .ok paths) (hshown : ∀ path ∈ shown, path ∈ paths) :
    OmitsSkipped s d root text ↔
      ∀ file ∈ files, SkipsFile s d root file → ∀ path ∈ shown, Listing.relativeName d root file ≠ .ok path := by
  constructor
  · rintro homits file - ⟨options, hoptions, other, path, hskipped, hother, hfile⟩ path' hpath' hfile'
    obtain rfl : path = path' := Except.ok.inj (hfile.symm.trans hfile')
    exact homits options hoptions other path hskipped hother ((hlisted path).2 hpath')
  · intro hgiven options hoptions other path hskipped hother hline
    have hpath := (hlisted path).1 hline
    obtain ⟨file, hmem, hfile⟩ := Listing.exists_of_mem_mapM hnames (hshown path hpath)
    exact hgiven file hmem ⟨options, hoptions, other, path, hskipped, hother, hfile⟩ path hpath hfile

/-- When a map omits the files that are skipped: exactly if no file that was given is both skipped and shown.  If the
map shows all files, that is: exactly if none was given.  The options themselves change nothing. -/
theorem map_omitsSkipped_iff {w₁ : Workspace} (hcreate : (create s).outcome w = (.ok r, w₁))
    (hmap : (r.map chat others mentionedFiles mentionedNames).outcome w₁ = (.ok (text, r'), w')) :
    (s.tokens ≠ 0 → ∀ options, ∃ console,
      (create { s with skip := options }).outcome w = (.ok r, { w₁ with console := console })) ∧
    ∃ paths shown,
      ((chat ++ others).filter w₁.disk.exists?).mapM (Listing.relativeName w.disk r.root) = .ok paths ∧
      shown <+: (Listing.groups paths).flatMap Prod.snd ∧
      ((r.count (Listing.render paths) : Int) ≤ (r.request chat others [] []).effectiveLimit →
        shown = (Listing.groups paths).flatMap Prod.snd) ∧
      ((∀ path ∈ paths, '\n' ∉ path.toList) →
        (OmitsSkipped s w.disk r.root text ↔ ∀ file ∈ (chat ++ others).filter w₁.disk.exists?,
          SkipsFile s w.disk r.root file → ∀ path ∈ shown, Listing.relativeName w.disk r.root file ≠ .ok path) ∧
        ((r.count (Listing.render paths) : Int) ≤ (r.request chat others [] []).effectiveLimit →
          (OmitsSkipped s w.disk r.root text ↔ ∀ file ∈ (chat ++ others).filter w₁.disk.exists?,
            ¬SkipsFile s w.disk r.root file))) := by
  refine ⟨fun htokens options => create_skip_eq hcreate htokens options, ?_⟩
  obtain ⟨paths, shown, hpaths, hshown, hwhole, hlines⟩ := map_lists hmap
  have hhere : w₁.disk.here = w.disk.here := congrArg (·.disk.here) ((keeps_create s).of_outcome hcreate)
  rw [funext (Listing.relativeName_congr hhere r.root)] at hpaths
  refine ⟨paths, shown, hpaths, hshown, hwhole, fun hline => ?_⟩
  have hlisted : ∀ path, Listing.fileLine path ∈ Listing.fileLines text ↔ path ∈ shown := by
    intro path
    rw [hlines hline, List.mem_map_of_injective Listing.fileLine_injective]
  have hperm := Listing.groups_perm paths
  have homits := omitsSkipped_iff (s := s) hlisted hpaths fun path hpath => hperm.mem_iff.1 (hshown.subset hpath)
  refine ⟨homits, fun hsmall => homits.trans (forall₂_congr fun file hfile => imp_congr_right ?_)⟩
  -- all names are shown, so that of a skipped file is
  rintro ⟨-, -, -, path, -, -, hname⟩
  obtain ⟨path', hpath', hname'⟩ := Listing.exists_mem_of_mapM hpaths hfile
  refine iff_of_false (fun hnone => hnone path' ?_ hname') id
  rw [hwhole hsmall]
  exact hperm.mem_iff.2 hpath'

/-- A workspace with a test and another file, neither of which holds text. -/
def testWorkspace : Workspace where
  disk :=
    { root := .directory [("r", .directory [("a.txt", .file (.bytes [0]) 0), ("test_a.py", .file (.bytes [0]) 0)])]
      here := some ["r"] }

/-- Settings by which tests are skipped. -/
def skipTests : Settings := { root := some ".", tokens := 4096, skip := { tests := true } }

/-- The test is the only file that is skipped. -/
theorem eq_of_skipped {options : Files.Skip} {file : String} (hoptions : options.Among skipTests.skip)
    (h : Files.Skipped testWorkspace.disk "." options file) : file = "./test_a.py" := by
  have hall : (Files.sources testWorkspace.disk "." {}).toOption = some ["./a.txt", "./test_a.py"] := by
    decide +kernel
  have hkept : ∀ tests : Bool, ((Files.sources testWorkspace.disk "." { tests := tests }).toOption.map
      (·.contains "./a.txt")) = some true := by
    decide +kernel
  obtain ⟨all, kept, hsources, hsources', hmem, hnot⟩ := h
  have hplain : options = { tests := options.tests } := by
    obtain ⟨-, hdocumentation, hversion⟩ := hoptions
    cases options
    simp_all [skipTests]
  rw [hsources] at hall
  cases Option.some.inj hall
  have hkept' := hkept options.tests
  rw [← hplain, hsources'] at hkept'
  have htext : "./a.txt" ∈ kept := by simpa [Except.toOption] using hkept'
  rcases List.mem_cons.1 hmem with rfl | hrest
  · exact absurd htext hnot
  · exact List.mem_singleton.1 hrest

theorem relativeName_test :
    Listing.relativeName testWorkspace.disk "." "./test_a.py" = .ok "test_a.py" :=
  eq_ok_of_toOption (by decide +kernel)

/-- A file is listed if it is asked for, though tests are skipped. -/
theorem exists_map_skipTests {file : String} (hfile : file ∈ ["a.txt", "test_a.py"]) :
    ∃ r w r' w', (create skipTests).outcome testWorkspace = (.ok r, w) ∧ r.root = "." ∧
      (r.map [file] []).outcome w = (.ok (Listing.render [file], r'), w') := by
  have hruns : ∀ file ∈ ["a.txt", "test_a.py"],
      ((create skipTests >>= fun r => r.map [file] []).outcome testWorkspace).1.toOption.map
        (fun made => (made.2.root, made.1)) = some (".", Listing.render [file]) := by
    decide +kernel
  obtain ⟨⟨text, r'⟩, w', hrun, hmade⟩ := exists_of_toOption (hruns file hfile)
  obtain ⟨hroot, htext⟩ := Prod.mk.inj hmade
  obtain ⟨r, w, hcreate, hmap⟩ := outcome_bind_eq_ok.1 hrun
  obtain ⟨console, out, c, -, -, hr'⟩ := map_eq_ok hmap
  have hsame : r'.root = r.root := by rw [hr']
  dsimp only at htext
  rw [htext] at hmap
  exact ⟨r, w, r', w', hcreate, hsame.symm.trans hroot, hmap⟩

/-- The other file is listed and the test is not if only the other file is asked for. -/
theorem map_omitsSkipped_other :
    ∃ r w r' w', (create skipTests).outcome testWorkspace = (.ok r, w) ∧
      (r.map ["a.txt"] []).outcome w = (.ok (Listing.render ["a.txt"], r'), w') ∧
      OmitsSkipped skipTests testWorkspace.disk r.root (Listing.render ["a.txt"]) := by
  have ha : "a.txt" ∈ ["a.txt", "test_a.py"] := by decide
  obtain ⟨r, w, r', w', hcreate, hroot, hmap⟩ := exists_map_skipTests ha
  refine ⟨r, w, r', w', hcreate, hmap, ?_⟩
  obtain ⟨-, paths, shown, hpaths, -, -, homits⟩ := map_omitsSkipped_iff hcreate hmap
  rw [hroot] at hpaths homits ⊢
  have hname : Listing.relativeName testWorkspace.disk "." "a.txt" = .ok "a.txt" :=
    eq_ok_of_toOption (by decide +kernel)
  have hpath : ∀ path ∈ paths, path = "a.txt" := by
    intro path hmem
    obtain ⟨file, hfile, hrel⟩ := Listing.exists_of_mem_mapM hpaths hmem
    rw [List.mem_singleton.1 (List.mem_filter.1 hfile).1, hname] at hrel
    exact (Except.ok.inj hrel).symm
  have hline : ∀ path ∈ paths, '\n' ∉ path.toList := by
    intro path hmem
    rw [hpath path hmem]
    decide
  -- the test is the only file that is skipped, and has another name
  refine (homits hline).1.2 ?_
  rintro file hfile ⟨options, hoptions, other, path, hskipped, hother, hrel⟩ - - -
  rw [eq_of_skipped hoptions hskipped, relativeName_test] at hother
  rw [List.mem_singleton.1 (List.mem_filter.1 hfile).1, hname, ← Except.ok.inj hother] at hrel
  exact absurd (Except.ok.inj hrel) (by decide)

/-- The test is listed if it is asked for. -/
theorem map_lists_skipped :
    ∃ r w r' w', (create skipTests).outcome testWorkspace = (.ok r, w) ∧
      (r.map ["test_a.py"] []).outcome w = (.ok (Listing.render ["test_a.py"], r'), w') ∧
      Files.Skipped testWorkspace.disk r.root { tests := true } "./test_a.py" ∧
      ¬OmitsSkipped skipTests testWorkspace.disk r.root (Listing.render ["test_a.py"]) := by
  have htest : "test_a.py" ∈ ["a.txt", "test_a.py"] := by decide
  obtain ⟨r, w, r', w', hcreate, hroot, hmap⟩ := exists_map_skipTests htest
  have hskipped : Files.Skipped testWorkspace.disk "." { tests := true } "./test_a.py" :=
    ⟨["./a.txt", "./test_a.py"], ["./a.txt"], eq_ok_of_toOption (by decide +kernel),
      eq_ok_of_toOption (by decide +kernel), by decide, by decide⟩
  rw [← hroot] at hskipped
  refine ⟨r, w, r', w', hcreate, hmap, hskipped, fun homits => ?_⟩
  refine homits { tests := true } ⟨id, id, id⟩ _ "test_a.py" hskipped ?_ (by decide)
  rw [hroot]
  exact relativeName_test

end Repository

end CodeAtlas
