import CodeAtlas.CommandLine.MapTool
import CodeAtlas.Proofs.Files.Expand
import CodeAtlas.Proofs.Map.Publish
import Mathlib.Data.List.Nodup

/-!
# Files that a map lists more than once

The lines of files on all parts of a map are those of the files that were found, one for each time that a file was
found.  What one argument of a command line stands for is found once, as far as paths are spelled alike, but
arguments are expanded one by one, and so are the extensions of a directory.  So a file that several of them stand
for is listed several times.

## Main definitions

* `Map.Texts` — the texts of a map, which are its parts if it is split
* `Repository.MadeOf` — the map of which a text shows the first part
* `Listing.Once` — texts that show no line of a file twice

## Main results

* `Repository.map_texts` — the lines of files are those of the files that exist, each as often as it is given
* `Map.listsOnce_iff` — when each file is listed once
-/

namespace CodeAtlas

open Job

namespace Listing

/-- Texts that show no line of a file twice. -/
def Once (texts : List String) : Prop := (texts.flatMap fileLines).Nodup

instance (texts : List String) : Decidable (Once texts) :=
  inferInstanceAs (Decidable (texts.flatMap fileLines).Nodup)

theorem fileLines_parts {paths : List String} (hline : ∀ path ∈ paths, '\n' ∉ path.toList) (count : Counter)
    (limit : Int) : (parts count limit paths).flatMap fileLines = fileLines (render paths) := by
  have hheaded := ((parts_refines count limit paths).headed hline).2
  have hlines := congrArg (List.map Prod.snd) hheaded
  rw [List.map_flatMap, map_snd_headed] at hlines
  simpa only [map_snd_headed] using hlines

theorem fileLines_render_perm {paths : List String} (hline : ∀ path ∈ paths, '\n' ∉ path.toList) :
    (fileLines (render paths)).Perm (paths.map fileLine) := by
  rw [fileLines_render hline]
  exact (groups_perm paths).map fileLine

theorem once_iff {paths texts : List String} (h : (texts.flatMap fileLines).Perm (paths.map fileLine)) :
    Once texts ↔ paths.Nodup :=
  h.nodup_iff.trans (List.nodup_map_iff fileLine_injective)

end Listing

/-- The texts of a map: the text that is shown if no part was written, or else the parts that were written to files, of
which the first one is shown with the number of all. -/
inductive Map.Texts (d : Disk) (out : Map.Outcome) : List String → Prop
  | whole (unwritten : out.parts = []) : Map.Texts d out [out.text]
  | split {parts : List String} (written : out.parts ≠ [])
    (held : List.Forall₂ (fun file part => d.readBytes file = .ok (Text.encode part)) out.parts parts)
    (shown : out.text = parts.headD "" ++ s!"\n\n\nRepository map split into {parts.length} parts") :
    Map.Texts d out parts

namespace Repository

variable {r r' : Repository} {w w' : Workspace} {chat others : List String} {text : String}

/-- The names of those files that exist. -/
def namesOf (root : String) (files : List String) (d : Disk) : Except Error (List String) :=
  (files.filter d.exists?).mapM (Listing.relativeName d root)

/-- A map shows what was made of the files that exist, and tells if the program is tested. -/
def MadeOf (r : Repository) (chat others : List String) (w w' : Workspace) (out : Map.Outcome) (text : String) : Prop :=
  (∃ console c, (Map.generate (r.request (chat.filter w.disk.exists?) (others.filter w.disk.exists?) [] [])
    r.cache).outcome { w with console := console } = (.ok (out, c), w')) ∧
  text = out.text ++ (if w'.underTest then "\ntest_environment: True" else "")

/-- The lines of files are those of the files that exist, each as often as it is given. -/
theorem map_texts (h : (r.map chat others).outcome w = (.ok (text, r'), w')) :
    ∃ out paths texts, r.MadeOf chat others w w' out text ∧ namesOf r.root (chat ++ others) w.disk = .ok paths ∧
      Map.Texts w'.disk out texts ∧ ((∀ path ∈ paths, '\n' ∉ path.toList) →
        (texts.flatMap Listing.fileLines).Perm (paths.map Listing.fileLine)) := by
  obtain ⟨console, out, c, hgenerate, htext, -⟩ := map_eq_ok h
  obtain ⟨tags, w₁, paths, -, -, hnames, hcases⟩ := Map.generate_eq_ok hgenerate
  rw [namesOf, List.filter_append]
  refine ⟨out, paths, ?_⟩
  rcases hcases with ⟨-, rfl, -⟩ | ⟨-, -, -, hsplit⟩
  · refine ⟨_, ⟨⟨console, c, hgenerate⟩, htext⟩, hnames, .whole rfl, fun hline => ?_⟩
    rw [List.flatMap_singleton]
    exact Listing.fileLines_render_perm hline
  · obtain ⟨hheld, hshown⟩ := Map.split_spec hsplit
    refine ⟨_, ⟨⟨console, c, hgenerate⟩, htext⟩, hnames,
      .split (Map.parts_ne_nil_of_split hsplit) (hheld.imp fun _ _ held => held.readBytes) hshown, fun hline => ?_⟩
    rw [Listing.fileLines_parts hline]
    exact Listing.fileLines_render_perm hline

/-- A map of files shows each of them once exactly if their names differ. -/
def OnceIffDistinct (r : Repository) (chat others : List String) (w w' : Workspace) (text : String) : Prop :=
  ∃ out paths texts, r.MadeOf chat others w w' out text ∧ namesOf r.root (chat ++ others) w.disk = .ok paths ∧
    Map.Texts w'.disk out texts ∧
    ((∀ path ∈ paths, '\n' ∉ path.toList) → (Listing.Once texts ↔ paths.Nodup))

theorem map_onceIffDistinct (h : (r.map chat others).outcome w = (.ok (text, r'), w')) :
    r.OnceIffDistinct chat others w w' text := by
  obtain ⟨out, paths, texts, hmade, hnames, htexts, hperm⟩ := map_texts h
  exact ⟨out, paths, texts, hmade, hnames, htexts, fun hline => Listing.once_iff (hperm hline)⟩

end Repository

/-- The paths that an argument stands for are spelled differently. -/
theorem Files.nodup_of_expand {arguments found : List String} {root : Option String} {w w' : Workspace}
    (h : (Files.expand arguments root).outcome w = (.ok found, w')) : found.Nodup := by
  obtain ⟨r, all, -, -, rfl⟩ := Files.expand_eq_ok h
  exact (sortTexts_perm _).nodup_iff.2 (nodup_distinct _)

namespace MapTool

variable {w w' : Workspace} {text : String}

/-- A map that was delivered: printed, or found in the file it was to be written to. -/
def Delivered (output : Option String) (text : String) (w w' : Workspace) : Prop :=
  match output with
  | some path => w'.disk.readBytes path = .ok (Text.encode text)
  | none => w' = { w with console := w.console.print (text ++ "\n") }

theorem delivered_of_deliver {output : Option String} {u : Unit}
    (h : (deliver output text).outcome w = (.ok u, w')) : Delivered output text w w' := by
  cases output with
  | none =>
    cases h
    rfl
  | some path =>
    obtain ⟨_, w₁, hwrite, hprint⟩ := outcome_bind_eq_ok.1 h
    obtain ⟨d, hd, rfl⟩ := Map.outcome_write_eq_ok hwrite
    cases hprint
    exact (Disk.holds_write hd).readBytes

/-- What the tool does with files that it finds. -/
theorem mapFiles_eq_ok {reading : CommandLine.Reading} {arguments : List String}
    (h : (mapFiles reading arguments).outcome w = (.ok 0, w')) :
    ∃ r w₁ found w₂ text r' w₃, (Repository.create (settings reading)).outcome w = (.ok r, w₁) ∧
      (arguments.mapM fun a => Files.expand [a] (some r.root)).outcome w₁ = (.ok found, w₂) ∧
      (r.map found.flatten []).outcome w₂ = (.ok (text, r'), w₃) ∧ Delivered (output? reading) text w₃ w' := by
  obtain ⟨r, w₁, hcreate, h⟩ := outcome_bind_eq_ok.1 h
  obtain ⟨found, w₂, hfound, h⟩ := outcome_bind_eq_ok.1 h
  dsimp only at h
  split at h
  · -- nothing was found
    obtain ⟨_, w₃, -, hpure⟩ := outcome_bind_eq_ok.1 h
    cases hpure
  · obtain ⟨⟨text, r'⟩, w₃, hmap, h⟩ := outcome_bind_eq_ok.1 h
    obtain ⟨_, w₄, hdeliver, hpure⟩ := outcome_bind_eq_ok.1 h
    cases hpure
    exact ⟨r, w₁, found, w₂, text, r', w₃, hcreate, hfound, hmap, delivered_of_deliver hdeliver⟩

/-- What the tool does with a command line for which it makes a map. -/
theorem run_eq_ok {name : String} {argv : List String} {reading : CommandLine.Reading}
    (hread : program.read argv = .ok reading) (h : (run name argv).outcome w = (.ok 0, w')) :
    ∃ w₁, (prelude reading).outcome w = (.ok (), w₁) ∧
      (mapFiles reading (reading.operand "files")).outcome w₁ = (.ok 0, w') := by
  rw [run, hread] at h
  obtain ⟨_, w₁, htold, hmapped⟩ := outcome_bind_eq_ok.1 h
  split at hmapped
  · -- no files are named
    obtain ⟨_, w₂, -, hpure⟩ := outcome_bind_eq_ok.1 hmapped
    cases hpure
  · exact ⟨w₁, htold, hmapped⟩

end MapTool

namespace Map

variable {w w' : Workspace} {p : Publication} {paths files : List String} {text : String}

/-- What is published of some paths. -/
theorem publish_eq_ok (h : (publish p paths).outcome w = (.ok (text, files), w')) :
    ∃ w₁ r w₂ r' w₃, (Job.change (·.makeDirectories p.directory)).outcome w = (.ok (), w₁) ∧
      (Repository.create (p.settings w₁.encoder)).outcome w₁ = (.ok r, w₂) ∧
      (r.map [] paths).outcome w₂ = (.ok (text, r'), w₃) := by
  obtain ⟨w₁, r, w₂, here, r', w₃, hmake, hcreate, -, hmap, -⟩ := exists_of_publish h
  exact ⟨w₁, r, w₂, r', w₃, outcome_makeDirectories_eq_ok.1 hmake, hcreate, hmap⟩

/-- When each file is listed once.  The tool lists a file once for each argument of the command line that stands for
it, and for each way in which an argument spells it.  A directory is listed extension by extension. -/
theorem listsOnce_iff (w w' : Workspace) :
    (∀ {name : String} {argv : List String} {reading : CommandLine.Reading},
      MapTool.program.read argv = .ok reading → (MapTool.run name argv).outcome w = (.ok 0, w') →
      ∃ w₀ r w₁ found w₂ text r' w₃, (MapTool.prelude reading).outcome w = (.ok (), w₀) ∧
        (Repository.create (MapTool.settings reading)).outcome w₀ = (.ok r, w₁) ∧
        ((reading.operand "files").mapM fun a => Files.expand [a] (some r.root)).outcome w₁ = (.ok found, w₂) ∧
        (∀ files ∈ found, files.Nodup) ∧
        (r.map found.flatten []).outcome w₂ = (.ok (text, r'), w₃) ∧
        MapTool.Delivered (MapTool.output? reading) text w₃ w' ∧
        r.OnceIffDistinct found.flatten [] w₂ w₃ text) ∧
    ∀ {p : Publication} {directory : String} {extensions : List Value} {text : String} {files : List String},
      (publishDirectory p directory extensions).outcome w = (.ok (text, files), w') →
      ∃ found w₁ w₂ r w₃ r' w₄, (filesWith directory extensions).outcome w = (.ok found, w₁) ∧
        (Job.change (·.makeDirectories p.directory)).outcome w₁ = (.ok (), w₂) ∧
        (Repository.create (p.settings w₂.encoder)).outcome w₂ = (.ok r, w₃) ∧
        (r.map [] found).outcome w₃ = (.ok (text, r'), w₄) ∧
        r.OnceIffDistinct [] found w₃ w₄ text := by
  constructor
  · intro name argv reading hread hrun
    obtain ⟨w₀, htold, hmapped⟩ := MapTool.run_eq_ok hread hrun
    obtain ⟨r, w₁, found, w₂, text, r', w₃, hcreate, hfound, hmap, hdelivered⟩ := MapTool.mapFiles_eq_ok hmapped
    have honce := Repository.map_onceIffDistinct hmap
    have hnodup : ∀ files ∈ found, files.Nodup := forall_of_mapM (fun _ _ _ _ => Files.nodup_of_expand) hfound
    exact ⟨w₀, r, w₁, found, w₂, text, r', w₃, htold, hcreate, hfound, hnodup, hmap, hdelivered, honce⟩
  · intro p directory extensions text files hrun
    obtain ⟨found, w₁, hfound, hpublish⟩ := outcome_bind_eq_ok.1 hrun
    obtain ⟨w₂, r, w₃, r', w₄, hmake, hcreate, hmap⟩ := publish_eq_ok hpublish
    have honce := Repository.map_onceIffDistinct hmap
    exact ⟨found, w₁, w₂, r, w₃, r', w₄, hfound, hmake, hcreate, hmap, honce⟩

/-- A workspace with two files, neither of which holds text. -/
def twoTexts : Workspace where
  disk :=
    { root := .directory [("r", .directory [("a.txt", .file (.bytes [0]) 0), ("b.txt", .file (.bytes [0]) 0)])]
      here := some ["r"] }

/-- How the tool understands the names of two files. -/
def twoNames : CommandLine.Reading := { operands := [("files", ["a.txt", "b.txt"])] }

/-- Two files that are given once, and the files of one extension, are listed once. -/
theorem listsOnce_two_files :
    (∃ r found w₁ w w' out text texts,
      (MapTool.run "repomap" ["a.txt", "b.txt"]).outcome twoTexts = (.ok 0, w') ∧
      MapTool.Delivered none text w w' ∧ Repository.MadeOf r found [] w₁ w out text ∧ Texts w.disk out texts ∧
      Listing.Once texts) ∧
    ∃ r found w₁ w w' out text files texts,
      (publishDirectory {} "." [.str ".txt"]).outcome twoTexts = (.ok (text, files), w') ∧
      Repository.MadeOf r [] found w₁ w out text ∧ Texts w.disk out texts ∧ Listing.Once texts := by
  have hline : ∀ path ∈ ["a.txt", "b.txt"], '\n' ∉ path.toList := by decide
  constructor
  · have hread : MapTool.program.read ["a.txt", "b.txt"] = .ok twoNames := eq_ok_of_toOption (by decide +kernel)
    have hzero : ((MapTool.run "repomap" ["a.txt", "b.txt"]).outcome twoTexts).1.toOption = some 0 := by
      decide +kernel
    have hnames : ((MapTool.prelude twoNames >>= fun _ => Repository.create (MapTool.settings twoNames) >>= fun r =>
        (twoNames.operand "files").mapM (fun a => Files.expand [a] (some r.root)) >>= fun found =>
        Job.look (Repository.namesOf r.root found.flatten)).outcome twoTexts).1.toOption =
          some ["a.txt", "b.txt"] := by
      decide +kernel
    obtain ⟨w', hrun⟩ := exists_of_toOption_eq hzero
    obtain ⟨w₀, r, w₁, found, w₂, text, r', w, htold, hcreate, hfound, -, -, hdelivered, out, paths, texts, hmade,
      hpaths, htexts, honce⟩ := (listsOnce_iff _ _).1 hread hrun
    rw [List.append_nil] at hpaths
    rw [outcome_bind_of_ok htold, outcome_bind_of_ok hcreate, outcome_bind_of_ok hfound, outcome_look, hpaths] at hnames
    cases Option.some.inj hnames
    exact ⟨r, _, w₂, w, w', out, text, texts, hrun, hdelivered, hmade, htexts, (honce hline).2 (by decide)⟩
  · have hnames : ((filesWith "." [.str ".txt"] >>= fun found =>
        Job.change (·.makeDirectories ({} : Publication).directory) >>= fun _ => get >>= fun w =>
        Repository.create (({} : Publication).settings w.encoder) >>= fun r =>
        Job.look (Repository.namesOf r.root found)).outcome twoTexts).1.toOption = some ["a.txt", "b.txt"] := by
      decide +kernel
    have hdone : ((publishDirectory {} "." [.str ".txt"]).outcome twoTexts).1.toOption.map (·.2) = some [] := by
      decide +kernel
    obtain ⟨⟨text, files⟩, w', hrun, -⟩ := exists_of_toOption hdone
    obtain ⟨found, w₁, w₂, r, w₃, r', w, hfound, hmake, hcreate, -, out, paths, texts, hmade, hpaths, htexts, honce⟩ :=
      (listsOnce_iff _ _).2 hrun
    rw [List.nil_append] at hpaths
    rw [outcome_bind_of_ok hfound, outcome_bind_of_ok hmake, outcome_bind_of_ok (outcome_get w₂),
      outcome_bind_of_ok hcreate, outcome_look, hpaths] at hnames
    cases Option.some.inj hnames
    exact ⟨r, found, w₃, w, w', out, text, files, texts, hrun, hmade, htexts, (honce hline).2 (by decide)⟩

/-- A file that is given twice is listed twice, and so is one that ends in two ways that are asked for. -/
theorem lists_twice :
    (∃ w', (MapTool.run "repomap" ["a.txt", "a.txt"]).outcome twoTexts = (.ok 0, w') ∧
      w'.console.out = "Repository contents:\n\n.txt files:\n  a.txt\n  a.txt\n\n" ∧
      ¬Listing.Once [w'.console.out]) ∧
    ∃ text files w', (publishDirectory {} "." [.str ".txt", .str "txt"]).outcome twoTexts =
      (.ok (text, files), w') ∧ ¬Listing.Once [text] := by
  constructor
  · have hzero : ((MapTool.run "repomap" ["a.txt", "a.txt"]).outcome twoTexts).1.toOption = some 0 := by
      decide +kernel
    have hout : ((MapTool.run "repomap" ["a.txt", "a.txt"]).outcome twoTexts).2.console.out =
        "Repository contents:\n\n.txt files:\n  a.txt\n  a.txt\n\n" := by
      decide +kernel
    obtain ⟨w', hrun⟩ := exists_of_toOption_eq hzero
    rw [hrun] at hout
    refine ⟨w', hrun, hout, ?_⟩
    rw [show w'.console.out = _ from hout]
    decide
  · have htext : ((publishDirectory {} "." [.str ".txt", .str "txt"]).outcome twoTexts).1.toOption.map (·.1) =
        some "Repository contents:\n\n.txt files:\n  a.txt\n  a.txt\n  b.txt\n  b.txt\n" := by
      decide +kernel
    obtain ⟨⟨text, files⟩, w', hrun, hshown⟩ := exists_of_toOption htext
    refine ⟨text, files, w', hrun, ?_⟩
    rw [show text = _ from hshown]
    decide

end Map

end CodeAtlas
