import CodeAtlas.Proofs.Disk.Change
import CodeAtlas.Proofs.Job
import CodeAtlas.Tag.Extract

/-!
# What is extracted from a file

What is extracted from a file is what a tagger reports for it.  Without a tagger it is known from the name of the file
and its bytes.
-/

namespace CodeAtlas.Tag

open Job

/-- A tag without the path of its file. -/
def mark (t : Tag) : String × Int × String × String := (t.relFile, t.line, t.name, t.kind)

/-- The tags of a file with given bytes. -/
def inBytes (file relFile : String) (bytes : List UInt8) : List Tag :=
  match Files.taggedLanguage? file with
  | none => []
  | some language => ofText (linePatterns language) relFile file (Text.foldNewlines (Text.decodeLossy bytes))

theorem map_mark_ofText (patterns : List (String × Pattern)) (relFile file file' text : String) :
    (ofText patterns relFile file text).map mark = (ofText patterns relFile file' text).map mark := by
  rw [ofText, ofText, List.map_flatMap, List.map_flatMap]
  refine List.flatMap_congr fun (line, number) _ => ?_
  simp only [ofLine, List.map_filterMap, Option.map_map]
  rfl

/-- The marks of a file depend on the last component of its path only. -/
theorem map_mark_inBytes {file file' : String} (h : Path.baseName file = Path.baseName file')
    (relFile : String) (bytes : List UInt8) :
    (inBytes file relFile bytes).map mark = (inBytes file' relFile bytes).map mark := by
  have hlanguage : Files.taggedLanguage? file = Files.taggedLanguage? file' := by
    rw [Files.taggedLanguage?, Files.taggedLanguage?, Path.extension_congr h]
  rw [inBytes, inBytes, hlanguage]
  split
  · rfl
  · exact map_mark_ofText _ _ _ _ _

variable {w : Workspace} {file relFile : String} {bytes : List UInt8}

/-- The tags that a tagger reports for a file in a language. -/
def reported (w : Workspace) (t : Tagger) (language relFile file : String) : List Tag :=
  ((Queries.find? w.disk w.program language "tags").bind fun query =>
    (w.disk.readText query >>= fun _ => ofTagger t relFile file).toOption).getD []

/-- The tags of a file in a language, if it is in one. -/
def inLanguage (w : Workspace) (file relFile : String) : Option String → List Tag
  | none => []
  | some language =>
    match w.tagger with
    | some t => reported w t language relFile file
    | none => ((w.disk.readLossy file).toOption.map (ofText (linePatterns language) relFile file)).getD []

/-- The tags that are extracted from a file. -/
def extracted (w : Workspace) (file relFile : String) : List Tag :=
  if w.disk.isFile file then inLanguage w file relFile (Files.taggedLanguage? file) else []

theorem inLanguage_of_tagger {t : Tagger} (h : w.tagger = some t) (language : String) :
    inLanguage w file relFile (some language) = reported w t language relFile file := by
  simp only [inLanguage, h]

theorem inLanguage_of_no_tagger (h : w.tagger = none) (language : String) :
    inLanguage w file relFile (some language) =
      ((w.disk.readLossy file).toOption.map (ofText (linePatterns language) relFile file)).getD [] := by
  simp only [inLanguage, h]

theorem outcome_askTagger (v : Voice) (t : Tagger) (language relFile file : String) (w : Workspace) :
    ∃ console, (askTagger v t language relFile file).outcome w =
      (.ok (reported w t language relFile file), { w with console := console }) := by
  rw [askTagger, outcome_bind_of_ok (outcome_get w), reported]
  cases Queries.find? w.disk w.program language "tags" with
  | none =>
    obtain ⟨console, hwarn⟩ := outcome_warn v s!"No tree-sitter queries found for language: {language}" w
    exact ⟨console, outcome_bind_of_ok hwarn _⟩
  | some query =>
    simp only [Option.bind_some]
    cases hreport : w.disk.readText query >>= fun _ => ofTagger t relFile file with
    | ok tags => exact ⟨w.console, rfl⟩
    | error e =>
      obtain ⟨console, hwarn⟩ := outcome_warn v s!"Error parsing {file}: {e.message}" w
      exact ⟨console, outcome_bind_of_ok hwarn _⟩

/-- Nothing is extracted where there is no file. -/
theorem outcome_extract_of_not_file (hfile : w.disk.isFile file = false) (v : Voice) (relFile : String) :
    ∃ console, (extract v file relFile).outcome w = (.ok [], { w with console := console }) := by
  rw [extract, outcome_bind_of_ok (outcome_get w), hfile]
  obtain ⟨console, hwarn⟩ := outcome_warn v s!"File not found: {file}" w
  exact ⟨console, outcome_bind_of_ok hwarn _⟩

/-- Extracting tags gives some, and tells something. -/
theorem outcome_extracted (v : Voice) (file relFile : String) (w : Workspace) :
    ∃ console, (extract v file relFile).outcome w =
      (.ok (extracted w file relFile), { w with console := console }) := by
  cases hfile : w.disk.isFile file with
  | false =>
    rw [extracted, hfile]
    exact outcome_extract_of_not_file hfile v relFile
  | true =>
    rw [extract, outcome_bind_of_ok (outcome_get w), extracted, hfile]
    cases hlanguage : Files.taggedLanguage? file with
    | none =>
      obtain ⟨console, hwarn⟩ := outcome_warn v s!"Unknown language for file: {file}" w
      exact ⟨console, outcome_bind_of_ok hwarn _⟩
    | some language =>
      cases htagger : w.tagger with
      | some t =>
        have hasked := outcome_askTagger v t language relFile file w
        rw [htagger] at hasked
        rw [inLanguage_of_tagger htagger]
        exact hasked
      | none =>
        rw [inLanguage_of_no_tagger htagger]
        obtain ⟨console, hwarn⟩ := outcome_warn v "grep_ast not available, using regex fallback" w
        rw [htagger] at hwarn
        cases htext : w.disk.readLossy file with
        | ok text => exact ⟨console, outcome_bind_of_ok hwarn _⟩
        | error e =>
          obtain ⟨console', hwarn'⟩ := outcome_warn v s!"Error parsing {file} with regex: {e.message}"
            { w with console := console }
          rw [htagger] at hwarn'
          exact ⟨console', (outcome_bind_of_ok hwarn _).trans (outcome_bind_of_ok hwarn' _)⟩

theorem extracted_of_bytes (htagger : w.tagger = none) (hfile : w.disk.isFile file = true)
    (hbytes : w.disk.readBytes file = .ok bytes) (relFile : String) :
    extracted w file relFile = inBytes file relFile bytes := by
  have htext : w.disk.readLossy file = .ok (Text.foldNewlines (Text.decodeLossy bytes)) := by
    rw [Disk.readLossy, hbytes]
    rfl
  rw [extracted, if_pos hfile, inBytes]
  cases Files.taggedLanguage? file with
  | none => rfl
  | some language =>
    rw [inLanguage_of_no_tagger htagger, htext]
    simp only [Except.toOption, Option.map_some, Option.getD_some]

/-- What is extracted from a file without a tagger. -/
theorem outcome_extract (htagger : w.tagger = none) (hfile : w.disk.isFile file = true)
    (hbytes : w.disk.readBytes file = .ok bytes) (v : Voice) (relFile : String) :
    ∃ console, (extract v file relFile).outcome w =
      (.ok (inBytes file relFile bytes), { w with console := console }) := by
  rw [← extracted_of_bytes htagger hfile hbytes relFile]
  exact outcome_extracted v file relFile w

theorem keeps_extract (v : Voice) (file relFile : String) :
    (extract v file relFile).Keeps Workspace.settings := by
  intro w
  obtain ⟨console, h⟩ := outcome_extracted v file relFile w
  rw [h]
  rfl

end CodeAtlas.Tag
