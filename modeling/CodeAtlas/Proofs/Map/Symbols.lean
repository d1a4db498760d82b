import CodeAtlas.Map.Publish
import CodeAtlas.Proofs.Map.Repository
import CodeAtlas.Proofs.Tag.Line
import CodeAtlas.Proofs.Text.Utf8

/-!
# The symbols of a file

The symbols of a file are its tags of one kind.  Without a tagger no tag is of this kind, so that a file has no symbols
whatever it defines.
-/

namespace CodeAtlas.Symbols

open Job

variable {w w' : Workspace} {file language text : String} {verbose : Bool} {symbols : List (String × Symbol)} {t : Tag}

/-- Every class, function and method that is extracted from a file is among its symbols. -/
def Covers (w : Workspace) (file : String) (verbose : Bool) : Prop :=
  ∀ v relFile tags w₁, (Tag.extract v file relFile).outcome w = (.ok tags, w₁) →
    ∀ t ∈ tags, t.kind ∈ Tag.definitionKinds →
      ∃ symbols w', (ofFile file verbose).outcome w = (.ok symbols, w') ∧ ∃ symbol, (key t, symbol) ∈ symbols

/-! ### Tags without a tagger are no symbols -/

theorem fst_ne_definition {pattern : String × Pattern} (h : pattern ∈ Tag.linePatterns language) :
    pattern.1 ≠ definition := by
  have hkinds : ∀ language, (Tag.linePatterns language).all (·.1 != definition) = true := by
    intro language
    unfold Tag.linePatterns
    split <;> rfl
  simpa using List.all_eq_true.1 (hkinds language) pattern h

theorem kind_ne_definition (htagger : w.tagger = none) {relFile : String} (ht : t ∈ Tag.extracted w file relFile) :
    t.kind ≠ definition := by
  rw [Tag.extracted] at ht
  split at ht
  · cases hlanguage : Files.taggedLanguage? file with
    | none =>
      rw [hlanguage] at ht
      cases ht
    | some language =>
      rw [hlanguage, Tag.inLanguage_of_no_tagger htagger] at ht
      cases htext : w.disk.readLossy file with
      | error e =>
        rw [htext] at ht
        cases ht
      | ok text =>
        rw [htext] at ht
        obtain ⟨n, line, -, pattern, hp, name, -, rfl⟩ := Tag.mem_ofText_iff.1 ht
        exact fst_ne_definition hp
  · cases ht

theorem ofTags_eq_nil {tags : List Tag} (h : ∀ t ∈ tags, t.kind ≠ definition) : ofTags tags = [] := by
  have hkept : tags.filter (·.kind == definition) = [] := by
    rw [List.filter_eq_nil_iff]
    intro t ht
    simpa using h t ht
  rw [ofTags, hkept]
  rfl

theorem standIn_of_create {s : Settings} {r : Repository} (h : (Repository.create s).outcome w = (.ok r, w')) :
    r.standIn = none := by
  obtain ⟨root, w₁, -, h⟩ := outcome_bind_eq_ok.1 h
  obtain ⟨cache, w₂, -, h⟩ := outcome_bind_eq_ok.1 h
  obtain ⟨limit, w₃, -, h⟩ := outcome_bind_eq_ok.1 h
  obtain ⟨_, w₄, -, h⟩ := outcome_bind_eq_ok.1 h
  obtain ⟨_, w₅, -, h⟩ := outcome_bind_eq_ok.1 h
  cases h
  rfl

/-- Without a tagger there are no symbols. -/
theorem eq_nil_of_ofFile (htagger : w.tagger = none) (h : (ofFile file verbose).outcome w = (.ok symbols, w')) :
    symbols = [] := by
  rw [ofFile, outcome_bind_of_ok (outcome_get w)] at h
  obtain ⟨r, w₁, hcreate, h⟩ := outcome_bind_eq_ok.1 h
  obtain ⟨tags, w₂, htags, h⟩ := outcome_bind_eq_ok.1 h
  have hsettings := (Repository.keeps_create _).of_outcome hcreate
  have htagger' : w₁.tagger = none := (congrArg Workspace.tagger hsettings).trans htagger
  rw [Repository.tags, standIn_of_create hcreate] at htags
  obtain ⟨console, hextract⟩ := Tag.outcome_extracted r.voice file (Path.baseName file) w₁
  cases hextract.symm.trans htags
  cases h
  exact ofTags_eq_nil fun t ht => kind_ne_definition htagger' ht

/-! ### Files with definitions -/

theorem extracted_of_text (htagger : w.tagger = none) (htext : w.disk.readLossy file = .ok text)
    (hlanguage : Files.taggedLanguage? file = some language) (relFile : String) :
    Tag.extracted w file relFile = Tag.ofText (Tag.linePatterns language) relFile file text := by
  have hfile : w.disk.isFile file = true := by
    cases hbytes : w.disk.readBytes file with
    | error e =>
      rw [Disk.readLossy, hbytes] at htext
      cases htext
    | ok bytes => exact Disk.isFile_of_readBytes hbytes
  rw [Tag.extracted, if_pos hfile, hlanguage, Tag.inLanguage_of_no_tagger htagger, htext]
  rfl

/-- Without a tagger the symbols of a file are none, so that they cover it exactly if no line defines anything. -/
theorem covers_iff_no_definition (file : String) (verbose : Bool) (htagger : w.tagger = none)
    (htext : w.disk.readLossy file = .ok text)
    (hlanguage : Files.taggedLanguage? file = some language) (hdefined : language ∈ Tag.definedLanguages) :
    (∀ symbols w', (ofFile file verbose).outcome w = (.ok symbols, w') → symbols = []) ∧
      (Covers w file verbose ↔ ∀ line ∈ Text.lines text, ¬Tag.DefinitionLine language line.toList) := by
  have hnil : ∀ symbols w', (ofFile file verbose).outcome w = (.ok symbols, w') → symbols = [] :=
    fun _ _ => eq_nil_of_ofFile htagger
  have hextracted : ∀ relFile, (∃ t ∈ Tag.extracted w file relFile, t.kind ∈ Tag.definitionKinds) ↔
      ∃ line ∈ Text.lines text, Tag.DefinitionLine language line.toList := by
    intro relFile
    rw [extracted_of_text htagger htext hlanguage]
    exact Tag.exists_mem_ofText_iff hdefined
  refine ⟨hnil, fun hcovers line hline hdefines => ?_, fun hnone v relFile tags w₁ hextract t ht hkind => ?_⟩
  · obtain ⟨t, ht, hkind⟩ := (hextracted file).2 ⟨line, hline, hdefines⟩
    obtain ⟨console, hextract⟩ := Tag.outcome_extracted {} file file w
    obtain ⟨symbols, w', hsymbols, symbol, hmem⟩ := hcovers {} file _ _ hextract t ht hkind
    rw [hnil symbols w' hsymbols] at hmem
    cases hmem
  · obtain ⟨console, hextract'⟩ := Tag.outcome_extracted v file relFile w
    cases hextract'.symm.trans hextract
    obtain ⟨line, hline, hdefines⟩ := (hextracted relFile).1 ⟨t, ht, hkind⟩
    exact (hnone line hline hdefines).elim

/-- A workspace with one file in the current directory. -/
def oneFile (name text : String) : Workspace where
  disk := { root := .directory [(name, .file (.bytes (Text.encode text)) 0)], here := some [] }

theorem readLossy_oneFile (text : String) :
    (oneFile "a.py" text).disk.readLossy "a.py" = .ok (Text.foldNewlines text) := by
  show Except.ok (Text.foldNewlines (Text.decodeLossy (Text.encode text))) = _
  rw [Text.decodeLossy_encode]

theorem taggedLanguage?_script : Files.taggedLanguage? "a.py" = some "python" := by decide

/-- The symbols cover a comment, but not a function. -/
theorem covers_comment_not_function :
    Covers (oneFile "a.py" "# class A\n") "a.py" true ∧
      (∀ symbols w', (ofFile "a.py" true).outcome (oneFile "a.py" "def f():\n") = (.ok symbols, w') → symbols = []) ∧
      ¬Covers (oneFile "a.py" "def f():\n") "a.py" true := by
  have hscript : "python" ∈ Tag.definedLanguages := by decide
  have hfunction := covers_iff_no_definition "a.py" true (w := oneFile "a.py" "def f():\n") rfl (readLossy_oneFile _)
    taggedLanguage?_script hscript
  refine ⟨(covers_iff_no_definition "a.py" true rfl (readLossy_oneFile _) taggedLanguage?_script hscript).2.2 ?_,
    hfunction.1, fun hcovers => hfunction.2.1 hcovers "def f():" (by decide) ?_⟩
  · intro line hline hdefines
    have hlines : Text.lines (Text.foldNewlines "# class A\n") = ["# class A"] := by decide
    rw [hlines, List.mem_singleton] at hline
    subst hline
    have hnone : (Tag.linePatterns "python").any (fun pattern => (Tag.nameIn? pattern.2 "# class A").isSome) =
        false := by
      decide
    obtain ⟨pattern, hpattern, -, hsome⟩ := (Tag.exists_pattern_iff hscript).2 hdefines
    exact List.any_eq_false.1 hnone pattern hpattern hsome
  · rw [← Tag.exists_pattern_iff hscript]
    decide

/-- A class that is extracted is no symbol. -/
theorem not_covers_class :
    (∃ w', (ofFile "a.py" false).outcome (oneFile "a.py" "class A:\n    pass\n") = (.ok [], w')) ∧
      ¬Covers (oneFile "a.py" "class A:\n    pass\n") "a.py" false := by
  refine ⟨exists_of_toOption_eq (by decide +kernel), fun hcovers => ?_⟩
  obtain ⟨console, hextract⟩ := Tag.outcome_extracted {} "a.py" "a.py" (oneFile "a.py" "class A:\n    pass\n")
  rw [extracted_of_text rfl (readLossy_oneFile _) taggedLanguage?_script] at hextract
  have hclass : ⟨"a.py", "a.py", 1, "A", "class"⟩ ∈
      Tag.ofText (Tag.linePatterns "python") "a.py" "a.py" (Text.foldNewlines "class A:\n    pass\n") := by
    decide
  obtain ⟨symbols, w', hsymbols, symbol, hmem⟩ := hcovers _ _ _ _ hextract _ hclass (by decide)
  rw [eq_nil_of_ofFile rfl hsymbols] at hmem
  cases hmem

end CodeAtlas.Symbols
