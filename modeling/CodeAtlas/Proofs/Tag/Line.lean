import CodeAtlas.Proofs.Pattern.Plain
import CodeAtlas.Proofs.Tag.Extract

/-!
# Lines that define something

Without a tagger a line is tagged if it begins like the definition of a class, a function or a method.  Here is what
such a beginning is, word by word.
-/

namespace CodeAtlas.Tag

open Pattern

variable {keyword language line : String}

/-- Some blanks. -/
def Gap (gap : List Char) : Prop := 1 ≤ gap.length ∧ ∀ c ∈ gap, Text.isBlank c = true

/-- Some word characters. -/
def Name (name : List Char) : Prop := 1 ≤ name.length ∧ ∀ c ∈ name, Text.isWord c = true

/-- A keyword, a gap and a name at the start of a line. -/
def Introduces (keyword : String) (line : List Char) : Prop :=
  ∃ gap name rest, Gap gap ∧ Name name ∧ line = keyword.toList ++ gap ++ name ++ rest

/-- A gap at the start of a line, followed by a keyword, a gap and a name. -/
def Indented (keyword : String) (line : List Char) : Prop :=
  ∃ indent rest, Gap indent ∧ Introduces keyword rest ∧ line = indent ++ rest

/-- An indented name with parameters and an opening brace. -/
def BracedMethod (line : List Char) : Prop :=
  ∃ indent name before parameters behind rest, Gap indent ∧ Name name ∧ (∀ c ∈ before, Text.isBlank c = true) ∧
    (∀ c ∈ parameters, c ≠ ')') ∧ (∀ c ∈ behind, Text.isBlank c = true) ∧
    line = indent ++ name ++ before ++ '(' :: parameters ++ ')' :: behind ++ '\x7b' :: rest

/-- The lines that define a class, a function or a method in a language. -/
def DefinitionLine (language : String) (line : List Char) : Prop :=
  Introduces "class" line ∨
    if language = "python" then Introduces "def" line ∨ Indented "def" line
    else Introduces "function" line ∨ BracedMethod line

/-- The languages whose definitions are found without a tagger. -/
def definedLanguages : List String := ["python", "javascript", "typescript"]

/-- The kinds of tags that are definitions of classes, functions and methods. -/
def definitionKinds : List String := ["class", "function", "method"]

/-! ### What the patterns find -/

theorem spells_blanks {w : List Char} : blanks.Spells w ↔ ∀ c ∈ w, Text.isBlank c = true :=
  spells_row.trans (and_iff_right (Nat.zero_le _))

theorem spells_blanks1 {w : List Char} : blanks1.Spells w ↔ Gap w := spells_row

theorem spells_namedWord {w : List Char} : namedWord.Spells w ↔ Name w := by
  show (many1 (one Text.isWord)).Spells w ↔ Name w
  exact spells_row

theorem plain_namedWord : namedWord.Plain := .group 1 (.many1 _)

theorem plain_keywordPattern (keyword : String) : (keywordPattern keyword).Plain :=
  .seq (.literal keyword) (.seq (.many1 _) plain_namedWord)

theorem plain_indentedDefinition : indentedDefinition.Plain := .seq (.many1 _) (plain_keywordPattern "def")

theorem plain_indentedMethod : indentedMethod.Plain := by
  apply Plain.concat
  simp only [List.forall_mem_cons, List.not_mem_nil, false_implies, implies_true, and_true]
  exact ⟨.many1 _, plain_namedWord, .many _, .literal _, .many _, .literal _, .many _, .literal _⟩

theorem isSome_nameIn?_iff {p : Pattern} (hp : p.Plain) :
    (nameIn? p line).isSome ↔ ∃ w rest, p.Spells w ∧ line.toList = w ++ rest := by
  rw [nameIn?, Option.isSome_map]
  exact hp.isSome_matchAt_iff

theorem spells_keywordPattern {w : List Char} :
    (keywordPattern keyword).Spells w ↔ ∃ gap name, Gap gap ∧ Name name ∧ w = keyword.toList ++ (gap ++ name) := by
  constructor
  · rintro ⟨u, v, hu, ⟨gap, name, hgap, hname, rfl⟩, rfl⟩
    refine ⟨gap, name, spells_blanks1.1 hgap, spells_namedWord.1 hname, ?_⟩
    rw [spells_literal.1 hu]
  · rintro ⟨gap, name, hgap, hname, rfl⟩
    exact ⟨_, _, spells_literal.2 rfl, ⟨gap, name, spells_blanks1.2 hgap, spells_namedWord.2 hname, rfl⟩, rfl⟩

theorem isSome_nameIn?_keywordPattern :
    (nameIn? (keywordPattern keyword) line).isSome ↔ Introduces keyword line.toList := by
  rw [isSome_nameIn?_iff (plain_keywordPattern keyword)]
  constructor
  · rintro ⟨w, rest, hw, hline⟩
    obtain ⟨gap, name, hgap, hname, rfl⟩ := spells_keywordPattern.1 hw
    exact ⟨gap, name, rest, hgap, hname, by simpa using hline⟩
  · rintro ⟨gap, name, rest, hgap, hname, hline⟩
    exact ⟨_, rest, spells_keywordPattern.2 ⟨gap, name, hgap, hname, rfl⟩, by simpa using hline⟩

theorem isSome_nameIn?_indentedDefinition : (nameIn? indentedDefinition line).isSome ↔ Indented "def" line.toList := by
  rw [isSome_nameIn?_iff plain_indentedDefinition]
  constructor
  · rintro ⟨w, rest, ⟨indent, v, hindent, hv, rfl⟩, hline⟩
    obtain ⟨gap, name, hgap, hname, rfl⟩ := spells_keywordPattern.1 hv
    exact ⟨indent, _, spells_blanks1.1 hindent, ⟨gap, name, rest, hgap, hname, rfl⟩, by simpa using hline⟩
  · rintro ⟨indent, v, hindent, ⟨gap, name, rest, hgap, hname, rfl⟩, hline⟩
    have hv : (keywordPattern "def").Spells ("def".toList ++ (gap ++ name)) :=
      spells_keywordPattern.2 ⟨gap, name, hgap, hname, rfl⟩
    exact ⟨_, rest, ⟨indent, _, spells_blanks1.2 hindent, hv, rfl⟩, by simpa using hline⟩

theorem isSome_nameIn?_indentedMethod : (nameIn? indentedMethod line).isSome ↔ BracedMethod line.toList := by
  have hparameters : ∀ {w : List Char}, (many (one (· != ')'))).Spells w ↔ ∀ c ∈ w, c ≠ ')' := by
    intro w
    simp [many, spells_row]
  rw [isSome_nameIn?_iff plain_indentedMethod]
  constructor
  · rintro ⟨w, rest, ⟨indent, _, hindent,
      ⟨name, _, hname, ⟨before, _, hbefore, ⟨opening, _, hopening, ⟨parameters, _, hinside,
      ⟨closing, _, hclosing, ⟨behind, brace, hbehind, hbrace, rfl⟩, rfl⟩, rfl⟩, rfl⟩, rfl⟩, rfl⟩, rfl⟩, hline⟩
    rw [spells_literal.1 hopening, spells_literal.1 hclosing, spells_literal.1 hbrace] at hline
    exact ⟨indent, name, before, parameters, behind, rest, spells_blanks1.1 hindent, spells_namedWord.1 hname,
      spells_blanks.1 hbefore, hparameters.1 hinside, spells_blanks.1 hbehind, by simpa using hline⟩
  · rintro ⟨indent, name, before, parameters, behind, rest, hindent, hname, hbefore, hinside, hbehind, hline⟩
    refine ⟨_, rest, ⟨indent, _, spells_blanks1.2 hindent,
      ⟨name, _, spells_namedWord.2 hname, ⟨before, _, spells_blanks.2 hbefore,
      ⟨_, _, spells_literal.2 rfl, ⟨parameters, _, hparameters.2 hinside, ⟨_, _, spells_literal.2 rfl, ⟨behind, _,
      spells_blanks.2 hbehind, spells_literal.2 rfl, rfl⟩, rfl⟩, rfl⟩, rfl⟩, rfl⟩, rfl⟩, rfl⟩, by simpa using hline⟩

/-- Some pattern of a language finds a line exactly if it defines something. -/
theorem exists_pattern_iff (hlanguage : language ∈ definedLanguages) :
    (∃ pattern ∈ linePatterns language, pattern.1 ∈ definitionKinds ∧ (nameIn? pattern.2 line).isSome) ↔
      DefinitionLine language line.toList := by
  simp only [definedLanguages, List.mem_cons, List.not_mem_nil, or_false] at hlanguage
  rcases hlanguage with rfl | rfl | rfl
  · rw [DefinitionLine, if_pos rfl, ← isSome_nameIn?_keywordPattern, ← isSome_nameIn?_keywordPattern,
      ← isSome_nameIn?_indentedDefinition]
    simp [linePatterns, definitionKinds]
  all_goals
    rw [DefinitionLine, if_neg (by decide), ← isSome_nameIn?_keywordPattern, ← isSome_nameIn?_keywordPattern,
      ← isSome_nameIn?_indentedMethod]
    simp [linePatterns, definitionKinds]

theorem mem_ofText_iff {patterns : List (String × Pattern)} {relFile file text : String} {t : Tag} :
    t ∈ ofText patterns relFile file text ↔ ∃ (n : Nat) (line : String), (Text.lines text)[n]? = some line ∧
      ∃ pattern ∈ patterns, ∃ name, nameIn? pattern.2 line = some name ∧
        t = ⟨relFile, file, n + 1, name, pattern.1⟩ := by
  simp only [ofText, ofLine, List.mem_flatMap, List.mem_filterMap, Option.map_eq_some_iff, Prod.exists,
    List.mem_zipIdx_iff_le_and_getElem?_sub]
  constructor
  · rintro ⟨line, number, ⟨hpos, hline⟩, kind, p, hp, name, hname, rfl⟩
    obtain ⟨n, rfl⟩ := Nat.exists_eq_add_of_le' hpos
    exact ⟨n, line, hline, kind, p, hp, name, hname, rfl⟩
  · rintro ⟨n, line, hline, kind, p, hp, name, hname, rfl⟩
    exact ⟨line, n + 1, ⟨Nat.le_add_left 1 n, hline⟩, kind, p, hp, name, hname, rfl⟩

/-- A text has a tag for a definition exactly if it has a line that defines something. -/
theorem exists_mem_ofText_iff (hlanguage : language ∈ definedLanguages) {relFile file text : String} :
    (∃ t ∈ ofText (linePatterns language) relFile file text, t.kind ∈ definitionKinds) ↔
      ∃ line ∈ Text.lines text, DefinitionLine language line.toList := by
  constructor
  · rintro ⟨t, ht, hkind⟩
    obtain ⟨n, line, hline, pattern, hpattern, name, hname, rfl⟩ := mem_ofText_iff.1 ht
    exact ⟨line, List.mem_of_getElem? hline,
      (exists_pattern_iff hlanguage).1 ⟨pattern, hpattern, hkind, Option.isSome_of_eq_some hname⟩⟩
  · rintro ⟨line, hline, hdefines⟩
    obtain ⟨pattern, hpattern, hkind, hsome⟩ := (exists_pattern_iff hlanguage).2 hdefines
    obtain ⟨name, hname⟩ := Option.isSome_iff_exists.1 hsome
    obtain ⟨n, hn⟩ := List.mem_iff_getElem?.1 hline
    exact ⟨_, mem_ofText_iff.2 ⟨n, line, hn, pattern, hpattern, name, hname, rfl⟩, hkind⟩

end CodeAtlas.Tag
