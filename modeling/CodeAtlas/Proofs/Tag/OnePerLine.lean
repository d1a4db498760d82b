import CodeAtlas.Proofs.Pattern.Groups
import CodeAtlas.Proofs.Tag.Line

/-!
# One tag for a line

The patterns of a language begin with different characters, so that no line is found by two of them.  Hence the tags
of a text are numbered like the lines that they stand in, and no number occurs twice.
-/

namespace CodeAtlas.Tag

open Pattern

variable {keyword language line file relFile text name : String} {p q : Pattern} {c : Char}

/-! ### Names -/

/-- A plain pattern whose only group is for the name. -/
structure Naming (p : Pattern) : Prop where
  plain : p.Plain
  parts_eq : p.parts = [(1, word)]

theorem naming_keywordPattern (keyword : String) : Naming (keywordPattern keyword) where
  plain := plain_keywordPattern keyword
  parts_eq := by
    rw [keywordPattern, parts_concat, List.flatMap_cons, parts_literal]
    rfl

theorem naming_indentedDefinition : Naming indentedDefinition where
  plain := plain_indentedDefinition
  parts_eq := rfl

theorem naming_indentedMethod : Naming indentedMethod where
  plain := plain_indentedMethod
  parts_eq := rfl

/-- Every pattern of a language has one group, for the name. -/
theorem naming_of_mem (hlanguage : language ∈ definedLanguages) {pattern : String × Pattern}
    (h : pattern ∈ linePatterns language) :
    Naming pattern.2 := by
  have hall : ∀ pattern ∈ linePatterns language, Naming pattern.2 := by
    simp only [definedLanguages, List.mem_cons, List.not_mem_nil, or_false] at hlanguage
    rcases hlanguage with rfl | rfl | rfl
    all_goals
      simp only [linePatterns, List.cons_append, List.nil_append, List.forall_mem_cons, List.not_mem_nil,
        false_implies, implies_true, and_true]
      simp only [naming_keywordPattern, naming_indentedDefinition, naming_indentedMethod, and_self]
  exact hall pattern h

/-- What a pattern finds is a name that stands in the line. -/
theorem name_of_nameIn? (hp : Naming p) (h : nameIn? p line = some name) :
    Name name.toList ∧ name.toList <:+: line.toList := by
  obtain ⟨t, ht, rfl⟩ := Option.map_eq_some_iff.1 h
  obtain ⟨start, found, hgroup, hspells, hpart⟩ := hp.plain.exists_group? hp.parts_eq ht
  rw [Found.group, hgroup, Option.map_some, Option.getD_some, String.toList_ofList]
  exact ⟨spells_namedWord.1 hspells, hpart⟩

/-! ### Patterns that exclude each other -/

/-- No line is found by both patterns. -/
def Exclusive (p q : Pattern) : Prop := ∀ line, ¬((nameIn? p line).isSome ∧ (nameIn? q line).isSome)

/-- The first character of a line that a pattern finds satisfies a test. -/
def Begins (p : Pattern) (test : Option Char → Bool) : Prop :=
  ∀ line, (nameIn? p line).isSome → test line.toList.head? = true

theorem begins_keywordPattern (hkeyword : keyword.toList ≠ []) :
    Begins (keywordPattern keyword) (· == keyword.toList.head?) := by
  intro line hfound
  obtain ⟨gap, name, rest, -, -, hline⟩ := isSome_nameIn?_keywordPattern.1 hfound
  rw [hline, List.append_assoc, List.append_assoc, List.head?_append_of_ne_nil _ hkeyword]
  exact beq_self_eq_true _

theorem head?_of_gap {gap rest : List Char} (h : Gap gap) : (gap ++ rest).head?.any Text.isBlank = true := by
  obtain ⟨c, cs, rfl⟩ := List.exists_cons_of_length_pos h.1
  exact h.2 c List.mem_cons_self

theorem begins_indentedDefinition : Begins indentedDefinition (·.any Text.isBlank) := by
  intro line hfound
  obtain ⟨indent, rest, hindent, -, hline⟩ := isSome_nameIn?_indentedDefinition.1 hfound
  rw [hline]
  exact head?_of_gap hindent

theorem begins_indentedMethod : Begins indentedMethod (·.any Text.isBlank) := by
  intro line hfound
  obtain ⟨indent, name, before, parameters, behind, rest, hindent, -, -, -, -, hline⟩ :=
    isSome_nameIn?_indentedMethod.1 hfound
  rw [hline]
  simp only [List.append_assoc]
  exact head?_of_gap hindent

/-- A pattern that does not begin like a keyword finds no line with it. -/
theorem Begins.exclusive {test : Option Char → Bool} (hq : Begins q test) (keyword : String)
    (hkeyword : keyword.toList ≠ [])
    (htest : test keyword.toList.head? = false) :
    Exclusive (keywordPattern keyword) q ∧ Exclusive q (keywordPattern keyword) := by
  have hnever : ∀ line, (nameIn? (keywordPattern keyword) line).isSome → ¬(nameIn? q line).isSome := by
    intro line hfound hfound'
    have hbegins := hq line hfound'
    rw [beq_iff_eq.1 (begins_keywordPattern hkeyword line hfound), htest] at hbegins
    cases hbegins
  exact ⟨fun line h => hnever line h.1 h.2, fun line h => hnever line h.2 h.1⟩

/-- No line is found by two patterns of a language. -/
theorem pairwise_exclusive (hlanguage : language ∈ definedLanguages) :
    (linePatterns language).Pairwise fun a b => Exclusive a.2 b.2 := by
  have hdef : Begins (keywordPattern "def") _ := begins_keywordPattern (by decide)
  have hfunction : Begins (keywordPattern "function") _ := begins_keywordPattern (by decide)
  have hinterface : Begins (keywordPattern "interface") _ := begins_keywordPattern (by decide)
  have hclass := hfunction.exclusive "class" (by decide) (by decide)
  have hmethod := begins_indentedMethod.exclusive
  simp only [definedLanguages, List.mem_cons, List.not_mem_nil, or_false] at hlanguage
  rcases hlanguage with rfl | rfl | rfl
  all_goals
    simp only [linePatterns, List.cons_append, List.nil_append, List.pairwise_cons, List.forall_mem_cons,
      List.not_mem_nil,
      false_implies, implies_true, and_true, List.Pairwise.nil]
  · exact ⟨⟨(hdef.exclusive "class" (by decide) (by decide)).1,
      (begins_indentedDefinition.exclusive "class" (by decide) (by decide)).1⟩,
      (begins_indentedDefinition.exclusive "def" (by decide) (by decide)).1⟩
  · exact ⟨⟨hclass.1, (hmethod "class" (by decide) (by decide)).1⟩, (hmethod "function" (by decide) (by decide)).1⟩
  · exact ⟨⟨hclass.1, (hmethod "class" (by decide) (by decide)).1,
      (hinterface.exclusive "class" (by decide) (by decide)).1⟩,
      ⟨(hmethod "function" (by decide) (by decide)).1, (hinterface.exclusive "function" (by decide) (by decide)).1⟩,
      (hmethod "interface" (by decide) (by decide)).2⟩

/-! ### The tags of a text -/

/-- The tags of a text stand in ascending lines, one for each line that begins with a text that some pattern spells,
and each has a name from its line. -/
structure OnePerLine (language text : String) (tags : List Tag) : Prop where
  increasing : tags.Pairwise fun a b => a.line < b.line
  bounded : ∀ t ∈ tags, 1 ≤ t.line ∧ t.line ≤ (Text.lines text).length
  found_iff : ∀ (n : Nat) line, (Text.lines text)[n]? = some line →
    ((∃ t ∈ tags, t.line = n + 1) ↔ ∃ pattern ∈ linePatterns language, ∃ w, pattern.2.Spells w ∧ w <+: line.toList)
  named : ∀ t ∈ tags, ∃ (n : Nat) (line : String), t.line = n + 1 ∧ (Text.lines text)[n]? = some line ∧
    t.name ≠ "" ∧ t.name.toList <:+: line.toList

theorem pairwise_line_ofText (hlanguage : language ∈ definedLanguages) :
    (ofText (linePatterns language) relFile file text).Pairwise fun a b => a.line < b.line := by
  have hnumbers : ((Text.lines text).zipIdx 1).Pairwise fun a b => a.2 < b.2 := by
    rw [← List.pairwise_map, List.zipIdx_map_snd]
    exact List.pairwise_lt_range'
  have hline : ∀ {line number t}, t ∈ ofLine (linePatterns language) relFile file line number → t.line = number := by
    intro line number t ht
    obtain ⟨pattern, -, hname⟩ := List.mem_filterMap.1 ht
    obtain ⟨name, -, rfl⟩ := Option.map_eq_some_iff.1 hname
    rfl
  rw [ofText, List.pairwise_flatMap]
  refine ⟨fun numbered _ => ?_, hnumbers.imp fun hlt t ht t' ht' => ?_⟩
  · refine List.pairwise_filterMap.2 ((pairwise_exclusive hlanguage).imp fun hexclusive t ht t' ht' => ?_)
    obtain ⟨name, hname, -⟩ := Option.map_eq_some_iff.1 ht
    obtain ⟨name', hname', -⟩ := Option.map_eq_some_iff.1 ht'
    exact absurd ⟨Option.isSome_of_eq_some hname, Option.isSome_of_eq_some hname'⟩ (hexclusive numbered.1)
  · rw [hline ht, hline ht']
    exact Int.ofNat_lt.2 hlt

theorem ofText_onePerLine (hlanguage : language ∈ definedLanguages) (relFile file text : String) :
    OnePerLine language text (ofText (linePatterns language) relFile file text) where
  increasing := pairwise_line_ofText hlanguage
  bounded t ht := by
    obtain ⟨n, line, hget, pattern, -, name, -, rfl⟩ := mem_ofText_iff.1 ht
    obtain ⟨hn, -⟩ := List.getElem?_eq_some_iff.1 hget
    dsimp only
    omega
  found_iff n line hget := by
    constructor
    · rintro ⟨t, ht, hline⟩
      obtain ⟨m, line', hget', pattern, hpattern, name, hname, rfl⟩ := mem_ofText_iff.1 ht
      obtain rfl : m = n := by dsimp only at hline; omega
      cases hget.symm.trans hget'
      obtain ⟨w, rest, hspells, hrest⟩ :=
        (isSome_nameIn?_iff (naming_of_mem hlanguage hpattern).plain).1 (Option.isSome_of_eq_some hname)
      exact ⟨pattern, hpattern, w, hspells, rest, hrest.symm⟩
    · rintro ⟨pattern, hpattern, w, hspells, rest, hrest⟩
      obtain ⟨name, hname⟩ := Option.isSome_iff_exists.1
        ((isSome_nameIn?_iff (naming_of_mem hlanguage hpattern).plain).2 ⟨w, rest, hspells, hrest.symm⟩)
      exact ⟨_, mem_ofText_iff.2 ⟨n, line, hget, pattern, hpattern, name, hname, rfl⟩, rfl⟩
  named t ht := by
    obtain ⟨n, line, hget, pattern, hpattern, name, hname, rfl⟩ := mem_ofText_iff.1 ht
    obtain ⟨⟨hpos, -⟩, hpart⟩ := name_of_nameIn? (naming_of_mem hlanguage hpattern) hname
    refine ⟨n, line, rfl, hget, ?_, hpart⟩
    rintro rfl
    cases hpos

variable {w : Workspace} {bytes : List UInt8}

/-- Without a tagger, what is extracted from a file in one of the languages has one tag for each line that is found. -/
theorem extract_onePerLine (v : Voice) (relFile : String) (htagger : w.tagger = none)
    (hbytes : w.disk.readBytes file = .ok bytes)
    (hlanguage : Files.taggedLanguage? file = some language) (hdefined : language ∈ definedLanguages) :
    ∃ tags console, (extract v file relFile).outcome w = (.ok tags, { w with console := console }) ∧
      OnePerLine language (Text.foldNewlines (Text.decodeLossy bytes)) tags := by
  obtain ⟨console, houtcome⟩ := outcome_extract htagger (Disk.isFile_of_readBytes hbytes) hbytes v relFile
  refine ⟨_, console, houtcome, ?_⟩
  rw [inBytes, hlanguage]
  exact ofText_onePerLine hdefined relFile file _

/-- A workspace with a script in the current directory. -/
def oneScript (bytes : List UInt8) : Workspace where
  disk := { root := .directory [("a.py", .file (.bytes bytes) 0)], here := some [] }

theorem extract_onePerLine_method :
    ∃ tags console, (extract {} "a.py" "a.py").outcome
      (oneScript (Text.encode "class A:\n  def f(self):\n    return 1\n")) =
        (.ok tags, { oneScript (Text.encode "class A:\n  def f(self):\n    return 1\n") with console := console }) ∧
      OnePerLine "python" (Text.foldNewlines
        (Text.decodeLossy (Text.encode "class A:\n  def f(self):\n    return 1\n"))) tags :=
  extract_onePerLine {} "a.py" rfl rfl (by decide) (by decide)

end CodeAtlas.Tag
