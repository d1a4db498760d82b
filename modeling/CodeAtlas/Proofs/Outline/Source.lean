import CodeAtlas.Outline.Report
import CodeAtlas.Proofs.Disk.Change
import CodeAtlas.Proofs.Grammar.Definitions
import CodeAtlas.Proofs.Outline.Search

/-!
# The source of a definition

The lines of a definition are numbered as physical lines, but its code is cut out of rows.  So the code that is reported
is the source of the definition if no physical line up to its last one has a line end inside.  If the first one that has
is a line of the definition, then the code is another text.  If it is a line before the definition, then the code is
taken from an earlier place.

## Main definitions

* `Request.ForCode` — a request for the code of elements as it stands
* `Finding.TellsOf` — a finding about a definition

## Main results

* `Extent.around_eq` — the rows from one number to another
* `code_own_iff` — when the code that is reported is the source of the definition
-/

namespace CodeAtlas

open Grammar (Node)

/-! ### Rows from one number to another -/

theorem clampIndex_natCast (length n : Nat) : clampIndex length n = min n length := by
  rw [clampIndex, if_neg (by omega), Int.toNat_natCast]

theorem slice_natCast {α : Type} (xs : List α) (start stop : Nat) :
    slice xs start stop = (xs.take stop).drop start := by
  rw [slice, clampIndex_natCast, clampIndex_natCast, List.drop_take]
  by_cases hstart : start ≤ xs.length
  · rw [Nat.min_eq_left hstart, List.take_eq_take_iff, List.length_drop]
    omega
  · rw [List.drop_eq_nil_of_le (by omega), List.drop_eq_nil_of_le (by omega), List.take_nil, List.take_nil]

theorem Extent.around_natCast {first : Nat} (hfirst : 1 ≤ first) (last : Nat) (rows : List String) :
    Extent.around first last rows 0 = ⟨first, (min last rows.length : Nat), (rows.take last).drop (first - 1)⟩ := by
  have hstart : max 0 (max 0 ((first : Int) - 1) - 0) = ((first - 1 : Nat) : Int) := by omega
  have hstop : min (rows.length : Int) ((last : Int) + 0) = ((min last rows.length : Nat) : Int) := by omega
  have hnumber : ((first - 1 : Nat) : Int) + 1 = first := by omega
  rw [Extent.around, hstart, hstop, hnumber, slice_natCast, ← List.take_eq_take_min]

theorem Extent.around_eq {first last : Nat} {rows : List String} (hfirst : 1 ≤ first) (hlast : last ≤ rows.length) :
    Extent.around first last rows 0 = ⟨first, last, slice rows ((first - 1 : Nat) : Int) last⟩ := by
  rw [around_natCast hfirst, Nat.min_eq_left hlast, slice_natCast]

/-- Rows behind the first ones make up more of the first ones. -/
theorem Text.firstRows_append_slice {text : String} {first last : Nat} (hfirst : 1 ≤ first) (hle : first ≤ last) :
    firstRows text (first - 1) ++ String.join (slice (linesKeep (foldNewlines text)) ((first : Int) - 1) last) =
      firstRows text last := by
  have hstart : (first : Int) - 1 = ((first - 1 : Nat) : Int) := by omega
  have hfront : ((linesKeep (foldNewlines text)).take last).take (first - 1) =
      (linesKeep (foldNewlines text)).take (first - 1) := by rw [List.take_take, Nat.min_eq_left (by omega)]
  rw [hstart, slice_natCast, firstRows, firstRows, ← hfront, ← String.join_append,
    List.take_append_drop]

/-! ### Files of text -/

theorem Disk.readText_of_decode {disk : Disk} {path text : String} {bytes : List UInt8}
    (hbytes : disk.readBytes path = .ok bytes) (htext : Text.decode bytes = .ok text) :
    disk.readText path = .ok (Text.foldNewlines text) := by
  rw [readText, hbytes]
  simp [bind, Except.bind, htext]

theorem Grammar.parse?_foldNewlines (d : Dialect) (text : String) :
    parse? d (Text.foldNewlines text) = parse? d text := by
  have hfold : Text.foldNewlineChars (Text.foldNewlines text).toList = Text.foldNewlineChars text.toList := by
    rw [Text.foldNewlines, String.toList_ofList, Text.foldNewlineChars_of_not_mem (Text.not_mem_foldNewlineChars _)]
  rw [parse?, parse?, hfold]

namespace Element

variable {p : NamePattern} {includeOthers : Bool}

/-- Every definition that matches is found, with its lines from the first decorator on. -/
theorem exists_find_definition {version : Version} {d : Grammar.Dialect} {source name : String} {nodes : List Node}
    (hversion : version.dialect = .ok d) (hparse : Grammar.parse? d source = some nodes) {span : Grammar.Span}
    {kind : Grammar.DefinitionKind} {decorators : List Grammar.Expr} {body : List Node}
    (hn : Node.Within nodes (.definition span kind name decorators body)) (hname : p.accepts name = .ok true) :
    ∃ found, find source p includeOthers version = .ok found ∧ ∃ e ∈ found, e.name = name ∧
      e.kind = .definition kind span.first ∧ e.span = ⟨firstLine span decorators, span.last⟩ := by
  have hgiven : given p.matchesName includeOthers (.definition span kind name decorators body) =
      some ⟨name, .definition kind span.first, ⟨firstLine span decorators, span.last⟩, none⟩ :=
    if_pos (NamePattern.matchesName_of_accepts hname)
  refine ⟨countDuplicates [] ((Node.walk nodes).filterMap (given p.matchesName includeOthers)), ?_, ?_⟩
  · rw [find_of_parse hversion, hparse]
    exact inNodes_eq (NamePattern.valid_of_accepts hname) nodes
  · rw [exists_mem_countDuplicates fun _ _ => Iff.rfl]
    exact ⟨_, List.mem_filterMap.2 ⟨_, Node.mem_walk_iff.2 hn, hgiven⟩, rfl, rfl, rfl⟩

end Element

namespace Outline

variable {r : Request} {disk : Disk} {file source text name : String} {bytes : List UInt8} {rows : List String}

/-- A request for the code of elements as it stands: all of it, nothing around it, and no numbers. -/
structure Request.ForCode (r : Request) : Prop where
  withCode : r.withCode = true
  context : r.context = 0
  numbered : r.numbered = false
  signatureOnly : r.signatureOnly = false

/-- A finding with the name, the label and the lines of a definition, those of its decorators included. -/
structure Finding.TellsOf (f : Finding) (span : Grammar.Span) (kind : Grammar.DefinitionKind) (name : String)
    (decorators : List Grammar.Expr) : Prop where
  name_eq : f.name = name
  label_eq : f.label = (ElementKind.definition kind span.first).label
  start_eq : f.start = Element.firstLine span decorators
  finish_eq : f.finish = span.last

/-- What such a request tells about an element. -/
def Finding.ofRows (rows : List String) (e : Element) : Finding :=
  let x := Extent.around e.span.first e.span.last rows 0
  ⟨e.name, e.kind.label, x.start, x.finish, .code (String.join x.lines)⟩

theorem Request.ForCode.ofElement_eq (h : r.ForCode) (rows : List String) (e : Element) :
    Finding.ofElement r rows e = .ok (Finding.ofRows rows e) := by
  obtain ⟨hcode, hcontext, hnumbered, hsignature⟩ := h
  rw [Finding.ofRows, ← Text.intercalate_empty]
  cases hkind : e.kind with
  | definition =>
    simp [Finding.ofElement, Finding.ofElement.plain, hkind, hcode, hcontext, hnumbered, hsignature, Extent.numbered]
  | _ => simp [Finding.ofElement, Finding.ofElement.plain, hkind, hcode, hcontext, hnumbered, Extent.numbered]

/-- The code of a finding is made up of the rows that it numbers. -/
theorem Finding.detail_ofRows (rows : List String) (e : Element) :
    (Finding.ofRows rows e).detail =
      .code (String.join (slice rows ((Finding.ofRows rows e).start - 1) (Finding.ofRows rows e).finish)) := by
  simp only [Finding.ofRows, Extent.around, Int.add_sub_cancel]

theorem Finding.tellsOf_ofRows {e : Element} {span : Grammar.Span} {kind : Grammar.DefinitionKind}
    {decorators : List Grammar.Expr} (hname : e.name = name) (hkind : e.kind = .definition kind span.first)
    (hspan : e.span = ⟨Element.firstLine span decorators, span.last⟩) (hfirst : 1 ≤ Element.firstLine span decorators)
    (hlast : span.last ≤ rows.length) : (Finding.ofRows rows e).TellsOf span kind name decorators := by
  have hrows : Finding.ofRows rows e = ⟨e.name, e.kind.label, _, _, _⟩ := rfl
  rw [hspan, Extent.around_eq hfirst hlast, hname, hkind] at hrows
  rw [hrows]
  exact ⟨rfl, rfl, rfl, rfl⟩

theorem Request.ForCode.searchText_eq (h : r.ForCode) {found : List Element} (hne : found ≠ [])
    (hfind : Element.find source r.pattern r.includeOthers r.version = .ok found) :
    searchText r file source = .ok (.found (found.map (Finding.ofRows (Text.linesKeep source)))) := by
  have hpure : Finding.ofElement r (Text.linesKeep source) =
      fun e => pure (Finding.ofRows (Text.linesKeep source) e) := funext fun e => h.ofElement_eq _ e
  rw [searchText, hfind, hpure]
  cases found with
  | nil => exact absurd rfl hne
  | cons e rest =>
    simp only [List.mapM_pure]
    rfl

theorem search_eq (hbytes : disk.readBytes (Path.Pure.ofString file).toString = .ok bytes)
    (htext : Text.decode bytes = .ok text) : search disk r file = searchText r file (Text.foldNewlines text) := by
  simp [search, Disk.isFile_of_readBytes hbytes, Disk.readText_of_decode hbytes htext]

/-- The lines of a definition, those of its decorators included, are physical lines of the text.  The decorators come
first. -/
theorem decorated_lines {d : Grammar.Dialect} {nodes : List Node} (hparse : Grammar.parse? d text = some nodes)
    {span : Grammar.Span} {kind : Grammar.DefinitionKind} {decorators : List Grammar.Expr} {body : List Node}
    (hn : Node.Within nodes (.definition span kind name decorators body)) :
    1 ≤ Element.firstLine span decorators ∧ Element.firstLine span decorators ≤ span.first ∧
      span.first ≤ span.last ∧ span.last ≤ (Text.physicalLines text.toList).length := by
  obtain ⟨⟨-, hdecorates⟩, hpos, hfirst, hle, hlast⟩ := Grammar.parse?_placed hparse _ (Node.mem_walk_iff.2 hn)
  cases decorators with
  | nil => exact ⟨hfirst, le_rfl, hle, hlast⟩
  | cons e es => exact ⟨hpos e List.mem_cons_self, hdecorates e List.mem_cons_self, hle, hlast⟩

theorem lines_of_definition {d : Grammar.Dialect} {nodes : List Node} (hparse : Grammar.parse? d text = some nodes)
    {span : Grammar.Span} {kind : Grammar.DefinitionKind} {decorators : List Grammar.Expr} {body : List Node}
    (hn : Node.Within nodes (.definition span kind name decorators body)) :
    1 ≤ Element.firstLine span decorators ∧ Element.firstLine span decorators ≤ span.last ∧
      span.last ≤ (Text.physicalLines text.toList).length := by
  obtain ⟨hfirst, htop, hle, hlast⟩ := decorated_lines hparse hn
  exact ⟨hfirst, htop.trans hle, hlast⟩

/-- **The source of a definition.**  A file of text is searched for the code of the definitions that match.  Each is
found, with its lines, and its code is what the physical lines from the first decorator to the last line of the
definition say, exactly if none of the lines up to there has a line end inside, or if such a line comes before the
definition and the rows that are taken instead, from an earlier place, happen to say the same. -/
theorem code_own_iff {r : Request} (hr : r.ForCode) {disk : Disk} {file text : String} {bytes : List UInt8}
    (hbytes : disk.readBytes (Path.Pure.ofString file).toString = .ok bytes) (htext : Text.decode bytes = .ok text)
    {d : Grammar.Dialect} {nodes : List Node} (hversion : r.version.dialect = .ok d)
    (hparse : Grammar.parse? d text = some nodes) {span : Grammar.Span} {kind : Grammar.DefinitionKind} {name : String}
    {decorators : List Grammar.Expr} {body : List Node}
    (hn : Node.Within nodes (.definition span kind name decorators body)) (hname : r.pattern.accepts name = .ok true) :
    ∃ findings, search disk r file = .ok (.found findings) ∧
      (∃ f ∈ findings, f.TellsOf span kind name decorators) ∧
      ∀ f ∈ findings, f.TellsOf span kind name decorators →
        (f.detail = .code (Text.physicalText text (Element.firstLine span decorators) span.last) ↔
          Text.Clear text span.last ∨ Text.Echoes text (Element.firstLine span decorators) span.last) := by
  obtain ⟨hfirst, hle, hlast⟩ := lines_of_definition hparse hn
  have hrows : span.last ≤ (Text.linesKeep (Text.foldNewlines text)).length :=
    hlast.trans (Text.length_physicalLines_le text)
  rw [← Grammar.parse?_foldNewlines] at hparse
  obtain ⟨found, hfind, e, he, hename, hekind, hespan⟩ := Element.exists_find_definition hversion hparse hn hname
  refine ⟨found.map (Finding.ofRows (Text.linesKeep (Text.foldNewlines text))), ?_, ?_, ?_⟩
  · rw [search_eq hbytes htext]
    exact hr.searchText_eq (List.ne_nil_of_mem he) hfind
  · exact ⟨_, List.mem_map_of_mem he, Finding.tellsOf_ofRows hename hekind hespan hfirst hrows⟩
  · intro f hf htells
    obtain ⟨e, -, rfl⟩ := List.mem_map.1 hf
    rw [Finding.detail_ofRows, htells.start_eq, htells.finish_eq, Detail.code.injEq]
    exact Text.rows_eq_physicalText_iff (by omega) hlast (Text.firstRows_append_slice hfirst hle)

/-- A disk with one file. -/
def oneSource (text : String) : Disk :=
  { root := .directory [("a.py", .file (.bytes (Text.encode text)) 0)], here := some [] }

theorem readBytes_oneSource (text : String) :
    (oneSource text).readBytes (Path.Pure.ofString "a.py").toString = .ok (Text.encode text) := by
  have hpath : (Path.Pure.ofString "a.py").toString = "a.py" := by decide +kernel
  rw [hpath]
  rfl

theorem forCode_default : ({ withCode := true } : Request).ForCode := ⟨rfl, rfl, rfl, rfl⟩

/-- A decorated function, in a file with carriage returns and with a form feed behind the function. -/
theorem code_own_decorated :
    Grammar.parse? ⟨10, true⟩ "@d\r\ndef f(): 0\r\n'\x0c'" =
      some [.definition ⟨2, 2⟩ .function "f" [.name 1 "d"] [.simple ⟨2, 2⟩], .simple ⟨3, 3⟩] ∧
    Text.Clear "@d\r\ndef f(): 0\r\n'\x0c'" 2 ∧ ∃ findings,
      search (oneSource "@d\r\ndef f(): 0\r\n'\x0c'") { withCode := true } "a.py" = .ok (.found findings) ∧
      ∃ f ∈ findings, f.TellsOf ⟨2, 2⟩ .function "f" [.name 1 "d"] ∧ f.detail = .code "@d\ndef f(): 0\n" := by
  have hparse : Grammar.parse? ⟨10, true⟩ "@d\r\ndef f(): 0\r\n'\x0c'" =
      some [.definition ⟨2, 2⟩ .function "f" [.name 1 "d"] [.simple ⟨2, 2⟩], .simple ⟨3, 3⟩] := rfl
  have htext : Text.decode (Text.encode "@d\r\ndef f(): 0\r\n'\x0c'") =
      .ok "@d\r\ndef f(): 0\r\n'\x0c'" := Job.eq_ok_of_toOption (by decide +kernel)
  have hclear : Text.Clear "@d\r\ndef f(): 0\r\n'\x0c'" 2 := by decide +kernel
  have hown : Text.physicalText "@d\r\ndef f(): 0\r\n'\x0c'" 1 2 = "@d\ndef f(): 0\n" := by decide +kernel
  have hname : NamePattern.any.accepts "f" = .ok true := NamePattern.accepts_any "f"
  obtain ⟨findings, hsearch, ⟨f, hf, htells⟩, hiff⟩ := code_own_iff forCode_default
    (readBytes_oneSource _) htext Element.dialect_default hparse (.here List.mem_cons_self) hname
  refine ⟨hparse, hclear, findings, hsearch, f, hf, htells, ?_⟩
  rw [← hown]
  exact (hiff f hf htells).2 (.inl hclear)

/-- A function behind a form feed in a text, of which something else is reported. -/
theorem code_not_own :
    Grammar.parse? ⟨10, true⟩ "'\x0c'\ndef f(): pass\n" =
      some [.simple ⟨1, 1⟩, .definition ⟨2, 2⟩ .function "f" [] [.simple ⟨2, 2⟩]] ∧
    Text.physicalText "'\x0c'\ndef f(): pass\n" 2 2 = "def f(): pass\n" ∧
    search (oneSource "'\x0c'\ndef f(): pass\n") { withCode := true } "a.py" =
      .ok (.found [⟨"f", "FunctionDef", 2, 2, .code "'\n"⟩]) := by
  have hparse : Grammar.parse? ⟨10, true⟩ "'\x0c'\ndef f(): pass\n" =
      some [.simple ⟨1, 1⟩, .definition ⟨2, 2⟩ .function "f" [] [.simple ⟨2, 2⟩]] := rfl
  have hfind : Element.find "'\x0c'\ndef f(): pass\n" .any false {} =
      .ok [⟨"f", .definition .function 2, ⟨2, 2⟩, none⟩] := by
    rw [Element.find_of_parse Element.dialect_default, hparse]
    rfl
  have htext : Text.decode (Text.encode "'\x0c'\ndef f(): pass\n") = .ok "'\x0c'\ndef f(): pass\n" :=
    Job.eq_ok_of_toOption (by decide +kernel)
  have hfold : Text.foldNewlines "'\x0c'\ndef f(): pass\n" = "'\x0c'\ndef f(): pass\n" := by decide +kernel
  have hrows : Extent.around (2 : Nat) (2 : Nat) (Text.linesKeep "'\x0c'\ndef f(): pass\n") 0 =
      ⟨2, 2, ["'\n"]⟩ := by decide +kernel
  refine ⟨hparse, by decide +kernel, ?_⟩
  rw [search_eq (readBytes_oneSource _) htext, hfold, forCode_default.searchText_eq (List.cons_ne_nil _ _) hfind]
  simp only [List.map_cons, List.map_nil, Finding.ofRows, hrows]
  rfl

end Outline

end CodeAtlas
