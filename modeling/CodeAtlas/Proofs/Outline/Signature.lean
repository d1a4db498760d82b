import CodeAtlas.Proofs.Listing
import CodeAtlas.Proofs.Outline.Source

/-!
# The signatures of definitions

The signature of a definition starts at its first decorator.  It goes on to the line of the keyword, and one line more
if documentation starts there, but only if that line reads like the head of a function: of a class with decorators the
first line is all.  The number that is reported for the last line is always one too high.

## Main definitions

* `Extent.Spans` — an extent whose lines are those that it numbers
* `Extent.Covers` — an extent that begins with some lines

## Main results

* `Extent.signature_eq` — the lines of a signature
* `Element.exists_node_of_find` — whatever is found as a definition is one
* `Element.signature_covers_iff` — what a signature covers, and what it reports
-/

namespace CodeAtlas

open Grammar (Node)

/-! ### Rows of a text as it stands -/

namespace Text

theorem map_foldNewlineChars_consLine {c : Char} (hc : c ≠ '\r') (lines : List (List Char)) :
    (consLine c lines).map foldNewlineChars = consLine c (lines.map foldNewlineChars) := by
  have hcons : ∀ rest, foldNewlineChars (c :: rest) = c :: foldNewlineChars rest := by
    intro rest
    rw [foldNewlineChars.eq_3 c rest (fun _ hreturn _ => hc hreturn), if_neg (by simpa using hc)]
  cases lines with
  | nil => simp [consLine, hcons, foldNewlineChars]
  | cons line lines => simp [consLine, hcons]

/-- Folding line ends keeps the rows of a text apart. -/
theorem map_foldNewlineChars_splitKeep (cs : List Char) :
    (splitKeep cs).map foldNewlineChars = splitKeep (foldNewlineChars cs) := by
  induction cs using splitKeep.induct with
  | case1 => rfl
  | case2 rest ih =>
    rw [splitKeep, foldNewlineChars, List.map_cons, ih, splitKeep.eq_3 '\n' _ (by simp)]
    rfl
  | case3 c rest hpair hend ih =>
    rw [splitKeep.eq_3 c rest hpair, foldNewlineChars.eq_3 c rest hpair, if_pos hend, List.map_cons, ih]
    by_cases hc : c = '\r'
    · subst hc
      rw [splitKeep.eq_3 _ _ (by simp)]
      rfl
    · have hkeep : splitKeep (c :: foldNewlineChars rest) = [c] :: splitKeep (foldNewlineChars rest) := by
        rw [splitKeep.eq_3 c _ (fun _ hreturn _ => hc hreturn), if_pos hend]
      simp [hc, hkeep, foldNewlineChars]
  | case4 c rest hpair hend ih =>
    have hc : c ≠ '\r' := by
      rintro rfl
      exact hend (by decide)
    rw [splitKeep.eq_3 c rest hpair, foldNewlineChars.eq_3 c rest hpair, if_neg hend,
      map_foldNewlineChars_consLine hc, ih, if_neg (by simpa using hc),
      splitKeep_cons_of_not_isLineEnd (by simpa using hend)]

theorem map_foldNewlines_linesKeep (text : String) :
    (linesKeep text).map foldNewlines = linesKeep (foldNewlines text) := by
  have hrows := map_foldNewlineChars_splitKeep text.toList
  rw [linesKeep, linesKeep, foldNewlines, String.toList_ofList, ← hrows, List.map_map, List.map_map]
  refine List.map_congr_left fun row _ => ?_
  rw [Function.comp_apply, Function.comp_apply, foldNewlines, String.toList_ofList]

theorem length_physicalLines_le_linesKeep (text : String) :
    (physicalLines text.toList).length ≤ (linesKeep text).length := by
  have hrows := congrArg List.length (map_foldNewlines_linesKeep text)
  rw [List.length_map] at hrows
  rw [hrows]
  exact length_physicalLines_le text

end Text

/-! ### Lines of signatures -/

namespace Extent

variable {rows : List String} {first own stop : Nat}

/-- The lines of an extent are those from its first number through its last one, as ranges are reported. -/
def Spans (x : Extent) (rows : List String) : Prop := around x.start x.finish rows 0 = x

instance (x : Extent) (rows : List String) : Decidable (x.Spans rows) := inferInstanceAs (Decidable (_ = _))

/-- An extent begins with the rows from one number through another one. -/
def Covers (x : Extent) (rows : List String) (first last : Nat) : Prop := (rows.take last).drop (first - 1) <+: x.lines

instance (x : Extent) (rows : List String) (first last : Nat) : Decidable (x.Covers rows first last) :=
  inferInstanceAs (Decidable (_ <+: _))

/-- A row that reads like the head of a function. -/
def ReadsAsFunction (rows : List String) (number : Nat) : Prop :=
  ∃ row, rows[number - 1]? = some row ∧ Text.contains row "def " = true

theorem at?_natCast {α : Type} (xs : List α) (n : Nat) : at? xs n = xs[n]? := by
  rw [at?, if_neg (by omega), Int.toNat_natCast]

theorem spans_iff {last : Nat} {lines : List String} (hfirst : 1 ≤ first) :
    Spans ⟨first, last, lines⟩ rows ↔ last ≤ rows.length ∧ lines = (rows.take last).drop (first - 1) := by
  have hlast : ((min last rows.length : Nat) : Int) = last ↔ last ≤ rows.length := by omega
  rw [Spans, around_natCast hfirst, Extent.mk.injEq, hlast, eq_comm (b := lines)]
  exact and_iff_right rfl

/-- A signature goes from its first row to one behind it, which is the row of the keyword or comes after that if the row
reads like the head of a function.  The last number is one too high. -/
theorem signature_eq (hfirst : 1 ≤ first) (hle : first ≤ own) (hown : own ≤ rows.length) :
    ∃ stop : Nat, signature first own rows = .ok ⟨first, (stop + 1 : Nat), (rows.take stop).drop (first - 1)⟩ ∧
      first ≤ stop ∧ stop ≤ rows.length ∧ (own ≤ stop ↔ first = own ∨ ReadsAsFunction rows own) := by
  have hindex : (own : Int) - 1 = ((own - 1 : Nat) : Int) := by omega
  have hstart : (first : Int) - 1 = ((first - 1 : Nat) : Int) := by omega
  obtain ⟨row, hrow⟩ : ∃ row, rows[own - 1]? = some row := ⟨_, List.getElem?_eq_getElem (by omega)⟩
  simp only [signature, hindex, hstart, at?_natCast, hrow]
  rw [if_pos (by omega)]
  by_cases hdef : Text.contains row "def " = true
  · have hreads : ReadsAsFunction rows own := ⟨row, hrow, hdef⟩
    rw [if_pos hdef]
    by_cases hdoc : (decide ((own : Int) < rows.length) && rows[own]?.any opensDocumentation) = true
    · have hmore : own + 1 ≤ rows.length := by
        have hlt := of_decide_eq_true (Bool.and_eq_true_iff.1 hdoc).1
        omega
      refine ⟨own + 1, ?_, by omega, hmore, by simp [hreads]⟩
      rw [if_pos hdoc, ← slice_natCast]
      rfl
    · refine ⟨own, ?_, hle, hown, by simp [hreads]⟩
      rw [if_neg hdoc, ← slice_natCast]
      rfl
  · have hreads : ¬ReadsAsFunction rows own := by
      rintro ⟨row', hrow', hdef'⟩
      rw [hrow] at hrow'
      exact hdef (Option.some.inj hrow' ▸ hdef')
    refine ⟨first, ?_, le_rfl, by omega, ?_⟩
    · rw [if_neg hdef, ← slice_natCast]
      rfl
    · simp only [hreads, or_false]
      omega

theorem length_rows (hstop : stop ≤ rows.length) :
    ((rows.take stop).drop (first - 1)).length = stop - (first - 1) := by
  rw [List.length_drop, List.length_take_of_le hstop]

theorem covers_iff {x : Extent} (hx : x.lines = (rows.take stop).drop (first - 1)) (hfirst : first ≤ stop)
    (hstop : stop ≤ rows.length) (hown : own ≤ rows.length) : x.Covers rows first own ↔ own ≤ stop := by
  rw [Covers, hx]
  constructor
  · intro h
    have hlength := h.length_le
    rw [length_rows hown, length_rows hstop] at hlength
    omega
  · intro hle
    rw [List.drop_take, List.drop_take]
    exact List.take_prefix_take_left (by omega)

/-- One row more makes no difference only if there is none. -/
theorem rows_eq_succ_iff (hfirst : first ≤ stop) (hstop : stop ≤ rows.length) :
    (rows.take stop).drop (first - 1) = slice rows ((first - 1 : Nat) : Int) ((stop + 1 : Nat) : Int) ↔
      stop = rows.length := by
  rw [slice_natCast]
  constructor
  · intro h
    have hlength := congrArg List.length h
    rw [length_rows hstop, List.length_drop, List.length_take] at hlength
    omega
  · rintro rfl
    rw [List.take_length, List.take_of_length_le (by omega)]

end Extent

namespace Element

variable {p : NamePattern} {includeOthers : Bool} {e : Element} {kind : Grammar.DefinitionKind} {own : Nat}

theorem signatureOfRecord_toValue (hkind : e.kind = .definition kind own) (rows : List String) :
    Extent.signatureOfRecord e.toValue rows = Extent.signature e.span.first own rows := by
  have hfirst : e.toValue.get? "lineno" = some (.int e.span.first) := by
    simp [toValue, Value.get?, hkind]
  have hown : e.toValue.get? "original_lineno" = some (.int own) := by
    simp [toValue, Value.get?, hkind]
  rw [Extent.signatureOfRecord, hfirst, hown]

/-- An element that is a definition comes from one, with its lines from the first decorator on. -/
theorem exists_definition_of_ofNode {n : Node} (h : ofNode p includeOthers n = .ok (some e))
    (hkind : e.kind = .definition kind own) : ∃ span decorators body,
      n = .definition span kind e.name decorators body ∧ span.first = own ∧
        e.span = ⟨firstLine span decorators, span.last⟩ := by
  cases n with
  | definition span kind' name decorators body =>
    rw [ofNode] at h
    cases hname : p.accepts name with
    | error fault => simp [hname, bind, Except.bind] at h
    | ok accepted =>
      cases accepted with
      | false => simp [hname, bind, Except.bind, pure, Except.pure] at h
      | true =>
        simp only [hname, bind, Except.bind, pure, Except.pure, if_true] at h
        cases h
        cases hkind
        exact ⟨span, decorators, body, rfl, rfl, rfl⟩
  | compound | clause | simple => cases includeOthers <;> cases h
  | assignment | annotated | imports | importsFrom | globals =>
    -- what other statements bind has another kind
    cases includeOthers with
    | false => cases h
    | true =>
      simp only [ofNode, bindings, if_true, bind, Except.bind] at h
      split at h
      · cases h
      · next name _ =>
        cases name with
        | none => cases h
        | some name =>
          cases h
          cases hkind

/-- Whatever is found as a definition is one. -/
theorem exists_node_of_find {version : Version} {d : Grammar.Dialect} {source : String} {nodes : List Node}
    (hversion : version.dialect = .ok d) (hparse : Grammar.parse? d source = some nodes) {found : List Element}
    (hfind : find source p includeOthers version = .ok found) (he : e ∈ found) (hkind : e.kind = .definition kind own) :
    ∃ span decorators body, Node.Within nodes (.definition span kind e.name decorators body) ∧ span.first = own ∧
      e.span = ⟨firstLine span decorators, span.last⟩ := by
  rw [find_of_parse hversion, hparse] at hfind
  simp only [inNodes, bind, Except.bind] at hfind
  split at hfind
  · cases hfind
  · next given hgiven =>
    cases hfind
    -- numbers apart, the element is one that some node gives
    obtain ⟨e', he', hname', hkind', hspan'⟩ := (exists_mem_countDuplicates
      (P := fun x => x.name = e.name ∧ x.kind = e.kind ∧ x.span = e.span) (fun _ _ => Iff.rfl) _ _).1
      ⟨e, he, rfl, rfl, rfl⟩
    obtain ⟨_, ho, rfl⟩ := List.mem_filterMap.1 he'
    obtain ⟨n, hn, hnode⟩ := Listing.exists_of_mem_mapM hgiven ho
    obtain ⟨span, decorators, body, rfl, hown, hspan⟩ := exists_definition_of_ofNode hnode (hkind'.trans hkind)
    rw [hname', Node.mem_walk_iff] at hn
    exact ⟨span, decorators, body, hn, hown, hspan' ▸ hspan⟩

/-- **The signature of a definition.**  Every definition that is found has a signature, which starts at its first
decorator.  Its lines end one before the number that is reported for the last one, so they are never those that are
numbered: who cuts the range out of the text gets them only if they go to its end.  They begin with all lines from the
first decorator to the keyword exactly if the keyword is on the first of these or its row reads like the head of a
function.  And these rows say what the physical lines say exactly if none of the lines up to the keyword has a line end
inside, or if they echo. -/
theorem signature_covers_iff {version : Version} {d : Grammar.Dialect} {source : String} {nodes : List Node}
    (hversion : version.dialect = .ok d) (hparse : Grammar.parse? d source = some nodes) {p : NamePattern}
    {includeOthers : Bool} {found : List Element} (hfind : find source p includeOthers version = .ok found)
    {e : Element} (he : e ∈ found) {kind : Grammar.DefinitionKind} {own : Nat} (hkind : e.kind = .definition kind own) :
    ∃ span decorators body, Node.Within nodes (.definition span kind e.name decorators body) ∧ span.first = own ∧
      e.span.first = firstLine span decorators ∧
      ∃ x, Extent.signatureOfRecord e.toValue (Text.linesKeep source) = .ok x ∧ x.start = e.span.first ∧
        Extent.Spans ⟨x.start, x.finish - 1, x.lines⟩ (Text.linesKeep source) ∧ ¬x.Spans (Text.linesKeep source) ∧
        (x.lines = slice (Text.linesKeep source) (x.start - 1) x.finish ↔
          x.finish - 1 = (Text.linesKeep source).length) ∧
        (x.Covers (Text.linesKeep source) e.span.first own ↔
          e.span.first = own ∨ Extent.ReadsAsFunction (Text.linesKeep source) own) ∧
        (String.join ((slice (Text.linesKeep source) ((e.span.first : Int) - 1) own).map Text.foldNewlines) =
            Text.physicalText source e.span.first own ↔
          Text.Clear source own ∨ Text.Echoes source e.span.first own) := by
  obtain ⟨span, decorators, body, hn, rfl, hspan⟩ := exists_node_of_find hversion hparse hfind he hkind
  have hstart : e.span.first = firstLine span decorators := by rw [hspan]
  obtain ⟨hfirst, htop, hle, hlast⟩ := Outline.decorated_lines hparse hn
  rw [← hstart] at hfirst htop
  have hlines : span.first ≤ (Text.physicalLines source.toList).length := hle.trans hlast
  have hown : span.first ≤ (Text.linesKeep source).length :=
    hlines.trans (Text.length_physicalLines_le_linesKeep source)
  obtain ⟨stop, hsignature, hbelow, hstop, hcovers⟩ := Extent.signature_eq hfirst htop hown
  have hback : ((stop + 1 : Nat) : Int) - 1 = stop := by omega
  have hindex : (e.span.first : Int) - 1 = ((e.span.first - 1 : Nat) : Int) := by omega
  refine ⟨span, decorators, body, hn, rfl, hstart, _, (signatureOfRecord_toValue hkind _).trans hsignature, rfl,
    ?_, ?_, ?_, ?_, ?_⟩
  · rw [hback, Extent.spans_iff hfirst]
    exact ⟨hstop, rfl⟩
  · intro hspans
    obtain ⟨hfit, hrows⟩ := (Extent.spans_iff hfirst).1 hspans
    rw [← slice_natCast _ _ (stop + 1), Extent.rows_eq_succ_iff hbelow hstop] at hrows
    omega
  · rw [hback, hindex, Extent.rows_eq_succ_iff hbelow hstop]
    omega
  · rw [Extent.covers_iff rfl hbelow hstop hown, hcovers]
  · apply Text.rows_eq_physicalText_iff (by omega) hlines
    rw [hindex, slice_natCast, List.map_drop, List.map_take, Text.map_foldNewlines_linesKeep, ← slice_natCast, ← hindex]
    exact Text.firstRows_append_slice hfirst htop

/-- A function with a decorator and with documentation, whose head is covered. -/
theorem signature_covers_documented :
    find "@d\nasync def f():\n '''t'''\n" .any false {} =
      .ok [⟨"f", .definition .asyncFunction 2, ⟨1, 3⟩, none⟩] ∧
    ∃ x, Extent.signatureOfRecord (toValue ⟨"f", .definition .asyncFunction 2, ⟨1, 3⟩, none⟩)
        (Text.linesKeep "@d\nasync def f():\n '''t'''\n") = .ok x ∧
      x.Covers (Text.linesKeep "@d\nasync def f():\n '''t'''\n") 1 2 ∧
      ¬x.Spans (Text.linesKeep "@d\nasync def f():\n '''t'''\n") := by
  have hparse : Grammar.parse? ⟨10, true⟩ "@d\nasync def f():\n '''t'''\n" =
      some [.definition ⟨2, 3⟩ .asyncFunction "f" [.name 1 "d"] [.simple ⟨3, 3⟩]] := rfl
  have hfind : find "@d\nasync def f():\n '''t'''\n" .any false {} =
      .ok [⟨"f", .definition .asyncFunction 2, ⟨1, 3⟩, none⟩] := by
    rw [find_of_parse dialect_default, hparse]
    rfl
  have hreads : Extent.ReadsAsFunction (Text.linesKeep "@d\nasync def f():\n '''t'''\n") 2 :=
    ⟨"async def f():\n", by decide +kernel, by decide +kernel⟩
  obtain ⟨_, _, _, -, -, -, x, hx, -, -, hspans, -, hcovers, -⟩ :=
    signature_covers_iff dialect_default hparse hfind List.mem_cons_self rfl
  exact ⟨hfind, x, hx, hcovers.2 (.inr hreads), hspans⟩

/-- A class with a decorator, of whose head the decorator is all that is reported, as if it were two lines. -/
theorem signature_not_covers :
    find "@d\nclass C: 0\n" .any false {} = .ok [⟨"C", .definition .objectClass 2, ⟨1, 2⟩, none⟩] ∧
    Extent.signatureOfRecord (toValue ⟨"C", .definition .objectClass 2, ⟨1, 2⟩, none⟩)
      (Text.linesKeep "@d\nclass C: 0\n") = .ok ⟨1, 2, ["@d\n"]⟩ ∧
    ¬Extent.Spans ⟨1, 2, ["@d\n"]⟩ (Text.linesKeep "@d\nclass C: 0\n") ∧
    ¬Extent.Covers ⟨1, 2, ["@d\n"]⟩ (Text.linesKeep "@d\nclass C: 0\n") 1 2 := by
  have hparse : Grammar.parse? ⟨10, true⟩ "@d\nclass C: 0\n" =
      some [.definition ⟨2, 2⟩ .objectClass "C" [.name 1 "d"] [.simple ⟨2, 2⟩]] := rfl
  refine ⟨?_, Job.eq_ok_of_toOption (by decide +kernel), by decide +kernel, by decide +kernel⟩
  rw [find_of_parse dialect_default, hparse]
  rfl

end Element

end CodeAtlas
