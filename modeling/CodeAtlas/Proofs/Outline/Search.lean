import CodeAtlas.Outline.Element
import CodeAtlas.Proofs.Job
import Mathlib.Data.List.Basic

/-!
# Searching is filtering

The elements of a name are counted while a module is walked, and only those that the pattern matches.  A pattern matches
all elements of a name or none, so the numbers do not depend on which other names it matches: what is found is what
can be found at all, less the elements of other names.
-/

namespace CodeAtlas

open Grammar (Node)

namespace NamePattern

variable {p : NamePattern} {name : String}

/-- Whether a name matches.  None does if the text is no pattern. -/
def matchesName (p : NamePattern) (name : String) : Bool := (p.accepts name).toOption.getD false

/-- The text is a pattern, so that every name matches or does not. -/
def Valid (p : NamePattern) : Prop := ∀ name, ∃ b, p.accepts name = .ok b

theorem matchesName_of_accepts {b : Bool} (h : p.accepts name = .ok b) : p.matchesName name = b := by
  simp [matchesName, h, Except.toOption]

theorem Valid.accepts_eq (h : p.Valid) (name : String) : p.accepts name = .ok (p.matchesName name) := by
  obtain ⟨b, hb⟩ := h name
  rw [hb, matchesName_of_accepts hb]

/-- Whether a text is a pattern does not depend on the name. -/
theorem valid_of_accepts {b : Bool} (h : p.accepts name = .ok b) : p.Valid := by
  intro other
  simp only [accepts] at h ⊢
  split_ifs at h ⊢ with hstar
  · exact ⟨true, rfl⟩
  · cases hpattern : Pattern.ofText p.regular with
    | ok r => exact ⟨_, rfl⟩
    | error fault => simp [hpattern] at h

theorem accepts_any (name : String) : any.accepts name = .ok true := rfl

theorem valid_any : any.Valid := fun name => ⟨true, accepts_any name⟩

theorem matchesName_any : any.matchesName = fun _ => true :=
  funext fun name => matchesName_of_accepts (accepts_any name)

end NamePattern

namespace Element

variable {p : NamePattern} {accepted : String → Bool} {includeOthers : Bool}

/-- The element that a statement gives if names are tested in some way. -/
def given (accepted : String → Bool) (includeOthers : Bool) (n : Node) : Option Element :=
  match n with
  | .definition span kind name decorators _ =>
    if accepted name then
      some ⟨name, .definition kind span.first, ⟨firstLine span decorators, span.last⟩, none⟩
    else none
  | _ =>
    if includeOthers then
      (bindings n).bind fun (kind, span, names) => (names.filter accepted).getLast?.map (⟨·, kind, span, none⟩)
    else none

theorem lastMatch_eq (hp : p.Valid) (names : List String) :
    lastMatch p names = .ok (names.filter p.matchesName).getLast? := by
  induction names with
  | nil => rfl
  | cons name rest ih =>
    rw [lastMatch, hp.accepts_eq, ih]
    cases hname : p.matchesName name with
    | false =>
      cases hlast : (rest.filter p.matchesName).getLast? <;>
        simp [hname, hlast, bind, Except.bind, pure, Except.pure]
    | true =>
      rw [List.filter_cons_of_pos hname, List.getLast?_cons]
      cases (rest.filter p.matchesName).getLast? <;> rfl

theorem ofNode_eq (hp : p.Valid) (n : Node) :
    ofNode p includeOthers n = .ok (given p.matchesName includeOthers n) := by
  cases n with
  | definition span kind name decorators body =>
    rw [ofNode, given, hp.accepts_eq]
    cases p.matchesName name <;> rfl
  | compound | clause | simple => cases includeOthers <;> rfl
  | assignment | annotated | imports | importsFrom | globals =>
    cases includeOthers with
    | false => rfl
    | true =>
      simp only [ofNode, given, bindings, if_true, lastMatch_eq hp, Option.bind_some]
      rfl

/-- What is found among nodes, with a text that is a pattern. -/
theorem inNodes_eq (hp : p.Valid) (nodes : List Node) :
    inNodes p includeOthers nodes =
      .ok (countDuplicates [] ((Node.walk nodes).filterMap (given p.matchesName includeOthers))) := by
  have hpure : ofNode p includeOthers = fun n => pure (given p.matchesName includeOthers n) :=
    funext fun n => ofNode_eq hp n
  rw [inNodes, hpure, List.mapM_pure]
  simp [pure, Except.pure, bind, Except.bind, List.filterMap_map]

/-! ### Numbers -/

/-- Counting commutes with choosing names, for what was seen before as well. -/
theorem filter_countDuplicates (accepted : String → Bool) (seen : List String) (es : List Element) :
    (countDuplicates seen es).filter (accepted ·.name) =
      countDuplicates (seen.filter accepted) (es.filter (accepted ·.name)) := by
  induction es generalizing seen with
  | nil => rfl
  | cons e es ih =>
    rw [countDuplicates]
    cases he : accepted e.name with
    | false => rw [List.filter_cons_of_neg (by simp [he]), List.filter_cons_of_neg (by simp [he]), ih,
        List.filter_cons_of_neg (by simp [he])]
    | true =>
      rw [List.filter_cons_of_pos (by simp [he]), List.filter_cons_of_pos (by simp [he]), ih,
        List.filter_cons_of_pos he, countDuplicates, List.count_filter he]

/-- The number of an element that has so many of its name before it.  The first one has none. -/
def ordinal (before : Nat) : Option Nat := if before = 0 then none else some before

/-- Elements of one name are numbered on from those that were seen before. -/
theorem map_duplicate_countDuplicates {name : String} (seen : List String) {es : List Element}
    (h : ∀ e ∈ es, e.name = name) :
    (countDuplicates seen es).map duplicate = (List.range' (seen.count name) es.length).map ordinal := by
  induction es generalizing seen with
  | nil => rfl
  | cons e es ih =>
    obtain ⟨rfl, hes⟩ := List.forall_mem_cons.1 h
    rw [countDuplicates, List.map_cons, ih _ hes, List.count_cons_self, List.length_cons, List.range'_succ,
      List.map_cons]
    rfl

theorem length_countDuplicates (seen : List String) (es : List Element) :
    (countDuplicates seen es).length = es.length := by
  induction es generalizing seen with
  | nil => rfl
  | cons e es ih => simp [countDuplicates, ih]

/-- Counting changes nothing but the numbers. -/
theorem exists_mem_countDuplicates {P : Element → Prop} (hP : ∀ e number, P { e with duplicate := number } ↔ P e)
    (seen : List String) (es : List Element) : (∃ e ∈ countDuplicates seen es, P e) ↔ ∃ e ∈ es, P e := by
  induction es generalizing seen with
  | nil => rfl
  | cons e es ih => simp only [countDuplicates, List.exists_mem_cons_iff, ih, hP]

/-- Among counted elements, those of one name have no number, then 1, 2, 3 and so on. -/
theorem duplicates_of_name (name : String) (es : List Element) :
    ((countDuplicates [] es).filter (·.name == name)).map duplicate =
      (List.range ((countDuplicates [] es).filter (·.name == name)).length).map ordinal := by
  have hname : ∀ e ∈ es.filter (·.name == name), e.name = name := by simp
  rw [filter_countDuplicates (· == name), List.filter_nil, length_countDuplicates,
    map_duplicate_countDuplicates [] hname, List.count_nil, List.range_eq_range']

/-! ### Whole modules -/

/-- Whatever is found has been counted. -/
theorem exists_of_find {source : String} {version : Version} {found : List Element}
    (h : find source p includeOthers version = .ok found) : ∃ es, found = countDuplicates [] es := by
  rw [find] at h
  cases hversion : version.dialect with
  | error e => simp [hversion, bind, Except.bind] at h
  | ok d =>
    simp only [hversion, bind, Except.bind] at h
    cases hparse : Grammar.parse? d source with
    | none =>
      simp only [hparse] at h
      cases h
      exact ⟨[], rfl⟩
    | some nodes =>
      simp only [hparse, inNodes, bind, Except.bind] at h
      split at h
      · cases h
      · cases h
        exact ⟨_, rfl⟩

/-- Definitions that match are those of all definitions that have a matching name. -/
theorem given_definitions (accepted : String → Bool) (n : Node) :
    given accepted false n = (given (fun _ => true) false n).filter (accepted ·.name) := by
  cases n with
  | definition span kind name decorators body =>
    simp only [given, if_true, Option.filter_some]
  | _ => rfl

theorem dialect_default : ({} : Version).dialect = .ok ⟨10, true⟩ := rfl

theorem find_of_parse {source : String} {version : Version} {d : Grammar.Dialect} (hversion : version.dialect = .ok d) :
    find source p includeOthers version =
      match Grammar.parse? d source with
      | some nodes => inNodes p includeOthers nodes
      | none => .ok [] := by
  rw [find, hversion]
  rfl

/-- **Searching is filtering.**  A pattern finds the definitions that are found with a star, numbers included, less
those of other names.  Whatever is found, the elements of one name have no number, then 1, 2, 3 and so on. -/
theorem find_eq_filter (source : String) (version : Version) :
    (∀ p : NamePattern, p.Valid →
      find source p false version =
        (find source .any false version).map (List.filter fun e => p.matchesName e.name)) ∧
    ∀ (p : NamePattern) (includeOthers : Bool) (found : List Element),
      find source p includeOthers version = .ok found → ∀ name,
        (found.filter (·.name == name)).map duplicate =
          (List.range (found.filter (·.name == name)).length).map ordinal := by
  constructor
  · intro p hp
    cases hversion : version.dialect with
    | error e => simp [find, hversion, bind, Except.bind, Except.map]
    | ok d =>
      rw [find_of_parse hversion, find_of_parse hversion]
      cases Grammar.parse? d source with
      | none => rfl
      | some nodes =>
        simp only [inNodes_eq hp, inNodes_eq NamePattern.valid_any, NamePattern.matchesName_any, Except.map,
          filter_countDuplicates, List.filter_nil, List.filter_filterMap]
        congr 3
        exact funext fun n => given_definitions p.matchesName n
  · intro p includeOthers found hfound name
    obtain ⟨es, rfl⟩ := exists_of_find hfound
    exact duplicates_of_name name es

/-- A function comes before the method of its name in the class above it, and has no number. -/
theorem find_eq_filter_method :
    find "class C:\n  def f(self): 0\ndef f(): 0\n" .any false {} =
      .ok [⟨"C", .definition .objectClass 1, ⟨1, 2⟩, none⟩, ⟨"f", .definition .function 3, ⟨3, 3⟩, none⟩,
        ⟨"f", .definition .function 2, ⟨2, 2⟩, some 1⟩] ∧
    find "class C:\n  def f(self): 0\ndef f(): 0\n" ⟨"f*"⟩ false {} =
      .ok [⟨"f", .definition .function 3, ⟨3, 3⟩, none⟩, ⟨"f", .definition .function 2, ⟨2, 2⟩, some 1⟩] ∧
    [none, some 1] = (List.range 2).map ordinal := by
  have hall : find "class C:\n  def f(self): 0\ndef f(): 0\n" .any false {} =
      .ok [⟨"C", .definition .objectClass 1, ⟨1, 2⟩, none⟩, ⟨"f", .definition .function 3, ⟨3, 3⟩, none⟩,
        ⟨"f", .definition .function 2, ⟨2, 2⟩, some 1⟩] := Job.eq_ok_of_toOption (by decide +kernel)
  have hclass : NamePattern.accepts ⟨"f*"⟩ "C" = .ok false := rfl
  refine ⟨hall, ?_, (find_eq_filter _ {}).2 .any false _ hall "f"⟩
  rw [(find_eq_filter _ {}).1 ⟨"f*"⟩ (NamePattern.valid_of_accepts hclass), hall]
  exact congrArg Except.ok (by decide +kernel)

end Element

end CodeAtlas
