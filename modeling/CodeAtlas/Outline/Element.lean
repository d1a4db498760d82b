import CodeAtlas.Error
import CodeAtlas.Grammar.Statement
import CodeAtlas.Text.Fields
import CodeAtlas.Value.Basic

/-!
# The elements of a module

What can be looked up in Python source by name: definitions, and on request the names that
assignments, annotations, imports and global statements bind.  A name is looked up with a pattern in
which a star stands for any text and a question mark for one character.
-/

namespace CodeAtlas

/-- A pattern for names: any name, or those that a regular pattern matches as a whole. -/
structure NamePattern where
  text : String

namespace NamePattern

/-- The pattern that every name matches. -/
def any : NamePattern := ⟨"*"⟩

/-- The regular pattern: a star becomes any number of characters, a question mark one character. -/
def regular (p : NamePattern) : String := Text.replaceAll (Text.replaceAll p.text "*" ".*") "?" "."

/-- Whether a name matches; the text may be no pattern at all. -/
def accepts (p : NamePattern) (name : String) : Except Error Bool :=
  if p.text == "*" then .ok true
  else
    match Pattern.ofText p.regular with
    | .ok r => .ok (r.matchesAll name.toList)
    | .error fault => .error (.pattern p.regular fault)

end NamePattern

/-- What binds the name of an element. -/
inductive ElementKind
  /-- A definition, with the line of its own keyword, which decorators may precede. -/
  | definition (kind : Grammar.DefinitionKind) (line : Nat)
  | assigned
  | importing
  /-- An import from another module. -/
  | importingFrom (source : String)
  | global
  | annotated
  deriving DecidableEq, Repr

namespace ElementKind

/-- The name of a kind in reports. -/
def label : ElementKind → String
  | definition .function _ => "FunctionDef"
  | definition .asyncFunction _ => "AsyncFunctionDef"
  | definition .objectClass _ => "ClassDef"
  | assigned => "Variable"
  | importing => "Import"
  | importingFrom _ => "ImportFrom"
  | global => "Global"
  | annotated => "Attribute"

/-- Whether elements of a kind can be called. -/
def isCallable : ElementKind → Bool
  | definition _ _ => true
  | _ => false

/-- The module from which an element is imported. -/
def source? : ElementKind → Option String
  | importingFrom source => some source
  | _ => none

end ElementKind

/-- A named element of a module with its lines.  From the second element of one name on, the elements
before it are counted. -/
structure Element where
  name : String
  kind : ElementKind
  span : Grammar.Span
  duplicate : Option Nat := none
  deriving DecidableEq, Repr

namespace Element

open Grammar (Node)

/-- The line on which a definition starts, which is that of its first decorator if it has one. -/
def firstLine (span : Grammar.Span) (decorators : List Grammar.Expr) : Nat :=
  match decorators with
  | [] => span.first
  | d :: _ => d.line

/-- The last of the names that the pattern matches.  A statement that binds several names gives one
element only. -/
def lastMatch (p : NamePattern) : List String → Except Error (Option String)
  | [] => .ok none
  | name :: rest => do
    let here ← p.accepts name
    let later ← lastMatch p rest
    return later <|> (if here then some name else none)

/-- The names that a statement binds, with what they are bound as. -/
def bindings : Node → Option (ElementKind × Grammar.Span × List String)
  | .assignment span targets => some (.assigned, span, targets.filterMap Grammar.Expr.name?)
  | .annotated span target => some (.annotated, span, target.name?.toList)
  | .imports span names => some (.importing, span, names)
  | .importsFrom span source names => some (.importingFrom source, span, names)
  | .globals span names => some (.global, span, names)
  | _ => none

/-- The element that a statement gives under a pattern. -/
def ofNode (p : NamePattern) (includeOthers : Bool) (n : Node) : Except Error (Option Element) :=
  match n with
  | .definition span kind name decorators _ => do
    if ← p.accepts name then
      return some ⟨name, .definition kind span.first, ⟨firstLine span decorators, span.last⟩, none⟩
    else return none
  | _ =>
    if includeOthers then
      match bindings n with
      | some (kind, span, names) => do return (← lastMatch p names).map (⟨·, kind, span, none⟩)
      | none => .ok none
    else .ok none

/-- Counts, for every element, the elements of the same name before it. -/
def countDuplicates (seen : List String) : List Element → List Element
  | [] => []
  | e :: rest =>
    let before := seen.count e.name
    { e with duplicate := if before = 0 then none else some before } ::
      countDuplicates (e.name :: seen) rest

/-- The elements that a pattern matches among statements and what is below them, level by level. -/
def inNodes (p : NamePattern) (includeOthers : Bool) (nodes : List Node) : Except Error (List Element) := do
  let found ← (Node.walk nodes).mapM (ofNode p includeOthers)
  return countDuplicates [] (found.filterMap id)

/-- A version of the language. -/
structure Version where
  major : Int := 3
  minor : Int := 10

/-- The dialect that a version stands for.  Only one major version can be read; a negative minor
version stands for the newest one. -/
def Version.dialect (v : Version) : Except Error Grammar.Dialect :=
  if v.major == 3 then .ok ⟨if v.minor < 0 then 11 else v.minor.toNat, true⟩ else .error .unsupportedVersion

/-- The elements of a source text that a pattern matches.  Text that is not in the language has
none. -/
def find (source : String) (p : NamePattern) (includeOthers : Bool) (version : Version) :
    Except Error (List Element) := do
  match Grammar.parse? (← version.dialect) source with
  | some nodes => inNodes p includeOthers nodes
  | none => .ok []

/-- An element as a record. -/
def toValue (e : Element) : Value :=
  let lines : List (String × Value) :=
    match e.kind with
    | .definition _ line => [("original_lineno", .int line)]
    | _ => []
  .record <| [("name", .str e.name), ("type", .str e.kind.label), ("lineno", .int e.span.first)] ++ lines ++
    [("end_lineno", .int e.span.last), ("is_callable", .bool e.kind.isCallable)] ++
    (match e.kind.source? with | some s => [("module", .str s)] | none => []) ++
    (match e.duplicate with | some n => [("duplicate_index", .int n)] | none => [])

end Element

end CodeAtlas
