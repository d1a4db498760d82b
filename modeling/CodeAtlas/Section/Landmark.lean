import CodeAtlas.Outline.Element
import CodeAtlas.Text.Case

/-!
# Landmarks of source text

The definitions in a source text and the lines up to which they are taken to reach.  Python is read by
its grammar; JavaScript and TypeScript are looked through with patterns that are anchored at the start
of lines, and the ends of what they find are estimates.
-/

namespace CodeAtlas

/-- What a landmark is. -/
inductive LandmarkKind
  /-- A definition of a parsed text, with the names of its decorators. -/
  | definition (kind : Grammar.DefinitionKind) (decorators : List (Option String))
  | decorator
  | classHead | special | static | method | function | arrow
  /-- A definition that the search for elements has found. -/
  | element

/-- A definition or a decorator with its lines, and with the line it was found at if a pattern found
it. -/
structure Landmark where
  kind : LandmarkKind
  name : String
  start : Nat
  finish : Nat
  line : Option Nat := none

namespace Landmark

open Grammar (Node)

/-- The lines of all decorators of a statement. -/
def decoratorLines : Node → List Nat
  | .definition _ _ _ decorators _ => decorators.map Grammar.Expr.line
  | _ => []

/-- The landmark of a definition. -/
def ofNode? : Node → Option Landmark
  | .definition span kind name decorators _ =>
    some ⟨.definition kind (decorators.map Grammar.Expr.decoratorName?), name,
      Element.firstLine span decorators, span.last, none⟩
  | _ => none

/-- The landmarks of Python source: all definitions, then all decorators. -/
def ofPython (content : String) : List Landmark :=
  match Grammar.parse? {} content with
  | some nodes =>
    let all := Node.walk nodes
    all.filterMap ofNode? ++
      (all.flatMap decoratorLines).map fun line => ⟨.decorator, "decorator", line, line, none⟩
  | none => []

/-! ### Patterns for scripts -/

open Pattern

/-- Blanks at the start of a line. -/
def lineIndent : Pattern := seq lineStart blanks

/-- A word that is kept as the first group. -/
def named : Pattern := group 1 word

/-- One character. -/
def char (c : Char) : Pattern := one (· == c)

/-- Parentheses without further closing ones inside. -/
def parentheses : Pattern := concat [char '(', many (one (· != ')')), char ')']

/-- A class with its name. -/
def classPattern : Pattern := concat [lineIndent, literal "class", blanks1, named]

/-- A call-like head with a fixed name. -/
def headPattern (name : String) : Pattern := concat [lineIndent, literal name, blanks, char '(']

/-- A name with parameters and an opening brace. -/
def methodPattern : Pattern := concat [lineIndent, named, blanks, parentheses, blanks, char '\x7b']

/-- A function with its name. -/
def functionPattern : Pattern := concat [lineIndent, literal "function", blanks1, named]

/-- A name that an arrow function is assigned to. -/
def arrowPattern : Pattern :=
  concat [lineIndent, optional (oneOf ["const", "let", "var"]), blanks, named, blanks, char '=', blanks,
    alt parentheses (many (one (· != '='))), blanks, literal "=>"]

/-- A static member with its name. -/
def staticPattern : Pattern := concat [lineIndent, literal "static", blanks1, named]

/-- A function or a variable with its name. -/
def bindingPattern : Pattern :=
  concat [lineIndent, oneOf ["function", "const", "let", "var"], blanks1, named]

/-- A decorator with its name. -/
def decoratorPattern : Pattern := concat [lineIndent, char '@', named]

/-- An empty call of an initializer, anywhere. -/
def initializerPattern : Pattern := concat [literal "initialize", blanks, char '(', blanks, char ')']

/-- The number of the line with a position, lines being ended by line feeds. -/
def lineAt (content : String) (position : Nat) : Nat := (content.toList.take position).count '\n' + 1

/-- The landmarks that the matches of a pattern give, each taken to reach some lines further. -/
def ofMatches (content : String) (p : Pattern) (kind : LandmarkKind) (reach : Nat)
    (name : Found → String := (·.group 1)) : List Landmark :=
  (p.findAll content).map fun f =>
    let line := lineAt content f.start
    ⟨kind, name f, line, line + reach, some line⟩

/-- The position of the first occurrence of a text. -/
def positionOf (content part : String) : Option Nat :=
  (Text.fromFirst? part.toList 0 content.toList).map Prod.fst

/-- Names that the pattern for methods leaves to others. -/
def isMethodName (name : String) : Bool :=
  name != "constructor" && name != "initialize" && !Text.startsWith name "function"

/-- What the patterns find in a script, kind by kind. -/
def scriptMatches (content : String) : List Landmark :=
  ofMatches content classPattern .classHead 10 ++
  ofMatches content (headPattern "constructor") .special 5 (fun _ => "constructor") ++
  ofMatches content (headPattern "initialize") .special 5 (fun _ => "initialize") ++
  ofMatches content staticPattern .static 5 ++
  (ofMatches content methodPattern .method 5).filter (fun l => isMethodName l.name) ++
  ofMatches content functionPattern .function 5 ++
  ofMatches content arrowPattern .arrow 5

/-- An initializer that stands elsewhere than at the start of a line. -/
def looseInitializer (content : String) (found : List Landmark) : List Landmark :=
  if (Text.contains content "initialize()" || Text.contains content "initialize (") &&
      !found.any (·.name == "initialize") then
    match positionOf content "initialize" with
    | some p => let line := lineAt content p; [⟨.special, "initialize", line, line + 3, some line⟩]
    | none => []
  else []

/-- A counter method, whose line is estimated from its position. -/
def counterMethod (content : String) : List Landmark :=
  match positionOf content "getCount" with
  | some p => [⟨.static, "getCount", p / 40 + 1, p / 40 + 5, some (p / 40 + 1)⟩]
  | none => []

/-- The first definition of a name, if the text happens to be Python. -/
def elementOf (content name : String) : List Landmark :=
  match Element.find content ⟨name⟩ false {} with
  | .ok (e :: _) => [⟨.element, name, e.span.first, e.span.last, none⟩]
  | _ => []

/-- What else is looked for in a script in which the patterns have found nothing. -/
def scriptRemains (content : String) : List Landmark :=
  let unlined (ls : List Landmark) : List Landmark := ls.map fun l => { l with line := none }
  (bindingPattern.findAll content).flatMap (fun f => elementOf content (f.group 1)) ++
  unlined (ofMatches content methodPattern .method 5 ++
    ofMatches content bindingPattern .function 5 ++
    ofMatches content decoratorPattern .decorator 0 ++
    ofMatches content (literal "@classmethod") .decorator 3 (fun _ => "classmethod") ++
    ofMatches content initializerPattern .special 3 (fun _ => "initialize"))

/-- The landmarks of a script. -/
def ofScript (content : String) : List Landmark :=
  let matched := scriptMatches content
  let found := matched ++ looseInitializer content matched ++ counterMethod content
  if found.isEmpty then scriptRemains content else found

/-- The extensions of scripts. -/
def scriptExtensions : List String := [".js", ".jsx", ".ts", ".tsx"]

/-- The landmarks of a text by the extension of its file. -/
def ofText (content extension : String) : List Landmark :=
  let extension := Text.lower extension
  if scriptExtensions.contains extension then ofScript content
  else if extension == ".py" then ofPython content
  else []

/-- The name of a kind in records. -/
def label : LandmarkKind → String
  | .definition .function _ => "FunctionDef"
  | .definition .asyncFunction _ => "AsyncFunctionDef"
  | .definition .objectClass _ => "ClassDef"
  | .decorator => "Decorator"
  | .classHead => "ClassDef"
  | .special => "SpecialMethod"
  | .static => "StaticMethod"
  | .method => "MethodDef"
  | .function => "FunctionDef"
  | .arrow => "ArrowFunction"
  | .element => "ASTParserElement"

/-- A landmark as a record. -/
def toValue (l : Landmark) : Value :=
  let decorators : List (String × Value) :=
    match l.kind with
    | .definition _ [] => [("has_decorators", .bool false)]
    | .definition _ ds =>
      [("has_decorators", .bool true), ("decorators", .list ((ds.filterMap id).map .str))]
    | _ => []
  .record <| [("type", .str (label l.kind)), ("name", .str l.name)] ++ decorators ++
    (match l.line with | some n => [("line", .int n)] | none => []) ++
    [("start_line", .int l.start), ("end_line", .int l.finish)]

end Landmark

end CodeAtlas
