import CodeAtlas.Grammar.Match
import CodeAtlas.Text.Lines

/-!
# Statements of Python source

The reader of whole modules.  It accepts exactly the sources that have a statement tree in the given
language version; names that are used twice, misplaced `return`s and the like are no concern of it.
-/

namespace CodeAtlas.Grammar

namespace Statement

open Reader Expression

/-- A value on the right of an assignment. -/
def assigned (ex : Below) : Reader Expr := do
  if ← atWord "yield" then yielding ex else starExpressions ex

/-- Signs that combine an operation with an assignment. -/
def augmentedOperators : List String :=
  ["+=", "-=", "*=", "@=", "/=", "%=", "&=", "|=", "^=", "<<=", ">>=", "**=", "//="]

/-- The rest of a chain of assignments: every value followed by a further sign is a target. -/
def assignmentChain (ex : Below) : Nat → Expr → Reader (List Expr)
  | 0, _ => failure
  | fuel + 1, target => do
    require target.isStarTarget
    op "="
    let value ← assigned ex
    if ← atOp "=" then return target :: (← assignmentChain ex fuel value)
    let _ ← skipKind .typeComment
    return [target]

/-- A statement that starts with an expression: an assignment of some kind, or the expression. -/
def expressionStatement (d : Dialect) (ex : Below) (first : Nat) : Reader Node := do
  let e ← starExpressions ex
  if ← skipOp ":" then
    require (e.isPlace && 6 ≤ d.minor)
    let _ ← ex .expression
    if ← skipOp "=" then
      let _ ← assigned ex
    return .annotated ⟨first, ← lastLine⟩ e
  if ← atOp "=" then
    let targets ← sized fun n => assignmentChain ex n e
    return .assignment ⟨first, ← lastLine⟩ targets
  if ← next fun t => augmentedOperators.any t.isOp then
    let t ← token fun _ => true
    require (e.isPlace && (5 ≤ d.minor || t.text != "@="))
    let _ ← assigned ex
    return .simple ⟨first, ← lastLine⟩
  return .simple ⟨first, ← lastLine⟩

/-- Identifiers joined by dots. -/
def dottedName : Reader String := do
  let first ← identifier
  let more ← many (do op "."; identifier)
  return ".".intercalate (first :: more)

/-- The name given to something imported: its alias, if it has one. -/
def aliased (name : Reader String) : Reader String := do
  let n ← name
  if ← skipWord "as" then identifier else return n

/-- The names taken from a module: all, or a list that may stand in parentheses. -/
def importedNames : Reader (List String) := do
  if ← skipOp "*" then return ["*"]
  if ← skipOp "(" then
    let names ← commaSeparated (aliased identifier)
    let _ ← skipOp ","
    op ")"
    return names
  let names ← commaSeparated (aliased identifier)
  require (!(← atOp ","))
  return names

/-- An import from a module, which may be given relative to this one. -/
def importFrom (first : Nat) : Reader Node := do
  word "from"
  let dots ← many (token fun t => t.isOp "." || t.isOp "...")
  let source ← if ← atWord "import" then do require (!dots.isEmpty); pure "" else dottedName
  word "import"
  let names ← importedNames
  return .importsFrom ⟨first, ← lastLine⟩ source names

/-- One statement on a line. -/
def simple (d : Dialect) (ex : Below) : Reader Node := do
  let first ← line
  let done : Reader Node := do return .simple ⟨first, ← lastLine⟩
  if ← skipWord "return" then
    let _ ← attempt (starExpressions ex)
    done
  else if ← skipWord "import" then
    let names ← commaSeparated (aliased dottedName)
    return .imports ⟨first, ← lastLine⟩ names
  else if ← atWord "from" then importFrom first
  else if ← skipWord "raise" then
    if (← attempt (ex .expression)).isSome then
      if ← skipWord "from" then
        let _ ← ex .expression
    done
  else if ← skipWord "pass" then done
  else if ← skipWord "break" then done
  else if ← skipWord "continue" then done
  else if ← skipWord "del" then
    let _ ← commaSeparated (do require (← ex .primary).isDeletable)
    let _ ← skipOp ","
    done
  else if ← atWord "yield" then
    let _ ← yielding ex
    done
  else if ← skipWord "assert" then
    let _ ← ex .expression
    if ← skipOp "," then
      let _ ← ex .expression
    done
  else if ← skipWord "global" then
    let names ← commaSeparated identifier
    return .globals ⟨first, ← lastLine⟩ names
  else if ← skipWord "nonlocal" then
    let _ ← commaSeparated identifier
    done
  else expressionStatement d ex first

/-- The statements of one logical line. -/
def simples (d : Dialect) (ex : Below) : Reader (List Node) := do
  let first ← simple d ex
  let more ← many (do op ";"; simple d ex)
  let _ ← skipOp ";"
  kind .newline
  return first :: more

/-- A block: statements on the same line, or indented below it. -/
def block (d : Dialect) (ex : Below) (below : Reader (List Node)) : Reader (List Node) := do
  if ← skipKind .newline then
    kind .indent
    let nodes ← many1 below
    kind .dedent
    return nodes.flatten
  else simples d ex

/-- An optional block after a word. -/
def wordBlock (d : Dialect) (ex : Below) (below : Reader (List Node)) (keyword : String) :
    Reader (List Node) := do
  if ← skipWord keyword then
    op ":"
    block d ex below
  else return []

/-- The comment that gives the type of a function, at the end of its header or on the line below. -/
def functionComment : Reader Unit := do
  unless ← skipKind .typeComment do
    let _ ← attempt (do
      kind .newline
      kind .typeComment
      require (← nextTwo (·.kind == .newline) (·.kind == .indent)))

/-- A function, with the kind its first word gives it. -/
def function (d : Dialect) (ex : Below) (below : Reader (List Node)) (first : Nat)
    (kind : DefinitionKind) (decorators : List Expr) : Reader Node := do
  word "def"
  let name ← identifier
  op "("
  parameters d ex true ")"
  op ")"
  if ← skipOp "->" then
    let _ ← ex .expression
  op ":"
  functionComment
  let body ← block d ex below
  return .definition ⟨first, ← lastLine⟩ kind name decorators body

/-- A class. -/
def classDefinition (d : Dialect) (ex : Below) (below : Reader (List Node)) (first : Nat)
    (decorators : List Expr) : Reader Node := do
  word "class"
  let name ← identifier
  if ← skipOp "(" then arguments d ex false
  op ":"
  let body ← block d ex below
  return .definition ⟨first, ← lastLine⟩ .objectClass name decorators body

/-- A loop over the members of something. -/
def forLoop (d : Dialect) (ex : Below) (below : Reader (List Node)) (first : Nat) : Reader Node := do
  word "for"
  targets ex
  word "in"
  let _ ← starExpressions ex
  op ":"
  let _ ← skipKind .typeComment
  let body ← block d ex below
  let alternative ← wordBlock d ex below "else"
  return .compound ⟨first, ← lastLine⟩ (body ++ alternative)

/-- One context of a `with` statement. -/
def context (ex : Below) : Reader Unit := do
  let _ ← ex .expression
  if ← skipWord "as" then
    oneTarget ex
    require (← next fun t => t.isOp "," || t.isOp ")" || t.isOp ":")

/-- The contexts in parentheses, up to the colon. -/
def parenthesizedContexts (ex : Below) : Reader Unit := do
  op "("
  let _ ← commaSeparated (context ex)
  let _ ← skipOp ","
  op ")"
  op ":"
  require (!(← next (·.kind == .typeComment)))

/-- A block in one or several contexts.  Parentheses around them came with 3.9. -/
def withBlock (d : Dialect) (ex : Below) (below : Reader (List Node)) (first : Nat)
    (isAsync : Bool) : Reader Node := do
  word "with"
  if (← attempt (parenthesizedContexts ex)).isSome then require (isAsync || 9 ≤ d.minor)
  else
    let _ ← commaSeparated (context ex)
    op ":"
    let _ ← skipKind .typeComment
  let body ← block d ex below
  return .compound ⟨first, ← lastLine⟩ body

/-- A statement after the word `async`, which came with 3.5. -/
def asyncStatement (d : Dialect) (ex : Below) (below : Reader (List Node))
    (decorators : List Expr) : Reader Node := do
  let first ← line
  kind .asyncKeyword
  require (5 ≤ d.minor)
  if ← atWord "def" then function d ex below first .asyncFunction decorators
  else
    require decorators.isEmpty
    if ← atWord "for" then forLoop d ex below first else withBlock d ex below first true

/-- A definition after its decorators. -/
def decorated (d : Dialect) (ex : Below) (below : Reader (List Node)) : Reader Node := do
  let decorators ← many1 (do
    op "@"
    let e ← named d ex
    kind .newline
    return e)
  let first ← line
  if ← next (·.kind == .asyncKeyword) then
    require (← nextTwo (fun _ => true) (·.isWord "def"))
    asyncStatement d ex below decorators
  else if ← atWord "class" then classDefinition d ex below first decorators
  else function d ex below first .function decorators

/-- A choice: each further condition is a statement below the one before it. -/
def choice (d : Dialect) (ex : Below) (below : Reader (List Node)) (first : Nat) : Reader Node := do
  word "if"
  let _ ← named d ex
  op ":"
  let body ← block d ex below
  let others ← many (do
    let line ← line
    word "elif"
    let _ ← named d ex
    op ":"
    return (line, ← block d ex below))
  let alternative ← wordBlock d ex below "else"
  let last ← lastLine
  let nested := others.foldr (fun (line, body) inner => [.compound ⟨line, last⟩ (body ++ inner)]) alternative
  return .compound ⟨first, last⟩ (body ++ nested)

/-- A loop as long as a condition holds. -/
def whileLoop (d : Dialect) (ex : Below) (below : Reader (List Node)) (first : Nat) : Reader Node := do
  word "while"
  let _ ← named d ex
  op ":"
  let body ← block d ex below
  let alternative ← wordBlock d ex below "else"
  return .compound ⟨first, ← lastLine⟩ (body ++ alternative)

/-- A handler of an exception, or of a group of exceptions. -/
def handler (d : Dialect) (ex : Below) (below : Reader (List Node)) (group : Bool) : Reader Node := do
  word "except"
  if group then op "*"
  if group || !(← atOp ":") then
    let _ ← ex .expression
    if ← skipWord "as" then
      let _ ← identifier
  op ":"
  return .clause (← block d ex below)

/-- A guarded block with its handlers.  Handlers of groups came with 3.11. -/
def guarded (d : Dialect) (ex : Below) (below : Reader (List Node)) (first : Nat) : Reader Node := do
  word "try"
  op ":"
  let body ← block d ex below
  if ← atWord "finally" then
    let final ← wordBlock d ex below "finally"
    return .compound ⟨first, ← lastLine⟩ (body ++ final)
  let group ← nextTwo (·.isWord "except") (·.isOp "*")
  require (!group || 11 ≤ d.minor)
  let handlers ← many1 (handler d ex below group)
  let alternative ← wordBlock d ex below "else"
  let final ← wordBlock d ex below "finally"
  return .compound ⟨first, ← lastLine⟩ (body ++ handlers ++ alternative ++ final)

/-- The header of a match statement.  The word is an identifier elsewhere, so the header has to be
seen whole before the statement is taken for one. -/
def matchHeader (d : Dialect) (ex : Below) : Reader Unit := do
  word "match"
  let starred ← atOp "*"
  let more ← commaSeparated (starNamed d ex)
  let trailing ← skipOp ","
  require (!starred || 1 < more.length || trailing)
  op ":"
  kind .newline

/-- One case of a match statement. -/
def matchCase (d : Dialect) (ex : Below) (below : Reader (List Node)) (depth : Nat) : Reader Node := do
  word "case"
  Pattern.readTop d ex depth
  if ← skipWord "if" then
    let _ ← named d ex
  op ":"
  return .clause (← block d ex below)

/-- The cases of a match statement, which came with 3.10. -/
def matchCases (d : Dialect) (ex : Below) (below : Reader (List Node)) (first depth : Nat) :
    Reader Node := do
  require (10 ≤ d.minor)
  kind .indent
  let cases ← many1 (matchCase d ex below depth)
  kind .dedent
  return .compound ⟨first, ← lastLine⟩ cases

/-- A statement: a compound one, or those of one logical line. -/
def statement (d : Dialect) (ex : Below) (depth : Nat) (below : Reader (List Node)) :
    Reader (List Node) := do
  let first ← line
  if ← atOp "@" then return [← decorated d ex below]
  if ← next (·.kind == .asyncKeyword) then return [← asyncStatement d ex below []]
  if ← atWord "def" then return [← function d ex below first .function []]
  if ← atWord "class" then return [← classDefinition d ex below first []]
  if ← atWord "if" then return [← choice d ex below first]
  if ← atWord "for" then return [← forLoop d ex below first]
  if ← atWord "while" then return [← whileLoop d ex below first]
  if ← atWord "with" then return [← withBlock d ex below first false]
  if ← atWord "try" then return [← guarded d ex below first]
  if ← atWord "match" then
    if (← attempt (matchHeader d ex)).isSome then
      return [← matchCases d ex below first depth]
  simples d ex

/-- Reads a statement whose blocks nest less than the given depth. -/
def read (d : Dialect) (ex : Below) (exprDepth : Nat) : Nat → Reader (List Node)
  | 0 => failure
  | depth + 1 => statement d ex exprDepth (read d ex exprDepth depth)

/-- A whole module: statements up to the end. -/
def wholeModule (d : Dialect) (depth : Nat) : Reader (List Node) := do
  let nodes ← many (read d (Expression.read d depth) depth depth)
  kind .endMarker
  return nodes.flatten

end Statement

/-- The statement tree of a source text, if it has one.  Its length bounds every nesting in it. -/
def parse? (d : Dialect) (source : String) : Option (List Node) := do
  let chars := Text.foldNewlineChars source.toList
  let tokens ← Token.scan d chars
  let (nodes, _) ← (Statement.wholeModule d (chars.length + 2)).run ⟨tokens, 0⟩
  return nodes

end CodeAtlas.Grammar
