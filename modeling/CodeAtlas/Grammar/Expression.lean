import CodeAtlas.Grammar.Cursor
import CodeAtlas.Grammar.Literal
import CodeAtlas.Grammar.Tree

/-!
# Expressions of Python source

A reader of expressions that decides well-formedness and keeps the shapes of `Expr`.  How tightly
operators bind decides nothing of that, so operators of the same position in a chain are read by
one rule.

Expressions nest only inside of brackets, after `lambda` and after `else`, each of which consumes a
token first; `Expression.read` ties the knot by counting the nesting down.

## Main definitions

* `Goal` — the rules that can be asked for one level deeper
* `Expression.read` — the reader of a goal up to a nesting depth
-/

namespace CodeAtlas.Grammar

/-- The rules of the expression grammar that occur inside of other expressions. -/
inductive Goal
  | expression | disjunction | operand | primary

/-- The reader of each goal, one level deeper. -/
abbrev Below := Goal → Reader Expr

namespace Expression

open Reader

/-- An expression, or a starred operand. -/
def starExpression (sub : Below) : Reader Expr := do
  let line ← line
  if ← skipOp "*" then return .starred line (← sub .operand) else sub .expression

/-- One expression, or several with commas, which make a tuple. -/
def starExpressions (sub : Below) : Reader Expr := do
  let line ← line
  let first ← starExpression sub
  let more ← many (do op ","; starExpression sub)
  let trailing ← skipOp ","
  return if more.isEmpty && !trailing then first else .sequence line (first :: more)

/-- Whether the source of an expression inside of a replacement field is well formed; it is read as
if it stood in parentheses. -/
def isEmbedded (d : Dialect) (sub : Below) (source : List Char) : Bool :=
  match Token.scan d (['('] ++ source ++ [')']) with
  | some tokens => ((starExpressions sub).run ⟨tokens, 0⟩).isSome
  | none => false

/-- Adjacent quoted texts. -/
def texts (d : Dialect) (sub : Below) : Reader Unit := do
  let lexemes ← many1 (token (·.kind == .string))
  match Literal.texts? d (lexemes.map Token.text) with
  | some sources => require (sources.all (isEmbedded d sub))
  | none => failure

/-- A number that the version accepts. -/
def number (d : Dialect) : Reader Token := do
  let t ← token (·.kind == .number)
  require (Literal.numberAllowed d t.text)
  return t

/-- Whether an assignment expression comes next. -/
def atNamed : Reader Bool := nextTwo Token.isIdentifier (·.isOp ":=")

/-- An expression that may name its value, which came with 3.8. -/
def named (d : Dialect) (sub : Below) : Reader Expr := do
  if ← atNamed then
    let line ← line
    let _ ← identifier
    op ":="
    require (8 ≤ d.minor)
    let _ ← sub .expression
    return .other line
  else sub .expression

/-- A member of a display: a starred operand or an expression that may name its value. -/
def starNamed (d : Dialect) (sub : Below) : Reader Expr := do
  let line ← line
  if ← skipOp "*" then return .starred line (← sub .operand) else named d sub

/-- The target of a loop: places, sequences of them, and starred ones. -/
def starTarget (sub : Below) : Reader Expr := do
  let line ← line
  if ← skipOp "*" then return .starred line (← sub .primary) else sub .primary

/-- One target that can be assigned to. -/
def oneTarget (sub : Below) : Reader Unit := do
  require (← starTarget sub).isStarTarget

/-- Targets with commas, all of which can be assigned to. -/
def targets (sub : Below) : Reader Unit := do
  let _ ← commaSeparated (oneTarget sub)
  let _ ← skipOp ","

/-- A loop inside of a comprehension, with its conditions.  Asynchronous ones came with 3.6. -/
def loopClause (d : Dialect) (sub : Below) : Reader Unit := do
  if ← skipKind .asyncKeyword then require (6 ≤ d.minor)
  word "for"
  targets sub
  word "in"
  let _ ← sub .disjunction
  let _ ← many (do word "if"; sub .disjunction)

/-- Whether a loop of a comprehension comes next. -/
def atLoop : Reader Bool := next fun t => t.isWord "for" || t.kind == .asyncKeyword

/-- The loops of a comprehension. -/
def loops (d : Dialect) (sub : Below) : Reader Unit := discard (many1 (loopClause d sub))

/-- An expression without a star on it. -/
def isPlain : Expr → Bool
  | .starred _ _ => false
  | _ => true

/-- A value handed out of a generator, where it may stand. -/
def yielding (sub : Below) : Reader Expr := do
  let line ← line
  word "yield"
  if ← skipWord "from" then
    let _ ← sub .expression
  else
    let _ ← attempt (starExpressions sub)
  return .other line

/-- The rest of a display after its first member, up to the closing bracket. -/
def members (d : Dialect) (sub : Below) (first : Expr) (close : String) : Reader (List Expr) := do
  let more ← many (do op ","; starNamed d sub)
  let _ ← skipOp ","
  op close
  return first :: more

/-- What stands in parentheses: a group, a tuple, or a generator. -/
def parenthesized (d : Dialect) (sub : Below) : Reader Expr := do
  let line ← line
  op "("
  if ← skipOp ")" then return .sequence line []
  if ← atWord "yield" then
    let e ← yielding sub
    op ")"
    return e
  let first ← starNamed d sub
  if ← atLoop then
    require (isPlain first)
    loops d sub
    op ")"
    return .other line
  if ← atOp "," then return .sequence line (← members d sub first ")")
  op ")"
  require (isPlain first)
  return first

/-- What stands in square brackets: a list or a comprehension. -/
def bracketed (d : Dialect) (sub : Below) : Reader Expr := do
  let line ← line
  op "["
  if ← skipOp "]" then return .sequence line []
  let first ← starNamed d sub
  if ← atLoop then
    require (isPlain first)
    loops d sub
    op "]"
    return .other line
  return .sequence line (← members d sub first "]")

/-- An entry of a dictionary. -/
def entry (sub : Below) : Reader Unit := do
  if ← skipOp "**" then
    let _ ← sub .operand
  else
    let _ ← sub .expression
    op ":"
    let _ ← sub .expression

/-- The rest of a dictionary after its first entry. -/
def entries (sub : Below) : Reader Unit := do
  let _ ← many (do op ","; entry sub)
  let _ ← skipOp ","
  op "\x7d"

/-- What stands in braces: a dictionary, a set, or a comprehension of either. -/
def braced (d : Dialect) (sub : Below) : Reader Expr := do
  let line ← line
  op "\x7b"
  if ← skipOp "\x7d" then return .other line
  if ← atOp "**" then
    entry sub
    entries sub
    return .other line
  let naming ← atNamed
  let first ← starNamed d sub
  if isPlain first && !naming then
    if ← skipOp ":" then
      let _ ← sub .expression
      if ← atLoop then
        loops d sub
        op "\x7d"
      else entries sub
      return .other line
  if ← atLoop then
    require (isPlain first)
    loops d sub
    op "\x7d"
  else
    let _ ← members d sub first "\x7d"
  return .other line

/-- The smallest expressions. -/
def atom (d : Dialect) (sub : Below) : Reader Expr := do
  let line ← line
  if ← next Token.isIdentifier then return .name line (← identifier)
  if ← next fun t => t.isWord "True" || t.isWord "False" || t.isWord "None" || t.isOp "..." then
    let _ ← token fun _ => true
    return .other line
  if ← next (·.kind == .string) then
    texts d sub
    return .other line
  if ← next (·.kind == .number) then
    let _ ← number d
    return .other line
  if ← atOp "(" then return ← parenthesized d sub
  if ← atOp "[" then return ← bracketed d sub
  if ← atOp "\x7b" then return ← braced d sub
  failure

/-- The kinds of arguments of a call. -/
inductive Argument
  | positional | starred | keyword | doubleStarred
  deriving DecidableEq

/-- The order of arguments: no positional one after a keyword, and after a doubly starred one only
keywords and doubly starred ones. -/
def argumentsOrdered (keywordSeen doubleSeen : Bool) : List Argument → Bool
  | [] => true
  | .positional :: rest => !keywordSeen && !doubleSeen && argumentsOrdered false false rest
  | .starred :: rest => !doubleSeen && argumentsOrdered keywordSeen false rest
  | .keyword :: rest => argumentsOrdered true doubleSeen rest
  | .doubleStarred :: rest => argumentsOrdered true true rest

/-- One argument of a call. -/
def argument (d : Dialect) (sub : Below) : Reader Argument := do
  if ← skipOp "*" then
    let _ ← sub .expression
    return .starred
  if ← skipOp "**" then
    let _ ← sub .expression
    return .doubleStarred
  if ← nextTwo Token.isIdentifier (·.isOp "=") then
    let _ ← identifier
    op "="
    let _ ← sub .expression
    return .keyword
  let _ ← named d sub
  return .positional

/-- Arguments up to the closing parenthesis.  Where allowed, a generator may be the only one. -/
def arguments (d : Dialect) (sub : Below) (generator : Bool) : Reader Unit := do
  if ← skipOp ")" then return
  let first ← argument d sub
  if generator && first == .positional && (← atLoop) then
    loops d sub
    op ")"
  else
    let more ← many (do op ","; argument d sub)
    let _ ← skipOp ","
    op ")"
    require (argumentsOrdered false false (first :: more))

/-- An optional bound of a slice. -/
def bound (sub : Below) : Reader Unit := do
  if ← next fun t => t.isOp ":" || t.isOp "," || t.isOp "]" then return
  let _ ← sub .expression

/-- An index or a slice. -/
def slice (d : Dialect) (sub : Below) : Reader Unit := do
  if ← skipOp "*" then
    let _ ← sub .expression
    return
  let naming ← atNamed
  unless ← atOp ":" do
    let _ ← named d sub
  unless naming do
    if ← skipOp ":" then
      bound sub
      if ← skipOp ":" then bound sub

/-- What may follow an atom: attributes, calls and subscripts, as changes of shape. -/
def suffix (d : Dialect) (sub : Below) (line : Nat) : Reader (Expr → Expr) := do
  if ← skipOp "." then
    let _ ← identifier
    return fun _ => .part line
  if ← skipOp "(" then
    arguments d sub true
    return fun e => .call line e
  op "["
  let _ ← commaSeparated (slice d sub)
  let _ ← skipOp ","
  op "]"
  return fun _ => .part line

/-- An atom with what follows it. -/
def primary (d : Dialect) (sub : Below) : Reader Expr := do
  let line ← line
  let e ← atom d sub
  return (← many (suffix d sub line)).foldl (fun e f => f e) e

/-- An operator between operands. -/
def binaryOperators : List String :=
  ["|", "^", "&", "<<", ">>", "+", "-", "*", "/", "//", "%", "@", "**"]

/-- A primary with signs in front of it, or one that is awaited. -/
def factor (d : Dialect) (sub : Below) : Reader Expr := do
  let line ← line
  let signs ← many (token fun t => t.isOp "+" || t.isOp "-" || t.isOp "~")
  let awaited ← skipKind .awaitKeyword
  require (!awaited || 5 ≤ d.minor)
  let e ← primary d sub
  return if signs.isEmpty && !awaited then e else .other line

/-- Operands joined by arithmetic and bit operators. -/
def operand (d : Dialect) (sub : Below) : Reader Expr := do
  let line ← line
  let first ← factor d sub
  let more ← many (do
    let t ← token fun t => binaryOperators.any t.isOp
    require (5 ≤ d.minor || t.text != "@")
    factor d sub)
  return if more.isEmpty then first else .other line

/-- A comparison sign. -/
def comparison : Reader Unit := do
  if ← skipWord "not" then word "in"
  else if ← skipWord "is" then
    let _ ← skipWord "not"
  else discard (token fun t =>
    t.isWord "in" || ["==", "!=", "<=", "<", ">=", ">"].any t.isOp)

/-- Operands compared with each other, after any number of negations. -/
def comparisons (d : Dialect) (sub : Below) : Reader Expr := do
  let line ← line
  let negations ← many (word "not")
  let first ← operand d sub
  let more ← many (do comparison; operand d sub)
  return if negations.isEmpty && more.isEmpty then first else .other line

/-- Comparisons joined by `and` and `or`. -/
def disjunction (d : Dialect) (sub : Below) : Reader Expr := do
  let line ← line
  let first ← comparisons d sub
  let more ← many (do
    let _ ← token fun t => t.isWord "and" || t.isWord "or"
    comparisons d sub)
  return if more.isEmpty then first else .other line

/-- The kinds of entries in a parameter list. -/
inductive Parameter
  | plain (hasDefault : Bool) | slash | bareStar | starred | doubleStarred
  deriving DecidableEq

/-- After a star: parameters with or without default, then at most one doubly starred. -/
def keywordOnlyOrdered : List Parameter → Bool
  | [] => true
  | .plain _ :: rest => keywordOnlyOrdered rest
  | [.doubleStarred] => true
  | _ => false

/-- The order of parameters before a star: defaults come last, a slash comes at most once and not
first. -/
def parametersOrdered (any defaulted slashed : Bool) : List Parameter → Bool
  | [] => true
  | .plain hasDefault :: rest =>
    (hasDefault || !defaulted) && parametersOrdered true hasDefault slashed rest
  | .slash :: rest => any && !slashed && parametersOrdered any defaulted true rest
  | .starred :: rest => keywordOnlyOrdered rest
  | .bareStar :: .plain hasDefault :: rest => keywordOnlyOrdered (.plain hasDefault :: rest)
  | .bareStar :: _ => false
  | [.doubleStarred] => true
  | .doubleStarred :: _ => false

/-- One entry of a parameter list.  Annotations occur in definitions only. -/
def parameter (sub : Below) (annotated : Bool) : Reader Parameter := do
  if ← skipOp "/" then return .slash
  if ← skipOp "**" then
    let _ ← identifier
    if annotated then
      if ← skipOp ":" then let _ ← sub .expression
    return .doubleStarred
  if ← skipOp "*" then
    if ← next Token.isIdentifier then
      let _ ← identifier
      if annotated then
        if ← skipOp ":" then let _ ← starExpression sub
      return .starred
    return .bareStar
  let _ ← identifier
  if annotated then
    if ← skipOp ":" then let _ ← sub .expression
  if ← skipOp "=" then
    let _ ← sub .expression
    return .plain true
  return .plain false

/-- An entry that may carry a type comment. -/
def Parameter.mayBeCommented : Parameter → Bool
  | .slash | .bareStar => false
  | _ => true

/-- A parameter list up to its closing mark, which is left.  Every entry is followed by a comma or
by the closing mark; a type comment may follow the comma or precede the mark. -/
def parametersUpTo (sub : Below) (annotated : Bool) (close : String) : Nat → Reader (List Parameter)
  | 0 => failure
  | fuel + 1 => do
    if ← atOp close then return []
    let p ← parameter sub annotated
    if ← skipOp "," then
      if annotated && p.mayBeCommented then
        let _ ← skipKind .typeComment
      return p :: (← parametersUpTo sub annotated close fuel)
    if annotated && p.mayBeCommented then
      let _ ← skipKind .typeComment
    require (← atOp close)
    return [p]

/-- A parameter list; positional-only parameters came with 3.8. -/
def parameters (d : Dialect) (sub : Below) (annotated : Bool) (close : String) : Reader Unit := do
  let ps ← sized fun n => parametersUpTo sub annotated close (n + 1)
  require (parametersOrdered false false false ps)
  require (8 ≤ d.minor || !ps.contains .slash)

/-- An anonymous function. -/
def lambda (d : Dialect) (sub : Below) : Reader Expr := do
  let line ← line
  word "lambda"
  parameters d sub false ":"
  op ":"
  let _ ← sub .expression
  return .other line

/-- A full expression: an anonymous function, a choice, or a disjunction. -/
def expression (d : Dialect) (sub : Below) : Reader Expr := do
  if ← atWord "lambda" then return ← lambda d sub
  let line ← line
  let e ← disjunction d sub
  if ← skipWord "if" then
    let _ ← sub .disjunction
    word "else"
    let _ ← sub .expression
    return .other line
  return e

/-- The rule of a goal, given the rules one level deeper. -/
def rule (d : Dialect) (sub : Below) : Goal → Reader Expr
  | .expression => expression d sub
  | .disjunction => disjunction d sub
  | .operand => operand d sub
  | .primary => primary d sub

/-- Reads a goal whose nesting is less than the given depth. -/
def read (d : Dialect) : Nat → Goal → Reader Expr
  | 0, _ => failure
  | depth + 1, goal => rule d (read d depth) goal

end Expression

end CodeAtlas.Grammar
