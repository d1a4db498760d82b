import CodeAtlas.Grammar.Expression

/-!
# Patterns of match statements

A reader that decides whether the pattern of a case is well formed.
-/

namespace CodeAtlas.Grammar.Pattern

open Reader Expression

/-- An identifier that captures a value: not the wildcard, and not the start of something longer. -/
def capture : Reader Unit := do
  let t ← token Token.isIdentifier
  require (t.text != "_")
  require (!(← next fun t => t.isOp "." || t.isOp "(" || t.isOp "="))

/-- A dotted name with at least the given number of dots. -/
def dotted (least : Nat) : Reader Unit := do
  let _ ← identifier
  let more ← many (do op "."; identifier)
  require (least ≤ more.length)

/-- A number with an optional sign, and an imaginary part added or subtracted. -/
def number (d : Dialect) : Reader Unit := do
  let _ ← skipOp "-"
  let real ← Expression.number d
  if ← next fun t => t.isOp "+" || t.isOp "-" then
    let _ ← token fun _ => true
    let imaginary ← Expression.number d
    require (!Literal.isImaginary real.text && Literal.isImaginary imaginary.text)

/-- Whether a literal comes next. -/
def atLiteral : Reader Bool := next fun t =>
  t.kind == .number || t.kind == .string || t.isOp "-" ||
    t.isWord "None" || t.isWord "True" || t.isWord "False"

/-- A literal value. -/
def literal (d : Dialect) (sub : Below) : Reader Unit := do
  if ← next (·.kind == .string) then texts d sub
  else if ← next fun t => t.isWord "None" || t.isWord "True" || t.isWord "False" then
    discard (token fun _ => true)
  else number d

/-- A pattern, or a starred name or wildcard. -/
def starPattern (below : Reader Unit) : Reader Unit := do
  if ← skipOp "*" then
    if ← atWord "_" then word "_" else capture
  else below

/-- The members of a sequence up to its closing mark, and whether there was a comma. -/
def sequenceMembers (below : Reader Unit) : Reader (Nat × Bool) := do
  let members ← commaSeparated (starPattern below)
  let trailing ← skipOp ","
  return (members.length, 1 < members.length || trailing)

/-- A pattern in parentheses, or a sequence in them. -/
def grouped (below : Reader Unit) : Reader Unit := do
  op "("
  if ← skipOp ")" then return
  let starred ← atOp "*"
  let (_, comma) ← sequenceMembers below
  require (comma || !starred)
  op ")"

/-- A sequence in square brackets. -/
def listed (below : Reader Unit) : Reader Unit := do
  op "["
  if ← skipOp "]" then return
  let _ ← sequenceMembers below
  op "]"

/-- An entry of a mapping; the answer says whether it takes the rest of the mapping. -/
def mappingEntry (d : Dialect) (sub : Below) (below : Reader Unit) : Reader Bool := do
  if ← skipOp "**" then
    capture
    return true
  if ← atLiteral then literal d sub else dotted 1
  op ":"
  below
  return false

/-- A mapping; only its last entry may take the rest. -/
def mapping (d : Dialect) (sub : Below) (below : Reader Unit) : Reader Unit := do
  op "\x7b"
  if ← skipOp "\x7d" then return
  let entries ← commaSeparated (mappingEntry d sub below)
  let _ ← skipOp ","
  op "\x7d"
  require (!entries.dropLast.contains true)

/-- An argument of a class pattern; the answer says whether it is a keyword. -/
def classArgument (below : Reader Unit) : Reader Bool := do
  if ← nextTwo Token.isIdentifier (·.isOp "=") then
    let _ ← identifier
    op "="
    below
    return true
  below
  return false

/-- A class pattern or a value: a dotted name, alone or with arguments.  Keywords come last. -/
def classOrValue (below : Reader Unit) : Reader Unit := do
  if ← attempt (do dotted 0; op "(") then
    if ← skipOp ")" then return
    let arguments ← commaSeparated (classArgument below)
    let _ ← skipOp ","
    op ")"
    require (!(arguments.dropWhile (!·)).contains false)
  else
    dotted 1
    require (!(← next fun t => t.isOp "="))
where
  /-- Whether a reading succeeds, consuming only then. -/
  attempt (p : Reader Unit) : Reader Bool := do return (← Reader.attempt p).isSome

/-- A pattern without alternatives. -/
def closed (d : Dialect) (sub : Below) (below : Reader Unit) : Reader Unit := do
  if ← atLiteral then literal d sub
  else if ← atOp "(" then grouped below
  else if ← atOp "[" then listed below
  else if ← atOp "\x7b" then mapping d sub below
  else if ← atWord "_" then word "_"
  else match ← attempt capture with
    | some _ => return
    | none => classOrValue below

/-- Alternatives, and a name for what matched. -/
def pattern (d : Dialect) (sub : Below) (below : Reader Unit) : Reader Unit := do
  closed d sub below
  let _ ← many (do op "|"; closed d sub below)
  if ← skipWord "as" then capture

/-- Reads a pattern whose nesting is less than the given depth. -/
def read (d : Dialect) (sub : Below) : Nat → Reader Unit
  | 0 => failure
  | depth + 1 => pattern d sub (read d sub depth)

/-- The patterns of a case: one pattern, or a sequence without brackets. -/
def readTop (d : Dialect) (sub : Below) (depth : Nat) : Reader Unit := do
  let starred ← atOp "*"
  let (_, comma) ← sequenceMembers (read d sub depth)
  require (comma || !starred)

end CodeAtlas.Grammar.Pattern
