import CodeAtlas.Text.Identifier

/-!
# Tokens of Python source

The lexical layer: a source text becomes a list of tokens, with the indentation of logical lines
made explicit and physical line numbers attached.  A text without a token list has a lexical fault;
which one is of no interest to the readers of this module, so the result is an `Option`.

## Main definitions

* `Token` — a lexeme with its kind and the lines on which it starts and ends
* `Dialect` — the language version and whether type comments are tokens
* `Token.scan` — the tokens of a source text
-/

namespace CodeAtlas.Grammar

/-- The kinds of lexemes.  Keywords are names: the grammar tells them apart by their text. -/
inductive TokenKind
  | name | number | string | operator | newline | indent | dedent | typeComment
  | asyncKeyword | awaitKeyword | endMarker
  deriving DecidableEq, Repr

/-- A lexeme with the lines on which it starts and ends. -/
structure Token where
  kind : TokenKind
  text : String
  line : Nat
  lastLine : Nat
  deriving Repr

/-- Which language is read: the minor version of Python 3, and whether comments of the form
`# type: …` are tokens. -/
structure Dialect where
  minor : Nat := 11
  typeComments : Bool := false

namespace Lexical

/-- A character that may occur in a name; those beyond ASCII are checked when the name ends. -/
def isNameChar (c : Char) : Bool := c.isAlphanum || c == '_' || 128 ≤ c.toNat

/-- A character that may begin a name. -/
def isNameStart (c : Char) : Bool := c.isAlpha || c == '_' || 128 ≤ c.toNat

/-- A hexadecimal digit. -/
def isHexDigit (c : Char) : Bool :=
  c.isDigit || ('a' ≤ c && c ≤ 'f') || ('A' ≤ c && c ≤ 'F')

/-- An octal digit. -/
def isOctDigit (c : Char) : Bool := '0' ≤ c && c ≤ '7'

/-- A binary digit. -/
def isBinDigit (c : Char) : Bool := c == '0' || c == '1'

/-- What follows a run of digits in which single underscores may stand between digits.  The
argument starts after the first digit. -/
def afterDigits (isD : Char → Bool) : List Char → Option (List Char)
  | [] => some []
  | ['_'] => none
  | '_' :: c :: rest => if isD c then afterDigits isD rest else none
  | c :: rest => if isD c then afterDigits isD rest else some (c :: rest)

/-- What follows the digits after a base mark such as `0x`: an underscore may come first. -/
def afterBased (isD : Char → Bool) (cs : List Char) : Option (List Char) :=
  match (if cs.head? == some '_' then cs.drop 1 else cs) with
  | c :: rest => if isD c then afterDigits isD rest else none
  | [] => none

/-- Whether a list of characters starts with a word that ends there. -/
def startsWithWord (word : String) (cs : List Char) : Bool :=
  word.toList.isPrefixOf cs && !((cs.drop word.length).head?.any isNameChar)

/-- Whether a number may end here: not in front of a name, except for the words that can follow a
number without a blank. -/
def numberMayEnd (cs : List Char) : Bool :=
  match cs with
  | [] => true
  | 'i' :: c :: _ => c == 'f' || c == 'n' || c == 's'
  | c :: _ =>
    !isNameChar c || ["and", "else", "for", "or", "not"].any (startsWithWord · cs)

/-- Keeps the rest of a number if the number may end in front of it. -/
def endNumber (rest : List Char) : Option (List Char) := if numberMayEnd rest then some rest else none

/-- What follows an imaginary mark, or the end of a number without one. -/
def afterImaginary (cs : List Char) : Option (List Char) :=
  match cs with
  | 'j' :: rest | 'J' :: rest => endNumber rest
  | _ => endNumber cs

/-- What follows the exponent, if there is one, and the imaginary mark. -/
def afterExponent (cs : List Char) : Option (List Char) :=
  match cs with
  | e :: rest =>
    if e == 'e' || e == 'E' then
      match rest with
      | c :: more =>
        if c == '+' || c == '-' then
          match more with
          | d :: tail => if d.isDigit then afterDigits Char.isDigit tail >>= afterImaginary else none
          | [] => none
        else if c.isDigit then afterDigits Char.isDigit more >>= afterImaginary
        else endNumber cs
      | [] => endNumber cs
    else afterImaginary cs
  | [] => some []

/-- What follows the digits of a fraction, the exponent and the imaginary mark. -/
def afterFraction (cs : List Char) : Option (List Char) :=
  match cs with
  | c :: rest => if c.isDigit then afterDigits Char.isDigit rest >>= afterExponent else afterExponent cs
  | [] => some []

/-- What follows a decimal number whose integer part starts with `first`.  An integer that starts
with a zero has no other digit. -/
def afterDecimal (first : Char) (cs : List Char) : Option (List Char) := do
  let rest ← afterDigits Char.isDigit cs
  let digits := cs.take (cs.length - rest.length)
  let leadingZero := first == '0' && digits.any fun c => c != '0' && c != '_'
  match rest with
  | '.' :: more => afterFraction more
  | c :: _ =>
    if leadingZero && !(c == 'e' || c == 'E' || c == 'j' || c == 'J') then none else afterExponent rest
  | [] => if leadingZero then none else some []

/-- What follows a number; the argument starts with a digit or with a point before a digit. -/
def afterNumber : List Char → Option (List Char)
  | '0' :: 'x' :: rest | '0' :: 'X' :: rest => afterBased isHexDigit rest >>= endNumber
  | '0' :: 'o' :: rest | '0' :: 'O' :: rest => do
    let rest ← afterBased isOctDigit rest
    if rest.head?.any Char.isDigit then none else endNumber rest
  | '0' :: 'b' :: rest | '0' :: 'B' :: rest => do
    let rest ← afterBased isBinDigit rest
    if rest.head?.any Char.isDigit then none else endNumber rest
  | '.' :: rest => afterFraction rest
  | c :: rest => afterDecimal c rest
  | [] => none

/-- What follows a text in three quotes; the argument starts after the opening quotes. -/
def afterTriple (quote : Char) : List Char → Option (List Char)
  | '\\' :: _ :: rest => afterTriple quote rest
  | a :: b :: c :: rest =>
    if a == quote && b == quote && c == quote then some rest else afterTriple quote (b :: c :: rest)
  | _ => none

/-- What follows a text in single quotes; a line end must be escaped. -/
def afterSingle (quote : Char) : List Char → Option (List Char)
  | '\\' :: _ :: rest => afterSingle quote rest
  | c :: rest =>
    if c == quote then some rest else if c == '\n' then none else afterSingle quote rest
  | [] => none

/-- What follows a quoted text that starts with its opening quote. -/
def afterQuoted : List Char → Option (List Char)
  | a :: b :: c :: rest =>
    if a == b && b == c then afterTriple a rest
    else if a == b then some (c :: rest)
    else afterSingle a (b :: c :: rest)
  | [a, b] => if a == b then some [] else none
  | _ => none

/-- The letters that may stand before a quote, in lower case. -/
def stringMarks : List String := ["", "b", "r", "u", "f", "br", "rb", "fr", "rf"]

/-- The number of letters before the opening quote, if a quoted text starts here. -/
def stringMark? (cs : List Char) : Option Nat :=
  let letters := cs.takeWhile Char.isAlpha
  let opens := match cs.drop letters.length with
    | c :: _ => c == '\'' || c == '"'
    | [] => false
  if opens && stringMarks.contains (String.ofList (letters.map Char.toLower)) then some letters.length
  else none

/-- Operators and delimiters, longer ones before their beginnings. -/
def operators : List String :=
  ["**=", "...", "//=", "<<=", ">>=",
   "!=", "%=", "&=", "**", "*=", "+=", "-=", "->", "//", "/=", ":=", "<<", "<=", "<>", "==", ">=",
   ">>", "@=", "^=", "|=",
   "(", ")", "[", "]", ":", ",", ";", "+", "-", "*", "/", "|", "&", "<", ">", "=", ".", "%", "\x7b",
   "\x7d", "~", "^", "@"]

/-- The operator at the start of a list of characters. -/
def operator? (cs : List Char) : Option String :=
  operators.find? fun op => op.toList.isPrefixOf cs

/-- The longest nesting of brackets. -/
def maxBrackets : Nat := 200

/-- The longest nesting of indented blocks, the outermost level included. -/
def maxIndents : Nat := 100

/-- Whether a closing bracket fits an opening one. -/
def bracketsFit (opening closing : Char) : Bool :=
  (opening == '(' && closing == ')') || (opening == '[' && closing == ']') ||
    (opening == '\x7b' && closing == '\x7d')

/-- The width of an indentation, counted with tab stops of eight and of one, and the width at which
the first line continuation was met (0 if none).  Also the line reached and what follows. -/
structure Indentation where
  width : Nat
  altWidth : Nat
  continued : Nat
  line : Nat
  rest : List Char

/-- Measures the white space at the start of a line. -/
def measure (width altWidth continued line : Nat) : List Char → Option Indentation
  | ' ' :: rest => measure (width + 1) (altWidth + 1) continued line rest
  | '\t' :: rest => measure ((width / 8 + 1) * 8) (altWidth + 1) continued line rest
  | '\x0c' :: rest => measure 0 0 continued line rest
  | '\\' :: '\n' :: rest =>
    if rest.isEmpty then none
    else measure width altWidth (if continued == 0 then width else continued) (line + 1) rest
  | '\\' :: _ => none
  | rest => some ⟨width, altWidth, continued, line, rest⟩

/-- Where the scanner stands. -/
structure State where
  rest : List Char
  line : Nat := 1
  atLineStart : Bool := true
  /-- Widths of the open blocks, innermost first, with both tab rules. -/
  indents : List (Nat × Nat) := []
  brackets : List Char := []
  /-- Nesting of the asynchronous function whose body is being read. -/
  asyncDepth : Option Nat := none
  /-- Whether the header of that function has ended. -/
  asyncBody : Bool := false

/-- The indentation of the innermost open block. -/
def State.indent (s : State) : Nat × Nat := s.indents.headD (0, 0)

/-- Closes blocks that are wider than `width`, counting them. -/
def closeBlocks (width : Nat) : List (Nat × Nat) → Nat × List (Nat × Nat)
  | [] => (0, [])
  | block :: rest =>
    if width < block.1 then ((closeBlocks width rest).1 + 1, (closeBlocks width rest).2)
    else (0, block :: rest)

/-- The blocks that a new logical line opens and closes: at most one opens, any number close, and
the two ways to count tabs must agree on which. -/
def reindent (line : Nat) (width altWidth : Nat) (s : State) : Option (List Token × State) :=
  let (here, altHere) := s.indent
  if width == here then if altWidth == altHere then some ([], s) else none
  else if here < width then
    if maxIndents ≤ s.indents.length + 1 then none
    else if altWidth ≤ altHere then none
    else some ([⟨.indent, "", line, line⟩], { s with indents := (width, altWidth) :: s.indents })
  else
    let (closed, indents) := closeBlocks width s.indents
    let s := { s with indents }
    if s.indent == (width, altWidth) then
      some (List.replicate closed ⟨.dedent, "", line, line⟩, s)
    else none

/-- A type comment: what follows the mark `# type: `, in which each blank stands for any number of
blanks and tabs. -/
def typeComment? (comment : List Char) : Option (List Char) :=
  let blanks := fun (cs : List Char) => cs.dropWhile fun c => c == ' ' || c == '\t'
  match comment with
  | '#' :: rest =>
    let rest := blanks rest
    if "type:".toList.isPrefixOf rest then some (blanks (rest.drop 5)) else none
  | _ => none

/-- A type comment that only silences a checker is no token. -/
def silencesChecker (comment : List Char) : Bool :=
  "ignore".toList.isPrefixOf comment &&
    !((comment.drop 6).head?.any fun c => c.isAlphanum || 128 ≤ c.toNat)

/-- Whether the word `def` comes next, on the same logical line. -/
def defFollows : List Char → Bool
  | ' ' :: rest | '\t' :: rest | '\x0c' :: rest => defFollows rest
  | '\\' :: '\n' :: rest => defFollows rest
  | rest => startsWithWord "def" rest

/-- The number of line ends in a list of characters. -/
def lineEnds (cs : List Char) : Nat := cs.count '\n'

/-- A token whose text is the part of `s.rest` before `rest`. -/
def State.take (s : State) (kind : TokenKind) (rest : List Char) : Token × State :=
  let lexeme := s.rest.take (s.rest.length - rest.length)
  let last := s.line + lineEnds lexeme
  (⟨kind, String.ofList lexeme, s.line, last⟩, { s with rest, line := last })

/-- The kind of a name, and the state after it.  Before version 3.7 the words `async` and `await`
are keywords only in front of `def` and inside of such a function. -/
def classifyName (d : Dialect) (tok : Token) (s : State) : Token × State :=
  if tok.text == "async" || tok.text == "await" then
    let kind := if tok.text == "async" then TokenKind.asyncKeyword else .awaitKeyword
    if 7 ≤ d.minor || s.asyncDepth.isSome then ({ tok with kind }, s)
    else if tok.text == "async" && defFollows s.rest then
      ({ tok with kind }, { s with asyncDepth := some s.indents.length })
    else (tok, s)
  else (tok, s)

/-- Leaves an asynchronous function when a line is met that is not indented deeper than it. -/
def State.leaveAsync (s : State) : State :=
  match s.asyncDepth with
  | some depth =>
    if s.rest.head? != some '\n' && s.brackets.isEmpty && s.asyncBody && s.indents.length ≤ depth then
      { s with asyncDepth := none, asyncBody := false }
    else s
  | none => s

/-- Reads one lexeme that is neither blank nor a comment. -/
def lexeme (d : Dialect) (s : State) : Option (Token × State) :=
  match s.rest with
  | [] => none
  | c :: more =>
    match stringMark? s.rest with
    | some n => (afterQuoted (s.rest.drop n)).map fun rest => s.take .string rest
    | none =>
      if isNameStart c then
        let rest := s.rest.dropWhile isNameChar
        let (tok, s) := s.take .name rest
        if Text.isIdentifier tok.text.toList then some (classifyName d tok s) else none
      else if c.isDigit || (c == '.' && more.head?.any Char.isDigit) then
        (afterNumber s.rest).map fun rest => s.take .number rest
      else do
        let op ← operator? s.rest
        let (tok, s) := s.take .operator (s.rest.drop op.length)
        if op == "(" || op == "[" || op == "\x7b" then
          if maxBrackets ≤ s.brackets.length then none
          else some (tok, { s with brackets := c :: s.brackets })
        else if op == ")" || op == "]" || op == "\x7d" then
          match s.brackets with
          | opening :: brackets => if bracketsFit opening c then some (tok, { s with brackets }) else none
          | [] => none
        else some (tok, s)

/-- One step of the scanner: tokens found and the state after them.  A state without characters
left is final. -/
def step (d : Dialect) (s : State) : Option (List Token × State) :=
  if s.atLineStart then do
    let i ← measure 0 0 0 s.line s.rest
    let s := { s with rest := i.rest, line := i.line, atLineStart := false }
    let first := i.rest.head?
    if first == some '#' then
      -- a line with nothing but a comment
      let comment := i.rest.takeWhile (· != '\n')
      let rest := i.rest.drop comment.length
      match if d.typeComments then typeComment? comment else none with
      | some text =>
        if silencesChecker text then
          some ([], { s with rest := rest.drop 1, line := s.line + 1, atLineStart := true })
        else some ([⟨.typeComment, String.ofList text, s.line, s.line⟩], { s with rest })
      | none => some ([], { s with rest := rest.drop 1, line := s.line + 1, atLineStart := true })
    else if first == some '\n' then
      some ([], { s with rest := i.rest.drop 1, line := s.line + 1, atLineStart := true })
    else if s.brackets.isEmpty then
      let width := if i.continued == 0 then i.width else i.continued
      let altWidth := if i.continued == 0 then i.altWidth else i.continued
      reindent s.line width altWidth s
    else some ([], s)
  else
    let s := s.leaveAsync
    match s.rest with
    | [] => some ([], s)
    | ' ' :: rest | '\t' :: rest | '\x0c' :: rest => some ([], { s with rest })
    | '\\' :: '\n' :: rest => if rest.isEmpty then none else some ([], { s with rest, line := s.line + 1 })
    | '\n' :: rest =>
      let next := { s with rest, line := s.line + 1, atLineStart := true }
      if s.brackets.isEmpty then
        some ([⟨.newline, "", s.line, s.line⟩], { next with asyncBody := s.asyncDepth.isSome })
      else some ([], next)
    | '#' :: _ =>
      let comment := s.rest.takeWhile (· != '\n')
      let rest := s.rest.drop comment.length
      match if d.typeComments then typeComment? comment else none with
      | some text =>
        if silencesChecker text then some ([], { s with rest })
        else some ([⟨.typeComment, String.ofList text, s.line, s.line⟩], { s with rest })
      | none => some ([], { s with rest })
    | _ => (lexeme d s).map fun (tok, s) => ([tok], s)

/-- Repeats steps until no character is left, then closes all blocks. -/
def run (d : Dialect) : Nat → State → Option (List Token)
  | 0, _ => none
  | fuel + 1, s =>
    if s.rest.isEmpty then
      if s.brackets.isEmpty then
        some (List.replicate s.indents.length ⟨.dedent, "", s.line, s.line⟩ ++
          [⟨.endMarker, "", s.line, s.line⟩])
      else none
    else do
      let (toks, s) ← step d s
      return toks ++ (← run d fuel s)

end Lexical

/-- Line ends as line feeds, with one at the end of the text. -/
def completeLines : List Char → List Char
  | [] => ['\n']
  | cs => if cs.getLast? == some '\n' then cs else cs ++ ['\n']

/-- The tokens of a source text whose line ends are line feeds.  Every step consumes a character or
leaves the start of a line, which bounds the number of steps. -/
def Token.scan (d : Dialect) (source : List Char) : Option (List Token) :=
  if source.contains (Char.ofNat 0) then none
  else
    let source := completeLines source
    Lexical.run d (2 * source.length + 2) { rest := source }

end CodeAtlas.Grammar
