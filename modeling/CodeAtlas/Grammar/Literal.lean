import CodeAtlas.Grammar.Token
import CodeAtlas.Number.Whole

/-!
# Literals of Python source

What a number or a quoted text must satisfy beyond its shape: escapes that are complete, bytes that
are ASCII, and replacement fields of formatted texts that are well formed.  The expressions inside
of replacement fields are handed back as source texts, since judging them is the grammar's work.
-/

namespace CodeAtlas.Grammar.Literal

open Lexical

/-- A number that the version accepts: underscores came with 3.6, and a decimal integer has a
bounded number of digits. -/
def numberAllowed (d : Dialect) (text : String) : Bool :=
  let cs := text.toList
  let integer := cs.all fun c => c.isDigit || c == '_'
  (6 ≤ d.minor || !cs.contains '_') &&
    (!integer || cs.head? == some '0' || (cs.filter Char.isDigit).length ≤ Number.maxDigits)

/-- Whether a number is written with an imaginary mark. -/
def isImaginary (text : String) : Bool :=
  match text.toList.getLast? with
  | some c => c == 'j' || c == 'J'
  | none => false

/-- The value of hexadecimal digits. -/
def hexValue (cs : List Char) : Nat :=
  cs.foldl (fun n c =>
    16 * n + (if c.isDigit then c.toNat - 48 else if 'a' ≤ c then c.toNat - 87 else c.toNat - 55)) 0

/-- A character name as an escape may give it. -/
def isCharacterName (cs : List Char) : Bool :=
  !cs.isEmpty && cs.all fun c => c.isAlphanum || c == ' ' || c == '-'

/-- Whether every escape of a text is complete.  The escapes by code point and by name exist only
in texts, not in bytes. -/
def escapesComplete (bytes : Bool) : List Char → Bool
  | [] => true
  | '\\' :: 'x' :: a :: b :: rest => isHexDigit a && isHexDigit b && escapesComplete bytes rest
  | '\\' :: 'x' :: _ => false
  | '\\' :: 'u' :: rest =>
    (bytes || ((rest.take 4).length == 4 && (rest.take 4).all isHexDigit)) && escapesComplete bytes rest
  | '\\' :: 'U' :: rest =>
    (bytes || ((rest.take 8).length == 8 && (rest.take 8).all isHexDigit &&
      hexValue (rest.take 8) ≤ 0x10FFFF)) && escapesComplete bytes rest
  | '\\' :: 'N' :: rest =>
    (bytes || (rest.head? == some '\x7b' && rest.contains '\x7d' &&
      isCharacterName ((rest.drop 1).takeWhile (· != '\x7d')))) && escapesComplete bytes rest
  | '\\' :: _ :: rest => escapesComplete bytes rest
  | _ :: rest => escapesComplete bytes rest

/-- Where a stretch of literal text in a formatted text stops. -/
inductive Stop
  /-- At the end of the text. -/
  | finished
  /-- After a doubled brace, which stands for one. -/
  | doubled (rest : List Char)
  /-- In front of a brace. -/
  | brace (rest : List Char)

/-- The literal stretch at the start of a formatted text, and where it stops.  Braces are doubled
only outside of format specifications. -/
def stretch (raw top : Bool) : List Char → Option (List Char × Stop)
  | [] => some ([], .finished)
  | c :: rest =>
    let atBrace (lead : List Char) (brace : Char) (rest : List Char) : Option (List Char × Stop) :=
      if top && rest.head? == some brace then some (lead ++ [brace], .doubled (rest.drop 1))
      else if top && brace == '\x7d' then none
      else some (lead, .brace (brace :: rest))
    let more (lead : List Char) (r : Option (List Char × Stop)) := r.map fun (cs, stop) => (lead ++ cs, stop)
    if !raw && c == '\\' then
      match rest with
      | 'N' :: '\x7b' :: tail => more ['\\', 'N', '\x7b'] (name raw top tail)
      | 'N' :: _ => none
      | e :: tail =>
        if e == '\x7b' || e == '\x7d' then atBrace ['\\'] e tail
        else more ['\\', e] (stretch raw top tail)
      | [] => some (['\\'], .finished)
    else if c == '\x7b' || c == '\x7d' then atBrace [] c rest
    else more [c] (stretch raw top rest)
where
  /-- The rest of a character name in an escape, up to its closing brace. -/
  name (raw top : Bool) : List Char → Option (List Char × Stop)
    | [] => some ([], .finished)
    | c :: rest =>
      let r := if c == '\x7d' then stretch raw top rest else name raw top rest
      r.map fun (cs, stop) => (c :: cs, stop)

/-- The source of the expression at the start of a replacement field and what follows it: a mark
that ends the expression outside of brackets and quotes.  Backslashes and number signs are not
allowed in it. -/
def expressionSpan (quote : Option (Char × Bool)) (nest : List Char) :
    List Char → Option (List Char × List Char)
  | [] => none
  | c :: rest =>
    let keep (cs : List Char) (r : Option (List Char × List Char)) := r.map fun (e, t) => (cs ++ e, t)
    if c == '\\' then none
    else match quote with
      | some (q, triple) =>
        if c == q then
          if triple then
            match rest with
            | b :: d :: tail =>
              if b == q && d == q then keep [c, b, d] (expressionSpan none nest tail)
              else keep [c] (expressionSpan quote nest (b :: d :: tail))
            | _ => none
          else keep [c] (expressionSpan none nest rest)
        else keep [c] (expressionSpan quote nest rest)
      | none =>
        if c == '\'' || c == '"' then
          match rest with
          | b :: d :: tail =>
            if b == c && d == c then keep [c, b, d] (expressionSpan (some (c, true)) nest tail)
            else keep [c] (expressionSpan (some (c, false)) nest (b :: d :: tail))
          | [b] => keep [c] (expressionSpan (some (c, false)) nest [b])
          | [] => none
        else if c == '(' || c == '[' || c == '\x7b' then
          if maxBrackets ≤ nest.length then none else keep [c] (expressionSpan none (c :: nest) rest)
        else if c == '#' then none
        else if nest.isEmpty && ['!', ':', '\x7d', '=', '<', '>'].contains c then
          match rest with
          | b :: tail =>
            if b == '=' && ['!', '=', '<', '>'].contains c then keep [c, b] (expressionSpan none nest tail)
            else if c == '<' || c == '>' then keep [c] (expressionSpan none nest (b :: tail))
            else some ([], c :: b :: tail)
          | [] => if c == '<' || c == '>' then none else some ([], [c])
        else if c == ')' || c == ']' || c == '\x7d' then
          match nest with
          | opening :: outer => if bracketsFit opening c then keep [c] (expressionSpan none outer rest) else none
          | [] => none
        else keep [c] (expressionSpan none nest rest)

/-- ASCII white space. -/
def isAsciiBlank (c : Char) : Bool := (9 ≤ c.toNat && c.toNat ≤ 13) || c == ' '

/-- Blanks that the grammar skips. -/
def isSkipped (c : Char) : Bool := c == ' ' || c == '\t' || c == '\n' || c == '\x0c'

/-- Past the sign that asks for the expression's own text, which came with 3.8. -/
def afterSelfDocumenting (d : Dialect) : List Char → Option (List Char)
  | '=' :: rest => if d.minor < 8 then none else some (rest.dropWhile isAsciiBlank)
  | rest => some rest

/-- Past a conversion, which is one of three letters. -/
def afterConversion : List Char → Option (List Char)
  | '!' :: c :: rest => if c == 's' || c == 'r' || c == 'a' then some rest else none
  | ['!'] => none
  | rest => some rest

/-- The expressions of a formatted text, or of a format specification below the top level, and
what is left: nothing at the top, a closing brace below. -/
def fieldsAt (d : Dialect) (raw : Bool) : Nat → Nat → List Char → Option (List (List Char) × List Char)
  | 0, _, _ => none
  | fuel + 1, level, cs => do
    let (literal, stop) ← stretch raw (level == 0) cs
    if !raw && !escapesComplete false literal then none
    else match stop with
      | .finished => if level == 0 then some ([], []) else none
      | .doubled rest => fieldsAt d raw fuel level rest
      | .brace ('\x7b' :: rest) => do
        if 2 ≤ level then none
        let (expression, rest) ← expressionSpan none [] rest
        if expression.all isSkipped then none
        let rest ← afterSelfDocumenting d rest
        let rest ← afterConversion rest
        let (nested, rest) ← match rest with
          | ':' :: spec => if spec.isEmpty then none else fieldsAt d raw fuel (level + 1) spec
          | _ => some ([], rest)
        match rest with
        | '\x7d' :: rest =>
          let (others, rest) ← fieldsAt d raw fuel level rest
          some (expression :: nested ++ others, rest)
        | _ => none
      | .brace rest => if level == 0 then none else some ([], rest)

/-- The expressions in the replacement fields of a formatted text. -/
def fields? (d : Dialect) (raw : Bool) (body : List Char) : Option (List (List Char)) :=
  (fieldsAt d raw (body.length + 1) 0 body).map Prod.fst

/-- A quoted text taken apart: its marks in lower case and what stands between the quotes. -/
structure Quoted where
  marks : List Char
  body : List Char

/-- Takes a quoted text apart. -/
def Quoted.ofLexeme (text : String) : Quoted :=
  let cs := text.toList
  let marks := cs.takeWhile Char.isAlpha
  let quoted := cs.drop marks.length
  let size := match quoted with
    | a :: b :: c :: _ :: _ :: _ => if a == b && b == c then 3 else 1
    | _ => 1
  ⟨marks.map Char.toLower, (quoted.drop size).take (quoted.length - 2 * size)⟩

/-- The quoted text is bytes. -/
def Quoted.isBytes (q : Quoted) : Bool := q.marks.contains 'b'

/-- The expressions in a quoted text that is well formed. -/
def Quoted.fields? (d : Dialect) (q : Quoted) : Option (List (List Char)) :=
  let raw := q.marks.contains 'r'
  if q.isBytes then
    if q.body.all (·.toNat < 128) && (raw || escapesComplete true q.body) then some [] else none
  else if q.marks.contains 'f' then
    if d.minor < 6 then none else Literal.fields? d raw q.body
  else if raw || escapesComplete false q.body then some [] else none

/-- The expressions in adjacent quoted texts: all of them bytes or none, each well formed. -/
def texts? (d : Dialect) (lexemes : List String) : Option (List (List Char)) :=
  let quoted := lexemes.map Quoted.ofLexeme
  if quoted.all Quoted.isBytes || !quoted.any Quoted.isBytes then
    (quoted.mapM (Quoted.fields? d)).map List.flatten
  else none

end CodeAtlas.Grammar.Literal
