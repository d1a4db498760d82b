import CodeAtlas.Pattern.Basic

/-!
# The written form of patterns

Reads a pattern from text: groups in parentheses, character sets in square brackets, the quantifiers
`*`, `+` and `{m,n}` with a possessive form, escapes, and references to groups by number.  The question mark
stands for itself.  A text that is no pattern is refused with a reason and a position.

## Main definitions

* `Pattern.Reason`, `Pattern.Fault` — why and where a text is no pattern
* `Pattern.ofText` — the pattern that a text denotes
-/

namespace CodeAtlas.Pattern

/-- Why a text is no pattern. -/
inductive Reason
  | escapeAtEnd
  | unterminatedSet
  | badRange (lo hi : String)
  | leastAboveMost
  | nothingToRepeat
  | multipleRepeat
  | unterminatedGroup
  | unbalancedGroup
  | incompleteEscape (escape : String)
  | badEscape (escape : String)
  | octalTooLarge (escape : String)
  | openGroup
  | unknownGroup (index : Nat)
  | missingBrace
  | missingName
  | unterminatedName
  | unknownName (name : String)

/-- The wording of a reason. -/
def Reason.message : Reason → String
  | escapeAtEnd => "bad escape (end of pattern)"
  | unterminatedSet => "unterminated character set"
  | badRange lo hi => s!"bad character range {lo}-{hi}"
  | leastAboveMost => "min repeat greater than max repeat"
  | nothingToRepeat => "nothing to repeat"
  | multipleRepeat => "multiple repeat"
  | unterminatedGroup => "missing ), unterminated subpattern"
  | unbalancedGroup => "unbalanced parenthesis"
  | incompleteEscape e => s!"incomplete escape {e}"
  | badEscape e => s!"bad escape {e}"
  | octalTooLarge e => s!"octal escape value {e} outside of range 0-0o377"
  | openGroup => "cannot refer to an open group"
  | unknownGroup i => s!"invalid group reference {i}"
  | missingBrace => "missing \x7b"
  | missingName => "missing character name"
  | unterminatedName => "missing \x7d, unterminated name"
  | unknownName n => s!"undefined character name '{n}'"

/-- A text that is no pattern: a reason with a position, or a count that is too large. -/
inductive Fault
  | located (reason : Reason) (position : Nat)
  | countTooLarge

/-- The wording of a fault in a given text.  In a text of several lines, the line and the column are
given too. -/
def Fault.message (text : String) : Fault → String
  | countTooLarge => "the repetition number is too large"
  | located reason position =>
    let base := s!"{reason.message} at position {position}"
    let cs := text.toList
    if cs.contains '\n' then
      let before := cs.take position
      let column := (before.reverse.takeWhile (· != '\n')).length + 1
      let line := before.count '\n' + 1
      s!"{base} (line {line}, column {column})"
    else base

/-- A pattern read so far, and whether a quantifier may follow it. -/
inductive Item
  | plain (p : Pattern)
  /-- A position, which cannot be repeated. -/
  | position (p : Pattern)
  /-- A repetition, which cannot be repeated again. -/
  | repeated (p : Pattern)

/-- The pattern of an item. -/
def Item.pattern : Item → Pattern
  | plain p | position p | repeated p => p

/-- Where the reader stands: the text left, its position, and the groups opened and closed. -/
structure Input where
  rest : List Char
  position : Nat := 0
  opened : Nat := 0
  closed : List Nat := []

/-- The next token: a character, or a backslash with the character after it. -/
def Input.token? (i : Input) : Option (List Char) :=
  match i.rest with
  | [] => none
  | '\\' :: c :: _ => some ['\\', c]
  | c :: _ => some [c]

/-- Refuses to stand in front of a backslash that ends the text. -/
def Input.settle (i : Input) : Except Fault Input :=
  if i.rest == ['\\'] then .error (.located .escapeAtEnd i.position) else .ok i

/-- Consumes the next token. -/
def Input.advance (i : Input) : Except Fault Input :=
  let n := (i.token?.getD []).length
  { i with rest := i.rest.drop n, position := i.position + n }.settle

/-- A failure `back` characters before the reader. -/
def Input.fail {α : Type} (i : Input) (reason : Reason) (back : Nat := 0) : Except Fault α :=
  .error (.located reason (i.position - back))

/-- Consumes a character if it comes next. -/
def Input.skip (i : Input) (c : Char) : Except Fault (Bool × Input) :=
  if i.token? == some [c] then do return (true, ← i.advance) else .ok (false, i)

/-- Consumes at most `n` characters that satisfy a test. -/
def Input.takeUpTo (p : Char → Bool) : Nat → Input → Except Fault (List Char × Input)
  | 0, i => .ok ([], i)
  | n + 1, i =>
    match i.token? with
    | some [c] =>
      if p c then do
        let (cs, i) ← takeUpTo p n (← i.advance)
        return (c :: cs, i)
      else .ok ([], i)
    | _ => .ok ([], i)

/-- A hexadecimal digit. -/
def isHex (c : Char) : Bool := c.isDigit || ('a' ≤ c && c ≤ 'f') || ('A' ≤ c && c ≤ 'F')

/-- An octal digit. -/
def isOct (c : Char) : Bool := '0' ≤ c && c ≤ '7'

/-- The value of digits in a base. -/
def digitsValue (base : Nat) (cs : List Char) : Nat :=
  cs.foldl (fun n c =>
    base * n + (if c.isDigit then c.toNat - 48 else if 'a' ≤ c then c.toNat - 87 else c.toNat - 55)) 0

/-- A member of a character set: one code point, or a class. -/
inductive Member
  | code (n : Nat)
  | test (accepts : Char → Bool)

/-- The characters that letters after a backslash stand for. -/
def escapedChar? (c : Char) : Option Char :=
  match c with
  | 'a' => some (Char.ofNat 7)
  | 'b' => some (Char.ofNat 8)
  | 'f' => some (Char.ofNat 12)
  | 'n' => some '\n'
  | 'r' => some '\r'
  | 't' => some '\t'
  | 'v' => some (Char.ofNat 11)
  | '\\' => some '\\'
  | _ => none

/-- The classes that letters after a backslash stand for. -/
def escapedClass? (c : Char) : Option (Char → Bool) :=
  match c with
  | 'd' => some Text.isDecimal
  | 'D' => some fun c => !Text.isDecimal c
  | 's' => some Text.isBlank
  | 'S' => some fun c => !Text.isBlank c
  | 'w' => some Text.isWord
  | 'W' => some fun c => !Text.isWord c
  | _ => none

/-- A code point given in hexadecimal digits, of which there must be `n`. -/
def hexEscape (i : Input) (mark : Char) (n : Nat) : Except Fault (Nat × Input) := do
  let (digits, i) ← i.takeUpTo isHex n
  let escape := String.ofList ('\\' :: mark :: digits)
  if digits.length != n then i.fail (.incompleteEscape escape) escape.length
  else if 0x10FFFF < digitsValue 16 digits then i.fail (.badEscape escape) escape.length
  else return (digitsValue 16 digits, i)

/-- The name in an escape by name, up to its closing brace. -/
def nameEscape (i : Input) : Nat → List Char → Except Fault (Nat × Input)
  | 0, _ => i.fail .missingName
  | fuel + 1, name =>
    match i.token? with
    | none => if name.isEmpty then i.fail .missingName else i.fail .unterminatedName name.length
    | some t => do
      let i ← i.advance
      if t == ['\x7d'] then
        if name.isEmpty then i.fail .missingName 1
        else i.fail (.unknownName (String.ofList name)) (name.length + 4)
      else nameEscape i fuel (name ++ t)

/-- An escape that stands for one character, wherever it occurs. -/
def charEscape (i : Input) (c : Char) : Except Fault (Nat × Input) := do
  let escape := String.ofList ['\\', c]
  match c with
  | 'x' => hexEscape i 'x' 2
  | 'u' => hexEscape i 'u' 4
  | 'U' => hexEscape i 'U' 8
  | 'N' => do
    let (found, i) ← i.skip '\x7b'
    if found then nameEscape i (i.rest.length + 1) [] else i.fail .missingBrace
  | _ => if c.isAlphanum then i.fail (.badEscape escape) 2 else return (c.toNat, i)

/-- An escape inside of a character set; the reader stands behind it. -/
def memberEscape (i : Input) (c : Char) : Except Fault (Member × Input) := do
  match escapedChar? c, escapedClass? c with
  | some e, _ => return (.code e.toNat, i)
  | none, some accepts => return (.test accepts, i)
  | none, none =>
    if isOct c then
      let (digits, i) ← i.takeUpTo isOct 2
      let value := digitsValue 8 (c :: digits)
      let escape := String.ofList ('\\' :: c :: digits)
      if 0xFF < value then i.fail (.octalTooLarge escape) escape.length
      else return (.code value, i)
    else
      let (n, i) ← charEscape i c
      return (.code n, i)

/-- A reference to a group by its number. -/
def groupReference (i : Input) (digits : List Char) : Except Fault (Item × Input) :=
  let index := digitsValue 10 digits
  if index ≤ i.opened then
    if i.closed.contains index then .ok (.plain (.same index), i)
    else i.fail .openGroup (digits.length + 1)
  else i.fail (.unknownGroup index) digits.length

/-- Digits after a backslash: three octal digits are a character, others refer to a group. -/
def digitEscape (i : Input) (c : Char) : Except Fault (Item × Input) := do
  match i.token? with
  | some [e] =>
    if e.isDigit then
      let i ← i.advance
      match i.token? with
      | some [f] =>
        if isOct c && isOct e && isOct f then
          let i ← i.advance
          let value := digitsValue 8 [c, e, f]
          let escape := String.ofList ['\\', c, e, f]
          if 0xFF < value then i.fail (.octalTooLarge escape) 4
          else return (.plain (.one (·.toNat == value)), i)
        else groupReference i [c, e]
      | _ => groupReference i [c, e]
    else groupReference i [c]
  | _ => groupReference i [c]

/-- An escape outside of character sets; the reader stands behind it. -/
def itemEscape (i : Input) (c : Char) : Except Fault (Item × Input) := do
  match c with
  | 'A' => return (.position .textStart, i)
  | 'Z' => return (.position .textEnd, i)
  | 'b' => return (.position (.wordEdge true), i)
  | 'B' => return (.position (.wordEdge false), i)
  | '0' =>
    let (digits, i) ← i.takeUpTo isOct 2
    return (.plain (.one (·.toNat == digitsValue 8 digits)), i)
  | _ =>
    match escapedClass? c, escapedChar? c with
    | some accepts, _ => return (.plain (.one accepts), i)
    | none, some e => return (.plain (.one (· == e)), i)
    | none, none =>
      if c.isDigit then digitEscape i c
      else
        let (n, i) ← charEscape i c
        return (.plain (.one (·.toNat == n)), i)

/-- The member of a character set that a token stands for. -/
def setMember (i : Input) : List Char → Except Fault (Member × Input)
  | ['\\', c] => memberEscape i c
  | t => .ok (.code (t.headD '\\').toNat, i)

/-- Whether a member accepts a character. -/
def Member.accepts : Member → Char → Bool
  | code n, c => c.toNat == n
  | test p, c => p c

/-- The members of a character set up to its closing bracket, the latest first.  `here` is the
position of the opening bracket. -/
def setMembers (here : Nat) : Nat → Input → List (Char → Bool) → Except Fault (List (Char → Bool) × Input)
  | 0, i, _ => i.fail .unterminatedSet (i.position - here)
  | fuel + 1, i, members =>
    match i.token? with
    | none => i.fail .unterminatedSet (i.position - here)
    | some this => do
      let i ← i.advance
      if this == [']'] && !members.isEmpty then return (members, i)
      let (lo, i) ← setMember i this
      let (dash, i) ← i.skip '-'
      if dash then
        match i.token? with
        | none => i.fail .unterminatedSet (i.position - here)
        | some that =>
          let i ← i.advance
          if that == [']'] then return ((· == '-') :: lo.accepts :: members, i)
          let (hi, i) ← setMember i that
          -- a range names its ends as they are written, escapes up to their digits
          let refused := i.fail (.badRange (String.ofList this) (String.ofList that))
            (this.length + 1 + that.length)
          match lo, hi with
          | .code a, .code b =>
            if b < a then refused
            else setMembers here fuel i ((fun c => a ≤ c.toNat && c.toNat ≤ b) :: members)
          | _, _ => refused
      else setMembers here fuel i (lo.accepts :: members)

/-- A character set; the reader stands behind its opening bracket. -/
def characterSet (i : Input) : Except Fault (Item × Input) := do
  let here := i.position - 1
  let (negated, i) ← i.skip '^'
  let (members, i) ← setMembers here (i.rest.length + 1) i []
  return (.plain (.one fun c => (members.any fun p => p c) != negated), i)

/-- The largest count of a quantifier, exclusive. -/
def maxCount : Nat := 4294967295

/-- Bounds of a repetition. -/
structure Bounds where
  least : Nat
  most : Option Nat

/-- The bounds in braces, if what follows the opening brace is a quantifier.  `here` is the position
behind the brace. -/
def counted (here : Nat) (i : Input) : Except Fault (Option (Bounds × Input)) := do
  if i.token? == some ['\x7d'] then return none
  let (lo, i) ← i.takeUpTo Char.isDigit i.rest.length
  let (comma, i) ← i.skip ','
  let (hi, i) ← if comma then i.takeUpTo Char.isDigit i.rest.length else .ok (lo, i)
  let (closed, i) ← i.skip '\x7d'
  if !closed then return none
  let least := digitsValue 10 lo
  let most := digitsValue 10 hi
  if !lo.isEmpty && maxCount ≤ least then throw .countTooLarge
  if !hi.isEmpty && maxCount ≤ most then throw .countTooLarge
  if !hi.isEmpty && most < least then i.fail .leastAboveMost (i.position - here)
  else return some (⟨least, if hi.isEmpty then none else some most⟩, i)

/-- Repeats the latest item.  `here` is the position behind the quantifier's first character. -/
def quantify (here : Nat) (i : Input) (b : Bounds) (items : List Item) :
    Except Fault (List Item × Input) := do
  match items with
  | .plain p :: rest =>
    let (possessive, i) ← i.skip '+'
    return (.repeated (.rep p b.least b.most possessive) :: rest, i)
  | .repeated _ :: _ => i.fail .multipleRepeat (i.position - here + 1)
  | _ => i.fail .nothingToRepeat (i.position - here + 1)

/-- What a token asks for outside of character sets. -/
inductive Symbol
  /-- A bar or a closing parenthesis, which ends a sequence. -/
  | ends
  | escape (c : Char)
  /-- The opening bracket of a character set. -/
  | set
  /-- The opening parenthesis of a group. -/
  | group
  /-- A brace, which may begin bounds. -/
  | brace
  | times (b : Bounds)
  | item (i : Item)

/-- What a token asks for. -/
def Symbol.ofToken : List Char → Symbol
  | [] => .ends
  | [_, c] => .escape c
  | c :: _ =>
    if c == '|' || c == ')' then .ends
    else if c == '[' then .set
    else if c == '(' then .group
    else if c == '\x7b' then .brace
    else if c == '*' then .times ⟨0, none⟩
    else if c == '+' then .times ⟨1, none⟩
    else if c == '.' then .item (.plain (.one (· != '\n')))
    else if c == '^' then .item (.position .textStart)
    else if c == '$' then .item (.position .finalLineEnd)
    else .item (.plain (.one (· == c)))

mutual

/-- Alternatives up to the end or a closing parenthesis. -/
def alternatives : Nat → Input → Except Fault (Pattern × Input)
  | 0, i => i.fail .unterminatedGroup
  | fuel + 1, i => do
    let (items, i) ← sequence fuel i []
    let p := concat (items.reverse.map Item.pattern)
    let (more, i) ← i.skip '|'
    if more then
      let (q, i) ← alternatives fuel i
      return (.alt p q, i)
    else return (p, i)

/-- Items up to a bar, the end or a closing parenthesis, the latest first. -/
def sequence : Nat → Input → List Item → Except Fault (List Item × Input)
  | 0, i, _ => i.fail .unterminatedGroup
  | fuel + 1, i, items =>
    match Symbol.ofToken (i.token?.getD []) with
    | .ends => .ok (items, i)
    | .escape c => do
      let (item, i) ← itemEscape (← i.advance) c
      sequence fuel i (item :: items)
    | .set => do
      let (item, i) ← characterSet (← i.advance)
      sequence fuel i (item :: items)
    | .group => do
      let i ← i.advance
      let here := i.position
      let index := i.opened + 1
      let (p, i) ← alternatives fuel { i with opened := index }
      let (closed, i) ← i.skip ')'
      if closed then
        sequence fuel { i with closed := index :: i.closed } (.plain (.group index p) :: items)
      else i.fail .unterminatedGroup (i.position - (here - 1))
    | .brace => do
      let i ← i.advance
      match ← counted i.position i with
      | some (bounds, j) =>
        let (items, j) ← quantify i.position j bounds items
        sequence fuel j items
      | none => sequence fuel i (.plain (.one (· == '\x7b')) :: items)
    | .times bounds => do
      let i ← i.advance
      let (items, i) ← quantify i.position i bounds items
      sequence fuel i items
    | .item item => do sequence fuel (← i.advance) (item :: items)

end

/-- The pattern that a text denotes, or why it denotes none. -/
def ofText (text : String) : Except Fault Pattern := do
  let cs := text.toList
  let i ← ({ rest := cs } : Input).settle
  let (p, i) ← alternatives (2 * cs.length + 2) i
  if i.rest.isEmpty then return p else i.fail .unbalancedGroup

end CodeAtlas.Pattern
