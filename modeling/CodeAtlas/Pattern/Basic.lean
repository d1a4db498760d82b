import CodeAtlas.Text.Word
import CodeAtlas.Text.Blank

/-!
# Patterns on text

Regular patterns with groups, counted repetition and references to groups, and the matcher for them:
alternatives are tried from left to right, repetition takes as much as it can and gives back one
round at a time.

The matcher recurses on the pattern and hands what follows over as a continuation.  A repetition ends
because a round that consumes nothing is the last one.
-/

namespace CodeAtlas

/-- A pattern on text. -/
inductive Pattern
  | empty
  /-- One character that satisfies a test. -/
  | one (accepts : Char → Bool)
  | seq (first second : Pattern)
  | alt (left right : Pattern)
  /-- At least `least` and at most `most` rounds.  A possessive repetition gives nothing back. -/
  | rep (body : Pattern) (least : Nat) (most : Option Nat) (possessive : Bool)
  /-- A numbered group: what its body matches can be asked for and referred to. -/
  | group (index : Nat) (body : Pattern)
  /-- The text that a group has matched. -/
  | same (index : Nat)
  | textStart | textEnd
  /-- After a line feed or at the start. -/
  | lineStart
  /-- At the end, or before a line feed that ends the text. -/
  | finalLineEnd
  /-- Between a word character and another one, or not. -/
  | wordEdge (wanted : Bool)

namespace Pattern

/-- Where a match has come to, and what its groups have matched, the latest first. -/
structure Spot where
  position : Nat
  last : Option Char
  rest : List Char
  groups : List (Nat × Nat × List Char) := []

/-- The start of a text. -/
def Spot.start (cs : List Char) : Spot := ⟨0, none, cs, []⟩

/-- The spot behind a number of characters. -/
def Spot.skip (s : Spot) : Nat → Spot
  | 0 => s
  | n + 1 =>
    match s.rest with
    | [] => s
    | c :: rest => Spot.skip { s with position := s.position + 1, last := some c, rest } n

/-- What a group has matched, with the position of its first character. -/
def Spot.group? (s : Spot) (index : Nat) : Option (Nat × List Char) :=
  (s.groups.find? (·.1 == index)).map Prod.snd

/-- Whether exactly one of the neighbours is a word character.  An empty text has no edges. -/
def Spot.atEdge (s : Spot) : Bool :=
  (s.last.any Text.isWord) != (s.rest.head?.any Text.isWord)

/-- Rounds of a repetition: at least `least` more, at most `most` more, at most `fuel` in all.  A
round that consumes nothing is followed by no other unless more are demanded. -/
def rounds {α : Type} (body : Spot → (Spot → Option α) → Option α) (next : Spot → Option α) :
    (fuel least : Nat) → Option Nat → Option Nat → Spot → Option α
  | 0, _, _, _, s => next s
  | fuel + 1, least + 1, most, _, s =>
    body s fun t => rounds body next fuel least (most.map (· - 1)) none t
  | fuel + 1, 0, most, before, s =>
    if most == some 0 || before == some s.position then next s
    else
      match body s fun t => rounds body next fuel 0 (most.map (· - 1)) (some s.position) t with
      | some a => some a
      | none => next s

/-- The spot after as many rounds as possible, none of which is given back. -/
def fixedRounds (body : Spot → Option Spot) : (fuel least : Nat) → Option Nat → Spot → Option Spot
  | 0, _, _, s => some s
  | fuel + 1, least + 1, most, s => body s >>= fixedRounds body fuel least (most.map (· - 1))
  | fuel + 1, 0, most, s =>
    if most == some 0 then some s
    else match body s with
      | some t => if t.position == s.position then some t else fixedRounds body fuel 0 (most.map (· - 1)) t
      | none => some s

/-- Matches a pattern from a spot and continues with `next`, going back where `next` fails. -/
def run : Pattern → {α : Type} → Spot → (Spot → Option α) → Option α
  | empty, _, s, next => next s
  | one accepts, _, s, next =>
    match s.rest with
    | c :: rest => if accepts c then next { s with position := s.position + 1, last := some c, rest } else none
    | [] => none
  | seq p q, _, s, next => run p s fun t => run q t next
  | alt p q, _, s, next =>
    match run p s next with
    | some a => some a
    | none => run q s next
  | rep p least most false, _, s, next =>
    rounds (fun t k => run p t k) next (s.rest.length + least + 1) least most none s
  | rep p least most true, _, s, next =>
    fixedRounds (fun t => run p t some) (s.rest.length + least + 1) least most s >>= next
  | group i p, _, s, next =>
    run p s fun t => next { t with groups := (i, s.position, s.rest.take (t.position - s.position)) :: t.groups }
  | same i, _, s, next =>
    match s.group? i with
    | some (_, text) => if text.isPrefixOf s.rest then next (s.skip text.length) else none
    | none => none
  | textStart, _, s, next => if s.last.isNone then next s else none
  | textEnd, _, s, next => if s.rest.isEmpty then next s else none
  | lineStart, _, s, next => if s.last.isNone || s.last == some '\n' then next s else none
  | finalLineEnd, _, s, next => if s.rest.isEmpty || s.rest == ['\n'] then next s else none
  | wordEdge wanted, _, s, next =>
    if s.last.isNone && s.rest.isEmpty then none else if s.atEdge == wanted then next s else none

/-- The end of the match at a spot, if there is one. -/
def matchAt (p : Pattern) (s : Spot) : Option Spot := p.run s some

/-- Whether a pattern matches a whole text. -/
def matchesAll (p : Pattern) (cs : List Char) : Bool :=
  (p.run (Spot.start cs) fun s => if s.rest.isEmpty then some () else none).isSome

/-- A match: where it starts and where it ends. -/
structure Found where
  start : Nat
  finish : Spot

/-- What a group of a match has matched. -/
def Found.group (f : Found) (index : Nat) : String :=
  String.ofList ((f.finish.group? index).map Prod.snd |>.getD [])

/-- The first match at or after a spot. -/
def searchFrom (p : Pattern) : Nat → Spot → Option Found
  | 0, s => (p.matchAt s).map (⟨s.position, ·⟩)
  | fuel + 1, s =>
    match p.matchAt s with
    | some t => some ⟨s.position, t⟩
    | none => if s.rest.isEmpty then none else searchFrom p fuel (s.skip 1)

/-- The first match in a text. -/
def search (p : Pattern) (s : String) : Option Found :=
  searchFrom p s.length (Spot.start s.toList)

/-- All matches from a spot on that do not overlap, for a pattern that consumes something. -/
def findFrom (p : Pattern) : Nat → Spot → List Found
  | 0, _ => []
  | fuel + 1, s =>
    match searchFrom p s.rest.length s with
    | some f => f :: findFrom p fuel { f.finish with groups := [] }
    | none => []

/-- All matches in a text that do not overlap, for a pattern that consumes something. -/
def findAll (p : Pattern) (s : String) : List Found :=
  findFrom p (s.length + 1) (Spot.start s.toList)

/-- Patterns one after another. -/
def concat : List Pattern → Pattern
  | [] => empty
  | [p] => p
  | p :: rest => seq p (concat rest)

/-- The characters of a text, one after another. -/
def literal (s : String) : Pattern := concat (s.toList.map fun c => one (· == c))

/-- One of several texts, earlier ones first. -/
def oneOf : List String → Pattern
  | [] => one fun _ => false
  | [s] => literal s
  | s :: rest => alt (literal s) (oneOf rest)

/-- Any number of rounds. -/
def many (p : Pattern) : Pattern := rep p 0 none false

/-- At least one round. -/
def many1 (p : Pattern) : Pattern := rep p 1 none false

/-- The pattern or nothing. -/
def optional (p : Pattern) : Pattern := rep p 0 (some 1) false

/-- A blank. -/
def blank : Pattern := one Text.isBlank

/-- Any number of blanks. -/
def blanks : Pattern := many blank

/-- At least one blank. -/
def blanks1 : Pattern := many1 blank

/-- At least one word character. -/
def word : Pattern := many1 (one Text.isWord)

end Pattern

end CodeAtlas
