import CodeAtlas.Section.Landmark
import CodeAtlas.Text.Blank
import CodeAtlas.Text.Lines

/-!
# Lines before which a section may be cut

A section may be cut before a line that holds nothing but the gap mark, where a landmark ends, and
behind the line that completes a definition or a statement as far as the brackets tell.
-/

namespace CodeAtlas.Boundary

open Text (isBlank)

/-- Words that start a definition. -/
def definitionWords : List String := ["def", "class", "function", "interface", "trait", "struct", "impl"]

/-- Words that start a variable. -/
def variableWords : List String := ["const", "let", "var"]

/-- Words that modify what follows. -/
def modifierWords : List String := ["public", "private", "protected", "static", "async"]

/-- Whether a word stands at the start and a blank behind it. -/
def startsWithWord (cs : List Char) (word : String) : Bool :=
  word.toList.isPrefixOf cs && (cs.drop word.length).head?.any isBlank

/-- Whether the next character that is not blank opens a parenthesis. -/
def parenthesisFollows (cs : List Char) : Bool := (cs.dropWhile isBlank).head? == some '('

/-- A decorator at the start. -/
def startsWithDecorator : List Char → Bool
  | '@' :: c :: _ => Text.isWord c
  | _ => false

/-- A name with a parenthesis at the start. -/
def startsWithCall : List Char → Bool
  | [] => false
  | c :: rest =>
    (c.isAlpha || c == '_') && parenthesisFollows (rest.dropWhile fun d => d.isAlphanum || d == '_')

/-- An initializer with its parenthesis, anywhere. -/
def hasInitializer : List Char → Bool
  | [] => false
  | c :: rest =>
    ["initialize", "constructor"].any (fun word =>
      word.toList.isPrefixOf (c :: rest) && parenthesisFollows ((c :: rest).drop word.length)) ||
    hasInitializer rest

/-- Whether a line starts a definition, a call or a block.  The words that start a definition are tried
one group after another. -/
def opens (heads : List (List String)) (line : String) : Bool :=
  let cs := line.toList
  let body := cs.dropWhile isBlank
  heads.any (·.any (startsWithWord body)) || startsWithDecorator body || startsWithCall body ||
    hasInitializer cs || (cs.reverse.dropWhile isBlank).head? == some '\x7b'

/-- How many more brackets a line opens than it closes. -/
def depthChange (line : String) : Int :=
  let count (c : Char) : Int := line.toList.count c
  count '\x7b' + count '(' + count '[' - (count '\x7d' + count ')' + count ']')

/-- Whether a line can complete what is open. -/
def closes (line : String) : Bool :=
  let cs := line.toList
  cs.contains '\x7d' || cs.contains ')' || Text.contains line "];" || Text.isBlankText line

/-- The lines that hold the gap mark alone. -/
def marks (lines : List String) : List Nat :=
  (lines.zipIdx.filter fun (line, _) => Text.strip line == "⋮").map Prod.snd

/-- The lines behind completed definitions, from line `i` on.  `depth` counts the open brackets of the
definition that is being read, if there is one.  A line before which a cut is known to be possible ends
it, and is passed over. -/
def completions (heads : List (List String)) (known : List Nat) :
    (i : Nat) → (depth : Option Int) → (cut : Bool) → List String → List Nat
  | _, _, _, [] => []
  | i, depth, cut, line :: rest =>
    if cut || known.contains i then completions heads known (i + 1) none false rest
    else
      match (if depth.isNone && opens heads line then some 0 else depth) with
      | none => completions heads known (i + 1) none false rest
      | some d =>
        let d := d + depthChange line
        if d ≤ 0 && closes line then
          if rest.isEmpty then [] else (i + 1) :: completions heads known (i + 1) none true rest
        else completions heads known (i + 1) (some d) false rest

/-- All lines before which a section may be cut, in order and each once; `ends` are further ones. -/
def all (heads : List (List String)) (lines : List String) (ends : List Nat) : List Nat :=
  let known := marks lines ++ ends.filter (· < lines.length)
  let points := 0 :: known ++ completions heads known 0 none false lines
  (List.range lines.length).filter points.contains

end CodeAtlas.Boundary
