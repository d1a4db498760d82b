import CodeAtlas.Text.Fields

/-!
# Matching braces
-/

namespace CodeAtlas.Braces

/-- How reading a text from its first opening brace on ends. -/
inductive Ending
  /-- All braces are closed again; the number of characters read, with the closing one. -/
  | closed (read : Nat)
  /-- A brace closes where none is open. -/
  | stray
  /-- The text ends before. -/
  | unclosed
  deriving DecidableEq, Repr

/-- Reads characters with a number of braces open. -/
def scan (isOpen isClose : Char → Bool) : (depth read : Nat) → List Char → Ending
  | _, _, [] => .unclosed
  | depth, read, c :: rest =>
    if isOpen c then scan isOpen isClose (depth + 1) (read + 1) rest
    else if isClose c then
      match depth with
      | 0 => .stray
      | 1 => .closed (read + 1)
      | d + 2 => scan isOpen isClose (d + 1) (read + 1) rest
    else scan isOpen isClose depth (read + 1) rest

/-- The position behind the brace that closes the first open one.  Braces of more than one character
are never closed. -/
def matching? (text opening closing : String) : Option Nat :=
  match Text.fromFirst? opening.toList 0 text.toList with
  | none => none
  | some (before, rest) =>
    match scan (opening.toList == [·]) (closing.toList == [·]) 0 0 rest with
    | .closed read => some (before + read)
    | .stray | .unclosed => none

end CodeAtlas.Braces
