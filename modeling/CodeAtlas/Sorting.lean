/-!
# Sorting
-/

namespace CodeAtlas

/-- Inserts an element in front of the first one that does not come before it. -/
def insertBy {α : Type} (before : α → α → Bool) (x : α) : List α → List α
  | [] => [x]
  | y :: ys => if before y x then y :: insertBy before x ys else x :: y :: ys

/-- Sorts a list; elements of which neither comes before the other keep their order. -/
def sortBy {α : Type} (before : α → α → Bool) : List α → List α
  | [] => []
  | x :: xs => insertBy before x (sortBy before xs)

/-- Whether a text comes before another one in the order of their characters. -/
def textBefore (a b : String) : Bool := decide (a < b)

/-- Texts in the order of their characters. -/
def sortTexts (xs : List String) : List String := sortBy textBefore xs

/-- The elements of a list, each once, in the order of their first occurrence. -/
def distinct {α : Type} [BEq α] (xs : List α) : List α :=
  (xs.foldl (fun seen x => if seen.contains x then seen else x :: seen) []).reverse

end CodeAtlas
