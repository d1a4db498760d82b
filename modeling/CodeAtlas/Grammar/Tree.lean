/-!
# The statement tree of Python source

What the rest of the library wants to know of a module: its statements with the lines they span,
the names they bind, and how they nest.  Expressions keep only the shape that decides whether
something can be assigned to and how a decorator is named.
-/

namespace CodeAtlas.Grammar

/-- The shape of an expression, with the line on which it starts. -/
inductive Expr
  | name (line : Nat) (id : String)
  /-- An attribute or a subscript: something with a place of its own. -/
  | part (line : Nat)
  | call (line : Nat) (callee : Expr)
  /-- A tuple or a list. -/
  | sequence (line : Nat) (items : List Expr)
  | starred (line : Nat) (value : Expr)
  | other (line : Nat)

namespace Expr

/-- The line on which an expression starts. -/
def line : Expr → Nat
  | name line _ | part line | call line _ | sequence line _ | starred line _ | other line => line

/-- The identifier, if the expression is one. -/
def name? : Expr → Option String
  | name _ id => some id
  | _ => none

/-- A single place: a name, an attribute or a subscript. -/
def isPlace : Expr → Bool
  | name _ _ | part _ => true
  | _ => false

/-- Something that can be deleted: a place, or a sequence of such. -/
def isDeletable : Expr → Bool
  | name _ _ | part _ => true
  | sequence _ items => all items
  | _ => false
where
  /-- Every member can be deleted. -/
  all : List Expr → Bool
    | [] => true
    | e :: rest => e.isDeletable && all rest

/-- Something that can be assigned to: a place, or a sequence of such in which a member may be
starred. -/
def isTarget : Expr → Bool
  | name _ _ | part _ => true
  | sequence _ items => all items
  | _ => false
where
  /-- Every member can be assigned to, once a star is taken off. -/
  all : List Expr → Bool
    | [] => true
    | starred _ v :: rest => v.isTarget && all rest
    | e :: rest => e.isTarget && all rest

/-- The left side of an assignment, which may itself be starred. -/
def isStarTarget : Expr → Bool
  | starred _ v => v.isTarget
  | e => e.isTarget

/-- The name by which a decorator is known: that of the identifier, or of the identifier called. -/
def decoratorName? : Expr → Option String
  | name _ id => some id
  | call _ (name _ id) => some id
  | _ => none

end Expr

/-- The first and the last line of something. -/
structure Span where
  first : Nat
  last : Nat
  deriving DecidableEq, Repr

/-- The three kinds of definitions. -/
inductive DefinitionKind
  | function | asyncFunction | objectClass
  deriving DecidableEq, Repr

/-- A statement, or a clause of a statement that groups statements below it. -/
inductive Node
  | definition (span : Span) (kind : DefinitionKind) (name : String) (decorators : List Expr)
      (body : List Node)
  | assignment (span : Span) (targets : List Expr)
  | annotated (span : Span) (target : Expr)
  | imports (span : Span) (names : List String)
  | importsFrom (span : Span) (source : String) (names : List String)
  | globals (span : Span) (names : List String)
  /-- A statement with statements below it that defines nothing itself. -/
  | compound (span : Span) (body : List Node)
  /-- A handler or a case: its statements lie one level deeper than those beside it. -/
  | clause (body : List Node)
  | simple (span : Span)

namespace Node

/-- The nodes directly below a node. -/
def children : Node → List Node
  | definition _ _ _ _ body | compound _ body | clause body => body
  | _ => []

/-- The lines of a statement. -/
def span? : Node → Option Span
  | definition s _ _ _ _ | assignment s _ | annotated s _ | imports s _ | importsFrom s _ _
  | globals s _ | compound s _ | simple s => some s
  | clause _ => none

/-- Joins two lists of levels, level by level. -/
def joinLevels : List (List Node) → List (List Node) → List (List Node)
  | [], ys => ys
  | xs, [] => xs
  | x :: xs, y :: ys => (x ++ y) :: joinLevels xs ys

/-- The nodes at and below a node, grouped by depth, each level from left to right. -/
def levels : Node → List (List Node)
  | n@(definition _ _ _ _ body) | n@(compound _ body) | n@(clause body) => [n] :: levelsOfAll body
  | n => [[n]]
where
  /-- The levels of several nodes side by side. -/
  levelsOfAll : List Node → List (List Node)
    | [] => []
    | n :: rest => joinLevels n.levels (levelsOfAll rest)

/-- All nodes at and below the given ones: every level before the next deeper one. -/
def walk (nodes : List Node) : List Node := (levels.levelsOfAll nodes).flatten

end Node

end CodeAtlas.Grammar
