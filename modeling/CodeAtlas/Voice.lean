import CodeAtlas.Workspace

/-!
# How much is told

What the program does along the way is told only if it was asked to be verbose.
-/

namespace CodeAtlas

/-- How much is told: whether everything is, and whether plain output is left away. -/
structure Voice where
  verbose : Bool := false
  quiet : Bool := false
  deriving DecidableEq, Repr

namespace Voice

/-- Warns a user who wants to know everything. -/
def warn (v : Voice) (text : String) : Job Unit :=
  if v.verbose then Job.tell v.quiet (.warning text) else pure ()

/-- Tells something to a user who wants to know everything. -/
def say (v : Voice) (text : String) : Job Unit :=
  if v.verbose then Job.tell v.quiet (.output text) else pure ()

/-- Tells something to a user who wants to know everything, which fails if it cannot be written. -/
def sayResult (v : Voice) (text : Except Error String) : Job Unit :=
  if v.verbose then do Job.tell v.quiet (.output (← Job.look fun _ => text)) else pure ()

/-- A voice that leaves plain output away unless everything is told. -/
def plain (verbose : Bool) : Voice := ⟨verbose, !verbose⟩

end Voice

end CodeAtlas
