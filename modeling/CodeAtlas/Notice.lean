/-!
# Notices

What the program tells its user while it works: plain output, warnings and errors.
-/

namespace CodeAtlas

/-- One message to the user. -/
inductive Notice
  | output (text : String)
  | warning (text : String)
  | error (text : String)
  deriving DecidableEq, Repr

/-- What has been written to the two output streams. -/
structure Console where
  out : String := ""
  err : String := ""
  deriving DecidableEq, Repr

namespace Console

/-- Writes a text to the first stream. -/
def print (c : Console) (text : String) : Console := { c with out := c.out ++ text }

/-- Writes a notice as a line.  A quiet console leaves plain output away. -/
def tell (quiet : Bool) (c : Console) : Notice → Console
  | .output text => if quiet then c else { c with out := c.out ++ text ++ "\n" }
  | .warning text => { c with err := c.err ++ "WARNING: " ++ text ++ "\n" }
  | .error text => { c with err := c.err ++ "ERROR: " ++ text ++ "\n" }

end Console

end CodeAtlas
