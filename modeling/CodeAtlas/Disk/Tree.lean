import CodeAtlas.Disk.Database
import CodeAtlas.Text.Utf8

/-!
# Files and directories

The content of a disk as a value: a tree whose leaves are files.  A directory keeps its entries in
the order in which they were made, and no name occurs twice among them.
-/

namespace CodeAtlas

/-- What a file holds: bytes, or the database of extracted tags. -/
inductive Content
  | bytes (data : List UInt8)
  | database (data : Database)

/-- The bytes that a reader of a file sees.  Of a database only the mark at its start is given. -/
def Content.toBytes : Content → List UInt8
  | bytes data => data
  | database _ => Text.encode "SQLite format 3\x00"

/-- A file or a directory. -/
inductive Tree
  /-- A file, with the time of its last change in nanoseconds. -/
  | file (content : Content) (modified : Int)
  | directory (entries : List (String × Tree))

namespace Tree

/-- A directory without entries. -/
def empty : Tree := directory []

/-- Whether a tree is a directory. -/
def isDirectory : Tree → Bool
  | directory _ => true
  | file _ _ => false

/-- The entries of a directory; a file has none. -/
def entries : Tree → List (String × Tree)
  | directory es => es
  | file _ _ => []

/-- The entry of a directory with a given name. -/
def child? (t : Tree) (name : String) : Option Tree := t.entries.lookup name

/-- What a list of names leads to. -/
def get? : Tree → List String → Option Tree
  | t, [] => some t
  | t, name :: rest => t.child? name >>= (get? · rest)

/-- Puts an entry under a name, in the place of an earlier one if there is one. -/
def putEntry (name : String) (t : Tree) : List (String × Tree) → List (String × Tree)
  | [] => [(name, t)]
  | (n, u) :: rest => if n == name then (n, t) :: rest else (n, u) :: putEntry name t rest

/-- Puts a tree where a list of names leads to.  Missing directories on the way are made, and a file
on the way gives way to a directory. -/
def put : List String → Tree → Tree → Tree
  | [], t, _ => t
  | name :: rest, t, u => directory (putEntry name (put rest t ((u.child? name).getD empty)) u.entries)

/-- Takes away what a list of names leads to. -/
def erase : List String → Tree → Tree
  | [], t => t
  | _, file c m => file c m
  | [name], directory es => directory (es.filter (·.1 != name))
  | name :: rest, directory es =>
    directory (es.map fun (n, u) => if n == name then (n, erase rest u) else (n, u))

/-- All files at and below a tree, with the names that lead to them. -/
def files : Tree → List (List String × Content × Int)
  | file c m => [([], c, m)]
  | directory es => below es
where
  /-- The files below the entries of a directory. -/
  below : List (String × Tree) → List (List String × Content × Int)
    | [] => []
    | (name, t) :: rest => t.files.map (fun (path, f) => (name :: path, f)) ++ below rest

end Tree

end CodeAtlas
