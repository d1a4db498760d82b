import CodeAtlas.Disk.Change
import CodeAtlas.Sorting
import CodeAtlas.Text.Case

/-!
# Drawn trees of files

A tree of named nodes, drawn with directories before files and each group by name without regard to
case.  The nodes below a node keep the order in which they came, which decides between names that differ
in case only.
-/

namespace CodeAtlas

/-- A named node, which may be a directory, and the nodes below it. -/
inductive FileTree
  | node (name : String) (isDirectory : Bool) (children : List FileTree)

namespace FileTree

/-- The name of a node. -/
def name : FileTree → String
  | node n _ _ => n

/-- Whether a node is a directory. -/
def isDirectory : FileTree → Bool
  | node _ d _ => d

/-- The nodes below a node. -/
def children : FileTree → List FileTree
  | node _ _ cs => cs

/-- A node with nothing below it. -/
def leaf (name : String) (isDirectory : Bool) : FileTree := node name isDirectory []

/-- The node of a given name below a node. -/
def child? (t : FileTree) (name : String) : Option FileTree := t.children.find? (·.name == name)

/-- Changes the first node of a given name, or adds one that `new` gives. -/
def upsert (name : String) (new : FileTree) (f : FileTree → FileTree) : List FileTree → List FileTree
  | [] => [f new]
  | c :: cs => if c.name == name then f c :: cs else c :: upsert name new f cs

/-- Adds a node below a node.  One of the same name that is already there stays as it is. -/
def add (name : String) (isDirectory : Bool) : FileTree → FileTree
  | node n d cs => node n d (upsert name (leaf name isDirectory) id cs)

/-- Adds all nodes on the way to a file. -/
def insert : List String → FileTree → FileTree
  | [], t => t
  | [name], t => t.add name false
  | name :: rest, node n d cs => node n d (upsert name (leaf name true) (insert rest) cs)

/-- What a list of names leads to. -/
def get? : List String → FileTree → Option FileTree
  | [], t => some t
  | name :: rest, t => t.child? name >>= get? rest

/-- Changes what a list of names leads to; the first name that leads nowhere is the error. -/
def modifyAt (f : FileTree → FileTree) : List String → FileTree → Except Error FileTree
  | [], t => .ok (f t)
  | name :: rest, node n d cs =>
    match cs.find? (·.name == name) with
    | some c => do
      let changed ← modifyAt f rest c
      return node n d (upsert name c (fun _ => changed) cs)
    | none => .error (.missingEntry name)

/-- What a list of names leads to, or the first name that leads nowhere. -/
def find (path : List String) (t : FileTree) : Except Error FileTree :=
  match path with
  | [] => .ok t
  | name :: rest =>
    match t.child? name with
    | some c => find rest c
    | none => .error (.missingEntry name)

/-- A drawing that still has to be told where it stands: the text in front of it, whether it is the last
one below its node, and how many levels are left. -/
abbrev Drawing := (indent : String) → (last : Bool) → (levels : Int) → String

/-- The order of drawings: directories first, then by name without regard to case. -/
def drawnBefore (a b : Bool × String × Drawing) : Bool :=
  (a.1 && !b.1) || (a.1 == b.1 && textBefore a.2.1 b.2.1)

/-- Drawings one below the other. -/
def drawAll (indent : String) (levels : Int) : List Drawing → String
  | [] => ""
  | [d] => d indent true levels
  | d :: rest => d indent false levels ++ drawAll indent levels rest

/-- The drawing of a tree. -/
def draw : FileTree → Drawing
  | node name isDirectory cs, indent, last, levels =>
    if levels < 0 then ""
    else
      let line := indent ++ (if last then "└── " else "├── ") ++ name ++ (if isDirectory then "/" else "") ++ "\n"
      let below := (sortBy drawnBefore (drawings cs)).map fun (_, _, d) => d
      line ++ drawAll (indent ++ (if last then "    " else "│   ")) (levels - 1) below
where
  /-- The drawings of nodes, with what decides their order. -/
  drawings : List FileTree → List (Bool × String × Drawing)
    | [] => []
    | c :: cs => (c.isDirectory, Text.lower c.name, c.draw) :: drawings cs

/-- The drawing under a title. -/
def render (t : FileTree) (levels : Int) : String := "Repository Tree:\n" ++ t.draw "" true levels

/-- The tree of those files that exist, as seen from a root; no files have no tree. -/
def ofFiles? (d : Disk) (root : String) (files : List String) : Option FileTree :=
  if files.isEmpty then none
  else
    some <| files.foldl (fun t file =>
      if d.exists? file then
        match d.relative root file with
        | .ok rel => t.insert (Text.fields '/' rel)
        | .error _ => t
      else t) (leaf "Repository Root" true)

/-- The drawing of the tree of files. -/
def renderFiles (d : Disk) (root : String) (files : List String) (levels : Int) : String :=
  match ofFiles? d root files with
  | some t => t.render levels
  | none => "No files found."

end FileTree

end CodeAtlas
