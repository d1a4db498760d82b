import CodeAtlas.Disk.Change
import CodeAtlas.Sorting
import CodeAtlas.Tokens.Counter

/-!
# Listings of files by extension

Files are listed under their extensions, in order.  A listing that counts too many tokens is cut into
parts, each of which starts with the title, and repeats the extension that was being listed.
-/

namespace CodeAtlas.Listing

/-- A path as seen from a root.  An empty path stays empty. -/
def relativeName (d : Disk) (root path : String) : Except Error String :=
  if path.isEmpty then .ok path else d.relative root path

/-- The name of the group without an extension. -/
def noExtension : String := "no extension"

/-- The group to which a path belongs. -/
def groupOf (path : String) : String :=
  let e := Path.extension path
  if e.isEmpty then noExtension else e

/-- How a group is headed. -/
def heading (group : String) : String :=
  if group == noExtension then "files without extension:" else group ++ " files:"

/-- Files by extension: the groups in order, and the files of each in order. -/
def groups (paths : List String) : List (String × List String) :=
  (sortTexts (distinct (paths.map groupOf))).map fun g => (g, sortTexts (paths.filter (groupOf · == g)))

/-- The first line of a listing. -/
def title : String := "Repository contents:"

/-- The line of a file. -/
def fileLine (path : String) : String := "  " ++ path

/-- The listing of paths. -/
def render (paths : List String) : String :=
  if paths.isEmpty then "No files found."
  else
    Text.joined "\n" (title :: "" :: (groups paths).flatMap fun (g, files) =>
      heading g :: files.map fileLine ++ [""])

/-- The finished parts, and the lines of the current one with their tokens. -/
structure Parts where
  done : List String := []
  lines : List String
  tokens : Nat

/-- A new part, after the given ones. -/
def Parts.start (count : Counter) (done : List String) : Parts := ⟨done, [title], count title⟩

/-- The current part as a text. -/
def Parts.text (p : Parts) : String := Text.joined "\n" p.lines

/-- The current part is finished and a new one is begun. -/
def Parts.next (count : Counter) (p : Parts) : Parts := Parts.start count (p.done ++ [p.text])

/-- Appends a line. -/
def Parts.append (count : Counter) (p : Parts) (line : String) : Parts :=
  { p with lines := p.lines ++ [line], tokens := p.tokens + count line }

/-- Whether a line is too much for the current part. -/
def Parts.exceeds (count : Counter) (limit : Int) (p : Parts) (line : String) : Bool :=
  limit < (p.tokens + count line : Nat)

/-- The line of a heading in a part. -/
def headingLine (group : String) : String := "\n" ++ heading group

/-- Appends a heading, to a new part if need be. -/
def Parts.addHeading (count : Counter) (limit : Int) (p : Parts) (group : String) : Parts :=
  let line := headingLine group
  (if p.exceeds count limit line then p.next count else p).append count line

/-- Appends a file, to a new part with the same heading if need be. -/
def Parts.addFile (count : Counter) (limit : Int) (group : String) (p : Parts) (path : String) : Parts :=
  let line := fileLine path
  (if p.exceeds count limit line then (p.next count).append count (headingLine group) else p).append count line

/-- Appends a group. -/
def Parts.addGroup (count : Counter) (limit : Int) (p : Parts) (group : String × List String) : Parts :=
  group.2.foldl (Parts.addFile count limit group.1) (p.addHeading count limit group.1)

/-- The listing of paths in parts. -/
def parts (count : Counter) (limit : Int) (paths : List String) : List String :=
  let p := (groups paths).foldl (Parts.addGroup count limit) (Parts.start count [])
  p.done ++ [p.text]

end CodeAtlas.Listing
