import CodeAtlas.Files.Access
import CodeAtlas.Glob.Expand
import CodeAtlas.Map.Repository

/-!
# Publishing maps

The map of some paths, or of a directory, with the files that hold it; and the symbols of one file.
-/

namespace CodeAtlas

namespace Map

/-- How a map is published. -/
structure Publication where
  /-- The directory for the files that hold the map. -/
  directory : String := "output"
  tokens : Int := 8192
  verbose : Bool := false
  /-- Whether the map goes to a single file, whatever its size. -/
  single : Bool := false

/-- The tokens of a map that goes to a single file. -/
def singleLimit : Int := 1000000

/-- The settings of the repository whose map is published. -/
def Publication.settings (p : Publication) (encoder : Option Encoder) : Settings :=
  { root := some ".", tokens := if p.single then singleLimit else p.tokens, voice := .plain p.verbose
    count := Encoder.counter encoder }

/-- The name of a repository in the names of its files. -/
def publishedName (name : String) : String := Text.lower (Text.replaceAll name " " "_")

/-- The map of paths, and the files that hold it. -/
def publish (p : Publication) (paths : List String) : Job (String × List String) := do
  Job.makeDirectories p.directory
  let w ← get
  let r ← Repository.create (p.settings w.encoder)
  let name := publishedName (Path.baseName (← Job.look (·.absolute ".")))
  let (text, _) ← r.map [] paths
  if p.single then
    let file := Path.join p.directory s!"repomap_{name}_{w.stamp}.txt"
    let (written, _) ← ({ quiet := !p.verbose } : Access).write file (.ofString text)
    return (text, if written then [file] else [])
  else
    let d ← Job.disk
    return (text, sortTexts (Glob.expand d false (Path.join p.directory s!"repomap_{name}_part*.txt")))

/-- The files in a directory, or those that have one of some extensions, extension by extension. -/
def filesWith (directory : String) (extensions : List Value) : Job (List String) :=
  if extensions.isEmpty then Files.list directory none true
  else List.flatten <$> extensions.mapM fun e => Files.list directory (some (.list [e])) true

/-- The map of the files in a directory that have one of some extensions, if there are any, and the
files that hold it. -/
def publishDirectory (p : Publication) (directory : String) (extensions : List Value) :
    Job (String × List String) := do
  publish p (← filesWith directory extensions)

end Map

/-- A named place in a file. -/
structure Symbol where
  name : String
  line : Int
  kind : String
  deriving DecidableEq, Repr

namespace Symbols

/-- The kind of tags that are symbols. -/
def definition : String := "def"

/-- The key of a tag among symbols. -/
def key (t : Tag) : String := s!"{t.name}:{t.line}"

/-- The symbols among tags by their keys, each key once. -/
def ofTags (tags : List Tag) : List (String × Symbol) :=
  let kept := tags.filter (·.kind == definition)
  (distinct (kept.map key)).filterMap fun k =>
    (kept.find? (key · == k)).map fun t => (k, ⟨t.name, t.line, t.kind⟩)

/-- The symbols of a file. -/
def ofFile (file : String) (verbose : Bool) : Job (List (String × Symbol)) := do
  let directory := Path.directory file
  let settings : Settings :=
    { root := some (if directory.isEmpty then "." else directory), voice := .plain verbose
      count := Encoder.counter (← get).encoder }
  let r ← Repository.create settings
  return ofTags (← r.tags file (some (Path.baseName file)))

end Symbols

end CodeAtlas
