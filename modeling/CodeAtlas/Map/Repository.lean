import CodeAtlas.FileTree
import CodeAtlas.Files.Filter
import CodeAtlas.Map.Generate

/-!
# Repositories

A repository is a root with a cache and the settings of its maps.
-/

namespace CodeAtlas

/-- The settings of a repository. -/
structure Settings where
  root : Option String := none
  /-- The tokens that a map may count; if there are none, the number of files decides. -/
  tokens : Int := 0
  voice : Voice := {}
  /-- Whether maps are never split. -/
  unsplit : Bool := false
  skip : Files.Skip := {}
  count : Counter := SymbolMap.roughCount

/-- A root with a cache and the settings of its maps. -/
structure Repository where
  root : String
  voice : Voice := {}
  unsplit : Bool := false
  count : Counter := SymbolMap.roughCount
  /-- The tokens that a map may count. -/
  limit : Int := Map.minimum
  cache : Cache := {}
  /-- What stands in for the tags of all files, if anything does. -/
  standIn : Option (Except Error (List Tag)) := none

namespace Repository

/-- The tokens per file where the number of files decides. -/
def tokensPerFile : Nat := 8

/-- The limit where the number of files decides. -/
def limitFor (files : Nat) : Int := max Map.minimum ((files * tokensPerFile : Nat) : Int)

/-- The limit of maps without splitting. -/
def noLimit : Int := 9223372036854775807

/-- The root that settings name; if they name none it is the current directory. -/
def rootOf (s : Settings) (d : Disk) : Except Error String :=
  match s.root.filter (!·.isEmpty) with
  | some root => .ok root
  | none => d.herePath

/-- The tokens that a map below a root may count. -/
def limitOf (s : Settings) (root : String) (d : Disk) : Except Error Int :=
  if s.tokens == 0 then do
    let files ← Files.sources d root s.skip
    return limitFor files.length
  else .ok (max s.tokens Map.minimum)

/-- Tells which files are skipped. -/
def tellSkipped (v : Voice) (skip : Files.Skip) : Job Unit := do
  if skip.tests then v.say "Skipping test files and directories"
  if skip.documentation then v.say "Skipping documentation files"
  if skip.versionControl then v.say "Skipping git-related files"

/-- A repository with a new cache. -/
def create (s : Settings) : Job Repository := do
  let root ← Job.look (rootOf s)
  let cache ← Cache.create root s.voice
  let limit ← Job.look (limitOf s root)
  s.voice.say s!"RepoMap initialized with map_mul_no_files: {tokensPerFile}"
  tellSkipped s.voice s.skip
  return { root, voice := s.voice, unsplit := s.unsplit, count := s.count, limit, cache }

/-- Those files that exist; the others are warned of as files of some kind. -/
def present (v : Voice) (kind : String) : List String → Job (List String)
  | [] => return []
  | file :: rest => do
    if (← Job.disk).exists? file then return file :: (← present v kind rest)
    else
      v.warn s!"{kind} file does not exist: {file}"
      present v kind rest

/-- What a repository asks for when it makes a map of files. -/
def request (r : Repository) (chat others mentionedFiles mentionedNames : List String) : Map.Request :=
  { chat, others, limit := if r.unsplit then noLimit else r.limit, root := r.root, mentionedFiles, mentionedNames
    count := r.count, voice := r.voice }

/-- The map of files that are being talked about and of further files. -/
def map (r : Repository) (chat others : List String) (mentionedFiles mentionedNames : List String := []) :
    Job (String × Repository) := do
  let chat ← present r.voice "Chat" chat
  let others ← present r.voice "Other" others
  if r.unsplit then r.voice.say "Map splitting disabled, no token limit"
  let (outcome, cache) ← Map.generate (r.request chat others mentionedFiles mentionedNames) r.cache
  let ending := if (← get).underTest then "\ntest_environment: True" else ""
  return (outcome.text ++ ending, { r with cache })

/-- The tags of a file. -/
def rawTags (r : Repository) (file : String) (relFile : Option String) : Job (List Tag) :=
  Tag.extract r.voice file ((relFile.filter (!·.isEmpty)).getD file)

/-- The tags of a file, or what stands in for them. -/
def tags (r : Repository) (file : String) (relFile : Option String) : Job (List Tag) :=
  match r.standIn with
  | some (.ok tags) => return tags
  | some (.error e) => throw e
  | none => Tag.extract r.voice file (relFile.getD (Path.baseName file))

/-- The tags of all files that exist. -/
def allTags (r : Repository) : List String → Job (List Tag)
  | [] => return []
  | file :: rest => do
    let own ←
      if (← Job.disk).exists? file then
        match ← Job.attempt (r.tags file (some (Path.baseName file))) with
        | .ok tags => pure tags
        | .error e => do
          r.voice.warn s!"Error getting tags for {file}: {e.message}"
          pure []
      else pure []
    return own ++ (← r.allTags rest)

/-- The drawn tree of files. -/
def tree (r : Repository) (d : Disk) (files : List String) (levels : Int) : String :=
  FileTree.renderFiles d r.root files levels

/-- The repository without the database of its cache. -/
def close (r : Repository) : Repository := { r with cache := r.cache.close }

end Repository

end CodeAtlas
