import CodeAtlas.Files.Kind
import CodeAtlas.Listing
import CodeAtlas.Tag.Cache
import CodeAtlas.Tag.Rank
import CodeAtlas.Tag.SymbolMap
import CodeAtlas.Tokens.Display

/-!
# Generating the map of a repository

The map lists files by extension.  The tags of the files decide whether the listing is ever split: without
any tag it is not, otherwise it is split as soon as it counts more tokens than allowed, and its parts are
written to temporary files.
-/

namespace CodeAtlas.Map

/-- The fewest tokens that a map may be limited to. -/
def minimum : Int := 4096

/-- The files to map, and how. -/
structure Request where
  /-- The files that are being talked about. -/
  chat : List String := []
  /-- Further files. -/
  others : List String := []
  limit : Int := minimum
  root : String := "."
  /-- Files whose tags are left out if they are being talked about. -/
  personal : List String := []
  mentionedFiles : List String := []
  mentionedNames : List String := []
  count : Counter := SymbolMap.roughCount
  voice : Voice := {}

/-- All files of a request. -/
def Request.files (r : Request) : List String := r.chat ++ r.others

/-- The limit that applies. -/
def Request.effectiveLimit (r : Request) : Int := max r.limit minimum

/-- A map, and the files that its parts were written to. -/
structure Outcome where
  text : String
  parts : List String := []
  deriving DecidableEq, Repr

/-- The files that hold text, by extension in the order in which the extensions come up. -/
def byExtension (d : Disk) (files : List String) : Except Error (List (String × List String)) := do
  let readable ← files.filterM (Files.isText d)
  return (distinct (readable.map Path.extension)).map fun e => (e, readable.filter (Path.extension · == e))

/-- The files as seen from the root of the repository. -/
def relativeNames (root : String) (files : List String) : Job (List String) :=
  files.mapM fun f => Job.look (Listing.relativeName · root f)

/-- The tags of files, of which those in `left` are left out. -/
def collectFiles (v : Voice) (root : String) (left : List String) :
    Cache → List String → Job (List Tag × Cache)
  | c, [] => return ([], c)
  | c, file :: rest => do
    let rel ← Job.look (Listing.relativeName · root file)
    let (own, c) ← if left.contains rel then pure ([], c) else Tag.cached v c file rel
    let (others, c) ← collectFiles v root left c rest
    return (own ++ others, c)

/-- The tags of files that are grouped by extension. -/
def collectGroups (v : Voice) (root : String) (left : List String) :
    Cache → List (String × List String) → Job (List Tag × Cache)
  | c, [] => return ([], c)
  | c, (e, files) :: rest => do
    v.say s!"Processing {files.length} {e} files"
    let (own, c) ← collectFiles v root left c files
    let (others, c) ← collectGroups v root left c rest
    return (own ++ others, c)

/-- The tags of the files of a request, the most important ones first. -/
def collect (r : Request) (c : Cache) : Job (List Tag × Cache) := do
  let chat ← relativeNames r.root r.chat
  r.voice.say s!"After directory expansion: {r.chat.length} chat files and {r.others.length} other files"
  let groups ← Job.look (byExtension · r.files)
  let (tags, c) ← collectGroups r.voice r.root (chat.filter r.personal.contains) c groups
  return (Interest.rank ⟨chat, r.mentionedFiles, r.mentionedNames⟩ tags, c)

/-- The tokens of a map are divided among the files that have tags.  That has to give a double. -/
def checkShare (limit : Int) (tags : List Tag) : Except Error Unit :=
  if Number.exceedsDoubles limit.toNat (distinct (tags.map Tag.relFile)).length then .error .quotientTooLarge
  else .ok ()

/-- The name of the file for a part, whose number has at least five digits. -/
def partName (name stamp : String) (number : Nat) : String :=
  s!"repomap_{name}_{stamp}_part{Number.padded number 5}.txt"

/-- Writes parts to temporary files, numbered from `number` on. -/
def writeParts (r : Request) (name : String) : Nat → List String → Job (List String)
  | _, [] => return []
  | number, part :: rest => do
    let w ← get
    let file := partName name w.stamp number
    let path := Path.join w.temporary file
    Job.write path part
    r.voice.sayResult do
      return s!"Wrote part {number} with {← Tokens.short (r.count part)} tokens to {Path.baseName path}"
    return path :: (← writeParts r name (number + 1) rest)

/-- The map of a listing that is split. -/
def split (r : Request) (paths : List String) : Job Outcome := do
  let parts := Listing.parts r.count r.effectiveLimit paths
  let root ← Job.look (·.absolute r.root)
  let written ← writeParts r (Path.baseName root) 1 parts
  let total := parts.foldr (fun part n => r.count part + n) 0
  r.voice.sayResult do return s!"Repo-map: {← Tokens.short total}"
  let first := parts.headD ""
  return { text := s!"{first}\n\n\nRepository map split into {parts.length} parts", parts := written }

/-- Tells the limit that applies. -/
def tellLimit (r : Request) : Job Unit :=
  r.voice.sayResult do return s!"Max tokens per part: {← Number.written r.effectiveLimit}"

/-- The map that a request asks for. -/
def generate (r : Request) (c : Cache) : Job (Outcome × Cache) := do
  tellLimit r
  let (tags, c) ← collect r c
  let unlimited := (← get).underTest || tags.isEmpty
  Job.look fun _ => if unlimited then .ok () else checkShare r.effectiveLimit tags
  let paths ← relativeNames r.root r.files
  let whole := Listing.render paths
  if unlimited || (r.count whole : Int) ≤ r.effectiveLimit then
    return ({ text := whole }, c)
  else return (← split r paths, c)

end CodeAtlas.Map
