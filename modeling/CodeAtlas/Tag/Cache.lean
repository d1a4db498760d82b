import CodeAtlas.Number.Whole
import CodeAtlas.Tag.Extract

/-!
# The cache of extracted tags

Tags are kept in a database next to the files they come from.  If it cannot be used, they are kept in
memory instead.
-/

namespace CodeAtlas

/-- The database that a cache uses. -/
inductive Connection
  | file (path : String)
  | memory (data : Database)
  | closed

/-- A cache of extracted tags. -/
structure Cache where
  voice : Voice := {}
  connection : Connection := .closed
  /-- Whether the database can be written.  Its file may be gone, or others may hold it. -/
  writable : Bool := true

namespace Cache

/-- The version of what is stored. -/
def version : Int := 3

/-- The directory of the database below a root. -/
def directory (root : String) : String := Path.join root ".repomap.tags.cache.v4"

/-- The file of the database below a root. -/
def file (root : String) : String := Path.join (directory root) "cache.db"

/-- A new database in memory. -/
def fresh : Database := { version := some (toString version), rows := some [] }

/-- The database in a file.  A file with no more than a byte holds an empty one. -/
def open? (d : Disk) (path : String) : Except Error Database :=
  match d.locate path with
  | .ok (.found _ (.file (.database data) _)) => .ok data
  | .ok (.found _ (.file (.bytes []) _)) => .ok {}
  | .ok (.found _ (.file (.bytes [_]) _)) => .ok {}
  | .ok (.found _ (.file (.bytes _) _)) => .error .notADatabase
  | .ok (.absent _ _) => .ok {}
  | _ => .error .databaseUnavailable

/-- Puts a database into a file. -/
def put (path : String) (data : Database) : Job Unit := do
  let time := (← get).now
  Job.change fun d => d.writeContent path (.database data) time

/-- A database that is ready for use: both tables are there, and what an older version has stored is
gone. -/
def prepare (data : Database) : Except Error Database := do
  let rows := data.rows.getD []
  match data.version with
  | none => return ⟨some (toString version), some rows⟩
  | some text =>
    if (← Number.whole text) == version then return ⟨some text, some rows⟩
    else return ⟨some (toString version), some []⟩

/-- Opens the database below a root. -/
def load (root : String) : Job Unit := do
  Job.makeDirectories (directory root)
  let data ← Job.look (open? · (file root))
  match prepare data with
  | .ok data => put (file root) data
  | .error e => do
    put (file root) { data with rows := some (data.rows.getD []) }
    throw e

/-- The cache with a new database in memory, after a failure. -/
def fail (c : Cache) (reason : Option String) : Job Cache := do
  match reason with
  | some text => c.voice.warn s!"Cache error: {text}"
  | none => pure ()
  c.voice.warn "Using temporary cache due to error."
  return { c with connection := .memory fresh, writable := true }

/-- A new cache below a root. -/
def create (root : String) (voice : Voice) : Job Cache := do
  let c : Cache := { voice }
  match ← Job.attempt (load root) with
  | .ok () => do
    voice.say "Cache initialized."
    return { c with connection := .file (file root) }
  | .error e => c.fail (some e.message)

/-- The cache without its database. -/
def close (c : Cache) : Cache := { c with connection := .closed }

/-- The cache after the file at a path was removed.  If its database was in that file, it can be read as before, but no
longer be written. -/
def detach (c : Cache) (before : Disk) (path : String) : Cache :=
  match c.connection with
  | .file own =>
    match before.look own, before.look path with
    | .ok (place, _), .ok (removed, _) =>
      if place == removed then
        { c with connection := .memory ((open? before own).toOption.getD {}), writable := false }
      else c
    | _, _ => c
  | _ => c

/-- The database of a cache, if it has one. -/
def database? (c : Cache) (d : Disk) : Except Error (Option Database) :=
  match c.connection with
  | .file path => some <$> open? d path
  | .memory data => .ok (some data)
  | .closed => .ok none

/-- The rows of a database. -/
def rowsOf (data : Database) : Except Error (List Row) :=
  match data.rows with
  | some rows => .ok rows
  | none => .error (.noSuchTable "file_tags")

/-- What the database has for a path at a time. -/
def find (c : Cache) (d : Disk) (path : Option String) (stamp : Stamp) : Except Error (Option Blob) := do
  match ← c.database? d with
  | none => return none
  | some data => return Database.find? (← rowsOf data) path stamp

/-- What is stored for a path at a time.  A failure of the database is itself not reported properly, nor is content
that is damaged. -/
def get (c : Cache) (d : Disk) (path : Option String) (stamp : Stamp) : Except Error (Option Value) :=
  match c.find d path stamp with
  | .ok (some .damaged) => .error .unreportableContent
  | .ok found => .ok (found.bind Blob.value?)
  | .error _ => .error .unreportableRead

/-- Puts a database in the place of the one that a cache uses. -/
def replace (c : Cache) (data : Database) : Job Cache :=
  if c.writable then
    match c.connection with
    | .file path => do
      put path data
      return c
    | .memory _ => return { c with connection := .memory data }
    | .closed => return c
  else throw .readOnlyDatabase

/-- Puts a row into the database. -/
def insert (c : Cache) (row : Row) : Job Cache := do
  match ← Job.look c.database? with
  | none => return c
  | some data =>
    let rows ← Job.look fun _ => rowsOf data
    c.replace { data with rows := some (Database.store rows row) }

/-- Whether a cache has a database. -/
def isConnected (c : Cache) : Bool :=
  match c.connection with
  | .closed => false
  | _ => true

/-- Stores something for a path at a time, and tells whether it is stored.  A failure of the database is itself not
reported properly. -/
def save (c : Cache) (path : Option String) (stamp : Stamp) (content : Value) : Job (Bool × Cache) := do
  if c.isConnected then
    match ← Job.attempt (c.insert ⟨path, stamp, .value content⟩) with
    | .ok c => return (true, c)
    | .error _ => throw .unreportableWrite
  else return (false, c)

/-- The version that is stored in the database of a cache. -/
def storedVersion (c : Cache) (d : Disk) : Option String :=
  match c.database? d with
  | .ok (some data) => data.version
  | _ => none

/-- Takes the table of rows away. -/
def dropRows (c : Cache) : Job Cache := do
  match ← Job.look c.database? with
  | none => throw (.noAttribute "NoneType" "execute")
  | some data => do
    let _ ← Job.look fun _ => rowsOf data
    c.replace { data with rows := none }

/-- Stores another version in the database below a root. -/
def setVersion (root version : String) : Job Unit := do
  if !(← Job.disk).isDirectory (directory root) then throw .databaseUnavailable
  let data ← Job.look (open? · (file root))
  put (file root) data
  match data.version with
  | some _ => put (file root) { data with version := some version }
  | none => throw (.noSuchTable "meta")

end Cache

namespace Tag

/-- Tags as a value. -/
def listValue (tags : List Tag) : Value := .list (tags.map toValue)

/-- The tags that a value holds. -/
def ofListValue : Value → List Tag
  | .list items => items.filterMap ofValue?
  | _ => []

/-- The tags of a file, from the cache if they are there for its last change. -/
def cached (v : Voice) (c : Cache) (file relFile : String) : Job (List Tag × Cache) := do
  let d ← Job.disk
  if !d.isFile file then return ([], c)
  else
    let stamp := Stamp.ofFloat (← Job.look (·.modifiedSeconds file))
    match ← Job.look fun d => c.get d (some relFile) stamp with
    | some value => return (ofListValue value, c)
    | none => do
      let tags ← extract v file relFile
      let (_, c) ← c.save (some relFile) stamp (listValue tags)
      return (tags, c)

end Tag

end CodeAtlas
