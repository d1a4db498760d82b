import CodeAtlas.Disk.Change
import CodeAtlas.Outline.Extent
import CodeAtlas.Value.Display

/-!
# Searching a file and reporting what was found
-/

namespace CodeAtlas.Outline

/-- What to look for and what to tell about it. -/
structure Request where
  pattern : NamePattern := .any
  withCode : Bool := false
  linesOnly : Bool := false
  includeOthers : Bool := false
  context : Int := 0
  numbered : Bool := false
  signatureOnly : Bool := false
  version : Element.Version := {}

/-- What is told about an element besides its lines. -/
inductive Detail
  | code (text : String)
  | callable (isCallable : Bool) (source : Option String)
  | nothing

/-- What is told about one element. -/
structure Finding where
  name : String
  label : String
  start : Int
  finish : Int
  detail : Detail

/-- The findings in a file, or the complaint that there are none. -/
inductive Outcome
  | found (findings : List Finding)
  | complaint (text : String)

/-- What is told about an element. -/
def Finding.ofElement (r : Request) (lines : List String) (e : Element) : Except Error Finding :=
  let withExtent (x : Extent) : Finding :=
    ⟨e.name, e.kind.label, x.start, x.finish, .code (Extent.numbered x.lines x.start r.numbered)⟩
  match e.kind with
  | .definition _ own =>
    if r.signatureOnly then withExtent <$> Extent.signature e.span.first own lines
    else .ok (plain withExtent)
  | _ => .ok (plain withExtent)
where
  /-- The finding when no signature is asked for. -/
  plain (withExtent : Extent → Finding) : Finding :=
    if r.withCode then withExtent (Extent.around e.span.first e.span.last lines r.context)
    else
      ⟨e.name, e.kind.label, e.span.first, e.span.last,
        if r.linesOnly then .nothing else .callable e.kind.isCallable e.kind.source?⟩

/-- The lines of a source file with their ends, or why it cannot be read. -/
def readLines (d : Disk) (file : String) : Except Error (List String) :=
  Text.linesKeep <$> d.readText (Path.Pure.ofString file).toString

/-- The complaint that a search has found nothing. -/
def nothingFound (r : Request) (file : String) : String :=
  if r.pattern.text == "*" then s!"No code elements found in {file}."
  else s!"No elements matching '{r.pattern.text}' found in {file}."

/-- Searches a source text. -/
def searchText (r : Request) (file source : String) : Except Error Outcome := do
  match ← Element.find source r.pattern r.includeOthers r.version with
  | [] => return .complaint (nothingFound r file)
  | elements => return .found (← elements.mapM (Finding.ofElement r (Text.linesKeep source)))

/-- Searches a file. -/
def search (d : Disk) (r : Request) (file : String) : Except Error Outcome :=
  let path := (Path.Pure.ofString file).toString
  if !d.isFile path then .ok (.complaint s!"File not found: {file}")
  else
    match d.readText path with
    | .ok source => searchText r file source
    | .error e => .ok (.complaint s!"Error reading file: {e.message}")

/-- A finding as a record. -/
def Finding.toValue (f : Finding) : Value :=
  .record <| [("name", .str f.name), ("type", .str f.label), ("start_line", .int f.start),
      ("end_line", .int f.finish)] ++
    match f.detail with
    | .code text => [("code", .str text)]
    | .callable isCallable none => [("is_callable", .bool isCallable)]
    | .callable isCallable (some source) => [("is_callable", .bool isCallable), ("module", .str source)]
    | .nothing => []

/-- An outcome as a record. -/
def Outcome.toValue (file : String) : Outcome → Value
  | .found findings => .record [("results", .list (findings.map Finding.toValue)), ("filename", .str file)]
  | .complaint text => .record [("error", .str text)]

/-- The text of an entry that a record must have. -/
def entryText (record : Value) (key : String) : Except Error String :=
  match record.get? key with
  | some v => .ok v.display
  | none => .error (.missingEntry key)

/-- The first and the last line of a record. -/
def entryLines (record : Value) : Except Error String := do
  let start ← entryText record "start_line"
  let finish ← entryText record "end_line"
  return s!"{start}-{finish}"

/-- The printed form of a record of a finding. -/
def printFinding (r : Request) (record : Value) : Except Error String := do
  if r.withCode || r.signatureOnly then
    let name ← entryText record "name"
    let type ← entryText record "type"
    let lines ← entryLines record
    let code ← entryText record "code"
    return s!"// {name} ({type}, lines {lines}):\n{code}\n\n"
  else if r.linesOnly then
    let name ← entryText record "name"
    let type ← entryText record "type"
    let lines ← entryLines record
    match record.get? "module" with
    | some source => return s!"{name} ({type} from {source.display}): {lines}\n"
    | none => return s!"{name} ({type}): {lines}\n"
  else if (record.get? "is_callable").all Value.isTrue then
    let name ← entryText record "name"
    let lines ← entryLines record
    return s!"Found Callable '{name}' at lines {lines}\n"
  else
    let type ← entryText record "type"
    let name ← entryText record "name"
    let lines ← entryLines record
    match record.get? "module" with
    | some source => return s!"Found {type} '{name}' (from {source.display}) at lines {lines}\n"
    | none => return s!"Found {type} '{name}' at lines {lines}\n"

/-- The printed form of the record of an outcome. -/
def print (r : Request) (record : Value) : Except Error String := do
  match record.get? "error" with
  | some complaint => return complaint.display ++ "\n"
  | none =>
    match record.get? "results" with
    | some (.list (f :: rest)) => return "".intercalate (← (f :: rest).mapM (printFinding r))
    | _ =>
      let file := ((record.get? "filename").map Value.display).getD "file"
      return s!"No matches found in {file}.\n"

end CodeAtlas.Outline
