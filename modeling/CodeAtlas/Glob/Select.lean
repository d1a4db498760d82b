import CodeAtlas.Disk.Walk
import CodeAtlas.Glob.Basic

/-!
# Patterns of path components

A pattern of path components is compared with the end of a path, or looked up on the disk, where a
component of two stars leads to all directories below.
-/

namespace CodeAtlas.Glob

open CodeAtlas.Path (Pure)

/-- Whether components match patterns, one by one from the end. -/
def matchesParts (patterns parts : List String) : Bool :=
  (patterns.reverse.zip parts.reverse).all fun (pattern, part) => accepts pattern part

/-- Whether a path matches: a pattern from the root has to match all of it, any other one its end. -/
def matchesPath (path : Pure) (pattern : String) : Except Error Bool :=
  let p := Pure.ofString pattern
  if p.allParts.isEmpty then .error .emptyPathPattern
  else if !p.root.isEmpty then
    .ok (p.root == path.root && p.parts.length == path.parts.length && matchesParts p.parts path.parts)
  else .ok (p.parts.length ≤ path.allParts.length && matchesParts p.parts path.allParts)

/-- How one component of a pattern selects. -/
inductive Step
  /-- A plain name. -/
  | name (text : String)
  /-- A name with wildcards. -/
  | wild (text : String)
  /-- All directories from here on. -/
  | anyDepth
  /-- Nothing more: a slash at the end. -/
  | stop

/-- Reads one component. -/
def Step.ofText (text : String) : Except Error Step :=
  if text.isEmpty then .ok .stop
  else if text == "**" then .ok .anyDepth
  else if Text.contains text "**" then .error .mixedDoubleStar
  else if hasWildcard text then .ok (.wild text)
  else .ok (.name text)

/-- Paths that are found one after the other, up to a failure if there is one. -/
structure Search where
  found : List Pure := []
  failure? : Option Error := none

namespace Search

/-- A search that finds one path. -/
def one (path : Pure) : Search := { found := [path] }

/-- A search that fails at once. -/
def fail (e : Error) : Search := { failure? := some e }

/-- One search and then another one, which is not begun if the first one fails. -/
def followedBy (s t : Search) : Search :=
  if s.failure?.isSome then s else { found := s.found ++ t.found, failure? := t.failure? }

/-- A search for each of some things in turn. -/
def each {α : Type} (search : α → Search) : List α → Search
  | [] => {}
  | a :: rest => (search a).followedBy (each search rest)

/-- Whether a path is found before the search fails. -/
def finds (s : Search) (path : Pure) : Except Error Bool :=
  if s.found.contains path then .ok true
  else
    match s.failure? with
    | some e => .error e
    | none => .ok false

end Search

/-- What is at a path, if anything.  A path that is too long to be followed is an error. -/
def probe (d : Disk) (path : Pure) : Except Error (Option Tree) :=
  match d.look path.toString with
  | .ok (_, t) => .ok (some t)
  | .error (.disk .nameTooLong p) => .error (.disk .nameTooLong p)
  | .error _ => .ok none

/-- Reading the entries of a directory, which fails if its path is too long. -/
def opening (path : Pure) : Search :=
  if Disk.maxPath < path.toString.utf8ByteSize then .fail (.disk .nameTooLong (some path.toString)) else {}

/-- The directories at and below a tree under a path, each before those below it. -/
def directoriesFrom (path : Pure) (t : Tree) : List (Pure × Tree) :=
  (t.walk (fun _ _ => true) "").map fun (p, u) => (⟨path.root, path.parts ++ Path.components p⟩, u)

/-- The paths that steps lead to from a tree under a path.  Only directories can be passed through. -/
def selectSteps (d : Disk) : List Step → Pure → Tree → Search
  | [], path, _ => .one path
  | .stop :: _, path, _ => .one path
  | .name text :: rest, path, _ =>
    let next : Pure := ⟨path.root, path.parts ++ [text]⟩
    match probe d next with
    | .ok (some t) => if rest.isEmpty || t.isDirectory then selectSteps d rest next t else {}
    | .ok none => {}
    | .error e => .fail e
  | .wild text :: rest, path, t =>
    (opening path).followedBy <| Search.each (fun (name, u) =>
      if accepts text name && (rest.isEmpty || u.isDirectory) then
        selectSteps d rest ⟨path.root, path.parts ++ [name]⟩ u
      else {}) t.entries
  | .anyDepth :: rest, path, t =>
    Search.each (fun (p, u) => (selectSteps d rest p u).followedBy (opening p)) (directoriesFrom path t)

/-- The steps that a pattern stands for. -/
def stepsOf (pattern : String) : Except Error (List Step) :=
  if pattern.isEmpty then .error (.unacceptablePathPattern pattern)
  else
    let p := Pure.ofString pattern
    if !p.root.isEmpty then .error .rootedPathPattern
    else
      let slash := if pattern.toList.getLast? == some '/' then [""] else []
      (p.parts ++ slash).mapM Step.ofText

/-- The search for the paths below a directory that match a pattern. -/
def select (d : Disk) (root : Pure) (pattern : String) : Except Error Search := do
  let steps ← stepsOf pattern
  match ← probe d root with
  | some t => return if t.isDirectory then selectSteps d steps root t else {}
  | none => return {}

end CodeAtlas.Glob
