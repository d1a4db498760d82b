import CodeAtlas.Text.Fields

/-!
# Paths

Paths are texts whose components are divided by slashes.  Everything here works on the spelling
alone: no file is looked at, and a path that starts at the current directory needs to be told which
one that is.
-/

namespace CodeAtlas.Path

/-- A path that starts at the root. -/
def isAbsolute (p : String) : Bool := p.toList.head? == some '/'

/-- A path followed by another one; a path from the root replaces what is before it. -/
def join (a b : String) : String :=
  if isAbsolute b then b
  else if a.isEmpty || a.toList.getLast? == some '/' then a ++ b
  else a ++ "/" ++ b

/-- One more component on a stack of components, the last one on top: a dot changes nothing and two
dots take the component before away, where there is one that can be taken. -/
def pushComponent (rooted : Bool) (stack : List String) (component : String) : List String :=
  if component == "" || component == "." then stack
  else if component == ".." then
    match stack with
    | [] => if rooted then [] else [".."]
    | top :: rest => if top == ".." then component :: stack else rest
  else component :: stack

/-- The components of a path after normalization. -/
def normalComponents (rooted : Bool) (components : List String) : List String :=
  (components.foldl (pushComponent rooted) []).reverse

/-- The slashes with which a path starts, of which exactly two are kept and more count as one. -/
def rootOf (p : String) : String :=
  match p.toList.takeWhile (· == '/') with
  | [] => ""
  | ['/', '/'] => "//"
  | _ => "/"

/-- The shortest spelling of a path: no empty components, no dots, and two dots only at the start of
a path that has no root. -/
def normalize (p : String) : String :=
  let root := rootOf p
  let text := root ++ Text.joined "/" (normalComponents (root != "") (Text.fields '/' p))
  if text.isEmpty then "." else text

/-- A path as seen from the root, given the current directory. -/
def absolute (here p : String) : String := normalize (if isAbsolute p then p else join here p)

/-- The components of a path that are not empty. -/
def components (p : String) : List String := (Text.fields '/' p).filter (!·.isEmpty)

/-- Takes away the start that two lists have in common. -/
def dropCommon : List String → List String → List String × List String
  | a :: as, b :: bs => if a == b then dropCommon as bs else (a :: as, b :: bs)
  | as, bs => (as, bs)

/-- The way from one directory to a path, both seen from the root. -/
def relativeTo (start p : String) : String :=
  let (up, down) := dropCommon (components start) (components p)
  let steps := up.map (fun _ => "..") ++ down
  if steps.isEmpty then "." else Text.joined "/" steps

/-- The characters before and after the last slash, the slash itself with the first part. -/
def splitLast (p : String) : List Char × List Char :=
  let cs := p.toList.reverse
  ((cs.dropWhile (· != '/')).reverse, (cs.takeWhile (· != '/')).reverse)

/-- The part of a path after its last slash. -/
def baseName (p : String) : String := String.ofList (splitLast p).2

/-- The part of a path before its last slash, without the slashes at its end unless it has nothing
else. -/
def directory (p : String) : String :=
  let head := (splitLast p).1
  if head.all (· == '/') then String.ofList head
  else String.ofList (head.reverse.dropWhile (· == '/')).reverse

/-- A path without its extension, and the extension with its dot.  Dots at the start of the last
component begin no extension. -/
def splitExtension (p : String) : String × String :=
  let (head, name) := splitLast p
  let (dots, rest) := (name.takeWhile (· == '.'), name.dropWhile (· == '.'))
  if rest.contains '.' then
    let tail := rest.reverse.takeWhile (· != '.')
    let stem := rest.take (rest.length - tail.length - 1)
    (String.ofList (head ++ dots ++ stem), String.ofList ('.' :: tail.reverse))
  else (p, "")

/-- The extension of a path with its dot, or nothing. -/
def extension (p : String) : String := (splitExtension p).2

/-- A path as its root and its components.  Two dots are a component like any other. -/
structure Pure where
  root : String
  parts : List String
  deriving DecidableEq, Repr

namespace Pure

/-- The components that are neither empty nor a dot. -/
def plainComponents (p : String) : List String :=
  (Text.fields '/' p).filter fun c => c != "" && c != "."

/-- Reads a path. -/
def ofString (p : String) : Pure := ⟨rootOf p, plainComponents p⟩

/-- A path followed by another one. -/
def append (a b : Pure) : Pure := if b.root.isEmpty then ⟨a.root, a.parts ++ b.parts⟩ else b

/-- The text of a path. -/
def toString (p : Pure) : String :=
  let text := p.root ++ Text.joined "/" p.parts
  if text.isEmpty then "." else text

/-- The root, if there is one, and the components. -/
def allParts (p : Pure) : List String := if p.root.isEmpty then p.parts else p.root :: p.parts

/-- The last component. -/
def name (p : Pure) : String := p.parts.getLast?.getD ""

/-- The part of a name from its last dot on, if there is something on both sides of the dot. -/
def suffixOf (name : String) : String :=
  let cs := name.toList
  let tail := cs.reverse.takeWhile (· != '.')
  let dot := cs.length - tail.length
  if cs.contains '.' && 1 < dot && !tail.isEmpty then String.ofList ('.' :: tail.reverse) else ""

/-- The suffix of the last component. -/
def suffix (p : Pure) : String := suffixOf p.name

/-- The path without its last component. -/
def parent (p : Pure) : Pure := ⟨p.root, p.parts.dropLast⟩

end Pure

end CodeAtlas.Path
