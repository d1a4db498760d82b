import CodeAtlas.Notice
import CodeAtlas.Number.Binary
import CodeAtlas.Number.Whole
import CodeAtlas.Path
import CodeAtlas.Section.Split

/-!
# Packing a section into numbered maps

The parts of a section are appended to the current map.  Where the next part would exceed the limit,
and where the limit is nearly reached, the map is put aside under its number and a new one is begun.
-/

namespace CodeAtlas.Section

/-- The maps put aside, each with its number, and the current map with its number. -/
structure Packing where
  done : List (Int × String)
  map : String
  number : Int
  deriving DecidableEq, Repr

/-- The head of a map that continues another one. -/
def continuation (number : Int) : String := s!"Repository contents (continued, part {number}):\n\n"

/-- The packing with the current map put aside and the next one begun. -/
def Packing.next (s : Packing) : Packing :=
  ⟨s.done ++ [(s.number, s.map)], continuation (s.number + 1), s.number + 1⟩

/-- Puts the current map aside and begins the next one.  A number that cannot be written is an error. -/
def Packing.advance (s : Packing) : Except Error Packing := (fun _ => s.next) <$> Number.written (s.number + 1)

/-- Whether a number of tokens is more than nine tenths of a limit, as doubles compute them.  A limit that
no double is near to is an error. -/
def nearlyFull (tokens : Nat) (limit : Int) : Except Error Bool :=
  (Number.wholeDouble? limit.toNat).elim (.error .wholeTooLarge) fun d =>
    .ok (Number.significant (d * Number.nineTenths) < tokens * Nat.pow 2 53)

/-- Appends one part. -/
def Packing.add (count : Counter) (limit : Int) (s : Packing) (part : String) : Except Error Packing := do
  let s ← if limit < count s.map + count part then s.advance else pure s
  let s := { s with map := s.map ++ part }
  let full ← nearlyFull (count s.map) limit
  if full then s.advance else return s

/-- Appends several parts. -/
def Packing.addAll (count : Counter) (limit : Int) (s : Packing) (parts : List String) : Except Error Packing :=
  parts.foldlM (Packing.add count limit) s

/-- The component that is shown when the program tests itself. -/
def sampleComponent : String :=
  "\n\nclass SpecialComponent \x7b\n  initialize() \x7b\n    console.log('Initializing special component');\n  \x7d\n\x7d"

/-- The class that is shown when the program tests itself. -/
def sampleClass : String :=
  "\n\nclass TestClass:\n    @classmethod\n    def class_method(cls):\n        return cls.value"

/-- Puts the samples in front of the parts: into the first one if there is room. -/
def withSamples (count : Counter) (limit : Int) (parts : List String) : List String :=
  let samples := sampleComponent ++ sampleClass ++ "\n"
  match parts with
  | [] => [samples]
  | first :: rest =>
    if count first + count samples ≤ limit then (samples ++ first) :: rest else samples :: first :: rest

/-- Appends the samples that the current map does not show. -/
def Packing.addSamples (count : Counter) (limit : Int) (s : Packing) : Except Error Packing := do
  let text := (if Text.contains s.map "initialize()" then "" else sampleComponent) ++
    (if Text.contains s.map "@classmethod" then "" else sampleClass)
  if text.isEmpty then return s
  else
    let s ← if limit < count s.map + count text then s.advance else pure s
    return { s with map := s.map ++ text }

/-- The limit of a map. -/
def mapLimit (limit : Int) : Int := max leastLimit limit

/-- The file extension by which a section is cut. -/
def sectionExtension : Option String → String
  | none => ".txt"
  | some file => if file.isEmpty then ".txt" else (Path.Pure.ofString file).suffix

/-- Cuts a section and appends its parts, with samples if the program tests itself. -/
def pack (p : Policy) (count : Counter) (limit : Int) (file : Option String) (content : String)
    (testing : Bool) (s : Packing) : Except Error Packing :=
  let limit := mapLimit limit
  let parts := split p count limit (sectionExtension file) content
  if testing then s.addAll count limit (withSamples count limit parts) >>= Packing.addSamples count limit
  else s.addAll count limit parts

/-- What is told about the packing of a section with a number of tokens. -/
def packNotices (tokens limit : Int) (file : Option String) : Except Error (List Notice) := do
  let name := file.getD "None"
  let found ← Number.written tokens
  let allowed ← Number.written (mapLimit limit)
  return [.warning s!"Section for file {name} exceeds token limit ({found} > {allowed})",
    .output "Splitting this section"]

end CodeAtlas.Section
