import CodeAtlas.Error

/-!
# The spinner

While something takes long, a spinner turns on the terminal: it appears after half a second and then
takes a new frame at most every tenth of a second.  A terminal that shows plain characters only refuses a
text with others.
-/

namespace CodeAtlas

/-- A kind of time: whether half a second, and whether a tenth of a second, has passed from one time to
another. -/
structure Clock (τ : Type) where
  halfPassed : τ → τ → Bool
  tenthPassed : τ → τ → Bool

/-- Time in seconds as binary numbers. -/
def Clock.seconds : Clock Float := ⟨fun a b => b - a ≥ 0.5, fun a b => b - a ≥ 0.1⟩

/-- The frames of a spinner, and those for a terminal that shows plain characters only. -/
def Spinner.fancyFrames : List String := ["⠋", "⠙", "⠹", "⠸", "⠼", "⠴", "⠦", "⠧", "⠇", "⠏"]

/-- The frames for a terminal that shows plain characters only. -/
def Spinner.plainFrames : List String := ["|", "/", "-", "\\"]

/-- The state of a spinner. -/
structure Spinner (τ : Type) where
  text : String
  start : τ
  /-- The time of the latest step. -/
  latest : τ
  visible : Bool := false
  /-- Whether there is a terminal at all. -/
  terminal : Bool := true
  /-- Whether the terminal shows plain characters only. -/
  plain : Bool := false
  /-- Whether the terminal has been probed. -/
  probed : Bool := false
  /-- The number of frames drawn. -/
  drawn : Nat := 0

namespace Spinner

variable {τ : Type}

/-- A new spinner. -/
def new (text : String) (start : τ) (terminal plain : Bool) : Spinner τ :=
  { text, start, latest := start, terminal, plain }

/-- Tries whether the terminal shows all characters. -/
def probe (s : Spinner τ) : String × Spinner τ :=
  if s.probed then ("", s) else (if s.plain then "" else "⠋\r", { s with probed := true })

/-- The next frame. -/
def frame (s : Spinner τ) : String :=
  let frames := if s.plain then plainFrames else fancyFrames
  (frames[s.drawn % frames.length]?).getD ""

/-- The line with the next frame. -/
def line (s : Spinner τ) : String := "\r" ++ s.text ++ " " ++ s.frame

/-- Where the terminal cannot show the line with the next frame. -/
def fault? (s : Spinner τ) : Option Text.PlainFault := if s.plain then Text.plainFault? s.line else none

/-- Draws the next frame if the spinner is visible. -/
def draw (s : Spinner τ) : Except Error (String × Spinner τ) :=
  if s.visible then
    match s.fault? with
    | some fault => .error (.notShowable fault)
    | none =>
      let (probing, s) := s.probe
      .ok (probing ++ s.line, { s with drawn := s.drawn + 1 })
  else .ok ("", s)

/-- One step at a time. -/
def step (c : Clock τ) (s : Spinner τ) (now : τ) : Except Error (String × Spinner τ) :=
  if !s.terminal then .ok ("", s)
  else
    let drawn :=
      if !s.visible && c.halfPassed s.start now then draw { s with visible := true }
      else if s.visible && c.tenthPassed s.latest now then s.draw
      else .ok ("", s)
    drawn.map fun (printed, s) => (printed, { s with latest := now })

/-- Wipes the spinner away. -/
def finish (s : Spinner τ) : String :=
  if s.visible && s.terminal then "\r" ++ "".pushn ' ' (s.text.length + 3) ++ "\n" else ""

/-- All steps at given times, and the end. -/
def run (c : Clock τ) (s : Spinner τ) : List τ → Except Error String
  | [] => .ok s.finish
  | now :: rest => do
    let (printed, s) ← s.step c now
    return printed ++ (← run c s rest)

/-- The times of a number of steps, a quarter of a second apart. -/
def quarters (now : Float) : Nat → List Float
  | 0 => []
  | n + 1 => (now + 0.25) :: quarters (now + 0.25) n

/-- A spinner that turns for ten seconds, to look at. -/
def demonstration (start : Float) (terminal plain : Bool) : Except Error String :=
  (new "Running spinner..." start terminal plain).run Clock.seconds (quarters start 40)

end Spinner

end CodeAtlas
