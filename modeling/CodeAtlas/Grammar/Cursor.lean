import CodeAtlas.Grammar.Token

/-!
# Reading tokens

A reader consumes tokens from the front of a list and may fail.  Failure carries no reason: a source
either has a statement tree or it has none.  That tokens are only ever consumed from the front, and that
the line of the last lexeme is kept account of, is part of what a reader is.
-/

namespace CodeAtlas.Grammar

/-- The tokens not yet read, and the line on which the last lexeme that was read ended. -/
structure Cursor where
  tokens : List Token
  lastLine : Nat := 0

/-- A token that shapes lines and blocks and is no lexeme. -/
def Token.isLayout (t : Token) : Bool :=
  t.kind == .newline || t.kind == .indent || t.kind == .dedent || t.kind == .endMarker

/-- The line on which the last lexeme ended once a token has been read. -/
def Token.lastLineAfter (last : Nat) (t : Token) : Nat := if t.isLayout then last else t.lastLine

/-- A cursor is reached from another one by reading tokens. -/
def Cursor.Reaches (c c' : Cursor) : Prop :=
  ∃ read, c.tokens = read ++ c'.tokens ∧ c'.lastLine = read.foldl Token.lastLineAfter c.lastLine

theorem Cursor.Reaches.refl (c : Cursor) : c.Reaches c := ⟨[], rfl, rfl⟩

theorem Cursor.Reaches.trans {c c₁ c' : Cursor} (h : c.Reaches c₁) (h' : c₁.Reaches c') : c.Reaches c' := by
  obtain ⟨read, htokens, hlast⟩ := h
  obtain ⟨more, htokens', hlast'⟩ := h'
  refine ⟨read ++ more, ?_, ?_⟩
  · rw [htokens, htokens', List.append_assoc]
  · rw [hlast', hlast, List.foldl_append]

/-- Consumes tokens from the front and gives a result, or fails. -/
structure Reader (α : Type) where
  run : Cursor → Option (α × Cursor)
  reaches : ∀ {c c' : Cursor} {a : α}, run c = some (a, c') → c.Reaches c'

theorem Reader.advances {α : Type} (r : Reader α) {c c' : Cursor} {a : α} (h : r.run c = some (a, c')) :
    c'.tokens <:+ c.tokens := by
  obtain ⟨read, htokens, -⟩ := r.reaches h
  exact ⟨read, htokens.symm⟩

/-- The words that are no identifiers. -/
def keywords : List String :=
  ["False", "None", "True", "and", "as", "assert", "break", "class", "continue", "def", "del",
   "elif", "else", "except", "finally", "for", "from", "global", "if", "import", "in", "is",
   "lambda", "nonlocal", "not", "or", "pass", "raise", "return", "try", "while", "with", "yield"]

/-- A token that is an identifier. -/
def Token.isIdentifier (t : Token) : Bool := t.kind == .name && !keywords.contains t.text

/-- A token that is the given operator. -/
def Token.isOp (t : Token) (text : String) : Bool := t.kind == .operator && t.text == text

/-- A token that is the given word. -/
def Token.isWord (t : Token) (text : String) : Bool := t.kind == .name && t.text == text

namespace Reader

variable {α β : Type}

/-- Looks at the cursor and consumes nothing. -/
def look (f : Cursor → α) : Reader α where
  run c := some (f c, c)
  reaches h := by
    cases h
    exact .refl _

/-- Reads on with what has been read. -/
def andThen (p : Reader α) (f : α → Reader β) : Reader β where
  run c := (p.run c).bind fun (a, c) => (f a).run c
  reaches h := by
    obtain ⟨⟨a, c⟩, hp, hf⟩ := Option.bind_eq_some_iff.1 h
    exact (p.reaches hp).trans ((f a).reaches hf)

/-- Fails in any case. -/
def fail : Reader α where
  run _ := none
  reaches h := nomatch h

/-- Reads in one way or, if that fails, in another. -/
def orElse (p : Reader α) (q : Unit → Reader α) : Reader α where
  run c := (p.run c).or ((q ()).run c)
  reaches {c c' a} h := by
    cases hp : p.run c with
    | none => exact (q ()).reaches (by simpa [hp] using h)
    | some _ => exact p.reaches (by simpa [hp] using h)

instance : Monad Reader where
  pure a := look fun _ => a
  bind := andThen

instance : Alternative Reader where
  failure := fail
  orElse := orElse

/-- Whether the next token satisfies a test. -/
def next (p : Token → Bool) : Reader Bool := look (·.tokens.head?.any p)

/-- Whether the next two tokens satisfy two tests. -/
def nextTwo (p q : Token → Bool) : Reader Bool := look fun c =>
  match c.tokens with
  | a :: b :: _ => p a && q b
  | _ => false

/-- The line of the next token, which is not consumed. -/
def line : Reader Nat where
  run c := c.tokens.head?.map fun t => (t.line, c)
  reaches h := by
    obtain ⟨t, -, h⟩ := Option.map_eq_some_iff.1 h
    cases h
    exact .refl _

/-- The line on which the last lexeme ended. -/
def lastLine : Reader Nat := look (·.lastLine)

/-- Consumes a token that satisfies a test. -/
def token (p : Token → Bool) : Reader Token where
  run c :=
    match c.tokens with
    | t :: rest => if p t then some (t, ⟨rest, t.lastLineAfter c.lastLine⟩) else none
    | [] => none
  reaches {c c' a} h := by
    cases htokens : c.tokens with
    | nil => simp [htokens] at h
    | cons t rest =>
      obtain ⟨-, rfl, rfl⟩ : p t = true ∧ t = a ∧ _ = c' := by simpa [htokens] using h
      exact ⟨[t], htokens, rfl⟩

/-- Consumes an operator. -/
def op (text : String) : Reader Unit := discard (token (·.isOp text))

/-- Consumes a word. -/
def word (text : String) : Reader Unit := discard (token (·.isWord text))

/-- Consumes a token of a kind. -/
def kind (k : TokenKind) : Reader Unit := discard (token (·.kind == k))

/-- Whether the given operator comes next. -/
def atOp (text : String) : Reader Bool := next (·.isOp text)

/-- Whether the given word comes next. -/
def atWord (text : String) : Reader Bool := next (·.isWord text)

/-- Consumes an identifier and gives its normal form. -/
def identifier : Reader String := do
  return Text.normalizeIdentifier (← token Token.isIdentifier).text

/-- Fails unless the condition holds. -/
def require (condition : Bool) : Reader Unit := if condition then pure () else failure

/-- Tries to read; on failure nothing is consumed. -/
def attempt (p : Reader α) : Reader (Option α) := (some <$> p) <|> pure none

/-- Consumes an operator if it comes next. -/
def skipOp (text : String) : Reader Bool := do return (← attempt (op text)).isSome

/-- Consumes a word if it comes next. -/
def skipWord (text : String) : Reader Bool := do return (← attempt (word text)).isSome

/-- Consumes a token of a kind if it comes next. -/
def skipKind (k : TokenKind) : Reader Bool := do return (← attempt (kind k)).isSome

/-- Reads as often as possible, at most the given number of times. -/
def upTo (p : Reader α) : Nat → Reader (List α)
  | 0 => pure []
  | n + 1 => do
    match ← attempt p with
    | some a => return a :: (← upTo p n)
    | none => return []

/-- A reading that may depend on how many tokens are left. -/
def sized (f : Nat → Reader α) : Reader α where
  run c := (f c.tokens.length).run c
  reaches h := (f _).reaches h

/-- Reads as often as possible.  A successful reading consumes a token, so their number bounds the
repetition. -/
def many (p : Reader α) : Reader (List α) := sized (upTo p)

/-- Reads at least once and as often as possible. -/
def many1 (p : Reader α) : Reader (List α) := do return (← p) :: (← many p)

/-- Reads a list with commas between its members. -/
def commaSeparated (p : Reader α) : Reader (List α) := do
  return (← p) :: (← many (do op ","; p))

end Reader

end CodeAtlas.Grammar
