/-!
# Counting tokens

A token is about four characters of text.  Where an encoder is at hand that knows a language model,
the tokens of that model are counted instead.
-/

namespace CodeAtlas

/-- A measure of text, in tokens. -/
abbrev Counter := String → Nat

/-- A quarter of the characters, but at least one token. -/
def Counter.approximate : Counter := fun text => max 1 (text.length / 4)

/-- An encoder: the models it knows, and its count. -/
structure Encoder where
  models : List String
  count : Counter

/-- The model whose tokens are counted if no other is named. -/
def defaultModel : String := "gpt-3.5-turbo"

/-- The counter for a model, with the encoder that is at hand. -/
def Encoder.counter (encoder : Option Encoder) (model : String := defaultModel) : Counter :=
  match encoder with
  | some e => if e.models.contains model then e.count else Counter.approximate
  | none => Counter.approximate

end CodeAtlas
