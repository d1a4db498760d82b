import CodeAtlas.Text.Case
import CodeAtlas.Text.Fields
import Mathlib.Algebra.GroupWithZero.Nat
import Mathlib.Data.List.Infix

/-!
# Names in lower case

A name whose spaces are replaced and whose letters are put in lower case either stays as it is, or differs from itself
at some character: no text starts with both.
-/

namespace CodeAtlas.Text

theorem lowerExpansions_eq : lowerExpansions = [(304, [105, 775])] := by decide +kernel

/-- A character in lower case is a single character, except for a dotted capital I. -/
theorem lowerFrom_cons (before rest : List Char) (c : Char) :
    ∃ here, lowerFrom before (c :: rest) = here ++ lowerFrom (c :: before) rest ∧
      ((∃ e, here = [e]) ∨ c.toNat = 304 ∧ ∃ more, here = 'i' :: more) := by
  refine ⟨_, rfl, ?_⟩
  by_cases hsigma : c.toNat = 0x3A3
  · exact Or.inl ⟨_, if_pos hsigma⟩
  rw [if_neg hsigma, lowerChar, mapCase, lowerExpansions_eq]
  by_cases hascii : c.toNat < 128
  · exact Or.inl ⟨_, if_pos hascii⟩
  rw [if_neg hascii]
  by_cases hdotted : c.toNat = 304
  · refine Or.inr ⟨hdotted, [Char.ofNat 775], ?_⟩
    simp only [hdotted]
    rfl
  · have hfind : [(304, [105, 775])].find? (·.1 == c.toNat) = none := by simp [Ne.symm hdotted]
    exact Or.inl ⟨_, by rw [hfind]⟩

/-- How many characters a character has in lower case. -/
def lowerWidth (c : Char) : Nat := if c.toNat = 0x3A3 then 1 else (lowerChar c).length

theorem length_lowerFrom (before cs : List Char) : (lowerFrom before cs).length = (cs.map lowerWidth).sum := by
  induction cs generalizing before with
  | nil => rfl
  | cons c cs ih =>
    rw [lowerFrom, List.length_append, ih, List.map_cons, List.sum_cons, lowerWidth]
    split <;> rfl

theorem length_le_sum_lowerWidth (cs : List Char) : cs.length ≤ (cs.map lowerWidth).sum := by
  induction cs with
  | nil => exact Nat.le_refl _
  | cons c cs ih =>
    have hwidth : 1 ≤ lowerWidth c := by
      obtain ⟨here, hlowered, hhere⟩ := lowerFrom_cons [] [] c
      have hlength := length_lowerFrom [] [c]
      rw [hlowered] at hlength
      rcases hhere with ⟨e, rfl⟩ | ⟨-, more, rfl⟩ <;> simp [lowerFrom] at hlength <;> omega
    rw [List.map_cons, List.sum_cons, List.length_cons]
    omega

/-- No text is a proper start of another one with the same lower-case form. -/
theorem eq_of_isPrefix_of_lower_eq {a b : String} (h : lower a = lower b) (hpre : a.toList <+: b.toList) : a = b := by
  obtain ⟨rest, hrest⟩ := hpre
  have hlength : (lowerFrom [] a.toList).length = (lowerFrom [] b.toList).length := by
    rw [String.ofList_injective h]
  rw [← hrest, length_lowerFrom, length_lowerFrom, List.map_append, List.sum_append] at hlength
  have hle := length_le_sum_lowerWidth rest
  have hnil : rest = [] := List.length_eq_zero_iff.1 (by omega)
  rw [hnil, List.append_nil] at hrest
  exact String.toList_inj.1 hrest

theorem replaceChars_space (c : Char) (cs : List Char) :
    replaceChars [' '] ['_'] 0 (c :: cs) = (if c = ' ' then '_' else c) :: replaceChars [' '] ['_'] 0 cs := by
  by_cases h : c = ' '
  · simp [replaceChars, h]
  · simp [replaceChars, h, Ne.symm h]

/-- A name that starts with its own form without spaces in lower case, whatever follows, has that form itself. -/
theorem lowerFrom_eq_of_prefix {before cs more rest : List Char}
    (h : lowerFrom before (replaceChars [' '] ['_'] 0 cs) ++ more <+: cs ++ rest) :
    lowerFrom before (replaceChars [' '] ['_'] 0 cs) = cs := by
  induction cs generalizing before with
  | nil => rfl
  | cons c cs ih =>
    rw [replaceChars_space] at h ⊢
    obtain ⟨here, hlowered, ⟨e, rfl⟩ | ⟨hdotted, tail, rfl⟩⟩ :=
      lowerFrom_cons before (replaceChars [' '] ['_'] 0 cs) (if c = ' ' then '_' else c)
    · rw [hlowered, List.cons_append, List.cons_append, List.cons_append, List.cons_prefix_cons, List.nil_append] at h
      rw [hlowered, List.singleton_append, h.1, ih h.2]
    · -- a dotted capital I has become another letter
      rw [hlowered, List.cons_append, List.cons_append, List.cons_append, List.cons_prefix_cons] at h
      rw [← h.1] at hdotted
      exact absurd hdotted (by decide)

theorem prefix_of_append {literal front rest : List Char} {c : Char} (hc : c ∉ literal)
    (h : literal <+: front ++ c :: rest) : literal <+: front := by
  rcases List.prefix_or_prefix_of_prefix h (List.prefix_append front (c :: rest)) with hshort | ⟨more, rfl⟩
  · exact hshort
  · -- more than the front would have to go on with the character
    rw [List.prefix_append_right_inj] at h
    cases more with
    | nil => simp
    | cons c' more =>
      rw [(List.cons_prefix_cons.1 h).1] at hc
      simp at hc

end CodeAtlas.Text
