import CodeAtlas.Number.Binary
import Mathlib.Data.List.Basic

/-!
# Numbers with zeros in front
-/

namespace CodeAtlas.Number

theorem toList_pushn (s : String) (c : Char) (n : Nat) :
    (s.pushn c n).toList = s.toList ++ List.replicate n c := by
  induction n with
  | zero => simp [String.pushn, Nat.repeat]
  | succ n ih =>
    have hstep : s.pushn c (n + 1) = (s.pushn c n).push c := rfl
    rw [hstep, String.toList_push, ih, List.append_assoc, ← List.replicate_succ']

theorem toList_padded (n width : Nat) :
    (padded n width).toList = List.replicate (width - (toString n).length) '0' ++ Nat.toDigits 10 n := by
  simp [padded, toList_pushn]

theorem isDigit_of_mem_padded {n width : Nat} {c : Char} (h : c ∈ (padded n width).toList) :
    c.isDigit = true := by
  rw [toList_padded, List.mem_append] at h
  rcases h with hzero | hdigit
  · rw [List.eq_of_mem_replicate hzero]
    decide
  · exact Nat.isDigit_of_mem_toDigits (by decide) (by decide) hdigit

/-- Zeros in front do not change which number it is. -/
theorem ofDigitChars_padded (n width : Nat) : Nat.ofDigitChars 10 (padded n width).toList 0 = n := by
  rw [toList_padded, Nat.ofDigitChars_append, Nat.ofDigitChars_replicate_zero, Nat.mul_zero,
    Nat.ofDigitChars_ten_toDigits]

theorem padded_injective (width : Nat) : Function.Injective (padded · width) := by
  intro n m h
  have hdigits := congrArg (fun s : String => Nat.ofDigitChars 10 s.toList 0) h
  simpa only [ofDigitChars_padded] using hdigits

end CodeAtlas.Number
