import CodeAtlas.Number.Binary
import Mathlib.Algebra.Order.Group.Nat
import Mathlib.Tactic.Ring

/-!
# Which natural numbers a double is near to

A natural number is rounded to 53 binary digits, a half going to the even neighbour.  The greatest double is
`2 ^ 1024 - 2 ^ 971`, and the numbers from half a unit above it round to `2 ^ 1024`.
-/

namespace CodeAtlas.Number

/-- The least natural number that exceeds all doubles once it is rounded. -/
def wholeBound : Nat := Nat.pow 2 1024 - Nat.pow 2 970

theorem le_roundDiv (num den : Nat) : num / den ≤ roundDiv num den := by
  simp only [roundDiv]
  split_ifs <;> omega

theorem roundDiv_le (num den : Nat) : roundDiv num den ≤ num / den + 1 := by
  simp only [roundDiv]
  split_ifs <;> omega

/-- A quotient just below an even number is odd, so that a half goes up to it. -/
theorem roundDiv_lt_iff {num den t : Nat} (hden : 0 < den) (heven : t % 2 = 0) :
    roundDiv num den < t ↔ 2 * num + den < 2 * (t * den) := by
  have hnum := Nat.div_add_mod' num den
  have hmod := Nat.mod_lt num hden
  rcases Nat.lt_trichotomy (num / den + 1) t with hlt | rfl | hgt
  · have hround := roundDiv_le num den
    have hmul := Nat.mul_le_mul_right den hlt
    simp only [Nat.succ_eq_add_one, Nat.add_mul, Nat.one_mul] at hmul
    omega
  · have hodd : num / den % 2 = 1 := by omega
    simp only [roundDiv, Nat.add_mul, Nat.one_mul]
    split_ifs <;> omega
  · have hround := le_roundDiv num den
    have hmul := Nat.mul_le_mul_right den (Nat.le_of_lt_succ hgt)
    omega

theorem significant_le (n : Nat) : significant n ≤ n + 2 ^ (n.log2 - 52) := by
  have hround := Nat.mul_le_mul_right (2 ^ (n.log2 - 52)) (roundDiv_le n (2 ^ (n.log2 - 52)))
  have hdiv := Nat.div_mul_le_self n (2 ^ (n.log2 - 52))
  simp only [Nat.add_mul, Nat.one_mul] at hround
  exact hround.trans (by omega)

/-- Rounding does not go below the leading digit. -/
theorem pow_log2_le_significant {n : Nat} (hn : n ≠ 0) : 2 ^ n.log2 ≤ significant n := by
  have hsplit : 2 ^ n.log2 = 2 ^ (n.log2 - (n.log2 - 52)) * 2 ^ (n.log2 - 52) := by
    rw [← Nat.pow_add]
    congr 1
    omega
  have hquot : 2 ^ (n.log2 - (n.log2 - 52)) ≤ n / 2 ^ (n.log2 - 52) := by
    rw [Nat.le_div_iff_mul_le (Nat.two_pow_pos _), ← hsplit]
    exact Nat.log2_self_le hn
  rw [hsplit]
  exact Nat.mul_le_mul_right _ (hquot.trans (le_roundDiv _ _))

/-- A number stays below a power of two if it is below the middle between that power and the last number of
53 digits in front of it. -/
theorem significant_lt_iff (n : Nat) {e k : Nat} (hk : k = e + 54) :
    significant n < Nat.pow 2 k ↔ n + Nat.pow 2 e < Nat.pow 2 k := by
  subst hk
  simp only [Nat.pow_eq]
  have hpos := Nat.two_pow_pos e
  have htop : 2 ^ (e + 54) = 2 * 2 ^ (e + 53) := by rw [← Nat.pow_succ']
  have hhalf : 2 ^ (e + 53) = 2 ^ 53 * 2 ^ e := by rw [Nat.pow_add, Nat.mul_comm]
  rcases Nat.lt_or_ge n (2 ^ (e + 53)) with hlow | hlow
  · have hlog : 2 ^ (n.log2 - 52) ≤ 2 ^ e := by
      rcases Nat.eq_zero_or_pos n with rfl | hn
      · exact Nat.pow_le_pow_right (by decide) (by simp)
      · have := (Nat.log2_lt hn.ne').2 hlow
        exact Nat.pow_le_pow_right (by decide) (by omega)
    have hround := significant_le n
    omega
  · have hn : n ≠ 0 := by omega
    have hge := (Nat.le_log2 hn).2 hlow
    rcases Nat.lt_or_ge n (2 ^ (e + 54)) with hhigh | hhigh
    · have hlog : n.log2 - 52 = e + 1 := by
        have := (Nat.log2_lt hn).2 hhigh
        omega
      have hunit : 2 ^ (e + 54) = 2 ^ 53 * 2 ^ (e + 1) := by rw [← Nat.pow_add, Nat.add_comm 53, Nat.add_assoc]
      have hround : significant n = roundDiv n (2 ^ (e + 1)) * 2 ^ (e + 1) := by
        simp only [significant, hlog, Nat.pow_eq]
      rw [hround, hunit, Nat.mul_lt_mul_right (Nat.two_pow_pos _),
        roundDiv_lt_iff (Nat.two_pow_pos _) (by decide), Nat.pow_succ]
      omega
    · have hlog := Nat.pow_le_pow_right Nat.two_pos ((Nat.le_log2 hn).2 hhigh)
      have hround := pow_log2_le_significant hn
      omega

theorem wholeDouble?_eq_none_iff {n : Nat} : wholeDouble? n = none ↔ wholeBound ≤ n := by
  have hbound := significant_lt_iff n (show 1024 = 970 + 54 by decide)
  rw [wholeDouble?, wholeBound, ite_eq_right_iff, hbound]
  simp only [reduceCtorEq, imp_false]
  omega

end CodeAtlas.Number
