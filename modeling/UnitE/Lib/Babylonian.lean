import Mathlib.Data.Nat.Sqrt
import Mathlib.Tactic.Linarith

/-! The Babylonian (Heron) iteration for the floor square root over the naturals, with floor
division: one step takes a guess `s` to `(s + y / s) / 2`. From a guess at or above
`Nat.sqrt y` the iterates never fall below it; each step at least halves their distance to it
while that distance exceeds one; and once at `Nat.sqrt y` or one above, they stay there,
possibly alternating between the two. -/

namespace Nat

/-- One Babylonian step towards the square root of `y`. -/
def babylonianStep (y s : ℕ) : ℕ := (s + y / s) / 2

variable {y s n : ℕ}

/-- The integer form of the inequality of the means: a step from any positive guess lands at
or above the floor square root. -/
theorem sqrt_le_babylonianStep (hs : 0 < s) : sqrt y ≤ babylonianStep y s := by
  have hr : sqrt y * sqrt y ≤ y := sqrt_le y
  -- `(2r - s) * s ≤ r * r`, since `(r - s) ^ 2` is not negative
  have hmeans : (2 * sqrt y - s) * s ≤ sqrt y * sqrt y := by
    rcases Nat.le_total (2 * sqrt y) s with hle | hlt
    · rw [Nat.sub_eq_zero_of_le hle, Nat.zero_mul]
      exact Nat.zero_le _
    · obtain ⟨d, hd⟩ := Nat.exists_eq_add_of_le hlt
      rw [hd, Nat.add_sub_cancel_left]
      have hcast : 2 * (sqrt y : ℤ) = s + d := by exact_mod_cast hd
      have h4 : 4 * ((d : ℤ) * s) ≤ 4 * ((sqrt y : ℤ) * sqrt y) := by
        nlinarith [sq_nonneg ((s : ℤ) - d)]
      have : (d : ℤ) * s ≤ (sqrt y : ℤ) * sqrt y := by omega
      exact_mod_cast this
  have hdiv : 2 * sqrt y - s ≤ y / s := (Nat.le_div_iff_mul_le hs).2 (hmeans.trans hr)
  unfold babylonianStep
  omega

theorem sqrt_le_babylonianStep_of_le (h : sqrt y ≤ s) : sqrt y ≤ babylonianStep y s := by
  rcases Nat.eq_zero_or_pos s with rfl | hs
  · rw [Nat.le_zero.1 h]
    exact Nat.zero_le _
  · exact sqrt_le_babylonianStep hs

/-- Above the floor square root the quotient `y / s` is at most the root, so a step at least
halves the distance to it. -/
theorem babylonianStep_le_of_sqrt_lt (h : sqrt y < s) : babylonianStep y s ≤ (s + sqrt y) / 2 := by
  have hroot : y / (sqrt y + 1) ≤ sqrt y :=
    Nat.le_of_lt_succ ((Nat.div_lt_iff_lt_mul (succ_pos _)).2 (lt_succ_sqrt y))
  have hquot : y / s ≤ sqrt y := (Nat.div_le_div_left h (succ_pos _)).trans hroot
  unfold babylonianStep
  omega

/-- At the floor square root the quotient is at most two above it, so a step goes up by at
most one. -/
theorem babylonianStep_sqrt_le : babylonianStep y (sqrt y) ≤ sqrt y + 1 := by
  have hquot : y / sqrt y ≤ sqrt y + 2 := by
    apply Nat.div_le_of_le_mul
    have := lt_succ_sqrt y
    rw [succ_eq_add_one] at this
    nlinarith
  unfold babylonianStep
  omega

theorem sqrt_le_half (hy : 2 ≤ y) : sqrt y ≤ y / 2 := by
  have hr : sqrt y * sqrt y ≤ y := sqrt_le y
  rcases Nat.lt_or_ge (sqrt y) 2 with hlt | hge
  · omega
  · have : 2 * sqrt y ≤ sqrt y * sqrt y := Nat.mul_le_mul_right _ hge
    omega

theorem babylonianStep_sub_sqrt_le (h : sqrt y ≤ s) :
    babylonianStep y s - sqrt y ≤ max ((s - sqrt y) / 2) 1 := by
  rcases Nat.eq_or_lt_of_le h with heq | hlt
  · rw [← heq]
    have := babylonianStep_sqrt_le (y := y)
    omega
  · have := babylonianStep_le_of_sqrt_lt hlt
    omega

theorem sqrt_le_iterate_babylonianStep (h : sqrt y ≤ s) :
    sqrt y ≤ (babylonianStep y)^[n] s := by
  induction n generalizing s with
  | zero => exact h
  | succ n ih =>
    rw [Function.iterate_succ_apply]
    exact ih (sqrt_le_babylonianStep_of_le h)

/-- After `n` steps the distance from the floor square root is at most the starting distance
divided by `2 ^ n`, or one. -/
theorem iterate_babylonianStep_sub_sqrt_le (h : sqrt y ≤ s) :
    (babylonianStep y)^[n] s - sqrt y ≤ max ((s - sqrt y) / 2 ^ n) 1 := by
  induction n with
  | zero => simp
  | succ n ih =>
    rw [Function.iterate_succ_apply']
    have hstep := babylonianStep_sub_sqrt_le (sqrt_le_iterate_babylonianStep (n := n) h)
    have hhalf : (s - sqrt y) / 2 ^ (n + 1) = (s - sqrt y) / 2 ^ n / 2 := by
      rw [Nat.pow_succ, Nat.div_div_eq_div_mul]
    rw [hhalf]
    generalize (s - sqrt y) / 2 ^ n = a at ih
    omega

end Nat
