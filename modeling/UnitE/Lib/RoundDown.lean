import Mathlib

/-! Rounding down to a mantissa below `T` in base `B`: `x` with its `e` lowest digits cleared,
`e` the least exponent at which `x` is below `T * B ^ e`. It is what a floating encoding with a
bounded mantissa and no rounding up keeps of a number. When `B` divides `T`, a mantissa at an
exponent above zero is at least `T / B`, so a larger exponent always means a larger result, and
the rounding is monotone. -/

namespace Nat

/-- `r` is `x` rounded down to a mantissa below `T` in base `B`. -/
def IsRoundDown (B T x r : ℕ) : Prop :=
  ∃ e, r = x / B ^ e * B ^ e ∧ x < T * B ^ e ∧ (e = 0 ∨ T * B ^ (e - 1) ≤ x)

variable {B T x y r s : ℕ}

theorem IsRoundDown.le (h : IsRoundDown B T x r) : r ≤ x := by
  obtain ⟨e, rfl, -, -⟩ := h
  exact Nat.div_mul_le_self x (B ^ e)

theorem IsRoundDown.exp_le (hB : 0 < B) {e f : ℕ} (hxy : x ≤ y)
    (hx : e = 0 ∨ T * B ^ (e - 1) ≤ x) (hy : y < T * B ^ f) : e ≤ f := by
  rcases hx with rfl | hx
  · exact Nat.zero_le f
  · apply Nat.le_of_not_lt
    intro hfe
    have hpow : T * B ^ f ≤ T * B ^ (e - 1) :=
      Nat.mul_le_mul_left T (Nat.pow_le_pow_right hB (by omega))
    omega

theorem mul_pow_pred_le_div_mul (hB : 0 < B) (hBT : B ∣ T) {e : ℕ} (he : e ≠ 0)
    (hx : T * B ^ (e - 1) ≤ x) : T * B ^ (e - 1) ≤ x / B ^ e * B ^ e := by
  obtain ⟨t, rfl⟩ := hBT
  have hsplit : B * t * B ^ (e - 1) = t * B ^ e := by
    rw [← Nat.succ_pred_eq_of_ne_zero he, Nat.pow_succ, Nat.succ_sub_one]
    ac_rfl
  rw [hsplit] at hx ⊢
  exact Nat.mul_le_mul_right _ ((Nat.le_div_iff_mul_le (Nat.pow_pos hB)).2 hx)

theorem IsRoundDown.mono (hB : 0 < B) (hBT : B ∣ T) (hx : IsRoundDown B T x r)
    (hy : IsRoundDown B T y s) (hxy : x ≤ y) : r ≤ s := by
  obtain ⟨e, rfl, hxlt, hxleast⟩ := hx
  obtain ⟨f, rfl, hylt, hyleast⟩ := hy
  have hef : e ≤ f := IsRoundDown.exp_le hB hxy hxleast hylt
  rcases Nat.eq_or_lt_of_le hef with rfl | hlt
  · -- one exponent: the same digits cleared
    exact Nat.mul_le_mul_right _ (Nat.div_le_div_right hxy)
  · -- a larger exponent: `x` is below the least value at `f`
    have hf : f ≠ 0 := by omega
    have hyleast : T * B ^ (f - 1) ≤ y := hyleast.resolve_left hf
    have hpow : T * B ^ e ≤ T * B ^ (f - 1) :=
      Nat.mul_le_mul_left T (Nat.pow_le_pow_right hB (by omega))
    calc x / B ^ e * B ^ e ≤ x := Nat.div_mul_le_self x _
      _ ≤ T * B ^ (f - 1) := by omega
      _ ≤ y / B ^ f * B ^ f := mul_pow_pred_le_div_mul hB hBT hf hyleast

end Nat
