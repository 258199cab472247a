import Mathlib.Algebra.Order.Floor.Div

/-! Ceiling division as the index of a block. When the positive numbers are cut into
consecutive blocks of length `b`, the number `a ≥ 1` lies in block `a ⌈/⌉ b`, which runs from
`b * (c - 1) + 1` to `b * c`; the remainder of `a` by `b` tells the first and the last element
of a block apart. -/

namespace Nat

variable {a b c : ℕ}

theorem ceilDiv_eq_div_add (hb : 0 < b) : a ⌈/⌉ b = a / b + if a % b = 0 then 0 else 1 := by
  have hsplit : a + b - 1 = b * (a / b) + (a % b + (b - 1)) := by
    have := Nat.div_add_mod a b
    omega
  rw [ceilDiv_eq_add_pred_div, hsplit, Nat.mul_add_div hb]
  split_ifs with hr
  · rw [hr, Nat.zero_add, Nat.div_eq_of_lt (show b - 1 < b by omega)]
  · have hlt := Nat.mod_lt a hb
    rw [Nat.div_eq_of_lt_le (show 1 * b ≤ a % b + (b - 1) by omega)
      (show a % b + (b - 1) < (1 + 1) * b by omega)]

theorem le_mul_ceilDiv (hb : 0 < b) : a ≤ b * (a ⌈/⌉ b) :=
  (ceilDiv_le_iff_le_mul hb).1 le_rfl

theorem div_le_ceilDiv (hb : 0 < b) : a / b ≤ a ⌈/⌉ b := by
  rw [ceilDiv_eq_div_add hb]
  exact Nat.le_add_right _ _

theorem ceilDiv_le_ceilDiv (hb : 0 < b) {a' : ℕ} (h : a ≤ a') : a ⌈/⌉ b ≤ a' ⌈/⌉ b := by
  rw [ceilDiv_le_iff_le_mul hb]
  exact h.trans (le_mul_ceilDiv hb)

theorem lt_ceilDiv_of_mul_lt (hb : 0 < b) (h : c * b < a) : c < a ⌈/⌉ b := by
  rw [← Nat.not_le, ceilDiv_le_iff_le_mul hb, Nat.mul_comm]
  omega

theorem ceilDiv_pos (hb : 0 < b) (ha : 0 < a) : 0 < a ⌈/⌉ b := by
  rw [Nat.pos_iff_ne_zero, ne_eq, ← Nat.le_zero, ceilDiv_le_iff_le_mul hb]
  omega

theorem mul_pred_ceilDiv_lt (hb : 0 < b) (ha : 0 < a) : b * (a ⌈/⌉ b - 1) < a := by
  have hpos := ceilDiv_pos hb ha
  rw [← Nat.not_le, ← ceilDiv_le_iff_le_mul hb]
  omega

theorem ceilDiv_eq_iff (hb : 0 < b) (hc : 0 < c) : a ⌈/⌉ b = c ↔ b * (c - 1) < a ∧ a ≤ b * c := by
  have hlow : c ≤ a ⌈/⌉ b ↔ b * (c - 1) < a := by
    rw [← Nat.not_le, ← ceilDiv_le_iff_le_mul hb]
    omega
  rw [le_antisymm_iff, ceilDiv_le_iff_le_mul hb, hlow, and_comm]

theorem mod_eq_zero_iff_eq_mul_ceilDiv (hb : 0 < b) : a % b = 0 ↔ a = b * (a ⌈/⌉ b) := by
  have hdiv := Nat.div_add_mod a b
  rw [ceilDiv_eq_div_add hb]
  constructor
  · intro hr
    rw [if_pos hr, Nat.add_zero]
    omega
  · intro h
    by_contra hr
    rw [if_neg hr, Nat.mul_add_one] at h
    have := Nat.mod_lt a hb
    omega

theorem mod_eq_one_iff (hb : 1 < b) : a % b = 1 ↔ a = b * (a ⌈/⌉ b - 1) + 1 := by
  have hdiv := Nat.div_add_mod a b
  constructor
  · intro hr
    rw [ceilDiv_eq_div_add (by omega), if_neg (by omega), Nat.add_sub_cancel]
    omega
  · intro h
    rw [h, Nat.mul_add_mod, Nat.mod_eq_of_lt hb]

end Nat
