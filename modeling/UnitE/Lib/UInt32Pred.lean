import Mathlib.Logic.Basic

/-! The predecessor of an unsigned 32-bit number: `a - 1` wraps around at zero, and above
zero it is the predecessor of the number. Heights, epochs and dynasties step back this way. -/

namespace UInt32

variable {a : UInt32}

theorem one_le_of_ne_zero (h : a ≠ 0) : 1 ≤ a := by
  rw [UInt32.le_iff_toNat_le, UInt32.toNat_one]
  have hne : a.toNat ≠ 0 := fun h0 => h (UInt32.toNat_inj.mp (by rw [h0, UInt32.toNat_zero]))
  omega

theorem toNat_pred (h : 1 ≤ a) : (a - 1).toNat = a.toNat - 1 := by
  rw [UInt32.toNat_sub_of_le _ _ h, UInt32.toNat_one]

theorem toNat_pred_of_ne_zero (h : a ≠ 0) : (a - 1).toNat = a.toNat - 1 :=
  toNat_pred (one_le_of_ne_zero h)

end UInt32
