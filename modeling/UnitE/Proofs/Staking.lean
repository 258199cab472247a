import UnitE.Spec.Staking

/-! What the kernel check is meant to decide, and where `CheckKernel` departs from it. A
stake is eligible for a kernel hash under a target when the hash is at most the target times
the stake, over the naturals, so that more stake makes more hashes eligible. `CheckKernel`
takes the product in 256 bits: it decides eligibility while the product stays below
`2 ^ 256`, and rejects eligible hashes once it wraps. -/

namespace UnitE

def KernelEligible (stake kernelHash target : Nat) : Prop := kernelHash ≤ target * stake

instance (stake kernelHash target : Nat) : Decidable (KernelEligible stake kernelHash target) :=
  inferInstanceAs (Decidable (kernelHash ≤ target * stake))

theorem expected_maximum_supply_lt : expected_maximum_supply < 2 ^ 63 := by
  decide

theorem SetCompact_regTest :
    SetCompact 0x207fffff = (BitVec.ofNat 256 0x7fffff <<< 232, false, false) := by
  decide

section Kernel

variable {stake_amount : CAmount} {kernel_hash : Uint256} {d : Difficulty} {target : arith_uint256}

/-- While the product of the target and the stake stays below `2 ^ 256`, `CheckKernel`
decides eligibility. -/
theorem CheckKernel_of_lt_wrap (hpos : 0 < stake_amount)
    (hmax : stake_amount ≤ expected_maximum_supply)
    (hd : SetCompact d = (target, false, false)) (htarget : target ≠ 0)
    (hlt : target.toNat * stake_amount.toNat < 2 ^ 256) :
    CheckKernel stake_amount kernel_hash d =
      decide (KernelEligible stake_amount.toNat kernel_hash.toNat target.toNat) := by
  rw [CheckKernel_eq hpos (lt_of_le_of_lt hmax expected_maximum_supply_lt) hd htarget,
    Nat.mod_eq_of_lt hlt]
  rfl

theorem CheckKernel_of_lt_wrap_regTest :
    CheckKernel 1 0 0x207fffff =
      decide (KernelEligible (1 : CAmount).toNat (0 : Uint256).toNat
        (BitVec.ofNat 256 0x7fffff <<< 232 : arith_uint256).toNat) :=
  CheckKernel_of_lt_wrap (by decide) (by decide) SetCompact_regTest (by decide) (by decide)

/-- Once the product of the target and the stake reaches `2 ^ 256`, `CheckKernel` rejects
every kernel hash above the wrapped product, each of which the stake is eligible for. -/
theorem CheckKernel_rejects_wrapped (hpos : 0 < stake_amount)
    (hmax : stake_amount ≤ expected_maximum_supply)
    (hd : SetCompact d = (target, false, false)) (htarget : target ≠ 0)
    (hwrap : 2 ^ 256 ≤ target.toNat * stake_amount.toNat)
    (hk : target.toNat * stake_amount.toNat % 2 ^ 256 < kernel_hash.toNat) :
    KernelEligible stake_amount.toNat kernel_hash.toNat target.toNat ∧
      CheckKernel stake_amount kernel_hash d = false := by
  have heligible : kernel_hash.toNat ≤ target.toNat * stake_amount.toNat :=
    le_trans (le_of_lt kernel_hash.isLt) hwrap
  refine ⟨heligible, ?_⟩
  rw [CheckKernel_eq hpos (lt_of_le_of_lt hmax expected_maximum_supply_lt) hd htarget]
  exact decide_eq_false (not_le.mpr hk)

end Kernel

/-- On the regtest genesis difficulty, a stake of 2 is eligible for the kernel hash
`0x7fffff * 2 ^ 233` and passes, while a stake of 3, eligible as well, fails. -/
theorem CheckKernel_rejects_wrapped_regTest :
    CheckKernel 2 (BitVec.ofNat 256 (0x7fffff * 2 ^ 233)) 0x207fffff = true ∧
      KernelEligible (3 : CAmount).toNat (0x7fffff * 2 ^ 233 % 2 ^ 256) (0x7fffff * 2 ^ 232) ∧
      CheckKernel 3 (BitVec.ofNat 256 (0x7fffff * 2 ^ 233)) 0x207fffff = false := by
  have hrun := @CheckKernel_rejects_wrapped 3 (BitVec.ofNat 256 (0x7fffff * 2 ^ 233)) 0x207fffff
    (BitVec.ofNat 256 0x7fffff <<< 232) (by decide) (by decide) SetCompact_regTest (by decide)
    (by decide) (by decide)
  exact ⟨by decide, hrun.1, hrun.2⟩

end UnitE
