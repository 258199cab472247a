import UnitE.Spec.Types

/-! Proof-of-stake eligibility: `StakeValidator::CheckKernel` and the part of
`arith_uint256` it reads. An `arith_uint256` is 256 bits wide: a left shift drops the bits
above 256 and a product is taken modulo `2 ^ 256`. -/

namespace UnitE

abbrev arith_uint256 := BitVec 256

/-- `blockchain::Difficulty`: a target in compact form. -/
abbrev Difficulty := UInt32

def expected_maximum_supply : CAmount := 2718275100 * UNIT

/-- `arith_uint256::SetCompact`: the target a compact difficulty encodes, and whether that
form is negative and whether it overflows 256 bits. -/
def SetCompact (nCompact : UInt32) : arith_uint256 × Bool × Bool :=
  let nSize := (nCompact >>> 24).toNat
  -- a size of at most three shifts the word itself, which both flags then read
  let nWord : UInt32 :=
    if nSize ≤ 3 then (nCompact &&& 0x007fffff) >>> UInt32.ofNat (8 * (3 - nSize))
    else nCompact &&& 0x007fffff
  let value : arith_uint256 :=
    if nSize ≤ 3 then BitVec.ofNat 256 nWord.toNat
    else BitVec.ofNat 256 nWord.toNat <<< (8 * (nSize - 3))
  let pfNegative := nWord != 0 && (nCompact &&& 0x00800000) != 0
  let pfOverflow := nWord != 0 &&
    (decide (nSize > 34) || (decide (nWord > 0xff) && decide (nSize > 33)) ||
      (decide (nWord > 0xffff) && decide (nSize > 32)))
  (value, pfNegative, pfOverflow)

/-- `StakeValidator::CheckKernel`: a positive stake is eligible when the kernel hash is at
most the target times the stake, both as `arith_uint256`. -/
def CheckKernel (stake_amount : CAmount) (kernel_hash : Uint256) (target_difficulty : Difficulty) :
    Bool :=
  if stake_amount ≤ 0 then false
  else
    let (target_value, is_negative, is_overflow) := SetCompact target_difficulty
    if is_negative || is_overflow || target_value == 0 then false
    else
      -- `arith_uint256(static_cast<uint64_t>(stake_amount))`
      let weight : arith_uint256 := (BitVec.ofInt 64 stake_amount).setWidth 256
      decide (kernel_hash ≤ target_value * weight)

theorem weight_toNat {stake_amount : Int} (hpos : 0 < stake_amount)
    (hlt : stake_amount < 2 ^ 63) :
    ((BitVec.ofInt 64 stake_amount).setWidth 256).toNat = stake_amount.toNat := by
  rw [BitVec.toNat_setWidth, BitVec.toNat_ofInt]
  omega

/-- The kernel check of a positive stake below `2 ^ 63`, against a target that decodes
without sign or overflow to a non-zero value: the kernel hash is compared with the product
modulo `2 ^ 256`. -/
theorem CheckKernel_eq {stake_amount : CAmount} {kernel_hash : Uint256} {d : Difficulty}
    {target : arith_uint256} (hpos : 0 < stake_amount) (hlt : stake_amount < 2 ^ 63)
    (hd : SetCompact d = (target, false, false)) (htarget : target ≠ 0) :
    CheckKernel stake_amount kernel_hash d =
      decide (kernel_hash.toNat ≤ target.toNat * stake_amount.toNat % 2 ^ 256) := by
  have hweight := weight_toNat hpos hlt
  simp only [CheckKernel, hd, Bool.or_false, Bool.false_or, beq_iff_eq, htarget, if_false,
    not_le.mpr hpos]
  simp only [BitVec.le_def, BitVec.toNat_mul, hweight]

end UnitE
