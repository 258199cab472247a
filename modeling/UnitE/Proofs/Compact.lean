import Mathlib.Data.Nat.Bitwise
import UnitE.Lib.RoundDown
import UnitE.Spec.Difficulty

/-! What a target keeps through `GetCompact` and back through `SetCompact`: the target rounded
down to a mantissa below `2 ^ 23` in base `256`, with neither the sign nor the overflow flag set.
`compactNat` and `decodeNat` are the two functions in numbers; the bit length `bits` fixes the
size, and the sign-bit adjustment of `GetCompact` the least exponent. Rounding down is monotone
(`Nat.IsRoundDown.mono`), so the encoding of a larger target never decodes to a smaller one. -/

namespace UnitE

section Bits

variable {x : arith_uint256}

theorem toNat_lt_two_pow_bitsBelow {n : Nat} (h : x.toNat < 2 ^ n) :
    x.toNat < 2 ^ bitsBelow x n := by
  induction n with
  | zero => exact h
  | succ n ih =>
    rw [bitsBelow]
    split
    · exact h
    · next hbit =>
      apply ih
      apply Nat.lt_pow_two_of_testBit
      intro i hi
      rcases Nat.eq_or_lt_of_le hi with rfl | hlt
      · rw [BitVec.testBit_toNat]
        simpa using hbit
      · exact Nat.testBit_lt_two_pow (h.trans_le (Nat.pow_le_pow_right (by omega) hlt))

theorem two_pow_le_of_bitsBelow {n k : Nat} (h : bitsBelow x n = k + 1) : 2 ^ k ≤ x.toNat := by
  induction n with
  | zero => simp [bitsBelow] at h
  | succ n ih =>
    rw [bitsBelow] at h
    split at h
    · next hbit =>
      obtain rfl : k = n := by omega
      exact Nat.ge_two_pow_of_testBit (by rwa [BitVec.testBit_toNat])
    · exact ih h

theorem toNat_lt_two_pow_bits (x : arith_uint256) : x.toNat < 2 ^ bits x :=
  toNat_lt_two_pow_bitsBelow x.isLt

theorem two_pow_pred_bits_le (h : bits x ≠ 0) : 2 ^ (bits x - 1) ≤ x.toNat :=
  two_pow_le_of_bitsBelow (n := 256) (by unfold bits at h ⊢; omega)

theorem bytes_bounds (x : arith_uint256) :
    x.toNat < 256 ^ ((bits x + 7) / 8) ∧
      ((bits x + 7) / 8 = 0 ∨ 256 ^ ((bits x + 7) / 8 - 1) ≤ x.toNat) := by
  have h256 : ∀ k, (256 : Nat) ^ k = 2 ^ (8 * k) := fun k => by rw [Nat.pow_mul]
  refine ⟨?_, ?_⟩
  · rw [h256]
    exact (toNat_lt_two_pow_bits x).trans_le (Nat.pow_le_pow_right (by omega) (by omega))
  · rcases Nat.eq_zero_or_pos (bits x) with h0 | hpos
    · exact .inl (by omega)
    · refine .inr ?_
      rw [h256]
      exact (Nat.pow_le_pow_right (by omega) (by omega)).trans (two_pow_pred_bits_le (by omega))

theorem bytes_le (x : arith_uint256) : (bits x + 7) / 8 ≤ 32 := by
  rcases Nat.eq_zero_or_pos (bits x) with h0 | hpos
  · omega
  · have hlt : 2 ^ (bits x - 1) < 2 ^ 256 :=
      (two_pow_pred_bits_le (by omega)).trans_lt x.isLt
    have := (Nat.pow_lt_pow_iff_right (by omega)).1 hlt
    omega

end Bits

/-- `GetCompact` in numbers: the mantissa and the size it encodes `v` with, from the length
`nSize` of `v` in bytes. -/
def compactNat (v nSize : Nat) : Nat × Nat :=
  let c := if nSize ≤ 3 then v * 256 ^ (3 - nSize) else v / 256 ^ (nSize - 3)
  if 2 ^ 23 ≤ c then (c / 256, nSize + 1) else (c, nSize)

def decodeNat (m nSize : Nat) : Nat :=
  if nSize ≤ 3 then m / 256 ^ (3 - nSize) else m * 256 ^ (nSize - 3)

/-- What the encoding `(m, n')` of a number `v` of `n` bytes satisfies: a mantissa without the
sign bit, a size grown by at most one, and then a mantissa of two bytes, and a value that is `v`
rounded down. -/
structure CompactOf (v n m n' : Nat) : Prop where
  mantissa_lt : m < 2 ^ 23
  size_le : n' ≤ n + 1
  mantissa_lt_of_grown : n + 1 ≤ n' → m < 2 ^ 16
  round : Nat.IsRoundDown 256 (2 ^ 23) v (decodeNat m n')

section CompactNat

variable {v n : Nat}

theorem mul_pow_three_sub_lt (hn : n ≤ 3) (hv : v < 256 ^ n) : v * 256 ^ (3 - n) < 2 ^ 24 :=
  calc v * 256 ^ (3 - n) < 256 ^ n * 256 ^ (3 - n) :=
        Nat.mul_lt_mul_of_pos_right hv (Nat.pow_pos (by omega))
    _ = 2 ^ 24 := by rw [← Nat.pow_add, Nat.add_sub_cancel' hn]; rfl

theorem div_pow_sub_three_lt (hn : 3 < n) (hv : v < 256 ^ n) : v / 256 ^ (n - 3) < 2 ^ 24 := by
  rw [Nat.div_lt_iff_lt_mul (Nat.pow_pos (by omega))]
  calc v < 256 ^ n := hv
    _ = 2 ^ 24 * 256 ^ (n - 3) := by
      rw [show n = 3 + (n - 3) by omega, Nat.pow_add, Nat.add_sub_cancel_left]; rfl

theorem isRoundDown_self (hv : v < 2 ^ 23) : Nat.IsRoundDown 256 (2 ^ 23) v v :=
  ⟨0, by simp, by simpa using hv, .inl rfl⟩

/-- Up to three bytes the mantissa is `v` moved to the top, and the value `v` itself but when
the top byte would set the sign bit of a three-byte mantissa. -/
theorem compactOf_of_le_three (hn : n ≤ 3) (hv : v < 256 ^ n) :
    CompactOf v n (compactNat v n).1 (compactNat v n).2 := by
  have hpos : 0 < 256 ^ (3 - n) := Nat.pow_pos (by omega)
  have hc := mul_pow_three_sub_lt hn hv
  have hvc : v ≤ v * 256 ^ (3 - n) := Nat.le_mul_of_pos_right v hpos
  have hback : v * 256 ^ (3 - n) / 256 ^ (3 - n) = v := Nat.mul_div_cancel v hpos
  simp only [compactNat, if_pos hn]
  split
  · next hsign =>
    refine ⟨by omega, le_rfl, fun _ => by omega, ?_⟩
    rcases Nat.lt_or_ge n 3 with hlt | hge
    · -- the mantissa loses a zero byte: the value is still `v`
      have hpow : 256 ^ (3 - n) = 256 * 256 ^ (3 - (n + 1)) := by
        rw [← pow_succ', show 3 - (n + 1) + 1 = 3 - n by omega]
      have hsmall : v < 2 ^ 23 :=
        hv.trans_le ((Nat.pow_le_pow_right (by omega) (by omega : n ≤ 2)).trans (by decide))
      rw [decodeNat, if_pos (by omega), Nat.div_div_eq_div_mul, ← hpow, hback]
      exact isRoundDown_self hsmall
    · -- three bytes with the sign bit: the low byte goes
      obtain rfl : n = 3 := by omega
      simp only [Nat.sub_self, Nat.pow_zero, Nat.mul_one] at hsign hc ⊢
      refine ⟨1, by simp [decodeNat], by omega, .inr (by simpa using hsign)⟩
  · next hsign =>
    refine ⟨by omega, by omega, fun h => absurd h (by omega), ?_⟩
    rw [decodeNat, if_pos hn, hback]
    exact isRoundDown_self (by omega)

/-- Above three bytes the mantissa is the top three bytes of `v`, or the top two when the top
byte would set the sign bit. -/
theorem compactOf_of_three_lt (hn : 3 < n) (hv : v < 256 ^ n) (hlow : 256 ^ (n - 1) ≤ v) :
    CompactOf v n (compactNat v n).1 (compactNat v n).2 := by
  obtain ⟨k, rfl⟩ : ∃ k, n = k + 4 := ⟨n - 4, by omega⟩
  -- every power is one of `256 ^ (k + 1)`, the unit of the mantissa's low byte
  have hppos : 0 < 256 ^ (k + 1) := Nat.pow_pos (by omega)
  have hhigh : v < 256 ^ (k + 1) * 16777216 := by
    rwa [show k + 4 = k + 1 + 3 by omega, Nat.pow_add] at hv
  have hlow' : 256 ^ (k + 1) * 65536 ≤ v := by
    rwa [show k + 4 - 1 = k + 1 + 2 by omega, Nat.pow_add] at hlow
  have hnext : 256 ^ (k + 2) = 256 ^ (k + 1) * 256 := pow_succ 256 (k + 1)
  have hc := div_pow_sub_three_lt (show 3 < k + 4 by omega) hv
  rw [show k + 4 - 3 = k + 1 by omega] at hc
  simp only [compactNat, if_neg (show ¬k + 4 ≤ 3 by omega), show k + 4 - 3 = k + 1 by omega]
  split
  · next hsign =>
    -- two bytes of mantissa at one size more
    have hsign' : 2 ^ 23 * 256 ^ (k + 1) ≤ v := (Nat.le_div_iff_mul_le hppos).1 hsign
    refine ⟨by omega, le_rfl, fun _ => by omega, k + 2, ?_, ?_, .inr ?_⟩
    · rw [decodeNat, if_neg (by omega), show k + 4 + 1 - 3 = k + 2 by omega,
        Nat.div_div_eq_div_mul, ← hnext]
    · rw [hnext]
      omega
    · simpa using hsign'
  · next hsign =>
    have hlt : v < 2 ^ 23 * 256 ^ (k + 1) := (Nat.div_lt_iff_lt_mul hppos).1 (by omega)
    refine ⟨by omega, by omega, fun h => absurd h (by omega), k + 1, ?_, hlt, .inr ?_⟩
    · rw [decodeNat, if_neg (by omega), show k + 4 - 3 = k + 1 by omega]
    · have hunit : 256 ^ (k + 1) = 256 ^ k * 256 := pow_succ 256 k
      rw [Nat.add_sub_cancel]
      omega

theorem compactOf_compactNat (hv : v < 256 ^ n) (hlow : n = 0 ∨ 256 ^ (n - 1) ≤ v) :
    CompactOf v n (compactNat v n).1 (compactNat v n).2 := by
  rcases Nat.lt_or_ge 3 n with hn | hn
  · exact compactOf_of_three_lt hn hv (hlow.resolve_left (by omega))
  · exact compactOf_of_le_three hn hv

end CompactNat

section Machine

variable {x : arith_uint256} {n : Nat}

/-- Up to three bytes, `GetLow64() << 8 * (3 - nSize)` moves the bytes of `x` to the top of
three. -/
theorem toNat_low_shiftLeft (hn : n ≤ 3) (hv : x.toNat < 256 ^ n) :
    (GetLow64 x <<< UInt64.ofNat (8 * (3 - n))).toUInt32.toNat = x.toNat * 256 ^ (3 - n) := by
  have hpos : 0 < 256 ^ (3 - n) := Nat.pow_pos (by omega)
  have hc := mul_pow_three_sub_lt hn hv
  have hpow : 2 ^ (8 * (3 - n)) = 256 ^ (3 - n) := by rw [Nat.pow_mul]
  have hx : x.toNat < 2 ^ 64 := lt_of_le_of_lt (Nat.le_mul_of_pos_right _ hpos) (by omega)
  simp only [GetLow64, UInt64.toNat_toUInt32, UInt64.toNat_shiftLeft, UInt64.toNat_ofNat',
    Nat.shiftLeft_eq]
  rw [Nat.mod_eq_of_lt hx, Nat.mod_eq_of_lt (show 8 * (3 - n) < 2 ^ 64 by omega),
    Nat.mod_eq_of_lt (show 8 * (3 - n) < 64 by omega), hpow, Nat.mod_eq_of_lt (by omega),
    Nat.mod_eq_of_lt (by omega)]

theorem toNat_low_shiftRight (hn : 3 < n) (hv : x.toNat < 256 ^ n) :
    (GetLow64 (x >>> (8 * (n - 3)))).toUInt32.toNat = x.toNat / 256 ^ (n - 3) := by
  have hc := div_pow_sub_three_lt hn hv
  have hpow : 2 ^ (8 * (n - 3)) = 256 ^ (n - 3) := by rw [Nat.pow_mul]
  simp only [GetLow64, UInt64.toNat_toUInt32, UInt64.toNat_ofNat', BitVec.toNat_ushiftRight,
    Nat.shiftRight_eq_div_pow, hpow]
  have h64 : x.toNat / 256 ^ (n - 3) < 2 ^ 64 := hc.trans (by decide)
  have h32 : x.toNat / 256 ^ (n - 3) < 2 ^ 32 := hc.trans (by decide)
  rw [Nat.mod_eq_of_lt h64, Nat.mod_eq_of_lt h32]

theorem and_sign_ne_zero {c : UInt32} (hc : c.toNat < 2 ^ 24) :
    (c &&& 0x00800000 != 0) = decide (2 ^ 23 ≤ c.toNat) := by
  have hand : (c &&& 0x00800000).toNat = (c.toNat.testBit 23).toNat * 2 ^ 23 := by
    rw [UInt32.toNat_and, show (0x00800000 : UInt32).toNat = 2 ^ 23 from rfl, Nat.and_two_pow]
  by_cases h : 2 ^ 23 ≤ c.toNat
  · rw [Nat.testBit_of_two_pow_le_and_two_pow_add_one_gt h hc] at hand
    have hne : c &&& 0x00800000 ≠ 0 := fun h0 => by
      rw [h0] at hand
      simp at hand
    rw [bne_iff_ne.2 hne, decide_eq_true h]
  · rw [Nat.testBit_lt_two_pow (by omega)] at hand
    have heq : c &&& 0x00800000 = 0 := UInt32.toNat_inj.1 (by simpa using hand)
    rw [heq, decide_eq_false h]
    rfl

theorem GetCompactParts_eq (x : arith_uint256) :
    GetCompactParts x = (UInt32.ofNat (compactNat x.toNat ((bits x + 7) / 8)).1,
      (compactNat x.toNat ((bits x + 7) / 8)).2) := by
  obtain ⟨hv, -⟩ := bytes_bounds x
  have hmant : (if (bits x + 7) / 8 ≤ 3 then
        (GetLow64 x <<< UInt64.ofNat (8 * (3 - (bits x + 7) / 8))).toUInt32
      else (GetLow64 (x >>> (8 * ((bits x + 7) / 8 - 3)))).toUInt32) =
      UInt32.ofNat (if (bits x + 7) / 8 ≤ 3 then x.toNat * 256 ^ (3 - (bits x + 7) / 8)
        else x.toNat / 256 ^ ((bits x + 7) / 8 - 3)) := by
    rw [← UInt32.toNat_inj]
    split
    · next hn =>
      rw [toNat_low_shiftLeft hn hv, UInt32.toNat_ofNat', Nat.mod_eq_of_lt]
      exact (toNat_low_shiftLeft hn hv ▸ UInt32.toNat_lt _)
    · next hn =>
      rw [toNat_low_shiftRight (by omega) hv, UInt32.toNat_ofNat', Nat.mod_eq_of_lt]
      exact (toNat_low_shiftRight (by omega) hv ▸ UInt32.toNat_lt _)
  have hc24 : (if (bits x + 7) / 8 ≤ 3 then x.toNat * 256 ^ (3 - (bits x + 7) / 8)
      else x.toNat / 256 ^ ((bits x + 7) / 8 - 3)) < 2 ^ 24 := by
    split
    · next hn => exact mul_pow_three_sub_lt hn hv
    · next hn => exact div_pow_sub_three_lt (by omega) hv
  simp only [GetCompactParts, compactNat]
  rw [hmant]
  generalize (if (bits x + 7) / 8 ≤ 3 then x.toNat * 256 ^ (3 - (bits x + 7) / 8)
      else x.toNat / 256 ^ ((bits x + 7) / 8 - 3)) = c at hc24 ⊢
  have hofNat := UInt32.toNat_ofNat_of_lt' (hc24.trans (by decide))
  rw [and_sign_ne_zero (by rwa [hofNat])]
  by_cases hsign : 2 ^ 23 ≤ c
  · simp only [hofNat, hsign, decide_true, if_true, Prod.mk.injEq, and_true]
    rw [← UInt32.toNat_inj, UInt32.toNat_shiftRight, hofNat,
      UInt32.toNat_ofNat_of_lt' ((Nat.div_le_self c 256).trans_lt (hc24.trans (by decide))),
      Nat.shiftRight_eq_div_pow]
    rfl
  · simp only [hofNat, hsign, decide_false, Bool.false_eq_true, if_false]

theorem ofNat_or_shiftLeft {m n' : Nat} (hm : m < 2 ^ 24) (hn : n' < 256) :
    (UInt32.ofNat m ||| UInt32.ofNat n' <<< 24) = UInt32.ofNat (n' * 2 ^ 24 + m) := by
  rw [← UInt32.toNat_inj, UInt32.toNat_or, UInt32.toNat_shiftLeft, UInt32.toNat_ofNat',
    UInt32.toNat_ofNat', UInt32.toNat_ofNat', show (24 : UInt32).toNat = 24 from rfl,
    Nat.mod_eq_of_lt (show m < 2 ^ 32 by omega), Nat.mod_eq_of_lt (show n' < 2 ^ 32 by omega),
    Nat.shiftLeft_eq, Nat.mod_eq_of_lt (show n' * 2 ^ 24 < 2 ^ 32 by omega), Nat.lor_comm,
    ← Nat.shiftLeft_eq, ← Nat.shiftLeft_add_eq_or_of_lt hm, Nat.shiftLeft_eq,
    Nat.mod_eq_of_lt (by omega)]

theorem GetCompact_eq (x : arith_uint256) :
    GetCompact x false = UInt32.ofNat ((compactNat x.toNat ((bits x + 7) / 8)).2 * 2 ^ 24 +
      (compactNat x.toNat ((bits x + 7) / 8)).1) := by
  obtain ⟨hv, hlow⟩ := bytes_bounds x
  have hc := compactOf_compactNat hv hlow
  have hn := bytes_le x
  simp only [GetCompact, GetCompactParts_eq, Bool.false_and, Bool.false_eq_true, if_false,
    UInt32.or_zero]
  exact ofNat_or_shiftLeft (hc.mantissa_lt.trans (by decide)) (by have := hc.size_le; omega)

/-- `SetCompact` of a size at most `33` above a mantissa without the sign bit, and of two bytes
at the size `33`, is `decodeNat`, with neither flag set. -/
theorem SetCompact_ofNat {m n' : Nat} (hm : m < 2 ^ 23) (hn : n' ≤ 33)
    (hgrown : 32 < n' → m < 2 ^ 16) :
    SetCompact (UInt32.ofNat (n' * 2 ^ 24 + m)) =
      (BitVec.ofNat 256 (decodeNat m n'), false, false) := by
  have hu := UInt32.toNat_ofNat_of_lt' (show n' * 2 ^ 24 + m < 2 ^ 32 by omega)
  generalize UInt32.ofNat (n' * 2 ^ 24 + m) = u at hu
  have hmof := UInt32.toNat_ofNat_of_lt' (show m < 2 ^ 32 by omega)
  have hsize : (u >>> 24).toNat = n' := by
    rw [UInt32.toNat_shiftRight, hu, Nat.shiftRight_eq_div_pow]
    show (n' * 2 ^ 24 + m) / 2 ^ 24 = n'
    omega
  have hword : u &&& 0x007fffff = UInt32.ofNat m := by
    rw [← UInt32.toNat_inj, UInt32.toNat_and, hu, hmof,
      show (0x007fffff : UInt32).toNat = 2 ^ 23 - 1 from rfl, Nat.and_two_pow_sub_one_eq_mod]
    omega
  have hsign : u &&& 0x00800000 = 0 := by
    have hbit : (n' * 2 ^ 24 + m).testBit 23 = false := by
      rw [Nat.mul_comm, Nat.testBit_two_pow_mul_add _ (by omega : m < 2 ^ 24), if_pos (by omega)]
      exact Nat.testBit_lt_two_pow hm
    rw [← UInt32.toNat_inj, UInt32.toNat_and, hu,
      show (0x00800000 : UInt32).toNat = 2 ^ 23 from rfl, Nat.and_two_pow, hbit]
    rfl
  simp only [SetCompact, hsize, hword, hsign, bne_self_eq_false, Bool.and_false]
  by_cases hsmall : n' ≤ 3
  · -- the mantissa shifted down, and no flag at these sizes
    have hw : (UInt32.ofNat m >>> UInt32.ofNat (8 * (3 - n'))).toNat = decodeNat m n' := by
      rw [UInt32.toNat_shiftRight, hmof, UInt32.toNat_ofNat',
        Nat.mod_eq_of_lt (show 8 * (3 - n') < 2 ^ 32 by omega),
        Nat.mod_eq_of_lt (show 8 * (3 - n') < 32 by omega), Nat.shiftRight_eq_div_pow, decodeNat,
        if_pos hsmall, Nat.pow_mul]
    simp only [hsmall, if_true]
    rw [hw]
    simp [show ¬34 < n' by omega, show ¬33 < n' by omega, show ¬32 < n' by omega]
  · -- the mantissa shifted up; at the size `33` it has two bytes
    have hvalue : BitVec.ofNat 256 (UInt32.ofNat m).toNat <<< (8 * (n' - 3)) =
        BitVec.ofNat 256 (decodeNat m n') := by
      apply BitVec.eq_of_toNat_eq
      rw [BitVec.toNat_shiftLeft, BitVec.toNat_ofNat, BitVec.toNat_ofNat, hmof,
        Nat.mod_eq_of_lt (show m < 2 ^ 256 by omega), Nat.shiftLeft_eq, decodeNat,
        if_neg hsmall, Nat.pow_mul]
    have hwide : (decide (UInt32.ofNat m > 65535) && decide (n' > 32)) = false := by
      by_cases h32 : 32 < n'
      · have hm16 := hgrown h32
        have hle : ¬UInt32.ofNat m > 65535 := by
          rw [gt_iff_lt, UInt32.lt_iff_toNat_lt, hmof, show (65535 : UInt32).toNat = 65535 from rfl]
          omega
        rw [decide_eq_false hle, Bool.false_and]
      · rw [decide_eq_false h32, Bool.and_false]
    simp only [hsmall, if_false]
    rw [hvalue]
    simp [hwide, show ¬34 < n' by omega, show ¬33 < n' by omega]

end Machine

/-- The assertions of `GetCompact` hold: the mantissa is below `2 ^ 23` and the size below
`256`. -/
theorem GetCompactParts_lt (x : arith_uint256) :
    (GetCompactParts x).1.toNat < 2 ^ 23 ∧ (GetCompactParts x).2 < 256 := by
  obtain ⟨hv, hlow⟩ := bytes_bounds x
  have hc := compactOf_compactNat hv hlow
  have hn := bytes_le x
  have hsize := hc.size_le
  rw [GetCompactParts_eq, UInt32.toNat_ofNat_of_lt' (hc.mantissa_lt.trans (by decide))]
  exact ⟨hc.mantissa_lt, by omega⟩

/-- `SetCompact` reads back from `GetCompact` the target rounded down to a mantissa below
`2 ^ 23` in base `256`, with neither flag set. -/
theorem SetCompact_GetCompact (x : arith_uint256) :
    ∃ r : arith_uint256, SetCompact (GetCompact x false) = (r, false, false) ∧
      Nat.IsRoundDown 256 (2 ^ 23) x.toNat r.toNat := by
  obtain ⟨hv, hlow⟩ := bytes_bounds x
  have hc := compactOf_compactNat hv hlow
  have hn := bytes_le x
  have hsize := hc.size_le
  refine ⟨BitVec.ofNat 256 (decodeNat (compactNat x.toNat ((bits x + 7) / 8)).1
    (compactNat x.toNat ((bits x + 7) / 8)).2), ?_, ?_⟩
  · rw [GetCompact_eq, SetCompact_ofNat hc.mantissa_lt (by omega)
      (fun h => hc.mantissa_lt_of_grown (by omega))]
  · rw [BitVec.toNat_ofNat, Nat.mod_eq_of_lt (hc.round.le.trans_lt x.isLt)]
    exact hc.round

theorem SetCompact_GetCompact_le (x : arith_uint256) : (SetCompact (GetCompact x false)).1 ≤ x := by
  obtain ⟨r, hr, hround⟩ := SetCompact_GetCompact x
  rw [hr, BitVec.le_def]
  exact hround.le

example : GetCompact Parameters.max_difficulty_value false = 0x1d00ffff := by decide

theorem SetCompact_GetCompact_mono {x y : arith_uint256} (hxy : x ≤ y) :
    (SetCompact (GetCompact x false)).1 ≤ (SetCompact (GetCompact y false)).1 := by
  obtain ⟨r, hr, hrx⟩ := SetCompact_GetCompact x
  obtain ⟨s, hs, hsy⟩ := SetCompact_GetCompact y
  rw [hr, hs, BitVec.le_def]
  exact hrx.mono (by decide) (by decide) hsy (BitVec.le_def.1 hxy)

end UnitE
