import Mathlib.Data.List.Nodup
import Mathlib.Data.Nat.Digits.Defs
import Mathlib.Tactic.IntervalCases
import UnitE.Lib.BigEndian
import UnitE.Proofs.MnemonicWords

/-! The bits of a mnemonic. `Encode` reads 11-bit indices out of the entropy followed by the
first bits of its hash, and `Decode` or-s them back into a zeroed buffer. Read as big-endian
numbers (`Bytes.ofListBE`), the index `Encode` takes at bit `i` is a field of the number, and the
step of `Decode` at bit `i` adds the index at that field's weight: the indices of a whole run are
the number's base-2048 digits, both ways. What differs is the checksum. `Encode` appends
`|e| / 4` bits of the hash and `Decode` splits `nBits / 32` bits off; below 128 bytes of entropy
the two agree and `Decode` gives the entropy back, from 128 bytes on the split takes bits of the
entropy with it. -/

namespace UnitE.Mnemonic

open Bytes

section Fields

/-! The arithmetic of one index at bit `r` of its first byte, with the shifts and masks of the
source. -/

theorem and_ff_eq_mod (x : ℕ) : x &&& 0xFF = x % 256 :=
  Nat.and_two_pow_sub_one_eq_mod x 8

theorem and_7ff_eq_mod (x : ℕ) : x &&& 0x7FF = x % 2048 :=
  Nat.and_two_pow_sub_one_eq_mod x 11

theorem high_field_dvd (b1 : ℕ) {r : ℕ} (hr : r ≤ 8) :
    2 ^ (r + 3) ∣ ((b1 <<< r) &&& 0xFF) <<< (11 - 8) := by
  rw [Nat.shiftLeft_eq, Nat.shiftLeft_eq, and_ff_eq_mod, Nat.pow_add]
  exact Nat.mul_dvd_mul_right
    ((Nat.dvd_mod_iff (Nat.pow_dvd_pow 2 hr)).2 (Dvd.intro_left _ rfl)) _

theorem encode_field_short {b1 b2 r : ℕ} (hb2 : b2 < 256) (hr : r ≤ 5) :
    (((b1 <<< r) &&& 0xFF) <<< (11 - 8) ||| b2 >>> ((8 - (11 - 8)) - r)) &&& 0x7FF =
      (b1 * 256 + b2) / 2 ^ (5 - r) % 2048 := by
  have hlow : b2 >>> ((8 - (11 - 8)) - r) < 2 ^ (r + 3) := by
    rw [Nat.shiftRight_eq_div_pow, Nat.div_lt_iff_lt_mul (Nat.two_pow_pos _), ← Nat.pow_add,
      show r + 3 + (8 - (11 - 8) - r) = 8 by omega]
    exact hb2
  rw [lor_eq_add_of_dvd (high_field_dvd b1 (by omega)) hlow]
  simp only [Nat.shiftLeft_eq, Nat.shiftRight_eq_div_pow, and_ff_eq_mod, and_7ff_eq_mod]
  interval_cases r <;> omega

theorem encode_field_long {b1 b2 b3 r : ℕ} (hb2 : b2 < 256) (hb3 : b3 < 256) (hr : 5 < r)
    (hr8 : r < 8) :
    (((b1 <<< r) &&& 0xFF) <<< (11 - 8) ||| b2 <<< (r - 5) ||| b3 >>> (8 - (r - 5))) &&& 0x7FF =
      (b1 * 65536 + b2 * 256 + b3) / 2 ^ (13 - r) % 2048 := by
  have hmid : b2 <<< (r - 5) < 2 ^ (r + 3) := by
    rw [Nat.shiftLeft_eq, show r + 3 = 8 + (r - 5) by omega, Nat.pow_add]
    exact Nat.mul_lt_mul_of_pos_right hb2 (Nat.two_pow_pos _)
  have hlow : b3 >>> (8 - (r - 5)) < 2 ^ (r - 5) := by
    rw [Nat.shiftRight_eq_div_pow, Nat.div_lt_iff_lt_mul (Nat.two_pow_pos _), ← Nat.pow_add,
      show r - 5 + (8 - (r - 5)) = 8 by omega]
    exact hb3
  -- the first two bytes' bits all stand at or above `r - 5`
  have hdvd : 2 ^ (r - 5) ∣ ((b1 <<< r) &&& 0xFF) <<< (11 - 8) + b2 <<< (r - 5) :=
    Nat.dvd_add ((Nat.pow_dvd_pow 2 (by omega)).trans (high_field_dvd b1 (by omega)))
      (by rw [Nat.shiftLeft_eq]; exact Dvd.intro_left _ rfl)
  rw [lor_eq_add_of_dvd (high_field_dvd b1 (by omega)) hmid, lor_eq_add_of_dvd hdvd hlow]
  simp only [Nat.shiftLeft_eq, Nat.shiftRight_eq_div_pow, and_ff_eq_mod, and_7ff_eq_mod]
  interval_cases r <;> omega

/-- The top bits of the index that `Decode` ors into the field's first byte fit below its
offset. -/
theorem decode_high_field_lt {o r : ℕ} (ho : o < 2048) (hr : r < 8) :
    (UInt8.ofNat ((o >>> (r + 3)) &&& 0x7FF)).toNat < 2 ^ (8 - r) := by
  rw [UInt8.toNat_ofNat', Nat.shiftRight_eq_div_pow, and_7ff_eq_mod]
  interval_cases r <;> omega

theorem decode_fields_short {o r : ℕ} (ho : o < 2048) (hr : r ≤ 5) :
    (UInt8.ofNat ((o >>> (r + 3)) &&& 0x7FF)).toNat * 2 ^ 8 +
      (UInt8.ofNat ((o <<< (5 - r)) &&& 0x7FF)).toNat = o * 2 ^ (5 - r) := by
  simp only [UInt8.toNat_ofNat', Nat.shiftLeft_eq, Nat.shiftRight_eq_div_pow, and_7ff_eq_mod]
  interval_cases r <;> omega

theorem decode_fields_long {o r : ℕ} (ho : o < 2048) (hr : 5 < r) (hr8 : r < 8) :
    (UInt8.ofNat ((o >>> (r + 3)) &&& 0x7FF)).toNat * 2 ^ 16 +
      (UInt8.ofNat ((o >>> (r - 5)) &&& 0x7FF)).toNat * 2 ^ 8 +
      (UInt8.ofNat ((o <<< (8 - (r - 5))) &&& 0x7FF)).toNat = o * 2 ^ (13 - r) := by
  simp only [UInt8.toNat_ofNat', Nat.shiftLeft_eq, Nat.shiftRight_eq_div_pow, and_7ff_eq_mod]
  interval_cases r <;> omega

end Fields

section Encode

theorem EncodeWordIndex_eq {vIn : List UInt8} {i : ℕ} (h : i + 11 ≤ 8 * vIn.length) :
    EncodeWordIndex vIn i = ofListBE vIn / 2 ^ (8 * vIn.length - (i + 11)) % 2048 := by
  have hr := Nat.mod_lt i (show 8 > 0 by omega)
  have hs1 : i / 8 + 1 < vIn.length := by omega
  unfold EncodeWordIndex
  simp only
  rw [List.getD_eq_getElem _ _ (by omega), List.getD_eq_getElem _ _ hs1]
  split
  · -- offsets above 5: the field ends in the third byte
    have hs2 : i / 8 + 2 < vIn.length := by omega
    have hwin : ofListBE vIn / 2 ^ (8 * (vIn.length - (i / 8 + 3))) % 2 ^ 24 =
        vIn[i / 8].toNat * 65536 + vIn[i / 8 + 1].toNat * 256 + vIn[i / 8 + 2].toNat := by
      have h := ofListBE_window vIn (s := i / 8) (k := 3) (by omega)
      rw [List.drop_eq_getElem_cons (by omega), List.drop_eq_getElem_cons hs1,
        List.drop_eq_getElem_cons hs2] at h
      simp only [← two_pow_eight_mul, List.take_succ_cons, List.take_zero, ofListBE_cons,
        List.length_cons, List.length_nil, ofListBE_nil] at h
      rw [h]
      ring
    rw [List.getD_eq_getElem _ _ hs2, encode_field_long (UInt8.toNat_lt _) (UInt8.toNat_lt _)
      ‹_› hr, show 8 * vIn.length - (i + 11) = 8 * (vIn.length - (i / 8 + 3)) + (13 - i % 8) by
      omega, Nat.pow_add, ← Nat.div_div_eq_div_mul]
    exact (div_mod_eq_of_mod_eq (b := 11) hwin (by omega)).symm
  · -- offsets up to 5: the field ends in the second byte
    have hwin : ofListBE vIn / 2 ^ (8 * (vIn.length - (i / 8 + 2))) % 2 ^ 16 =
        vIn[i / 8].toNat * 256 + vIn[i / 8 + 1].toNat := by
      have h := ofListBE_window vIn (s := i / 8) (k := 2) (by omega)
      rw [List.drop_eq_getElem_cons (by omega), List.drop_eq_getElem_cons hs1] at h
      simp only [← two_pow_eight_mul, List.take_succ_cons, List.take_zero, ofListBE_cons,
        List.length_cons, List.length_nil, ofListBE_nil] at h
      rw [h]
      ring
    rw [encode_field_short (UInt8.toNat_lt _) (by omega), show 8 * vIn.length - (i + 11) =
      8 * (vIn.length - (i / 8 + 2)) + (5 - i % 8) by omega, Nat.pow_add,
      ← Nat.div_div_eq_div_mul]
    exact (div_mod_eq_of_mod_eq (b := 11) hwin (by omega)).symm

theorem ofDigits_reverse_cons (b d : ℕ) (l : List ℕ) :
    Nat.ofDigits b (d :: l).reverse = d * b ^ l.length + Nat.ofDigits b l.reverse := by
  rw [List.reverse_cons, Nat.ofDigits_append, Nat.ofDigits_singleton, List.length_reverse]
  ring

theorem length_wordIndices (vIn : List UInt8) (nBits i : ℕ) :
    (wordIndices vIn nBits i).length = (nBits - i + 10) / 11 := by
  fun_induction wordIndices vIn nBits i with
  | case1 i hi ih => rw [List.length_cons, ih]; omega
  | case2 i hi => rw [List.length_nil]; omega

/-- The loop of `Encode` over a whole number of indices reads the top `nBits` bits of the buffer
as base-2048 digits. -/
theorem ofDigits_wordIndices {vIn : List UInt8} {nBits : ℕ} (hL : nBits ≤ 8 * vIn.length)
    {i : ℕ} (hi : i ≤ nBits) (h11 : 11 ∣ nBits - i) :
    Nat.ofDigits 2048 (wordIndices vIn nBits i).reverse =
      ofListBE vIn / 2 ^ (8 * vIn.length - nBits) % 2 ^ (nBits - i) := by
  fun_induction wordIndices vIn nBits i with
  | case1 i hlt ih =>
    have hnext : i + 11 ≤ nBits := by omega
    -- the index is the top field of what is left, read off the bits below `nBits`
    have hfield : ofListBE vIn / 2 ^ (8 * vIn.length - (i + 11)) =
        ofListBE vIn / 2 ^ (8 * vIn.length - nBits) / 2 ^ (nBits - (i + 11)) := by
      rw [Nat.div_div_eq_div_mul, ← Nat.pow_add]
      congr 2
      omega
    rw [ofDigits_reverse_cons, ih hnext (by omega), EncodeWordIndex_eq (by omega),
      length_wordIndices, hfield, show (2048 : ℕ) = 2 ^ 11 from rfl, ← Nat.pow_mul,
      show 11 * ((nBits - (i + 11) + 10) / 11) = nBits - (i + 11) by omega,
      show nBits - i = nBits - (i + 11) + 11 by omega, Nat.pow_add _ (nBits - (i + 11)), Nat.mod_mul]
    ring
  | case2 i hge => rw [show nBits - i = 0 by omega, pow_zero, Nat.mod_one]; rfl

end Encode

section Decode

@[simp] theorem length_DecodeWordIndex (v : List UInt8) (i o : ℕ) :
    (DecodeWordIndex v i o).length = v.length := by
  unfold DecodeWordIndex
  simp only
  split_ifs <;> simp

/-- One step of `Decode`'s loop, on a buffer clear from bit `i` on, adds the index at the weight
of the field that starts at `i`. -/
theorem DecodeWordIndex_eq {v : List UInt8} {i o : ℕ} (ho : o < 2048)
    (hi : i + 11 ≤ 8 * v.length) (hclear : 2 ^ (8 * v.length - i) ∣ ofListBE v) :
    ofListBE (DecodeWordIndex v i o) = ofListBE v + o * 2 ^ (8 * v.length - (i + 11)) := by
  have hr := Nat.mod_lt i (show 8 > 0 by omega)
  have hs1 : i / 8 + 1 < v.length := by omega
  -- the field's first byte takes the top `8 - r` bits of the index into its clear low bits
  have h0 := ofListBE_modify_or_of_dvd (show i / 8 < v.length by omega)
    (show 8 - i % 8 ≤ 8 by omega)
    (by rwa [show 8 * (v.length - 1 - i / 8) + (8 - i % 8) = 8 * v.length - i by omega])
    (decode_high_field_lt ho hr)
  -- what follows the first byte is clear
  have hdvd1 : 2 ^ (8 * (v.length - 1 - (i / 8 + 1)) + 8) ∣
      ofListBE v + (UInt8.ofNat ((o >>> (i % 8 + 3)) &&& 0x7FF)).toNat *
        2 ^ (8 * (v.length - 1 - i / 8)) := by
    rw [show 8 * (v.length - 1 - (i / 8 + 1)) + 8 = 8 * (v.length - 1 - i / 8) by omega]
    exact Nat.dvd_add ((Nat.pow_dvd_pow 2 (by omega)).trans hclear) (Dvd.intro_left _ rfl)
  unfold DecodeWordIndex
  simp only
  rw [if_pos hs1]
  set v1 := v.modify (i / 8) (· ||| UInt8.ofNat ((o >>> (i % 8 + 3)) &&& 0x7FF))
  have hlen1 : v1.length = v.length := List.length_modify ..
  -- the second byte is a whole byte of the clear part
  have h1 : ∀ x : UInt8, ofListBE (v1.modify (i / 8 + 1) (· ||| x)) =
      ofListBE v1 + x.toNat * 2 ^ (8 * (v.length - 1 - (i / 8 + 1))) := by
    intro x
    rw [ofListBE_modify_or_of_dvd (by omega) (le_refl 8) (by rw [hlen1, h0]; exact hdvd1)
      (UInt8.toNat_lt _), hlen1]
  split
  · -- offsets above 5: the index ends in the third byte
    have hs2 : i / 8 + 2 < v.length := by omega
    rw [if_pos hs2]
    set v2 := v1.modify (i / 8 + 1) (· ||| UInt8.ofNat ((o >>> (i % 8 - 5)) &&& 0x7FF))
    have hlen2 : v2.length = v.length := (List.length_modify ..).trans hlen1
    have hdvd2 : 2 ^ (8 * (v2.length - 1 - (i / 8 + 2)) + 8) ∣ ofListBE v2 := by
      rw [h1, h0, hlen2,
        show 8 * (v.length - 1 - (i / 8 + 2)) + 8 = 8 * (v.length - 1 - (i / 8 + 1)) by omega]
      exact Nat.dvd_add ((Nat.pow_dvd_pow 2 (by omega)).trans hdvd1) (Dvd.intro_left _ rfl)
    rw [ofListBE_modify_or_of_dvd (by omega) (le_refl 8) hdvd2 (UInt8.toNat_lt _), h1, h0, hlen2,
      show 8 * (v.length - 1 - i / 8) = 8 * (v.length - 1 - (i / 8 + 2)) + 16 by omega,
      show 8 * (v.length - 1 - (i / 8 + 1)) = 8 * (v.length - 1 - (i / 8 + 2)) + 8 by omega,
      show 8 * v.length - (i + 11) = 8 * (v.length - 1 - (i / 8 + 2)) + (13 - i % 8) by omega]
    calc _ = ofListBE v + ((UInt8.ofNat ((o >>> (i % 8 + 3)) &&& 0x7FF)).toNat * 2 ^ 16 +
            (UInt8.ofNat ((o >>> (i % 8 - 5)) &&& 0x7FF)).toNat * 2 ^ 8 +
            (UInt8.ofNat ((o <<< (8 - (i % 8 - 5))) &&& 0x7FF)).toNat) *
          2 ^ (8 * (v.length - 1 - (i / 8 + 2))) := by ring
      _ = _ := by rw [decode_fields_long ho ‹_› hr]; ring
  · -- offsets up to 5: the index ends in the second byte
    rw [h1, h0, show 8 * (v.length - 1 - i / 8) = 8 * (v.length - 1 - (i / 8 + 1)) + 8 by omega,
      show 8 * v.length - (i + 11) = 8 * (v.length - 1 - (i / 8 + 1)) + (5 - i % 8) by omega]
    calc _ = ofListBE v + ((UInt8.ofNat ((o >>> (i % 8 + 3)) &&& 0x7FF)).toNat * 2 ^ 8 +
            (UInt8.ofNat ((o <<< (5 - i % 8)) &&& 0x7FF)).toNat) *
          2 ^ (8 * (v.length - 1 - (i / 8 + 1))) := by ring
      _ = _ := by rw [decode_fields_short ho (by omega)]; ring

@[simp] theorem length_decodeLoop (os : List ℕ) :
    ∀ (v : List UInt8) (i : ℕ), (decodeLoop v i os).length = v.length := by
  induction os with
  | nil => intro v i; rfl
  | cons o os ih => intro v i; rw [decodeLoop, ih, length_DecodeWordIndex]

/-- The loop of `Decode`, on a buffer clear from bit `i` on and with room for the indices, adds
their base-2048 number at the weight of the bits after them. -/
theorem decodeLoop_eq (os : List ℕ) (hos : ∀ o ∈ os, o < 2048) :
    ∀ (v : List UInt8) (i : ℕ), i + 11 * os.length ≤ 8 * v.length →
      2 ^ (8 * v.length - i) ∣ ofListBE v →
      ofListBE (decodeLoop v i os) =
        ofListBE v + Nat.ofDigits 2048 os.reverse * 2 ^ (8 * v.length - (i + 11 * os.length)) := by
  induction os with
  | nil => intro v i _ _; simp [decodeLoop]
  | cons o os ih =>
    intro v i hroom hclear
    have ho := hos o List.mem_cons_self
    rw [List.length_cons] at hroom
    have hstep := DecodeWordIndex_eq ho (by omega) hclear
    -- the step leaves the buffer clear from the next field on
    have hclear' : 2 ^ (8 * (DecodeWordIndex v i o).length - (i + 11)) ∣
        ofListBE (DecodeWordIndex v i o) := by
      rw [hstep, length_DecodeWordIndex]
      exact Nat.dvd_add ((Nat.pow_dvd_pow 2 (by omega)).trans hclear) (Dvd.intro_left _ rfl)
    rw [decodeLoop, ih (fun o ho => hos o (List.mem_cons_of_mem _ ho)) _ _
      (by rw [length_DecodeWordIndex]; omega) hclear', hstep, length_DecodeWordIndex,
      ofDigits_reverse_cons, List.length_cons,
      show 8 * v.length - (i + 11) = 11 * os.length + (8 * v.length - (i + 11 + 11 * os.length))
        by omega,
      show 8 * v.length - (i + 11 * (os.length + 1)) = 8 * v.length - (i + 11 + 11 * os.length)
        by omega, Nat.pow_add, Nat.pow_mul]
    ring

end Decode

section RoundTrip

variable (CSHA256 : List UInt8 → Vector UInt8 32)

theorem length_encodeInput {vEntropy : List UInt8} (hhi : vEntropy.length / 4 ≤ 256) :
    (encodeInput CSHA256 vEntropy).length = vEntropy.length + 32 := by
  unfold encodeInput
  simp only [List.length_append, List.length_take, Vector.length_toList, List.length_replicate]
  split <;> omega

theorem length_encodeIndices {vEntropy : List UInt8} (h4 : 4 ∣ vEntropy.length) :
    (encodeIndices CSHA256 vEntropy).length = 3 * (vEntropy.length / 4) := by
  rw [encodeIndices, length_wordIndices]
  omega

theorem ofListBE_checksummed (e h : List UInt8) {cs ncb : ℕ} (hh : ncb ≤ h.length)
    (hcs : cs ≤ 8 * ncb) (h32 : ncb ≤ 32) :
    ofListBE (e ++ (h.take ncb ++ List.replicate (32 - ncb) 0)) / 2 ^ (256 - cs) =
      ofListBE e * 2 ^ cs + ofListBE (h.take ncb) / 2 ^ (8 * ncb - cs) := by
  have hlen : (h.take ncb ++ List.replicate (32 - ncb) 0).length = 32 := by simp; omega
  have hX : ofListBE (e ++ (h.take ncb ++ List.replicate (32 - ncb) 0)) =
      (2 ^ (8 * ncb - cs) * (ofListBE e * 2 ^ cs) + ofListBE (h.take ncb)) *
        2 ^ (8 * (32 - ncb)) := by
    rw [ofListBE_append, hlen, ofListBE_append, ofListBE_replicate_zero, Nat.add_zero,
      List.length_replicate, ← two_pow_eight_mul, ← two_pow_eight_mul,
      show 8 * 32 = cs + (8 * ncb - cs) + 8 * (32 - ncb) by omega, Nat.pow_add, Nat.pow_add]
    ring
  rw [hX, show 256 - cs = (8 * ncb - cs) + 8 * (32 - ncb) by omega, Nat.pow_add,
    Nat.mul_div_mul_right _ _ (Nat.two_pow_pos _), Nat.mul_add_div (Nat.two_pow_pos _)]

section Lengths

variable {vEntropy : List UInt8} {cs ncb : ℕ} (hcs : vEntropy.length = 4 * cs) (hlo : 1 ≤ cs)
  (hhi : cs ≤ 256) (hncb : ncb = cs / 8 + if cs % 8 ≠ 0 then 1 else 0)
include hcs hlo hhi hncb

/-- The indices of `Encode` are the base-2048 digits of the entropy followed by `cs` bits of
checksum. -/
theorem ofDigits_encodeIndices :
    Nat.ofDigits 2048 (encodeIndices CSHA256 vEntropy).reverse =
      ofListBE vEntropy * 2 ^ cs +
        ofListBE ((CSHA256 vEntropy).toList.take ncb) / 2 ^ (8 * ncb - cs) := by
  have hq : vEntropy.length / 4 = cs := by omega
  have hb : cs ≤ 8 * ncb ∧ 8 * ncb < cs + 8 ∧ ncb ≤ 32 := by
    rw [hncb]
    split <;> omega
  have hin : encodeInput CSHA256 vEntropy =
      vEntropy ++ ((CSHA256 vEntropy).toList.take ncb ++ List.replicate (32 - ncb) 0) := by
    simp only [encodeInput, hq, hncb]
  have hL := length_encodeInput CSHA256 (show vEntropy.length / 4 ≤ 256 by omega)
  -- the indices cover the whole number but its last `256 - cs` bits
  have htop : ofListBE (encodeInput CSHA256 vEntropy) /
      2 ^ (8 * (encodeInput CSHA256 vEntropy).length - (vEntropy.length * 8 + cs)) <
        2 ^ (vEntropy.length * 8 + cs) := by
    rw [Nat.div_lt_iff_lt_mul (Nat.two_pow_pos _), ← Nat.pow_add,
      show vEntropy.length * 8 + cs + (8 * (encodeInput CSHA256 vEntropy).length -
        (vEntropy.length * 8 + cs)) = 8 * (encodeInput CSHA256 vEntropy).length by omega,
      two_pow_eight_mul]
    exact ofListBE_lt _
  rw [encodeIndices, hq, ofDigits_wordIndices (by omega) (Nat.zero_le _) (by omega), Nat.sub_zero,
    Nat.mod_eq_of_lt htop, hL, show 8 * (vEntropy.length + 32) - (vEntropy.length * 8 + cs) =
      256 - cs by omega, hin]
  exact ofListBE_checksummed _ _ (by simp; omega) hb.1 hb.2.2

/-- `Decode`'s loop over the indices of `Encode`, into its buffer of `|e| + ncb` bytes, writes the
entropy and the checksum bits, with the bits after them clear. -/
theorem ofListBE_decodeLoop_encodeIndices :
    ofListBE (decodeLoop (List.replicate (vEntropy.length + ncb) 0) 0
        (encodeIndices CSHA256 vEntropy)) =
      ofListBE vEntropy * 256 ^ ncb +
        ofListBE ((CSHA256 vEntropy).toList.take ncb) / 2 ^ (8 * ncb - cs) *
          2 ^ (8 * ncb - cs) := by
  have hb : cs ≤ 8 * ncb := by
    rw [hncb]
    split <;> omega
  have hK := length_encodeIndices CSHA256 (show 4 ∣ vEntropy.length by omega)
  rw [decodeLoop_eq (encodeIndices CSHA256 vEntropy) (fun _ ho => lt_of_mem_wordIndices ho) _ _
      (by simp; omega) (by simp),
    ofListBE_replicate_zero, Nat.zero_add, ofDigits_encodeIndices CSHA256 hcs hlo hhi hncb, hK,
    List.length_replicate, show 8 * (vEntropy.length + ncb) - (0 + 11 * (3 * (vEntropy.length / 4))) =
      8 * ncb - cs by omega, ← two_pow_eight_mul, show 8 * ncb = cs + (8 * ncb - cs) by omega,
    Nat.pow_add, Nat.add_sub_cancel_left]
  ring

/-- The decoded buffer holds the entropy, then the checksum bits with the rest of their last byte
clear. -/
theorem decodeLoop_encodeIndices :
    (decodeLoop (List.replicate (vEntropy.length + ncb) 0) 0
        (encodeIndices CSHA256 vEntropy)).take vEntropy.length = vEntropy ∧
    ofListBE ((decodeLoop (List.replicate (vEntropy.length + ncb) 0) 0
        (encodeIndices CSHA256 vEntropy)).drop vEntropy.length) =
      ofListBE ((CSHA256 vEntropy).toList.take ncb) / 2 ^ (8 * ncb - cs) * 2 ^ (8 * ncb - cs) := by
  have hb : ncb ≤ 32 := by
    rw [hncb]
    split <;> omega
  have hH : ofListBE ((CSHA256 vEntropy).toList.take ncb) < 256 ^ ncb := by
    simpa [show min ncb 32 = ncb by omega] using ofListBE_lt ((CSHA256 vEntropy).toList.take ncb)
  obtain ⟨htake, hdrop⟩ := ofListBE_take_drop_of_eq (m := vEntropy.length) (by simp)
    (lt_of_le_of_lt (Nat.div_mul_le_self _ _) hH)
    (ofListBE_decodeLoop_encodeIndices CSHA256 hcs hlo hhi hncb)
  refine ⟨ofListBE_injective (by simp) htake, hdrop⟩

/-- The checksum `Decode` computes from the entropy, masked to `cs` bits, is the one `Encode`
wrote. -/
theorem checksum_eq :
    (if cs % 8 > 0 then
      ((CSHA256 vEntropy).toList.take ncb).modify (ncb - 1)
        (· &&& UInt8.ofNat (((1 <<< (cs % 8)) - 1) <<< (8 - cs % 8)))
    else (CSHA256 vEntropy).toList.take ncb) =
      (decodeLoop (List.replicate (vEntropy.length + ncb) 0) 0
        (encodeIndices CSHA256 vEntropy)).drop vEntropy.length := by
  have hb : 1 ≤ ncb ∧ ncb ≤ 32 := by
    rw [hncb]
    split <;> omega
  have hlen : ((CSHA256 vEntropy).toList.take ncb).length = ncb := by simp; omega
  apply ofListBE_injective
  · split <;> simp <;> omega
  · rw [(decodeLoop_encodeIndices CSHA256 hcs hlo hhi hncb).2]
    split
    · -- the mask keeps the top `cs % 8` bits of the last byte
      have hmask : (UInt8.ofNat (((1 <<< (cs % 8)) - 1) <<< (8 - cs % 8))).toNat =
          (2 ^ (8 - (8 - cs % 8)) - 1) * 2 ^ (8 - cs % 8) := by
        have : cs % 8 < 8 := Nat.mod_lt _ (by omega)
        interval_cases h : cs % 8 <;> rfl
      have hlast := ofListBE_modify_last_and (l := (CSHA256 vEntropy).toList.take ncb)
        (by rw [← List.length_pos_iff, hlen]; omega) (by omega) hmask
      rw [hlen] at hlast
      rw [hlast, show 8 * ncb - cs = 8 - cs % 8 by rw [hncb]; split <;> omega]
    · rw [show 8 * ncb - cs = 0 by rw [hncb]; split <;> omega]
      simp

end Lengths

/-- The buffer `Decode` allocates for the indices of an entropy of `4 * cs` bytes holds the
entropy and the checksum's `ncb` bytes. -/
theorem decode_nBytes {cs ncb : ℕ} (hncb : ncb = cs / 8 + if cs % 8 ≠ 0 then 1 else 0) :
    3 * cs * 11 / 8 + (if 3 * cs * 11 % 8 = 0 then 0 else 1) = 4 * cs + ncb := by
  rw [hncb]
  split <;> split <;> omega

/-- Below 128 bytes of entropy `Decode`'s checksum has the `|e| / 4` bits `Encode` wrote, and the
indices of `Encode` decode to the entropy. -/
theorem decodeIndices_encodeIndices {vEntropy : List UInt8} (h4 : 4 ∣ vEntropy.length)
    (hlo : 4 ≤ vEntropy.length) (hhi : vEntropy.length < 128) :
    decodeIndices CSHA256 (encodeIndices CSHA256 vEntropy) false = .ok vEntropy := by
  obtain ⟨cs, hcs⟩ := h4
  obtain ⟨ncb, hncb⟩ : ∃ ncb, ncb = cs / 8 + if cs % 8 ≠ 0 then 1 else 0 := ⟨_, rfl⟩
  have hK : (encodeIndices CSHA256 vEntropy).length = 3 * cs := by
    rw [length_encodeIndices CSHA256 ⟨cs, hcs⟩]
    omega
  obtain ⟨htake, -⟩ := decodeLoop_encodeIndices CSHA256 hcs (by omega) (by omega) hncb
  -- below 32 checksum bits `nBits / 32` is `cs`, and the split falls where `Encode` put it
  have hnLen : 3 * cs * 11 / 32 = cs := by omega
  have hnCS : (cs / 8 + if cs % 8 = 0 then 0 else 1) = ncb := by
    rw [hncb]
    by_cases h : cs % 8 = 0 <;> simp [h]
  have hnEnt : (3 * cs * 11 - cs) / 8 = vEntropy.length := by omega
  unfold decodeIndices
  simp only
  rw [hK, decode_nBytes hncb, ← hcs, hnLen, hnCS, hnEnt, htake,
    checksum_eq CSHA256 hcs (by omega) (by omega) hncb,
    List.take_of_length_le (by simp)]
  simp

/-- From 128 bytes of entropy on, `Decode` splits `nBits / 32` bits of checksum off where
`Encode` wrote `|e| / 4`: it fails the checksum, or returns fewer bytes than the entropy. -/
theorem decodeIndices_encodeIndices_of_le {vEntropy : List UInt8} (h4 : 4 ∣ vEntropy.length)
    (hlo : 128 ≤ vEntropy.length) (hhi : vEntropy.length ≤ 1024) :
    decodeIndices CSHA256 (encodeIndices CSHA256 vEntropy) false = .error .checksumMismatch ∨
      ∃ v, decodeIndices CSHA256 (encodeIndices CSHA256 vEntropy) false = .ok v ∧
        v <+: vEntropy ∧ v.length < vEntropy.length := by
  obtain ⟨cs, hcs⟩ := h4
  obtain ⟨ncb, hncb⟩ : ∃ ncb, ncb = cs / 8 + if cs % 8 ≠ 0 then 1 else 0 := ⟨_, rfl⟩
  have hK : (encodeIndices CSHA256 vEntropy).length = 3 * cs := by
    rw [length_encodeIndices CSHA256 ⟨cs, hcs⟩]
    omega
  obtain ⟨htake, -⟩ := decodeLoop_encodeIndices CSHA256 hcs (by omega) (by omega) hncb
  -- `nBits / 32` exceeds `cs`, so the entropy `Decode` keeps is cut short
  have hshort : (3 * cs * 11 - 3 * cs * 11 / 32) / 8 < vEntropy.length := by omega
  have hprefix : ∀ D : List UInt8, D.take vEntropy.length = vEntropy →
      D.take ((3 * cs * 11 - 3 * cs * 11 / 32) / 8) <+: vEntropy ∧
        (D.take ((3 * cs * 11 - 3 * cs * 11 / 32) / 8)).length < vEntropy.length := by
    intro D hD
    rw [← Nat.min_eq_left hshort.le, ← List.take_take, hD]
    exact ⟨List.take_prefix _ _, by simp; omega⟩
  unfold decodeIndices
  simp only
  rw [hK, decode_nBytes hncb, ← hcs]
  simp only [Bool.not_false, Bool.true_and, bne_iff_ne, ne_eq, Nat.mul_mod_right, not_true_eq_false,
    if_false, Bool.false_eq_true]
  -- the mask and the comparison are on the hash, which is left open
  split_ifs
  all_goals first
    | exact .inl rfl
    | exact .inr ⟨_, rfl, hprefix _ htake⟩

theorem encodeIndices_ne_nil {vEntropy : List UInt8} (h4 : 4 ∣ vEntropy.length)
    (hlo : 4 ≤ vEntropy.length) : encodeIndices CSHA256 vEntropy ≠ [] :=
  List.ne_nil_of_length_pos (by rw [length_encodeIndices CSHA256 h4]; omega)

end RoundTrip

section Phrases

variable {CSHA256 : List UInt8 → Vector UInt8 32} {NormaliseUnicode : List UInt8 → List UInt8}
  {mnLanguages : Language → List UInt8} {language : Language} {words : List (List UInt8)}

/-- The round trip of a mnemonic: the phrase `Encode` writes for an entropy of 4 to 124 bytes,
when it fits the 2048 bytes `Decode` reads, decodes with its checksum to the entropy. -/
theorem Decode_Encode (hwl : IsWordList (mnLanguages language) words)
    (hnfkd : NormalisesPhrases NormaliseUnicode words) (vEntropy : List UInt8)
    (h4 : 4 ∣ vEntropy.length) (hlo : 4 ≤ vEntropy.length) (hhi : vEntropy.length < 128) :
    ∃ sWordList, Encode CSHA256 mnLanguages language vEntropy = .ok sWordList ∧
      (sWordList.length < 2048 →
        Decode CSHA256 NormaliseUnicode mnLanguages language sWordList false = .ok vEntropy) := by
  refine ⟨_, Encode_eq hwl vEntropy (by omega) (by omega), fun hlen => ?_⟩
  rw [Decode_phrase hwl hnfkd (fun o (ho : o ∈ encodeIndices CSHA256 vEntropy) =>
    lt_of_mem_wordIndices ho) (encodeIndices_ne_nil CSHA256 h4 hlo) hlen]
  exact decodeIndices_encodeIndices CSHA256 h4 hlo hhi

def twoLetterWords : List (List UInt8) :=
  (List.range 2048).map fun k => [UInt8.ofNat (0x41 + k / 64), UInt8.ofNat (0x41 + k % 64)]

theorem mem_twoLetterWords {w : List UInt8} (hw : w ∈ twoLetterWords) :
    w.length = 2 ∧ ∀ b ∈ w, 0x41 ≤ b.toNat ∧ b.toNat ≤ 0x80 := by
  obtain ⟨k, hk, rfl⟩ := List.mem_map.1 hw
  rw [List.mem_range] at hk
  refine ⟨rfl, fun b hb => ?_⟩
  simp only [List.mem_cons, List.not_mem_nil, or_false] at hb
  rcases hb with rfl | rfl <;> simp only [UInt8.toNat_ofNat'] <;> omega

theorem isspace_eq_false_of_letter {b : UInt8} (hb : 0x41 ≤ b.toNat ∧ b.toNat ≤ 0x80) :
    isspace b = false := by
  unfold isspace
  simp [← UInt8.toNat_inj]
  omega

def twoLetterLanguages (_ : Language) : List UInt8 := wordListBytes twoLetterWords

theorem isWordList_twoLetterWords (language : Language) :
    IsWordList (twoLetterLanguages language) twoLetterWords where
  eq_bytes := rfl
  length_eq := by simp [twoLetterWords]
  nodup := by
    refine List.Nodup.map_on ?_ List.nodup_range
    intro k hk k' hk' h
    rw [List.mem_range] at hk hk'
    simp only [List.cons.injEq, and_true] at h
    have h1 := congrArg UInt8.toNat h.1
    have h2 := congrArg UInt8.toNat h.2
    simp only [UInt8.toNat_ofNat'] at h1 h2
    omega
  ne_nil := fun w hw h => by simpa [h] using (mem_twoLetterWords hw).1
  word_byte := fun w hw b hb => by
    have hbyte := (mem_twoLetterWords hw).2 b hb
    refine ⟨isspace_eq_false_of_letter hbyte, fun h => ?_⟩
    rw [h] at hbyte
    exact absurd hbyte.1 (by decide)

theorem normalisesPhrases_twoLetterWords :
    NormalisesPhrases (ReplaceStrInPlace ideographicSpace [space]) twoLetterWords where
  keeps ws hws := by
    have hnone : ∀ c ∈ [space].intercalate ws, ideographicSpace.head? ≠ some c := by
      intro c hc
      rcases mem_intercalate _ hc with hc | ⟨w, hw, hc⟩
      · simp [List.mem_singleton.1 hc, ideographicSpace, space]
      · have hbyte := (mem_twoLetterWords (hws w hw)).2 c hc
        simp only [ideographicSpace, List.head?_cons, ne_eq, Option.some.injEq]
        intro h
        rw [← h] at hbyte
        exact absurd hbyte.2 (by decide)
    simpa using ReplaceStrInPlace_append_of_forall hnone []
  ideographic ws hws := by
    refine ReplaceStrInPlace_intercalate (by simp [ideographicSpace]) ws fun w hw c hc => ?_
    have hbyte := (mem_twoLetterWords (hws w hw)).2 c hc
    simp only [ideographicSpace, List.head?_cons, ne_eq, Option.some.injEq]
    intro h
    rw [← h] at hbyte
    exact absurd hbyte.2 (by decide)

/-- The English phrase of `twoLetterWords` for an entropy of `4 * cs` bytes has `3 * cs` words of
two letters. -/
theorem length_Encode_twoLetterWords {vEntropy : List UInt8} (h4 : 4 ∣ vEntropy.length)
    (hlo : 4 ≤ vEntropy.length) (hhi : vEntropy.length ≤ 1024) {sWordList : List UInt8}
    (hs : Encode CSHA256 twoLetterLanguages .ENGLISH vEntropy = .ok sWordList) :
    sWordList.length ≤ 9 * (vEntropy.length / 4) := by
  rw [Encode_eq (isWordList_twoLetterWords .ENGLISH) _ (by omega) (by omega)] at hs
  cases hs
  have hlen := length_intercalate_le_mul [space]
    (wordsAt twoLetterWords (encodeIndices CSHA256 vEntropy)) (n := 2) fun w hw =>
      (mem_twoLetterWords (mem_of_mem_wordsAt (isWordList_twoLetterWords .ENGLISH)
        (fun _ ho => lt_of_mem_wordIndices ho) hw)).1.le
  have hK : (wordsAt twoLetterWords (encodeIndices CSHA256 vEntropy)).length =
      3 * (vEntropy.length / 4) := by
    rw [wordsAt, List.length_map, length_encodeIndices CSHA256 h4]
  rw [hK, List.length_singleton] at hlen
  simp only [phrase, reduceCtorEq, if_false]
  omega

theorem Decode_Encode_sixteen_bytes :
    ∃ sWordList, Encode (fun _ => Vector.replicate 32 0) twoLetterLanguages
        .ENGLISH (List.replicate 16 0) = .ok sWordList ∧ sWordList.length < 2048 ∧
      Decode (fun _ => Vector.replicate 32 0) (ReplaceStrInPlace ideographicSpace [space])
        twoLetterLanguages .ENGLISH sWordList false =
          .ok (List.replicate 16 0) := by
  obtain ⟨sWordList, hs, hdec⟩ := Decode_Encode (isWordList_twoLetterWords .ENGLISH)
    normalisesPhrases_twoLetterWords (List.replicate 16 0) (by simp) (by simp) (by simp)
  have hlen := length_Encode_twoLetterWords (by simp) (by simp) (by simp) hs
  simp only [List.length_replicate] at hlen
  exact ⟨sWordList, hs, by omega, hdec (by omega)⟩

/-- From 128 bytes of entropy on, the phrase `Encode` writes does not decode to the entropy:
`Decode` takes `nBits / 32` bits of checksum where `Encode` wrote `|e| / 4`, and fails the
checksum or returns fewer bytes. -/
theorem Decode_Encode_of_large_entropy (hwl : IsWordList (mnLanguages language) words)
    (hnfkd : NormalisesPhrases NormaliseUnicode words) (vEntropy : List UInt8)
    (h4 : 4 ∣ vEntropy.length) (hlo : 128 ≤ vEntropy.length) (hhi : vEntropy.length ≤ 1024) :
    ∃ sWordList, Encode CSHA256 mnLanguages language vEntropy = .ok sWordList ∧
      (sWordList.length < 2048 →
        Decode CSHA256 NormaliseUnicode mnLanguages language sWordList false =
          .error .checksumMismatch ∨
        ∃ v, Decode CSHA256 NormaliseUnicode mnLanguages language sWordList false = .ok v ∧
          v <+: vEntropy ∧ v.length < vEntropy.length) := by
  refine ⟨_, Encode_eq hwl vEntropy (by omega) (by omega), fun hlen => ?_⟩
  rw [Decode_phrase hwl hnfkd (fun o (ho : o ∈ encodeIndices CSHA256 vEntropy) =>
    lt_of_mem_wordIndices ho) (encodeIndices_ne_nil CSHA256 h4 (by omega)) hlen]
  exact decodeIndices_encodeIndices_of_le CSHA256 h4 hlo hhi

theorem Decode_Encode_at_128_bytes :
    ∃ sWordList, Encode (fun _ => Vector.replicate 32 0) twoLetterLanguages
        .ENGLISH (List.replicate 128 0) = .ok sWordList ∧ sWordList.length < 2048 ∧
      (Decode (fun _ => Vector.replicate 32 0) (ReplaceStrInPlace ideographicSpace [space])
          twoLetterLanguages .ENGLISH sWordList false =
            .error .checksumMismatch ∨
        ∃ v, Decode (fun _ => Vector.replicate 32 0) (ReplaceStrInPlace ideographicSpace [space])
          twoLetterLanguages .ENGLISH sWordList false = .ok v ∧
          v <+: List.replicate 128 0 ∧ v.length < 128) := by
  obtain ⟨sWordList, hs, hdec⟩ := Decode_Encode_of_large_entropy (isWordList_twoLetterWords .ENGLISH)
    normalisesPhrases_twoLetterWords (List.replicate 128 0) (by simp) (by simp) (by simp)
  have hlen := length_Encode_twoLetterWords (by simp) (by simp) (by simp) hs
  simp only [List.length_replicate] at hlen hdec
  exact ⟨sWordList, hs, by omega, hdec (by omega)⟩

end Phrases

end UnitE.Mnemonic
