import UnitE.Spec.Script

/-! The vote script read back. Each of the four push forms is read back by `GetScriptOp`
when the size fits the 32-bit field of `OP_PUSHDATA4`, and `CScriptNum::deserialize` reads back
what `serialize` writes for every `uint32_t`, so `DecodeVote` inverts `EncodeVote` for every
signature shorter than `2^32` bytes. It inverts it for no longer one: the size is cut to
32 bits. And it accepts more than `EncodeVote` writes: a number with a zero byte on top reads
as the same number, so every vote script has a second form that decodes to the same vote and
signature. -/

namespace UnitE.Script

open Bytes Esperanza

theorem toNat_ofNat_of_lt {n : ℕ} (h : n < 256) : (UInt8.ofNat n).toNat = n := by
  rw [UInt8.toNat_ofNat', Nat.mod_eq_of_lt h]

theorem GetScriptOp_of_pushSize {opcode : UInt8} {rest data rest' : List UInt8}
    (hop : opcode ≤ OP_PUSHDATA4) (hsize : pushSize opcode rest = some (data.length, data ++ rest')) :
    GetScriptOp (opcode :: rest) = some (opcode, data, rest') := by
  simp [GetScriptOp, hop, hsize]

theorem pushSize_PUSHDATA2 (n : ℕ) (rest : List UInt8) :
    pushSize OP_PUSHDATA2 (WriteLE16 n ++ rest) = some (n % 2 ^ 16, rest) := by
  have hw : (WriteLE16 n).length = 2 := length_toListLE 2 _
  unfold pushSize
  rw [if_neg (by decide), if_neg (by decide), if_pos rfl,
    if_neg (by rw [List.length_append, hw]; omega), ReadLE16,
    List.take_left' hw, List.drop_left' hw, WriteLE16, ofListLE_toListLE]
  rfl

theorem pushSize_PUSHDATA4 (n : ℕ) (rest : List UInt8) :
    pushSize OP_PUSHDATA4 (WriteLE32 n ++ rest) = some (n % 2 ^ 32, rest) := by
  have hw : (WriteLE32 n).length = 4 := length_toListLE 4 _
  unfold pushSize
  rw [if_neg (by decide), if_neg (by decide), if_neg (by decide),
    if_neg (by rw [List.length_append, hw]; omega), ReadLE32,
    List.take_left' hw, List.drop_left' hw, WriteLE32, ofListLE_toListLE]
  rfl

theorem GetScriptOp_pushVector {b : List UInt8} (rest : List UInt8) (hlen : b.length < 2 ^ 32) :
    ∃ opcode, GetScriptOp (pushVector b ++ rest) = some (opcode, b, rest) := by
  have h76 : OP_PUSHDATA1.toNat = 76 := rfl
  rw [pushVector]
  split_ifs with h1 h2 h3
  · rw [h76] at h1
    have hop : (UInt8.ofNat b.length).toNat = b.length := toNat_ofNat_of_lt (by omega)
    have hlt : UInt8.ofNat b.length < OP_PUSHDATA1 := by
      rw [UInt8.lt_iff_toNat_lt, hop, h76]
      exact h1
    refine ⟨_, GetScriptOp_of_pushSize ?_ ?_⟩
    · rw [UInt8.le_iff_toNat_le, hop, show OP_PUSHDATA4.toNat = 78 from rfl]
      omega
    · simp [pushSize, hlt, hop]
  · refine ⟨_, GetScriptOp_of_pushSize (by decide) ?_⟩
    simp [pushSize, OP_PUSHDATA1, toNat_ofNat_of_lt (show b.length < 256 by omega)]
  · simp only [List.cons_append]
    refine ⟨_, GetScriptOp_of_pushSize (by decide) ?_⟩
    rw [List.append_assoc, pushSize_PUSHDATA2, Nat.mod_eq_of_lt (by omega)]
  · simp only [List.cons_append]
    refine ⟨_, GetScriptOp_of_pushSize (by decide) ?_⟩
    rw [List.append_assoc, pushSize_PUSHDATA4, Nat.mod_eq_of_lt hlen]

theorem pushVector_injective {a b : List UInt8} (ha : a.length < 2 ^ 32) (hb : b.length < 2 ^ 32)
    (h : pushVector a = pushVector b) : a = b := by
  obtain ⟨_, hopa⟩ := GetScriptOp_pushVector [] ha
  obtain ⟨_, hopb⟩ := GetScriptOp_pushVector [] hb
  rw [h, hopb, Option.some.injEq, Prod.mk.injEq, Prod.mk.injEq] at hopa
  exact hopa.2.1.symm

theorem length_pushVector_add_le {a b : List UInt8} (h : a.length ≤ b.length) :
    (pushVector a).length + (b.length - a.length) ≤ (pushVector b).length := by
  have h76 : OP_PUSHDATA1.toNat = 76 := rfl
  unfold pushVector
  split_ifs <;> simp only [List.length_cons, List.length_append, WriteLE16, WriteLE32, length_toListLE,
    h76] at * <;> omega

namespace CScriptNum

theorem set_vch_nil : set_vch [] = 0 := by
  simp [set_vch]

theorem set_vch_of_nonneg {vch : List UInt8} (hne : vch ≠ []) (hlen : vch.length ≤ 8)
    (hlast : vch.getLast! &&& 0x80 = 0) (hval : ofListLE vch < 2 ^ 63) :
    set_vch vch = ofListLE vch := by
  rw [set_vch, if_neg hne]
  simp only [List.take_of_length_le hlen]
  rw [if_neg (fun h => h hlast), toInt64, if_pos hval]

theorem deserializeUInt32_of_nonneg {vch : List UInt8} (hne : vch ≠ []) (hlen : vch.length ≤ 8)
    (hlast : vch.getLast! &&& 0x80 = 0) (hval : ofListLE vch < 2 ^ 32) :
    deserializeUInt32 vch = some (UInt32.ofNat (ofListLE vch)) := by
  have hset := set_vch_of_nonneg hne hlen hlast (by omega)
  have hle : ofListLE vch ≤ 4294967295 := by omega
  simp only [deserializeUInt32, deserialize, hset]
  simp [show ¬ 8 < vch.length by omega, hle]

theorem deserializeUInt32_nil : deserializeUInt32 [] = some 0 := by
  simp [deserializeUInt32, deserialize, set_vch_nil]

/-- `serialize` of a positive number: its minimal bytes, and a zero byte when the top one has
the sign bit. -/
theorem serialize_of_pos {n : ℕ} (hn : n ≠ 0) :
    serialize n = minimalLE n ++ if (minimalLE n).getLast! &&& 0x80 ≠ 0 then [0] else [] := by
  have hneg : ¬ ((n : Int) < 0) := by omega
  simp only [serialize, Nat.cast_eq_zero, hn, if_false, Int.natAbs_natCast, hneg, decide_false,
    Bool.false_eq_true]
  split_ifs <;> simp

/-- The bytes `serialize` writes for a positive `uint32_t`: at most five, the last one without
sign bit, and the number itself. -/
theorem serialize_spec {n : ℕ} (hn : n ≠ 0) (hn32 : n < 2 ^ 32) :
    serialize n ≠ [] ∧ (serialize n).length ≤ 5 ∧ (serialize n).getLast! &&& 0x80 = 0 ∧
      ofListLE (serialize n) = n := by
  have hmin := length_minimalLE_le (w := 4) (n := n) (by omega)
  have hne : minimalLE n ≠ [] := by rwa [ne_eq, minimalLE_eq_nil_iff]
  rw [serialize_of_pos hn]
  split_ifs with htop
  · refine ⟨by simp, by simp; omega, by simp, ?_⟩
    rw [ofListLE_append_zero, ofListLE_minimalLE]
  · refine ⟨by simpa using hne, by simp; omega, by simpa using htop, ?_⟩
    rw [List.append_nil, ofListLE_minimalLE]

theorem deserializeUInt32_serialize (e : UInt32) : deserializeUInt32 (serialize e.toNat) = some e := by
  by_cases he : e.toNat = 0
  · obtain rfl : e = 0 := UInt32.toNat_inj.mp he
    rw [UInt32.toNat_zero, show serialize (0 : ℕ) = [] by simp [serialize], deserializeUInt32_nil]
  · obtain ⟨hne, hlen, hlast, hval⟩ := serialize_spec he e.toNat_lt
    rw [deserializeUInt32_of_nonneg hne (by omega) hlast (by rw [hval]; exact e.toNat_lt), hval,
      UInt32.ofNat_toNat]

theorem deserializeUInt32_serialize_append_zero (e : UInt32) :
    deserializeUInt32 (serialize e.toNat ++ [0]) = some e := by
  have hlast : (serialize e.toNat ++ [0]).getLast! &&& 0x80 = 0 := by simp
  have hval : ofListLE (serialize e.toNat ++ [0]) = e.toNat := by
    by_cases he : e.toNat = 0
    · rw [he, show serialize (0 : ℕ) = [] by simp [serialize]]
      rfl
    · rw [ofListLE_append_zero, (serialize_spec he e.toNat_lt).2.2.2]
  have hlen : (serialize e.toNat ++ [0]).length ≤ 8 := by
    by_cases he : e.toNat = 0
    · simp [he, serialize]
    · have := (serialize_spec he e.toNat_lt).2.1
      simp only [List.length_append, List.length_singleton]
      omega
  rw [deserializeUInt32_of_nonneg (by simp) hlen hlast (by rw [hval]; exact e.toNat_lt), hval,
    UInt32.ofNat_toNat]

theorem length_serialize_le (e : UInt32) : (serialize e.toNat).length ≤ 5 := by
  by_cases he : e.toNat = 0
  · simp [he, serialize]
  · exact (serialize_spec he e.toNat_lt).2.1

end CScriptNum

theorem blobOfVector_ToByteVector {n : ℕ} (h8 : n % 8 = 0) (x : BitVec n) :
    blobOfVector n (ToByteVector n x) = x := by
  have hpow : (256 : ℕ) ^ (n / 8) = 2 ^ n := by
    rw [show (256 : ℕ) = 2 ^ 8 by norm_num, ← pow_mul, Nat.mul_div_cancel' (Nat.dvd_of_mod_eq_zero h8)]
  rw [blobOfVector, ToByteVector, ofListLE_toListLE_of_lt (hpow ▸ x.isLt), BitVec.ofNat_toNat,
    BitVec.setWidth_eq]

theorem length_ToByteVector (n : ℕ) (x : BitVec n) : (ToByteVector n x).length = n / 8 :=
  length_toListLE _ _

theorem pushVector_of_lt {b : List UInt8} (h : b.length < 76) :
    pushVector b = UInt8.ofNat b.length :: b := by
  rw [pushVector, if_pos (show b.length < OP_PUSHDATA1.toNat from h)]

/-- `DecodeVote` of five pushes whose sizes fit 32 bits: the checks on the second and third,
and the two numbers. -/
theorem DecodeVote_pushVectors {a b c d e : List UInt8} (ha : a.length < 2 ^ 32)
    (hb : b.length < 2 ^ 32) (hc : c.length < 2 ^ 32) (hd : d.length < 2 ^ 32)
    (he : e.length < 2 ^ 32) :
    DecodeVote (pushVector a ++ pushVector b ++ pushVector c ++ pushVector d ++ pushVector e) =
      if b.length = 20 ∧ c.length = 32 then
        (CScriptNum.deserializeUInt32 d).bind fun sourceEpoch =>
          (CScriptNum.deserializeUInt32 e).map fun targetEpoch =>
            (⟨blobOfVector 160 b, blobOfVector 256 c, sourceEpoch, targetEpoch⟩, a)
      else none := by
  obtain ⟨_, hopa⟩ := GetScriptOp_pushVector (pushVector b ++ (pushVector c ++ (pushVector d ++
    pushVector e))) ha
  obtain ⟨_, hopb⟩ := GetScriptOp_pushVector (pushVector c ++ (pushVector d ++ pushVector e)) hb
  obtain ⟨_, hopc⟩ := GetScriptOp_pushVector (pushVector d ++ pushVector e) hc
  obtain ⟨_, hopd⟩ := GetScriptOp_pushVector (pushVector e) hd
  obtain ⟨_, hope⟩ := GetScriptOp_pushVector [] he
  rw [List.append_nil] at hope
  simp only [List.append_assoc]
  simp only [DecodeVote, hopa, hopb, hopc, hopd, hope, Option.bind_eq_bind, Option.bind_some]
  by_cases hb20 : b.length = 20
  · by_cases hc32 : c.length = 32
    · simp only [guard, hb20, hc32, and_self, ↓reduceIte, Option.pure_def, Option.bind_some,
        Option.map_eq_bind]
      rfl
    · simp only [guard, hb20, hc32, and_false, ↓reduceIte, Option.pure_def, Option.bind_some,
        Option.failure_eq_none, Option.bind_none]
  · simp only [guard, hb20, false_and, ↓reduceIte, Option.failure_eq_none, Option.bind_none]

/-- The five pushes of `EncodeVote`, with the source epoch's number given its own bytes. -/
def votePushes (data : Vote) (voteSig sourceEpochVec : List UInt8) : List UInt8 :=
  pushVector voteSig ++ pushVector (ToByteVector 160 data.validatorAddress) ++
    pushVector (ToByteVector 256 data.targetHash) ++ pushVector sourceEpochVec ++
    pushVector (CScriptNum.serialize data.targetEpoch.toNat)

theorem EncodeVote_eq_ok {data : Vote} {voteSig : List UInt8} (hne : voteSig ≠ []) :
    EncodeVote data voteSig =
      .ok (votePushes data voteSig (CScriptNum.serialize data.sourceEpoch.toNat)) := by
  simp [EncodeVote, hne, votePushes]

theorem DecodeVote_votePushes {data : Vote} {voteSig sourceEpochVec : List UInt8}
    (hlen : voteSig.length < 2 ^ 32) (hsrc : sourceEpochVec.length ≤ 8)
    (hsource : CScriptNum.deserializeUInt32 sourceEpochVec = some data.sourceEpoch) :
    DecodeVote (votePushes data voteSig sourceEpochVec) = some (data, voteSig) := by
  have htgt := CScriptNum.length_serialize_le data.targetEpoch
  rw [votePushes, DecodeVote_pushVectors hlen (by simp [length_ToByteVector])
    (by simp [length_ToByteVector]) (by omega) (by omega)]
  simp [length_ToByteVector, hsource, CScriptNum.deserializeUInt32_serialize,
    blobOfVector_ToByteVector]

theorem DecodeVote_of_EncodeVote {data : Vote} {voteSig script : List UInt8}
    (hlen : voteSig.length < 2 ^ 32) (h : EncodeVote data voteSig = .ok script) :
    DecodeVote script = some (data, voteSig) := by
  have hne : voteSig ≠ [] := by
    rintro rfl
    simp [EncodeVote] at h
  rw [EncodeVote_eq_ok hne, Except.ok.injEq] at h
  subst h
  have hsrc := CScriptNum.length_serialize_le data.sourceEpoch
  exact DecodeVote_votePushes hlen (by omega) (CScriptNum.deserializeUInt32_serialize data.sourceEpoch)

def malleatedVoteScript (data : Vote) (voteSig : List UInt8) : List UInt8 :=
  votePushes data voteSig (CScriptNum.serialize data.sourceEpoch.toNat ++ [0])

/-- Every vote script has a second form: with a zero byte on top of the source epoch's number
it is another script, which `DecodeVote` reads as the same vote and signature. -/
theorem DecodeVote_malleated (data : Vote) (voteSig : List UInt8) (hne : voteSig ≠ [])
    (hlen : voteSig.length < 2 ^ 32) :
    ∃ script, EncodeVote data voteSig = .ok script ∧ malleatedVoteScript data voteSig ≠ script ∧
      DecodeVote (malleatedVoteScript data voteSig) = some (data, voteSig) ∧
      DecodeVote script = some (data, voteSig) := by
  have hsrc := CScriptNum.length_serialize_le data.sourceEpoch
  refine ⟨_, EncodeVote_eq_ok hne, fun heq => ?_,
    DecodeVote_votePushes hlen (by simp; omega)
      (CScriptNum.deserializeUInt32_serialize_append_zero data.sourceEpoch),
    DecodeVote_votePushes hlen (by omega) (CScriptNum.deserializeUInt32_serialize data.sourceEpoch)⟩
  -- the scripts agree up to the source epoch's push, whose size byte is one larger
  simp only [malleatedVoteScript, votePushes, List.append_assoc, List.append_cancel_left_eq] at heq
  have hshort : (CScriptNum.serialize data.sourceEpoch.toNat).length < 76 := by omega
  have hlonger : (CScriptNum.serialize data.sourceEpoch.toNat ++ [0]).length < 76 := by
    simp only [List.length_append, List.length_singleton]
    omega
  rw [pushVector_of_lt hlonger, pushVector_of_lt hshort, List.cons_append, List.cons_append,
    List.cons.injEq] at heq
  have hbyte := congrArg UInt8.toNat heq.1
  rw [toNat_ofNat_of_lt (by omega), toNat_ofNat_of_lt (by omega)] at hbyte
  simp at hbyte

theorem DecodeVote_malleated_vote :
    ∃ script, EncodeVote ⟨7, 1, 2, 3⟩ [48, 69] = .ok script ∧
      malleatedVoteScript ⟨7, 1, 2, 3⟩ [48, 69] ≠ script ∧
      DecodeVote (malleatedVoteScript ⟨7, 1, 2, 3⟩ [48, 69]) = some (⟨7, 1, 2, 3⟩, [48, 69]) ∧
      DecodeVote script = some (⟨7, 1, 2, 3⟩, [48, 69]) :=
  DecodeVote_malleated ⟨7, 1, 2, 3⟩ [48, 69] (by decide) (by decide)

end UnitE.Script
