import Mathlib.Data.List.ModifyLast
import UnitE.Lib.Except
import UnitE.Spec.LedgerAPDU

/-! The framing of the commands for a Ledger device. An APDU's data is `m_in[5, size)`; a write
that fits appends to it and keeps the four header bytes, and writes in a row are one write of
their concatenation (`APDU.write_append`). The prepare phase sends the serialization of the
transaction without loss when every output has a script: the version and the inputs in
`HASH_INPUT_START` APDUs, the outputs in `HASH_INPUT_FINALIZE_FULL` APDUs of which only the
last has `P1 = 0x80`. An output with an empty script breaks this: the loop over a script sends
the current APDU only after a chunk of the script, so the bytes of a last output with an empty
script are never sent. The sign phase sends the one input with its script code. -/

namespace UnitE.USBDevice

open Bytes

namespace APDU

def data (apdu : APDU) : List UInt8 := (apdu.m_in.take apdu.size).drop 5

def header (apdu : APDU) : List UInt8 := apdu.m_in.take 4

theorem ext {a b : APDU} (hm : a.m_in = b.m_in) (hs : a.size = b.size)
    (hmax : a.max_size = b.max_size) : a = b := by
  cases a
  cases b
  subst hm hs hmax
  rfl

theorem size_le_buffer (apdu : APDU) : apdu.size ≤ IO_APDU_BUFFER_SIZE :=
  apdu.max_size_eq ▸ apdu.size_le

theorem length_data (apdu : APDU) : apdu.data.length = apdu.size - 5 := by
  have := apdu.size_le
  have := apdu.length_m_in
  simp only [data, List.length_drop, List.length_take]
  omega

@[simp] theorem data_create (ins p1 p2 : UInt8) : (create ins p1 p2).data = [] := rfl

@[simp] theorem header_create (ins p1 p2 : UInt8) :
    (create ins p1 p2).header = [BTCHIP_CLA, ins, p1, p2] := rfl

@[simp] theorem size_create (ins p1 p2 : UInt8) : (create ins p1 p2).size = 5 := rfl

@[simp] theorem max_size_create (ins p1 p2 : UInt8) :
    (create ins p1 p2).max_size = IO_APDU_BUFFER_SIZE := rfl

section Splice

variable {m d d₁ d₂ : List UInt8} {s : Nat}

theorem take_splice (x : UInt8) (h₅ : 5 ≤ s) (hfit : s + d.length ≤ m.length) :
    (splice m s d x).take (s + d.length) = (m.take s).set 4 x ++ d := by
  have hs : (m.take s ++ d).length = s + d.length := by simp; omega
  rw [splice, List.take_set, List.take_left' hs,
    List.set_append_left _ _ (by simp; omega)]

theorem drop_splice (x : UInt8) (h₅ : 5 ≤ s) (hfit : s + d.length ≤ m.length) (k : Nat) :
    (splice m s d x).drop (s + d.length + k) = (m.drop (s + d.length)).drop k := by
  have hs : (m.take s ++ d).length = s + d.length := by simp; omega
  rw [splice, List.drop_set, if_pos (by omega), ← hs, List.drop_append]
  simp

theorem splice_splice (x₁ x₂ : UInt8) (h₅ : 5 ≤ s)
    (hfit : s + d₁.length + d₂.length ≤ m.length) :
    splice (splice m s d₁ x₁) (s + d₁.length) d₂ x₂ = splice m s (d₁ ++ d₂) x₂ := by
  have hfit₁ : s + d₁.length ≤ m.length := by omega
  have hlen : ((m.take s).set 4 x₁).length = s := by simp; omega
  rw [splice, take_splice x₁ h₅ hfit₁, drop_splice x₁ h₅ hfit₁, List.drop_drop, splice,
    List.length_append, ← Nat.add_assoc]
  simp only [List.append_assoc]
  rw [List.set_append_left _ _ (by rw [hlen]; omega), List.set_set,
    List.set_append_left _ _ (by simp; omega)]

end Splice

variable {apdu a : APDU} {d : List UInt8}

theorem write_ok (h : d.length ≤ apdu.max_size - apdu.size) : ∃ a, apdu.write d = .ok a :=
  ⟨_, dif_pos h⟩

theorem write_error (h : apdu.max_size - apdu.size < d.length) :
    apdu.write d = .error .assertion :=
  dif_neg (by omega)

theorem write_eq_ok (hw : apdu.write d = .ok a) :
    d.length ≤ apdu.max_size - apdu.size ∧
      a.m_in = splice apdu.m_in apdu.size d (UInt8.ofNat (apdu.size + d.length - 5)) ∧
      a.size = apdu.size + d.length ∧ a.max_size = apdu.max_size := by
  unfold write at hw
  split at hw
  · cases hw
    exact ⟨‹_›, rfl, rfl, rfl⟩
  · cases hw

theorem fits_of_write_eq_ok (hw : apdu.write d = .ok a) :
    apdu.size + d.length ≤ apdu.m_in.length := by
  have := (write_eq_ok hw).1
  have := apdu.size_le
  rw [apdu.length_m_in]
  omega

theorem data_of_write_eq_ok (hw : apdu.write d = .ok a) : a.data = apdu.data ++ d := by
  obtain ⟨-, hm, hs, -⟩ := write_eq_ok hw
  have h₅ := apdu.header_le
  rw [data, hm, hs, take_splice _ h₅ (fits_of_write_eq_ok hw),
    List.drop_append_of_le_length (by simp; have := fits_of_write_eq_ok hw; omega), List.drop_set,
    if_pos (by omega)]
  rfl

theorem header_of_write_eq_ok (hw : apdu.write d = .ok a) : a.header = apdu.header := by
  obtain ⟨-, hm, -, -⟩ := write_eq_ok hw
  have h₅ := apdu.header_le
  have hfit := fits_of_write_eq_ok hw
  rw [header, hm, header, splice, List.take_set, List.set_eq_of_length_le (by simp),
    List.append_assoc, List.take_append_of_le_length (by simp; omega), List.take_take,
    min_eq_left (by omega)]

theorem size_of_write_eq_ok (hw : apdu.write d = .ok a) : a.size = apdu.size + d.length :=
  (write_eq_ok hw).2.2.1

theorem write_append (apdu : APDU) (d₁ d₂ : List UInt8) :
    apdu.write (d₁ ++ d₂) = (apdu.write d₁ >>= fun a => a.write d₂) := by
  by_cases h₁ : d₁.length ≤ apdu.max_size - apdu.size
  · obtain ⟨a, hw⟩ := write_ok h₁
    obtain ⟨-, hma, hsa, hxa⟩ := write_eq_ok hw
    rw [hw, Except.ok_bind]
    by_cases h₂ : d₂.length ≤ a.max_size - a.size
    · -- both fit: the two copies are one
      obtain ⟨b, hwb⟩ := write_ok h₂
      obtain ⟨A, hwA⟩ : ∃ A, apdu.write (d₁ ++ d₂) = .ok A := write_ok (by simp; omega)
      obtain ⟨-, hmb, hsb, hxb⟩ := write_eq_ok hwb
      obtain ⟨-, hmA, hsA, hxA⟩ := write_eq_ok hwA
      have hfit : apdu.size + d₁.length + d₂.length ≤ apdu.m_in.length := by
        have := apdu.size_le
        rw [apdu.length_m_in]
        omega
      rw [hwA, hwb]
      congr 1
      refine ext ?_ (by rw [hsA, hsb, hsa, List.length_append, Nat.add_assoc])
        (hxA.trans (hxb.trans hxa).symm)
      rw [hmA, hmb, hma, hsa, splice_splice _ _ apdu.header_le hfit, List.length_append,
        Nat.add_assoc]
    · have hA : apdu.write (d₁ ++ d₂) = .error .assertion := write_error (by simp; omega)
      rw [hA, write_error (by omega)]
  · have hA : apdu.write (d₁ ++ d₂) = .error .assertion := write_error (by simp; omega)
    rw [hA, write_error (by omega), Except.error_bind]

theorem write_bind_write {β : Type} (apdu : APDU) (d₁ d₂ : List UInt8) (k : APDU → Fallible β) :
    (apdu.write d₁ >>= fun a => a.write d₂ >>= k) = (apdu.write (d₁ ++ d₂) >>= k) := by
  rw [write_append, bind_assoc]

@[simp] theorem write_nil (apdu : APDU) : apdu.write [] = .ok apdu := by
  obtain ⟨a, hw⟩ : ∃ a, apdu.write [] = .ok a := write_ok (by simp)
  obtain ⟨-, hm, hs, hx⟩ := write_eq_ok hw
  obtain ⟨h₄, hbyte⟩ := List.getElem?_eq_some_iff.1 apdu.length_byte
  rw [hw]
  congr 1
  refine ext ?_ (by simpa using hs) hx
  -- the length byte is already the length of the data
  rw [hm, splice, List.append_nil, List.length_nil, Nat.add_zero, List.take_append_drop, ← hbyte,
    List.set_getElem_self]

theorem foldlM_write_be (path : List UInt32) :
    ∀ apdu : APDU, path.foldlM write_be apdu = apdu.write (path.flatMap htobe32) := by
  induction path with
  | nil =>
    intro apdu
    rw [List.foldlM_nil, List.flatMap_nil, write_nil]
    rfl
  | cons child path ih =>
    intro apdu
    rw [List.foldlM_cons, List.flatMap_cons, write_append]
    simp only [write_be, ih]

@[simp] theorem data_setP1 (apdu : APDU) (p1 : UInt8) : (apdu.setP1 p1).data = apdu.data := by
  show ((apdu.m_in.set 2 p1).take apdu.size).drop 5 = _
  rw [List.take_set, List.drop_set, if_pos (by omega)]
  rfl

theorem header_setP1 (apdu : APDU) (p1 : UInt8) :
    (apdu.setP1 p1).header = apdu.header.set 2 p1 :=
  List.take_set

end APDU

section Bytes

@[simp] theorem length_ser_writedata32 (n : UInt32) : (ser_writedata32 n).length = 4 := by
  simp [ser_writedata32]

@[simp] theorem length_SerializeAmount (nValue : CAmount) : (SerializeAmount nValue).length = 8 := by
  simp [SerializeAmount]

@[simp] theorem length_SerializeOutPoint (prevout : COutPoint) :
    (SerializeOutPoint prevout).length = 36 := by
  simp [SerializeOutPoint]

@[simp] theorem length_htobe32 (n : UInt32) : (htobe32 n).length = 4 := by
  simp [htobe32]

theorem length_WriteCompactSize_le (n : Nat) : (WriteCompactSize n).length ≤ 9 := by
  unfold WriteCompactSize
  split_ifs <;> simp

/-- The bytes of an input in the prepare phase: a SegWit input, its outpoint and the value of
its coin, an empty scriptSig and the sequence number. -/
def inputBytes (view : CoinsView) (txin : TxIn) : List UInt8 :=
  [0x02] ++ SerializeOutPoint txin.prevout ++
    SerializeAmount (view.AccessCoin txin.prevout).out.nValue ++ [0x00] ++
    ser_writedata32 txin.nSequence

def outputBytes (txout : TxOut) : List UInt8 :=
  SerializeAmount txout.nValue ++ WriteCompactSize txout.scriptPubKey.length ++ txout.scriptPubKey

/-- What the prepare phase is to send: the serialization of the transaction, with the value of
each input's coin and empty scriptSigs. -/
def preparePhaseBytes (tx : Tx) (view : CoinsView) : List UInt8 :=
  ser_writedata32 tx.nVersion ++ WriteCompactSize tx.vin.length ++
    tx.vin.flatMap (inputBytes view) ++ WriteCompactSize tx.vout.length ++
    tx.vout.flatMap outputBytes

@[simp] theorem length_inputBytes (view : CoinsView) (txin : TxIn) :
    (inputBytes view txin).length = 50 := by
  simp [inputBytes]

end Bytes

section Prepare

variable (view : CoinsView)

theorem inputAPDUs_cons_of_write {txin : TxIn} {vin : List TxIn} {apdu : APDU}
    (hcoin : view.HaveCoin txin.prevout = true)
    (hw : (APDU.create BTCHIP_INS_HASH_INPUT_START 0x80 0x00).write (inputBytes view txin) = .ok apdu) :
    inputAPDUs view (txin :: vin) = (inputAPDUs view vin >>= fun apdus => pure ((apdu :: ·) <$> apdus)) := by
  simp only [inputAPDUs, hcoin, Bool.not_true, Bool.false_eq_true, if_false,
    APDU.write_bind_write]
  rw [show [0x02] ++ (SerializeOutPoint txin.prevout ++
      (SerializeAmount (view.AccessCoin txin.prevout).out.nValue ++ ([0x00] ++
      ser_writedata32 txin.nSequence))) = inputBytes view txin by
        simp only [inputBytes, List.append_assoc],
    hw, Except.ok_bind]

theorem inputAPDUs_ok (vin : List TxIn)
    (hcoins : ∀ txin ∈ vin, view.HaveCoin txin.prevout = true) :
    ∃ inputs, inputAPDUs view vin = .ok (.ok inputs) ∧
      inputs.map APDU.data = vin.map (inputBytes view) ∧
      ∀ a ∈ inputs, a.header = [BTCHIP_CLA, BTCHIP_INS_HASH_INPUT_START, 0x80, 0x00] := by
  induction vin with
  | nil => exact ⟨[], rfl, rfl, by simp⟩
  | cons txin vin ih =>
    obtain ⟨inputs, hrest, hdata, hheader⟩ :=
      ih (fun t ht => hcoins t (List.mem_cons_of_mem _ ht))
    have hcoin := hcoins txin List.mem_cons_self
    obtain ⟨apdu, hw⟩ : ∃ a, (APDU.create BTCHIP_INS_HASH_INPUT_START 0x80 0x00).write
        (inputBytes view txin) = .ok a := APDU.write_ok (by simp [IO_APDU_BUFFER_SIZE])
    refine ⟨apdu :: inputs, ?_, ?_, ?_⟩
    · rw [inputAPDUs_cons_of_write view hcoin hw, hrest, Except.ok_bind]
      rfl
    · rw [List.map_cons, List.map_cons, hdata, APDU.data_of_write_eq_ok hw, APDU.data_create,
        List.nil_append]
    · intro a ha
      rcases List.mem_cons.1 ha with rfl | ha
      · rw [APDU.header_of_write_eq_ok hw, APDU.header_create]
      · exact hheader a ha

def finalizeHeader : List UInt8 := [BTCHIP_CLA, BTCHIP_INS_HASH_INPUT_FINALIZE_FULL, 0x00, 0x00]

/-- The loop over a script sends its bytes in order, an APDU after each chunk; after a script
that is not empty, the current APDU is a new one. -/
theorem writeScript_spec (script : List UInt8) (apdu : APDU) (apdus_out : List APDU)
    (hheader : apdu.header = finalizeHeader) :
    ∃ new last, writeScript script apdu apdus_out = .ok (last, apdus_out ++ new) ∧
      (∀ a ∈ new, a.header = finalizeHeader) ∧ last.header = finalizeHeader ∧
      new.flatMap APDU.data ++ last.data = apdu.data ++ script ∧
      (script = [] → new = [] ∧ last = apdu) ∧ (script ≠ [] → last.data = [] ∧ new ≠ []) := by
  fun_induction writeScript script apdu apdus_out with
  | case1 script apdu apdus_out hlen chunk_size ih =>
    -- a chunk that fits, then the rest of the script from a new APDU
    obtain ⟨written, hw⟩ : ∃ w, apdu.write (script.take chunk_size) = .ok w :=
      APDU.write_ok (by simp only [List.length_take, chunk_size]; omega)
    obtain ⟨new, last, hrest, hnew, hlast, hdata, hnil, hne⟩ := ih written rfl
    refine ⟨written :: new, last, ?_, ?_, hlast, ?_, fun h => absurd h (List.ne_nil_of_length_pos hlen), ?_⟩
    · rw [hw, Except.ok_bind, hrest]
      simp
    · intro a ha
      rcases List.mem_cons.1 ha with rfl | ha
      · rw [APDU.header_of_write_eq_ok hw, hheader]
      · exact hnew a ha
    · rw [List.flatMap_cons, List.append_assoc, hdata, APDU.data_of_write_eq_ok hw,
        APDU.data_create, List.nil_append, List.append_assoc, List.take_append_drop]
    · intro _
      refine ⟨?_, List.cons_ne_nil _ _⟩
      by_cases hdrop : script.drop chunk_size = []
      · rw [(hnil hdrop).2, APDU.data_create]
      · exact (hne hdrop).1
  | case2 script apdu apdus_out hlen =>
    have hnil : script = [] := List.eq_nil_of_length_eq_zero (by omega)
    refine ⟨[], apdu, ?_, by simp, hheader, by simp [hnil], fun _ => ⟨rfl, rfl⟩,
      fun h => absurd hnil h⟩
    rw [List.append_nil]
    rfl

theorem writeScript_nil (apdu : APDU) (apdus_out : List APDU) :
    writeScript [] apdu apdus_out = .ok (apdu, apdus_out) := by
  rw [writeScript]
  rfl

theorem size_of_data_eq_nil {apdu : APDU} (h : apdu.data = []) : apdu.size = 5 := by
  have hlen := apdu.length_data
  have := apdu.header_le
  rw [h, List.length_nil] at hlen
  omega

/-- The loop over outputs that all have a script sends their bytes in order, and ends with a
new APDU. -/
theorem writeOutputs_spec (vout : List TxOut)
    (hscripts : ∀ txout ∈ vout, txout.scriptPubKey ≠ []) :
    ∀ apdu apdus_out, apdu.header = finalizeHeader → apdu.size ≤ 14 →
      ∃ new last, writeOutputs vout apdu apdus_out = .ok (last, apdus_out ++ new) ∧
        (∀ a ∈ new, a.header = finalizeHeader) ∧
        new.flatMap APDU.data ++ last.data = apdu.data ++ vout.flatMap outputBytes ∧
        (vout = [] → new = [] ∧ last = apdu) ∧ (vout ≠ [] → last.data = [] ∧ new ≠ []) := by
  induction vout with
  | nil =>
    intro apdu apdus_out hheader _
    exact ⟨[], apdu, by simp [writeOutputs], by simp, by simp, fun _ => ⟨rfl, rfl⟩,
      fun h => absurd rfl h⟩
  | cons txout vout ih =>
    intro apdu apdus_out hheader hsize
    have hscript := hscripts txout List.mem_cons_self
    -- the value and the script's length fit after at most 14 bytes
    obtain ⟨a₁, hw⟩ : ∃ a, apdu.write (SerializeAmount txout.nValue ++
        WriteCompactSize txout.scriptPubKey.length) = .ok a := by
      refine APDU.write_ok ?_
      have := apdu.max_size_eq
      have := length_WriteCompactSize_le txout.scriptPubKey.length
      simp only [List.length_append, length_SerializeAmount, IO_APDU_BUFFER_SIZE] at *
      omega
    have ha₁ : a₁.header = finalizeHeader := (APDU.header_of_write_eq_ok hw).trans hheader
    obtain ⟨new₁, last₁, hs, hnew₁, hlast₁, hdata₁, -, hne₁⟩ :=
      writeScript_spec txout.scriptPubKey a₁ apdus_out ha₁
    obtain ⟨hempty₁, hnew₁_ne⟩ := hne₁ hscript
    obtain ⟨new₂, last₂, hrest, hnew₂, hdata₂, hnil₂, hne₂⟩ :=
      ih (fun t ht => hscripts t (List.mem_cons_of_mem _ ht)) last₁ (apdus_out ++ new₁) hlast₁
        (by rw [size_of_data_eq_nil hempty₁]; omega)
    refine ⟨new₁ ++ new₂, last₂, ?_, ?_, ?_, fun h => absurd h (List.cons_ne_nil _ _), ?_⟩
    · simp only [writeOutputs, APDU.write_bind_write]
      rw [hw, Except.ok_bind, hs, Except.ok_bind]
      dsimp only
      rw [hrest, List.append_assoc]
    · intro a ha
      rcases List.mem_append.1 ha with ha | ha
      · exact hnew₁ a ha
      · exact hnew₂ a ha
    · rw [List.flatMap_append, List.append_assoc, hdata₂, hempty₁, List.nil_append,
        List.flatMap_cons, ← List.append_assoc, ← List.append_nil (new₁.flatMap APDU.data),
        ← hempty₁, hdata₁, APDU.data_of_write_eq_ok hw, outputBytes]
      simp only [List.append_assoc]
    · intro _
      refine ⟨?_, by simp [hnew₁_ne]⟩
      by_cases hvout : vout = []
      · rw [(hnil₂ hvout).2, hempty₁]
      · exact (hne₂ hvout).1

theorem write_first (tx : Tx) : ∃ first,
    (APDU.create BTCHIP_INS_HASH_INPUT_START 0x00 0x02).write
      (ser_writedata32 tx.nVersion ++ WriteCompactSize tx.vin.length) = .ok first ∧
    first.header = [BTCHIP_CLA, BTCHIP_INS_HASH_INPUT_START, 0x00, 0x02] ∧
    first.data = ser_writedata32 tx.nVersion ++ WriteCompactSize tx.vin.length := by
  obtain ⟨first, hw⟩ : ∃ a, (APDU.create BTCHIP_INS_HASH_INPUT_START 0x00 0x02).write
      (ser_writedata32 tx.nVersion ++ WriteCompactSize tx.vin.length) = .ok a := by
    refine APDU.write_ok ?_
    have := length_WriteCompactSize_le tx.vin.length
    simp only [List.length_append, length_ser_writedata32, APDU.max_size_create,
      APDU.size_create, IO_APDU_BUFFER_SIZE]
    omega
  exact ⟨first, hw, by rw [APDU.header_of_write_eq_ok hw, APDU.header_create],
    by rw [APDU.data_of_write_eq_ok hw, APDU.data_create, List.nil_append]⟩

theorem write_finalize (n : Nat) : ∃ finalize,
    (APDU.create BTCHIP_INS_HASH_INPUT_FINALIZE_FULL 0x00 0x00).write (WriteCompactSize n) =
      .ok finalize ∧ finalize.header = finalizeHeader ∧ finalize.data = WriteCompactSize n ∧
    finalize.size ≤ 14 := by
  have hle := length_WriteCompactSize_le n
  obtain ⟨finalize, hw⟩ : ∃ a, (APDU.create BTCHIP_INS_HASH_INPUT_FINALIZE_FULL 0x00 0x00).write
      (WriteCompactSize n) = .ok a :=
    APDU.write_ok (by simp only [APDU.max_size_create, APDU.size_create, IO_APDU_BUFFER_SIZE]; omega)
  refine ⟨finalize, hw, by rw [APDU.header_of_write_eq_ok hw]; rfl,
    by rw [APDU.data_of_write_eq_ok hw, APDU.data_create, List.nil_append], ?_⟩
  rw [APDU.size_of_write_eq_ok hw, APDU.size_create]
  omega

theorem GetPreparePhaseAPDUs_eq {tx : Tx} {first finalize : APDU} {inputs : List APDU}
    (hfirst : (APDU.create BTCHIP_INS_HASH_INPUT_START 0x00 0x02).write
      (ser_writedata32 tx.nVersion ++ WriteCompactSize tx.vin.length) = .ok first)
    (hinputs : inputAPDUs view tx.vin = .ok (.ok inputs))
    (hfinalize : (APDU.create BTCHIP_INS_HASH_INPUT_FINALIZE_FULL 0x00 0x00).write
      (WriteCompactSize tx.vout.length) = .ok finalize) :
    GetPreparePhaseAPDUs tx view = (writeOutputs tx.vout finalize (first :: inputs)).map
      fun r => .ok (r.2.modifyLast (·.setP1 0x80)) := by
  simp only [GetPreparePhaseAPDUs, APDU.write_bind_write]
  rw [hfirst, Except.ok_bind, hinputs, Except.ok_bind]
  dsimp only
  rw [hfinalize, Except.ok_bind]
  cases writeOutputs tx.vout finalize (first :: inputs) <;> rfl

/-- The prepare phase, for a transaction whose outputs all have a script and whose coins are
in the view: the version and the inputs go in `HASH_INPUT_START` APDUs, the outputs in
`HASH_INPUT_FINALIZE_FULL` APDUs of which only the last has `P1 = 0x80`, and the data of all
of them is the serialization of the transaction. -/
theorem GetPreparePhaseAPDUs_of_scripts (tx : Tx) (hvout : tx.vout ≠ [])
    (hscripts : ∀ txout ∈ tx.vout, txout.scriptPubKey ≠ [])
    (hcoins : ∀ txin ∈ tx.vin, view.HaveCoin txin.prevout = true) :
    ∃ first inputs body last,
      GetPreparePhaseAPDUs tx view = .ok (.ok (first :: inputs ++ body ++ [last])) ∧
      first.header = [BTCHIP_CLA, BTCHIP_INS_HASH_INPUT_START, 0x00, 0x02] ∧
      first.data = ser_writedata32 tx.nVersion ++ WriteCompactSize tx.vin.length ∧
      (∀ a ∈ inputs, a.header = [BTCHIP_CLA, BTCHIP_INS_HASH_INPUT_START, 0x80, 0x00]) ∧
      inputs.map APDU.data = tx.vin.map (inputBytes view) ∧
      (∀ a ∈ body, a.header = finalizeHeader) ∧
      last.header = [BTCHIP_CLA, BTCHIP_INS_HASH_INPUT_FINALIZE_FULL, 0x80, 0x00] ∧
      (body ++ [last]).flatMap APDU.data =
        WriteCompactSize tx.vout.length ++ tx.vout.flatMap outputBytes := by
  obtain ⟨first, hfirst, hheader, hdata⟩ := write_first tx
  obtain ⟨inputs, hinputs, hdata_in, hheader_in⟩ := inputAPDUs_ok view tx.vin hcoins
  obtain ⟨finalize, hfinalize, hheader_fin, hdata_fin, hsize_fin⟩ :=
    write_finalize tx.vout.length
  obtain ⟨new, last', hout, hnew, hdata_out, -, hne⟩ :=
    writeOutputs_spec tx.vout hscripts finalize (first :: inputs) hheader_fin hsize_fin
  obtain ⟨hlast', hnew_ne⟩ := hne hvout
  -- the last APDU sent carries outputs, and gets `P1 = 0x80`
  obtain ⟨body, last, hsplit⟩ := List.eq_nil_or_concat new |>.resolve_left hnew_ne
  rw [List.concat_eq_append] at hsplit
  subst hsplit
  refine ⟨first, inputs, body, last.setP1 0x80, ?_, hheader, hdata, hheader_in, hdata_in,
    fun a ha => hnew a (List.mem_append_left _ ha), ?_, ?_⟩
  · rw [GetPreparePhaseAPDUs_eq view hfirst hinputs hfinalize, hout]
    show Except.ok (Except.ok (List.modifyLast (·.setP1 0x80) (first :: inputs ++ (body ++ [last]))))
      = _
    rw [← List.append_assoc, List.modifyLast_concat]
  · rw [APDU.header_setP1, hnew last (by simp)]
    rfl
  · have h := hdata_out
    rw [hlast', List.append_nil, List.flatMap_append, List.flatMap_singleton, hdata_fin] at h
    rw [List.flatMap_append, List.flatMap_singleton, APDU.data_setP1, h]

def fullView : CoinsView := ⟨fun _ => true, fun _ => ⟨⟨100000, []⟩, .REGULAR, 0⟩⟩

def scriptTx : Tx := ⟨1, [⟨⟨0, 0⟩, 0xffffffff⟩], [⟨50000, [0x51]⟩], 0⟩

theorem GetPreparePhaseAPDUs_of_scripts_scriptTx :
    ∃ first inputs body last,
      GetPreparePhaseAPDUs scriptTx fullView = .ok (.ok (first :: inputs ++ body ++ [last])) ∧
      first.header = [BTCHIP_CLA, BTCHIP_INS_HASH_INPUT_START, 0x00, 0x02] ∧
      first.data = ser_writedata32 scriptTx.nVersion ++ WriteCompactSize scriptTx.vin.length ∧
      (∀ a ∈ inputs, a.header = [BTCHIP_CLA, BTCHIP_INS_HASH_INPUT_START, 0x80, 0x00]) ∧
      inputs.map APDU.data = scriptTx.vin.map (inputBytes fullView) ∧
      (∀ a ∈ body, a.header = finalizeHeader) ∧
      last.header = [BTCHIP_CLA, BTCHIP_INS_HASH_INPUT_FINALIZE_FULL, 0x80, 0x00] ∧
      (body ++ [last]).flatMap APDU.data =
        WriteCompactSize scriptTx.vout.length ++ scriptTx.vout.flatMap outputBytes :=
  GetPreparePhaseAPDUs_of_scripts fullView scriptTx (by decide) (by decide) (by decide)

/-- Outputs with empty scripts are written into the current APDU, nine bytes each, and no APDU
is sent. -/
theorem writeOutputs_of_empty_scripts (vout : List TxOut)
    (hempty : ∀ txout ∈ vout, txout.scriptPubKey = []) :
    ∀ apdu apdus_out, apdu.size + 9 * vout.length ≤ IO_APDU_BUFFER_SIZE →
      ∃ last, writeOutputs vout apdu apdus_out = .ok (last, apdus_out) ∧
        last.data = apdu.data ++ vout.flatMap outputBytes := by
  induction vout with
  | nil => exact fun apdu apdus_out _ => ⟨apdu, rfl, by simp⟩
  | cons txout vout ih =>
    intro apdu apdus_out hfit
    have hscript := hempty txout List.mem_cons_self
    obtain ⟨a₁, hw⟩ : ∃ a, apdu.write (SerializeAmount txout.nValue ++
        WriteCompactSize txout.scriptPubKey.length) = .ok a := by
      refine APDU.write_ok ?_
      have := apdu.max_size_eq
      simp only [hscript, List.length_nil, List.length_append, length_SerializeAmount,
        WriteCompactSize, if_pos (show 0 < 253 by decide), List.length_cons] at hfit ⊢
      omega
    obtain ⟨last, hrest, hdata⟩ :=
      ih (fun t ht => hempty t (List.mem_cons_of_mem _ ht)) a₁ apdus_out (by
        rw [APDU.size_of_write_eq_ok hw, hscript]
        simp only [List.length_append, length_SerializeAmount, List.length_nil, WriteCompactSize,
          if_pos (show 0 < 253 by decide), List.length_cons] at hfit ⊢
        omega)
    refine ⟨last, ?_, ?_⟩
    · simp only [writeOutputs, APDU.write_bind_write]
      rw [hw, Except.ok_bind, hscript]
      show (writeScript [] a₁ apdus_out >>= _) = _
      rw [writeScript_nil, Except.ok_bind]
      exact hrest
    · rw [hdata, APDU.data_of_write_eq_ok hw, List.flatMap_cons, outputBytes, hscript]
      simp only [List.append_assoc, List.append_nil]

theorem writeOutputs_of_empty_scripts_error (vout : List TxOut)
    (hempty : ∀ txout ∈ vout, txout.scriptPubKey = []) :
    ∀ apdu apdus_out, IO_APDU_BUFFER_SIZE < apdu.size + 9 * vout.length →
      writeOutputs vout apdu apdus_out = .error .assertion := by
  induction vout with
  | nil =>
    intro apdu _ hmany
    have := apdu.size_le_buffer
    simp at hmany
    omega
  | cons txout vout ih =>
    intro apdu apdus_out hmany
    have hscript := hempty txout List.mem_cons_self
    have hlen : (SerializeAmount txout.nValue ++
        WriteCompactSize txout.scriptPubKey.length).length = 9 := by
      simp [hscript, WriteCompactSize]
    simp only [writeOutputs, APDU.write_bind_write]
    by_cases hfit : 9 ≤ apdu.max_size - apdu.size
    · -- this output fits, and the ones after it do not
      obtain ⟨a₁, hw⟩ : ∃ a, apdu.write (SerializeAmount txout.nValue ++
          WriteCompactSize txout.scriptPubKey.length) = .ok a :=
        APDU.write_ok (by rw [hlen]; omega)
      rw [hw, Except.ok_bind, hscript]
      show (writeScript [] a₁ apdus_out >>= _) = _
      rw [writeScript_nil, Except.ok_bind]
      refine ih (fun t ht => hempty t (List.mem_cons_of_mem _ ht)) a₁ apdus_out ?_
      rw [APDU.size_of_write_eq_ok hw, hlen]
      simp only [List.length_cons] at hmany
      omega
    · have herr : apdu.write (SerializeAmount txout.nValue ++
          WriteCompactSize txout.scriptPubKey.length) = .error .assertion :=
        APDU.write_error (by rw [hlen]; omega)
      rw [herr, Except.error_bind]

/-- With every script empty, no APDU carries the outputs: the APDUs sent are the first one and
the inputs', and the last of them gets `P1 = 0x80`. -/
theorem GetPreparePhaseAPDUs_of_empty_scripts (tx : Tx)
    (hempty : ∀ txout ∈ tx.vout, txout.scriptPubKey = [])
    (hfit : 5 + (WriteCompactSize tx.vout.length).length + 9 * tx.vout.length ≤
      IO_APDU_BUFFER_SIZE)
    (hcoins : ∀ txin ∈ tx.vin, view.HaveCoin txin.prevout = true) :
    ∃ first inputs,
      GetPreparePhaseAPDUs tx view = .ok (.ok ((first :: inputs).modifyLast (·.setP1 0x80))) ∧
      first.data = ser_writedata32 tx.nVersion ++ WriteCompactSize tx.vin.length ∧
      inputs.map APDU.data = tx.vin.map (inputBytes view) ∧
      first.header = [BTCHIP_CLA, BTCHIP_INS_HASH_INPUT_START, 0x00, 0x02] ∧
      ∀ a ∈ inputs, a.header = [BTCHIP_CLA, BTCHIP_INS_HASH_INPUT_START, 0x80, 0x00] := by
  obtain ⟨first, hfirst, hheader, hdata⟩ := write_first tx
  obtain ⟨inputs, hinputs, hdata_in, hheader_in⟩ := inputAPDUs_ok view tx.vin hcoins
  obtain ⟨finalize, hfinalize, -, -, -⟩ := write_finalize tx.vout.length
  obtain ⟨last, hout, -⟩ := writeOutputs_of_empty_scripts tx.vout hempty finalize
    (first :: inputs) (by rw [APDU.size_of_write_eq_ok hfinalize, APDU.size_create]; exact hfit)
  refine ⟨first, inputs, ?_, hdata, hdata_in, hheader, hheader_in⟩
  rw [GetPreparePhaseAPDUs_eq view hfirst hinputs hfinalize, hout]
  rfl

def emptyScriptTx : Tx := ⟨1, [⟨⟨0, 0⟩, 0xffffffff⟩], [⟨50000, []⟩], 0⟩

theorem GetPreparePhaseAPDUs_drops_empty_script_output :
    ∃ first input,
      GetPreparePhaseAPDUs emptyScriptTx fullView = .ok (.ok [first, input]) ∧
      first.header = [BTCHIP_CLA, BTCHIP_INS_HASH_INPUT_START, 0x00, 0x02] ∧
      input.header = [BTCHIP_CLA, BTCHIP_INS_HASH_INPUT_START, 0x80, 0x00] ∧
      first.data ++ input.data ++ WriteCompactSize 1 ++ outputBytes ⟨50000, []⟩ =
        preparePhaseBytes emptyScriptTx fullView := by
  obtain ⟨first, inputs, hres, hdata, hdata_in, hheader, hheader_in⟩ :=
    GetPreparePhaseAPDUs_of_empty_scripts fullView emptyScriptTx (by simp [emptyScriptTx])
      (by decide) (fun _ _ => rfl)
  -- one input, so one input APDU, which gets the mark of the last output block
  obtain ⟨input, rfl⟩ : ∃ input, inputs = [input] :=
    List.length_eq_one_iff.1 (by simpa [emptyScriptTx] using congrArg List.length hdata_in)
  rw [show first :: [input] = [first] ++ [input] from rfl, List.modifyLast_concat] at hres
  refine ⟨first, input.setP1 0x80, hres, hheader, ?_, ?_⟩
  · rw [APDU.header_setP1, hheader_in input (List.mem_singleton_self input)]
    rfl
  · rw [List.map_singleton] at hdata_in
    simp only [preparePhaseBytes, APDU.data_setP1, hdata, List.singleton_inj.1 hdata_in]
    rfl

/-- Too many outputs with empty scripts fail the assertion of `write`. -/
theorem GetPreparePhaseAPDUs_of_empty_scripts_error (tx : Tx)
    (hempty : ∀ txout ∈ tx.vout, txout.scriptPubKey = [])
    (hmany : IO_APDU_BUFFER_SIZE <
      5 + (WriteCompactSize tx.vout.length).length + 9 * tx.vout.length)
    (hcoins : ∀ txin ∈ tx.vin, view.HaveCoin txin.prevout = true) :
    GetPreparePhaseAPDUs tx view = .error .assertion := by
  obtain ⟨first, hfirst, -, -⟩ := write_first tx
  obtain ⟨inputs, hinputs, -, -⟩ := inputAPDUs_ok view tx.vin hcoins
  obtain ⟨finalize, hfinalize, -, -, -⟩ := write_finalize tx.vout.length
  rw [GetPreparePhaseAPDUs_eq view hfirst hinputs hfinalize,
    writeOutputs_of_empty_scripts_error tx.vout hempty finalize (first :: inputs)
      (by rw [APDU.size_of_write_eq_ok hfinalize, APDU.size_create]; exact hmany)]
  rfl

def manyEmptyScriptsTx : Tx := ⟨1, [⟨⟨0, 0⟩, 0xffffffff⟩], List.replicate 29 ⟨50000, []⟩, 0⟩

theorem GetPreparePhaseAPDUs_of_empty_scripts_error_manyEmptyScriptsTx :
    GetPreparePhaseAPDUs manyEmptyScriptsTx fullView = .error .assertion :=
  GetPreparePhaseAPDUs_of_empty_scripts_error fullView manyEmptyScriptsTx (by decide) (by decide)
    (by decide)

theorem writeOutputs_append (vout₁ vout₂ : List TxOut) :
    ∀ apdu apdus_out, writeOutputs (vout₁ ++ vout₂) apdu apdus_out =
      (writeOutputs vout₁ apdu apdus_out >>= fun r => writeOutputs vout₂ r.1 r.2) := by
  induction vout₁ with
  | nil => intro apdu apdus_out; rfl
  | cons txout vout₁ ih =>
    intro apdu apdus_out
    simp only [List.cons_append, writeOutputs, bind_assoc, ih]

theorem flatMap_data_modifyLast_setP1 (apdus : List APDU) (p1 : UInt8) :
    (apdus.modifyLast (·.setP1 p1)).flatMap APDU.data = apdus.flatMap APDU.data := by
  rcases List.eq_nil_or_concat apdus with rfl | ⟨init, last, rfl⟩
  · rfl
  · rw [List.concat_eq_append, List.modifyLast_concat, List.flatMap_append,
      List.flatMap_append, List.flatMap_singleton, List.flatMap_singleton, APDU.data_setP1]

/-- Outputs with scripts followed by outputs with empty scripts: the APDUs sent carry the
serialization of the transaction up to the first of the empty scripts, and the outputs after it
are not sent. -/
theorem GetPreparePhaseAPDUs_of_empty_script_suffix (tx : Tx) (vout₁ vout₂ : List TxOut)
    (hvout : tx.vout = vout₁ ++ vout₂) (hvout₁ : vout₁ ≠ [])
    (hscripts : ∀ txout ∈ vout₁, txout.scriptPubKey ≠ [])
    (hempty : ∀ txout ∈ vout₂, txout.scriptPubKey = [])
    (hfit : 5 + 9 * vout₂.length ≤ IO_APDU_BUFFER_SIZE)
    (hcoins : ∀ txin ∈ tx.vin, view.HaveCoin txin.prevout = true) :
    ∃ apdus, GetPreparePhaseAPDUs tx view = .ok (.ok apdus) ∧
      apdus.flatMap APDU.data ++ vout₂.flatMap outputBytes = preparePhaseBytes tx view := by
  obtain ⟨first, hfirst, -, hdata⟩ := write_first tx
  obtain ⟨inputs, hinputs, hdata_in, -⟩ := inputAPDUs_ok view tx.vin hcoins
  obtain ⟨finalize, hfinalize, hheader_fin, hdata_fin, hsize_fin⟩ :=
    write_finalize tx.vout.length
  obtain ⟨new, last₁, hout₁, -, hdata₁, -, hne⟩ :=
    writeOutputs_spec vout₁ hscripts finalize (first :: inputs) hheader_fin hsize_fin
  have hempty₁ := (hne hvout₁).1
  -- the outputs with empty scripts go into the new APDU, which is never sent
  obtain ⟨last₂, hout₂, -⟩ := writeOutputs_of_empty_scripts vout₂ hempty last₁
    (first :: inputs ++ new) (by rw [size_of_data_eq_nil hempty₁]; exact hfit)
  refine ⟨(first :: inputs ++ new).modifyLast (·.setP1 0x80), ?_, ?_⟩
  · rw [GetPreparePhaseAPDUs_eq view hfirst hinputs hfinalize, hvout, writeOutputs_append,
      hout₁, Except.ok_bind, hout₂]
    rfl
  · rw [hempty₁, List.append_nil, hdata_fin] at hdata₁
    have hinput_bytes : inputs.flatMap APDU.data = tx.vin.flatMap (inputBytes view) := by
      rw [List.flatMap_def, hdata_in, ← List.flatMap_def]
    rw [flatMap_data_modifyLast_setP1, List.flatMap_append, List.flatMap_cons, hdata,
      hinput_bytes, hdata₁, preparePhaseBytes, hvout, List.flatMap_append]
    simp only [List.append_assoc]

def scriptThenEmptyTx : Tx := ⟨1, [⟨⟨0, 0⟩, 0xffffffff⟩], [⟨50000, [0x51]⟩, ⟨1000, []⟩], 0⟩

theorem GetPreparePhaseAPDUs_of_empty_script_suffix_scriptThenEmptyTx :
    ∃ apdus, GetPreparePhaseAPDUs scriptThenEmptyTx fullView = .ok (.ok apdus) ∧
      apdus.flatMap APDU.data ++ [⟨1000, []⟩].flatMap outputBytes =
        preparePhaseBytes scriptThenEmptyTx fullView :=
  GetPreparePhaseAPDUs_of_empty_script_suffix fullView scriptThenEmptyTx [⟨50000, [0x51]⟩]
    [⟨1000, []⟩] rfl (by decide) (by decide) (by decide) (by decide) (by decide)

end Prepare

section Sign

def inputHeader : List UInt8 := [BTCHIP_CLA, BTCHIP_INS_HASH_INPUT_START, 0x80, 0x00]

theorem flush_spec {c : Prop} [Decidable c] {apdu : APDU} {apdus_out : List APDU}
    {r : APDU × List APDU}
    (hr : r = if c then (APDU.create BTCHIP_INS_HASH_INPUT_START 0x80 0x00, apdus_out ++ [apdu])
      else (apdu, apdus_out))
    (hheader : apdu.header = inputHeader) :
    ∃ new, r.2 = apdus_out ++ new ∧ (∀ a ∈ new, a.header = inputHeader) ∧
      r.1.header = inputHeader ∧ new.flatMap APDU.data ++ r.1.data = apdu.data := by
  subst hr
  split
  · exact ⟨[apdu], rfl, by simpa using hheader, rfl, by simp⟩
  · exact ⟨[], by simp, by simp, hheader, by simp⟩

theorem signScript_spec (script : List UInt8) (apdu : APDU) (apdus_out : List APDU)
    (hheader : apdu.header = inputHeader) :
    ∃ new last, signScript script apdu apdus_out = .ok (last, apdus_out ++ new) ∧
      (∀ a ∈ new, a.header = inputHeader) ∧ last.header = inputHeader ∧
      new.flatMap APDU.data ++ last.data = apdu.data ++ script := by
  fun_induction signScript script apdu apdus_out with
  | case1 script apdu apdus_out hlen flushed chunk_size ih =>
    obtain ⟨new₁, hout₁, hnew₁, hheader₁, hdata₁⟩ := flush_spec (r := flushed) rfl hheader
    -- after the flush there is space, so the chunk is not empty and fits
    obtain ⟨written, hw⟩ : ∃ w, flushed.1.write (script.take chunk_size) = .ok w :=
      APDU.write_ok (by simp only [List.length_take, chunk_size]; omega)
    obtain ⟨new₂, last, hrest, hnew₂, hlast, hdata₂⟩ :=
      ih written ((APDU.header_of_write_eq_ok hw).trans hheader₁)
    refine ⟨new₁ ++ new₂, last, ?_, ?_, hlast, ?_⟩
    · rw [hw, Except.ok_bind, hrest, hout₁, List.append_assoc]
    · intro a ha
      rcases List.mem_append.1 ha with ha | ha
      · exact hnew₁ a ha
      · exact hnew₂ a ha
    · rw [List.flatMap_append, List.append_assoc, hdata₂, APDU.data_of_write_eq_ok hw,
        ← List.append_assoc, ← List.append_assoc, hdata₁, List.append_assoc,
        List.take_append_drop]
  | case2 script apdu apdus_out hlen =>
    have hnil : script = [] := List.eq_nil_of_length_eq_zero (by omega)
    refine ⟨[], apdu, ?_, by simp, hheader, by simp [hnil]⟩
    rw [List.append_nil]
    rfl

theorem space_of_flush_short {apdu : APDU} {apdus_out : List APDU} {r : APDU × List APDU}
    (hr : r = if apdu.max_size - apdu.size < 4 then
      (APDU.create BTCHIP_INS_HASH_INPUT_START 0x80 0x00, apdus_out ++ [apdu])
      else (apdu, apdus_out)) : 4 ≤ r.1.max_size - r.1.size := by
  subst hr
  split
  · dsimp only
    decide
  · dsimp only
    omega

/-- The bytes of the input of the pseudo-transaction: a SegWit input, its outpoint and amount,
the script code with its length, and the sequence number. -/
def signInputBytes (txin : TxIn) (script_code : List UInt8) (amount : CAmount) : List UInt8 :=
  [0x02] ++ SerializeOutPoint txin.prevout ++ SerializeAmount amount ++
    WriteCompactSize script_code.length ++ script_code ++ ser_writedata32 txin.nSequence

/-- The bytes of the command to sign: the path, no PIN, the lock time and the hash type. -/
def signBytes (path : List UInt32) (nLockTime : UInt32) (hash_type : Int) : List UInt8 :=
  [UInt8.ofNat path.length] ++ path.flatMap htobe32 ++ [0x00] ++ htobe32 nLockTime ++
    [UInt8.ofNat (hash_type % 256).toNat]

theorem length_signBytes (path : List UInt32) (nLockTime : UInt32) (hash_type : Int) :
    (signBytes path nLockTime hash_type).length = 4 * path.length + 7 := by
  have hflat : (path.flatMap htobe32).length = 4 * path.length := by
    induction path with
    | nil => rfl
    | cons child path ih =>
      rw [List.flatMap_cons, List.length_append, ih, length_htobe32, List.length_cons]
      omega
  simp only [signBytes, List.length_append, hflat, length_htobe32, List.length_singleton]
  omega

/-- The sign phase for a path of at most `MAX_BIP32_PATH` keys: the version and one input in
`HASH_INPUT_START` APDUs, whose data is the pseudo-transaction, then the command to sign. -/
theorem GetSignPhaseAPDUs_ok (path : List UInt32) (tx : Tx) (n_in : Fin tx.vin.length)
    (script_code : List UInt8) (hash_type : Int) (amount : CAmount)
    (hpath : path.length ≤ MAX_BIP32_PATH) :
    ∃ first inputs sign,
      GetSignPhaseAPDUs path tx n_in script_code hash_type amount =
        .ok (.ok (first :: inputs ++ [sign])) ∧
      first.header = [BTCHIP_CLA, BTCHIP_INS_HASH_INPUT_START, 0x00, 0x80] ∧
      first.data = ser_writedata32 tx.nVersion ++ [1] ∧
      (∀ a ∈ inputs, a.header = inputHeader) ∧
      inputs.flatMap APDU.data = signInputBytes (tx.vin.get n_in) script_code amount ∧
      sign.header = [BTCHIP_CLA, BTCHIP_INS_HASH_SIGN, 0x00, 0x00] ∧
      sign.data = signBytes path tx.nLockTime hash_type := by
  have hcompact := length_WriteCompactSize_le script_code.length
  obtain ⟨first, hfirst⟩ : ∃ a, (APDU.create BTCHIP_INS_HASH_INPUT_START 0x00 0x80).write
      (ser_writedata32 tx.nVersion ++ [1]) = .ok a :=
    APDU.write_ok (by simp [IO_APDU_BUFFER_SIZE])
  obtain ⟨input₀, hinput₀⟩ : ∃ a, (APDU.create BTCHIP_INS_HASH_INPUT_START 0x80 0x00).write
      ([0x02] ++ (SerializeOutPoint (tx.vin.get n_in).prevout ++ (SerializeAmount amount ++
        WriteCompactSize script_code.length))) = .ok a :=
    APDU.write_ok (by simp [IO_APDU_BUFFER_SIZE]; omega)
  obtain ⟨sign, hsign⟩ : ∃ a, (APDU.create BTCHIP_INS_HASH_SIGN 0x00 0x00).write
      (signBytes path tx.nLockTime hash_type) = .ok a :=
    APDU.write_ok (by
      rw [length_signBytes]
      simp only [MAX_BIP32_PATH, APDU.max_size_create, APDU.size_create, IO_APDU_BUFFER_SIZE]
        at hpath ⊢
      omega)
  obtain ⟨new₁, last₁, hscript, hnew₁, hlast₁, hdata₁⟩ := signScript_spec script_code input₀
    [first] ((APDU.header_of_write_eq_ok hinput₀).trans rfl)
  -- the flush when less than four bytes are left for the sequence number
  generalize hr : (if last₁.max_size - last₁.size < 4 then
    (APDU.create BTCHIP_INS_HASH_INPUT_START 0x80 0x00, ([first] ++ new₁) ++ [last₁])
    else (last₁, [first] ++ new₁)) = r
  obtain ⟨new₂, hout₂, hnew₂, hheader₂, hdata₂⟩ := flush_spec hr.symm hlast₁
  obtain ⟨input₂, hinput₂⟩ : ∃ a, r.1.write (ser_writedata32 (tx.vin.get n_in).nSequence) =
      .ok a := APDU.write_ok (by simpa using space_of_flush_short hr.symm)
  refine ⟨first, new₁ ++ new₂ ++ [input₂], sign, ?_, ?_, ?_, ?_, ?_, ?_, ?_⟩
  · rw [GetSignPhaseAPDUs, if_neg (by omega)]
    simp only [APDU.write_bind_write, APDU.write_be, APDU.foldlM_write_be]
    rw [hfirst, Except.ok_bind, hinput₀, Except.ok_bind, hscript, Except.ok_bind]
    dsimp only
    rw [hr, hinput₂, Except.ok_bind,
      show [UInt8.ofNat path.length] ++ (path.flatMap htobe32 ++ ([0x00] ++
        (htobe32 tx.nLockTime ++ [UInt8.ofNat (hash_type % 256).toNat]))) =
        signBytes path tx.nLockTime hash_type by simp only [signBytes, List.append_assoc],
      hsign, Except.ok_bind, hout₂]
    simp
  · rw [APDU.header_of_write_eq_ok hfirst, APDU.header_create]
  · rw [APDU.data_of_write_eq_ok hfirst, APDU.data_create, List.nil_append]
  · intro a ha
    rcases List.mem_append.1 ha with ha | ha
    · rcases List.mem_append.1 ha with ha | ha
      · exact hnew₁ a ha
      · exact hnew₂ a ha
    · rw [List.mem_singleton.1 ha, APDU.header_of_write_eq_ok hinput₂, hheader₂]
  · rw [List.flatMap_append, List.flatMap_append, List.flatMap_singleton,
      APDU.data_of_write_eq_ok hinput₂, ← List.append_assoc, List.append_assoc _ _ r.1.data,
      hdata₂, hdata₁, APDU.data_of_write_eq_ok hinput₀, APDU.data_create, List.nil_append]
    simp only [signInputBytes, List.append_assoc]
  · rw [APDU.header_of_write_eq_ok hsign, APDU.header_create]
  · rw [APDU.data_of_write_eq_ok hsign, APDU.data_create, List.nil_append]

theorem GetSignPhaseAPDUs_ok_scriptTx :
    ∃ first inputs sign,
      GetSignPhaseAPDUs [0x8000002c] scriptTx ⟨0, by decide⟩ [0x51] 1 50000 =
        .ok (.ok (first :: inputs ++ [sign])) ∧
      first.header = [BTCHIP_CLA, BTCHIP_INS_HASH_INPUT_START, 0x00, 0x80] ∧
      first.data = ser_writedata32 scriptTx.nVersion ++ [1] ∧
      (∀ a ∈ inputs, a.header = inputHeader) ∧
      inputs.flatMap APDU.data = signInputBytes (scriptTx.vin.get ⟨0, by decide⟩) [0x51] 50000 ∧
      sign.header = [BTCHIP_CLA, BTCHIP_INS_HASH_SIGN, 0x00, 0x00] ∧
      sign.data = signBytes [0x8000002c] scriptTx.nLockTime 1 :=
  GetSignPhaseAPDUs_ok [0x8000002c] scriptTx ⟨0, by decide⟩ [0x51] 1 50000 (by decide)

end Sign

end UnitE.USBDevice
