import UnitE.Spec.Serialize
import UnitE.Spec.Transaction

/-! `usbdevice::APDU` and the commands `ledgerapdu.cpp` builds for a Ledger device. An APDU is
a buffer of `IO_APDU_BUFFER_SIZE` bytes: five header bytes (class, instruction, `P1`, `P2`
and the length of the data), then the data; `write` asserts that the data fits. A transaction
goes to the device in its serialization, split over several APDUs.

Each `<<` of an object is one `write` of the object's serialization. `Serialize` writes some
objects in pieces (an outpoint's hash, then its index); a write of two pieces in a row succeeds
and ends as the write of both together (`APDU.write_append`), so the pieces are kept together.
A transaction is taken with the fields the commands carry and its scripts as bytes, and the
coins view with the two queries made of it. The answer of a command builder is `Fallible`
for the assertion, around the `bool` it returns with its `error`; on `false` the callers
drop the APDUs, which are left out. -/

namespace UnitE.USBDevice

open Bytes

def IO_APDU_BUFFER_SIZE : Nat := 260

def BTCHIP_CLA : UInt8 := 0xE0

def BTCHIP_INS_GET_WALLET_PUBLIC_KEY : UInt8 := 0x40

def BTCHIP_INS_HASH_INPUT_START : UInt8 := 0x44

def BTCHIP_INS_HASH_SIGN : UInt8 := 0x48

def BTCHIP_INS_HASH_INPUT_FINALIZE_FULL : UInt8 := 0x4A

def MAX_BIP32_PATH : Nat := 10

/-- `ser_writedata32`: four bytes, least significant first. -/
def ser_writedata32 (n : UInt32) : List UInt8 := toListLE 4 n.toNat

/-- `Serialize` of a `CAmount`: `ser_writedata64` of its 64 bits. -/
def SerializeAmount (nValue : CAmount) : List UInt8 := toListLE 8 (nValue % 2 ^ 64).toNat

/-- `Serialize` of a `COutPoint`: the 32 bytes of the hash, least significant first, then the
index. -/
def SerializeOutPoint (prevout : COutPoint) : List UInt8 :=
  toListLE 32 prevout.hash.toNat ++ ser_writedata32 prevout.n

/-- `htobe32`: four bytes, most significant first. -/
def htobe32 (n : UInt32) : List UInt8 := (toListLE 4 n.toNat).reverse

/-- The fields of a `CTxIn` the commands carry. -/
structure TxIn where
  prevout : COutPoint
  nSequence : UInt32
  deriving DecidableEq, Repr

/-- A `CTxOut`, with the bytes of its `scriptPubKey`. -/
structure TxOut where
  nValue : CAmount
  scriptPubKey : List UInt8
  deriving DecidableEq, Repr

/-- The fields of a `CTransaction` the commands carry. -/
structure Tx where
  nVersion : UInt32
  vin : List TxIn
  vout : List TxOut
  nLockTime : UInt32
  deriving DecidableEq, Repr

/-- What `GetPreparePhaseAPDUs` asks of its `CCoinsViewCache`. -/
structure CoinsView where
  HaveCoin : COutPoint → Bool
  AccessCoin : COutPoint → Coin

/-- `APDU`: the command buffer `m_in` with `size` bytes written, of at most `max_size`. The
data starts after the five header bytes, and `m_in[4]` holds its length. The answer buffer
`m_out` is not read by the builders. -/
structure APDU where
  m_in : List UInt8
  size : Nat
  max_size : Nat
  header_le : 5 ≤ size
  size_le : size ≤ max_size
  max_size_eq : max_size = IO_APDU_BUFFER_SIZE
  length_m_in : m_in.length = max_size
  length_byte : m_in[4]? = some (UInt8.ofNat (size - 5))

namespace APDU

/-- `APDU(ins, p1, p2)`. -/
def create (ins p1 p2 : UInt8) : APDU where
  m_in := [BTCHIP_CLA, ins, p1, p2, 0] ++ List.replicate (IO_APDU_BUFFER_SIZE - 5) 0
  size := 5
  max_size := IO_APDU_BUFFER_SIZE
  header_le := le_rfl
  size_le := by decide
  max_size_eq := rfl
  length_m_in := by rw [List.length_append, List.length_replicate]; rfl
  length_byte := rfl

/-- `std::copy` of `data` into `m_in` at `pos`, with the length byte set to `len`. -/
def splice (m_in : List UInt8) (pos : Nat) (data : List UInt8) (len : UInt8) : List UInt8 :=
  (m_in.take pos ++ data ++ m_in.drop (pos + data.length)).set 4 len

theorem length_splice {m_in data : List UInt8} {pos : Nat} (len : UInt8)
    (h : pos + data.length ≤ m_in.length) :
    (splice m_in pos data len).length = m_in.length := by
  simp only [splice, List.length_set, List.length_append, List.length_take, List.length_drop]
  omega

theorem getElem?_splice_four {m_in data : List UInt8} {pos : Nat} (len : UInt8)
    (h : pos + data.length ≤ m_in.length) (h₄ : 4 < m_in.length) :
    (splice m_in pos data len)[4]? = some len := by
  rw [splice, List.getElem?_set_self]
  simp only [List.length_append, List.length_take, List.length_drop]
  omega

/-- `APDU::write`: the data is copied after what was written, and the length byte set; the
assertion that it fits fails otherwise. -/
def write (apdu : APDU) (data : List UInt8) : Fallible APDU :=
  if h : data.length ≤ apdu.max_size - apdu.size then
    have hfit : apdu.size + data.length ≤ apdu.m_in.length := by
      have := apdu.size_le
      rw [apdu.length_m_in]
      omega
    .ok {
      m_in := splice apdu.m_in apdu.size data (UInt8.ofNat (apdu.size + data.length - 5))
      size := apdu.size + data.length
      max_size := apdu.max_size
      header_le := by have := apdu.header_le; omega
      size_le := by have := apdu.size_le; omega
      max_size_eq := apdu.max_size_eq
      length_m_in := by rw [length_splice _ hfit, apdu.length_m_in]
      length_byte := by
        have := apdu.header_le
        exact getElem?_splice_four _ hfit (by omega) }
  else .error .assertion

def write_be (apdu : APDU) (n : UInt32) : Fallible APDU := apdu.write (htobe32 n)

/-- `m_in[2] = p1`. -/
def setP1 (apdu : APDU) (p1 : UInt8) : APDU where
  m_in := apdu.m_in.set 2 p1
  size := apdu.size
  max_size := apdu.max_size
  header_le := apdu.header_le
  size_le := apdu.size_le
  max_size_eq := apdu.max_size_eq
  length_m_in := by rw [List.length_set, apdu.length_m_in]
  length_byte := by rw [List.getElem?_set_ne (by decide)]; exact apdu.length_byte

end APDU

def GetExtPubKeyAPDU (path : List UInt32) : Fallible (Except String APDU) :=
  if path.length > MAX_BIP32_PATH then pure (.error "GetExtPubKeyAPDU: BIP32 path too long.")
  else do
    let apdu ← (APDU.create BTCHIP_INS_GET_WALLET_PUBLIC_KEY 0x00 0x00).write
      [UInt8.ofNat path.length]
    let apdu ← path.foldlM APDU.write_be apdu
    pure (.ok apdu)

/-- The loop of `GetPreparePhaseAPDUs` over the inputs: each input's coin must be in the view,
and one APDU carries the input. -/
def inputAPDUs (view : CoinsView) : List TxIn → Fallible (Except String (List APDU))
  | [] => pure (.ok [])
  | txin :: vin =>
    if !view.HaveCoin txin.prevout then
      pure (.error "Transaction input is invalid or already spent")
    else do
      let coin := view.AccessCoin txin.prevout
      -- a SegWit input, with the empty scriptSig of the pre-sign phase
      let apdu ← (APDU.create BTCHIP_INS_HASH_INPUT_START 0x80 0x00).write [0x02]
      let apdu ← apdu.write (SerializeOutPoint txin.prevout)
      let apdu ← apdu.write (SerializeAmount coin.out.nValue)
      let apdu ← apdu.write [0x00]
      let apdu ← apdu.write (ser_writedata32 txin.nSequence)
      let apdus ← inputAPDUs view vin
      pure ((apdu :: ·) <$> apdus)

/-- The loop of `GetPreparePhaseAPDUs` that writes a `scriptPubKey`: while script data is
left, a chunk as large as the space left, then the APDU is sent and a new one started. -/
def writeScript (script : List UInt8) (apdu : APDU) (apdus_out : List APDU) :
    Fallible (APDU × List APDU) :=
  if script.length > 0 then do
    let chunk_size := min (apdu.max_size - apdu.size) script.length
    let written ← apdu.write (script.take chunk_size)
    writeScript (script.drop chunk_size)
      (APDU.create BTCHIP_INS_HASH_INPUT_FINALIZE_FULL 0x00 0x00) (apdus_out ++ [written])
  else pure (apdu, apdus_out)
termination_by 2 * script.length + if apdu.size < apdu.max_size then 0 else 1
decreasing_by
  have hfresh : (APDU.create BTCHIP_INS_HASH_INPUT_FINALIZE_FULL 0x00 0x00).size <
      (APDU.create BTCHIP_INS_HASH_INPUT_FINALIZE_FULL 0x00 0x00).max_size := by decide
  -- a chunk of no bytes is written only into a full APDU
  simp only [List.length_drop, if_pos hfresh]
  split <;> omega

/-- The loop of `GetPreparePhaseAPDUs` over the outputs: the value and the script's length go
into the current APDU, then the script. -/
def writeOutputs : List TxOut → APDU → List APDU → Fallible (APDU × List APDU)
  | [], apdu, apdus_out => pure (apdu, apdus_out)
  | txout :: vout, apdu, apdus_out => do
    let apdu ← apdu.write (SerializeAmount txout.nValue)
    let apdu ← apdu.write (WriteCompactSize txout.scriptPubKey.length)
    let (apdu, apdus_out) ← writeScript txout.scriptPubKey apdu apdus_out
    writeOutputs vout apdu apdus_out

/-- `GetPreparePhaseAPDUs`: the version and the number of inputs, one APDU per input, then the
outputs, with `P1 = 0x80` on the last APDU sent. -/
def GetPreparePhaseAPDUs (tx : Tx) (view : CoinsView) : Fallible (Except String (List APDU)) := do
  let apdu ← (APDU.create BTCHIP_INS_HASH_INPUT_START 0x00 0x02).write
    (ser_writedata32 tx.nVersion)
  let apdu ← apdu.write (WriteCompactSize tx.vin.length)
  match ← inputAPDUs view tx.vin with
  | .error error => pure (.error error)
  | .ok inputs =>
    let finalize ← (APDU.create BTCHIP_INS_HASH_INPUT_FINALIZE_FULL 0x00 0x00).write
      (WriteCompactSize tx.vout.length)
    let (_, apdus_out) ← writeOutputs tx.vout finalize (apdu :: inputs)
    pure (.ok (apdus_out.modifyLast (·.setP1 0x80)))

/-- A full APDU is sent, and a new one started. -/
def flushIfFull (apdu : APDU) (apdus_out : List APDU) : APDU × List APDU :=
  if apdu.max_size = apdu.size then
    (APDU.create BTCHIP_INS_HASH_INPUT_START 0x80 0x00, apdus_out ++ [apdu])
  else (apdu, apdus_out)

theorem flushIfFull_size_lt (apdu : APDU) (apdus_out : List APDU) :
    (flushIfFull apdu apdus_out).1.size < (flushIfFull apdu apdus_out).1.max_size := by
  unfold flushIfFull
  split
  · dsimp only
    decide
  · have := apdu.size_le
    dsimp only
    omega

/-- The loop of `GetSignPhaseAPDUs` that writes `script_code`: while script data is left, a
full APDU is sent and a new one started, then a chunk as large as the space left. -/
def signScript (script : List UInt8) (apdu : APDU) (apdus_out : List APDU) :
    Fallible (APDU × List APDU) :=
  if script.length > 0 then do
    let flushed := flushIfFull apdu apdus_out
    let chunk_size := min (flushed.1.max_size - flushed.1.size) script.length
    let written ← flushed.1.write (script.take chunk_size)
    signScript (script.drop chunk_size) written flushed.2
  else pure (apdu, apdus_out)
termination_by script.length
decreasing_by
  have := flushIfFull_size_lt apdu apdus_out
  simp only [List.length_drop]
  omega

/-- `GetSignPhaseAPDUs` for the input `n_in`: a pseudo-transaction with that input only and
no outputs, its script code split over APDUs, then the command to sign with the key at
`path`. The signature version is not read. -/
def GetSignPhaseAPDUs (path : List UInt32) (tx : Tx) (n_in : Fin tx.vin.length)
    (script_code : List UInt8) (hash_type : Int) (amount : CAmount) :
    Fallible (Except String (List APDU)) :=
  if path.length > MAX_BIP32_PATH then pure (.error "GetSignPhaseAPDUs: BIP32 path too long.")
  else do
    let apdu ← (APDU.create BTCHIP_INS_HASH_INPUT_START 0x00 0x80).write
      (ser_writedata32 tx.nVersion)
    let apdu ← apdu.write [1]
    let txin := tx.vin.get n_in
    let input ← (APDU.create BTCHIP_INS_HASH_INPUT_START 0x80 0x00).write [0x02]
    let input ← input.write (SerializeOutPoint txin.prevout)
    let input ← input.write (SerializeAmount amount)
    let input ← input.write (WriteCompactSize script_code.length)
    let (input, apdus_out) ← signScript script_code input [apdu]
    let (input, apdus_out) :=
      if input.max_size - input.size < 4 then
        (APDU.create BTCHIP_INS_HASH_INPUT_START 0x80 0x00, apdus_out ++ [input])
      else (input, apdus_out)
    let input ← input.write (ser_writedata32 txin.nSequence)
    let sign ← (APDU.create BTCHIP_INS_HASH_SIGN 0x00 0x00).write [UInt8.ofNat path.length]
    let sign ← path.foldlM APDU.write_be sign
    -- the key is not protected by a PIN
    let sign ← sign.write [0x00]
    let sign ← sign.write_be tx.nLockTime
    let sign ← sign.write [UInt8.ofNat (hash_type % 256).toNat]
    pure (.ok (apdus_out ++ [input, sign]))

end UnitE.USBDevice
