import UnitE.Lib.LittleEndian
import UnitE.Spec.Types

/-! The byte format of the scripts that votes travel in: `GetScriptOp` reading one operation
and the data it pushes, `CScript::operator<<` for a byte vector, the little-endian
sign-magnitude numbers of `CScriptNum`, and the vote script of `CScript::EncodeVote`,
`DecodeVote` and `ExtractVoteFromVoteSignature`. A script is its list of bytes. -/

namespace UnitE.Script

open Bytes Esperanza

def OP_PUSHDATA1 : UInt8 := 0x4c

def OP_PUSHDATA2 : UInt8 := 0x4d

def OP_PUSHDATA4 : UInt8 := 0x4e

def OP_RETURN : UInt8 := 0x6a

def ReadLE16 (bytes : List UInt8) : Nat := ofListLE (bytes.take 2)

def ReadLE32 (bytes : List UInt8) : Nat := ofListLE (bytes.take 4)

/-- `WriteLE16` of a `uint16_t`. -/
def WriteLE16 (n : Nat) : List UInt8 := toListLE 2 n

/-- `WriteLE32` of a `uint32_t`: a larger size is cut to its low 32 bits. -/
def WriteLE32 (n : Nat) : List UInt8 := toListLE 4 n

/-- The size field of a push opcode: the size of the data, and the bytes after the field. -/
def pushSize (opcode : UInt8) (rest : List UInt8) : Option (Nat × List UInt8) :=
  if opcode < OP_PUSHDATA1 then some (opcode.toNat, rest)
  else if opcode = OP_PUSHDATA1 then
    match rest with
    | b :: rest => some (b.toNat, rest)
    | [] => none
  else if opcode = OP_PUSHDATA2 then
    if rest.length < 2 then none else some (ReadLE16 rest, rest.drop 2)
  else if rest.length < 4 then none else some (ReadLE32 rest, rest.drop 4)

/-- `GetScriptOp`: the opcode at the start of `script`, the data it pushes (none above
`OP_PUSHDATA4`), and the bytes after the operation; `none` where the code returns false. -/
def GetScriptOp : List UInt8 → Option (UInt8 × List UInt8 × List UInt8)
  | [] => none
  | opcode :: rest =>
    if opcode ≤ OP_PUSHDATA4 then
      match pushSize opcode rest with
      | none => none
      | some (nSize, rest) =>
        if rest.length < nSize then none else some (opcode, rest.take nSize, rest.drop nSize)
    else some (opcode, [], rest)

/-- `CScript::operator<<(const std::vector<unsigned char>&)`: the smallest of the four push
forms that holds the size, then the data. A `CScript` is a `prevector<28, unsigned char>`,
whose differences are `int32_t`, so the model is that of scripts below `2^31` bytes. -/
def pushVector (b : List UInt8) : List UInt8 :=
  if b.length < OP_PUSHDATA1.toNat then UInt8.ofNat b.length :: b
  else if b.length ≤ 0xff then OP_PUSHDATA1 :: UInt8.ofNat b.length :: b
  else if b.length ≤ 0xffff then OP_PUSHDATA2 :: WriteLE16 b.length ++ b
  else OP_PUSHDATA4 :: WriteLE32 b.length ++ b

namespace CScriptNum

/-- `CScriptNum::serialize` of an `int64_t`: the magnitude in minimal little-endian bytes,
and the sign in the top bit of the last byte, which gets a byte of its own when the
magnitude uses that bit. -/
def serialize (value : Int) : List UInt8 :=
  if value = 0 then [] else
    let neg := decide (value < 0)
    -- the loop `while (absvalue)` pushes the low byte and shifts it out
    let result := minimalLE value.natAbs
    let last := result.getLast!
    if last &&& 0x80 ≠ 0 then result ++ [if neg then 0x80 else 0]
    else if neg then result.dropLast ++ [last ||| 0x80]
    else result

/-- The `int64_t` value of a `uint64_t`. -/
def toInt64 (x : Nat) : Int := if x < 2 ^ 63 then x else x - 2 ^ 64

/-- `CScriptNum::set_vch`: the first eight bytes as a little-endian `uint64_t`; a set top bit
in the last byte makes the number negative, with that bit cleared by a mask shifted by
`8 * (size - 1)`. For more than eight bytes the shift is the processor's, modulo 64. -/
def set_vch (vch : List UInt8) : Int :=
  if vch = [] then 0 else
    let result := ofListLE (vch.take 8)
    if vch.getLast! &&& 0x80 ≠ 0 then
      if result = 2 ^ 63 then -2 ^ 63
      else -toInt64 (result &&& (2 ^ 64 - 1 - 0x80 * 2 ^ (8 * (vch.length - 1) % 64)))
    else toInt64 result

/-- `CScriptNum::deserialize` into an integer type with values from `lo` to `hi`: more than
eight bytes only for a negative number of nine. -/
def deserialize (vch : List UInt8) (lo hi : Int) : Option Int :=
  if vch.length > 8 ∧ (vch.getLast! &&& 0x80 = 0 ∨ vch.length ≠ 9) then none
  else
    let num := set_vch vch
    if num > hi then none else if num < lo then none else some num

/-- `CScriptNum::deserialize` into a `uint32_t`. -/
def deserializeUInt32 (vch : List UInt8) : Option UInt32 :=
  (deserialize vch 0 (2 ^ 32 - 1)).map fun num => UInt32.ofNat num.toNat

end CScriptNum

def OP_0 : UInt8 := 0x00

def OP_1 : UInt8 := 0x51

def OP_16 : UInt8 := 0x60

/-- The loop of `CScript::IsWitnessProgram` after the version: each operation up to the end
pushes 1 to 40 bytes by its opcode. Each operation takes a byte at least, so `fuel` the length
of the script is enough. -/
def witnessPushesOk : Nat → List UInt8 → Bool
  | 0, _ => false
  | fuel + 1, pc =>
    match GetScriptOp pc with
    | none => false
    | some (opcode, _, rest) =>
      if opcode = OP_0 ∨ opcode > 40 then false else rest = [] || witnessPushesOk fuel rest

/-- `CScript::IsWitnessProgram`: 4 to 83 bytes, a version opcode `OP_0` or `OP_1` to `OP_16`,
then for `OP_0` a size byte that covers the rest, else pushes of 1 to 40 bytes. -/
def IsWitnessProgram (script : List UInt8) : Bool :=
  if script.length < 4 ∨ script.length > 83 then false
  else
    match GetScriptOp script with
    | none => false
    | some (opcode, _, rest) =>
      if opcode ≠ OP_0 ∧ (opcode < OP_1 ∨ opcode > OP_16) then false
      else if opcode = OP_0 then script[1]!.toNat + 2 = script.length
      else witnessPushesOk rest.length rest

structure WitnessProgram where
  version : Nat
  program : List (List UInt8)
  deriving DecidableEq, Repr

/-- `DecodeOP_N`, on `OP_0` and `OP_1` to `OP_16`. -/
def DecodeOP_N (opcode : UInt8) : Nat :=
  if opcode = OP_0 then 0 else opcode.toNat - (OP_1.toNat - 1)

/-- The loop of `CScript::ExtractWitnessProgram`: the data of each operation up to the end. -/
def witnessProgramData : Nat → List UInt8 → Option (List (List UInt8))
  | 0, _ => none
  | fuel + 1, pc =>
    match GetScriptOp pc with
    | none => none
    | some (_, data, rest) =>
      if rest = [] then some [data] else (witnessProgramData fuel rest).map (data :: ·)

/-- `CScript::ExtractWitnessProgram`: the version and the pushed data of a witness program. -/
def ExtractWitnessProgram (script : List UInt8) : Option WitnessProgram :=
  if !IsWitnessProgram script then none
  else
    match GetScriptOp script with
    | none => none
    | some (opcode, _, rest) =>
      (witnessProgramData rest.length rest).map fun program => ⟨DecodeOP_N opcode, program⟩

/-- The two remote-staking programs: a version, then a 20-byte staking key hash and a 32-byte
spending script hash. -/
def WitnessProgram.isRemoteStakingOfVersion (version : Nat) (wp : WitnessProgram) : Bool :=
  wp.version = version && wp.program.length = 2 && wp.program[0]!.length = 20 &&
    wp.program[1]!.length = 32

def WitnessProgram.IsRemoteStakingP2WPKH (wp : WitnessProgram) : Bool :=
  wp.isRemoteStakingOfVersion 1

def WitnessProgram.IsRemoteStakingP2WSH (wp : WitnessProgram) : Bool :=
  wp.isRemoteStakingOfVersion 2

def WitnessProgram.IsRemoteStaking (wp : WitnessProgram) : Bool :=
  wp.IsRemoteStakingP2WPKH || wp.IsRemoteStakingP2WSH

/-- `script.ExtractWitnessProgram(wp) && wp.IsRemoteStaking()`, the test of the proposer and the
stake validator for a remote-staking output. -/
def IsRemoteStakingScript (script : List UInt8) : Bool :=
  match ExtractWitnessProgram script with
  | some wp => wp.IsRemoteStaking
  | none => false

/-- `ToByteVector` of a `uint160` or `uint256` of `n` bits: its bytes in memory order, which
are the number's little-endian bytes. -/
def ToByteVector (n : Nat) (x : BitVec n) : List UInt8 := toListLE (n / 8) x.toNat

/-- The `uint160(vch)` and `uint256(vch)` constructors, on a vector of the right size. -/
def blobOfVector (n : Nat) (vch : List UInt8) : BitVec n := BitVec.ofNat n (ofListLE vch)

/-- `CScript::EncodeVote`, which asserts that the signature is not empty. -/
def EncodeVote (data : Vote) (voteSig : List UInt8) : Fallible (List UInt8) :=
  if voteSig = [] then .error .assertion
  else .ok (pushVector voteSig ++ pushVector (ToByteVector 160 data.validatorAddress) ++
    pushVector (ToByteVector 256 data.targetHash) ++
    pushVector (CScriptNum.serialize data.sourceEpoch.toNat) ++
    pushVector (CScriptNum.serialize data.targetEpoch.toNat))

/-- `CScript::DecodeVote`: five operations, the signature, a 20-byte address, a 32-byte target
hash and the two epochs as `uint32_t` numbers, and nothing after them. -/
def DecodeVote (script : List UInt8) : Option (Vote × List UInt8) := do
  let (_, voteSig, rest) ← GetScriptOp script
  let (_, validator, rest) ← GetScriptOp rest
  guard (validator.length = 20)
  let (_, target, rest) ← GetScriptOp rest
  guard (target.length = 32)
  let (_, sourceEpochVec, rest) ← GetScriptOp rest
  let sourceEpoch ← CScriptNum.deserializeUInt32 sourceEpochVec
  let (_, targetEpochVec, rest) ← GetScriptOp rest
  let targetEpoch ← CScriptNum.deserializeUInt32 targetEpochVec
  guard (rest = [])
  pure (⟨blobOfVector 160 validator, blobOfVector 256 target, sourceEpoch, targetEpoch⟩, voteSig)

/-- `CScript::ExtractVoteFromVoteSignature`: the vote script is the data of the second
operation; the first is the transaction signature. -/
def ExtractVoteFromVoteSignature (scriptSig : List UInt8) : Option (Vote × List UInt8) := do
  let (_, _, rest) ← GetScriptOp scriptSig
  let (_, vData, _) ← GetScriptOp rest
  DecodeVote vData

end UnitE.Script
