import Mathlib.Data.BitVec
import Mathlib.Data.Finset.Basic
import UnitE.Lib.Except

/-! Primitive types shared by the whole model: hashes, amounts, transaction types,
finalizer votes and public keys, and the ways a C++ call can abort. Integers of the
source keep their width where the code depends on wrap-around (`UInt32` epochs,
dynasties and heights); amounts are exact integers, since every amount the code
handles stays far below `2 ^ 63`. -/

namespace UnitE

/-- `uint160`: validator addresses and key ids. -/
abbrev Uint160 := BitVec 160

/-- `uint256`: transaction and block hashes. -/
abbrev Uint256 := BitVec 256

/-- `CAmount`, a signed 64-bit amount of base units. -/
abbrev CAmount := Int

/-- `UNIT`, the base units of one coin. -/
def UNIT : CAmount := 100000000

abbrev Height := UInt32

/-- The `TxType` enum, stored in the upper bytes of `nVersion`. -/
inductive TxType
  | REGULAR
  | COINBASE
  | DEPOSIT
  | VOTE
  | LOGOUT
  | SLASH
  | WITHDRAW
  | ADMIN
  deriving DecidableEq, Repr

namespace TxType

/-- The types `CTransaction::IsFinalizerCommit` accepts. -/
def IsFinalizerCommit : TxType → Bool
  | DEPOSIT | VOTE | LOGOUT | SLASH | WITHDRAW | ADMIN => true
  | REGULAR | COINBASE => false

end TxType

/-- How a C++ call ends when it does not return: a failed `assert`, `std::map::at` on a
missing key, a division by zero in `arith_uint256`, or a thrown `std::logic_error`. -/
inductive Failure
  | assertion
  | outOfRange
  | divisionByZero
  | logicError
  deriving DecidableEq, Repr

/-- Results of C++ code that may abort. -/
abbrev Fallible := Except Failure

/-- `CPubKey`, kept as its serialized bytes. -/
structure CPubKey where
  vch : List UInt8
  deriving DecidableEq, Repr

/-- `CPubKey::GetID`: the `Hash160` of the key bytes, for the hash function `hash160`. -/
def CPubKey.GetID (hash160 : List UInt8 → Uint160) (k : CPubKey) : Uint160 := hash160 k.vch

namespace Esperanza

structure Vote where
  validatorAddress : Uint160
  targetHash : Uint256
  sourceEpoch : UInt32
  targetEpoch : UInt32
  deriving DecidableEq, Repr

end Esperanza

end UnitE
