import UnitE.Spec.Types

/-! Transactions, their outputs and coins, and scripts as the interpreter reads them.
A script is its list of operations (what `GetOp` reads from the bytes), with the opcodes
that the finalizer commit script and the vote, logout and slash signatures use. -/

namespace UnitE

/-- A stack element or pushed data. -/
abbrev valtype := List UInt8

/-- One operation of a script: a data push, or an opcode. -/
inductive ScriptOp
  | push (data : valtype)
  | OP_TRUE
  | OP_IF
  | OP_ELSE
  | OP_ENDIF
  | OP_DUP
  | OP_HASH160
  | OP_EQUALVERIFY
  | OP_CHECKSIG
  | OP_CHECKCOMMIT
  | OP_RETURN
  deriving DecidableEq, Repr

abbrev CScript := List ScriptOp

/-- `CScript::IsUnspendable`: the script starts with `OP_RETURN`. The other case, a script
longer than `MAX_SCRIPT_SIZE` bytes, depends on the byte encoding, which is not modelled. -/
def IsUnspendable : CScript → Bool
  | .OP_RETURN :: _ => true
  | _ => false

/-- The data `GetOp` returns with an operation: the pushed bytes, or nothing. -/
def ScriptOp.data : ScriptOp → valtype
  | .push d => d
  | _ => []

/-- `ToByteVector` of a `uint160`: its 20 bytes, least significant first. -/
def Uint160.toBytes (x : Uint160) : valtype :=
  List.ofFn fun i : Fin 20 => (x.extractLsb' (8 * i.val) 8).toNat.toUInt8

structure COutPoint where
  hash : Uint256
  n : UInt32
  deriving DecidableEq, Repr

structure CTxIn where
  prevout : COutPoint
  scriptSig : CScript
  deriving DecidableEq, Repr

structure CTxOut where
  nValue : CAmount
  scriptPubKey : CScript
  deriving DecidableEq, Repr

/-- `CTransaction`: its type, inputs and outputs. -/
structure CTransaction where
  txType : TxType
  vin : List CTxIn
  vout : List CTxOut
  deriving DecidableEq, Repr

/-- `Coin`: an unspent output with the type of its transaction and the height of its
block. -/
structure Coin where
  out : CTxOut
  tx_type : TxType
  nHeight : UInt32
  deriving DecidableEq, Repr

end UnitE
