import UnitE.Spec.Transaction
import UnitE.Lib.Merkle
import UnitE.Lib.Except

/-! Blocks, their merkle roots (`consensus/merkle.cpp`) and the context-free block check
`CheckBlockInternal` of the block validator. The hashes are parameters; so are the checks
of `CheckBlockInternal` that read what this model leaves out (sizes, signature operations,
the coinbase's contents, the proposer's signature). -/

namespace UnitE

/-- `CBlockHeader`: the fields the modelled checks read. -/
structure CBlockHeader where
  hashPrevBlock : Uint256
  hashMerkleRoot : Uint256
  hash_witness_merkle_root : Uint256
  hash_finalizer_commits_merkle_root : Uint256
  deriving DecidableEq, Repr

structure CBlock where
  header : CBlockHeader
  vtx : List CTransaction
  deriving DecidableEq, Repr

/-- The hashes blocks rely on: the transaction id, the witness hash, and `SHA256D64` of
two nodes of a merkle tree. -/
structure BlockHashes where
  GetHash : CTransaction → Uint256
  GetWitnessHash : CTransaction → Uint256
  SHA256D64 : Uint256 → Uint256 → Uint256

def CTransaction.IsFinalizerCommit (tx : CTransaction) : Bool := tx.txType.IsFinalizerCommit

def CTransaction.IsCoinBase (tx : CTransaction) : Bool := tx.txType == .COINBASE

variable (H : BlockHashes)

/-- `ComputeMerkleRoot`: the root of `hashes` and whether some level held an equal pair;
`uint256()` for no hashes. -/
def ComputeMerkleRoot (hashes : List Uint256) : Uint256 × Bool := Merkle.root H.SHA256D64 0 hashes

def BlockMerkleRoot (block : CBlock) : Uint256 × Bool := ComputeMerkleRoot H (block.vtx.map H.GetHash)

def BlockWitnessMerkleRoot (block : CBlock) : Uint256 × Bool :=
  ComputeMerkleRoot H (block.vtx.map H.GetWitnessHash)

/-- The finalizer commits of a block, in block order. -/
def FinalizerCommits (block : CBlock) : List CTransaction := block.vtx.filter CTransaction.IsFinalizerCommit

def BlockFinalizerCommitsMerkleRoot (block : CBlock) : Uint256 × Bool :=
  ComputeMerkleRoot H ((FinalizerCommits block).map H.GetHash)

/-- The errors of `CheckBlockInternal`; `CHECK_FAILED` stands for the error of a check this
model leaves open. -/
inductive BlockValidationError
  | INVALID_BLOCK_SIZE
  | FIRST_TRANSACTION_NOT_A_COINBASE_TRANSACTION
  | COINBASE_TRANSACTION_AT_POSITION_OTHER_THAN_FIRST
  | INVALID_TRANSACTION_ORDERING
  | DUPLICATE_TRANSACTION
  | INVALID_BLOCK_SIGOPS_COUNT
  | MERKLE_ROOT_MISMATCH
  | MERKLE_ROOT_DUPLICATE_TRANSACTIONS
  | WITNESS_MERKLE_ROOT_MISMATCH
  | WITNESS_MERKLE_ROOT_DUPLICATE_TRANSACTIONS
  | FINALIZER_COMMITS_MERKLE_ROOT_MISMATCH
  | CHECK_FAILED
  deriving DecidableEq, Repr

/-- The checks of `CheckBlockInternal` this model leaves open, as their verdicts. -/
structure BlockChecks where
  CheckBlockSize : CBlock → Bool
  CheckCoinbaseTransaction : CBlock → CTransaction → Bool
  CheckSigOpCount : CBlock → Bool
  CheckTransaction : CTransaction → Bool
  IsGenesisBlock : CBlock → Bool
  CheckBlockSignature : CBlock → Bool

/-- The loop over the transactions after the coinbase: none is a coinbase, and their ids
increase strictly, except right after the coinbase. -/
def checkTransactionOrdering (prev_tx : CTransaction) : List CTransaction → Except BlockValidationError Unit
  | [] => pure ()
  | tx :: rest =>
    if tx.IsCoinBase then throw .COINBASE_TRANSACTION_AT_POSITION_OTHER_THAN_FIRST
    else if (H.GetHash tx).toNat < (H.GetHash prev_tx).toNat ∧ !prev_tx.IsCoinBase then
      throw .INVALID_TRANSACTION_ORDERING
    else if H.GetHash tx = H.GetHash prev_tx then throw .DUPLICATE_TRANSACTION
    else checkTransactionOrdering tx rest

/-- The coinbase check of `CheckBlockInternal`: a coinbase first, which passes its own check,
then the ordering of the other transactions. -/
def checkCoinbaseFirst (C : BlockChecks) (block : CBlock) : Except BlockValidationError Unit :=
  match block.vtx with
  | [] => throw .FIRST_TRANSACTION_NOT_A_COINBASE_TRANSACTION
  | coinbase :: rest => do
    Except.guardOr coinbase.IsCoinBase .FIRST_TRANSACTION_NOT_A_COINBASE_TRANSACTION
    Except.guardOr (C.CheckCoinbaseTransaction block coinbase) .CHECK_FAILED
    checkTransactionOrdering H coinbase rest

/-- `CheckBlockInternal`. The commits merkle root is compared without its mutation flag. -/
def CheckBlockInternal (C : BlockChecks) (block : CBlock) : Except BlockValidationError Unit := do
  Except.guardOr (C.CheckBlockSize block) .INVALID_BLOCK_SIZE
  checkCoinbaseFirst H C block
  Except.guardOr (C.CheckSigOpCount block) .INVALID_BLOCK_SIGOPS_COUNT
  Except.guardOr (block.header.hashMerkleRoot == (BlockMerkleRoot H block).1) .MERKLE_ROOT_MISMATCH
  Except.guardOr (!(BlockMerkleRoot H block).2) .MERKLE_ROOT_DUPLICATE_TRANSACTIONS
  Except.guardOr (block.header.hash_witness_merkle_root == (BlockWitnessMerkleRoot H block).1)
    .WITNESS_MERKLE_ROOT_MISMATCH
  Except.guardOr (!(BlockWitnessMerkleRoot H block).2) .WITNESS_MERKLE_ROOT_DUPLICATE_TRANSACTIONS
  Except.guardOr
    (block.header.hash_finalizer_commits_merkle_root == (BlockFinalizerCommitsMerkleRoot H block).1)
    .FINALIZER_COMMITS_MERKLE_ROOT_MISMATCH
  Except.guardOr (block.vtx.all C.CheckTransaction) .CHECK_FAILED
  Except.guardOr (C.IsGenesisBlock block || C.CheckBlockSignature block) .CHECK_FAILED

end UnitE
