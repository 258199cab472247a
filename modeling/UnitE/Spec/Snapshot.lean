import UnitE.Spec.Coins

/-! Snapshots of the UTXO set: the subsets a snapshot is sent in, the hash a downloaded
snapshot is checked against (`Iterator::CalculateHash`), and its application to the coins
cache (`CCoinsViewCache::ApplySnapshot`). The subsets are those the iterator reads back
from the indexer, in order. -/

namespace UnitE

/-- `snapshot::UTXOSubset`: the unspent outputs of one transaction, by output index in
increasing order (`std::map`). -/
structure UTXOSubset where
  tx_id : Uint256
  height : UInt32
  tx_type : TxType
  outputs : List (UInt32 × CTxOut)
  sorted : (outputs.map Prod.fst).Pairwise (· < ·)
  deriving DecidableEq

structure SnapshotHeader where
  snapshot_hash : Uint256
  block_hash : Uint256
  stake_modifier : Uint256
  chain_work : Uint256
  total_utxo_subsets : Nat
  deriving DecidableEq, Repr

/-- The outpoints and coins of a subset, as both loops build them. -/
def UTXOSubset.coins (subset : UTXOSubset) : List (COutPoint × Coin) :=
  subset.outputs.map fun p => (⟨subset.tx_id, p.1⟩, ⟨p.2, subset.tx_type, subset.height⟩)

variable {G : Type} [AddCommGroup G] (M : MultisetHash G)

/-- `Iterator::CalculateHash`: every output of every subset added to an empty hash. -/
def CalculateHash (subsets : List UTXOSubset) (stake_modifier chain_work : Uint256) : Uint256 :=
  let hash := subsets.foldl
    (fun hash subset => subset.coins.foldl (fun hash c => hash.AddUTXO M (UTXO.ofCoin c.1 c.2)) hash)
    SnapshotHash.empty
  hash.GetHash M stake_modifier chain_work

/-- `ApplySnapshot` writes the cache to the database after this many subsets. -/
def snapshotBatchSize : Nat := 100000

/-- The outputs of one subset added to the cache, each with `possible_overwrite`. -/
def addSubset (v : CCoinsViewCache G) (subset : UTXOSubset) : Fallible (CCoinsViewCache G) :=
  subset.coins.foldlM (fun v c => v.AddCoin M c.1 c.2 true) v

/-- The loop of `ApplySnapshot` with the number of subsets written so far. -/
def applySubsets : CCoinsViewCache G → Nat → List UTXOSubset → Fallible (CCoinsViewCache G × Nat)
  | v, writtenSubsets, [] => pure (v, writtenSubsets)
  | v, writtenSubsets, subset :: rest => do
    let v ← addSubset M v subset
    let writtenSubsets := writtenSubsets + 1
    let v := if writtenSubsets % snapshotBatchSize == 0 then v.Flush else v
    applySubsets v writtenSubsets rest

theorem applySubsets_cons (v : CCoinsViewCache G) (writtenSubsets : Nat) (subset : UTXOSubset)
    (rest : List UTXOSubset) :
    applySubsets M v writtenSubsets (subset :: rest) =
      addSubset M v subset >>= fun v =>
        applySubsets M (if (writtenSubsets + 1) % snapshotBatchSize == 0 then v.Flush else v)
          (writtenSubsets + 1) rest :=
  rfl

/-- `CCoinsViewCache::ApplySnapshot`: the coins are cleared, every subset is added and
written, and the end asserts the number of subsets and the snapshot hash of the header.
A failing database write, which makes it return false, is not modelled. -/
def ApplySnapshot (v : CCoinsViewCache G) (header : SnapshotHeader) (subsets : List UTXOSubset) :
    Fallible (CCoinsViewCache G) := do
  let v := { v.ClearCoins with hashBlock := header.block_hash }
  let (v, writtenSubsets) ← applySubsets M v 0 subsets
  let v := v.Flush
  if header.total_utxo_subsets ≠ writtenSubsets then throw .assertion
  if v.snapshotHash.GetHash M header.stake_modifier header.chain_work ≠ header.snapshot_hash then
    throw .assertion
  pure v

end UnitE
