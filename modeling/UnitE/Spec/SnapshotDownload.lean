import UnitE.Spec.ChainstateIterator
import UnitE.Spec.SnapshotIndexer
import UnitE.Spec.SnapshotIndex

/-! The initial snapshot download (`snapshot::P2PState`). A node asks a peer for the subsets of
the snapshot it downloads with `GETSNAPSHOT`, from the number it has stored on; the peer reads
them with an iterator over its own copy and answers with a `SNAPSHOT` chunk. The node appends a
chunk that starts exactly at the number it has stored, flushes, and asks for the next one; a
chunk from elsewhere gets the request from the stored number again. Once the peer's total is
stored, the node hashes what it stored and either makes its block the candidate, or deletes the
directory and starts over. The snapshot folder is one directory per snapshot hash. Timeouts, the
discovery of the best snapshot and the logs are not modelled. -/

namespace UnitE

def SnapshotHeader.IsNull (header : SnapshotHeader) : Bool := header.snapshot_hash == 0

/-- The header `SnapshotHeader::SetNull` leaves. -/
def SnapshotHeader.null : SnapshotHeader := ⟨0, 0, 0, 0, 0⟩

namespace Snapshot

structure GetSnapshot where
  snapshot_hash : Uint256
  utxo_subset_index : UInt64
  utxo_subset_count : UInt16
  deriving DecidableEq, Repr

set_option linter.dupNamespace false in
/-- `snapshot::Snapshot`, a chunk of subsets from `utxo_subset_index` on. -/
structure Snapshot where
  snapshot_hash : Uint256
  utxo_subset_index : UInt64
  utxo_subsets : List UTXOSubset

/-- `MAX_UTXO_SET_COUNT`, the subsets asked for at once. -/
def MAX_UTXO_SET_COUNT : UInt16 := 10000

def DEFAULT_INDEX_STEP : UInt32 := 1000

def DEFAULT_INDEX_STEP_PER_FILE : UInt32 := 100

/-- `UTXOSubset()`, the subset a new iterator holds. -/
instance : Inhabited UTXOSubset := ⟨UTXOSubset.empty⟩

namespace Iterator

variable {G : Type} [AddCommGroup G] (M : MultisetHash G) (codec : ByteCodec UTXOSubset) (disk : Disk)

/-- The `while` loop of `Iterator::CalculateHash`, for at most `fuel` passes: the outputs of the
subset the iterator is valid at are added to the hash, and the next subset is read. -/
def hashLoop : Nat → Iterator UTXOSubset → SnapshotHash G → Option (SnapshotHash G)
  | 0, _, _ => none
  | fuel + 1, it, hash =>
    if it.Valid then
      (Next codec disk it).bind fun it' =>
        hashLoop fuel it'
          (it.GetUTXOSubset.coins.foldl (fun hash c => hash.AddUTXO M (UTXO.ofCoin c.1 c.2)) hash)
    else some hash

/-- `Iterator::CalculateHash`, which first moves back to the first subset unless the iterator is
at it. The loop takes one pass per subset and one more. -/
def CalculateHash (it : Iterator UTXOSubset) (stake_modifier chain_work : Uint256) :
    Option Uint256 := do
  let it ← if it.m_read_total > 1 then (MoveCursorTo codec disk it 0).map Prod.snd else some it
  let hash ← hashLoop M codec disk (it.total + 1) it SnapshotHash.empty
  pure (hash.GetHash M stake_modifier chain_work)

end Iterator

/-- What the node's `P2PState` and the global state around it hold for the download: whether
initial snapshot download is enabled, the candidate block hash (`0` for none), the snapshot the
node downloads, the snapshot folder and the snapshot index. -/
structure P2PState where
  isd_enabled : Bool
  candidate_block_hash : Uint256
  m_downloading_snapshot : SnapshotHeader
  dirs : Uint256 → Disk
  snapshot_index : SnapshotIndex

/-- What a message handler sends back to the peer. -/
inductive Reply
  | none
  | ban
  | getSnapshot (get : GetSnapshot)
  deriving DecidableEq, Repr

namespace P2PState

variable {G : Type} [AddCommGroup G] (M : MultisetHash G) (codec : ByteCodec UTXOSubset)
  (LookupBlockIndex : Uint256 → Option BlockPath)

/-- The indexer `ProcessSnapshot` writes with: `Indexer::Open` on the directory, or a new one for
the peer's best snapshot where the directory holds none. -/
def openIndexer (disk : Disk) (best : SnapshotHeader) : Option Indexer :=
  match Indexer.Open disk with
  | .ok (some indexer) => some indexer
  | .ok none => (Indexer.create best DEFAULT_INDEX_STEP DEFAULT_INDEX_STEP_PER_FILE).toOption
  | .error _ => none

/-- The end of a download whose hash matches: `StoreCandidateBlockHash` with the block of the
stored header, and `AddSnapshotHash` with the block index of the peer's best snapshot, which
`assert(bi)` requires to exist. -/
def storeCandidate (s : P2PState) (best : SnapshotHeader) (block_hash : Uint256) : Option P2PState := do
  let bi ← LookupBlockIndex best.block_hash
  -- the snapshots to remove that `AddSnapshotHash` returns are not used
  let added ← (s.snapshot_index.AddSnapshotHash s.m_downloading_snapshot.snapshot_hash bi).toOption
  some { s with candidate_block_hash := block_hash, snapshot_index := added.1 }

/-- The part of `ProcessSnapshot` under `LOCK2(cs_main, cs_snapshot)`, for a message that passed
its checks: the chunk is written if it starts at the number of subsets stored, and the download
ends once the peer's total is stored. -/
def writeChunk (s : P2PState) (best : SnapshotHeader) (msg : Snapshot) :
    Option (Bool × Reply × P2PState × SnapshotHeader) := do
  let disk := s.dirs msg.snapshot_hash
  let indexer ← openIndexer disk best
  let total := indexer.m_meta.snapshot_header.total_utxo_subsets
  if total ≠ msg.utxo_subset_index.toNat then
    -- ask the peer for the subsets from the ones stored on
    some (true, .getSnapshot ⟨msg.snapshot_hash, UInt64.ofNat total, MAX_UTXO_SET_COUNT⟩, s, best)
  else
    let written := indexer.WriteUTXOSubsets codec disk msg.utxo_subsets
    let flushed := written.1.Flush written.2
    let s := { s with dirs := Function.update s.dirs msg.snapshot_hash flushed.2 }
    if flushed.1.m_meta.snapshot_header.total_utxo_subsets = best.total_utxo_subsets then
      let iterator ← Iterator.create codec flushed.2 flushed.1
      let hash ← iterator.CalculateHash M codec flushed.2 best.stake_modifier best.chain_work
      if hash ≠ msg.snapshot_hash then
        -- start the download over
        some (false, .none,
          { s with
            dirs := Function.update s.dirs msg.snapshot_hash Disk.empty
            m_downloading_snapshot := SnapshotHeader.null },
          SnapshotHeader.null)
      else
        -- the iterator's header is the indexer's
        let s ← s.storeCandidate LookupBlockIndex best flushed.1.m_meta.snapshot_header.block_hash
        some (true, .none, s, best)
    else
      some (true, .getSnapshot ⟨msg.snapshot_hash,
        msg.utxo_subset_index + UInt64.ofNat msg.utxo_subsets.length, MAX_UTXO_SET_COUNT⟩, s, best)

/-- `P2PState::ProcessSnapshot` on a `SNAPSHOT` message `msg` from a peer whose best snapshot is
`best`: what it returns, what it sends back, the new state and the peer's best snapshot. `none`
is an assertion that fails or a read of the stream that throws. -/
def ProcessSnapshot (s : P2PState) (best : SnapshotHeader) (msg : Snapshot) :
    Option (Bool × Reply × P2PState × SnapshotHeader) :=
  if !s.isd_enabled then some (true, .none, s, best)
  else if s.candidate_block_hash ≠ 0 then some (true, .none, s, best)
  -- the chunk came after the timeout
  else if s.m_downloading_snapshot.IsNull then some (false, .none, s, best)
  -- `SnapshotHeader::operator==` compares the snapshot hashes only
  else if best.snapshot_hash ≠ s.m_downloading_snapshot.snapshot_hash then
    some (false, .none, s, best)
  else if best.IsNull || msg.snapshot_hash ≠ best.snapshot_hash then some (false, .ban, s, best)
  -- a `uint64_t` sum
  else if (msg.utxo_subset_index.toNat + msg.utxo_subsets.length) % 2 ^ 64 >
      best.total_utxo_subsets then
    some (false, .none, s, best)
  else s.writeChunk M codec LookupBlockIndex best msg

/-- The node processes a `SNAPSHOT` message `msg` from a peer whose best snapshot is `best`, for
any pair that `Sent` allows: messages arrive in any order, late, twice, or from several peers. -/
inductive Deliver (Sent : SnapshotHeader → Snapshot → Prop) : P2PState → P2PState → Prop
  | deliver {s s' : P2PState} {best best' : SnapshotHeader} {msg : Snapshot} {ret : Bool}
      {reply : Reply} (hsent : Sent best msg)
      (h : s.ProcessSnapshot M codec LookupBlockIndex best msg = some (ret, reply, s', best')) :
      Deliver Sent s s'

end P2PState

end Snapshot

end UnitE
