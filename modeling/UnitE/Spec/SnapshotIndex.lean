import Mathlib.Data.Finset.Insert
import UnitE.Spec.CommitsLocator

/-! `snapshot::SnapshotIndex`, the index of the snapshots a node keeps: a map from block height
to the checkpoint whose snapshot was taken at that block, of at most `m_max_snapshots` entries,
and the set of the snapshot hashes pushed out of it whose files are still to be deleted. A
block index is a `BlockPath`, and its height, an `int` of the source, is its `nHeight`. The
vector `SnapshotsForRemoval` returns lists the set; here it is the set. -/

namespace UnitE.Snapshot

structure Checkpoint where
  height : Nat
  finalized : Bool
  snapshot_hash : Uint256
  block_hash : Uint256
  deriving DecidableEq, Repr

/-- `snapshot::SnapshotIndex`, with the bounds its constructor asserts. -/
structure SnapshotIndex where
  m_max_snapshots : UInt32
  m_min_finalized_snapshots : UInt32
  m_sanity_check : Bool
  m_index_map : Std.TreeMap Nat Checkpoint compare
  m_snapshots_for_removal : Finset Uint256
  min_pos : 0 < m_min_finalized_snapshots
  min_lt_max : m_min_finalized_snapshots < m_max_snapshots

namespace SnapshotIndex

/-- `SnapshotIndex(max_snapshots, min_finalized_snapshots, sanity_check)`, which asserts
`0 < min_finalized_snapshots < max_snapshots`. -/
def create (max_snapshots min_finalized_snapshots : UInt32) (sanity_check : Bool) :
    Fallible SnapshotIndex :=
  if h : 0 < min_finalized_snapshots ∧ min_finalized_snapshots < max_snapshots then
    .ok ⟨max_snapshots, min_finalized_snapshots, sanity_check, ∅, ∅, h.1, h.2⟩
  else .error .assertion

/-- The assertions of `SanityCheck`: at most `m_max_snapshots` entries, each under its own
height, and each height above the one before. -/
def SanityCheck (s : SnapshotIndex) : Bool :=
  s.m_index_map.isEmpty ||
    (decide (s.m_index_map.size ≤ s.m_max_snapshots.toNat) &&
      s.m_index_map.toList.all (fun p => p.1 == p.2.height) &&
      (s.m_index_map.keys.zip s.m_index_map.keys.tail).all (fun p => decide (p.1 < p.2)))

/-- `SnapshotsForRemoval`, which runs `SanityCheck` when `m_sanity_check` is set. -/
def SnapshotsForRemoval (s : SnapshotIndex) : Fallible (Finset Uint256) :=
  if s.m_sanity_check && !s.SanityCheck then .error .assertion else .ok s.m_snapshots_for_removal

/-- `m_snapshots_for_removal.emplace(it->second.snapshot_hash); m_index_map.erase(it)`, the
way every entry leaves the index except through `DeleteSnapshotHash`. -/
def evict (s : SnapshotIndex) (k : Nat) (cp : Checkpoint) : SnapshotIndex :=
  { s with
    m_snapshots_for_removal := insert cp.snapshot_hash s.m_snapshots_for_removal
    m_index_map := s.m_index_map.erase k }

/-- `RemoveLowest`: above the limit, the lowest entry goes when more than
`m_min_finalized_snapshots` entries are finalized, else the lowest entry not finalized. The
count is a `uint32_t`. -/
def RemoveLowest (s : SnapshotIndex) : SnapshotIndex :=
  if s.m_index_map.size ≤ s.m_max_snapshots.toNat then s
  else
    let finalized : UInt32 := UInt32.ofNat (s.m_index_map.toList.countP (·.2.finalized))
    if finalized > s.m_min_finalized_snapshots then
      match s.m_index_map.toList.head? with
      | some (k, cp) => s.evict k cp
      | none => s
    else
      match s.m_index_map.toList.find? (!·.2.finalized) with
      | some (k, cp) => s.evict k cp
      | none => s

/-- `RemoveHighest`: above the limit, the highest entry goes. -/
def RemoveHighest (s : SnapshotIndex) : SnapshotIndex :=
  if s.m_index_map.size ≤ s.m_max_snapshots.toNat then s
  else
    match s.m_index_map.toList.getLast? with
    | some (k, cp) => s.evict k cp
    | none => s

/-- The index `AddSnapshotHash` leaves: the new checkpoint replaces the one at its height, or
is added; a checkpoint above every height then pushes out one from below, any other one from
above. -/
def addCheckpoint (s : SnapshotIndex) (snapshot_hash : Uint256) (block_index : BlockPath) :
    SnapshotIndex :=
  let checkpoint : Checkpoint :=
    ⟨block_index.nHeight, false, snapshot_hash, block_index.GetBlockHash⟩
  if s.m_index_map.isEmpty then
    { s with m_index_map := s.m_index_map.insert block_index.nHeight checkpoint }
  else
    match s.m_index_map[block_index.nHeight]? with
    | some old =>
      let s₁ := s.evict block_index.nHeight old
      { s₁ with m_index_map := s₁.m_index_map.insert block_index.nHeight checkpoint }
    | none =>
      -- `upper_bound` is taken before the insertion
      let s₁ := { s with m_index_map := s.m_index_map.insert block_index.nHeight checkpoint }
      if s.m_index_map.keys.all (· ≤ block_index.nHeight) then s₁.RemoveLowest
      else s₁.RemoveHighest

def AddSnapshotHash (s : SnapshotIndex) (snapshot_hash : Uint256) (block_index : BlockPath) :
    Fallible (SnapshotIndex × Finset Uint256) := do
  let s' := s.addCheckpoint snapshot_hash block_index
  let for_removal ← s'.SnapshotsForRemoval
  pure (s', for_removal)

/-- `DeleteSnapshotHash`: the first entry with the hash leaves the index, and the hash the set
of snapshots for removal. -/
def DeleteSnapshotHash (s : SnapshotIndex) (snapshot_hash : Uint256) : SnapshotIndex :=
  let s₁ :=
    match s.m_index_map.toList.find? (·.2.snapshot_hash == snapshot_hash) with
    | some (k, _) => { s with m_index_map := s.m_index_map.erase k }
    | none => s
  { s₁ with m_snapshots_for_removal := s₁.m_snapshots_for_removal.erase snapshot_hash }

def ConfirmRemoved (s : SnapshotIndex) (snapshot_hash : Uint256) : SnapshotIndex :=
  { s with m_snapshots_for_removal := s.m_snapshots_for_removal.erase snapshot_hash }

/-- The loop of `FinalizeSnapshots` over the entries in height order: finalized entries are
skipped, and the loop stops at the first other entry above the block. Below it, an entry on the
block's branch is finalized, and one on another branch pushed out. The loop changes only the
entry it is at, so it reads the later ones from the map as it was. -/
def finalizeLoop (block_index : BlockPath) : List (Nat × Checkpoint) → SnapshotIndex → SnapshotIndex
  | [], s => s
  | (k, cp) :: rest, s =>
    if cp.finalized then finalizeLoop block_index rest s
    else if cp.height > block_index.nHeight then s
    else
      match block_index.GetAncestor cp.height with
      | some ancestor =>
        if ancestor.GetBlockHash = cp.block_hash then
          finalizeLoop block_index rest
            { s with m_index_map := s.m_index_map.insert k { cp with finalized := true } }
        else finalizeLoop block_index rest (s.evict k cp)
      -- not reached: the ancestor exists at every height up to the block's
      | none => s

def FinalizeSnapshots (s : SnapshotIndex) (block_index : BlockPath) :
    Fallible (SnapshotIndex × Finset Uint256) := do
  let s' := if s.m_index_map.isEmpty then s else finalizeLoop block_index s.m_index_map.toList s
  let for_removal ← s'.SnapshotsForRemoval
  pure (s', for_removal)

end SnapshotIndex

end UnitE.Snapshot
