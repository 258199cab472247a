import UnitE.Spec.CommitsHandler
import UnitE.Spec.Validate

/-! The locator of a `getcommits` request (`GetFinalizerCommitsLocator`) and the start that
the peer reads from it (`FindMostRecentStart`). A block index is the path of block hashes from
the genesis block to it, so that its ancestors are the prefixes of the path; the active chain
is the path to its tip. -/

namespace UnitE

/-- A `CBlockIndex`, as the hashes of the blocks from the genesis block to it. Its height is
an `int`, so a path holds at most `2^31` blocks. -/
@[ext]
structure BlockPath where
  hashes : List Uint256
  nonempty : hashes ≠ []
  length_le : hashes.length ≤ 2 ^ 31
  deriving DecidableEq

namespace BlockPath

def nHeight (b : BlockPath) : Nat := b.hashes.length - 1

def GetBlockHash (b : BlockPath) : Uint256 := b.hashes.getLast b.nonempty

/-- The hash of the block at `height` on the path. -/
def hashAt (b : BlockPath) (height : Nat) : Uint256 := b.hashes.getD height 0

/-- `CBlockIndex::GetAncestor`: the block at `height` on the path, if the path reaches it. -/
def GetAncestor (b : BlockPath) (height : Nat) : Option BlockPath :=
  if height ≤ b.nHeight then
    some ⟨b.hashes.take (height + 1), by simp [List.take_eq_nil_iff, b.nonempty],
      (List.length_take_le' _ _).trans b.length_le⟩
  else none

/-- `CChain::Contains` for the active chain that ends at `tip`: it has `b` at `b`'s height. -/
def Contains (tip b : BlockPath) : Bool := tip.GetAncestor b.nHeight == some b

def Genesis (tip : BlockPath) : Option BlockPath := tip.GetAncestor 0

/-- The loop of `CChain::FindFork`, at the ancestor of `pindex` at `height`: back along
`pprev`, one height at a time, to the first block of the active chain. -/
def findForkFrom (tip pindex : BlockPath) : Nat → Option BlockPath
  | 0 => (pindex.GetAncestor 0).filter tip.Contains
  | height + 1 =>
    match pindex.GetAncestor (height + 1) with
    | none => none
    | some walk => if tip.Contains walk then some walk else findForkFrom tip pindex height

/-- `CChain::FindFork`: the loop starts at the ancestor of `pindex` at the height of the
active chain, or at `pindex` if it is not higher. -/
def FindFork (tip pindex : BlockPath) : Option BlockPath :=
  findForkFrom tip pindex (if pindex.nHeight > tip.nHeight then tip.nHeight else pindex.nHeight)

/-- `ActiveChain::GetBlockIndex` on the peer whose active chain ends at `tip`: the block of the
active chain with that hash. A block the peer has only on a fork is not found. -/
def GetBlockIndex (tip : BlockPath) (block_hash : Uint256) : Option BlockPath :=
  (tip.hashes.idxOf? block_hash).bind tip.GetAncestor

end BlockPath

namespace P2P

open Esperanza BlockPath

/-- `LOCATOR_START_LIMIT`: the start list of a locator stays well below the length of a
message. -/
def LOCATOR_START_LIMIT : Nat := MAX_PROTOCOL_MESSAGE_LENGTH / 256 - 256 - 1024

/-- `GetCheckpointIndex`: the block of the active chain at the checkpoint of `epoch`. -/
def GetCheckpointIndex (tip : BlockPath) (epoch : UInt32) (fin_state : FinalizationState) :
    Fallible BlockPath :=
  match tip.GetAncestor (fin_state.settings.GetEpochCheckpointHeight epoch).toNat with
  | some index => pure index
  | none => throw .assertion

def FindLastFinalizedCheckpoint (tip : BlockPath) (fin_state : FinalizationState) :
    Fallible BlockPath :=
  GetCheckpointIndex tip fin_state.lastFinalizedEpoch fin_state

/-- The `for` loop of `GetFinalizerCommitsLocator`: from `height` down by the epoch length,
pushing the hash of the ancestor at each height above the last finalized checkpoint, while
the start list has `room` left before `LOCATOR_START_LIMIT`. -/
def pushCheckpoints (epoch_length finalized_height : Height) :
    Nat → BlockPath → Height → List Uint256 → Fallible (List Uint256)
  | 0, _, _, start => pure start
  | room + 1, walk, height, start =>
    if height > finalized_height then
      match walk.GetAncestor height.toNat with
      | none => throw .assertion
      | some walk =>
        pushCheckpoints epoch_length finalized_height room walk (height - min height epoch_length)
          (start ++ [walk.GetBlockHash])
    else pure start

/-- `GetFinalizerCommitsLocator(start, stop)` on the node whose active chain ends at `tip`
and whose tip state is `fin_state`: the start list of the locator. -/
def GetFinalizerCommitsLocator (fin_state : FinalizationState) (tip start : BlockPath) :
    Fallible (List Uint256) := do
  let fork_origin := FindFork tip start
  let last_finalized_index ← FindLastFinalizedCheckpoint tip fin_state
  let some fork_origin := fork_origin | throw .assertion
  let start_ptr := if fork_origin.nHeight < last_finalized_index.nHeight then tip else start
  let start_epoch := fin_state.settings.GetEpoch (UInt32.ofNat start_ptr.nHeight)
  let last_checkpoint_height : Height :=
    if start_epoch > 0 then fin_state.settings.GetEpochCheckpointHeight (start_epoch - 1) else 0
  let locator :=
    if UInt32.ofNat start_ptr.nHeight > last_checkpoint_height ∧ start_ptr ≠ last_finalized_index
    then [start_ptr.GetBlockHash] else []
  let locator ← pushCheckpoints fin_state.settings.epoch_length
    (UInt32.ofNat last_finalized_index.nHeight) (LOCATOR_START_LIMIT - locator.length) start_ptr
    last_checkpoint_height locator
  pure (locator ++ [last_finalized_index.GetBlockHash]).reverse

/-- The loop of `FindMostRecentStart` over the start list of a locator, with the best block
found so far. -/
def scanStart (fin_state : FinalizationState) (tip : BlockPath) :
    Option BlockPath → List Uint256 → Option BlockPath
  | best_index, [] => best_index
  | best_index, hash :: start =>
    match tip.GetBlockIndex hash, best_index with
    | none, _ => best_index
    | some index, none =>
      -- the first hash must be the genesis block or a finalized checkpoint
      if tip.Genesis ≠ some index ∧ !fin_state.IsFinalizedCheckpoint (UInt32.ofNat index.nHeight)
      then none
      else scanStart fin_state tip (some index) start
    | some index, some best =>
      if index.nHeight > best.nHeight then scanStart fin_state tip (some index) start
      else best_index

/-- `FindMostRecentStart` on the peer whose active chain ends at `tip` and whose tip state is
`fin_state`. -/
def FindMostRecentStart (fin_state : FinalizationState) (tip : BlockPath) (start : List Uint256) :
    Option BlockPath :=
  scanStart fin_state tip none start

end P2P

end UnitE
