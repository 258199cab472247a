import UnitE.Spec.Block

/-! `FinalizerCommitsHandlerImpl::OnCommits` up to the point where the received commits
have been handed to the finalization state processor: the context-free checks of every
entry (merkle root, commit types, transaction checks), then for each header in order its
acceptance, its votes recorded, the commits stored on its block index, and
`ProcessNewCommits`. The calls into the rest of the node are parameters.

On the sending side, `OnGetCommits` walks the active chain from the start that the
locator selects and pushes `COMMITS` messages, each kept below
`MAX_PROTOCOL_MESSAGE_LENGTH` by serializing the response with the next entry before
taking it. The serialized size of one entry is a parameter. -/

namespace UnitE.P2P

structure HeaderAndFinalizerCommits where
  header : CBlockHeader
  commits : List CTransaction
  deriving DecidableEq, Repr

/-- The calls of `OnCommits` that this model leaves open, as their verdicts:
`CBlockHeader::GetHash`, `CheckTransaction` with `CheckFinalizerCommit`,
`AcceptBlockHeader`, `RecordVote`, and the state processor's `ProcessNewCommits`. -/
structure CommitsHandlerDeps where
  HeaderHash : CBlockHeader → Uint256
  CheckCommit : CTransaction → Bool
  AcceptBlockHeader : CBlockHeader → Bool
  RecordVote : CTransaction → Bool
  ProcessNewCommits : Uint256 → List CTransaction → Bool

/-- How `OnCommits` fails: with its own DoS score and reason, with the reason a callee set,
or at `assert(not("not implemented"))`. -/
inductive OnCommitsError
  | reject (dos : Nat) (reason : String)
  | calleeRejected
  | assertion
  deriving DecidableEq, Repr

/-- The commits stored on the block index (`CBlockIndex::commits`), by block hash. -/
abbrev CommitsIndex := Uint256 → Option (List CTransaction)

/-- What `OnCommits` returns: the block index, and the blocks and commit lists it passed to
`ProcessNewCommits`, in order. -/
abbrev OnCommitsResult := CommitsIndex × List (Uint256 × List CTransaction)

variable (H : BlockHashes) (D : CommitsHandlerDeps)

/-- `FinalizerCommitsEqual`: the same number of transactions with the same ids. -/
def FinalizerCommitsEqual (a b : List CTransaction) : Bool :=
  a.length == b.length && a.map H.GetHash == b.map H.GetHash

/-- The checks of the first loop on each commit: a finalizer commit that passes the
context-free checks. -/
def checkCommits : List CTransaction → Except OnCommitsError Unit
  | [] => pure ()
  | c :: rest => do
    if !c.IsFinalizerCommit then throw (.reject 100 "bad-non-commit")
    if !D.CheckCommit c then throw .calleeRejected
    checkCommits rest

/-- The first loop on one entry: the commits' merkle root must be the header's, computed
without the mutation flag. -/
def checkEntry (d : HeaderAndFinalizerCommits) : Except OnCommitsError Unit := do
  if (ComputeMerkleRoot H (d.commits.map H.GetHash)).1 ≠ d.header.hash_finalizer_commits_merkle_root then
    throw (.reject 100 "bad-finalizer-commits-merkle-root")
  checkCommits D d.commits

/-- `RecordVote` on every vote of an entry. -/
def recordVotes : List CTransaction → Except OnCommitsError Unit
  | [] => pure ()
  | c :: rest => do
    if c.txType = .VOTE ∧ !D.RecordVote c then throw .calleeRejected
    recordVotes rest

/-- The second loop on one entry, with the block index, the commits processed so far and
the hash of the previous entry's block. Commits already stored for the block must have the
same ids, or the handler stops at its assertion. -/
def processEntry (st : CommitsIndex × List (Uint256 × List CTransaction) × Option Uint256)
    (d : HeaderAndFinalizerCommits) :
    Except OnCommitsError (CommitsIndex × List (Uint256 × List CTransaction) × Option Uint256) := do
  let (index, processed, last) := st
  if !D.AcceptBlockHeader d.header then throw .calleeRejected
  let hash := D.HeaderHash d.header
  if let some lastHash := last then
    if d.header.hashPrevBlock ≠ lastHash then throw (.reject 100 "bad-block-ordering")
  recordVotes D d.commits
  let index ← match index hash with
    | some stored =>
      if FinalizerCommitsEqual H stored d.commits then pure index else throw .assertion
    | none => pure (Function.update index hash (some d.commits))
  if !D.ProcessNewCommits hash d.commits then throw .calleeRejected
  pure (index, processed ++ [(hash, d.commits)], some hash)

/-- `OnCommits` on a `FinalizerCommitsResponse` with entries `data`. -/
def OnCommits (index : CommitsIndex) (data : List HeaderAndFinalizerCommits) :
    Except OnCommitsError OnCommitsResult := do
  if data.isEmpty then throw (.reject 100 "bad-commits-empty")
  data.forM (checkEntry H D)
  let (index, processed, _) ← data.foldlM (processEntry H D) (index, [], none)
  pure (index, processed)

inductive Status
  | StopOrFinalizationReached
  | TipReached
  | LengthExceeded
  deriving DecidableEq, Repr

/-- `FinalizerCommitsResponse`, the body of a `COMMITS` message; a new one has status
`StopOrFinalizationReached` and no entries. -/
structure FinalizerCommitsResponse where
  status : Status := .StopOrFinalizationReached
  data : List HeaderAndFinalizerCommits := []
  deriving DecidableEq, Repr

def MAX_PROTOCOL_MESSAGE_LENGTH : Nat := 4 * 1000 * 1000

def GetSizeOfCompactSize (n : Nat) : Nat :=
  if n < 253 then 1 else if n ≤ 0xffff then 3 else if n ≤ 0xffffffff then 5 else 9

/-- `GetSerializeSize` of a response: the status byte, then the entries as a vector, each
of serialized size `entrySize`. -/
def responseSize (entrySize : HeaderAndFinalizerCommits → Nat) (response : FinalizerCommitsResponse) :
    Nat :=
  1 + GetSizeOfCompactSize response.data.length + (response.data.map entrySize).sum

/-- What `OnGetCommits` reads of a block index of the active chain: its height and hash, its
header, the commits stored on it (`CBlockIndex::commits`), and the block's transactions when
its data is on disk (`BLOCK_HAVE_DATA`). -/
structure ChainEntry where
  nHeight : Height
  hash : Uint256
  header : CBlockHeader
  commits : Option (List CTransaction)
  data : Option (List CTransaction)

/-- `FindHeaderAndFinalizerCommits`: the header with the stored commits, or with the
finalizer commits of the block read from disk; nothing when the block has no data. The
source stores the commits it read on the index, which no later step here reads. -/
def FindHeaderAndFinalizerCommits (index : ChainEntry) : Option HeaderAndFinalizerCommits :=
  match index.commits with
  | some commits => some ⟨index.header, commits⟩
  | none => index.data.map fun vtx => ⟨index.header, vtx.filter (·.IsFinalizerCommit)⟩

section OnGetCommits

variable (entrySize : HeaderAndFinalizerCommits → Nat) (stop : Option Uint256)
  (IsFinalizedCheckpoint : Height → Bool)

/-- One entry taken into the response being built: a response that would reach the length
limit with it is pushed as it is, with status `LengthExceeded`, and a new one is started. -/
def takeEntry (response : FinalizerCommitsResponse) (pushed : List FinalizerCommitsResponse)
    (hc : HeaderAndFinalizerCommits) : FinalizerCommitsResponse × List FinalizerCommitsResponse :=
  let response_copy := { response with data := response.data ++ [hc] }
  if responseSize entrySize response_copy ≥ MAX_PROTOCOL_MESSAGE_LENGTH then
    ({}, pushed ++ [{ response with status := .LengthExceeded }])
  else (response_copy, pushed)

/-- The `do ... while` loop of `OnGetCommits` over the blocks that follow the start on the
active chain, with the response being built and the messages pushed so far. A block without
data is skipped (`continue` goes to the loop condition); the loop ends after the stop block
or a finalized checkpoint, or at the tip with status `TipReached`. -/
def walkCommits : List ChainEntry → FinalizerCommitsResponse → List FinalizerCommitsResponse →
    List FinalizerCommitsResponse × FinalizerCommitsResponse
  | [], response, pushed => (pushed, { response with status := .TipReached })
  | walk :: rest, response, pushed =>
    let (response, pushed) := match FindHeaderAndFinalizerCommits walk with
      | none => (response, pushed)
      | some hc => takeEntry entrySize response pushed hc
    if stop = some walk.hash || IsFinalizedCheckpoint walk.nHeight then (pushed, response)
    else walkCommits rest response pushed

/-- `OnGetCommits` from the start the locator selects, with `stop` the hash of the stop block
when the locator names one on the active chain and `chain` the blocks after the start: the
messages it pushes, in order. The last response is pushed unless it is empty. -/
def OnGetCommits (chain : List ChainEntry) : List FinalizerCommitsResponse :=
  let (pushed, response) := walkCommits entrySize stop IsFinalizedCheckpoint chain {} []
  if response.data.isEmpty then pushed else pushed ++ [response]

end OnGetCommits

end UnitE.P2P
