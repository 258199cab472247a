import UnitE.Spec.Epoch

/-! Finalizer commits applied block by block. `CommitTx` is what `ProcessNewCommit` and
the contextual checks read from a transaction once its scripts are decoded (the vote from
the `scriptSig`, the finalizer address from the commit output, the admin commands from
the outputs), `ProcessNewCommits` applies a block to a state, and `ValidateCommit` is the
state check that `ContextualCheckFinalizerCommit` makes against the parent block's
state. -/

namespace UnitE.Esperanza

open Finalization

/-- A transaction as the finalization state reads it. `regular` stands for `REGULAR` and
`COINBASE` transactions, which it skips. -/
inductive CommitTx
  | deposit (validatorAddress : Uint160) (depositValue : CAmount) (txHash : Uint256)
  | vote (vote : Vote) (txHash : Uint256)
  | logout (validatorAddress : Uint160) (txHash : Uint256)
  | withdraw (validatorAddress : Uint160) (requestedWithdraw : CAmount)
  | slash (vote1 vote2 : Vote)
  | admin (commands : List AdminCommand) (adminKeys : AdminKeySet)
  | regular

namespace FinalizationState

variable (hash160 : List UInt8 → Uint160) (s : FinalizationState)

/-- `ProcessNewCommit`: the `Process*` operation of the commit, then `RegisterLastTx` for a
vote, deposit or logout. -/
def ProcessNewCommit : CommitTx → Fallible FinalizationState
  | .vote vote txHash => do
    let s ← s.ProcessVote vote
    s.RegisterLastTx vote.validatorAddress txHash
  | .deposit validatorAddress depositValue txHash => do
    let s ← s.ProcessDeposit validatorAddress depositValue
    s.RegisterLastTx validatorAddress txHash
  | .logout validatorAddress txHash => do
    let s ← s.ProcessLogout validatorAddress
    s.RegisterLastTx validatorAddress txHash
  | .withdraw validatorAddress _ => pure (s.ProcessWithdraw validatorAddress)
  | .slash vote1 vote2 => s.ProcessSlash vote1 vote2
  | .admin commands _ => pure (s.ProcessAdminCommands hash160 commands)
  | .regular => pure s

/-- A deposit creates the finalizer unless it exists, records the transaction on it, and adds
the scaled deposit to the delta of the dynasty two ahead either way. -/
theorem ProcessNewCommit_deposit (validatorAddress : Uint160) (depositValue : CAmount)
    (txHash : Uint256) {f : Ufp64.ufp64_t} {scaledDeposit : Nat}
    (hf : s.depositScaleFactor s.currentEpoch = some f)
    (hdiv : Ufp64.div_to_uint (toUint64 depositValue) f = .ok scaledDeposit) :
    s.ProcessNewCommit hash160 (.deposit validatorAddress depositValue txHash) =
      .ok { s with
        validators := s.validators.insert validatorAddress
          { (s.validators.lookup validatorAddress).getD
              (Validator.create scaledDeposit (s.currentDynasty + 2) validatorAddress) with
            lastTransactionHash := txHash }
        dynastyDeltas := Function.update s.dynastyDeltas (s.currentDynasty + 2)
          (some ((s.dynastyDeltas (s.currentDynasty + 2)).getD 0 + scaledDeposit)) } := by
  by_cases hmem : validatorAddress ∈ s.validators
  · obtain ⟨v, hv⟩ := Option.isSome_iff_exists.mp (Finmap.lookup_isSome.mpr hmem)
    simp [ProcessNewCommit, ProcessDeposit_eq_ok s hf hdiv, RegisterLastTx, validatorAt,
      addDynastyDelta_eq, setValidator, hmem, hv]
  · simp [ProcessNewCommit, ProcessDeposit_eq_ok s hf hdiv, RegisterLastTx, validatorAt,
      addDynastyDelta_eq, setValidator, hmem, Finmap.lookup_eq_none.mpr hmem]

theorem ProcessNewCommit_deposit_eq_ok {validatorAddress : Uint160} {depositValue : CAmount}
    {txHash : Uint256} {s' : FinalizationState}
    (h : s.ProcessNewCommit hash160 (.deposit validatorAddress depositValue txHash) = .ok s') :
    ∃ scaledDeposit : Nat, s' = { s with
        validators := s.validators.insert validatorAddress
          { (s.validators.lookup validatorAddress).getD
              (Validator.create scaledDeposit (s.currentDynasty + 2) validatorAddress) with
            lastTransactionHash := txHash }
        dynastyDeltas := Function.update s.dynastyDeltas (s.currentDynasty + 2)
          (some ((s.dynastyDeltas (s.currentDynasty + 2)).getD 0 + scaledDeposit)) } := by
  have hsteps := h
  simp only [ProcessNewCommit, Except.bind_eq_ok] at hsteps
  obtain ⟨_, hdeposit, -⟩ := hsteps
  simp only [ProcessDeposit, Except.bind_eq_ok, GetDepositScaleFactor_eq_ok] at hdeposit
  obtain ⟨f, hf, scaledDeposit, hdiv, -⟩ := hdeposit
  rw [s.ProcessNewCommit_deposit hash160 validatorAddress depositValue txHash hf hdiv,
    Except.ok.injEq] at h
  exact ⟨scaledDeposit, h.symm⟩

theorem ProcessNewCommit_vote_eq_ok {vote : Vote} {txHash : Uint256} {s' : FinalizationState}
    (h : s.ProcessNewCommit hash160 (.vote vote txHash) = .ok s') :
    ∃ s₁, s.ProcessVote vote = .ok s₁ ∧ s₁.RegisterLastTx vote.validatorAddress txHash = .ok s' :=
  Except.bind_eq_ok.mp h

theorem ProcessNewCommit_logout_eq_ok {validatorAddress : Uint160} {txHash : Uint256}
    {s' : FinalizationState} (h : s.ProcessNewCommit hash160 (.logout validatorAddress txHash) = .ok s') :
    ∃ s₁, s.ProcessLogout validatorAddress = .ok s₁ ∧
      s₁.RegisterLastTx validatorAddress txHash = .ok s' :=
  Except.bind_eq_ok.mp h

/-- A vote of a finalizer that exists, on a target that has a checkpoint, in an epoch that
has a deposit scale factor, goes through: the finalizer joins the target's vote set, its
deposit is counted at the source epoch when it is in the current dynasty, and it keeps its
dynasties with at most a reward added to its deposit. -/
theorem ProcessNewCommit_vote_counted {vote : Vote} {cp : Checkpoint} {v : Validator}
    {f : Ufp64.ufp64_t} (txHash : Uint256) (hcp : s.checkpoints vote.targetEpoch = some cp)
    (hv : s.validators.lookup vote.validatorAddress = some v)
    (hf : s.depositScaleFactor s.currentEpoch = some f) :
    ∃ s₁ cp₁ r, s.ProcessNewCommit hash160 (.vote vote txHash) = .ok s₁ ∧
      s₁.checkpoints vote.targetEpoch = some cp₁ ∧
      cp₁.curDynastyVotes vote.sourceEpoch =
        some ((cp.curDynastyVotes vote.sourceEpoch).getD 0 +
          if IsInDynasty v s.currentDynasty then v.deposit else 0) ∧
      vote.validatorAddress ∈ cp₁.voteSet ∧
      s₁.validators.lookup vote.validatorAddress =
        some { v with deposit := v.deposit + r, lastTransactionHash := txHash } ∧
      s₁ = { s with
        validators := s₁.validators
        checkpoints := s₁.checkpoints
        curDynDeposits := s₁.curDynDeposits
        prevDynDeposits := s₁.prevDynDeposits
        dynastyDeltas := s₁.dynastyDeltas
        lastJustifiedEpoch := s₁.lastJustifiedEpoch
        lastFinalizedEpoch := s₁.lastFinalizedEpoch } := by
  obtain ⟨t, ht⟩ := s.ProcessVote_ok hcp hv hf
  obtain ⟨cp₁, hcp₁, hvotes, hset⟩ := s.ProcessVote_checkpoint ht hcp hv
  obtain ⟨r, hvt⟩ := s.ProcessVote_validator ht hv
  have hframe := s.ProcessVote_frame ht
  -- `RegisterLastTx` then records the transaction on the finalizer
  refine ⟨t.setValidator vote.validatorAddress
      { v with deposit := v.deposit + r, lastTransactionHash := txHash },
    cp₁, r, ?_, hcp₁, hvotes, hset, Finmap.lookup_insert _, ?_⟩
  · simp only [ProcessNewCommit, ht, Except.ok_bind, t.RegisterLastTx_eq_ok hvt]
  · rw [hframe]
    rfl

/-- The start of `ProcessNewCommits`: `InitializeEpoch` at the first block of an epoch,
whatever it returns. -/
def startEpoch (height : Height) : Fallible FinalizationState :=
  if s.settings.IsEpochStart height then Prod.snd <$> s.InitializeEpoch height else pure s

/-- The end of `ProcessNewCommits`: a checkpoint block becomes the recommended target. -/
def recommendTarget (height : Height) (blockHash : Uint256) : FinalizationState :=
  if s.settings.IsCheckpoint height then
    { s with recommendedTargetHash := blockHash, recommendedTargetEpoch := s.settings.GetEpoch height }
  else s

/-- `ProcessNewCommits` for the block at `height` with hash `blockHash`: the epoch starts
first when the block is the first of an epoch, then the commits are applied in order, and
a checkpoint block becomes the recommended target. -/
def ProcessNewCommits (height : Height) (blockHash : Uint256) (txes : List CommitTx) :
    Fallible FinalizationState := do
  if s.status ≠ .NEW then throw .assertion
  let s ← s.startEpoch height
  let s ← txes.foldlM (ProcessNewCommit hash160) s
  pure { s.recommendTarget height blockHash with status := .FROM_COMMITS }

theorem ProcessNewCommits_eq_ok {height : Height} {blockHash : Uint256} {txes : List CommitTx}
    {s' : FinalizationState} :
    s.ProcessNewCommits hash160 height blockHash txes = .ok s' ↔
      s.status = .NEW ∧ ∃ s₀ s₁, s.startEpoch height = .ok s₀ ∧
        txes.foldlM (ProcessNewCommit hash160) s₀ = .ok s₁ ∧
        s' = { s₁.recommendTarget height blockHash with status := .FROM_COMMITS } := by
  by_cases hnew : s.status = .NEW
  · simp only [ProcessNewCommits, hnew, ne_eq, not_true_eq_false, if_false, Except.bind_eq_ok]
    simp [eq_comm]
  · simp [ProcessNewCommits, hnew]

theorem startEpoch_of_not_epochStart {height : Height} (h : s.settings.IsEpochStart height = false) :
    s.startEpoch height = .ok s := by
  simp [startEpoch, h]

@[simp] theorem recommendTarget_validators (height : Height) (blockHash : Uint256) :
    (s.recommendTarget height blockHash).validators = s.validators := by
  unfold recommendTarget
  split <;> rfl

@[simp] theorem recommendTarget_checkpoints (height : Height) (blockHash : Uint256) :
    (s.recommendTarget height blockHash).checkpoints = s.checkpoints := by
  unfold recommendTarget
  split <;> rfl

@[simp] theorem recommendTarget_dynastyDeltas (height : Height) (blockHash : Uint256) :
    (s.recommendTarget height blockHash).dynastyDeltas = s.dynastyDeltas := by
  unfold recommendTarget
  split <;> rfl

/-- `FinalizationState(parent, NEW)`: the state a child block starts from. -/
def child : FinalizationState := { s with status := .NEW }

/-- The state check of `ContextualCheckFinalizerCommit` for a decoded commit: the
`Validate*` result, `IsSlashable`, or an active permissioning with authorized keys. -/
def ValidateCommit : CommitTx → Prop
  | .deposit validatorAddress depositValue _ =>
    s.ValidateDeposit validatorAddress depositValue = .SUCCESS
  | .vote vote _ => s.ValidateVote vote = .SUCCESS
  | .logout validatorAddress _ => s.ValidateLogout validatorAddress = .SUCCESS
  | .withdraw validatorAddress requestedWithdraw =>
    s.ValidateWithdraw validatorAddress requestedWithdraw = .ok .SUCCESS
  | .slash vote1 vote2 => s.IsSlashable vote1 vote2 = .SUCCESS
  | .admin _ adminKeys => s.IsPermissioningActive = true ∧ s.ValidateAdminKeys adminKeys = .SUCCESS
  | .regular => True

instance : ∀ tx, Decidable (s.ValidateCommit tx)
  | .deposit validatorAddress depositValue _ =>
    inferInstanceAs (Decidable (s.ValidateDeposit validatorAddress depositValue = .SUCCESS))
  | .vote vote _ => inferInstanceAs (Decidable (s.ValidateVote vote = .SUCCESS))
  | .logout validatorAddress _ => inferInstanceAs (Decidable (s.ValidateLogout validatorAddress = .SUCCESS))
  | .withdraw validatorAddress requestedWithdraw =>
    inferInstanceAs (Decidable (s.ValidateWithdraw validatorAddress requestedWithdraw = .ok .SUCCESS))
  | .slash vote1 vote2 => inferInstanceAs (Decidable (s.IsSlashable vote1 vote2 = .SUCCESS))
  | .admin _ adminKeys =>
    inferInstanceAs (Decidable (s.IsPermissioningActive = true ∧ s.ValidateAdminKeys adminKeys = .SUCCESS))
  | .regular => inferInstanceAs (Decidable True)

/-- `ContextualCheckBlockFinalizerCommits` on the state checks: every commit of the block
passes against `s`. -/
def ContextualCheckBlockFinalizerCommits (txes : List CommitTx) : Prop :=
  ∀ tx ∈ txes, s.ValidateCommit tx

instance (txes : List CommitTx) : Decidable (s.ContextualCheckBlockFinalizerCommits txes) :=
  inferInstanceAs (Decidable (∀ tx ∈ txes, s.ValidateCommit tx))

/-- One step of the finalization state machine: `InitializeEpoch` at a height of the chain
(`CBlockIndex::nHeight`, an `int`, so below 2^31), or a finalizer commit that its check
accepts on the state it is applied to. -/
inductive Step : FinalizationState → FinalizationState → Prop
  | initializeEpoch {s s' : FinalizationState} {height : Height} {res : Result}
      (hheight : height.toNat < 2 ^ 31) (h : s.InitializeEpoch height = .ok (res, s')) : Step s s'
  | commit {s s' : FinalizationState} {tx : CommitTx}
      (hvalid : s.ValidateCommit tx) (h : s.ProcessNewCommit hash160 tx = .ok s') : Step s s'

/-- The states that steps reach from `FinalizationState(params)`. -/
def Reachable (params : Params) (s : FinalizationState) : Prop :=
  Relation.ReflTransGen (Step hash160) (create params) s

/-- An input of the state machine: the first block of an epoch at a height, or a commit. -/
inductive StepInput
  | initializeEpoch (height : Height)
  | commit (tx : CommitTx)

/-- The step an input makes, when `Step` has one: `InitializeEpoch` at a height below 2^31
that returns, or a commit that its check accepts and that returns. -/
def stepInput : StepInput → Option FinalizationState
  | .initializeEpoch height =>
    if height.toNat < 2 ^ 31 then
      match s.InitializeEpoch height with
      | .ok (_, s') => some s'
      | .error _ => none
    else none
  | .commit tx =>
    if s.ValidateCommit tx then
      match s.ProcessNewCommit hash160 tx with
      | .ok s' => some s'
      | .error _ => none
    else none

/-- The state that a list of inputs leads to, when each of them is a step. -/
def runInputs : FinalizationState → List StepInput → Option FinalizationState
  | s, [] => some s
  | s, input :: inputs => (stepInput hash160 s input).bind fun s' => runInputs s' inputs

theorem stepInput_step {s s' : FinalizationState} {input : StepInput}
    (h : stepInput hash160 s input = some s') : Step hash160 s s' := by
  cases input with
  | initializeEpoch height =>
    rw [stepInput] at h
    split_ifs at h with hheight
    split at h
    · rename_i res s₁ hinit
      cases h
      exact .initializeEpoch hheight hinit
    · cases h
  | commit tx =>
    rw [stepInput] at h
    split_ifs at h with hvalid
    split at h
    · rename_i s₁ hcommit
      cases h
      exact .commit hvalid hcommit
    · cases h

theorem runInputs_run {s s' : FinalizationState} {inputs : List StepInput}
    (h : runInputs hash160 s inputs = some s') : Relation.ReflTransGen (Step hash160) s s' := by
  induction inputs generalizing s with
  | nil =>
    cases h
    exact .refl
  | cons input inputs ih =>
    obtain ⟨s₁, h₁, hrest⟩ := Option.bind_eq_some_iff.mp h
    exact .head (stepInput_step hash160 h₁) (ih hrest)

/-- One block of a chain: its commits pass `ContextualCheckBlockFinalizerCommits` against the
state `s` of the parent block, and `ProcessNewCommits` applies them to the child state
`FinalizationState(s, NEW)` at the block's height (below 2^31). The heights of successive
blocks are left free, so a chain of consecutive heights is one case. -/
inductive BlockStep : FinalizationState → FinalizationState → Prop
  | block {s s' : FinalizationState} {height : Height} {blockHash : Uint256} {txes : List CommitTx}
      (hheight : height.toNat < 2 ^ 31) (hcheck : s.ContextualCheckBlockFinalizerCommits txes)
      (h : s.child.ProcessNewCommits hash160 height blockHash txes = .ok s') : BlockStep s s'

/-- The states of the blocks of a chain that starts from `FinalizationState(params)`. -/
def BlockReachable (params : Params) (s : FinalizationState) : Prop :=
  Relation.ReflTransGen (BlockStep hash160) (create params) s

/-- A block as `ProcessNewCommits` reads it: its height, its hash and its commits. -/
structure BlockInput where
  height : Height
  blockHash : Uint256
  txes : List CommitTx

/-- The state after a block, when `BlockStep` has one: a height below 2^31, commits that pass
the check against `s`, and a `ProcessNewCommits` on the child state that returns. -/
def blockInput (b : BlockInput) : Option FinalizationState :=
  if b.height.toNat < 2 ^ 31 ∧ s.ContextualCheckBlockFinalizerCommits b.txes then
    match s.child.ProcessNewCommits hash160 b.height b.blockHash b.txes with
    | .ok s' => some s'
    | .error _ => none
  else none

/-- The state at the end of a chain of blocks, when each of them is a step. -/
def runBlocks : FinalizationState → List BlockInput → Option FinalizationState
  | s, [] => some s
  | s, b :: blocks => (blockInput hash160 s b).bind fun s' => runBlocks s' blocks

theorem blockInput_step {s s' : FinalizationState} {b : BlockInput}
    (h : blockInput hash160 s b = some s') : BlockStep hash160 s s' := by
  rw [blockInput] at h
  split_ifs at h with hcheck
  split at h
  · rename_i s₁ hblock
    cases h
    exact .block hcheck.1 hcheck.2 hblock
  · cases h

/-- The blocks that `runBlocks` runs through make a run of `BlockStep`: induction over the
list. -/
theorem runBlocks_run {s s' : FinalizationState} {blocks : List BlockInput}
    (h : runBlocks hash160 s blocks = some s') : Relation.ReflTransGen (BlockStep hash160) s s' := by
  induction blocks generalizing s with
  | nil =>
    cases h
    exact .refl
  | cons b blocks ih =>
    obtain ⟨s₁, h₁, hrest⟩ := Option.bind_eq_some_iff.mp h
    exact .head (blockInput_step hash160 h₁) (ih hrest)

/-- The state a list of inputs leads to from `FinalizationState(params)`, when each input is a
step, is reachable. -/
theorem reachable_runInputs {params : Params} {inputs : List StepInput}
    (h : (runInputs hash160 (create params) inputs).isSome = true) :
    Reachable hash160 params ((runInputs hash160 (create params) inputs).getD (create params)) := by
  obtain ⟨s, hs⟩ := Option.isSome_iff_exists.mp h
  rw [hs, Option.getD_some]
  exact runInputs_run hash160 hs

/-- The state at the end of a chain of blocks from `FinalizationState(params)`, when each block
is a step, is the state of a block of a chain. -/
theorem blockReachable_runBlocks {params : Params} {blocks : List BlockInput}
    (h : (runBlocks hash160 (create params) blocks).isSome = true) :
    BlockReachable hash160 params ((runBlocks hash160 (create params) blocks).getD (create params)) := by
  obtain ⟨s, hs⟩ := Option.isSome_iff_exists.mp h
  rw [hs, Option.getD_some]
  exact runBlocks_run hash160 hs

end FinalizationState

end UnitE.Esperanza
