import UnitE.Spec.Validate

/-! The voting of a finalizer's wallet (`esperanza::WalletExtension`): at every new tip
`VoteIfNeeded` reads the tip's finalization state and, unless it has voted for the target
epoch or the vote would be surrounded, `SendVote` signs the recommended vote and hands the
transaction to `CWallet::CommitTransaction`. That adds it to the wallet and then offers it
to the mempool; the validator state records the vote only when the mempool accepted it. -/

namespace UnitE.Esperanza

open Finalization

inductive Phase
  | NOT_VALIDATING
  | WAITING_DEPOSIT_CONFIRMATION
  | WAITING_DEPOSIT_FINALIZATION
  | IS_VALIDATING
  | WAITING_FOR_WITHDRAW_DELAY
  | WAITING_TO_WITHDRAW
  deriving DecidableEq, Repr

/-- `esperanza::ValidatorState`: the votes sent by target epoch, and the epochs of the last
one. -/
structure ValidatorState where
  validatorAddress : Uint160
  voteMap : UInt32 → Option Vote
  lastSourceEpoch : UInt32
  lastTargetEpoch : UInt32

/-- A finalizer's wallet: its validator state, whether its last deposit transaction is set
and in the wallet, and the votes of the vote transactions `CommitTransaction` added to the
wallet, oldest first. -/
structure FinalizerWallet where
  validatorState : ValidatorState
  depositPending : Bool
  votes : List Vote

/-- What `AcceptToMemoryPool` in `CommitTransaction` leaves for `SendVote`: accepted, or
rejected with an invalid validation state. -/
inductive MempoolVerdict
  | accepted
  | rejected
  deriving DecidableEq, Repr

/-- `WalletExtension::GetFinalizerPhase` for an enabled finalizer with a validator state. -/
def GetFinalizerPhase (s : FinalizationState) (w : FinalizerWallet) : Fallible Phase :=
  match s.validators.lookup w.validatorState.validatorAddress with
  | none => pure (if w.depositPending then .WAITING_DEPOSIT_CONFIRMATION else .NOT_VALIDATING)
  | some validator =>
    if s.currentDynasty < validator.startDynasty then pure .WAITING_DEPOSIT_FINALIZATION
    else if s.IsFinalizerVoting validator then pure .IS_VALIDATING
    else do
      let withdrawEpoch ← s.CalculateWithdrawEpoch validator
      pure (if s.currentEpoch < withdrawEpoch then .WAITING_FOR_WITHDRAW_DELAY else .WAITING_TO_WITHDRAW)

/-- `SendVote` with the mempool's verdict. Signing is not modelled; `CommitTransaction` adds
the transaction to the wallet before the verdict, and only an accepted vote is recorded. -/
def SendVote (vote : Vote) (verdict : MempoolVerdict) (w : FinalizerWallet) : Bool × FinalizerWallet :=
  let w := { w with votes := w.votes ++ [vote] }
  match verdict with
  | .rejected => (false, w)
  | .accepted =>
    (true, { w with validatorState := { w.validatorState with
      voteMap := Function.update w.validatorState.voteMap vote.targetEpoch (some vote)
      lastTargetEpoch := vote.targetEpoch
      lastSourceEpoch := vote.sourceEpoch } })

@[simp] theorem SendVote_votes (vote : Vote) (verdict : MempoolVerdict) (w : FinalizerWallet) :
    (SendVote vote verdict w).2.votes = w.votes ++ [vote] := by
  cases verdict <;> rfl

/-- Sending a vote changes neither the address nor the pending deposit, which are all that
the phase reads of the wallet. -/
@[simp] theorem GetFinalizerPhase_SendVote (s : FinalizationState) (vote : Vote)
    (verdict : MempoolVerdict) (w : FinalizerWallet) :
    GetFinalizerPhase s (SendVote vote verdict w).2 = GetFinalizerPhase s w := by
  cases verdict <;> rfl

/-- `VoteIfNeeded` at a tip at `height` with finalization state `s`:
`finalizer_vote_from_epoch_block_number` is the setting of the same name. -/
def VoteIfNeeded (finalizer_vote_from_epoch_block_number : UInt32) (height : Height)
    (s : FinalizationState) (verdict : MempoolVerdict) (w : FinalizerWallet) :
    Fallible FinalizerWallet := do
  let phase ← GetFinalizerPhase s w
  if phase ≠ .IS_VALIDATING then return w
  let block_number := height % s.settings.epoch_length
  if block_number < finalizer_vote_from_epoch_block_number then return w
  let target_epoch := s.recommendedTargetEpoch
  if s.currentEpoch ≠ target_epoch + 1 then return w
  -- avoid double votes
  if (w.validatorState.voteMap target_epoch).isSome then return w
  let vote := s.GetRecommendedVote w.validatorState.validatorAddress
  -- check for surrounding votes
  if vote.targetEpoch < w.validatorState.lastTargetEpoch ∨
      vote.sourceEpoch < w.validatorState.lastSourceEpoch then return w
  pure (SendVote vote verdict w).2

/-- A tip the wallet sees: its height, finalization state, and the mempool's verdict on a
vote sent there. -/
structure Tip where
  height : Height
  finState : FinalizationState
  verdict : MempoolVerdict

/-- `VoteIfNeeded` at each tip in turn, over reorganisations as much as extensions. -/
def voteAtTips (finalizer_vote_from_epoch_block_number : UInt32) (tips : List Tip)
    (w : FinalizerWallet) : Fallible FinalizerWallet :=
  tips.foldlM (fun w tip =>
    VoteIfNeeded finalizer_vote_from_epoch_block_number tip.height tip.finState tip.verdict w) w

end UnitE.Esperanza
