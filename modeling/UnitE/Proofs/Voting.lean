import UnitE.Spec.WalletExtension

/-! Slashing protection of a finalizer's wallet. `VoteIfNeeded` skips a target epoch that is
in the vote map and a vote that the last source and target epochs would make surrounded, but
`SendVote` writes those only after the mempool accepted the vote, while
`CommitTransaction` has already added the signed transaction to the wallet. A rejected vote
leaves no trace in the validator state, so after a reorganisation to a tip with another
target hash for the same epoch the wallet signs a second, conflicting vote. -/

namespace UnitE.Esperanza

open Finalization

variable (fromBlock : UInt32)

theorem VoteIfNeeded_sends (verdict : MempoolVerdict) {height : Height} {s : FinalizationState}
    {w : FinalizerWallet} (hphase : GetFinalizerPhase s w = .ok .IS_VALIDATING)
    (hblock : fromBlock ≤ height % s.settings.epoch_length)
    (hepoch : s.currentEpoch = s.recommendedTargetEpoch + 1)
    (hnone : w.validatorState.voteMap s.recommendedTargetEpoch = none)
    (hlastTarget : w.validatorState.lastTargetEpoch ≤ s.recommendedTargetEpoch)
    (hlastSource : w.validatorState.lastSourceEpoch ≤ s.expectedSourceEpoch) :
    VoteIfNeeded fromBlock height s verdict w =
      .ok (SendVote (s.GetRecommendedVote w.validatorState.validatorAddress) verdict w).2 := by
  have hnotTarget : ¬ s.recommendedTargetEpoch < w.validatorState.lastTargetEpoch :=
    UInt32.not_lt.mpr hlastTarget
  have hnotSource : ¬ s.expectedSourceEpoch < w.validatorState.lastSourceEpoch :=
    UInt32.not_lt.mpr hlastSource
  simp [VoteIfNeeded, hphase, UInt32.not_lt.mpr hblock, hepoch, hnone,
    FinalizationState.GetRecommendedVote, hnotTarget, hnotSource]

theorem rejected_vote_reorg_double_vote (w : FinalizerWallet) (tip1 tip2 : Tip)
    (hphase1 : GetFinalizerPhase tip1.finState w = .ok .IS_VALIDATING)
    (hphase2 : GetFinalizerPhase tip2.finState w = .ok .IS_VALIDATING)
    (hblock1 : fromBlock ≤ tip1.height % tip1.finState.settings.epoch_length)
    (hblock2 : fromBlock ≤ tip2.height % tip2.finState.settings.epoch_length)
    (hepoch1 : tip1.finState.currentEpoch = tip1.finState.recommendedTargetEpoch + 1)
    (hepoch2 : tip2.finState.currentEpoch = tip2.finState.recommendedTargetEpoch + 1)
    (htarget : tip2.finState.recommendedTargetEpoch = tip1.finState.recommendedTargetEpoch)
    (hsource : tip2.finState.expectedSourceEpoch = tip1.finState.expectedSourceEpoch)
    (hhash : tip1.finState.recommendedTargetHash ≠ tip2.finState.recommendedTargetHash)
    (hnone : w.validatorState.voteMap tip1.finState.recommendedTargetEpoch = none)
    (hlastTarget : w.validatorState.lastTargetEpoch ≤ tip1.finState.recommendedTargetEpoch)
    (hlastSource : w.validatorState.lastSourceEpoch ≤ tip1.finState.expectedSourceEpoch)
    (hrejected : tip1.verdict = .rejected) :
    ∃ w', voteAtTips fromBlock [tip1, tip2] w = .ok w' ∧
      w'.votes = w.votes ++
        [tip1.finState.GetRecommendedVote w.validatorState.validatorAddress,
         tip2.finState.GetRecommendedVote w.validatorState.validatorAddress] ∧
      ∀ (s : FinalizationState) (validator : Validator),
        s.validators.lookup w.validatorState.validatorAddress = some validator →
        validator.startDynasty ≤ s.currentDynasty → validator.isSlashed = false →
        s.IsSlashable (tip1.finState.GetRecommendedVote w.validatorState.validatorAddress)
          (tip2.finState.GetRecommendedVote w.validatorState.validatorAddress) = .SUCCESS := by
  -- the first tip sends a vote that the mempool rejects: the validator state stays as it was
  have hsend₁ := VoteIfNeeded_sends fromBlock tip1.verdict hphase1 hblock1 hepoch1 hnone
    hlastTarget hlastSource
  set w₁ := (SendVote (tip1.finState.GetRecommendedVote w.validatorState.validatorAddress)
    tip1.verdict w).2 with hw₁
  have hstate₁ : w₁.validatorState = w.validatorState := by
    rw [hw₁, hrejected]
    rfl
  -- so the second tip passes the same checks and sends the conflicting vote
  have hphase₁ : GetFinalizerPhase tip2.finState w₁ = .ok .IS_VALIDATING := by
    rw [hw₁, GetFinalizerPhase_SendVote]
    exact hphase2
  have hnone₁ : w₁.validatorState.voteMap tip2.finState.recommendedTargetEpoch = none := by
    rw [hstate₁, htarget]
    exact hnone
  have hlastTarget₁ : w₁.validatorState.lastTargetEpoch ≤ tip2.finState.recommendedTargetEpoch := by
    rw [hstate₁, htarget]
    exact hlastTarget
  have hlastSource₁ : w₁.validatorState.lastSourceEpoch ≤ tip2.finState.expectedSourceEpoch := by
    rw [hstate₁, hsource]
    exact hlastSource
  have hsend₂ := VoteIfNeeded_sends fromBlock tip2.verdict hphase₁ hblock2 hepoch2 hnone₁
    hlastTarget₁ hlastSource₁
  rw [hstate₁] at hsend₂
  refine ⟨(SendVote (tip2.finState.GetRecommendedVote w.validatorState.validatorAddress)
      tip2.verdict w₁).2,
    ?run, ?votes, ?slashable⟩
  case run => simp [voteAtTips, hsend₁, hsend₂]
  case votes => simp [w₁]
  case slashable =>
    intro s validator hlookup hstart hslashed
    exact s.IsSlashable_double_vote rfl hlookup hstart hslashed htarget.symm hhash

def votingParams : Finalization.Params where
  epoch_length := 5
  min_deposit_size := 1500
  dynasty_logout_delay := 2
  withdrawal_epoch_delay := 5
  slash_fraction_multiplier := 3
  base_interest_factor := 0
  base_penalty_factor := 0
  admin_params := ⟨none, []⟩

/-- A tip in epoch 2 whose recommended target is the checkpoint `targetHash` of epoch 1, with
one finalizer, at address 7. -/
def forkState (targetHash : Uint256) : FinalizationState :=
  { FinalizationState.create votingParams with
    validators := Finmap.singleton 7 (Validator.create 1000 0 7)
    currentEpoch := 2
    recommendedTargetEpoch := 1
    recommendedTargetHash := targetHash }

def freshWallet : FinalizerWallet := ⟨⟨7, fun _ => none, 0, 0⟩, false, []⟩

def rejectingTip : Tip := ⟨7, forkState 11, .rejected⟩

def reorgTip : Tip := ⟨7, forkState 12, .accepted⟩

theorem rejected_vote_reorg_double_vote_witness :
    GetFinalizerPhase rejectingTip.finState freshWallet = .ok .IS_VALIDATING ∧
    GetFinalizerPhase reorgTip.finState freshWallet = .ok .IS_VALIDATING ∧
    (0 : UInt32) ≤ rejectingTip.height % rejectingTip.finState.settings.epoch_length ∧
    (0 : UInt32) ≤ reorgTip.height % reorgTip.finState.settings.epoch_length ∧
    rejectingTip.finState.currentEpoch = rejectingTip.finState.recommendedTargetEpoch + 1 ∧
    reorgTip.finState.currentEpoch = reorgTip.finState.recommendedTargetEpoch + 1 ∧
    reorgTip.finState.recommendedTargetEpoch = rejectingTip.finState.recommendedTargetEpoch ∧
    reorgTip.finState.expectedSourceEpoch = rejectingTip.finState.expectedSourceEpoch ∧
    rejectingTip.finState.recommendedTargetHash ≠ reorgTip.finState.recommendedTargetHash ∧
    freshWallet.validatorState.voteMap rejectingTip.finState.recommendedTargetEpoch = none ∧
    freshWallet.validatorState.lastTargetEpoch ≤ rejectingTip.finState.recommendedTargetEpoch ∧
    freshWallet.validatorState.lastSourceEpoch ≤ rejectingTip.finState.expectedSourceEpoch ∧
    rejectingTip.verdict = .rejected ∧
    ∃ w', voteAtTips 0 [rejectingTip, reorgTip] freshWallet = .ok w' ∧
      w'.votes = freshWallet.votes ++
        [rejectingTip.finState.GetRecommendedVote freshWallet.validatorState.validatorAddress,
         reorgTip.finState.GetRecommendedVote freshWallet.validatorState.validatorAddress] ∧
      ∀ (s : FinalizationState) (validator : Validator),
        s.validators.lookup freshWallet.validatorState.validatorAddress = some validator →
        validator.startDynasty ≤ s.currentDynasty → validator.isSlashed = false →
        s.IsSlashable
          (rejectingTip.finState.GetRecommendedVote freshWallet.validatorState.validatorAddress)
          (reorgTip.finState.GetRecommendedVote freshWallet.validatorState.validatorAddress) =
          .SUCCESS :=
  ⟨by decide, by decide, by decide, by decide, by decide, by decide, rfl, rfl, by decide, rfl,
    by decide, by decide, rfl,
    rejected_vote_reorg_double_vote 0 freshWallet rejectingTip reorgTip (by decide) (by decide)
      (by decide) (by decide) (by decide) (by decide) rfl rfl (by decide) rfl (by decide)
      (by decide) rfl⟩

end UnitE.Esperanza
