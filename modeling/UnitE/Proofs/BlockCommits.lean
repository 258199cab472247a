import UnitE.Spec.Commits

/-! The finalizer commits of a block are checked against the parent block's state
(`ContextualCheckBlockFinalizerCommits`) and applied one after another
(`ProcessNewCommits`). A check against the parent state does not see the commits before it
in the same block: two deposits of one finalizer both pass, although the second is a
duplicate on the state it is applied to, and `ProcessDeposit` then counts the second deposit
in the dynasty delta without adding it to the finalizer. Two votes of one finalizer for one
target both pass in the same way, and `ProcessVote`, which does not look at the vote set,
counts the finalizer's deposit for the target twice. -/

namespace UnitE.Esperanza

open Ufp64

namespace FinalizationState

variable (hash160 : List UInt8 → Uint160)

theorem duplicate_deposit_block_accepted (s : FinalizationState) (height : Height)
    (blockHash : Uint256) (validatorAddress : Uint160) (d1 d2 : CAmount) (h1 h2 : Uint256)
    {f : ufp64_t} {x1 x2 : Nat}
    (hnew : s.status = .NEW) (hstart : s.settings.IsEpochStart height = false)
    (hvalid1 : s.ValidateDeposit validatorAddress d1 = .SUCCESS)
    (hvalid2 : s.ValidateDeposit validatorAddress d2 = .SUCCESS)
    (hf : s.depositScaleFactor s.currentEpoch = some f)
    (hdiv1 : div_to_uint (toUint64 d1) f = .ok x1) (hdiv2 : div_to_uint (toUint64 d2) f = .ok x2) :
    s.ContextualCheckBlockFinalizerCommits
        [.deposit validatorAddress d1 h1, .deposit validatorAddress d2 h2] ∧
      (∃ s₁, s.ProcessNewCommit hash160 (.deposit validatorAddress d1 h1) = .ok s₁ ∧
        s₁.ValidateDeposit validatorAddress d2 = .DEPOSIT_DUPLICATE) ∧
      ∃ s', s.ProcessNewCommits hash160 height blockHash
          [.deposit validatorAddress d1 h1, .deposit validatorAddress d2 h2] = .ok s' ∧
        (s'.validators.lookup validatorAddress).map Validator.deposit = some x1 ∧
        s'.dynastyDeltas (s.currentDynasty + 2) =
          some ((s.dynastyDeltas (s.currentDynasty + 2)).getD 0 + x1 + x2) := by
  obtain ⟨hauth, hnot, -⟩ := s.ValidateDeposit_eq_success.mp hvalid1
  -- the first deposit creates the finalizer
  set created := Validator.create x1 (s.currentDynasty + 2) validatorAddress
  set s₁ : FinalizationState := { s with
    validators := s.validators.insert validatorAddress { created with lastTransactionHash := h1 }
    dynastyDeltas := Function.update s.dynastyDeltas (s.currentDynasty + 2)
      (some ((s.dynastyDeltas (s.currentDynasty + 2)).getD 0 + x1)) }
  have hstep₁ : s.ProcessNewCommit hash160 (.deposit validatorAddress d1 h1) = .ok s₁ := by
    rw [s.ProcessNewCommit_deposit hash160 validatorAddress d1 h1 hf hdiv1,
      Finmap.lookup_eq_none.mpr hnot]
    rfl
  -- the second finds it, and only adds to the delta
  obtain ⟨s₂, hstep₂, hdeposit, hdelta⟩ : ∃ s₂,
      s₁.ProcessNewCommit hash160 (.deposit validatorAddress d2 h2) = .ok s₂ ∧
      (s₂.validators.lookup validatorAddress).map Validator.deposit = some x1 ∧
      s₂.dynastyDeltas (s.currentDynasty + 2) =
        some ((s.dynastyDeltas (s.currentDynasty + 2)).getD 0 + x1 + x2) :=
    ⟨_, s₁.ProcessNewCommit_deposit hash160 validatorAddress d2 h2 hf hdiv2,
      by simp [s₁, created, Validator.create],
      by simp [s₁, add_assoc]⟩
  have hfold : [CommitTx.deposit validatorAddress d1 h1, .deposit validatorAddress d2 h2].foldlM
      (ProcessNewCommit hash160) s = .ok s₂ := by
    simp [hstep₁, hstep₂]
  refine ⟨?check, ⟨s₁, hstep₁, ?duplicate⟩, _,
    (s.ProcessNewCommits_eq_ok hash160).mpr ⟨hnew, s, s₂, s.startEpoch_of_not_epochStart hstart, hfold, rfl⟩,
    by simpa using hdeposit, by simpa using hdelta⟩
  case check => simp [ContextualCheckBlockFinalizerCommits, ValidateCommit, hvalid1, hvalid2]
  case duplicate => simp [ValidateDeposit, s₁, hauth]

def depositParams : Finalization.Params where
  epoch_length := 5
  min_deposit_size := 1500
  dynasty_logout_delay := 2
  withdrawal_epoch_delay := 5
  slash_fraction_multiplier := 3
  base_interest_factor := 0
  base_penalty_factor := 0
  admin_params := ⟨none, []⟩

theorem duplicate_deposit_block_accepted_witness :
    (create depositParams).status = .NEW ∧ (create depositParams).settings.IsEpochStart 2 = false ∧
    (create depositParams).ValidateDeposit 7 1500 = .SUCCESS ∧
    (create depositParams).ValidateDeposit 7 2000 = .SUCCESS ∧
    (create depositParams).depositScaleFactor (create depositParams).currentEpoch =
      some BASE_DEPOSIT_SCALE_FACTOR ∧
    div_to_uint (toUint64 1500) BASE_DEPOSIT_SCALE_FACTOR = .ok 1500 ∧
    div_to_uint (toUint64 2000) BASE_DEPOSIT_SCALE_FACTOR = .ok 2000 ∧
    ((create depositParams).ContextualCheckBlockFinalizerCommits [.deposit 7 1500 1, .deposit 7 2000 2] ∧
      (∃ s₁, (create depositParams).ProcessNewCommit (fun _ => 0) (.deposit 7 1500 1) = .ok s₁ ∧
        s₁.ValidateDeposit 7 2000 = .DEPOSIT_DUPLICATE) ∧
      ∃ s', (create depositParams).ProcessNewCommits (fun _ => 0) 2 0
          [.deposit 7 1500 1, .deposit 7 2000 2] = .ok s' ∧
        (s'.validators.lookup 7).map Validator.deposit = some 1500 ∧
        s'.dynastyDeltas ((create depositParams).currentDynasty + 2) =
          some (((create depositParams).dynastyDeltas ((create depositParams).currentDynasty + 2)).getD 0 +
            (1500 : Nat) + (2000 : Nat))) :=
  ⟨rfl, by decide, by decide, by decide, rfl, by decide, by decide,
    duplicate_deposit_block_accepted (fun _ => 0) (create depositParams) 2 0 7 1500 2000 1 2
      rfl (by decide) (by decide) (by decide) rfl (by decide) (by decide)⟩

theorem duplicate_vote_block_counted_twice (s : FinalizationState) (height : Height)
    (blockHash : Uint256) (vote : Vote) (h1 h2 : Uint256) {v : Validator} {f : ufp64_t}
    (hnew : s.status = .NEW) (hstart : s.settings.IsEpochStart height = false)
    (hvalid : s.ValidateVote vote = .SUCCESS)
    (hv : s.validators.lookup vote.validatorAddress = some v)
    (haddress : v.validatorAddress = vote.validatorAddress)
    (hin : IsInDynasty v s.currentDynasty = true)
    (hf : s.depositScaleFactor s.currentEpoch = some f) :
    s.ContextualCheckBlockFinalizerCommits [.vote vote h1, .vote vote h2] ∧
      (∃ s₁, s.ProcessNewCommit hash160 (.vote vote h1) = .ok s₁ ∧
        s₁.ValidateVote vote = .VOTE_ALREADY_VOTED) ∧
      ∃ cp s' cp', s.checkpoints vote.targetEpoch = some cp ∧
        s.ProcessNewCommits hash160 height blockHash [.vote vote h1, .vote vote h2] = .ok s' ∧
        s'.checkpoints vote.targetEpoch = some cp' ∧
        (cp.curDynastyVotes vote.sourceEpoch).getD 0 + 2 * v.deposit ≤
          (cp'.curDynastyVotes vote.sourceEpoch).getD 0 := by
  obtain ⟨v₀, cp, -, hv₀, hcp, -⟩ := s.ValidateVote_eq_success hvalid
  obtain rfl : v = v₀ := Option.some.inj (hv.symm.trans hv₀)
  have hauth : s.adminState.IsValidatorAuthorized vote.validatorAddress = true := by
    by_contra hno
    rw [Bool.not_eq_true] at hno
    simp [ValidateVote, hno] at hvalid
  -- the first vote counts the deposit and records the finalizer in the vote set
  obtain ⟨s₁, cp₁, r₁, hstep₁, hcp₁, hvotes₁, hset₁, hv₁, hframe₁⟩ :=
    s.ProcessNewCommit_vote_counted hash160 h1 hcp hv hf
  have hD₁ : s₁.currentDynasty = s.currentDynasty := by rw [hframe₁]
  have hf₁ : s₁.depositScaleFactor s₁.currentEpoch = some f := by rw [hframe₁]; exact hf
  have hauth₁ : s₁.adminState = s.adminState := by rw [hframe₁]
  -- so the second one is a repeat on the state it is applied to
  have hrepeat : s₁.ValidateVote vote = .VOTE_ALREADY_VOTED := by
    simp [ValidateVote, IsVotable, hauth₁, hauth, hv₁, hcp₁, haddress, hset₁]
  -- and it counts the deposit, with the reward, once more
  obtain ⟨s₂, cp₂, r₂, hstep₂, hcp₂, hvotes₂, -, -, -⟩ :=
    s₁.ProcessNewCommit_vote_counted hash160 h2 hcp₁ hv₁ hf₁
  have hin₁ : IsInDynasty { v with deposit := v.deposit + r₁, lastTransactionHash := h1 }
      s₁.currentDynasty = true := by
    rw [hD₁]
    exact hin
  have hfold : [CommitTx.vote vote h1, .vote vote h2].foldlM (ProcessNewCommit hash160) s =
      .ok s₂ := by
    simp [hstep₁, hstep₂]
  refine ⟨?check, ⟨s₁, hstep₁, hrepeat⟩, cp, _,
    cp₂, hcp, (s.ProcessNewCommits_eq_ok hash160).mpr
      ⟨hnew, s, s₂, s.startEpoch_of_not_epochStart hstart, hfold, rfl⟩, by simpa using hcp₂, ?count⟩
  case check => simp [ContextualCheckBlockFinalizerCommits, ValidateCommit, hvalid]
  case count =>
    rw [hvotes₂, hvotes₁, hin₁, hin]
    simp only [Option.getD_some, if_true]
    omega

def regTestVoting : FinalizationState :=
  { create Finalization.Params.RegTest with
    currentEpoch := 1
    validators := (∅ : ValidatorMap).insert 7 (Validator.create 150000000000 0 7)
    depositScaleFactor := Function.update (create Finalization.Params.RegTest).depositScaleFactor 1
      (some BASE_DEPOSIT_SCALE_FACTOR) }

theorem duplicate_vote_block_counted_twice_witness :
    regTestVoting.status = .NEW ∧ regTestVoting.settings.IsEpochStart 2 = false ∧
    regTestVoting.ValidateVote ⟨7, 0, 0, 0⟩ = .SUCCESS ∧
    regTestVoting.validators.lookup 7 = some (Validator.create 150000000000 0 7) ∧
    (Validator.create 150000000000 0 7).validatorAddress = 7 ∧
    IsInDynasty (Validator.create 150000000000 0 7) regTestVoting.currentDynasty = true ∧
    regTestVoting.depositScaleFactor regTestVoting.currentEpoch = some BASE_DEPOSIT_SCALE_FACTOR ∧
    (regTestVoting.ContextualCheckBlockFinalizerCommits [.vote ⟨7, 0, 0, 0⟩ 1, .vote ⟨7, 0, 0, 0⟩ 2] ∧
      (∃ s₁, regTestVoting.ProcessNewCommit (fun _ => 0) (.vote ⟨7, 0, 0, 0⟩ 1) = .ok s₁ ∧
        s₁.ValidateVote ⟨7, 0, 0, 0⟩ = .VOTE_ALREADY_VOTED) ∧
      ∃ cp s' cp', regTestVoting.checkpoints 0 = some cp ∧
        regTestVoting.ProcessNewCommits (fun _ => 0) 2 0
          [.vote ⟨7, 0, 0, 0⟩ 1, .vote ⟨7, 0, 0, 0⟩ 2] = .ok s' ∧
        s'.checkpoints 0 = some cp' ∧
        (cp.curDynastyVotes 0).getD 0 + 2 * 150000000000 ≤ (cp'.curDynastyVotes 0).getD 0) := by
  have hv : regTestVoting.validators.lookup 7 = some (Validator.create 150000000000 0 7) := by
    decide
  exact ⟨rfl, by decide, by decide, hv, rfl, by decide, rfl,
    duplicate_vote_block_counted_twice (fun _ => 0) regTestVoting 2 0 ⟨7, 0, 0, 0⟩ 1 2
      rfl (by decide) (by decide) hv rfl (by decide) rfl⟩

end FinalizationState

end UnitE.Esperanza
