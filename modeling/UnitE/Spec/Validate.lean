import UnitE.Spec.State

/-! The checks of `FinalizationState` that read the state without changing it: whether a
deposit, vote, logout, withdrawal, slashing or admin command is consistent with it. Each
returns the first failing `Result` in the order of the source. -/

namespace UnitE.Esperanza.FinalizationState

open Finalization Ufp64

variable (s : FinalizationState)

/-- `IsVotable`: the target checkpoint exists and the finalizer has not voted for it, the
target is the recommended hash in the previous epoch, the source checkpoint is justified,
and the finalizer votes in the current or the previous dynasty. -/
def IsVotable (validator : Validator) (targetHash : Uint256) (targetEpoch sourceEpoch : UInt32) :
    Result :=
  match s.checkpoints targetEpoch with
  | none => .VOTE_MALFORMED
  | some targetCheckpoint =>
    if validator.validatorAddress ∈ targetCheckpoint.voteSet then .VOTE_ALREADY_VOTED
    else if targetHash ≠ s.recommendedTargetHash then .VOTE_WRONG_TARGET_HASH
    else if targetEpoch ≠ s.currentEpoch - 1 then .VOTE_WRONG_TARGET_EPOCH
    else match s.checkpoints sourceEpoch with
      | none => .VOTE_MALFORMED
      | some sourceCheckpoint =>
        if !sourceCheckpoint.isJustified then .VOTE_SRC_EPOCH_NOT_JUSTIFIED
        else if s.IsFinalizerVoting validator then .SUCCESS
        else .VOTE_NOT_VOTABLE

def ValidateDeposit (validatorAddress : Uint160) (depositValue : CAmount) : Result :=
  if !s.adminState.IsValidatorAuthorized validatorAddress then .ADMIN_BLACKLISTED
  else if validatorAddress ∈ s.validators then .DEPOSIT_DUPLICATE
  else if depositValue < s.settings.min_deposit_size then .DEPOSIT_INSUFFICIENT
  else .SUCCESS

def ValidateVote (vote : Vote) : Result :=
  if !s.adminState.IsValidatorAuthorized vote.validatorAddress then .ADMIN_BLACKLISTED
  else match s.validators.lookup vote.validatorAddress with
    | none => .VOTE_NOT_BY_VALIDATOR
    | some v => s.IsVotable v vote.targetHash vote.targetEpoch vote.sourceEpoch

def ValidateLogout (validatorAddress : Uint160) : Result :=
  match s.validators.lookup validatorAddress with
  | none => .LOGOUT_NOT_A_VALIDATOR
  | some validator =>
    if validator.startDynasty > s.currentDynasty then .LOGOUT_NOT_YET_A_VALIDATOR
    else if validator.endDynasty ≤ s.GetEndDynasty then .LOGOUT_ALREADY_DONE
    else .SUCCESS

/-- `CalculateWithdrawEpoch`: `UINT32_MAX` until the finalizer's end dynasty has passed,
then the start epoch of the next dynasty plus the withdrawal delay. -/
def CalculateWithdrawEpoch (finalizer : Validator) : Fallible UInt32 :=
  if finalizer.endDynasty = MAX_END_DYNASTY then pure 4294967295
  else if s.currentDynasty ≤ finalizer.endDynasty then pure 4294967295
  else match s.dynastyStartEpoch (finalizer.endDynasty + 1) with
    | none => .error .assertion
    | some end_epoch =>
      pure (UInt32.ofInt (end_epoch.toNat + s.settings.withdrawal_epoch_delay))

/-- `CalculateWithdrawAmount`: the result and the withdrawable amount. A slashed finalizer
loses the fraction `slash_fraction_multiplier` times the deposits slashed in the two
withdrawal delays before its withdrawal epoch, over the total deposits at its logout. -/
def CalculateWithdrawAmount (validatorAddress : Uint160) : Fallible (Result × Nat) :=
  match s.validators.lookup validatorAddress with
  | none => pure (.WITHDRAW_NOT_A_VALIDATOR, 0)
  | some validator => do
    let withdrawalEpoch ← s.CalculateWithdrawEpoch validator
    if s.currentEpoch < withdrawalEpoch then return (.WITHDRAW_TOO_EARLY, 0)
    let delay := s.settings.withdrawal_epoch_delay
    let endEpoch := UInt32.ofInt (withdrawalEpoch.toNat - delay)
    if !validator.isSlashed then
      let f ← s.GetDepositScaleFactor endEpoch
      return (.SUCCESS, mul_to_uint f validator.deposit)
    let baseEpoch : UInt32 :=
      if 2 * delay > withdrawalEpoch.toNat then 0
      else UInt32.ofInt (withdrawalEpoch.toNat - 2 * delay)
    let slashedTo ← s.GetTotalSlashed withdrawalEpoch
    let slashedFrom ← s.GetTotalSlashed baseEpoch
    let recentlySlashed := (slashedTo + 2 ^ 64 - slashedFrom) % 2 ^ 64
    let fractionToSlash ← div_2uint
      ((recentlySlashed * toUint64 s.settings.slash_fraction_multiplier) % 2 ^ 64)
      validator.depositsAtLogout
    let f ← s.GetDepositScaleFactor withdrawalEpoch
    let depositSize := mul_to_uint f validator.deposit
    if fractionToSlash ≥ to_ufp64 1 then return (.SUCCESS, 0)
    return (.SUCCESS, mul_to_uint (sub (to_ufp64 1) fractionToSlash) depositSize)

set_option linter.unusedVariables false in
/-- `ValidateWithdraw`. When `withdrawableAmount < requestedWithdraw` the source calls
`fail(WITHDRAW_WRONG_AMOUNT, ...)`, which only logs, drops its value and goes on to
`SUCCESS`; the requested amount therefore never decides the result. -/
def ValidateWithdraw (validatorAddress : Uint160) (requestedWithdraw : CAmount) :
    Fallible Result := do
  let (res, _) ← s.CalculateWithdrawAmount validatorAddress
  if res ≠ .SUCCESS then return res
  return .SUCCESS

def ValidateAdminKeys (adminKeys : AdminKeySet) : Result :=
  if s.adminState.IsAdminAuthorized adminKeys then .SUCCESS else .ADMIN_NOT_AUTHORIZED

/-- `IsSlashable`: two different votes of one finalizer that has started and is not
slashed, with the same target epoch or one surrounding the other. -/
def IsSlashable (vote1 vote2 : Vote) : Result :=
  match s.validators.lookup vote1.validatorAddress with
  | none => .SLASH_NOT_A_VALIDATOR
  | some validator1 =>
    match s.validators.lookup vote2.validatorAddress with
    | none => .SLASH_NOT_A_VALIDATOR
    | some validator2 =>
      if validator1.validatorAddress ≠ validator2.validatorAddress then .SLASH_NOT_SAME_VALIDATOR
      else if validator1.startDynasty > s.currentDynasty then .SLASH_TOO_EARLY
      else if validator1.isSlashed then .SLASH_ALREADY_SLASHED
      else if vote1.targetHash = vote2.targetHash then .SLASH_SAME_VOTE
      else
        let isDoubleVote := vote1.targetEpoch = vote2.targetEpoch
        let isSurroundVote :=
          (vote1.targetEpoch > vote2.targetEpoch ∧ vote1.sourceEpoch < vote2.sourceEpoch) ∨
          (vote2.targetEpoch > vote1.targetEpoch ∧ vote2.sourceEpoch < vote1.sourceEpoch)
        if isDoubleVote ∨ isSurroundVote then .SUCCESS else .SLASH_NOT_VALID

/-- `GetCurrentDynastyEpochStart`, which asserts that the dynasty has a start epoch. -/
def GetCurrentDynastyEpochStart : Fallible UInt32 :=
  match s.dynastyStartEpoch s.currentDynasty with
  | some e => .ok e
  | none => .error .assertion

def IsFinalizedCheckpoint (blockHeight : Height) : Bool :=
  s.settings.IsCheckpoint blockHeight && s.settings.GetEpoch blockHeight ≤ s.lastFinalizedEpoch

theorem ValidateDeposit_eq_success {validatorAddress : Uint160} {depositValue : CAmount} :
    s.ValidateDeposit validatorAddress depositValue = .SUCCESS ↔
      s.adminState.IsValidatorAuthorized validatorAddress = true ∧ validatorAddress ∉ s.validators ∧
        s.settings.min_deposit_size ≤ depositValue := by
  unfold ValidateDeposit
  split_ifs <;> simp_all

/-- Two votes of a started, unslashed finalizer for one target epoch with different target
hashes are a double vote. -/
theorem IsSlashable_double_vote {vote1 vote2 : Vote} {validator : Validator}
    (haddress : vote2.validatorAddress = vote1.validatorAddress)
    (hlookup : s.validators.lookup vote1.validatorAddress = some validator)
    (hstart : validator.startDynasty ≤ s.currentDynasty) (hslashed : validator.isSlashed = false)
    (hepoch : vote1.targetEpoch = vote2.targetEpoch) (hhash : vote1.targetHash ≠ vote2.targetHash) :
    s.IsSlashable vote1 vote2 = .SUCCESS := by
  unfold IsSlashable
  rw [haddress, hlookup]
  simp [hslashed, hepoch, hhash, UInt32.not_lt.mpr hstart]

theorem ValidateVote_eq_success {vote : Vote} (h : s.ValidateVote vote = .SUCCESS) :
    ∃ v cp cpSource, s.validators.lookup vote.validatorAddress = some v ∧
      s.checkpoints vote.targetEpoch = some cp ∧ v.validatorAddress ∉ cp.voteSet ∧
      vote.targetHash = s.recommendedTargetHash ∧ vote.targetEpoch = s.currentEpoch - 1 ∧
      s.checkpoints vote.sourceEpoch = some cpSource ∧ cpSource.isJustified = true ∧
      s.IsFinalizerVoting v = true := by
  unfold ValidateVote IsVotable at h
  cases hv : s.validators.lookup vote.validatorAddress with
  | none => simp only [hv] at h; split_ifs at h
  | some v =>
    cases hcp : s.checkpoints vote.targetEpoch with
    | none => simp only [hv, hcp] at h; split_ifs at h
    | some cp =>
      cases hsource : s.checkpoints vote.sourceEpoch with
      | none => simp only [hv, hcp, hsource] at h; split_ifs at h
      | some cpSource =>
        simp only [hv, hcp, hsource] at h
        split_ifs at h with hauth hvoted hhash hepoch hjustified hvoting
        exact ⟨v, cp, cpSource, rfl, rfl, hvoted, not_not.mp hhash, not_not.mp hepoch, rfl,
          by simpa using hjustified, hvoting⟩

theorem ValidateLogout_eq_success {validatorAddress : Uint160}
    (h : s.ValidateLogout validatorAddress = .SUCCESS) :
    ∃ v, s.validators.lookup validatorAddress = some v ∧ v.startDynasty ≤ s.currentDynasty ∧
      s.GetEndDynasty < v.endDynasty := by
  unfold ValidateLogout at h
  split at h
  · cases h
  · rename_i v hv
    split_ifs at h with hstart hend
    exact ⟨v, hv, UInt32.not_lt.mp hstart, UInt32.not_le.mp hend⟩

theorem IsSlashable_eq_success {vote1 vote2 : Vote} (h : s.IsSlashable vote1 vote2 = .SUCCESS) :
    ∃ v, s.validators.lookup vote1.validatorAddress = some v ∧
      v.startDynasty ≤ s.currentDynasty ∧ v.isSlashed = false := by
  unfold IsSlashable at h
  split at h
  · cases h
  · rename_i v hv
    split at h
    · cases h
    · split_ifs at h with haddress hstart hslashed
      exact ⟨v, hv, UInt32.not_lt.mp hstart, by simpa using hslashed⟩

theorem IsSlashable_too_early {vote1 vote2 : Vote} {validator : Validator}
    (haddress : vote2.validatorAddress = vote1.validatorAddress)
    (hlookup : s.validators.lookup vote1.validatorAddress = some validator)
    (hstart : s.currentDynasty < validator.startDynasty) :
    s.IsSlashable vote1 vote2 = .SLASH_TOO_EARLY := by
  unfold IsSlashable
  rw [haddress, hlookup]
  simp [hstart]

theorem ValidateVote_of_lookup {vote : Vote} {validator : Validator}
    (hauth : s.adminState.IsValidatorAuthorized vote.validatorAddress = true)
    (hlookup : s.validators.lookup vote.validatorAddress = some validator) :
    s.ValidateVote vote = s.IsVotable validator vote.targetHash vote.targetEpoch vote.sourceEpoch := by
  simp [ValidateVote, hauth, hlookup]

/-- `IsVotable` judges the vote, and never answers that its finalizer is blacklisted or
unknown. -/
theorem IsVotable_ne_of_finalizer (validator : Validator) (targetHash : Uint256)
    (targetEpoch sourceEpoch : UInt32) :
    s.IsVotable validator targetHash targetEpoch sourceEpoch ≠ .ADMIN_BLACKLISTED ∧
      s.IsVotable validator targetHash targetEpoch sourceEpoch ≠ .VOTE_NOT_BY_VALIDATOR := by
  unfold IsVotable
  -- every branch ends in a result of the vote itself
  repeat' split
  all_goals simp

/-- A withdrawal epoch the current epoch has reached is that of a finalizer whose end dynasty
has passed, unless the current epoch is `UINT32_MAX`. -/
theorem CalculateWithdrawEpoch_reached {finalizer : Validator} {withdrawalEpoch : UInt32}
    (h : s.CalculateWithdrawEpoch finalizer = .ok withdrawalEpoch)
    (hreached : withdrawalEpoch ≤ s.currentEpoch) (hepoch : s.currentEpoch < 4294967295) :
    finalizer.endDynasty < s.currentDynasty := by
  unfold CalculateWithdrawEpoch at h
  split_ifs at h with hmax hend
  · simp only [Except.pure_eq_ok_self, Except.ok.injEq] at h
    grind
  · simp only [Except.pure_eq_ok_self, Except.ok.injEq] at h
    grind
  · exact UInt32.not_le.mp hend

/-- A withdrawal that `ValidateWithdraw` accepts is of a finalizer whose withdrawal epoch has
come. -/
theorem ValidateWithdraw_eq_success {validatorAddress : Uint160} {requestedWithdraw : CAmount}
    (h : s.ValidateWithdraw validatorAddress requestedWithdraw = .ok .SUCCESS) :
    ∃ v withdrawalEpoch, s.validators.lookup validatorAddress = some v ∧
      s.CalculateWithdrawEpoch v = .ok withdrawalEpoch ∧ withdrawalEpoch ≤ s.currentEpoch := by
  simp only [ValidateWithdraw, Except.bind_eq_ok] at h
  obtain ⟨⟨res, amount⟩, hamount, hres⟩ := h
  have hsuccess : res = .SUCCESS := by
    by_contra hne
    simp [hne] at hres
  subst hsuccess
  unfold CalculateWithdrawAmount at hamount
  cases hv : s.validators.lookup validatorAddress with
  | none => simp [hv] at hamount
  | some v =>
    simp only [hv, Except.bind_eq_ok] at hamount
    obtain ⟨withdrawalEpoch, hepoch, hrest⟩ := hamount
    refine ⟨v, withdrawalEpoch, rfl, hepoch, ?_⟩
    by_contra hlate
    simp [UInt32.not_le.mp hlate] at hrest
end UnitE.Esperanza.FinalizationState
