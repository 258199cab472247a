import UnitE.Spec.Validate

/-! The operations of `FinalizationState` that apply a finalizer commit: deposit, vote
(with its reward), logout, withdrawal, slashing and admin commands. Each may abort where
the source asserts or calls `std::map::at`; the validity checks are separate
(`UnitE.Spec.Validate`). -/

namespace UnitE.Esperanza

open Finalization Ufp64

inductive AdminCommandType
  | ADD_TO_WHITELIST
  | REMOVE_FROM_WHITELIST
  | RESET_ADMINS
  | END_PERMISSIONING
  deriving DecidableEq, Repr

structure AdminCommand where
  commandType : AdminCommandType
  payload : List CPubKey
  deriving DecidableEq, Repr

namespace FinalizationState

variable (s : FinalizationState)

/-- `ProcessReward`: adds `reward` to the finalizer's deposit and to the dynasty totals it
counts in, and moves the delta at its end dynasty. The returned amount is the deposit
scaled to the current epoch. -/
def ProcessReward (validatorAddress : Uint160) (reward : Nat) :
    Fallible (Nat × FinalizationState) := do
  let validator ← s.validatorAt validatorAddress
  let validator := { validator with deposit := validator.deposit + reward }
  let s := s.setValidator validatorAddress validator
  let startDynasty := validator.startDynasty
  let endDynasty := validator.endDynasty
  let s := { s with
    curDynDeposits := if startDynasty ≤ s.currentDynasty ∧ s.currentDynasty < endDynasty then
      s.curDynDeposits + reward else s.curDynDeposits }
  let s := { s with
    prevDynDeposits := if startDynasty ≤ s.currentDynasty - 1 ∧ s.currentDynasty - 1 < endDynasty then
      s.prevDynDeposits + reward else s.prevDynDeposits }
  let s := if endDynasty < MAX_END_DYNASTY then s.addDynastyDelta endDynasty (-reward) else s
  let f ← s.GetDepositScaleFactor s.currentEpoch
  pure (mul_to_uint f validator.deposit, s)

/-- `ProcessDeposit`: the new finalizer starts two dynasties ahead with its deposit scaled
to the current epoch. `std::map::insert` keeps an existing entry. -/
def ProcessDeposit (validatorAddress : Uint160) (depositValue : CAmount) :
    Fallible FinalizationState := do
  let startDynasty := s.currentDynasty + 2
  let f ← s.GetDepositScaleFactor s.currentEpoch
  let scaledDeposit ← div_to_uint (toUint64 depositValue) f
  let validators :=
    if validatorAddress ∈ s.validators then s.validators
    else s.validators.insert validatorAddress
      (Validator.create scaledDeposit startDynasty validatorAddress)
  pure ({ s with validators := validators }.addDynastyDelta startDynasty scaledDeposit)

def CalculateVoteReward (validator : Validator) : Nat := mul_to_uint s.rewardFactor validator.deposit

/-- The first part of `ProcessVote` on the target checkpoint: the finalizer joins the vote
set, the vote counts from the source epoch are created as 0 (`GetCurDynastyVotes`,
`GetPrevDynastyVotes`), and each is raised by the deposit when the finalizer is in that
dynasty. Returns the two counts and the checkpoint. -/
def countVote (cp : Checkpoint) (vote : Vote) (validator : Validator) (inCurDynasty inPrevDynasty : Bool) :
    Nat × Nat × Checkpoint :=
  let cp := { cp with voteSet := insert vote.validatorAddress cp.voteSet }
  let (curDynastyVotes, curMap) := emplaceZero cp.curDynastyVotes vote.sourceEpoch
  let (prevDynastyVotes, prevMap) := emplaceZero cp.prevDynastyVotes vote.sourceEpoch
  let cp := { cp with curDynastyVotes := curMap, prevDynastyVotes := prevMap }
  let curDynastyVotes := if inCurDynasty then curDynastyVotes + validator.deposit
    else curDynastyVotes
  let cp := if inCurDynasty then
    { cp with
      curDynastyVotes := Function.update cp.curDynastyVotes vote.sourceEpoch (some curDynastyVotes) }
    else cp
  let prevDynastyVotes := if inPrevDynasty then prevDynastyVotes + validator.deposit
    else prevDynastyVotes
  let cp := if inPrevDynasty then
    { cp with
      prevDynastyVotes := Function.update cp.prevDynastyVotes vote.sourceEpoch (some prevDynastyVotes) }
    else cp
  (curDynastyVotes, prevDynastyVotes, cp)

/-- The reward part of `ProcessVote`: a vote from the expected source epoch is rewarded
with `CalculateVoteReward`. -/
def rewardVote (vote : Vote) (validator : Validator) : Fallible FinalizationState :=
  if s.expectedSourceEpoch = vote.sourceEpoch then
    Prod.snd <$> s.ProcessReward vote.validatorAddress (s.CalculateVoteReward validator)
  else pure s

/-- The last part of `ProcessVote`: with two thirds of both dynasties' deposits the target
is justified, and also finalized when it directly follows the source; the checkpoint is
written back. -/
def justifyTarget (cp : Checkpoint) (vote : Vote) (curDynastyVotes prevDynastyVotes : Nat) :
    Fallible FinalizationState := do
  let curThreshold ← div_to_uint (toUint64 (s.curDynDeposits * 2)) (to_ufp64 3)
  let prevThreshold ← div_to_uint (toUint64 (s.prevDynDeposits * 2)) (to_ufp64 3)
  let enoughVotes := decide (curDynastyVotes ≥ curThreshold) && decide (prevDynastyVotes ≥ prevThreshold)
  if enoughVotes && !cp.isJustified then
    let cp := { cp with isJustified := true }
    let s := { s with lastJustifiedEpoch := vote.targetEpoch }
    if vote.targetEpoch = vote.sourceEpoch + 1 then
      pure ({ s with lastFinalizedEpoch := vote.targetEpoch }.setCheckpoint vote.targetEpoch
        { cp with isFinalized := true })
    else pure (s.setCheckpoint vote.targetEpoch cp)
  else pure (s.setCheckpoint vote.targetEpoch cp)

/-- `ProcessVote`: the vote is recorded and counted in the target checkpoint, rewarded, and
may justify the target. The source re-reads `GetCheckpoint(targetEpoch)` at each use;
nothing in between removes it, so one read carries the checkpoint through. -/
def ProcessVote (vote : Vote) : Fallible FinalizationState := do
  let cp ← s.GetCheckpoint vote.targetEpoch
  let validator ← s.validatorAt vote.validatorAddress
  let (curDynastyVotes, prevDynastyVotes, cp) := countVote cp vote validator
    (IsInDynasty validator s.currentDynasty) (IsInDynasty validator (s.currentDynasty - 1))
  let s ← s.rewardVote vote validator
  s.justifyTarget cp vote curDynastyVotes prevDynastyVotes

/-- `ProcessLogout`: the finalizer leaves after the logout delay, and its deposit is
taken out of the total at that dynasty. -/
def ProcessLogout (validatorAddress : Uint160) : Fallible FinalizationState := do
  let validator ← s.validatorAt validatorAddress
  let endDyn := s.GetEndDynasty
  let s := s.setValidator validatorAddress
    { validator with endDynasty := endDyn, depositsAtLogout := toUint64 s.curDynDeposits }
  pure (s.addDynastyDelta endDyn (-validator.deposit))

/-- `ProcessWithdraw`, which deletes the finalizer. -/
def ProcessWithdraw (validatorAddress : Uint160) : FinalizationState :=
  { s with validators := s.validators.erase validatorAddress }

/-- One command of `ProcessAdminCommands`; `hash160` computes `CPubKey::GetID`. -/
def processAdminCommand (hash160 : List UInt8 → Uint160) (a : AdminState) (command : AdminCommand) :
    AdminState :=
  match command.commandType with
  | .ADD_TO_WHITELIST =>
    command.payload.foldl (fun a pubkey => a.AddValidator (pubkey.GetID hash160)) a
  | .REMOVE_FROM_WHITELIST =>
    command.payload.foldl (fun a pubkey => a.RemoveValidator (pubkey.GetID hash160)) a
  | .RESET_ADMINS => a.ResetAdmin (command.payload.take ADMIN_MULTISIG_KEYS)
  | .END_PERMISSIONING => a.EndPermissioning

def ProcessAdminCommands (hash160 : List UInt8 → Uint160) (commands : List AdminCommand) :
    FinalizationState :=
  { s with adminState := commands.foldl (processAdminCommand hash160) s.adminState }

/-- `ProcessSlash`: the slashed deposit is added to the epoch's total, and a finalizer that
has not left yet is logged out at the next dynasty, replacing a logout already scheduled. -/
def ProcessSlash (vote1 _vote2 : Vote) : Fallible FinalizationState := do
  let validatorAddress := vote1.validatorAddress
  let validatorDeposit := s.GetDepositSize validatorAddress
  let totalSlashed ← s.GetTotalSlashed s.currentEpoch
  let s := { s with
    totalSlashed := Function.update s.totalSlashed s.currentEpoch (some (totalSlashed + validatorDeposit)) }
  let validator ← s.validatorAt validatorAddress
  let validator := { validator with isSlashed := true }
  let s := s.setValidator validatorAddress validator
  let endDynasty := validator.endDynasty
  if s.currentDynasty < endDynasty then
    let deposit := validator.deposit
    let s := s.addDynastyDelta (s.currentDynasty + 1) (-deposit)
    let validator := { validator with endDynasty := s.currentDynasty + 1 }
    let s := s.setValidator validatorAddress validator
    if endDynasty < MAX_END_DYNASTY then
      pure (s.addDynastyDelta endDynasty deposit)
    else
      let total ← s.GetTotalCurDynDeposits
      pure (s.setValidator validatorAddress { validator with depositsAtLogout := total })
  else pure s

def RegisterLastTx (validatorAddress : Uint160) (txHash : Uint256) : Fallible FinalizationState := do
  let validator ← s.validatorAt validatorAddress
  pure (s.setValidator validatorAddress { validator with lastTransactionHash := txHash })

theorem ProcessDeposit_eq_ok {validatorAddress : Uint160} {depositValue : CAmount} {f : ufp64_t}
    {scaledDeposit : Nat} (hf : s.depositScaleFactor s.currentEpoch = some f)
    (hdiv : div_to_uint (toUint64 depositValue) f = .ok scaledDeposit) :
    s.ProcessDeposit validatorAddress depositValue =
      .ok ({ s with
        validators :=
          if validatorAddress ∈ s.validators then s.validators
          else s.validators.insert validatorAddress
            (Validator.create scaledDeposit (s.currentDynasty + 2) validatorAddress) }.addDynastyDelta
        (s.currentDynasty + 2) scaledDeposit) := by
  have hf' : s.GetDepositScaleFactor s.currentEpoch = .ok f := by simpa using hf
  simp [ProcessDeposit, hf', hdiv]

theorem RegisterLastTx_eq_ok {validatorAddress : Uint160} {txHash : Uint256} {v : Validator}
    (h : s.validators.lookup validatorAddress = some v) :
    s.RegisterLastTx validatorAddress txHash =
      .ok (s.setValidator validatorAddress { v with lastTransactionHash := txHash }) := by
  have h' : s.validatorAt validatorAddress = .ok v := by simpa using h
  simp [RegisterLastTx, h']

/-- `ProcessReward` adds the reward to the finalizer's deposit, to the totals of the
dynasties it is in, and takes it out of the delta at its end dynasty. -/
theorem ProcessReward_eq_ok {validatorAddress : Uint160} {reward r : Nat} {s' : FinalizationState}
    (h : s.ProcessReward validatorAddress reward = .ok (r, s')) :
    ∃ v, s.validators.lookup validatorAddress = some v ∧
      s' = { s with
        validators := s.validators.insert validatorAddress { v with deposit := v.deposit + reward }
        curDynDeposits :=
          if v.startDynasty ≤ s.currentDynasty ∧ s.currentDynasty < v.endDynasty then
            s.curDynDeposits + reward
          else s.curDynDeposits
        prevDynDeposits :=
          if v.startDynasty ≤ s.currentDynasty - 1 ∧ s.currentDynasty - 1 < v.endDynasty then
            s.prevDynDeposits + reward
          else s.prevDynDeposits
        dynastyDeltas := if v.endDynasty < MAX_END_DYNASTY then
            Function.update s.dynastyDeltas v.endDynasty
              (some ((s.dynastyDeltas v.endDynasty).getD 0 - reward))
          else s.dynastyDeltas } := by
  simp only [ProcessReward, setValidator, Except.bind_eq_ok, validatorAt_eq_ok] at h
  obtain ⟨v, hv, f, -, hres⟩ := h
  refine ⟨v, hv, ?_⟩
  simp only [Except.pure_eq_ok_self, Except.ok.injEq, Prod.mk.injEq] at hres
  rw [← hres.2]
  -- the totals agree up to the updated validator in their decidability instances
  by_cases hend : v.endDynasty < MAX_END_DYNASTY
  · rw [if_pos hend, addDynastyDelta_eq, if_pos hend, Int.sub_eq_add_neg]
    rfl
  · rw [if_neg hend, if_neg hend]
    rfl

theorem RegisterLastTx_eq_ok_iff {validatorAddress : Uint160} {txHash : Uint256}
    {s' : FinalizationState} :
    s.RegisterLastTx validatorAddress txHash = .ok s' ↔
      ∃ v, s.validators.lookup validatorAddress = some v ∧
        s' = s.setValidator validatorAddress { v with lastTransactionHash := txHash } := by
  simp only [RegisterLastTx, Except.bind_eq_ok, validatorAt_eq_ok, Except.pure_eq_ok_self,
    Except.ok.injEq]
  exact exists_congr fun _ => and_congr_right fun _ => eq_comm

theorem ProcessLogout_eq_ok {validatorAddress : Uint160} {s' : FinalizationState}
    (h : s.ProcessLogout validatorAddress = .ok s') :
    ∃ v, s.validators.lookup validatorAddress = some v ∧
      s' = { s with
        validators := s.validators.insert validatorAddress
          { v with endDynasty := s.GetEndDynasty, depositsAtLogout := toUint64 s.curDynDeposits }
        dynastyDeltas := Function.update s.dynastyDeltas s.GetEndDynasty
          (some ((s.dynastyDeltas s.GetEndDynasty).getD 0 - v.deposit)) } := by
  simp only [ProcessLogout, Except.bind_eq_ok, validatorAt_eq_ok] at h
  obtain ⟨v, hv, hres⟩ := h
  refine ⟨v, hv, ?_⟩
  simp only [Except.pure_eq_ok_self, Except.ok.injEq] at hres
  rw [← hres]
  simp [setValidator, addDynastyDelta_eq, sub_eq_add_neg, GetEndDynasty]

theorem rewardVote_eq_ok {vote : Vote} {validator : Validator} {s' : FinalizationState}
    (h : s.rewardVote vote validator = .ok s') :
    s' = s ∨ s.expectedSourceEpoch = vote.sourceEpoch ∧
      ∃ r, s.ProcessReward vote.validatorAddress (s.CalculateVoteReward validator) = .ok (r, s') := by
  unfold rewardVote at h
  split_ifs at h with hsource
  · obtain ⟨⟨r, s''⟩, hreward, rfl⟩ := Except.map_eq_ok.mp h
    exact .inr ⟨hsource, r, hreward⟩
  · simp only [Except.pure_eq_ok_self, Except.ok.injEq] at h
    exact .inl h.symm

/-- `justifyTarget` writes the checkpoint back, justified (and finalized when the target
follows the source) when the votes are enough and it was not justified before. -/
theorem justifyTarget_eq_ok {cp : Checkpoint} {vote : Vote} {curDynastyVotes prevDynastyVotes : Nat}
    {s' : FinalizationState}
    (h : s.justifyTarget cp vote curDynastyVotes prevDynastyVotes = .ok s') :
    s' = s.setCheckpoint vote.targetEpoch cp ∨
      cp.isJustified = false ∧ vote.targetEpoch ≠ vote.sourceEpoch + 1 ∧
        s' = { s with lastJustifiedEpoch := vote.targetEpoch }.setCheckpoint vote.targetEpoch
          { cp with isJustified := true } ∨
      cp.isJustified = false ∧ vote.targetEpoch = vote.sourceEpoch + 1 ∧
        s' = { s with lastJustifiedEpoch := vote.targetEpoch,
                      lastFinalizedEpoch := vote.targetEpoch }.setCheckpoint vote.targetEpoch
          { cp with isJustified := true, isFinalized := true } := by
  simp only [justifyTarget, Except.bind_eq_ok] at h
  obtain ⟨curThreshold, -, prevThreshold, -, hres⟩ := h
  split_ifs at hres with henough htarget
  · simp only [Except.pure_eq_ok_self, Except.ok.injEq] at hres
    have hjustified : cp.isJustified = false := by simp_all
    exact .inr (.inr ⟨hjustified, htarget, hres.symm⟩)
  · simp only [Except.pure_eq_ok_self, Except.ok.injEq] at hres
    have hjustified : cp.isJustified = false := by simp_all
    exact .inr (.inl ⟨hjustified, htarget, hres.symm⟩)
  · simp only [Except.pure_eq_ok_self, Except.ok.injEq] at hres
    exact .inl hres.symm

theorem ProcessVote_eq_ok {vote : Vote} {s' : FinalizationState} (h : s.ProcessVote vote = .ok s') :
    ∃ cp validator s₁, s.checkpoints vote.targetEpoch = some cp ∧
      s.validators.lookup vote.validatorAddress = some validator ∧
      s.rewardVote vote validator = .ok s₁ ∧
      s₁.justifyTarget
        (countVote cp vote validator (IsInDynasty validator s.currentDynasty)
          (IsInDynasty validator (s.currentDynasty - 1))).2.2 vote
        (countVote cp vote validator (IsInDynasty validator s.currentDynasty)
          (IsInDynasty validator (s.currentDynasty - 1))).1
        (countVote cp vote validator (IsInDynasty validator s.currentDynasty)
          (IsInDynasty validator (s.currentDynasty - 1))).2.1 = .ok s' := by
  simp only [ProcessVote, Except.bind_eq_ok, GetCheckpoint_eq_ok, validatorAt_eq_ok] at h
  obtain ⟨cp, hcp, validator, hvalidator, s₁, hreward, hjustify⟩ := h
  exact ⟨cp, validator, s₁, hcp, hvalidator, hreward, hjustify⟩

/-- The count `countVote` returns is the one it writes at the source epoch: the old count
(0 when absent), raised by the deposit in the current dynasty. -/
theorem countVote_fst (cp : Checkpoint) (vote : Vote) (validator : Validator)
    (inCurDynasty inPrevDynasty : Bool) :
    (countVote cp vote validator inCurDynasty inPrevDynasty).1 =
      (cp.curDynastyVotes vote.sourceEpoch).getD 0 +
        if inCurDynasty then validator.deposit else 0 := by
  unfold countVote emplaceZero
  cases hcur : cp.curDynastyVotes vote.sourceEpoch <;> cases inCurDynasty <;> simp [hcur]

theorem countVote_curDynastyVotes (cp : Checkpoint) (vote : Vote) (validator : Validator)
    (inCurDynasty inPrevDynasty : Bool) :
    (countVote cp vote validator inCurDynasty inPrevDynasty).2.2.curDynastyVotes vote.sourceEpoch =
      some (countVote cp vote validator inCurDynasty inPrevDynasty).1 := by
  unfold countVote emplaceZero
  cases hcur : cp.curDynastyVotes vote.sourceEpoch <;>
    cases hprev : cp.prevDynastyVotes vote.sourceEpoch <;>
    cases inCurDynasty <;> cases inPrevDynasty <;> simp [hcur]

@[simp] theorem countVote_voteSet (cp : Checkpoint) (vote : Vote) (validator : Validator)
    (inCurDynasty inPrevDynasty : Bool) :
    (countVote cp vote validator inCurDynasty inPrevDynasty).2.2.voteSet =
      insert vote.validatorAddress cp.voteSet := by
  unfold countVote emplaceZero
  cases cp.curDynastyVotes vote.sourceEpoch <;> cases cp.prevDynastyVotes vote.sourceEpoch <;>
    cases inCurDynasty <;> cases inPrevDynasty <;> rfl

/-- The thresholds divide by `to_ufp64(3)`, which is not zero, so `justifyTarget` always
returns. -/
theorem justifyTarget_ok (cp : Checkpoint) (vote : Vote) (curDynastyVotes prevDynastyVotes : Nat) :
    ∃ s', s.justifyTarget cp vote curDynastyVotes prevDynastyVotes = .ok s' := by
  have hthree : to_ufp64 3 ≠ 0 := by simp [to_ufp64, SCALE]
  -- rewriting, not simp: a simp proof through the thresholds is slow for the kernel
  unfold justifyTarget
  rw [div_to_uint_of_ne_zero _ hthree, Except.ok_bind, div_to_uint_of_ne_zero _ hthree,
    Except.ok_bind]
  dsimp only
  split_ifs <;> exact ⟨_, rfl⟩

theorem justifyTarget_checkpoint {cp : Checkpoint} {vote : Vote}
    {curDynastyVotes prevDynastyVotes : Nat} {s' : FinalizationState}
    (h : s.justifyTarget cp vote curDynastyVotes prevDynastyVotes = .ok s') :
    ∃ cp', s'.checkpoints vote.targetEpoch = some cp' ∧
      cp'.curDynastyVotes = cp.curDynastyVotes ∧ cp'.voteSet = cp.voteSet := by
  rcases s.justifyTarget_eq_ok h with rfl | ⟨-, -, rfl⟩ | ⟨-, -, rfl⟩ <;>
    exact ⟨_, Function.update_self _ _ _, rfl, rfl⟩

/-- `ProcessReward` returns for a finalizer that exists when the epoch has a deposit scale
factor. -/
theorem ProcessReward_ok {validatorAddress : Uint160} {v : Validator} {f : ufp64_t}
    (reward : Nat) (hv : s.validators.lookup validatorAddress = some v)
    (hf : s.depositScaleFactor s.currentEpoch = some f) :
    ∃ r s', s.ProcessReward validatorAddress reward = .ok (r, s') := by
  have hv' : s.validatorAt validatorAddress = .ok v := by simpa using hv
  simp only [ProcessReward, hv', Except.ok_bind]
  split_ifs <;> simp [addDynastyDelta_eq, setValidator, GetDepositScaleFactor, hf]

/-- What `ProcessVote` writes: the validators, the totals and deltas through the reward, and
the checkpoints and the last justified and finalized epochs through the justification. -/
theorem ProcessVote_frame {vote : Vote} {s' : FinalizationState} (h : s.ProcessVote vote = .ok s') :
    s' = { s with
      validators := s'.validators
      checkpoints := s'.checkpoints
      curDynDeposits := s'.curDynDeposits
      prevDynDeposits := s'.prevDynDeposits
      dynastyDeltas := s'.dynastyDeltas
      lastJustifiedEpoch := s'.lastJustifiedEpoch
      lastFinalizedEpoch := s'.lastFinalizedEpoch } := by
  obtain ⟨cp, validator, s₁, -, -, hreward, hjustify⟩ := s.ProcessVote_eq_ok h
  have hs₁ : s₁ = { s with
      validators := s₁.validators
      curDynDeposits := s₁.curDynDeposits
      prevDynDeposits := s₁.prevDynDeposits
      dynastyDeltas := s₁.dynastyDeltas } := by
    rcases s.rewardVote_eq_ok hreward with rfl | ⟨-, r, hr⟩
    · rfl
    · obtain ⟨v, -, rfl⟩ := s.ProcessReward_eq_ok hr
      rfl
  rw [hs₁] at hjustify
  rcases FinalizationState.justifyTarget_eq_ok _ hjustify with rfl | ⟨-, -, rfl⟩ | ⟨-, -, rfl⟩ <;> rfl

theorem ProcessVote_validator {vote : Vote} {s' : FinalizationState} {v : Validator}
    (h : s.ProcessVote vote = .ok s') (hv : s.validators.lookup vote.validatorAddress = some v) :
    ∃ r, s'.validators.lookup vote.validatorAddress = some { v with deposit := v.deposit + r } := by
  obtain ⟨cp, validator, s₁, -, hvalidator, hreward, hjustify⟩ := s.ProcessVote_eq_ok h
  obtain rfl : validator = v := Option.some.inj (hvalidator.symm.trans hv)
  have hvalidators : s'.validators = s₁.validators := by
    rcases s₁.justifyTarget_eq_ok hjustify with rfl | ⟨-, -, rfl⟩ | ⟨-, -, rfl⟩ <;> rfl
  rw [hvalidators]
  rcases s.rewardVote_eq_ok hreward with rfl | ⟨-, r, hr⟩
  · exact ⟨0, by simpa using hv⟩
  · obtain ⟨v', hv', rfl⟩ := s.ProcessReward_eq_ok hr
    obtain rfl : v' = validator := Option.some.inj (hv'.symm.trans hv)
    exact ⟨_, Finmap.lookup_insert _⟩

/-- After `ProcessVote` the target checkpoint holds the finalizer in its vote set and the
count at the source epoch raised by its deposit when it is in the current dynasty. -/
theorem ProcessVote_checkpoint {vote : Vote} {s' : FinalizationState} {cp : Checkpoint}
    {v : Validator} (h : s.ProcessVote vote = .ok s')
    (hcp : s.checkpoints vote.targetEpoch = some cp)
    (hv : s.validators.lookup vote.validatorAddress = some v) :
    ∃ cp', s'.checkpoints vote.targetEpoch = some cp' ∧
      cp'.curDynastyVotes vote.sourceEpoch =
        some ((cp.curDynastyVotes vote.sourceEpoch).getD 0 +
          if IsInDynasty v s.currentDynasty then v.deposit else 0) ∧
      vote.validatorAddress ∈ cp'.voteSet := by
  obtain ⟨cp₀, validator, s₁, hcp₀, hvalidator, -, hjustify⟩ := s.ProcessVote_eq_ok h
  obtain rfl : cp₀ = cp := Option.some.inj (hcp₀.symm.trans hcp)
  obtain rfl : validator = v := Option.some.inj (hvalidator.symm.trans hv)
  obtain ⟨cp', hcp', hvotes, hset⟩ := s₁.justifyTarget_checkpoint hjustify
  refine ⟨cp', hcp', ?_, ?_⟩
  · rw [hvotes, countVote_curDynastyVotes, countVote_fst]
  · rw [hset, countVote_voteSet]
    exact Finset.mem_insert_self _ _

/-- `ProcessVote` returns for a finalizer that exists, a target that has a checkpoint, and
an epoch that has a deposit scale factor. -/
theorem ProcessVote_ok {vote : Vote} {cp : Checkpoint} {v : Validator} {f : ufp64_t}
    (hcp : s.checkpoints vote.targetEpoch = some cp)
    (hv : s.validators.lookup vote.validatorAddress = some v)
    (hf : s.depositScaleFactor s.currentEpoch = some f) :
    ∃ s', s.ProcessVote vote = .ok s' := by
  have hcp' : s.GetCheckpoint vote.targetEpoch = .ok cp := by simpa using hcp
  have hv' : s.validatorAt vote.validatorAddress = .ok v := by simpa using hv
  -- the reward, when there is one, returns
  obtain ⟨s₁, hreward⟩ : ∃ s₁, s.rewardVote vote v = .ok s₁ := by
    unfold rewardVote
    split_ifs
    · obtain ⟨r, s₁, hr⟩ := s.ProcessReward_ok (s.CalculateVoteReward v) hv hf
      exact ⟨s₁, by rw [hr]; rfl⟩
    · exact ⟨s, rfl⟩
  obtain ⟨s', hjustify⟩ := s₁.justifyTarget_ok
    (countVote cp vote v (IsInDynasty v s.currentDynasty) (IsInDynasty v (s.currentDynasty - 1))).2.2
    vote
    (countVote cp vote v (IsInDynasty v s.currentDynasty) (IsInDynasty v (s.currentDynasty - 1))).1
    (countVote cp vote v (IsInDynasty v s.currentDynasty) (IsInDynasty v (s.currentDynasty - 1))).2.1
  refine ⟨s', ?_⟩
  unfold ProcessVote
  rw [hcp', Except.ok_bind, hv', Except.ok_bind]
  dsimp only
  rw [hreward, Except.ok_bind]
  exact hjustify

/-- `ProcessSlash` marks the finalizer slashed, adds its deposit size to the epoch's slashed
total, and moves an end dynasty after the current one to the next dynasty, with the deltas. -/
theorem ProcessSlash_eq_ok {vote1 vote2 : Vote} {s' : FinalizationState}
    (h : s.ProcessSlash vote1 vote2 = .ok s') :
    ∃ v t v', s.validators.lookup vote1.validatorAddress = some v ∧
      s.totalSlashed s.currentEpoch = some t ∧
      v'.deposit = v.deposit ∧ v'.startDynasty = v.startDynasty ∧
      v'.endDynasty = (if s.currentDynasty < v.endDynasty then s.currentDynasty + 1 else v.endDynasty) ∧
      s' = { s with
        validators := s.validators.insert vote1.validatorAddress v'
        totalSlashed := Function.update s.totalSlashed s.currentEpoch
          (some (toUint64 t + s.GetDepositSize vote1.validatorAddress))
        dynastyDeltas :=
          if s.currentDynasty < v.endDynasty then
            if v.endDynasty < MAX_END_DYNASTY then
              Function.update
                (Function.update s.dynastyDeltas (s.currentDynasty + 1)
                  (some ((s.dynastyDeltas (s.currentDynasty + 1)).getD 0 - v.deposit)))
                v.endDynasty
                (some (((Function.update s.dynastyDeltas (s.currentDynasty + 1)
                  (some ((s.dynastyDeltas (s.currentDynasty + 1)).getD 0 - v.deposit)))
                    v.endDynasty).getD 0 + v.deposit))
            else
              Function.update s.dynastyDeltas (s.currentDynasty + 1)
                (some ((s.dynastyDeltas (s.currentDynasty + 1)).getD 0 - v.deposit))
          else s.dynastyDeltas } := by
  simp only [ProcessSlash, Except.bind_eq_ok, GetTotalSlashed_eq_ok, validatorAt_eq_ok] at h
  obtain ⟨_, ⟨t, ht, rfl⟩, v, hv, hres⟩ := h
  refine ⟨v, t, ?_⟩
  by_cases hend : s.currentDynasty < v.endDynasty
  · by_cases hmax : v.endDynasty < MAX_END_DYNASTY
    · -- logged out at the next dynasty instead of at the end dynasty already scheduled
      simp only [hend, hmax, if_true, setValidator, addDynastyDelta_eq, Except.pure_eq_ok_self,
        Except.ok.injEq] at hres
      refine ⟨{ v with isSlashed := true, endDynasty := s.currentDynasty + 1 }, hv, ht, rfl, rfl,
        by simp [hend], ?_⟩
      rw [← hres]
      simp [hend, hmax, sub_eq_add_neg]
    · -- logged out at the next dynasty; the deposits at logout are the current total
      simp only [hend, hmax, if_true, if_false, setValidator, addDynastyDelta_eq,
        Except.bind_eq_ok, Except.pure_eq_ok_self, Except.ok.injEq] at hres
      obtain ⟨total, -, hres⟩ := hres
      refine ⟨{ v with isSlashed := true, endDynasty := s.currentDynasty + 1, depositsAtLogout := total },
        hv, ht, rfl, rfl, by simp [hend], ?_⟩
      rw [← hres]
      simp [hend, hmax, sub_eq_add_neg]
  · simp only [hend, if_false, setValidator, Except.pure_eq_ok_self, Except.ok.injEq] at hres
    refine ⟨{ v with isSlashed := true }, hv, ht, rfl, rfl, by simp [hend], ?_⟩
    rw [← hres]
    simp [hend]
end FinalizationState

end UnitE.Esperanza
