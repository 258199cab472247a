import UnitE.Spec.Process

/-! The epoch transition of `FinalizationState`: `InitializeEpoch` at the first block of
an epoch, with the reward and scale factors, the dynasty increment after a finalization,
and the justification of the previous epoch when no finalizer can vote. -/

namespace UnitE.Esperanza.FinalizationState

open Finalization Ufp64

variable (s : FinalizationState)

/-- `GetCollectiveRewardFactor`: half the smaller of the two dynasties' vote fractions
for the last finalized checkpoint, times the reward factor, while finalization is live.
Reading the vote counts creates them as 0 (`emplace`). -/
def GetCollectiveRewardFactor : Fallible (ufp64_t × FinalizationState) := do
  let isLive := s.GetEpochsSinceFinalization ≤ 2
  if !s.DepositExists || !isLive then return (0, s)
  if s.lastFinalizedEpoch ≠ s.currentEpoch - 2 then throw .assertion
  let cp ← s.GetCheckpoint s.lastFinalizedEpoch
  let (curVotes, curMap) := emplaceZero cp.curDynastyVotes s.expectedSourceEpoch
  let (prevVotes, prevMap) := emplaceZero cp.prevDynastyVotes s.expectedSourceEpoch
  let s := s.setCheckpoint s.lastFinalizedEpoch
    { cp with curDynastyVotes := curMap, prevDynastyVotes := prevMap }
  let curVoteFraction ← div_2uint curVotes (toUint64 s.curDynDeposits)
  let prevVoteFraction ← div_2uint prevVotes (toUint64 s.prevDynDeposits)
  let voteFraction := Ufp64.min curVoteFraction prevVoteFraction
  let factor ← div_by_uint (mul voteFraction s.rewardFactor) 2
  pure (factor, s)

def GetSqrtOfTotalDeposits : Fallible ufp64_t := do
  let f ← s.GetDepositScaleFactor (s.currentEpoch - 1)
  let totalDeposits :=
    (1 + mul_to_uint f (toUint64 (max s.prevDynDeposits s.curDynDeposits))) % 2 ^ 64
  sqrt_uint totalDeposits

/-- `IncrementDynasty`: once the epoch two before the current one is finalized, the next
dynasty starts, its total deposits follow from the delta, and checkpoints before the last
finalized epoch are dropped. -/
def IncrementDynasty : Fallible FinalizationState := do
  if s.currentEpoch < 3 then return s
  let cp ← s.GetCheckpoint (s.currentEpoch - 2)
  if !cp.isFinalized then return s
  let s := { s with currentDynasty := s.currentDynasty + 1 }
  let s := { s with prevDynDeposits := s.curDynDeposits }
  let (delta, s) := s.GetDynastyDelta s.currentDynasty
  let s := { s with curDynDeposits := s.curDynDeposits + delta }
  let s := { s with
    dynastyStartEpoch := Function.update s.dynastyStartEpoch s.currentDynasty (some s.currentEpoch) }
  pure { s with checkpoints := fun e => if e < s.lastFinalizedEpoch then none else s.checkpoints e }

/-- `InstaJustify`: the previous epoch is justified, and also finalized when the epoch
before it is justified. -/
def InstaJustify : Fallible FinalizationState := do
  let cp ← s.GetCheckpoint (s.currentEpoch - 1)
  let cp := { cp with isJustified := true }
  let s := { s with lastJustifiedEpoch := s.currentEpoch - 1 }
  if s.currentEpoch > 1 then
    let toBeFinalized ← s.GetCheckpoint (s.currentEpoch - 2)
    if toBeFinalized.isJustified then
      return { s with lastFinalizedEpoch := s.lastJustifiedEpoch }.setCheckpoint
        (s.currentEpoch - 1) { cp with isFinalized := true }
  pure (s.setCheckpoint (s.currentEpoch - 1) cp)

/-- The part of `InitializeEpoch` after the reward factor has been accepted. -/
def initializeEpochTail : Fallible FinalizationState := do
  let s ← s.IncrementDynasty
  let s ← if s.noActiveFinalizers then s.InstaJustify else pure s
  pure { s with expectedSourceEpoch := s.lastJustifiedEpoch }

/-- The first part of `InitializeEpoch` for the epoch `new_epoch` that follows the current
one: a fresh checkpoint holding the dynasties' deposits, the collective reward factor, and the
deposit scale factor and slashed total carried over to the new epoch. -/
def openEpoch (new_epoch : UInt32) : Fallible FinalizationState := do
  let curDeposits ← s.GetTotalCurDynDeposits
  let prevDeposits ← s.GetTotalPrevDynDeposits
  let cp := { Checkpoint.empty with
    curDynastyDeposits := curDeposits, prevDynastyDeposits := prevDeposits }
  let s := s.setCheckpoint new_epoch cp
  let s := { s with currentEpoch := new_epoch }
  let (collective, s) ← s.GetCollectiveRewardFactor
  let last_voter_rescale := add_uint collective 1
  let last_non_voter_rescale ← div last_voter_rescale (add_uint s.rewardFactor 1)
  let previousFactor ← s.GetDepositScaleFactor (new_epoch - 1)
  let newFactor := mul last_non_voter_rescale previousFactor
  let s := { s with depositScaleFactor := Function.update s.depositScaleFactor new_epoch (some newFactor) }
  let previousSlashed ← s.GetTotalSlashed (new_epoch - 1)
  pure { s with totalSlashed := Function.update s.totalSlashed new_epoch (some previousSlashed) }

/-- `InitializeEpoch`: starts the epoch of `blockHeight`, which must follow the current
one (`openEpoch`), with a new reward factor. A zero reward factor with deposits fails with
`INIT_INVALID_REWARD`, leaving what was already written. -/
def InitializeEpoch (blockHeight : Height) : Fallible (Result × FinalizationState) := do
  if !s.settings.IsEpochStart blockHeight then throw .assertion
  let new_epoch := s.settings.GetEpoch blockHeight
  if new_epoch ≠ s.currentEpoch + 1 then return (.INIT_WRONG_EPOCH, s)
  let s ← s.openEpoch new_epoch
  if s.DepositExists then
    let sqrt ← s.GetSqrtOfTotalDeposits
    let interestBase ← div s.settings.base_interest_factor sqrt
    let penalty := mul_by_uint s.settings.base_penalty_factor s.GetEpochsSinceFinalization.toNat
    let s := { s with rewardFactor := add interestBase penalty }
    if s.rewardFactor = 0 then return (.INIT_INVALID_REWARD, s)
    let s ← s.initializeEpochTail
    pure (.SUCCESS, s)
  else
    let s ← { s with rewardFactor := 0 }.initializeEpochTail
    pure (.SUCCESS, s)

/-- `IncrementDynasty` starts the next dynasty once the epoch two before the current one is
finalized, and otherwise changes nothing. -/
theorem IncrementDynasty_eq_ok {s' : FinalizationState} (h : s.IncrementDynasty = .ok s') :
    s' = s ∨ ¬ s.currentEpoch < 3 ∧
      (∃ cp, s.checkpoints (s.currentEpoch - 2) = some cp ∧ cp.isFinalized = true) ∧
      s' = { s with
        currentDynasty := s.currentDynasty + 1
        prevDynDeposits := s.curDynDeposits
        curDynDeposits := s.curDynDeposits + (s.dynastyDeltas (s.currentDynasty + 1)).getD 0
        dynastyDeltas := Function.update s.dynastyDeltas (s.currentDynasty + 1)
          (some ((s.dynastyDeltas (s.currentDynasty + 1)).getD 0))
        dynastyStartEpoch := Function.update s.dynastyStartEpoch (s.currentDynasty + 1)
          (some s.currentEpoch)
        checkpoints := fun e => if e < s.lastFinalizedEpoch then none else s.checkpoints e } := by
  unfold IncrementDynasty at h
  by_cases hearly : s.currentEpoch < 3
  · simp only [hearly, if_true] at h
    exact .inl (by simpa [eq_comm] using h)
  · simp only [hearly, if_false, Except.bind_eq_ok, GetCheckpoint_eq_ok] at h
    obtain ⟨cp, hcp, hres⟩ := h
    by_cases hfinalized : cp.isFinalized = true
    · refine .inr ⟨hearly, ⟨cp, hcp, hfinalized⟩, ?_⟩
      cases hdelta : s.dynastyDeltas (s.currentDynasty + 1) <;>
        simp [hfinalized, hdelta, GetDynastyDelta] at hres <;>
        simp [← hres, hdelta]
    · simp only [hfinalized, Bool.not_false] at hres
      exact .inl (by simpa [eq_comm] using hres)

/-- `InstaJustify` justifies the previous epoch, and finalizes it when the epoch before is
justified. -/
theorem InstaJustify_eq_ok {s' : FinalizationState} (h : s.InstaJustify = .ok s') :
    ∃ cp, s.checkpoints (s.currentEpoch - 1) = some cp ∧
      (s' = { s with lastJustifiedEpoch := s.currentEpoch - 1 }.setCheckpoint (s.currentEpoch - 1)
          { cp with isJustified := true } ∨
        1 < s.currentEpoch ∧
        (∃ cp₂, s.checkpoints (s.currentEpoch - 2) = some cp₂ ∧ cp₂.isJustified = true) ∧
        s' = { s with lastJustifiedEpoch := s.currentEpoch - 1,
                      lastFinalizedEpoch := s.currentEpoch - 1 }.setCheckpoint (s.currentEpoch - 1)
          { cp with isJustified := true, isFinalized := true }) := by
  simp only [InstaJustify, Except.bind_eq_ok, GetCheckpoint_eq_ok] at h
  obtain ⟨cp, hcp, hres⟩ := h
  refine ⟨cp, hcp, ?_⟩
  by_cases hlater : 1 < s.currentEpoch
  · simp only [hlater, if_true, Except.bind_eq_ok, GetCheckpoint_eq_ok] at hres
    obtain ⟨cp₂, hcp₂, hres⟩ := hres
    by_cases hjustified : cp₂.isJustified = true
    · simp only [hjustified, if_true, Except.pure_eq_ok_self, Except.ok.injEq] at hres
      exact .inr ⟨hlater, ⟨cp₂, hcp₂, hjustified⟩, hres.symm⟩
    · simp only [hjustified, Bool.false_eq_true, if_false, Except.pure_eq_ok_self,
        Except.ok.injEq] at hres
      exact .inl hres.symm
  · simp only [hlater, if_false, Except.pure_eq_ok_self, Except.ok.injEq] at hres
    exact .inl hres.symm

/-- `GetCollectiveRewardFactor` writes back at most the checkpoint of the last finalized
epoch, whose vote counts it reads. -/
theorem GetCollectiveRewardFactor_eq_ok {f : ufp64_t} {s' : FinalizationState}
    (h : s.GetCollectiveRewardFactor = .ok (f, s')) :
    s' = s ∨ ∃ cp curMap prevMap, s.checkpoints s.lastFinalizedEpoch = some cp ∧
      s' = s.setCheckpoint s.lastFinalizedEpoch
        { cp with curDynastyVotes := curMap, prevDynastyVotes := prevMap } := by
  unfold GetCollectiveRewardFactor at h
  by_cases hlive : (!s.DepositExists || !decide (s.GetEpochsSinceFinalization ≤ 2)) = true
  · simp only [hlive, if_true, Except.pure_eq_ok_self, Except.ok.injEq, Prod.mk.injEq] at h
    exact .inl h.2.symm
  · by_cases hassert : s.lastFinalizedEpoch ≠ s.currentEpoch - 2
    · simp [hlive, hassert] at h
    · simp only [hlive, hassert, Bool.false_eq_true, if_false, Except.bind_eq_ok,
        GetCheckpoint_eq_ok] at h
      obtain ⟨cp, hcp, _, _, _, _, _, _, hres⟩ := h
      simp only [Except.pure_eq_ok_self, Except.ok.injEq, Prod.mk.injEq] at hres
      exact .inr ⟨cp, _, _, hcp, hres.2.symm⟩

theorem openEpoch_eq_ok_collective {new_epoch : UInt32} {s' : FinalizationState}
    (h : s.openEpoch new_epoch = .ok s') :
    ∃ curDeposits prevDeposits f s₁ factor slashed,
      ({ s.setCheckpoint new_epoch { Checkpoint.empty with
          curDynastyDeposits := curDeposits, prevDynastyDeposits := prevDeposits } with
          currentEpoch := new_epoch }).GetCollectiveRewardFactor = .ok (f, s₁) ∧
      s' = { s₁ with
        depositScaleFactor := Function.update s₁.depositScaleFactor new_epoch (some factor)
        totalSlashed := Function.update s₁.totalSlashed new_epoch (some slashed) } := by
  simp only [openEpoch, Except.bind_eq_ok] at h
  obtain ⟨cur, -, prev, -, ⟨f, s₁⟩, hcollective, _, -, _, -, _, -, hres⟩ := h
  simp only [Except.pure_eq_ok_self, Except.ok.injEq] at hres
  exact ⟨cur, prev, f, s₁, _, _, hcollective, hres.symm⟩

/-- `openEpoch` writes only the checkpoints, the current epoch, the deposit scale factors and
the slashed totals. -/
theorem openEpoch_frame {new_epoch : UInt32} {s' : FinalizationState}
    (h : s.openEpoch new_epoch = .ok s') :
    s' = { s with checkpoints := s'.checkpoints, currentEpoch := new_epoch,
                  depositScaleFactor := s'.depositScaleFactor, totalSlashed := s'.totalSlashed } := by
  obtain ⟨_, _, _, _, _, _, hcollective, rfl⟩ := s.openEpoch_eq_ok_collective h
  rcases GetCollectiveRewardFactor_eq_ok _ hcollective with rfl | ⟨cp, curMap, prevMap, -, rfl⟩ <;> rfl

/-- `openEpoch` adds a deposit scale factor and a slashed total at the new epoch and keeps the
others. -/
theorem openEpoch_eq_ok {new_epoch : UInt32} {s' : FinalizationState}
    (h : s.openEpoch new_epoch = .ok s') :
    ∃ checkpoints f t, s' = { s with
      checkpoints := checkpoints
      currentEpoch := new_epoch
      depositScaleFactor := Function.update s.depositScaleFactor new_epoch (some f)
      totalSlashed := Function.update s.totalSlashed new_epoch (some t) } := by
  obtain ⟨_, _, _, _, _, _, hcollective, rfl⟩ := s.openEpoch_eq_ok_collective h
  rcases GetCollectiveRewardFactor_eq_ok _ hcollective with rfl | ⟨cp, curMap, prevMap, -, rfl⟩ <;>
    exact ⟨_, _, _, rfl⟩

theorem initializeEpochTail_eq_ok {s' : FinalizationState} (h : s.initializeEpochTail = .ok s') :
    ∃ s₁ s₂, s.IncrementDynasty = .ok s₁ ∧
      (s₂ = s₁ ∨ s₁.noActiveFinalizers = true ∧ s₁.InstaJustify = .ok s₂) ∧
      s' = { s₂ with expectedSourceEpoch := s₂.lastJustifiedEpoch } := by
  obtain ⟨s₁, hincrement, hrest⟩ := Except.bind_eq_ok.mp h
  by_cases hactive : s₁.noActiveFinalizers = true
  · simp only [hactive, if_true, Except.bind_eq_ok, Except.pure_eq_ok_self, Except.ok.injEq] at hrest
    obtain ⟨s₂, hjustify, hres⟩ := hrest
    exact ⟨s₁, s₂, hincrement, .inr ⟨hactive, hjustify⟩, hres.symm⟩
  · simp only [hactive, Bool.false_eq_true, if_false, Except.pure_eq_ok_self, Except.ok_bind,
      Except.ok.injEq] at hrest
    exact ⟨s₁, s₁, hincrement, .inl rfl, hrest.symm⟩

/-- `InitializeEpoch` changes nothing when the epoch does not follow the current one;
otherwise it opens the next epoch, sets the reward factor, and, unless that is invalid, runs
the dynasty increment and justification of `initializeEpochTail`. -/
theorem InitializeEpoch_eq_ok {height : Height} {res : Result} {s' : FinalizationState}
    (h : s.InitializeEpoch height = .ok (res, s')) :
    s' = s ∨ ∃ s₁ s₂, s.settings.GetEpoch height = s.currentEpoch + 1 ∧
      s.openEpoch (s.currentEpoch + 1) = .ok s₁ ∧
      s₂ = { s₁ with rewardFactor := s₂.rewardFactor } ∧
      (s' = s₂ ∨ s₂.initializeEpochTail = .ok s') := by
  unfold InitializeEpoch at h
  by_cases hstart : s.settings.IsEpochStart height = true
  · by_cases hepoch : s.settings.GetEpoch height = s.currentEpoch + 1
    · right
      simp only [hstart, hepoch, Bool.not_true, Bool.false_eq_true, if_false, ne_eq,
        not_true_eq_false, Except.bind_eq_ok] at h
      obtain ⟨s₁, hopen, hres⟩ := h
      by_cases hdeposit : s₁.DepositExists = true
      · simp only [hdeposit, if_true, Except.bind_eq_ok] at hres
        obtain ⟨_, -, interestBase, -, hres⟩ := hres
        refine ⟨s₁, { s₁ with rewardFactor := add interestBase (mul_by_uint
          s₁.settings.base_penalty_factor s₁.GetEpochsSinceFinalization.toNat) }, hepoch, hopen, rfl, ?_⟩
        split_ifs at hres
        · simp only [Except.pure_eq_ok_self, Except.ok.injEq, Prod.mk.injEq] at hres
          exact .inl hres.2.symm
        · obtain ⟨_, htail, hres⟩ := Except.bind_eq_ok.mp hres
          simp only [Except.pure_eq_ok_self, Except.ok.injEq, Prod.mk.injEq] at hres
          obtain ⟨-, rfl⟩ := hres
          exact .inr htail
      · simp only [hdeposit, Bool.false_eq_true, if_false, Except.bind_eq_ok, Except.pure_eq_ok_self,
          Except.ok.injEq, Prod.mk.injEq] at hres
        obtain ⟨_, htail, -, rfl⟩ := hres
        exact ⟨s₁, _, hepoch, hopen, rfl, .inr htail⟩
    · simp [hstart, hepoch] at h
      exact .inl h.2.symm
  · simp [hstart] at h
/-- The results other than `SUCCESS`: `INIT_WRONG_EPOCH` returns the state it was given, and
`INIT_INVALID_REWARD` returns the state with the next epoch opened and a zero reward factor. -/
theorem InitializeEpoch_eq_ok_of_ne_success {height : Height} {res : Result}
    {s' : FinalizationState} (h : s.InitializeEpoch height = .ok (res, s')) (hres : res ≠ .SUCCESS) :
    res = .INIT_WRONG_EPOCH ∧ s' = s ∨
      res = .INIT_INVALID_REWARD ∧ ∃ s₁, s.openEpoch (s.currentEpoch + 1) = .ok s₁ ∧
        s' = { s₁ with rewardFactor := 0 } := by
  unfold InitializeEpoch at h
  by_cases hstart : s.settings.IsEpochStart height = true
  · by_cases hepoch : s.settings.GetEpoch height = s.currentEpoch + 1
    · simp only [hstart, hepoch, Bool.not_true, Bool.false_eq_true, if_false, ne_eq,
        not_true_eq_false, Except.bind_eq_ok] at h
      obtain ⟨s₁, hopen, hres'⟩ := h
      by_cases hdeposit : s₁.DepositExists = true
      · simp only [hdeposit, if_true, Except.bind_eq_ok] at hres'
        obtain ⟨_, -, interestBase, -, hres'⟩ := hres'
        split_ifs at hres' with hzero
        -- the reward factor just written is the zero that the check rejects
        · simp only [Except.pure_eq_ok_self, Except.ok.injEq, Prod.mk.injEq] at hres'
          obtain ⟨rfl, rfl⟩ := hres'
          refine .inr ⟨rfl, s₁, hopen, ?_⟩
          rw [← hzero]
        · obtain ⟨_, -, hres'⟩ := Except.bind_eq_ok.mp hres'
          simp only [Except.pure_eq_ok_self, Except.ok.injEq, Prod.mk.injEq] at hres'
          exact absurd hres'.1.symm hres
      · simp only [hdeposit, Bool.false_eq_true, if_false, Except.bind_eq_ok, Except.pure_eq_ok_self,
          Except.ok.injEq, Prod.mk.injEq] at hres'
        obtain ⟨_, -, hsuccess, -⟩ := hres'
        exact absurd hsuccess.symm hres
    · simp [hstart, hepoch] at h
      exact .inl ⟨h.1.symm, h.2.symm⟩
  · simp [hstart] at h

end UnitE.Esperanza.FinalizationState
