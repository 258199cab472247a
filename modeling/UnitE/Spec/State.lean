import Mathlib.Data.Finmap
import UnitE.Spec.Params

/-! The data of `esperanza::FinalizationState`: finalizers (`Validator`), checkpoints, the
admin state, and the state record with the accessors that assert on a missing key.
Maps keyed by `uint32_t` are functions to `Option`, so that a key that is present with
value 0 differs from an absent one, as it does for `std::map`; the validator map is a
`Finmap`, which the code iterates over. -/

namespace UnitE.Esperanza

open Finalization Ufp64

/-- `MAX_END_DYNASTY`: the end dynasty of a finalizer that has not logged out. -/
def MAX_END_DYNASTY : UInt32 := 4294967295

/-- `esperanza::Validator`. `deposit` and `depositsAtLogout` are `uint64_t`. -/
structure Validator where
  validatorAddress : Uint160
  deposit : Nat
  startDynasty : UInt32
  endDynasty : UInt32
  isSlashed : Bool
  depositsAtLogout : Nat
  lastTransactionHash : Uint256
  deriving DecidableEq, Repr

/-- `Validator(deposit, startDynasty, validatorAddress)`. -/
def Validator.create (deposit : Nat) (startDynasty : UInt32) (validatorAddress : Uint160) :
    Validator where
  validatorAddress := validatorAddress
  deposit := deposit
  startDynasty := startDynasty
  endDynasty := MAX_END_DYNASTY
  isSlashed := false
  depositsAtLogout := 0
  lastTransactionHash := 0

/-- `esperanza::Checkpoint`. The vote maps are keyed by source epoch. -/
structure Checkpoint where
  isJustified : Bool
  isFinalized : Bool
  curDynastyDeposits : Nat
  prevDynastyDeposits : Nat
  curDynastyVotes : UInt32 → Option Nat
  prevDynastyVotes : UInt32 → Option Nat
  voteSet : Finset Uint160

/-- `Checkpoint()`. -/
def Checkpoint.empty : Checkpoint where
  isJustified := false
  isFinalized := false
  curDynastyDeposits := 0
  prevDynastyDeposits := 0
  curDynastyVotes := fun _ => none
  prevDynastyVotes := fun _ => none
  voteSet := ∅

/-- `m.emplace(key, 0).first->second`: the value at `key`, which is created as 0. -/
def emplaceZero (m : UInt32 → Option Nat) (key : UInt32) : Nat × (UInt32 → Option Nat) :=
  match m key with
  | some v => (v, m)
  | none => (0, Function.update m key (some 0))

structure AdminState where
  adminPubKeys : AdminKeySet
  whiteList : Finset Uint160
  permissioningIsActive : Bool
  deriving DecidableEq

namespace AdminState

/-- `AdminState(params)`. -/
def create (params : AdminParams) : AdminState :=
  match params.admin_keys with
  | some keys => { adminPubKeys := keys, whiteList := params.white_list.toFinset,
                   permissioningIsActive := true }
  | none => { adminPubKeys := [], whiteList := params.white_list.toFinset,
              permissioningIsActive := false }

def IsAdminAuthorized (a : AdminState) (keys : AdminKeySet) : Bool :=
  a.permissioningIsActive && keys == a.adminPubKeys

def IsValidatorAuthorized (a : AdminState) (validatorAddress : Uint160) : Bool :=
  !a.permissioningIsActive || decide (validatorAddress ∈ a.whiteList)

def ResetAdmin (a : AdminState) (newKeys : AdminKeySet) : AdminState :=
  { a with adminPubKeys := newKeys }

def AddValidator (a : AdminState) (validatorAddress : Uint160) : AdminState :=
  { a with whiteList := insert validatorAddress a.whiteList }

def RemoveValidator (a : AdminState) (validatorAddress : Uint160) : AdminState :=
  { a with whiteList := a.whiteList.erase validatorAddress }

def EndPermissioning (a : AdminState) : AdminState :=
  { a with permissioningIsActive := false }

end AdminState

/-- The `Result` enum of the finalization checks. -/
inductive Result
  | SUCCESS
  | INIT_WRONG_EPOCH
  | INIT_INVALID_REWARD
  | DEPOSIT_INSUFFICIENT
  | DEPOSIT_DUPLICATE
  | VOTE_MALFORMED
  | VOTE_NOT_BY_VALIDATOR
  | VOTE_NOT_VOTABLE
  | VOTE_ALREADY_VOTED
  | VOTE_WRONG_TARGET_HASH
  | VOTE_WRONG_TARGET_EPOCH
  | VOTE_SRC_EPOCH_NOT_JUSTIFIED
  | LOGOUT_ALREADY_DONE
  | LOGOUT_NOT_A_VALIDATOR
  | LOGOUT_NOT_YET_A_VALIDATOR
  | WITHDRAW_TOO_EARLY
  | WITHDRAW_NOT_A_VALIDATOR
  | WITHDRAW_WRONG_AMOUNT
  | SLASH_SAME_VOTE
  | SLASH_NOT_SAME_VALIDATOR
  | SLASH_TOO_EARLY
  | SLASH_ALREADY_SLASHED
  | SLASH_NOT_VALID
  | SLASH_NOT_A_VALIDATOR
  | ADMIN_BLACKLISTED
  | ADMIN_NOT_AUTHORIZED
  deriving DecidableEq, Repr

inductive InitStatus
  | NEW
  | FROM_COMMITS
  | COMPLETED
  deriving DecidableEq, Repr

/-- The validators of a state, by address. -/
abbrev ValidatorMap := Finmap (fun _ : Uint160 => Validator)

/-- `FinalizationState`: the fields of `FinalizationStateData`, the settings and the
initialisation status. -/
structure FinalizationState where
  checkpoints : UInt32 → Option Checkpoint
  dynastyStartEpoch : UInt32 → Option UInt32
  validators : ValidatorMap
  dynastyDeltas : UInt32 → Option CAmount
  depositScaleFactor : UInt32 → Option ufp64_t
  totalSlashed : UInt32 → Option CAmount
  currentEpoch : UInt32
  currentDynasty : UInt32
  curDynDeposits : CAmount
  prevDynDeposits : CAmount
  expectedSourceEpoch : UInt32
  lastFinalizedEpoch : UInt32
  lastJustifiedEpoch : UInt32
  recommendedTargetHash : Uint256
  recommendedTargetEpoch : UInt32
  rewardFactor : ufp64_t
  adminState : AdminState
  settings : Params
  status : InitStatus

/-- `uint64_t(x)` for a `CAmount` `x`. -/
def toUint64 (x : CAmount) : Nat := (x % 2 ^ 64).toNat

def BASE_DEPOSIT_SCALE_FACTOR : ufp64_t := to_ufp64 1

namespace FinalizationState

/-- `FinalizationState(params)`: epoch 0 is justified and finalized, dynasty 0 starts at
epoch 1. -/
def create (params : Params) : FinalizationState where
  checkpoints := Function.update (fun _ => none) 0
    (some { Checkpoint.empty with isJustified := true, isFinalized := true })
  dynastyStartEpoch := Function.update (fun _ => none) 0 (some 1)
  validators := ∅
  dynastyDeltas := Function.update (fun _ => none) 0 (some 0)
  depositScaleFactor := Function.update (fun _ => none) 0 (some BASE_DEPOSIT_SCALE_FACTOR)
  totalSlashed := Function.update (fun _ => none) 0 (some 0)
  currentEpoch := 0
  currentDynasty := 0
  curDynDeposits := 0
  prevDynDeposits := 0
  expectedSourceEpoch := 0
  lastFinalizedEpoch := 0
  lastJustifiedEpoch := 0
  recommendedTargetHash := 0
  recommendedTargetEpoch := 0
  rewardFactor := 0
  adminState := AdminState.create params.admin_params
  settings := params
  status := .NEW

variable (s : FinalizationState)

/-- `GetCheckpoint`, which asserts that the checkpoint exists. -/
def GetCheckpoint (epoch : UInt32) : Fallible Checkpoint :=
  match s.checkpoints epoch with
  | some cp => .ok cp
  | none => .error .assertion

/-- Writes through the reference that `GetCheckpoint` returns. -/
def setCheckpoint (epoch : UInt32) (cp : Checkpoint) : FinalizationState :=
  { s with checkpoints := Function.update s.checkpoints epoch (some cp) }

/-- `GetDepositScaleFactor`, which asserts that the epoch has a factor. -/
def GetDepositScaleFactor (epoch : UInt32) : Fallible ufp64_t :=
  match s.depositScaleFactor epoch with
  | some f => .ok f
  | none => .error .assertion

/-- `GetTotalSlashed`, which asserts that the epoch has a total; the value is read as
`uint64_t`. -/
def GetTotalSlashed (epoch : UInt32) : Fallible Nat :=
  match s.totalSlashed epoch with
  | some t => .ok (toUint64 t)
  | none => .error .assertion

/-- `GetDynastyDelta`: the delta of `dynasty`, created as 0 when absent. -/
def GetDynastyDelta (dynasty : UInt32) : CAmount × FinalizationState :=
  match s.dynastyDeltas dynasty with
  | some d => (d, s)
  | none => (0, { s with dynastyDeltas := Function.update s.dynastyDeltas dynasty (some 0) })

/-- `m_dynasty_deltas[dynasty] = GetDynastyDelta(dynasty) + change`. -/
def addDynastyDelta (dynasty : UInt32) (change : CAmount) : FinalizationState :=
  let (d, s') := s.GetDynastyDelta dynasty
  { s' with dynastyDeltas := Function.update s'.dynastyDeltas dynasty (some (d + change)) }

/-- `m_validators.at(validatorAddress)`. -/
def validatorAt (validatorAddress : Uint160) : Fallible Validator :=
  match s.validators.lookup validatorAddress with
  | some v => .ok v
  | none => .error .outOfRange

/-- Writes through the reference that `m_validators.at` returns. -/
def setValidator (validatorAddress : Uint160) (v : Validator) : FinalizationState :=
  { s with validators := s.validators.insert validatorAddress v }

def IsInDynasty (validator : Validator) (dynasty : UInt32) : Bool :=
  validator.startDynasty ≤ dynasty && dynasty < validator.endDynasty

/-- `IsFinalizerVoting(const Validator &)`: in the current or the previous dynasty. -/
def IsFinalizerVoting (finalizer : Validator) : Bool :=
  IsInDynasty finalizer s.currentDynasty || IsInDynasty finalizer (s.currentDynasty - 1)

/-- `GetActiveFinalizers().empty()`. -/
def noActiveFinalizers : Bool :=
  decide (∀ entry ∈ s.validators.entries, s.IsFinalizerVoting entry.2 = false)

def GetEpochsSinceFinalization : UInt32 := s.currentEpoch - s.lastFinalizedEpoch

def DepositExists : Bool := 0 < s.curDynDeposits && 0 < s.prevDynDeposits

/-- `GetEndDynasty`: the `int64_t` sum is stored in a `uint32_t`. -/
def GetEndDynasty : UInt32 := UInt32.ofInt (s.currentDynasty.toNat + s.settings.dynasty_logout_delay)

def GetTotalCurDynDeposits : Fallible Nat := do
  let f ← s.GetDepositScaleFactor s.currentEpoch
  pure (mul_to_uint f (toUint64 s.curDynDeposits))

def GetTotalPrevDynDeposits : Fallible Nat :=
  if s.currentEpoch = 0 then pure 0 else do
    let f ← s.GetDepositScaleFactor (s.currentEpoch - 1)
    pure (mul_to_uint f (toUint64 s.prevDynDeposits))

/-- `GetDepositSize`: 0 for an unknown or slashed finalizer, or without a scale factor. -/
def GetDepositSize (validatorAddress : Uint160) : Nat :=
  match s.validators.lookup validatorAddress, s.depositScaleFactor s.currentEpoch with
  | some v, some f => if v.isSlashed then 0 else mul_to_uint f v.deposit
  | _, _ => 0

def GetRecommendedVote (validatorAddress : Uint160) : Vote where
  validatorAddress := validatorAddress
  targetHash := s.recommendedTargetHash
  targetEpoch := s.recommendedTargetEpoch
  sourceEpoch := s.expectedSourceEpoch

def IsPermissioningActive : Bool := s.adminState.permissioningIsActive

@[simp] theorem GetCheckpoint_eq_ok {epoch : UInt32} {cp : Checkpoint} :
    s.GetCheckpoint epoch = .ok cp ↔ s.checkpoints epoch = some cp := by
  unfold GetCheckpoint
  split <;> simp_all

@[simp] theorem GetDepositScaleFactor_eq_ok {epoch : UInt32} {f : ufp64_t} :
    s.GetDepositScaleFactor epoch = .ok f ↔ s.depositScaleFactor epoch = some f := by
  unfold GetDepositScaleFactor
  split <;> simp_all

@[simp] theorem GetTotalSlashed_eq_ok {epoch : UInt32} {t : Nat} :
    s.GetTotalSlashed epoch = .ok t ↔ ∃ t', s.totalSlashed epoch = some t' ∧ toUint64 t' = t := by
  unfold GetTotalSlashed
  split <;> simp_all

@[simp] theorem validatorAt_eq_ok {validatorAddress : Uint160} {v : Validator} :
    s.validatorAt validatorAddress = .ok v ↔ s.validators.lookup validatorAddress = some v := by
  unfold validatorAt
  split <;> simp_all

theorem addDynastyDelta_eq (dynasty : UInt32) (change : CAmount) :
    s.addDynastyDelta dynasty change =
      { s with
        dynastyDeltas := Function.update s.dynastyDeltas dynasty
          (some ((s.dynastyDeltas dynasty).getD 0 + change)) } := by
  unfold addDynastyDelta GetDynastyDelta
  cases s.dynastyDeltas dynasty <;> simp

end FinalizationState

end UnitE.Esperanza
