import UnitE.Lib.CeilDiv
import UnitE.Lib.UInt32Pred
import UnitE.Spec.Ufp64

/-! `finalization::Params` and its epoch arithmetic, and the admin parameters a
finalization state starts from. -/

namespace UnitE

namespace Esperanza

/-- `AdminKeySet`, the `ADMIN_MULTISIG_KEYS = 3` administrator keys in order. -/
abbrev AdminKeySet := List CPubKey

def ADMIN_MULTISIG_KEYS : Nat := 3

structure AdminParams where
  admin_keys : Option AdminKeySet
  white_list : List Uint160
  deriving DecidableEq, Repr

end Esperanza

namespace Finalization

/-- `finalization::Params`. The `int64_t` fields are integers; they are converted to
`uint32_t` where the code adds them to an epoch or a dynasty. -/
structure Params where
  epoch_length : UInt32
  min_deposit_size : CAmount
  dynasty_logout_delay : Int
  withdrawal_epoch_delay : Int
  slash_fraction_multiplier : Int
  base_interest_factor : Ufp64.ufp64_t
  base_penalty_factor : Ufp64.ufp64_t
  admin_params : Esperanza.AdminParams
  deriving DecidableEq, Repr

namespace Params

variable (p : Params)

/-- `GetEpoch`: the epoch that contains `block_height`. -/
def GetEpoch (block_height : Height) : UInt32 :=
  let epoch := block_height / p.epoch_length
  if block_height % p.epoch_length != 0 then epoch + 1 else epoch

/-- `GetEpochCheckpointHeight`: the height of the last block of `epoch`. -/
def GetEpochCheckpointHeight (epoch : UInt32) : Height := epoch * p.epoch_length

/-- `GetEpochStartHeight`: the height of the first block of `epoch`; epoch 0 holds only
the genesis block. -/
def GetEpochStartHeight (epoch : UInt32) : Height :=
  if epoch = 0 then 0 else p.GetEpochCheckpointHeight (epoch - 1) + 1

def IsEpochStart (block_height : Height) : Bool := block_height % p.epoch_length == 1

def IsCheckpoint (block_height : Height) : Bool := block_height % p.epoch_length == 0

theorem IsEpochStart_iff {block_height : Height} :
    p.IsEpochStart block_height = true ↔ block_height.toNat % p.epoch_length.toNat = 1 := by
  simp [IsEpochStart, ← UInt32.toNat_inj]

theorem IsCheckpoint_iff {block_height : Height} :
    p.IsCheckpoint block_height = true ↔ block_height.toNat % p.epoch_length.toNat = 0 := by
  simp [IsCheckpoint, ← UInt32.toNat_inj]

/-- With a nonzero epoch length, `GetEpoch` is the ceiling of the height over the epoch
length: the increment happens only when the length does not divide the height, so it does
not wrap. -/
theorem GetEpoch_toNat (hL : p.epoch_length ≠ 0) (block_height : Height) :
    (p.GetEpoch block_height).toNat = block_height.toNat ⌈/⌉ p.epoch_length.toNat := by
  have hpos : 0 < p.epoch_length.toNat := by
    rw [Nat.pos_iff_ne_zero, ne_eq, ← UInt32.toNat_zero, UInt32.toNat_inj]
    exact hL
  rw [Nat.ceilDiv_eq_div_add hpos]
  unfold GetEpoch
  by_cases hr : block_height.toNat % p.epoch_length.toNat = 0
  · have hmod : block_height % p.epoch_length = 0 := by
      rw [← UInt32.toNat_inj, UInt32.toNat_mod, hr, UInt32.toNat_zero]
    simp [hmod, hr]
  · have hmod : block_height % p.epoch_length ≠ 0 := by
      rw [ne_eq, ← UInt32.toNat_inj, UInt32.toNat_mod, UInt32.toNat_zero]
      exact hr
    -- a remainder means the length is at least two, so the quotient is below the height
    have hlt : block_height.toNat / p.epoch_length.toNat < block_height.toNat := by
      apply Nat.div_lt_self
      · have := Nat.mod_le block_height.toNat p.epoch_length.toNat
        omega
      · by_contra hone
        exact hr (by rw [show p.epoch_length.toNat = 1 by omega, Nat.mod_one])
    have hsize := block_height.toNat_lt
    simp only [hmod, bne_iff_ne, ne_eq, not_false_eq_true, if_true, hr, if_false]
    rw [UInt32.toNat_add, UInt32.toNat_div, UInt32.toNat_one, Nat.mod_eq_of_lt (by omega)]

theorem GetEpochCheckpointHeight_toNat {epoch : UInt32}
    (hfit : epoch.toNat * p.epoch_length.toNat < 2 ^ 32) :
    (p.GetEpochCheckpointHeight epoch).toNat = epoch.toNat * p.epoch_length.toNat := by
  rw [GetEpochCheckpointHeight, UInt32.toNat_mul, Nat.mod_eq_of_lt hfit]

theorem GetEpochStartHeight_toNat {epoch : UInt32} (he : epoch ≠ 0)
    (hfit : (epoch.toNat - 1) * p.epoch_length.toNat + 1 < 2 ^ 32) :
    (p.GetEpochStartHeight epoch).toNat = (epoch.toNat - 1) * p.epoch_length.toNat + 1 := by
  have hpred := UInt32.toNat_pred_of_ne_zero he
  have hcp : (p.GetEpochCheckpointHeight (epoch - 1)).toNat =
      (epoch - 1).toNat * p.epoch_length.toNat :=
    p.GetEpochCheckpointHeight_toNat (by rw [hpred]; omega)
  rw [GetEpochStartHeight, if_neg he, UInt32.toNat_add, hcp, hpred, UInt32.toNat_one,
    Nat.mod_eq_of_lt hfit]

theorem GetEpoch_toNat_le {block_height : Height} (h : block_height.toNat < 2 ^ 31) :
    (p.GetEpoch block_height).toNat ≤ 2 ^ 31 := by
  unfold GetEpoch
  dsimp only
  have hdiv : (block_height / p.epoch_length).toNat ≤ block_height.toNat := by
    rw [UInt32.toNat_div]
    exact Nat.div_le_self _ _
  split
  · rw [UInt32.toNat_add, UInt32.toNat_one]
    omega
  · omega

/-- `Params::RegTest` without administrator keys. -/
def RegTest : Params where
  epoch_length := 5
  min_deposit_size := 1500 * UNIT
  dynasty_logout_delay := 2
  withdrawal_epoch_delay := 5
  slash_fraction_multiplier := 3
  base_interest_factor := Ufp64.to_ufp64 7
  -- `ufp64::div_2uint(2, 100000)`, whose divisor is not zero
  base_penalty_factor := Ufp64.GetLow64 (2 * Ufp64.SCALE / 100000)
  admin_params := ⟨none, []⟩

end Params

end Finalization

end UnitE
