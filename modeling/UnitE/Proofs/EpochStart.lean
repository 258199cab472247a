import UnitE.Proofs.EpochTables

/-! The partition of heights into epochs that `finalization::Params` encodes four times:
`GetEpoch` rounds the height over the epoch length up, `GetEpochStartHeight` and
`GetEpochCheckpointHeight` give the first and the last height of an epoch, and `IsEpochStart`
and `IsCheckpoint` test the remainder. Through `Nat.ceilDiv` they are the blocks of the
positive numbers, and they agree for every height whose epoch ends below `2^32`, the epoch
start test only for epochs of two blocks or more. With epochs of one block, `h % 1 == 1` never
holds although every height starts its epoch, so `ProcessNewCommits` never calls
`InitializeEpoch` and a chain never leaves epoch 0.

When `InitializeEpoch` is called and rejects the reward factor, it has already opened the
next epoch, and it returns that state. -/

namespace UnitE

namespace Finalization.Params

variable {p : Params} {h : Height}

section Partition

variable (hL : p.epoch_length ≠ 0) (hpos : h ≠ 0)
  (hfit : h.toNat + p.epoch_length.toNat ≤ 2 ^ 32)

include hL in
theorem epoch_length_toNat_pos : 0 < p.epoch_length.toNat := by
  rw [Nat.pos_iff_ne_zero, ne_eq, ← UInt32.toNat_zero, UInt32.toNat_inj]
  exact hL

theorem epoch_length_ne_zero_of_two_le (hL2 : 2 ≤ p.epoch_length.toNat) : p.epoch_length ≠ 0 := by
  intro h0
  rw [h0, UInt32.toNat_zero] at hL2
  omega

include hpos in
theorem height_toNat_pos : 0 < h.toNat := by
  rw [Nat.pos_iff_ne_zero, ne_eq, ← UInt32.toNat_zero, UInt32.toNat_inj]
  exact hpos

include hL hpos in
theorem GetEpoch_ne_zero : p.GetEpoch h ≠ 0 := by
  intro h0
  have hpos' := Nat.ceilDiv_pos (epoch_length_toNat_pos hL) (height_toNat_pos hpos)
  rw [← p.GetEpoch_toNat hL, h0, UInt32.toNat_zero] at hpos'
  exact Nat.lt_irrefl 0 hpos'

include hL hpos hfit in
/-- The last height of the epoch of `h`, as a number: it fits since it is below `h` plus the
epoch length. -/
theorem GetEpochCheckpointHeight_GetEpoch_toNat :
    (p.GetEpochCheckpointHeight (p.GetEpoch h)).toNat =
      p.epoch_length.toNat * (h.toNat ⌈/⌉ p.epoch_length.toNat) := by
  have hL' := epoch_length_toNat_pos hL
  have hlow := Nat.mul_pred_ceilDiv_lt hL' (height_toNat_pos hpos)
  have hsucc : p.epoch_length.toNat * (h.toNat ⌈/⌉ p.epoch_length.toNat) =
      p.epoch_length.toNat * (h.toNat ⌈/⌉ p.epoch_length.toNat - 1) + p.epoch_length.toNat := by
    rw [← Nat.mul_add_one, Nat.sub_add_cancel (Nat.ceilDiv_pos hL' (height_toNat_pos hpos))]
  rw [p.GetEpochCheckpointHeight_toNat (by rw [p.GetEpoch_toNat hL, Nat.mul_comm]; omega),
    p.GetEpoch_toNat hL, Nat.mul_comm]

include hL hpos in
theorem GetEpochStartHeight_GetEpoch_toNat :
    (p.GetEpochStartHeight (p.GetEpoch h)).toNat =
      p.epoch_length.toNat * (h.toNat ⌈/⌉ p.epoch_length.toNat - 1) + 1 := by
  have hlow := Nat.mul_pred_ceilDiv_lt (epoch_length_toNat_pos hL) (height_toNat_pos hpos)
  have hsize := h.toNat_lt
  rw [p.GetEpochStartHeight_toNat (GetEpoch_ne_zero hL hpos)
      (by rw [p.GetEpoch_toNat hL, Nat.mul_comm]; omega),
    p.GetEpoch_toNat hL, Nat.mul_comm]

include hL hpos hfit in
/-- A height lies between the first and the last height of its epoch. -/
theorem GetEpochStartHeight_le_le_GetEpochCheckpointHeight :
    p.GetEpochStartHeight (p.GetEpoch h) ≤ h ∧ h ≤ p.GetEpochCheckpointHeight (p.GetEpoch h) := by
  rw [UInt32.le_iff_toNat_le, UInt32.le_iff_toNat_le,
    GetEpochStartHeight_GetEpoch_toNat hL hpos, GetEpochCheckpointHeight_GetEpoch_toNat hL hpos hfit]
  have hlow := Nat.mul_pred_ceilDiv_lt (epoch_length_toNat_pos hL) (height_toNat_pos hpos)
  have hhigh := Nat.le_mul_ceilDiv (a := h.toNat) (epoch_length_toNat_pos hL)
  omega

theorem GetEpochStartHeight_le_le_GetEpochCheckpointHeight_regTest :
    RegTest.GetEpochStartHeight (RegTest.GetEpoch 7) ≤ 7 ∧
      7 ≤ RegTest.GetEpochCheckpointHeight (RegTest.GetEpoch 7) :=
  GetEpochStartHeight_le_le_GetEpochCheckpointHeight (p := RegTest) (h := 7) (by decide) (by decide)
    (by decide)

include hL hpos hfit in
/-- `IsCheckpoint` holds exactly at the last height of an epoch. -/
theorem IsCheckpoint_iff_eq_GetEpochCheckpointHeight :
    p.IsCheckpoint h = true ↔ h = p.GetEpochCheckpointHeight (p.GetEpoch h) := by
  rw [IsCheckpoint_iff, ← UInt32.toNat_inj, GetEpochCheckpointHeight_GetEpoch_toNat hL hpos hfit]
  exact Nat.mod_eq_zero_iff_eq_mul_ceilDiv (epoch_length_toNat_pos hL)

theorem IsCheckpoint_iff_eq_GetEpochCheckpointHeight_regTest :
    RegTest.IsCheckpoint 10 = true ↔ 10 = RegTest.GetEpochCheckpointHeight (RegTest.GetEpoch 10) :=
  IsCheckpoint_iff_eq_GetEpochCheckpointHeight (p := RegTest) (h := 10) (by decide) (by decide)
    (by decide)

include hpos in
/-- With epochs of two blocks or more, `IsEpochStart` holds exactly at the first height of an
epoch. -/
theorem IsEpochStart_iff_eq_GetEpochStartHeight (hL2 : 2 ≤ p.epoch_length.toNat) :
    p.IsEpochStart h = true ↔ h = p.GetEpochStartHeight (p.GetEpoch h) := by
  have hL := epoch_length_ne_zero_of_two_le hL2
  rw [IsEpochStart_iff, ← UInt32.toNat_inj, GetEpochStartHeight_GetEpoch_toNat hL hpos]
  exact Nat.mod_eq_one_iff hL2

end Partition

section LengthOne

variable (hL : p.epoch_length = 1)

include hL in
theorem IsEpochStart_of_epoch_length_one (h : Height) : p.IsEpochStart h = false := by
  simp [IsEpochStart, hL]

include hL in
theorem GetEpochStartHeight_GetEpoch_of_epoch_length_one (hpos : h ≠ 0) :
    p.GetEpochStartHeight (p.GetEpoch h) = h := by
  simp [GetEpoch, GetEpochStartHeight, GetEpochCheckpointHeight, hL, hpos]

end LengthOne

end Finalization.Params

namespace Esperanza.FinalizationState

open Finalization

variable (hash160 : List UInt8 → Uint160) {s s' : FinalizationState}

/-- With epochs of two blocks or more, the start of `ProcessNewCommits` initializes an epoch
exactly at the first height of the epoch. -/
theorem startEpoch_eq_of_two_le (hL2 : 2 ≤ s.settings.epoch_length.toNat) {height : Height}
    (hpos : height ≠ 0) :
    s.startEpoch height =
      if height = s.settings.GetEpochStartHeight (s.settings.GetEpoch height) then
        Prod.snd <$> s.InitializeEpoch height
      else pure s := by
  unfold startEpoch
  by_cases hstart : height = s.settings.GetEpochStartHeight (s.settings.GetEpoch height)
  · rw [if_pos hstart, if_pos ((Params.IsEpochStart_iff_eq_GetEpochStartHeight hpos hL2).mpr hstart)]
  · rw [if_neg hstart, if_neg (fun hes => hstart
      ((Params.IsEpochStart_iff_eq_GetEpochStartHeight hpos hL2).mp hes))]

theorem startEpoch_eq_of_two_le_regTest :
    (create Params.RegTest).startEpoch 6 =
      if (6 : Height) = Params.RegTest.GetEpochStartHeight (Params.RegTest.GetEpoch 6) then
        Prod.snd <$> (create Params.RegTest).InitializeEpoch 6
      else pure (create Params.RegTest) :=
  startEpoch_eq_of_two_le (s := create Params.RegTest) (by decide) (by decide)

/-- A block keeps the current epoch and the settings when its height is not an epoch start:
the commits keep both, and so does the recommended target. -/
theorem BlockStep.currentEpoch_settings_of_not_epochStart {height : Height} {blockHash : Uint256}
    {txes : List CommitTx} (hstart : s.settings.IsEpochStart height = false)
    (h : s.child.ProcessNewCommits hash160 height blockHash txes = .ok s') :
    s'.currentEpoch = s.currentEpoch ∧ s'.settings = s.settings := by
  obtain ⟨-, s₀, s₁, hs₀, hfold, rfl⟩ := (s.child.ProcessNewCommits_eq_ok hash160).mp h
  rw [s.child.startEpoch_of_not_epochStart hstart] at hs₀
  cases hs₀
  have hkeep := Except.foldlM_preserves
    (fun t => t.currentEpoch = s.currentEpoch ∧ t.settings = s.settings) txes
    (fun t ht tx _ t' hcommit =>
      ⟨(ProcessNewCommit_keepsCheckpoints hash160 hcommit).1.trans ht.1,
        (ProcessNewCommit_keepsTables hash160 hcommit).settings.trans ht.2⟩)
    s.child s₁ ⟨rfl, rfl⟩ hfold
  unfold recommendTarget
  split <;> exact hkeep

/-- Run lemma for epochs of one block: along every chain from `FinalizationState(params)`, the
settings stay those of `params` and the current epoch stays where it started. -/
theorem BlockReachable.currentEpoch_of_epoch_length_one {params : Params}
    (hL : params.epoch_length = 1) (hs : BlockReachable hash160 params s) :
    s.currentEpoch = 0 ∧ s.settings = params := by
  induction hs with
  | refl => exact ⟨rfl, rfl⟩
  | @tail b c _ hstep ih =>
    obtain ⟨hcur, hset⟩ := ih
    have hL' : b.settings.epoch_length = 1 := by rw [hset]; exact hL
    cases hstep with
    | block _ _ h =>
      obtain ⟨hcur', hset'⟩ := BlockStep.currentEpoch_settings_of_not_epochStart hash160
        (Params.IsEpochStart_of_epoch_length_one hL' _) h
      exact ⟨hcur'.trans hcur, hset'.trans hset⟩

/-- With an epoch length of 1, which `FromJson` accepts from the `epochLength` setting, every
height after genesis is the first of its epoch by `GetEpochStartHeight`, but `IsEpochStart`
never holds: along every chain from `FinalizationState(params)`, `ProcessNewCommits` never
calls `InitializeEpoch` and the current epoch stays 0. -/
theorem epoch_length_one_never_initializes {params : Params} (hL : params.epoch_length = 1)
    (hs : BlockReachable hash160 params s) :
    s.currentEpoch = 0 ∧ ∀ height : Height, height ≠ 0 →
      params.GetEpochStartHeight (params.GetEpoch height) = height ∧
        params.IsEpochStart height = false ∧ s.child.startEpoch height = .ok s.child := by
  obtain ⟨hcur, hset⟩ := BlockReachable.currentEpoch_of_epoch_length_one hash160 hL hs
  refine ⟨hcur, fun height hpos => ⟨Params.GetEpochStartHeight_GetEpoch_of_epoch_length_one hL hpos,
    Params.IsEpochStart_of_epoch_length_one hL height, ?_⟩⟩
  have hchild : s.child.settings = params := hset
  exact s.child.startEpoch_of_not_epochStart
    (hchild ▸ Params.IsEpochStart_of_epoch_length_one hL height)

/-- A failed `InitializeEpoch` for an invalid reward factor keeps what it wrote before the
check: the next epoch is current and has a deposit scale factor and a slashed total, and the
reward factor is zero. So the state differs from the one it started from. -/
theorem InitializeEpoch_invalid_reward_keeps_writes {height : Height}
    (h : s.InitializeEpoch height = .ok (.INIT_INVALID_REWARD, s')) :
    s' ≠ s ∧ s'.currentEpoch = s.currentEpoch + 1 ∧ s'.rewardFactor = 0 ∧
      (∃ f, s'.depositScaleFactor (s.currentEpoch + 1) = some f) ∧
      ∃ t, s'.totalSlashed (s.currentEpoch + 1) = some t := by
  rcases s.InitializeEpoch_eq_ok_of_ne_success h (by decide) with ⟨hwrong, -⟩ | ⟨-, s₁, hopen, rfl⟩
  · cases hwrong
  obtain ⟨checkpoints, f, t, rfl⟩ := s.openEpoch_eq_ok hopen
  refine ⟨fun heq => ?_, rfl, rfl, ⟨f, Function.update_self ..⟩, ⟨t, Function.update_self ..⟩⟩
  -- the current epoch moved by one, which does not wrap back to itself
  have hcur := congrArg (fun t => t.currentEpoch.toNat) heq
  simp only [UInt32.toNat_add, UInt32.toNat_one] at hcur
  omega

def regTestZeroReward : Params :=
  { Params.RegTest with base_interest_factor := 0, base_penalty_factor := 0 }

def zeroRewardInputs : List StepInput :=
  [.commit (.deposit 7 (1500 * UNIT) 0), .initializeEpoch 1, .initializeEpoch 6, .initializeEpoch 11,
    .initializeEpoch 16, .commit (.vote ⟨7, 0, 2, 3⟩ 1), .initializeEpoch 21, .commit (.vote ⟨7, 0, 3, 4⟩ 2)]

def zeroRewardState : FinalizationState :=
  (runInputs (fun _ => 0) (create regTestZeroReward) zeroRewardInputs).getD (create regTestZeroReward)

theorem zeroRewardState_reachable : Reachable (fun _ => 0) regTestZeroReward zeroRewardState :=
  reachable_runInputs _ (by decide)

theorem InitializeEpoch_invalid_reward_keeps_writes_zeroRewardState :
    Reachable (fun _ => 0) regTestZeroReward zeroRewardState ∧
      ∃ s', zeroRewardState.InitializeEpoch 26 = .ok (.INIT_INVALID_REWARD, s') ∧ s' ≠ zeroRewardState ∧
        s'.currentEpoch = zeroRewardState.currentEpoch + 1 ∧ s'.rewardFactor = 0 ∧
        (∃ f, s'.depositScaleFactor (zeroRewardState.currentEpoch + 1) = some f) ∧
        ∃ t, s'.totalSlashed (zeroRewardState.currentEpoch + 1) = some t := by
  -- the result is computed in the kernel; the state it returns is then read off
  have hres : (zeroRewardState.InitializeEpoch 26).toOption.map Prod.fst =
      some .INIT_INVALID_REWARD := by
    decide +kernel
  obtain ⟨s', hinit⟩ : ∃ s', zeroRewardState.InitializeEpoch 26 = .ok (.INIT_INVALID_REWARD, s') := by
    rcases hx : zeroRewardState.InitializeEpoch 26 with e | ⟨r, s'⟩
    · simp [hx, Except.toOption] at hres
    · simp only [hx, Except.toOption, Option.map_some, Option.some.injEq] at hres
      exact ⟨s', by rw [hres]⟩
  exact ⟨zeroRewardState_reachable, s', hinit, InitializeEpoch_invalid_reward_keeps_writes hinit⟩

def regTestOneBlockEpochs : Params := { Params.RegTest with epoch_length := 1 }

theorem epoch_length_one_never_initializes_regTest :
    ∃ s, (create regTestOneBlockEpochs).child.ProcessNewCommits (fun _ => 0) 1 0 [] = .ok s ∧
      s.currentEpoch = 0 ∧ ∀ height : Height, height ≠ 0 →
        regTestOneBlockEpochs.GetEpochStartHeight (regTestOneBlockEpochs.GetEpoch height) = height ∧
          regTestOneBlockEpochs.IsEpochStart height = false ∧
          s.child.startEpoch height = .ok s.child := by
  have hblock : (create regTestOneBlockEpochs).child.ProcessNewCommits (fun _ => 0) 1 0 [] =
      .ok _ := rfl
  have hreach : BlockReachable (fun _ => 0) regTestOneBlockEpochs _ :=
    .single (.block (by decide) (by simp [ContextualCheckBlockFinalizerCommits]) hblock)
  exact ⟨_, hblock, epoch_length_one_never_initializes (fun _ => 0) rfl hreach⟩

end Esperanza.FinalizationState

end UnitE
