import UnitE.Proofs.Deposits

/-! Justification and finalization along a chain of blocks. A checkpoint is justified by
the votes of two thirds of both dynasties' deposits (`ProcessVote`) or, at the start of an
epoch in which no finalizer can vote, by `InstaJustify`; either finalizes it when the epoch
before is justified. Both can fire in one block: `InitializeEpoch` runs first and may
justify the epoch just ended, and the block's votes, checked against the parent block's
state, then target the epoch before it. Such a vote does not move the last justified epoch
back: `InstaJustify` runs only when none of the parent's finalizers can vote, or after a
dynasty increment, which needs the vote's target to be finalized already. Over every chain
the last justified and last finalized epochs only grow, each keeps a checkpoint with its
flag set, and `IncrementDynasty` never drops one of them. -/

namespace UnitE.Esperanza

def Checkpoint.flags (cp : Checkpoint) : Bool × Bool := (cp.isJustified, cp.isFinalized)

theorem Checkpoint.exists_of_flags {o o' : Option Checkpoint}
    (h : o'.map Checkpoint.flags = o.map Checkpoint.flags) {cp : Checkpoint} (hcp : o = some cp) :
    ∃ cp', o' = some cp' ∧ cp'.isJustified = cp.isJustified ∧ cp'.isFinalized = cp.isFinalized := by
  subst hcp
  cases o' with
  | none => simp at h
  | some cp' =>
    simp only [Option.map_some, Option.some.injEq, Checkpoint.flags, Prod.mk.injEq] at h
    exact ⟨cp', rfl, h⟩

namespace FinalizationState

open Finalization

section EpochArithmetic

variable {a b : UInt32}

theorem pred_lt (h : 1 ≤ a) : a - 1 < a := by
  have h1 := UInt32.le_iff_toNat_le.mp h
  rw [UInt32.toNat_one] at h1
  rw [UInt32.lt_iff_toNat_lt, UInt32.toNat_pred h]
  omega

theorem le_pred_of_lt (h : b < a) : b ≤ a - 1 := by
  have hlt := UInt32.lt_iff_toNat_lt.mp h
  have h1 : 1 ≤ a := by
    rw [UInt32.le_iff_toNat_le, UInt32.toNat_one]
    omega
  rw [UInt32.le_iff_toNat_le, UInt32.toNat_pred h1]
  omega

theorem le_zero_sub_one (a : UInt32) : a ≤ 0 - 1 := by
  rw [UInt32.le_iff_toNat_le]
  have := a.toNat_lt
  simp only [UInt32.reduceSub, UInt32.reduceToNat]
  omega

theorem one_le_of_pred_le (h : a - 1 ≤ a) : 1 ≤ a := by
  by_cases ha : a = 0
  · subst ha
    exact absurd h (by decide)
  · exact UInt32.one_le_of_ne_zero ha

theorem lt_succ_of_le (ha : a.toNat ≤ 2 ^ 31) (h : b ≤ a) : b < a + 1 := by
  rw [UInt32.lt_iff_toNat_lt, toNat_succ_of_le ha]
  have := UInt32.le_iff_toNat_le.mp h
  omega

theorem succ_sub_two (a : UInt32) : a + 1 - 2 = a - 1 := by grind

theorem sub_two_ne_sub_one (a : UInt32) : a - 2 ≠ a - 1 := by grind

end EpochArithmetic

/-- The justification invariant: the last finalized epoch is at most the last justified one,
which is before the current epoch once there is an epoch before it; both have a checkpoint
with their flag set, and a finalized checkpoint is justified. -/
structure Finality (s : FinalizationState) : Prop where
  finalized_le_justified : s.lastFinalizedEpoch ≤ s.lastJustifiedEpoch
  justified_le_current : s.lastJustifiedEpoch ≤ s.currentEpoch
  justified_lt_current : 1 ≤ s.currentEpoch → s.lastJustifiedEpoch < s.currentEpoch
  justified_checkpoint : ∃ cp, s.checkpoints s.lastJustifiedEpoch = some cp ∧ cp.isJustified = true
  finalized_checkpoint : ∃ cp, s.checkpoints s.lastFinalizedEpoch = some cp ∧ cp.isFinalized = true
  finalized_justified : ∀ e cp, s.checkpoints e = some cp → cp.isFinalized = true → cp.isJustified = true

/-- No checkpoint lies after the current epoch, and the epoch is one of a block height, so
that the next one does not wrap around. -/
structure CheckpointBounds (s : FinalizationState) : Prop where
  checkpoint_le_current : ∀ e cp, s.checkpoints e = some cp → e ≤ s.currentEpoch
  epoch_le : s.currentEpoch.toNat ≤ 2 ^ 31

structure FinalityInvariant (s : FinalizationState) : Prop extends
    CheckpointBounds s, Finality s

variable {s s' s₁ : FinalizationState}

theorem Finality.justified_le_pred (h : Finality s) : s.lastJustifiedEpoch ≤ s.currentEpoch - 1 := by
  by_cases h1 : 1 ≤ s.currentEpoch
  · exact le_pred_of_lt (h.justified_lt_current h1)
  · have h0 : s.currentEpoch = 0 := by
      rw [UInt32.le_iff_toNat_le, UInt32.toNat_one] at h1
      exact UInt32.toNat_inj.mp (by simp only [UInt32.toNat_zero]; omega)
    rw [h0]
    exact le_zero_sub_one _

/-- `s'` is `s` or later: neither the current, nor the last justified, nor the last
finalized epoch has moved back. -/
structure Advances (s s' : FinalizationState) : Prop where
  currentEpoch : s.currentEpoch ≤ s'.currentEpoch
  lastJustifiedEpoch : s.lastJustifiedEpoch ≤ s'.lastJustifiedEpoch
  lastFinalizedEpoch : s.lastFinalizedEpoch ≤ s'.lastFinalizedEpoch

theorem Advances.refl (s : FinalizationState) : Advances s s :=
  ⟨UInt32.le_refl _, UInt32.le_refl _, UInt32.le_refl _⟩

theorem Advances.trans {s₂ : FinalizationState} (h₁ : Advances s s₁) (h₂ : Advances s₁ s₂) :
    Advances s s₂ :=
  ⟨UInt32.le_trans h₁.currentEpoch h₂.currentEpoch,
    UInt32.le_trans h₁.lastJustifiedEpoch h₂.lastJustifiedEpoch,
    UInt32.le_trans h₁.lastFinalizedEpoch h₂.lastFinalizedEpoch⟩

/-- `s'` agrees with `s` on what justification reads: the three epochs and the flags of every
checkpoint. -/
structure KeepsFinality (s s' : FinalizationState) : Prop where
  currentEpoch : s'.currentEpoch = s.currentEpoch
  lastJustifiedEpoch : s'.lastJustifiedEpoch = s.lastJustifiedEpoch
  lastFinalizedEpoch : s'.lastFinalizedEpoch = s.lastFinalizedEpoch
  flags : ∀ e, (s'.checkpoints e).map Checkpoint.flags = (s.checkpoints e).map Checkpoint.flags

namespace KeepsFinality

theorem refl (s : FinalizationState) : KeepsFinality s s := ⟨rfl, rfl, rfl, fun _ => rfl⟩

theorem trans {s₂ : FinalizationState} (h₁ : KeepsFinality s s₁) (h₂ : KeepsFinality s₁ s₂) :
    KeepsFinality s s₂ :=
  ⟨h₂.currentEpoch.trans h₁.currentEpoch, h₂.lastJustifiedEpoch.trans h₁.lastJustifiedEpoch,
    h₂.lastFinalizedEpoch.trans h₁.lastFinalizedEpoch, fun e => (h₂.flags e).trans (h₁.flags e)⟩

theorem of_frame (hcp : s'.checkpoints = s.checkpoints) (hcur : s'.currentEpoch = s.currentEpoch)
    (hJ : s'.lastJustifiedEpoch = s.lastJustifiedEpoch)
    (hF : s'.lastFinalizedEpoch = s.lastFinalizedEpoch) : KeepsFinality s s' :=
  ⟨hcur, hJ, hF, fun e => by rw [hcp]⟩

theorem advances (h : KeepsFinality s s') : Advances s s' :=
  ⟨UInt32.le_of_eq h.currentEpoch.symm, UInt32.le_of_eq h.lastJustifiedEpoch.symm,
    UInt32.le_of_eq h.lastFinalizedEpoch.symm⟩

theorem finalityInvariant (hk : KeepsFinality s s') (h : FinalityInvariant s) :
    FinalityInvariant s' where
  checkpoint_le_current e cp' hcp' := by
    obtain ⟨cp, hcp, -⟩ := Checkpoint.exists_of_flags (hk.flags e).symm hcp'
    rw [hk.currentEpoch]
    exact h.checkpoint_le_current e cp hcp
  epoch_le := hk.currentEpoch ▸ h.epoch_le
  finalized_le_justified := by
    rw [hk.lastFinalizedEpoch, hk.lastJustifiedEpoch]
    exact h.finalized_le_justified
  justified_le_current := by
    rw [hk.lastJustifiedEpoch, hk.currentEpoch]
    exact h.justified_le_current
  justified_lt_current := by
    rw [hk.lastJustifiedEpoch, hk.currentEpoch]
    exact h.justified_lt_current
  justified_checkpoint := by
    obtain ⟨cp, hcp, hj⟩ := h.justified_checkpoint
    obtain ⟨cp', hcp', hj', -⟩ := Checkpoint.exists_of_flags (hk.flags _) hcp
    exact ⟨cp', hk.lastJustifiedEpoch ▸ hcp', hj'.trans hj⟩
  finalized_checkpoint := by
    obtain ⟨cp, hcp, hf⟩ := h.finalized_checkpoint
    obtain ⟨cp', hcp', -, hf'⟩ := Checkpoint.exists_of_flags (hk.flags _) hcp
    exact ⟨cp', hk.lastFinalizedEpoch ▸ hcp', hf'.trans hf⟩
  finalized_justified e cp' hcp' hf' := by
    obtain ⟨cp, hcp, hj, hf⟩ := Checkpoint.exists_of_flags (hk.flags e).symm hcp'
    rw [← hj]
    exact h.finalized_justified e cp hcp (hf ▸ hf')

end KeepsFinality

theorem setCheckpoint_keepsFinality {e : UInt32} {cp' : Checkpoint}
    (hflags : (s.checkpoints e).map Checkpoint.flags = some cp'.flags) :
    KeepsFinality s (s.setCheckpoint e cp') := by
  refine ⟨rfl, rfl, rfl, fun e' => ?_⟩
  by_cases he : e' = e
  · subst he
    simp [setCheckpoint, hflags]
  · simp [setCheckpoint, Function.update_of_ne he]

/-- `s'` is `s` with the epoch `e` justified: `e` is the last justified epoch and its
checkpoint is justified, and either keeps its finalized flag, with the last finalized epoch,
or is finalized and becomes the last finalized epoch. Every other checkpoint keeps its flags. -/
structure Justifies (e : UInt32) (s s' : FinalizationState) : Prop where
  currentEpoch : s'.currentEpoch = s.currentEpoch
  lastJustifiedEpoch : s'.lastJustifiedEpoch = e
  flags_ne : ∀ e', e' ≠ e →
    (s'.checkpoints e').map Checkpoint.flags = (s.checkpoints e').map Checkpoint.flags
  target : ∃ cp cp', s.checkpoints e = some cp ∧ s'.checkpoints e = some cp' ∧
    cp'.isJustified = true ∧
    (cp'.isFinalized = cp.isFinalized ∧ s'.lastFinalizedEpoch = s.lastFinalizedEpoch ∨
      cp'.isFinalized = true ∧ s'.lastFinalizedEpoch = e)

/-- The checkpoint of `e`, read as `cp`, is written back justified in `s₁`, which agrees with
`s` on justification, and `e` becomes the last justified epoch. -/
theorem justifies_of_justify {e : UInt32} {cp cp' : Checkpoint} (hk : KeepsFinality s s₁)
    (hcp : s.checkpoints e = some cp) (hflags : cp'.flags = cp.flags) :
    Justifies e s ({ s₁ with lastJustifiedEpoch := e }.setCheckpoint e
      { cp' with isJustified := true }) where
  currentEpoch := hk.currentEpoch
  lastJustifiedEpoch := rfl
  flags_ne e' he' := by
    simp only [setCheckpoint, Function.update_of_ne he']
    exact hk.flags e'
  target := ⟨cp, _, hcp, Function.update_self .., rfl,
    .inl ⟨congrArg Prod.snd hflags, hk.lastFinalizedEpoch⟩⟩

theorem justifies_of_finalize {e : UInt32} {cp cp' : Checkpoint} (hk : KeepsFinality s s₁)
    (hcp : s.checkpoints e = some cp) :
    Justifies e s ({ s₁ with lastJustifiedEpoch := e, lastFinalizedEpoch := e }.setCheckpoint e
      { cp' with isJustified := true, isFinalized := true }) where
  currentEpoch := hk.currentEpoch
  lastJustifiedEpoch := rfl
  flags_ne e' he' := by
    simp only [setCheckpoint, Function.update_of_ne he']
    exact hk.flags e'
  target := ⟨cp, _, hcp, Function.update_self .., rfl, .inr ⟨rfl, rfl⟩⟩

namespace Justifies

variable {e : UInt32}

theorem justified (hj : Justifies e s s') :
    ∃ cp', s'.checkpoints e = some cp' ∧ cp'.isJustified = true := by
  obtain ⟨-, cp', -, hcp', hj', -⟩ := hj.target
  exact ⟨cp', hcp', hj'⟩

theorem checkpoint_ne (hj : Justifies e s s') {e' : UInt32} {cp' : Checkpoint} (he : e' ≠ e)
    (hcp' : s'.checkpoints e' = some cp') :
    ∃ cp, s.checkpoints e' = some cp ∧ cp.isJustified = cp'.isJustified ∧
      cp.isFinalized = cp'.isFinalized :=
  Checkpoint.exists_of_flags (hj.flags_ne e' he).symm hcp'

section Invariant

variable (hj : Justifies e s s') (h : FinalityInvariant s) (hle : s.lastJustifiedEpoch ≤ e)
include hj h hle

theorem lastFinalizedEpoch_le : s'.lastFinalizedEpoch ≤ e := by
  obtain ⟨-, -, -, -, -, ⟨-, hF'⟩ | ⟨-, hF'⟩⟩ := hj.target <;> rw [hF']
  · exact UInt32.le_trans h.finalized_le_justified hle
  · exact UInt32.le_refl _

theorem advances : Advances s s' := by
  refine ⟨UInt32.le_of_eq hj.currentEpoch.symm, hj.lastJustifiedEpoch ▸ hle, ?_⟩
  obtain ⟨-, -, -, -, -, ⟨-, hF'⟩ | ⟨-, hF'⟩⟩ := hj.target <;> rw [hF']
  · exact UInt32.le_refl _
  · exact UInt32.le_trans h.finalized_le_justified hle

theorem finalityInvariant (hlt : e < s.currentEpoch) : FinalityInvariant s' := by
  obtain ⟨cp, cp', hcp, hcp', hjust', hfin⟩ := hj.target
  refine ⟨⟨?_, hj.currentEpoch ▸ h.epoch_le⟩, ⟨?_, ?_, ?_, ?_, ?_, ?_⟩⟩
  · -- `e` and every old checkpoint are before the current epoch
    intro e' cp'' hcp''
    rw [hj.currentEpoch]
    by_cases he : e' = e
    · exact he ▸ UInt32.le_of_lt hlt
    · obtain ⟨cp₀, hcp₀, -⟩ := hj.checkpoint_ne he hcp''
      exact h.checkpoint_le_current e' cp₀ hcp₀
  · exact hj.lastJustifiedEpoch ▸ hj.lastFinalizedEpoch_le h hle
  · rw [hj.lastJustifiedEpoch, hj.currentEpoch]
    exact UInt32.le_of_lt hlt
  · intro _
    rw [hj.lastJustifiedEpoch, hj.currentEpoch]
    exact hlt
  · exact hj.lastJustifiedEpoch ▸ hj.justified
  · rcases hfin with ⟨hkeep, hF'⟩ | ⟨hfin', hF'⟩
    · -- the old last finalized checkpoint: `e`'s, which kept its flag, or another one
      rw [hF']
      obtain ⟨cpF, hcpF, hfF⟩ := h.finalized_checkpoint
      by_cases he : s.lastFinalizedEpoch = e
      · rw [he, hcp] at hcpF
        cases hcpF
        exact ⟨cp', he ▸ hcp', hkeep.trans hfF⟩
      · obtain ⟨cp₀, hcp₀, -, hf₀⟩ := Checkpoint.exists_of_flags (hj.flags_ne _ he) hcpF
        exact ⟨cp₀, hcp₀, hf₀.trans hfF⟩
    · exact ⟨cp', hF' ▸ hcp', hfin'⟩
  · intro e' cp'' hcp'' hfin''
    by_cases he : e' = e
    · subst he
      rw [hcp'] at hcp''
      cases hcp''
      exact hjust'
    · obtain ⟨cp₀, hcp₀, hj₀, hf₀⟩ := hj.checkpoint_ne he hcp''
      rw [← hj₀]
      exact h.finalized_justified e' cp₀ hcp₀ (hf₀ ▸ hfin'')

end Invariant

end Justifies

/-! What each operation does to justification. -/

theorem countVote_flags (cp : Checkpoint) (vote : Vote) (validator : Validator)
    (inCurDynasty inPrevDynasty : Bool) :
    (countVote cp vote validator inCurDynasty inPrevDynasty).2.2.flags = cp.flags := by
  unfold countVote emplaceZero
  cases cp.curDynastyVotes vote.sourceEpoch <;> cases cp.prevDynastyVotes vote.sourceEpoch <;>
    cases inCurDynasty <;> cases inPrevDynasty <;> rfl

theorem rewardVote_keepsFinality {vote : Vote} {validator : Validator}
    (h : s.rewardVote vote validator = .ok s') : KeepsFinality s s' := by
  rcases s.rewardVote_eq_ok h with rfl | ⟨-, r, hr⟩
  · exact .refl _
  · obtain ⟨v, -, rfl⟩ := s.ProcessReward_eq_ok hr
    exact .of_frame rfl rfl rfl rfl

theorem ProcessVote_finality {vote : Vote} (h : s.ProcessVote vote = .ok s') :
    KeepsFinality s s' ∨
      (∃ cp, s.checkpoints vote.targetEpoch = some cp ∧ cp.isJustified = false) ∧
        Justifies vote.targetEpoch s s' := by
  obtain ⟨cp, validator, s₁, hcp, -, hreward, hjustify⟩ := s.ProcessVote_eq_ok h
  have hk₁ := s.rewardVote_keepsFinality hreward
  -- the counted checkpoint has the flags of the one read
  have hflags := countVote_flags cp vote validator (IsInDynasty validator s.currentDynasty)
    (IsInDynasty validator (s.currentDynasty - 1))
  rcases s₁.justifyTarget_eq_ok hjustify with rfl | ⟨hnot, -, rfl⟩ | ⟨hnot, -, rfl⟩
  · refine .inl (hk₁.trans (setCheckpoint_keepsFinality ?_))
    rw [hk₁.flags, hcp, hflags]
    rfl
  · exact .inr ⟨⟨cp, hcp, (congrArg Prod.fst hflags).symm.trans hnot⟩, justifies_of_justify hk₁ hcp hflags⟩
  · exact .inr ⟨⟨cp, hcp, (congrArg Prod.fst hflags).symm.trans hnot⟩, justifies_of_finalize hk₁ hcp⟩

theorem RegisterLastTx_keepsFinality {validatorAddress : Uint160} {txHash : Uint256}
    (h : s.RegisterLastTx validatorAddress txHash = .ok s') : KeepsFinality s s' := by
  obtain ⟨v, -, rfl⟩ := s.RegisterLastTx_eq_ok_iff.mp h
  exact .of_frame rfl rfl rfl rfl

/-- A commit other than a vote leaves justification as it is; a vote is `ProcessVote`
followed by a step that does. -/
theorem ProcessNewCommit_finality (hash160 : List UInt8 → Uint160) {tx : CommitTx}
    (h : s.ProcessNewCommit hash160 tx = .ok s') :
    KeepsFinality s s' ∨ ∃ vote txHash s₁, tx = .vote vote txHash ∧ s.ProcessVote vote = .ok s₁ ∧
      KeepsFinality s₁ s' := by
  cases tx with
  | vote vote txHash =>
    obtain ⟨s₁, hvote, hreg⟩ := s.ProcessNewCommit_vote_eq_ok hash160 h
    exact .inr ⟨vote, txHash, s₁, rfl, hvote, RegisterLastTx_keepsFinality hreg⟩
  | deposit validatorAddress depositValue txHash =>
    obtain ⟨_, rfl⟩ := s.ProcessNewCommit_deposit_eq_ok hash160 h
    exact .inl (.of_frame rfl rfl rfl rfl)
  | logout validatorAddress txHash =>
    obtain ⟨s₁, hlogout, hreg⟩ := s.ProcessNewCommit_logout_eq_ok hash160 h
    have hk := RegisterLastTx_keepsFinality hreg
    obtain ⟨v, -, rfl⟩ := s.ProcessLogout_eq_ok hlogout
    refine .inl (KeepsFinality.trans ?_ hk)
    exact .of_frame rfl rfl rfl rfl
  | withdraw validatorAddress requestedWithdraw =>
    cases Except.ok.inj h
    exact .inl (.of_frame rfl rfl rfl rfl)
  | slash vote1 vote2 =>
    have hslash : s.ProcessSlash vote1 vote2 = .ok s' := h
    obtain ⟨v, t, v', -, -, -, -, -, rfl⟩ := s.ProcessSlash_eq_ok hslash
    exact .inl (.of_frame rfl rfl rfl rfl)
  | admin commands adminKeys =>
    cases Except.ok.inj h
    exact .inl (.of_frame rfl rfl rfl rfl)
  | regular =>
    cases Except.ok.inj h
    exact .inl (.refl s)

theorem GetCollectiveRewardFactor_keepsFinality {f : Ufp64.ufp64_t}
    (h : s.GetCollectiveRewardFactor = .ok (f, s')) : KeepsFinality s s' := by
  rcases s.GetCollectiveRewardFactor_eq_ok h with rfl | ⟨cp, curMap, prevMap, hcp, rfl⟩
  · exact .refl _
  · refine setCheckpoint_keepsFinality ?_
    rw [hcp]
    rfl

/-- `openEpoch` opens the checkpoint of the new epoch with neither flag set and moves to the
new epoch; the reward factor it reads sets no flag. -/
theorem openEpoch_keepsFinality {new_epoch : UInt32} (h : s.openEpoch new_epoch = .ok s') :
    ∃ cp, cp.flags = (false, false) ∧
      KeepsFinality { s.setCheckpoint new_epoch cp with currentEpoch := new_epoch } s' := by
  obtain ⟨_, _, _, _, _, _, hcollective, rfl⟩ := s.openEpoch_eq_ok_collective h
  exact ⟨_, rfl,
    (GetCollectiveRewardFactor_keepsFinality hcollective).trans (.of_frame rfl rfl rfl rfl)⟩

/-- Opening the next epoch with a checkpoint that is neither justified nor finalized keeps the
invariant: every old checkpoint, the last justified one among them, lies before it. -/
theorem FinalityInvariant.openNext (h : FinalityInvariant s)
    (hle : (s.currentEpoch + 1).toNat ≤ 2 ^ 31) {cp₀ : Checkpoint} (hflags : cp₀.flags = (false, false)) :
    FinalityInvariant
      { s.setCheckpoint (s.currentEpoch + 1) cp₀ with currentEpoch := s.currentEpoch + 1 } := by
  have hbefore {e : UInt32} (he : e ≤ s.currentEpoch) : e < s.currentEpoch + 1 :=
    lt_succ_of_le h.epoch_le he
  have hJ := hbefore h.justified_le_current
  have hF := hbefore (UInt32.le_trans h.finalized_le_justified h.justified_le_current)
  refine ⟨⟨?_, hle⟩, ⟨h.finalized_le_justified, UInt32.le_of_lt hJ, fun _ => hJ, ?_, ?_, ?_⟩⟩
  · intro e cp hcp
    simp only [setCheckpoint, Function.update_apply] at hcp
    split_ifs at hcp with he
    · exact UInt32.le_of_eq he
    · exact UInt32.le_of_lt (hbefore (h.checkpoint_le_current e cp hcp))
  · simpa [setCheckpoint, Function.update_of_ne (UInt32.ne_of_lt hJ)] using h.justified_checkpoint
  · simpa [setCheckpoint, Function.update_of_ne (UInt32.ne_of_lt hF)] using h.finalized_checkpoint
  · intro e cp hcp hfin
    simp only [setCheckpoint, Function.update_apply] at hcp
    split_ifs at hcp with he
    · cases hcp
      simp only [Checkpoint.flags, Prod.mk.injEq] at hflags
      simp [hflags.2] at hfin
    · exact h.finalized_justified e cp hcp hfin

theorem FinalityInvariant.prune (h : FinalityInvariant s)
    (hcp : ∀ e, s'.checkpoints e = if e < s.lastFinalizedEpoch then none else s.checkpoints e)
    (hcur : s'.currentEpoch = s.currentEpoch) (hJ : s'.lastJustifiedEpoch = s.lastJustifiedEpoch)
    (hF : s'.lastFinalizedEpoch = s.lastFinalizedEpoch) : FinalityInvariant s' := by
  have hsub (e : UInt32) (cp : Checkpoint) (h' : s'.checkpoints e = some cp) :
      s.checkpoints e = some cp := by
    rw [hcp] at h'
    split_ifs at h'
    exact h'
  have hkeep {e : UInt32} (he : s.lastFinalizedEpoch ≤ e) : s'.checkpoints e = s.checkpoints e := by
    rw [hcp, if_neg (UInt32.not_lt.mpr he)]
  refine ⟨⟨fun e cp h' => hcur ▸ h.checkpoint_le_current e cp (hsub e cp h'), hcur ▸ h.epoch_le⟩,
    ⟨?_, ?_, ?_, ?_, ?_, fun e cp h' => h.finalized_justified e cp (hsub e cp h')⟩⟩
  · rw [hF, hJ]
    exact h.finalized_le_justified
  · rw [hJ, hcur]
    exact h.justified_le_current
  · rw [hJ, hcur]
    exact h.justified_lt_current
  · rw [hJ, hkeep h.finalized_le_justified]
    exact h.justified_checkpoint
  · rw [hF, hkeep (UInt32.le_refl _)]
    exact h.finalized_checkpoint

theorem InstaJustify_justifies (h : s.InstaJustify = .ok s') :
    Justifies (s.currentEpoch - 1) s s' := by
  obtain ⟨cp, hcp, rfl | ⟨-, -, rfl⟩⟩ := s.InstaJustify_eq_ok h
  · exact justifies_of_justify (.refl s) hcp rfl
  · exact justifies_of_finalize (.refl s) hcp

theorem one_le_succ {a : UInt32} (ha : a.toNat ≤ 2 ^ 31) : 1 ≤ a + 1 := by
  rw [UInt32.le_iff_toNat_le, toNat_succ_of_le ha, UInt32.toNat_one]
  omega

theorem noActiveFinalizers_congr (hv : s'.validators = s.validators)
    (hd : s'.currentDynasty = s.currentDynasty) : s'.noActiveFinalizers = s.noActiveFinalizers := by
  unfold noActiveFinalizers IsFinalizerVoting
  rw [hv, hd]

theorem noActiveFinalizers_eq_false {a : Uint160} {v : Validator}
    (hv : s.validators.lookup a = some v) (hvoting : s.IsFinalizerVoting v = true) :
    s.noActiveFinalizers = false := by
  simp only [noActiveFinalizers, decide_eq_false_iff_not, not_forall, Bool.not_eq_false]
  exact ⟨⟨a, v⟩, Finmap.mem_lookup_iff.mp hv, hvoting⟩

/-- The tail of `InitializeEpoch`, once the epoch `s.currentEpoch` has opened: the dynasty
increment and, when no finalizer can vote, `InstaJustify`. It keeps the invariant and moves
nothing back; the last justified epoch stays, or the epoch two before the current one has a
justified checkpoint, or no finalizer of `s` can vote. -/
theorem FinalityInvariant.initializeEpochTail (h : FinalityInvariant s) (hone : 1 ≤ s.currentEpoch)
    (hJ : s.lastJustifiedEpoch ≤ s.currentEpoch - 2) (htail : s.initializeEpochTail = .ok s') :
    FinalityInvariant s' ∧ Advances s s' ∧
      (s'.lastJustifiedEpoch = s.lastJustifiedEpoch ∨
        (∃ cp, s'.checkpoints (s.currentEpoch - 2) = some cp ∧ cp.isJustified = true) ∨
        s.noActiveFinalizers = true) := by
  obtain ⟨s₃, s₄, hincrement, hjustify, rfl⟩ := s.initializeEpochTail_eq_ok htail
  -- the expected source epoch is not read by justification
  have hk : KeepsFinality s₄ { s₄ with expectedSourceEpoch := s₄.lastJustifiedEpoch } :=
    .of_frame rfl rfl rfl rfl
  rcases s.IncrementDynasty_eq_ok hincrement with rfl | ⟨-, ⟨cp, hcp, hfin⟩, hs₃⟩
  · -- the dynasty stays, so `InstaJustify` runs only when no finalizer of `s` can vote
    rcases hjustify with rfl | ⟨hnone, hinsta⟩
    · exact ⟨hk.finalityInvariant h, hk.advances, .inl rfl⟩
    · have hj := InstaJustify_justifies hinsta
      have hle := le_pred_of_lt (h.justified_lt_current hone)
      exact ⟨hk.finalityInvariant (hj.finalityInvariant h hle (pred_lt hone)),
        (hj.advances h hle).trans hk.advances, .inr (.inr hnone)⟩
  · -- a new dynasty: the epoch two before is finalized, hence justified, and not pruned
    have hpruned (e : UInt32) :
        s₃.checkpoints e = if e < s.lastFinalizedEpoch then none else s.checkpoints e := by
      rw [hs₃]
    have hcur₃ : s₃.currentEpoch = s.currentEpoch := by rw [hs₃]
    have hJ₃ : s₃.lastJustifiedEpoch = s.lastJustifiedEpoch := by rw [hs₃]
    have hF₃ : s₃.lastFinalizedEpoch = s.lastFinalizedEpoch := by rw [hs₃]
    have h₃ := h.prune hpruned hcur₃ hJ₃ hF₃
    have hadv₃ : Advances s s₃ :=
      ⟨UInt32.le_of_eq hcur₃.symm, UInt32.le_of_eq hJ₃.symm, UInt32.le_of_eq hF₃.symm⟩
    have hcp₃ : s₃.checkpoints (s.currentEpoch - 2) = some cp := by
      rw [hpruned, if_neg (UInt32.not_lt.mpr (UInt32.le_trans h.finalized_le_justified hJ)), hcp]
    have hjust := h.finalized_justified _ cp hcp hfin
    rcases hjustify with rfl | ⟨-, hinsta⟩
    · exact ⟨hk.finalityInvariant h₃, hadv₃.trans hk.advances, .inl hJ₃⟩
    · have hj := InstaJustify_justifies hinsta
      have hone₃ : 1 ≤ s₃.currentEpoch := hcur₃ ▸ hone
      have hle := le_pred_of_lt (h₃.justified_lt_current hone₃)
      have hne : s.currentEpoch - 2 ≠ s₃.currentEpoch - 1 := by
        rw [hcur₃]
        exact sub_two_ne_sub_one _
      obtain ⟨cp', hcp', hj', -⟩ := Checkpoint.exists_of_flags (hj.flags_ne _ hne) hcp₃
      exact ⟨hk.finalityInvariant (hj.finalityInvariant h₃ hle (pred_lt hone₃)),
        hadv₃.trans ((hj.advances h₃ hle).trans hk.advances),
        .inr (.inl ⟨cp', hcp', hj'.trans hjust⟩)⟩

/-- What lets a vote checked against the parent state `p` be applied to `s`: its target, the
epoch before `p`'s, is not before the last justified epoch of `s`, or is justified in `s`
already, or no finalizer of `p` can vote. -/
def VoteSafe (p s : FinalizationState) : Prop :=
  s.lastJustifiedEpoch ≤ p.currentEpoch - 1 ∨
    (∃ cp, s.checkpoints (p.currentEpoch - 1) = some cp ∧ cp.isJustified = true) ∨
    p.noActiveFinalizers = true

theorem VoteSafe.of_keeps {p : FinalizationState} (h : VoteSafe p s) (hk : KeepsFinality s s') :
    VoteSafe p s' := by
  rcases h with hle | ⟨cp, hcp, hj⟩ | hnone
  · exact .inl (hk.lastJustifiedEpoch ▸ hle)
  · obtain ⟨cp', hcp', hj', -⟩ := Checkpoint.exists_of_flags (hk.flags _) hcp
    exact .inr (.inl ⟨cp', hcp', hj'.trans hj⟩)
  · exact .inr (.inr hnone)

/-- `InitializeEpoch` keeps the invariant and moves nothing back, and a vote checked against
the state it starts from stays safe: `InstaJustify`, the only step of it that moves the last
justified epoch, runs when no finalizer can vote, which without a new dynasty was already so
before, and a new dynasty needs the epoch before the one just ended finalized. -/
theorem FinalityInvariant.initializeEpoch (h : FinalityInvariant s) {height : Height}
    {res : Result} (hheight : height.toNat < 2 ^ 31) (hinit : s.InitializeEpoch height = .ok (res, s')) :
    FinalityInvariant s' ∧ Advances s s' ∧ VoteSafe s s' := by
  rcases s.InitializeEpoch_eq_ok hinit with rfl | ⟨s₁, s₂, hepoch, hopen, hs₂, hrest⟩
  · exact ⟨h, .refl _, .inl h.justified_le_pred⟩
  have hle : (s.currentEpoch + 1).toNat ≤ 2 ^ 31 := hepoch ▸ s.settings.GetEpoch_toNat_le hheight
  obtain ⟨cp₀, hflags, hk₁⟩ := s.openEpoch_keepsFinality hopen
  have hf₁ := s.openEpoch_frame hopen
  -- the reward factor is not read by justification
  have hk₂ : KeepsFinality s₁ s₂ := by
    rw [hs₂]
    exact .of_frame rfl rfl rfl rfl
  have h₂ := hk₂.finalityInvariant (hk₁.finalityInvariant (h.openNext hle hflags))
  have hcur₂ : s₂.currentEpoch = s.currentEpoch + 1 := hk₂.currentEpoch.trans hk₁.currentEpoch
  have hJ₂ : s₂.lastJustifiedEpoch = s.lastJustifiedEpoch :=
    hk₂.lastJustifiedEpoch.trans hk₁.lastJustifiedEpoch
  have hadv₂ : Advances s s₂ := by
    refine ⟨?_, UInt32.le_of_eq hJ₂.symm,
      UInt32.le_of_eq (hk₂.lastFinalizedEpoch.trans hk₁.lastFinalizedEpoch).symm⟩
    rw [hcur₂]
    exact UInt32.le_of_lt (lt_succ_of_le h.epoch_le (UInt32.le_refl _))
  rcases hrest with rfl | htail
  · exact ⟨h₂, hadv₂, .inl (hJ₂ ▸ h.justified_le_pred)⟩
  have hJtail : s₂.lastJustifiedEpoch ≤ s₂.currentEpoch - 2 := by
    rw [hJ₂, hcur₂, succ_sub_two]
    exact h.justified_le_pred
  obtain ⟨hinv, hadv, hsafe⟩ := h₂.initializeEpochTail (hcur₂ ▸ one_le_succ h.epoch_le) hJtail htail
  refine ⟨hinv, hadv₂.trans hadv, ?_⟩
  rcases hsafe with hsame | ⟨cp, hcp, hj⟩ | hnone
  · refine .inl ?_
    rw [hsame, hJ₂]
    exact h.justified_le_pred
  · rw [hcur₂, succ_sub_two] at hcp
    exact .inr (.inl ⟨cp, hcp, hj⟩)
  · have hsame : s₂.noActiveFinalizers = s.noActiveFinalizers :=
      noActiveFinalizers_congr (by rw [hs₂, hf₁]) (by rw [hs₂, hf₁])
    exact .inr (.inr (hsame ▸ hnone))

theorem recommendTarget_keepsFinality (height : Height) (blockHash : Uint256) :
    KeepsFinality s (s.recommendTarget height blockHash) := by
  unfold recommendTarget
  split <;> exact .of_frame rfl rfl rfl rfl

section Block

variable (hash160 : List UInt8 → Uint160) {p : FinalizationState}

/-- Inside a block whose commits were checked against the parent's state `p`: the invariant
holds of `p` and of the state reached, nothing has moved back since `p`, and a vote of the
block is still safe. -/
structure WithinBlock (p s : FinalizationState) : Prop where
  parent : FinalityInvariant p
  invariant : FinalityInvariant s
  advances : Advances p s
  voteSafe : VoteSafe p s

theorem WithinBlock.of_keeps (h : WithinBlock p s) (hk : KeepsFinality s s') : WithinBlock p s' :=
  ⟨h.parent, hk.finalityInvariant h.invariant, h.advances.trans hk.advances, h.voteSafe.of_keeps hk⟩

/-- A vote that the parent's state accepts: its target is the epoch before the parent's, and it
moves the last justified epoch only when the target was not justified, so by `VoteSafe` not
back. -/
theorem WithinBlock.processVote (h : WithinBlock p s) {vote : Vote}
    (hvalid : p.ValidateVote vote = .SUCCESS) (hvote : s.ProcessVote vote = .ok s') :
    WithinBlock p s' := by
  obtain ⟨v, cpTarget, -, hv, hcpTarget, -, -, htarget, -, -, hvoting⟩ :=
    p.ValidateVote_eq_success hvalid
  rcases s.ProcessVote_finality hvote with hk | ⟨⟨cp, hcp, hnot⟩, hj⟩
  · exact h.of_keeps hk
  -- the target has a checkpoint in `p`, so `p` is past the first epoch
  have hone : 1 ≤ p.currentEpoch :=
    one_le_of_pred_le (htarget ▸ h.parent.checkpoint_le_current _ _ hcpTarget)
  have hlt : vote.targetEpoch < s.currentEpoch := by
    rw [htarget]
    exact UInt32.lt_of_lt_of_le (pred_lt hone) h.advances.currentEpoch
  have hle : s.lastJustifiedEpoch ≤ vote.targetEpoch := by
    rcases h.voteSafe with hle | ⟨cp', hcp', hjust⟩ | hnone
    · rwa [htarget]
    · rw [← htarget, hcp] at hcp'
      cases hcp'
      rw [hnot] at hjust
      cases hjust
    · rw [p.noActiveFinalizers_eq_false hv hvoting] at hnone
      cases hnone
  obtain ⟨cp', hcp', hjust⟩ := hj.justified
  exact ⟨h.parent, hj.finalityInvariant h.invariant hle hlt,
    h.advances.trans (hj.advances h.invariant hle), .inr (.inl ⟨cp', htarget ▸ hcp', hjust⟩)⟩

theorem WithinBlock.processNewCommit (h : WithinBlock p s) {tx : CommitTx}
    (hvalid : p.ValidateCommit tx) (hcommit : s.ProcessNewCommit hash160 tx = .ok s') :
    WithinBlock p s' := by
  rcases ProcessNewCommit_finality hash160 hcommit with hk | ⟨vote, txHash, s₁, rfl, hvote, hk⟩
  · exact h.of_keeps hk
  · exact (h.processVote hvalid hvote).of_keeps hk

/-- The start of a block: the child state, after `InitializeEpoch` at the first block of an
epoch. -/
theorem WithinBlock.startEpoch (hp : FinalityInvariant p) {height : Height}
    (hheight : height.toNat < 2 ^ 31) (hstart : p.child.startEpoch height = .ok s') :
    WithinBlock p s' := by
  -- the child state differs from the parent's in its status only
  have hchild : KeepsFinality p p.child := .of_frame rfl rfl rfl rfl
  have h₀ : WithinBlock p p.child :=
    ⟨hp, hchild.finalityInvariant hp, hchild.advances, .inl hp.justified_le_pred⟩
  unfold FinalizationState.startEpoch at hstart
  split_ifs at hstart
  · obtain ⟨⟨res, s₁⟩, hinit, rfl⟩ := Except.map_eq_ok.mp hstart
    obtain ⟨hinv, hadv, hsafe⟩ := h₀.invariant.initializeEpoch hheight hinit
    exact ⟨hp, hinv, hchild.advances.trans hadv, hsafe⟩
  · cases Except.ok.inj hstart
    exact h₀

/-- A block keeps the invariant and moves nothing back: the epoch starts, then every commit,
checked against the parent's state, is applied under `WithinBlock`. -/
theorem FinalityInvariant.blockStep (h : FinalityInvariant s) (hstep : BlockStep hash160 s s') :
    FinalityInvariant s' ∧ Advances s s' := by
  cases hstep with
  | @block height blockHash txes hheight hcheck hblock => ?_
  obtain ⟨-, s₀, s₁, hstart, hfold, rfl⟩ := (s.child.ProcessNewCommits_eq_ok hash160).mp hblock
  have h₁ : WithinBlock s s₁ :=
    Except.foldlM_preserves (WithinBlock s) _
      (fun t ht tx htx t' hcommit => ht.processNewCommit hash160 (hcheck tx htx) hcommit) s₀ s₁
      (WithinBlock.startEpoch h hheight hstart) hfold
  -- the recommended target and the status are not read by justification
  have hk : KeepsFinality s₁ { s₁.recommendTarget height blockHash with status := .FROM_COMMITS } :=
    (s₁.recommendTarget_keepsFinality height blockHash).trans (.of_frame rfl rfl rfl rfl)
  exact ⟨(h₁.of_keeps hk).invariant, (h₁.of_keeps hk).advances⟩

/-- Along every run of blocks the invariant holds and nothing moves back: induction over the
run, with the block lemma. -/
theorem FinalityInvariant.of_run (h : FinalityInvariant s)
    (hrun : Relation.ReflTransGen (BlockStep hash160) s s') : FinalityInvariant s' ∧ Advances s s' := by
  induction hrun with
  | refl => exact ⟨h, .refl s⟩
  | tail _ hstep ih =>
    obtain ⟨hinv, hadv⟩ := ih.1.blockStep hash160 hstep
    exact ⟨hinv, ih.2.trans hadv⟩

end Block

theorem finalityInvariant_create (params : Params) : FinalityInvariant (create params) where
  checkpoint_le_current e cp hcp := by
    simp only [create, Function.update_apply] at hcp
    split_ifs at hcp with he
    exact UInt32.le_of_eq he
  epoch_le := by simp [create]
  finalized_le_justified := UInt32.le_refl _
  justified_le_current := UInt32.le_refl _
  justified_lt_current h := by simp [create] at h
  justified_checkpoint :=
    ⟨{ Checkpoint.empty with isJustified := true, isFinalized := true }, by simp [create], rfl⟩
  finalized_checkpoint :=
    ⟨{ Checkpoint.empty with isJustified := true, isFinalized := true }, by simp [create], rfl⟩
  finalized_justified e cp hcp _ := by
    simp only [create, Function.update_apply] at hcp
    split_ifs at hcp
    cases hcp
    rfl

/-- Over every chain of blocks from `FinalizationState(params)`, whose commits are checked
against the parent block's state: the last finalized epoch is at most the last justified one,
which is at most the current epoch and before it once there is an epoch before, both have a
checkpoint with their flag set, a finalized checkpoint is justified, and from then on neither
the last justified nor the last finalized epoch ever decreases. -/
theorem finality_of_blockReachable (hash160 : List UInt8 → Uint160) {params : Params}
    (hreach : BlockReachable hash160 params s) :
    Finality s ∧ ∀ s', Relation.ReflTransGen (BlockStep hash160) s s' →
      s.lastJustifiedEpoch ≤ s'.lastJustifiedEpoch ∧ s.lastFinalizedEpoch ≤ s'.lastFinalizedEpoch := by
  have h := ((finalityInvariant_create params).of_run hash160 hreach).1
  refine ⟨h.toFinality, fun s' hrun => ?_⟩
  have hadv := (h.of_run hash160 hrun).2
  exact ⟨hadv.lastJustifiedEpoch, hadv.lastFinalizedEpoch⟩

def votingBlocks : List BlockInput :=
  [⟨1, 1, [.deposit 7 (1500 * UNIT) 1]⟩, ⟨6, 6, []⟩, ⟨11, 11, []⟩, ⟨15, 15, []⟩, ⟨16, 16, []⟩]

def votingState : FinalizationState :=
  (runBlocks (fun _ => 0) (create Params.RegTest) votingBlocks).getD (create Params.RegTest)

theorem votingState_reachable : BlockReachable (fun _ => 0) Params.RegTest votingState :=
  blockReachable_runBlocks _ (by decide)

theorem finality_of_blockReachable_votingState :
    Finality votingState ∧
      ∀ s', Relation.ReflTransGen (BlockStep fun _ => 0) votingState s' →
        votingState.lastJustifiedEpoch ≤ s'.lastJustifiedEpoch ∧
          votingState.lastFinalizedEpoch ≤ s'.lastFinalizedEpoch :=
  finality_of_blockReachable (fun _ => 0) votingState_reachable

end FinalizationState

end UnitE.Esperanza
