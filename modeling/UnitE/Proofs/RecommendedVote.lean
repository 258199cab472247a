import UnitE.Proofs.EpochTables

/-! The vote a finalizer is recommended (`GetRecommendedVote`) passes `ValidateVote` once the
epoch after the recommended target has started. The target is then the epoch before the
current one, whose checkpoint `InitializeEpoch` opened and `IncrementDynasty` never drops,
since the last finalized epoch stays before the current one. The source is the expected
source epoch, which only `InitializeEpoch` writes, to the last justified epoch, so its
checkpoint is justified; the commits in between only add justification. The finalizers are
stored under their own address, so the target's vote set is checked for the voter. -/

namespace UnitE.Esperanza

namespace FinalizationState

open Finalization

def ValidatorsKeyed (validators : ValidatorMap) : Prop :=
  ∀ a v, validators.lookup a = some v → v.validatorAddress = a

namespace ValidatorsKeyed

variable {validators : ValidatorMap} {a : Uint160} {v v' : Validator}

theorem insert (h : ValidatorsKeyed validators) (hv : v.validatorAddress = a) :
    ValidatorsKeyed (validators.insert a v) :=
  forall_lookup_insert (P := fun b w => w.validatorAddress = b) h hv

theorem insert_of_lookup (h : ValidatorsKeyed validators) (hv : validators.lookup a = some v)
    (hv' : v'.validatorAddress = v.validatorAddress) : ValidatorsKeyed (validators.insert a v') :=
  h.insert (hv'.trans (h a v hv))

theorem erase (h : ValidatorsKeyed validators) (a : Uint160) :
    ValidatorsKeyed (validators.erase a) :=
  forall_lookup_erase (P := fun b w => w.validatorAddress = b) h

end ValidatorsKeyed

variable {s s' s₁ : FinalizationState}

/-- Every checkpoint of `s` is one of `s'`, justified there when it is justified in `s`. -/
def KeepsJustified (s s' : FinalizationState) : Prop :=
  ∀ e cp, s.checkpoints e = some cp →
    ∃ cp', s'.checkpoints e = some cp' ∧ (cp.isJustified = true → cp'.isJustified = true)

theorem KeepsJustified.trans {s₂ : FinalizationState} (h₁ : KeepsJustified s s₁)
    (h₂ : KeepsJustified s₁ s₂) : KeepsJustified s s₂ := by
  intro e cp hcp
  obtain ⟨cp₁, hcp₁, hj₁⟩ := h₁ e cp hcp
  obtain ⟨cp₂, hcp₂, hj₂⟩ := h₂ e cp₁ hcp₁
  exact ⟨cp₂, hcp₂, hj₂ ∘ hj₁⟩

theorem KeepsJustified.of_checkpoints (h : s'.checkpoints = s.checkpoints) : KeepsJustified s s' := by
  intro e cp hcp
  exact ⟨cp, h ▸ hcp, id⟩

theorem KeepsFinality.keepsJustified (hk : KeepsFinality s s') : KeepsJustified s s' := by
  intro e cp hcp
  obtain ⟨cp', hcp', hj, -⟩ := Checkpoint.exists_of_flags (hk.flags e) hcp
  exact ⟨cp', hcp', fun hjust => hj.trans hjust⟩

theorem Justifies.keepsJustified {e : UInt32} (hj : Justifies e s s') : KeepsJustified s s' := by
  intro e' cp hcp
  by_cases he : e' = e
  · subst he
    obtain ⟨cp', hcp', hjust⟩ := hj.justified
    exact ⟨cp', hcp', fun _ => hjust⟩
  · obtain ⟨cp', hcp', hj', -⟩ := Checkpoint.exists_of_flags (hj.flags_ne e' he) hcp
    exact ⟨cp', hcp', fun hjust => hj'.trans hjust⟩

/-- `s'` keeps what the recommended vote of `s` is built from and checked against: the current
epoch, the vote's source and target epochs, the finalizers' keys, and every checkpoint,
justified where it was. -/
structure KeepsVote (s s' : FinalizationState) : Prop where
  currentEpoch : s'.currentEpoch = s.currentEpoch
  expectedSourceEpoch : s'.expectedSourceEpoch = s.expectedSourceEpoch
  recommendedTargetEpoch : s'.recommendedTargetEpoch = s.recommendedTargetEpoch
  keyed : ValidatorsKeyed s.validators → ValidatorsKeyed s'.validators
  justified : KeepsJustified s s'

namespace KeepsVote

theorem refl (s : FinalizationState) : KeepsVote s s := ⟨rfl, rfl, rfl, id, fun _ cp hcp => ⟨cp, hcp, id⟩⟩

theorem trans {s₂ : FinalizationState} (h₁ : KeepsVote s s₁) (h₂ : KeepsVote s₁ s₂) :
    KeepsVote s s₂ :=
  ⟨h₂.currentEpoch.trans h₁.currentEpoch, h₂.expectedSourceEpoch.trans h₁.expectedSourceEpoch,
    h₂.recommendedTargetEpoch.trans h₁.recommendedTargetEpoch, h₂.keyed ∘ h₁.keyed,
    h₁.justified.trans h₂.justified⟩

theorem of_keepsFinality (hk : KeepsFinality s s')
    (hsource : s'.expectedSourceEpoch = s.expectedSourceEpoch)
    (htarget : s'.recommendedTargetEpoch = s.recommendedTargetEpoch)
    (hvalidators : s'.validators = s.validators) : KeepsVote s s' :=
  ⟨hk.currentEpoch, hsource, htarget, fun h => hvalidators ▸ h, hk.keepsJustified⟩

theorem of_frame (hcp : s'.checkpoints = s.checkpoints) (hcur : s'.currentEpoch = s.currentEpoch)
    (hsource : s'.expectedSourceEpoch = s.expectedSourceEpoch)
    (htarget : s'.recommendedTargetEpoch = s.recommendedTargetEpoch)
    (hvalidators : s'.validators = s.validators) : KeepsVote s s' :=
  ⟨hcur, hsource, htarget, fun h => hvalidators ▸ h, .of_checkpoints hcp⟩

end KeepsVote

/-! What each commit does to a recommended vote. -/

theorem ProcessReward_keepsVote {validatorAddress : Uint160} {reward r : Nat}
    (h : s.ProcessReward validatorAddress reward = .ok (r, s')) : KeepsVote s s' := by
  obtain ⟨v, hv, rfl⟩ := s.ProcessReward_eq_ok h
  exact ⟨rfl, rfl, rfl, fun hkeyed => hkeyed.insert_of_lookup hv rfl, .of_checkpoints rfl⟩

theorem RegisterLastTx_keepsVote {validatorAddress : Uint160} {txHash : Uint256}
    (h : s.RegisterLastTx validatorAddress txHash = .ok s') : KeepsVote s s' := by
  obtain ⟨v, hv, rfl⟩ := s.RegisterLastTx_eq_ok_iff.mp h
  exact ⟨rfl, rfl, rfl, fun hkeyed => hkeyed.insert_of_lookup hv rfl, .of_checkpoints rfl⟩

theorem ProcessVote_keepsVote {vote : Vote} (h : s.ProcessVote vote = .ok s') : KeepsVote s s' := by
  obtain ⟨cp, validator, s₂, -, -, hreward, hjustify⟩ := s.ProcessVote_eq_ok h
  have hvalidators : s'.validators = s₂.validators := by
    rcases s₂.justifyTarget_eq_ok hjustify with rfl | ⟨-, -, rfl⟩ | ⟨-, -, rfl⟩ <;> rfl
  have hkeyed : ValidatorsKeyed s.validators → ValidatorsKeyed s₂.validators := by
    rcases s.rewardVote_eq_ok hreward with rfl | ⟨-, r, hr⟩
    · exact id
    · exact (ProcessReward_keepsVote hr).keyed
  have hjust : KeepsJustified s s' := by
    rcases s.ProcessVote_finality h with hk | ⟨-, hj⟩
    · exact hk.keepsJustified
    · exact hj.keepsJustified
  have hframe := s.ProcessVote_frame h
  refine ⟨?_, ?_, ?_, fun h => hvalidators ▸ hkeyed h, hjust⟩ <;> rw [hframe]

theorem ProcessLogout_keepsVote {validatorAddress : Uint160}
    (h : s.ProcessLogout validatorAddress = .ok s') : KeepsVote s s' := by
  obtain ⟨v, hv, rfl⟩ := s.ProcessLogout_eq_ok h
  exact ⟨rfl, rfl, rfl, fun hkeyed => hkeyed.insert_of_lookup hv rfl, .of_checkpoints rfl⟩

theorem ProcessSlash_keepsVote {vote1 vote2 : Vote} (h : s.ProcessSlash vote1 vote2 = .ok s') :
    KeepsVote s s' := by
  simp only [ProcessSlash, Except.bind_eq_ok, GetTotalSlashed_eq_ok, validatorAt_eq_ok] at h
  obtain ⟨_, ⟨t, -, rfl⟩, v, hv, hres⟩ := h
  -- each branch writes copies of `v` back under its address, the last write standing
  split_ifs at hres with hend hmax
  · simp only [Except.pure_eq_ok_self, Except.ok.injEq] at hres
    subst hres
    simp only [setValidator, addDynastyDelta_eq, Finmap.insert_insert]
    exact ⟨rfl, rfl, rfl, fun hk => hk.insert_of_lookup hv rfl, .of_checkpoints rfl⟩
  · obtain ⟨total, -, hres⟩ := Except.bind_eq_ok.mp hres
    simp only [Except.pure_eq_ok_self, Except.ok.injEq] at hres
    subst hres
    simp only [setValidator, addDynastyDelta_eq, Finmap.insert_insert]
    exact ⟨rfl, rfl, rfl, fun hk => hk.insert_of_lookup hv rfl, .of_checkpoints rfl⟩
  · simp only [Except.pure_eq_ok_self, Except.ok.injEq] at hres
    subst hres
    exact ⟨rfl, rfl, rfl, fun hk => hk.insert_of_lookup hv rfl, .of_checkpoints rfl⟩

theorem ProcessNewCommit_keepsVote (hash160 : List UInt8 → Uint160) {tx : CommitTx}
    (h : s.ProcessNewCommit hash160 tx = .ok s') : KeepsVote s s' := by
  cases tx with
  | vote vote txHash =>
    obtain ⟨s₂, hvote, hreg⟩ := s.ProcessNewCommit_vote_eq_ok hash160 h
    exact (ProcessVote_keepsVote hvote).trans (RegisterLastTx_keepsVote hreg)
  | deposit validatorAddress depositValue txHash =>
    obtain ⟨scaledDeposit, rfl⟩ := s.ProcessNewCommit_deposit_eq_ok hash160 h
    -- a new finalizer is created with the address it is stored under
    refine ⟨rfl, rfl, rfl, fun hkeyed => hkeyed.insert ?_, .of_checkpoints rfl⟩
    cases hv : s.validators.lookup validatorAddress with
    | none => rfl
    | some v => exact hkeyed validatorAddress v hv
  | logout validatorAddress txHash =>
    obtain ⟨s₂, hlogout, hreg⟩ := s.ProcessNewCommit_logout_eq_ok hash160 h
    exact (ProcessLogout_keepsVote hlogout).trans (RegisterLastTx_keepsVote hreg)
  | withdraw validatorAddress requestedWithdraw =>
    cases Except.ok.inj h
    exact ⟨rfl, rfl, rfl, fun hkeyed => hkeyed.erase validatorAddress, .of_checkpoints rfl⟩
  | slash vote1 vote2 =>
    have hslash : s.ProcessSlash vote1 vote2 = .ok s' := h
    exact ProcessSlash_keepsVote hslash
  | admin commands adminKeys =>
    cases Except.ok.inj h
    exact .of_frame rfl rfl rfl rfl rfl
  | regular =>
    cases Except.ok.inj h
    exact .refl s

theorem InstaJustify_keepsVote (h : s.InstaJustify = .ok s') : KeepsVote s s' := by
  have hj := InstaJustify_justifies h
  obtain ⟨cp, -, rfl | ⟨-, -, rfl⟩⟩ := s.InstaJustify_eq_ok h <;>
    exact ⟨hj.currentEpoch, rfl, rfl, id, hj.keepsJustified⟩

/-- What a recommended vote needs of a state: the finalizers are stored under their address,
the current epoch and the one before it have a checkpoint, the expected source epoch has a
justified one, and the recommended target is the epoch of a block height. -/
structure VoteInvariant (s : FinalizationState) : Prop where
  keyed : ValidatorsKeyed s.validators
  current_checkpoint : ∃ cp, s.checkpoints s.currentEpoch = some cp
  prev_checkpoint : 1 ≤ s.currentEpoch → ∃ cp, s.checkpoints (s.currentEpoch - 1) = some cp
  source_justified : ∃ cp, s.checkpoints s.expectedSourceEpoch = some cp ∧ cp.isJustified = true
  target_le : s.recommendedTargetEpoch.toNat ≤ 2 ^ 31

theorem KeepsVote.voteInvariant (hk : KeepsVote s s') (h : VoteInvariant s) : VoteInvariant s' := by
  have hkept {e : UInt32} (hcp : ∃ cp, s.checkpoints e = some cp) :
      ∃ cp, s'.checkpoints e = some cp := by
    obtain ⟨cp, hcp⟩ := hcp
    obtain ⟨cp', hcp', -⟩ := hk.justified e cp hcp
    exact ⟨cp', hcp'⟩
  refine ⟨hk.keyed h.keyed, ?_, fun hone => ?_, ?_, hk.recommendedTargetEpoch ▸ h.target_le⟩
  · rw [hk.currentEpoch]
    exact hkept h.current_checkpoint
  · rw [hk.currentEpoch] at hone ⊢
    exact hkept (h.prev_checkpoint hone)
  · obtain ⟨cp, hcp, hjust⟩ := h.source_justified
    obtain ⟨cp', hcp', hj⟩ := hk.justified _ cp hcp
    exact ⟨cp', hk.expectedSourceEpoch ▸ hcp', hj hjust⟩

/-- Opening the next epoch adds its checkpoint and keeps every other, the source's among
them, since no checkpoint lies after the current epoch. -/
theorem VoteInvariant.openNext (h : VoteInvariant s) (hb : CheckpointBounds s) (cp₀ : Checkpoint) :
    VoteInvariant
      { s.setCheckpoint (s.currentEpoch + 1) cp₀ with currentEpoch := s.currentEpoch + 1 } := by
  have hne {e : UInt32} (he : e ≤ s.currentEpoch) : e ≠ s.currentEpoch + 1 :=
    UInt32.ne_of_lt (lt_succ_of_le hb.epoch_le he)
  refine ⟨h.keyed, ⟨cp₀, Function.update_self ..⟩, fun _ => ?_, ?_, h.target_le⟩
  · obtain ⟨cp, hcp⟩ := h.current_checkpoint
    refine ⟨cp, ?_⟩
    simp only [setCheckpoint, UInt32.add_sub_cancel]
    rw [Function.update_of_ne (hne (UInt32.le_refl _))]
    exact hcp
  · obtain ⟨cp, hcp, hjust⟩ := h.source_justified
    refine ⟨cp, ?_, hjust⟩
    simp only [setCheckpoint]
    rw [Function.update_of_ne (hne (hb.checkpoint_le_current _ cp hcp))]
    exact hcp

/-- The tail of `InitializeEpoch` drops only checkpoints before the last finalized epoch, which
is before the current one, and then makes the last justified epoch the expected source. -/
theorem VoteInvariant.initializeEpochTail (h : VoteInvariant s)
    (hF : s.lastFinalizedEpoch ≤ s.currentEpoch - 1) (hone : 1 ≤ s.currentEpoch)
    (hfin' : Finality s') (htail : s.initializeEpochTail = .ok s') : VoteInvariant s' := by
  obtain ⟨s₃, s₄, hincrement, hjustify, rfl⟩ := s.initializeEpochTail_eq_ok htail
  obtain ⟨hvalidators, hcur, htarget, hpruned⟩ : s₃.validators = s.validators ∧
      s₃.currentEpoch = s.currentEpoch ∧ s₃.recommendedTargetEpoch = s.recommendedTargetEpoch ∧
      ∀ e, s.lastFinalizedEpoch ≤ e → s₃.checkpoints e = s.checkpoints e := by
    rcases s.IncrementDynasty_eq_ok hincrement with rfl | ⟨-, -, rfl⟩
    · exact ⟨rfl, rfl, rfl, fun _ _ => rfl⟩
    · exact ⟨rfl, rfl, rfl, fun e he => if_neg (UInt32.not_lt.mpr he)⟩
  have hk : KeepsVote s₃ s₄ := by
    rcases hjustify with rfl | ⟨-, hinsta⟩
    · exact .refl _
    · exact InstaJustify_keepsVote hinsta
  have hkept {e : UInt32} (he : s.lastFinalizedEpoch ≤ e) (hcp : ∃ cp, s.checkpoints e = some cp) :
      ∃ cp, s₄.checkpoints e = some cp := by
    obtain ⟨cp, hcp⟩ := hcp
    obtain ⟨cp', hcp', -⟩ := hk.justified e cp ((hpruned e he).trans hcp)
    exact ⟨cp', hcp'⟩
  have hcur₄ : s₄.currentEpoch = s.currentEpoch := hk.currentEpoch.trans hcur
  refine ⟨hk.keyed (hvalidators ▸ h.keyed), ?_, fun _ => ?_, hfin'.justified_checkpoint, ?_⟩
  · show ∃ cp, s₄.checkpoints s₄.currentEpoch = some cp
    rw [hcur₄]
    exact hkept (UInt32.le_trans hF (UInt32.le_of_lt (pred_lt hone))) h.current_checkpoint
  · show ∃ cp, s₄.checkpoints (s₄.currentEpoch - 1) = some cp
    rw [hcur₄]
    exact hkept hF (h.prev_checkpoint hone)
  · show s₄.recommendedTargetEpoch.toNat ≤ 2 ^ 31
    rw [hk.recommendedTargetEpoch, htarget]
    exact h.target_le

/-- `InitializeEpoch` keeps the invariant: the next epoch opens, and unless the reward factor is
invalid, the tail runs with the last finalized epoch before the new current one. -/
theorem VoteInvariant.initializeEpoch (h : VoteInvariant s) (hfin : FinalityInvariant s)
    {height : Height} {res : Result} (hheight : height.toNat < 2 ^ 31)
    (hinit : s.InitializeEpoch height = .ok (res, s')) : VoteInvariant s' := by
  have hfin' := (hfin.initializeEpoch hheight hinit).1
  rcases s.InitializeEpoch_eq_ok hinit with rfl | ⟨s₁, s₂, -, hopen, hs₂, hrest⟩
  · exact h
  obtain ⟨cp₀, -, hk₁⟩ := s.openEpoch_keepsFinality hopen
  have hf₁ := s.openEpoch_frame hopen
  -- the reward factor is not read by justification
  have hk₂ : KeepsFinality
      { s.setCheckpoint (s.currentEpoch + 1) cp₀ with currentEpoch := s.currentEpoch + 1 } s₂ := by
    rw [hs₂]
    exact hk₁.trans (.of_frame rfl rfl rfl rfl)
  have hk : KeepsVote
      { s.setCheckpoint (s.currentEpoch + 1) cp₀ with currentEpoch := s.currentEpoch + 1 } s₂ :=
    .of_keepsFinality hk₂ (by rw [hs₂, hf₁]; rfl) (by rw [hs₂, hf₁]; rfl) (by rw [hs₂, hf₁]; rfl)
  have h₂ := hk.voteInvariant (h.openNext hfin.toCheckpointBounds cp₀)
  rcases hrest with rfl | htail
  · exact h₂
  have hcur₂ : s₂.currentEpoch = s.currentEpoch + 1 := hk.currentEpoch
  have hF₂ : s₂.lastFinalizedEpoch ≤ s₂.currentEpoch - 1 := by
    rw [hcur₂, UInt32.add_sub_cancel, hk₂.lastFinalizedEpoch]
    exact UInt32.le_trans hfin.finalized_le_justified hfin.justified_le_current
  exact h₂.initializeEpochTail hF₂ (hcur₂ ▸ one_le_succ hfin.epoch_le) hfin'.toFinality htail

theorem VoteInvariant.recommendTarget (h : VoteInvariant s) {height : Height}
    (hheight : height.toNat < 2 ^ 31) (blockHash : Uint256) :
    VoteInvariant (s.recommendTarget height blockHash) := by
  unfold FinalizationState.recommendTarget
  split
  · exact ⟨h.keyed, h.current_checkpoint, h.prev_checkpoint, h.source_justified,
      s.settings.GetEpoch_toNat_le hheight⟩
  · exact h

section Block

variable (hash160 : List UInt8 → Uint160)

/-- A block keeps the invariant: the epoch starts on the child state, every commit keeps what
the vote reads, and the block may become the recommended target. -/
theorem VoteInvariant.blockStep (h : VoteInvariant s) (hfin : FinalityInvariant s)
    (hstep : BlockStep hash160 s s') : VoteInvariant s' := by
  cases hstep with
  | @block height blockHash txes hheight hcheck hblock => ?_
  obtain ⟨-, s₀, s₁, hstart, hfold, rfl⟩ := (s.child.ProcessNewCommits_eq_ok hash160).mp hblock
  -- the child state differs from the parent's in its status only
  have hchild : KeepsVote s s.child := .of_frame rfl rfl rfl rfl rfl
  have hfinChild : KeepsFinality s s.child := .of_frame rfl rfl rfl rfl
  have h₀ : VoteInvariant s₀ := by
    unfold FinalizationState.startEpoch at hstart
    split_ifs at hstart
    · obtain ⟨⟨res, s₂⟩, hinit, rfl⟩ := Except.map_eq_ok.mp hstart
      exact (hchild.voteInvariant h).initializeEpoch (hfinChild.finalityInvariant hfin) hheight hinit
    · cases Except.ok.inj hstart
      exact hchild.voteInvariant h
  have h₁ : VoteInvariant s₁ :=
    Except.foldlM_preserves VoteInvariant _
      (fun t ht tx _ t' hcommit => (ProcessNewCommit_keepsVote hash160 hcommit).voteInvariant ht)
      s₀ s₁ h₀ hfold
  have hstatus : KeepsVote (s₁.recommendTarget height blockHash)
      { s₁.recommendTarget height blockHash with status := .FROM_COMMITS } :=
    .of_frame rfl rfl rfl rfl rfl
  exact hstatus.voteInvariant (h₁.recommendTarget hheight blockHash)

/-- Along every run of blocks the invariant holds: induction over the run, with justification's
invariant at each block. -/
theorem VoteInvariant.of_run (h : VoteInvariant s) (hfin : FinalityInvariant s)
    (hrun : Relation.ReflTransGen (BlockStep hash160) s s') : VoteInvariant s' := by
  induction hrun with
  | refl => exact h
  | tail hrun' hstep ih => exact ih.blockStep hash160 (hfin.of_run hash160 hrun').1 hstep

end Block

theorem voteInvariant_create (params : Params) : VoteInvariant (create params) where
  keyed a v hv := by simp [create] at hv
  current_checkpoint :=
    ⟨{ Checkpoint.empty with isJustified := true, isFinalized := true }, by simp [create]⟩
  prev_checkpoint h := by simp [create] at h
  source_justified :=
    ⟨{ Checkpoint.empty with isJustified := true, isFinalized := true }, by simp [create], rfl⟩
  target_le := by simp [create]

/-- Over every chain of blocks from `FinalizationState(params)`, once the epoch after the
recommended target has started: a finalizer that can vote, that the admin state authorizes and
that is not in the vote set of the target's checkpoint has a recommended vote that
`ValidateVote` accepts. Its target and its source have a checkpoint, the source's justified. -/
theorem ValidateVote_GetRecommendedVote (hash160 : List UInt8 → Uint160) {params : Params}
    (hreach : BlockReachable hash160 params s)
    (hepoch : s.currentEpoch = s.recommendedTargetEpoch + 1) {a : Uint160} {v : Validator}
    (hv : s.validators.lookup a = some v) (hvoting : s.IsFinalizerVoting v = true)
    (hauth : s.adminState.IsValidatorAuthorized a = true)
    (hnew : ∀ cp, s.checkpoints s.recommendedTargetEpoch = some cp → a ∉ cp.voteSet) :
    s.ValidateVote (s.GetRecommendedVote a) = .SUCCESS ∧
      (∃ cp, s.checkpoints s.recommendedTargetEpoch = some cp) ∧
      ∃ cp, s.checkpoints s.expectedSourceEpoch = some cp ∧ cp.isJustified = true := by
  have h := (voteInvariant_create params).of_run hash160 (finalityInvariant_create params) hreach
  -- the target is the epoch before the current one
  have htarget : s.currentEpoch - 1 = s.recommendedTargetEpoch := by
    rw [hepoch, UInt32.add_sub_cancel]
  obtain ⟨cpT, hcpT⟩ : ∃ cp, s.checkpoints s.recommendedTargetEpoch = some cp :=
    htarget ▸ h.prev_checkpoint (hepoch ▸ one_le_succ h.target_le)
  obtain ⟨cpS, hcpS, hjust⟩ := h.source_justified
  refine ⟨?_, ⟨cpT, hcpT⟩, ⟨cpS, hcpS, hjust⟩⟩
  have haddr : v.validatorAddress = a := h.keyed a v hv
  simp [ValidateVote, IsVotable, GetRecommendedVote, hauth, hv, hcpT, haddr, hnew cpT hcpT,
    htarget, hcpS, hjust, hvoting]

theorem ValidateVote_GetRecommendedVote_votingState :
    BlockReachable (fun _ => 0) Params.RegTest votingState ∧
      votingState.currentEpoch = votingState.recommendedTargetEpoch + 1 ∧
      votingState.validators.lookup 7 =
        some { Validator.create 150000000000 2 7 with lastTransactionHash := 1 } ∧
      votingState.IsFinalizerVoting
        { Validator.create 150000000000 2 7 with lastTransactionHash := 1 } = true ∧
      votingState.adminState.IsValidatorAuthorized 7 = true ∧
      (∀ cp, votingState.checkpoints votingState.recommendedTargetEpoch = some cp →
        (7 : Uint160) ∉ cp.voteSet) ∧
      votingState.ValidateVote (votingState.GetRecommendedVote 7) = .SUCCESS := by
  have hepoch : votingState.currentEpoch = votingState.recommendedTargetEpoch + 1 := by decide
  have hv : votingState.validators.lookup 7 =
      some { Validator.create 150000000000 2 7 with lastTransactionHash := 1 } := by
    decide
  have hvoting : votingState.IsFinalizerVoting
      { Validator.create 150000000000 2 7 with lastTransactionHash := 1 } = true := by
    decide
  have hauth : votingState.adminState.IsValidatorAuthorized 7 = true := by decide
  have hnew : ∀ cp, votingState.checkpoints votingState.recommendedTargetEpoch = some cp →
      (7 : Uint160) ∉ cp.voteSet := by
    have hset : (votingState.checkpoints votingState.recommendedTargetEpoch).map
        (fun cp => decide ((7 : Uint160) ∈ cp.voteSet)) = some false := by
      decide
    intro cp hcp
    simpa [hcp] using hset
  exact ⟨votingState_reachable, hepoch, hv, hvoting, hauth, hnew,
    (ValidateVote_GetRecommendedVote (fun _ => 0) votingState_reachable hepoch hv hvoting hauth hnew).1⟩

end FinalizationState

end UnitE.Esperanza
