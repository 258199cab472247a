import UnitE.Proofs.Justification

/-! The tables of `FinalizationState` that the asserting getters read. Along every run of
`InitializeEpoch` and validated commits from `FinalizationState(params)`, the deposit scale
factors and the slashed totals cover every epoch up to the current one, the dynasty start
epochs cover exactly the dynasties up to the current one, and the checkpoints cover the epochs
from the last finalized one to the current one. The asserts of `GetCheckpoint`,
`GetDepositScaleFactor`, `GetTotalSlashed`, `CalculateWithdrawEpoch`,
`GetCurrentDynastyEpochStart` and `GetCollectiveRewardFactor`, and the `m_validators.at()` of
the commits, then never fail: what is left is a division by zero in the fixed point
arithmetic. A withdrawal needs a `withdrawal_epoch_delay` that is not negative: with a negative
one, the slashed total it reads at the withdrawal epoch minus twice the delay lies after the
current epoch. -/

namespace UnitE

/-- A computation fails, if at all, by a division by zero (the `uint_error` of
`arith_uint256`): no assert fails and no `at()` throws. -/
abbrev FailsOnlyOnDivision {α : Type} (x : Fallible α) : Prop :=
  Except.FailsOnly (· = Failure.divisionByZero) x

namespace Ufp64

theorem divChecked_failsOnly (x y : Nat) : FailsOnlyOnDivision (divChecked x y) := by
  unfold divChecked
  split_ifs
  · exact Except.FailsOnly.error rfl
  · exact Except.FailsOnly.ok _

theorem div_failsOnly (x y : ufp64_t) : FailsOnlyOnDivision (div x y) :=
  (divChecked_failsOnly _ _).map

theorem div_2uint_failsOnly (x y : Nat) : FailsOnlyOnDivision (div_2uint x y) :=
  (divChecked_failsOnly _ _).map

theorem div_by_uint_failsOnly (x : ufp64_t) (y : Nat) : FailsOnlyOnDivision (div_by_uint x y) :=
  (divChecked_failsOnly _ _).map

theorem div_to_uint_failsOnly (x : Nat) (y : ufp64_t) : FailsOnlyOnDivision (div_to_uint x y) :=
  (divChecked_failsOnly _ _).map

theorem sqrtIterate_failsOnly (y n sqrt : Nat) : FailsOnlyOnDivision (sqrtIterate y n sqrt) := by
  induction n generalizing sqrt with
  | zero => exact Except.FailsOnly.pure _
  | succ n ih =>
    rw [sqrtIterate]
    exact ((divChecked_failsOnly _ _).bind fun _ _ => Except.FailsOnly.pure _).bind fun next _ => ih next

theorem sqrt_uint_failsOnly (x : Nat) : FailsOnlyOnDivision (sqrt_uint x) :=
  (sqrtIterate_failsOnly _ _ _).bind fun _ _ => Except.FailsOnly.pure _

end Ufp64

namespace Esperanza

open Finalization Ufp64

namespace FinalizationState

section EpochArithmetic

variable {a b : UInt32}

theorem eq_succ_or_le_of_le_succ (ha : a.toNat ≤ 2 ^ 31) (h : b ≤ a + 1) : b = a + 1 ∨ b ≤ a := by
  rw [UInt32.le_iff_toNat_le, toNat_succ_of_le ha] at h
  by_cases hb : b.toNat = a.toNat + 1
  · left
    apply UInt32.toNat_inj.mp
    rw [toNat_succ_of_le ha, hb]
  · right
    rw [UInt32.le_iff_toNat_le]
    omega

theorem toNat_ofInt (x : Int) : (UInt32.ofInt x).toNat = (x % 2 ^ 32).toNat := by
  unfold UInt32.ofInt
  rw [UInt32.toNat_ofNat']
  omega

theorem ofInt_toNat_ofInt_sub (a : UInt32) (d : Int) :
    UInt32.ofInt ((UInt32.ofInt (a.toNat + d)).toNat - d) = a := by
  apply UInt32.toNat_inj.mp
  rw [toNat_ofInt, toNat_ofInt]
  have := a.toNat_lt
  omega

theorem ofInt_le_of_le {x : Int} (h0 : 0 ≤ x) (h : x ≤ a.toNat) : UInt32.ofInt x ≤ a := by
  rw [UInt32.le_iff_toNat_le, toNat_ofInt]
  have := a.toNat_lt
  omega

end EpochArithmetic

/-- The tables that the asserting getters read: a deposit scale factor and a slashed total at
every epoch up to the current one, a start epoch for exactly the dynasties up to the current
one, and a checkpoint at every epoch from the last finalized one to the current one. -/
structure EpochTables (s : FinalizationState) : Prop where
  hasDepositScaleFactor : ∀ e, e ≤ s.currentEpoch → ∃ f, s.depositScaleFactor e = some f
  hasTotalSlashed : ∀ e, e ≤ s.currentEpoch → ∃ t, s.totalSlashed e = some t
  hasDynastyStart : ∀ d, (∃ e, s.dynastyStartEpoch d = some e) ↔ d ≤ s.currentDynasty
  hasCheckpoint : ∀ e, s.lastFinalizedEpoch ≤ e → e ≤ s.currentEpoch →
    ∃ cp, s.checkpoints e = some cp

/-- The invariant that carries the tables along a run of a state created with `params`:
justification's invariant, the tables, a dynasty that has not outrun the epoch, start epochs
of the later dynasties that are not in the future, no deposits of a previous dynasty while the
dynasty is the first, and the settings the state was created with. -/
structure TablesInvariant (params : Params) (s : FinalizationState) : Prop extends
    FinalityInvariant s, EpochTables s where
  dynasty_le_epoch : s.currentDynasty ≤ s.currentEpoch
  dynastyStart_le : ∀ d e, 1 ≤ d → s.dynastyStartEpoch d = some e → e ≤ s.currentEpoch
  prevDynDeposits_eq_zero : s.currentDynasty = 0 → s.prevDynDeposits = 0
  settings : s.settings = params

variable {params : Params} {s s' s₁ : FinalizationState}

/-- What a commit keeps of the tables: the dynasty and its start epochs, the deposit scale
factors, the epochs with a slashed total, the settings, and the previous dynasty's deposits
while the dynasty is the first. -/
structure KeepsTables (s s' : FinalizationState) : Prop where
  currentDynasty : s'.currentDynasty = s.currentDynasty
  dynastyStartEpoch : s'.dynastyStartEpoch = s.dynastyStartEpoch
  depositScaleFactor : s'.depositScaleFactor = s.depositScaleFactor
  totalSlashed : ∀ e t, s.totalSlashed e = some t → ∃ t', s'.totalSlashed e = some t'
  prevDynDeposits : s.currentDynasty = 0 → s'.prevDynDeposits = s.prevDynDeposits
  settings : s'.settings = s.settings

namespace KeepsTables

theorem refl (s : FinalizationState) : KeepsTables s s :=
  ⟨rfl, rfl, rfl, fun _ t ht => ⟨t, ht⟩, fun _ => rfl, rfl⟩

theorem trans {s₂ : FinalizationState} (h₁ : KeepsTables s s₁) (h₂ : KeepsTables s₁ s₂) :
    KeepsTables s s₂ where
  currentDynasty := h₂.currentDynasty.trans h₁.currentDynasty
  dynastyStartEpoch := h₂.dynastyStartEpoch.trans h₁.dynastyStartEpoch
  depositScaleFactor := h₂.depositScaleFactor.trans h₁.depositScaleFactor
  totalSlashed e t ht := by
    obtain ⟨t₁, ht₁⟩ := h₁.totalSlashed e t ht
    exact h₂.totalSlashed e t₁ ht₁
  prevDynDeposits h0 := (h₂.prevDynDeposits (h₁.currentDynasty ▸ h0)).trans (h₁.prevDynDeposits h0)
  settings := h₂.settings.trans h₁.settings

theorem of_frame (hdyn : s'.currentDynasty = s.currentDynasty)
    (hstart : s'.dynastyStartEpoch = s.dynastyStartEpoch)
    (hfactor : s'.depositScaleFactor = s.depositScaleFactor)
    (hslashed : s'.totalSlashed = s.totalSlashed) (hprev : s'.prevDynDeposits = s.prevDynDeposits)
    (hsettings : s'.settings = s.settings) : KeepsTables s s' :=
  ⟨hdyn, hstart, hfactor, fun _ t ht => ⟨t, hslashed ▸ ht⟩, fun _ => hprev, hsettings⟩

end KeepsTables

def KeepsCheckpoints (s s' : FinalizationState) : Prop :=
  ∀ e cp, s.checkpoints e = some cp → ∃ cp', s'.checkpoints e = some cp'

theorem KeepsCheckpoints.trans {s₂ : FinalizationState} (h₁ : KeepsCheckpoints s s₁)
    (h₂ : KeepsCheckpoints s₁ s₂) : KeepsCheckpoints s s₂ := by
  intro e cp hcp
  obtain ⟨cp₁, hcp₁⟩ := h₁ e cp hcp
  exact h₂ e cp₁ hcp₁

theorem KeepsFinality.keepsCheckpoints (hk : KeepsFinality s s') : KeepsCheckpoints s s' := by
  intro e cp hcp
  obtain ⟨cp', hcp', -⟩ := Checkpoint.exists_of_flags (hk.flags e) hcp
  exact ⟨cp', hcp'⟩

theorem Justifies.keepsCheckpoints {e : UInt32} (hj : Justifies e s s') : KeepsCheckpoints s s' := by
  intro e' cp hcp
  by_cases he : e' = e
  · subst he
    obtain ⟨-, cp', -, hcp', -⟩ := hj.target
    exact ⟨cp', hcp'⟩
  · obtain ⟨cp', hcp', -⟩ := Checkpoint.exists_of_flags (hj.flags_ne e' he) hcp
    exact ⟨cp', hcp'⟩

/-- The invariant moves to a state that keeps justification's invariant, the tables and the
checkpoints, at the same epoch and with a last finalized epoch not moved back. -/
theorem TablesInvariant.transfer (h : TablesInvariant params s) (hinv : FinalityInvariant s')
    (hk : KeepsTables s s') (hcp : KeepsCheckpoints s s') (hcur : s'.currentEpoch = s.currentEpoch)
    (hF : s.lastFinalizedEpoch ≤ s'.lastFinalizedEpoch) : TablesInvariant params s' where
  toFinalityInvariant := hinv
  hasDepositScaleFactor e he := by
    rw [hk.depositScaleFactor]
    exact h.hasDepositScaleFactor e (hcur ▸ he)
  hasTotalSlashed e he := by
    obtain ⟨t, ht⟩ := h.hasTotalSlashed e (hcur ▸ he)
    exact hk.totalSlashed e t ht
  hasDynastyStart d := by
    rw [hk.dynastyStartEpoch, hk.currentDynasty]
    exact h.hasDynastyStart d
  hasCheckpoint e hFe he := by
    obtain ⟨cp, hcp'⟩ := h.hasCheckpoint e (UInt32.le_trans hF hFe) (hcur ▸ he)
    exact hcp e cp hcp'
  dynasty_le_epoch := by
    rw [hk.currentDynasty, hcur]
    exact h.dynasty_le_epoch
  dynastyStart_le d e hd he := by
    rw [hcur]
    exact h.dynastyStart_le d e hd (hk.dynastyStartEpoch ▸ he)
  prevDynDeposits_eq_zero h0 := by
    have h0' := hk.currentDynasty ▸ h0
    rw [hk.prevDynDeposits h0']
    exact h.prevDynDeposits_eq_zero h0'
  settings := hk.settings.trans h.settings

/-! What each commit does to the tables. -/

/-- A vote's reward reaches the previous dynasty's deposits only for a finalizer in the
dynasty before the current one, and before the first dynasty there is none. -/
theorem ProcessVote_keepsTables {vote : Vote} (h : s.ProcessVote vote = .ok s') :
    KeepsTables s s' := by
  have hframe := s.ProcessVote_frame h
  refine ⟨by rw [hframe], by rw [hframe], by rw [hframe],
    fun e t ht => ⟨t, by rw [hframe]; exact ht⟩, fun h0 => ?_, by rw [hframe]⟩
  obtain ⟨cp, validator, s₂, -, -, hreward, hjustify⟩ := s.ProcessVote_eq_ok h
  have hprev : s'.prevDynDeposits = s₂.prevDynDeposits := by
    rcases s₂.justifyTarget_eq_ok hjustify with rfl | ⟨-, -, rfl⟩ | ⟨-, -, rfl⟩ <;> rfl
  rw [hprev]
  rcases s.rewardVote_eq_ok hreward with rfl | ⟨-, r, hr⟩
  · rfl
  · obtain ⟨v, -, rfl⟩ := s.ProcessReward_eq_ok hr
    -- the dynasty before the first is `UINT32_MAX`, which no end dynasty exceeds
    have hmax : ¬ s.currentDynasty - 1 < v.endDynasty := by
      rw [h0]
      exact UInt32.not_lt.mpr (le_zero_sub_one _)
    simp [hmax]

theorem ProcessNewCommit_keepsTables (hash160 : List UInt8 → Uint160) {tx : CommitTx}
    (h : s.ProcessNewCommit hash160 tx = .ok s') : KeepsTables s s' := by
  cases tx with
  | vote vote txHash =>
    obtain ⟨s₂, hvote, hreg⟩ := s.ProcessNewCommit_vote_eq_ok hash160 h
    obtain ⟨v, -, rfl⟩ := s₂.RegisterLastTx_eq_ok_iff.mp hreg
    exact (ProcessVote_keepsTables hvote).trans (.of_frame rfl rfl rfl rfl rfl rfl)
  | deposit validatorAddress depositValue txHash =>
    obtain ⟨_, rfl⟩ := s.ProcessNewCommit_deposit_eq_ok hash160 h
    exact .of_frame rfl rfl rfl rfl rfl rfl
  | logout validatorAddress txHash =>
    obtain ⟨s₂, hlogout, hreg⟩ := s.ProcessNewCommit_logout_eq_ok hash160 h
    obtain ⟨v, -, rfl⟩ := s₂.RegisterLastTx_eq_ok_iff.mp hreg
    obtain ⟨v', -, rfl⟩ := s.ProcessLogout_eq_ok hlogout
    exact .of_frame rfl rfl rfl rfl rfl rfl
  | withdraw validatorAddress requestedWithdraw =>
    cases Except.ok.inj h
    exact .of_frame rfl rfl rfl rfl rfl rfl
  | slash vote1 vote2 =>
    have hslash : s.ProcessSlash vote1 vote2 = .ok s' := h
    obtain ⟨v, t, v', -, -, -, -, -, rfl⟩ := s.ProcessSlash_eq_ok hslash
    -- the slashing rewrites the total of the current epoch
    refine ⟨rfl, rfl, rfl, fun e t' ht => ?_, fun _ => rfl, rfl⟩
    by_cases he : e = s.currentEpoch
    · exact ⟨_, by rw [he]; exact Function.update_self ..⟩
    · exact ⟨t', (Function.update_of_ne he _ _).trans ht⟩
  | admin commands adminKeys =>
    cases Except.ok.inj h
    exact .of_frame rfl rfl rfl rfl rfl rfl
  | regular =>
    cases Except.ok.inj h
    exact .refl s

/-- A commit stays in the epoch and keeps every checkpoint: a vote may justify its target,
which keeps the keys. -/
theorem ProcessNewCommit_keepsCheckpoints (hash160 : List UInt8 → Uint160) {tx : CommitTx}
    (h : s.ProcessNewCommit hash160 tx = .ok s') :
    s'.currentEpoch = s.currentEpoch ∧ KeepsCheckpoints s s' := by
  rcases ProcessNewCommit_finality hash160 h with hk | ⟨vote, txHash, s₂, rfl, hvote, hk⟩
  · exact ⟨hk.currentEpoch, hk.keepsCheckpoints⟩
  · rcases s.ProcessVote_finality hvote with hk₁ | ⟨-, hj⟩
    · exact ⟨hk.currentEpoch.trans hk₁.currentEpoch, hk₁.keepsCheckpoints.trans hk.keepsCheckpoints⟩
    · exact ⟨hk.currentEpoch.trans hj.currentEpoch, hj.keepsCheckpoints.trans hk.keepsCheckpoints⟩

/-- A commit that its check accepts keeps the invariant. Checked against its own state, a vote
targets the epoch before the current one, so `WithinBlock` applies with `s` as the parent. -/
theorem TablesInvariant.processNewCommit (hash160 : List UInt8 → Uint160)
    (h : TablesInvariant params s) {tx : CommitTx} (hvalid : s.ValidateCommit tx)
    (hcommit : s.ProcessNewCommit hash160 tx = .ok s') : TablesInvariant params s' := by
  have hwithin : WithinBlock s s :=
    ⟨h.toFinalityInvariant, h.toFinalityInvariant, .refl s, .inl h.justified_le_pred⟩
  have hw := hwithin.processNewCommit hash160 hvalid hcommit
  obtain ⟨hcur, hcp⟩ := ProcessNewCommit_keepsCheckpoints hash160 hcommit
  exact h.transfer hw.invariant (ProcessNewCommit_keepsTables hash160 hcommit) hcp hcur
    hw.advances.lastFinalizedEpoch

theorem TablesInvariant.of_keeps (h : TablesInvariant params s) (hk : KeepsFinality s s')
    (ht : KeepsTables s s') : TablesInvariant params s' :=
  h.transfer (hk.finalityInvariant h.toFinalityInvariant) ht hk.keepsCheckpoints hk.currentEpoch
    (UInt32.le_of_eq hk.lastFinalizedEpoch.symm)

/-! What each part of `InitializeEpoch` does to the tables. -/

theorem TablesInvariant.setRewardFactor (h : TablesInvariant params s) (rewardFactor : ufp64_t) :
    TablesInvariant params { s with rewardFactor := rewardFactor } :=
  h.of_keeps (.of_frame rfl rfl rfl rfl) (.of_frame rfl rfl rfl rfl rfl rfl)

/-- Opening the next epoch: the new epoch gets a checkpoint, a deposit scale factor and a
slashed total, and every other entry stays. -/
theorem TablesInvariant.openEpoch (h : TablesInvariant params s)
    (hle : (s.currentEpoch + 1).toNat ≤ 2 ^ 31) (hopen : s.openEpoch (s.currentEpoch + 1) = .ok s') :
    TablesInvariant params s' := by
  obtain ⟨cp₀, hflags, hk⟩ := s.openEpoch_keepsFinality hopen
  have hopened := hk.keepsCheckpoints
  have hinv := hk.finalityInvariant (h.openNext hle hflags)
  obtain ⟨checkpoints, f, t, rfl⟩ := s.openEpoch_eq_ok hopen
  have hold {e : UInt32} (he : e ≤ s.currentEpoch) : e ≠ s.currentEpoch + 1 :=
    UInt32.ne_of_lt (lt_succ_of_le h.epoch_le he)
  have hupto {e : UInt32} (he : e ≤ s.currentEpoch + 1) : e = s.currentEpoch + 1 ∨ e ≤ s.currentEpoch :=
    eq_succ_or_le_of_le_succ h.epoch_le he
  refine ⟨hinv, ⟨fun e he => ?_, fun e he => ?_, h.hasDynastyStart, fun e hFe he => ?_⟩,
    UInt32.le_trans h.dynasty_le_epoch (UInt32.le_of_lt (lt_succ_of_le h.epoch_le (UInt32.le_refl _))),
    fun d e hd he => ?_, h.prevDynDeposits_eq_zero, h.settings⟩
  · rcases hupto he with rfl | he'
    · exact ⟨f, Function.update_self ..⟩
    · obtain ⟨f', hf'⟩ := h.hasDepositScaleFactor e he'
      exact ⟨f', (Function.update_of_ne (hold he') _ _).trans hf'⟩
  · rcases hupto he with rfl | he'
    · exact ⟨t, Function.update_self ..⟩
    · obtain ⟨t', ht'⟩ := h.hasTotalSlashed e he'
      exact ⟨t', (Function.update_of_ne (hold he') _ _).trans ht'⟩
  · -- the checkpoint just opened, or an old one, which the reward factor keeps
    rcases hupto he with rfl | he'
    · exact hopened _ cp₀ (Function.update_self ..)
    · obtain ⟨cp, hcp⟩ := h.hasCheckpoint e hFe he'
      exact hopened e cp ((Function.update_of_ne (hold he') _ _).trans hcp)
  · exact UInt32.le_trans (h.dynastyStart_le d e hd he)
      (UInt32.le_of_lt (lt_succ_of_le h.epoch_le (UInt32.le_refl _)))

/-- The next dynasty: it starts at the current epoch, which it has not outrun, and the
checkpoints that go are before the last finalized one. -/
theorem TablesInvariant.incrementDynasty (h : TablesInvariant params s)
    (hdyn : s.currentDynasty < s.currentEpoch) (hinc : s.IncrementDynasty = .ok s') :
    TablesInvariant params s' := by
  rcases s.IncrementDynasty_eq_ok hinc with rfl | ⟨-, -, rfl⟩
  · exact h
  have hnext : (s.currentDynasty + 1).toNat = s.currentDynasty.toNat + 1 :=
    toNat_succ_of_le (Nat.le_trans (UInt32.le_iff_toNat_le.mp (UInt32.le_of_lt hdyn)) h.epoch_le)
  have hlt := UInt32.lt_iff_toNat_lt.mp hdyn
  refine ⟨h.prune (fun _ => rfl) rfl rfl rfl,
    ⟨h.hasDepositScaleFactor, h.hasTotalSlashed, fun d => ?_, fun e hFe he => ?_⟩, ?_,
    fun d e hd he => ?_, fun h0 => ?_, h.settings⟩
  · dsimp only
    by_cases hd : d = s.currentDynasty + 1
    · subst hd
      exact ⟨fun _ => UInt32.le_refl _, fun _ => ⟨_, Function.update_self ..⟩⟩
    · have hd' : d.toNat ≠ s.currentDynasty.toNat + 1 := by
        rw [← hnext]
        exact fun h' => hd (UInt32.toNat_inj.mp h')
      rw [Function.update_of_ne hd, h.hasDynastyStart d, UInt32.le_iff_toNat_le,
        UInt32.le_iff_toNat_le, hnext]
      omega
  · dsimp only
    rw [if_neg (UInt32.not_lt.mpr hFe)]
    exact h.hasCheckpoint e hFe he
  · dsimp only
    rw [UInt32.le_iff_toNat_le, hnext]
    exact hlt
  · dsimp only at he
    by_cases hd' : d = s.currentDynasty + 1
    · rw [hd', Function.update_self, Option.some.injEq] at he
      exact UInt32.le_of_eq he.symm
    · rw [Function.update_of_ne hd'] at he
      exact h.dynastyStart_le d e hd he
  · have h0' := congrArg UInt32.toNat h0
    rw [hnext, UInt32.toNat_zero] at h0'
    omega

theorem TablesInvariant.instaJustify (h : TablesInvariant params s) (hone : 1 ≤ s.currentEpoch)
    (hinsta : s.InstaJustify = .ok s') : TablesInvariant params s' := by
  have hj := InstaJustify_justifies hinsta
  have hle := le_pred_of_lt (h.justified_lt_current hone)
  have hk : KeepsTables s s' := by
    obtain ⟨cp, -, rfl | ⟨-, -, rfl⟩⟩ := s.InstaJustify_eq_ok hinsta <;>
      exact .of_frame rfl rfl rfl rfl rfl rfl
  exact h.transfer (hj.finalityInvariant h.toFinalityInvariant hle (pred_lt hone)) hk
    hj.keepsCheckpoints hj.currentEpoch (hj.advances h.toFinalityInvariant hle).lastFinalizedEpoch

theorem TablesInvariant.initializeEpochTail (h : TablesInvariant params s) (hone : 1 ≤ s.currentEpoch)
    (hdyn : s.currentDynasty < s.currentEpoch) (htail : s.initializeEpochTail = .ok s') :
    TablesInvariant params s' := by
  obtain ⟨s₃, s₄, hincrement, hjustify, rfl⟩ := s.initializeEpochTail_eq_ok htail
  have h₃ := h.incrementDynasty hdyn hincrement
  have hcur₃ : s₃.currentEpoch = s.currentEpoch := by
    rcases s.IncrementDynasty_eq_ok hincrement with rfl | ⟨-, -, rfl⟩ <;> rfl
  have h₄ : TablesInvariant params s₄ := by
    rcases hjustify with rfl | ⟨-, hinsta⟩
    · exact h₃
    · exact h₃.instaJustify (hcur₃ ▸ hone) hinsta
  exact h₄.of_keeps (.of_frame rfl rfl rfl rfl) (.of_frame rfl rfl rfl rfl rfl rfl)

theorem TablesInvariant.initializeEpoch (h : TablesInvariant params s) {height : Height}
    {res : Result} (hheight : height.toNat < 2 ^ 31) (hinit : s.InitializeEpoch height = .ok (res, s')) :
    TablesInvariant params s' := by
  rcases s.InitializeEpoch_eq_ok hinit with rfl | ⟨s₁, s₂, hepoch, hopen, hs₂, hrest⟩
  · exact h
  have hle : (s.currentEpoch + 1).toNat ≤ 2 ^ 31 := hepoch ▸ s.settings.GetEpoch_toNat_le hheight
  have h₂ : TablesInvariant params s₂ := by
    rw [hs₂]
    exact (h.openEpoch hle hopen).setRewardFactor _
  rcases hrest with rfl | htail
  · exact h₂
  obtain ⟨checkpoints, f, t, rfl⟩ := s.openEpoch_eq_ok hopen
  have hcur₂ : s₂.currentEpoch = s.currentEpoch + 1 := by rw [hs₂]
  have hdyn₂ : s₂.currentDynasty = s.currentDynasty := by rw [hs₂]
  refine h₂.initializeEpochTail (hcur₂ ▸ one_le_succ h.epoch_le) ?_ htail
  rw [hcur₂, hdyn₂]
  exact UInt32.lt_of_le_of_lt h.dynasty_le_epoch (lt_succ_of_le h.epoch_le (UInt32.le_refl _))

theorem TablesInvariant.step (hash160 : List UInt8 → Uint160) (h : TablesInvariant params s)
    (hstep : Step hash160 s s') : TablesInvariant params s' := by
  cases hstep with
  | initializeEpoch hheight hinit => exact h.initializeEpoch hheight hinit
  | commit hvalid hcommit => exact h.processNewCommit hash160 hvalid hcommit

theorem eq_zero_of_le_zero {e : UInt32} (h : e ≤ 0) : e = 0 :=
  UInt32.toNat_inj.mp (by have := UInt32.le_iff_toNat_le.mp h; simp only [UInt32.toNat_zero] at *; omega)

theorem tablesInvariant_create (params : Params) : TablesInvariant params (create params) where
  toFinalityInvariant := finalityInvariant_create params
  hasDepositScaleFactor e he := by
    rw [eq_zero_of_le_zero he]
    simp [create]
  hasTotalSlashed e he := by
    rw [eq_zero_of_le_zero he]
    simp [create]
  hasDynastyStart d := by
    by_cases hd : d = 0
    · subst hd
      simp [create]
    · have hnone : (create params).dynastyStartEpoch d = none := by simp [create, hd]
      rw [hnone]
      exact ⟨fun h => h.elim fun _ he => absurd he (by simp), fun h0 => absurd (eq_zero_of_le_zero h0) hd⟩
  hasCheckpoint e _ he := by
    rw [eq_zero_of_le_zero he]
    simp [create]
  dynasty_le_epoch := UInt32.le_refl _
  dynastyStart_le d e hd he := by
    have hd' : d ≠ 0 := fun h0 => by rw [h0] at hd; exact absurd hd (by decide)
    simp [create, hd'] at he
  prevDynDeposits_eq_zero _ := rfl
  settings := rfl

theorem TablesInvariant.of_reachable (hash160 : List UInt8 → Uint160)
    (hreach : Reachable hash160 params s) : TablesInvariant params s := by
  induction hreach with
  | refl => exact tablesInvariant_create params
  | tail _ hstep ih => exact ih.step hash160 hstep

/-! What the tables rule out: every getter that asserts reads an entry that is there. -/

theorem TablesInvariant.getCheckpoint (h : TablesInvariant params s) {e : UInt32}
    (hF : s.lastFinalizedEpoch ≤ e) (he : e ≤ s.currentEpoch) : ∃ cp, s.GetCheckpoint e = .ok cp := by
  obtain ⟨cp, hcp⟩ := h.hasCheckpoint e hF he
  exact ⟨cp, s.GetCheckpoint_eq_ok.mpr hcp⟩

theorem TablesInvariant.getDepositScaleFactor (h : TablesInvariant params s) {e : UInt32}
    (he : e ≤ s.currentEpoch) : ∃ f, s.GetDepositScaleFactor e = .ok f := by
  obtain ⟨f, hf⟩ := h.hasDepositScaleFactor e he
  exact ⟨f, s.GetDepositScaleFactor_eq_ok.mpr hf⟩

theorem TablesInvariant.getTotalSlashed (h : TablesInvariant params s) {e : UInt32}
    (he : e ≤ s.currentEpoch) : ∃ t, s.GetTotalSlashed e = .ok t := by
  obtain ⟨t, ht⟩ := h.hasTotalSlashed e he
  exact ⟨_, s.GetTotalSlashed_eq_ok.mpr ⟨t, ht, rfl⟩⟩

theorem TablesInvariant.GetCurrentDynastyEpochStart_ok (h : TablesInvariant params s) :
    ∃ e, s.GetCurrentDynastyEpochStart = .ok e := by
  obtain ⟨e, he⟩ := (h.hasDynastyStart s.currentDynasty).mpr (UInt32.le_refl _)
  exact ⟨e, by simp [GetCurrentDynastyEpochStart, he]⟩

theorem ProcessNewCommit_logout_ok (hash160 : List UInt8 → Uint160) {validatorAddress : Uint160}
    {v : Validator} (txHash : Uint256) (hv : s.validators.lookup validatorAddress = some v) :
    ∃ s', s.ProcessNewCommit hash160 (.logout validatorAddress txHash) = .ok s' := by
  have hv' : s.validatorAt validatorAddress = .ok v := s.validatorAt_eq_ok.mpr hv
  simp only [ProcessNewCommit, ProcessLogout, hv', Except.ok_bind, Except.pure_eq_ok_self]
  refine ⟨_, (RegisterLastTx_eq_ok_iff _).mpr
    ⟨{ v with endDynasty := s.GetEndDynasty, depositsAtLogout := toUint64 s.curDynDeposits }, ?_, rfl⟩⟩
  simp [addDynastyDelta_eq, setValidator]

/-- A slashing of a finalizer that exists goes through when the current epoch has its slashed
total and its deposit scale factor. -/
theorem ProcessSlash_ok {vote1 : Vote} (vote2 : Vote) {v : Validator} {t : CAmount} {f : ufp64_t}
    (hv : s.validators.lookup vote1.validatorAddress = some v)
    (ht : s.totalSlashed s.currentEpoch = some t) (hf : s.depositScaleFactor s.currentEpoch = some f) :
    ∃ s', s.ProcessSlash vote1 vote2 = .ok s' := by
  unfold ProcessSlash
  rw [s.GetTotalSlashed_eq_ok.mpr ⟨t, ht, rfl⟩, Except.ok_bind]
  simp only [validatorAt, hv, Except.ok_bind]
  split_ifs
  · exact ⟨_, rfl⟩
  · simp [GetTotalCurDynDeposits, GetDepositScaleFactor, setValidator, addDynastyDelta_eq, hf]
  · exact ⟨_, rfl⟩

/-- A commit that its check accepts fails at most by a division: the finalizers it reads
exist, and so do the checkpoint, the scale factor and the slashed total of the epochs it
reads. -/
theorem TablesInvariant.ProcessNewCommit_failsOnly (hash160 : List UInt8 → Uint160)
    (h : TablesInvariant params s) {tx : CommitTx} (hvalid : s.ValidateCommit tx) :
    FailsOnlyOnDivision (s.ProcessNewCommit hash160 tx) := by
  obtain ⟨f, hf⟩ := h.hasDepositScaleFactor s.currentEpoch (UInt32.le_refl _)
  cases tx with
  | vote vote txHash =>
    obtain ⟨v, cp, -, hv, hcp, -⟩ := s.ValidateVote_eq_success hvalid
    obtain ⟨s₁, -, -, hs₁, -⟩ := s.ProcessNewCommit_vote_counted hash160 txHash hcp hv hf
    exact Except.FailsOnly.of_eq_ok hs₁
  | deposit validatorAddress depositValue txHash =>
    cases hdiv : div_to_uint (toUint64 depositValue) f with
    | ok scaledDeposit =>
      exact Except.FailsOnly.of_eq_ok
        (s.ProcessNewCommit_deposit hash160 validatorAddress depositValue txHash hf hdiv)
    | error e =>
      -- the scale factor divides the deposit
      intro e' he'
      simp [ProcessNewCommit, ProcessDeposit, GetDepositScaleFactor, hf, hdiv] at he'
      rw [← he']
      exact div_to_uint_failsOnly _ _ e hdiv
  | logout validatorAddress txHash =>
    obtain ⟨v, hv, -⟩ := s.ValidateLogout_eq_success hvalid
    obtain ⟨s₁, hs₁⟩ := s.ProcessNewCommit_logout_ok hash160 txHash hv
    exact Except.FailsOnly.of_eq_ok hs₁
  | withdraw validatorAddress requestedWithdraw => exact Except.FailsOnly.pure _
  | slash vote1 vote2 =>
    obtain ⟨v, hv, -⟩ := s.IsSlashable_eq_success hvalid
    obtain ⟨t, ht⟩ := h.hasTotalSlashed s.currentEpoch (UInt32.le_refl _)
    obtain ⟨s₁, hs₁⟩ := s.ProcessSlash_ok vote2 hv ht hf
    exact Except.FailsOnly.of_eq_ok hs₁
  | admin commands adminKeys => exact Except.FailsOnly.pure _
  | regular => exact Except.FailsOnly.pure _

theorem toNat_succ_of_lt {a b : UInt32} (h : a < b) : (a + 1).toNat = a.toNat + 1 := by
  have := UInt32.lt_iff_toNat_lt.mp h
  have := b.toNat_lt
  rw [UInt32.toNat_add, UInt32.toNat_one]
  omega

/-- The withdrawal epoch is `UINT32_MAX`, or the delay after the start of the dynasty after
the finalizer's end dynasty, which has passed, so that dynasty has started. -/
theorem TablesInvariant.CalculateWithdrawEpoch_ok (h : TablesInvariant params s) (finalizer : Validator) :
    s.CalculateWithdrawEpoch finalizer = .ok 4294967295 ∨
      ∃ endEpoch, endEpoch ≤ s.currentEpoch ∧ s.CalculateWithdrawEpoch finalizer =
        .ok (UInt32.ofInt (endEpoch.toNat + s.settings.withdrawal_epoch_delay)) := by
  unfold CalculateWithdrawEpoch
  split_ifs with hmax hend
  · exact .inl rfl
  · exact .inl rfl
  · have hlt := UInt32.not_le.mp hend
    have hnext := toNat_succ_of_lt hlt
    have hstarted : finalizer.endDynasty + 1 ≤ s.currentDynasty := by
      rw [UInt32.le_iff_toNat_le, hnext]
      exact UInt32.lt_iff_toNat_lt.mp hlt
    have hone : 1 ≤ finalizer.endDynasty + 1 := by
      rw [UInt32.le_iff_toNat_le, hnext, UInt32.toNat_one]
      omega
    obtain ⟨e, he⟩ := (h.hasDynastyStart _).mpr hstarted
    refine .inr ⟨e, h.dynastyStart_le _ e hone he, ?_⟩
    rw [he]
    rfl

/-- The withdrawable amount fails at most by a division when the withdrawal delay is not
negative: the scale factor at the end epoch and the slashed totals at the withdrawal epoch and
at the base epoch before it are all at epochs that have passed. -/
theorem TablesInvariant.CalculateWithdrawAmount_failsOnly (h : TablesInvariant params s)
    (hdelay : 0 ≤ params.withdrawal_epoch_delay) (validatorAddress : Uint160) :
    FailsOnlyOnDivision (s.CalculateWithdrawAmount validatorAddress) := by
  unfold CalculateWithdrawAmount
  cases hv : s.validators.lookup validatorAddress with
  | none => exact Except.FailsOnly.pure _
  | some v =>
    dsimp only
    rcases h.CalculateWithdrawEpoch_ok v with hw | ⟨endEpoch, hend, hw⟩
    · -- `UINT32_MAX` is after every epoch of a run
      have hearly : s.currentEpoch < 4294967295 := by
        rw [UInt32.lt_iff_toNat_lt]
        have := h.epoch_le
        simp only [UInt32.reduceToNat]
        omega
      rw [hw, Except.ok_bind, if_pos hearly]
      exact Except.FailsOnly.pure _
    · have hd : 0 ≤ s.settings.withdrawal_epoch_delay := by
        rw [h.settings]
        exact hdelay
      -- the end epoch comes back from the withdrawal epoch
      rw [hw, Except.ok_bind, ofInt_toNat_ofInt_sub]
      generalize UInt32.ofInt (endEpoch.toNat + s.settings.withdrawal_epoch_delay) = w
      by_cases hearly : s.currentEpoch < w
      · rw [if_pos hearly]
        exact Except.FailsOnly.pure _
      have hreached : w ≤ s.currentEpoch := UInt32.not_lt.mp hearly
      rw [if_neg hearly]
      by_cases hslashed : (!v.isSlashed) = true
      · obtain ⟨f, hf⟩ := h.getDepositScaleFactor hend
        rw [if_pos hslashed, hf, Except.ok_bind]
        exact Except.FailsOnly.pure _
      -- the base epoch is before the withdrawal epoch, which has passed
      have hbase : (if 2 * s.settings.withdrawal_epoch_delay > w.toNat then 0
          else UInt32.ofInt (w.toNat - 2 * s.settings.withdrawal_epoch_delay)) ≤ s.currentEpoch := by
        split_ifs
        · exact UInt32.zero_le
        · exact UInt32.le_trans (ofInt_le_of_le (by omega) (by omega)) hreached
      obtain ⟨t₁, ht₁⟩ := h.getTotalSlashed hreached
      obtain ⟨t₂, ht₂⟩ := h.getTotalSlashed hbase
      obtain ⟨f, hf⟩ := h.getDepositScaleFactor hreached
      rw [if_neg hslashed, ht₁, Except.ok_bind, ht₂, Except.ok_bind]
      refine (div_2uint_failsOnly _ _).bind fun _ _ => ?_
      rw [hf, Except.ok_bind]
      split_ifs <;> exact Except.FailsOnly.pure _

theorem TablesInvariant.ValidateWithdraw_failsOnly (h : TablesInvariant params s)
    (hdelay : 0 ≤ params.withdrawal_epoch_delay) (validatorAddress : Uint160)
    (requestedWithdraw : CAmount) :
    FailsOnlyOnDivision (s.ValidateWithdraw validatorAddress requestedWithdraw) := by
  unfold ValidateWithdraw
  refine (h.CalculateWithdrawAmount_failsOnly hdelay validatorAddress).bind fun ⟨res, _⟩ _ => ?_
  dsimp only
  split_ifs <;> exact Except.FailsOnly.pure _

/-- `GetCollectiveRewardFactor` asserts that the last finalized epoch is two before the current
one when it reads the votes, with deposits and a live finalization, and reads that checkpoint. -/
theorem GetCollectiveRewardFactor_failsOnly
    (hlast : s.DepositExists = true → s.GetEpochsSinceFinalization ≤ 2 →
      s.lastFinalizedEpoch = s.currentEpoch - 2)
    (hcp : ∃ cp, s.checkpoints s.lastFinalizedEpoch = some cp) :
    FailsOnlyOnDivision s.GetCollectiveRewardFactor := by
  unfold GetCollectiveRewardFactor
  by_cases hlive : (!s.DepositExists || !decide (s.GetEpochsSinceFinalization ≤ 2)) = true
  · rw [if_pos hlive]
    exact Except.FailsOnly.pure _
  rw [if_neg hlive]
  have hdep : s.DepositExists = true ∧ s.GetEpochsSinceFinalization ≤ 2 := by simpa using hlive
  obtain ⟨cp, hcp⟩ := hcp
  dsimp only
  rw [if_neg (not_not.mpr (hlast hdep.1 hdep.2)), s.GetCheckpoint_eq_ok.mpr hcp, Except.ok_bind]
  exact (div_2uint_failsOnly _ _).bind fun _ _ => (div_2uint_failsOnly _ _).bind fun _ _ =>
    (div_by_uint_failsOnly _ _).bind fun _ _ => Except.FailsOnly.pure _

/-- Opening the next epoch fails at most by a division. Both dynasties' totals read scale
factors that exist. With deposits in both dynasties the dynasty is not the first, so the current
epoch is not the first either and the last finalized epoch is at most two before the new one,
and exactly two before it while finalization is live. -/
theorem TablesInvariant.openEpoch_failsOnly (h : TablesInvariant params s) :
    FailsOnlyOnDivision (s.openEpoch (s.currentEpoch + 1)) := by
  obtain ⟨f, hf⟩ := h.hasDepositScaleFactor s.currentEpoch (UInt32.le_refl _)
  obtain ⟨t, ht⟩ := h.hasTotalSlashed s.currentEpoch (UInt32.le_refl _)
  have hcurDeposits : s.GetTotalCurDynDeposits = .ok (mul_to_uint f (toUint64 s.curDynDeposits)) := by
    rw [GetTotalCurDynDeposits, s.GetDepositScaleFactor_eq_ok.mpr hf, Except.ok_bind]
    rfl
  obtain ⟨prevDeposits, hprevDeposits⟩ : ∃ p, s.GetTotalPrevDynDeposits = .ok p := by
    unfold GetTotalPrevDynDeposits
    split_ifs with h0
    · exact ⟨0, rfl⟩
    · obtain ⟨f', hf'⟩ := h.getDepositScaleFactor (UInt32.sub_le (UInt32.one_le_of_ne_zero h0))
      rw [hf', Except.ok_bind]
      exact ⟨_, rfl⟩
  have hsucc := toNat_succ_of_le h.epoch_le
  unfold FinalizationState.openEpoch
  rw [hcurDeposits, Except.ok_bind, hprevDeposits, Except.ok_bind]
  dsimp only
  refine (GetCollectiveRewardFactor_failsOnly ?_ ?_).bind fun ⟨collective, u⟩ hcollective => ?_
  · intro hdep hlive
    change (decide (0 < s.curDynDeposits) && decide (0 < s.prevDynDeposits)) = true at hdep
    change s.currentEpoch + 1 - s.lastFinalizedEpoch ≤ 2 at hlive
    show s.lastFinalizedEpoch = s.currentEpoch + 1 - 2
    -- deposits in the previous dynasty: the dynasty, and so the epoch, is not the first
    have hprev : s.prevDynDeposits ≠ 0 := by
      simp only [Bool.and_eq_true, decide_eq_true_eq] at hdep
      exact ne_of_gt hdep.2
    have hdyn : s.currentDynasty ≠ 0 := fun h0 => hprev (h.prevDynDeposits_eq_zero h0)
    have hone : 1 ≤ s.currentEpoch := UInt32.le_trans (UInt32.one_le_of_ne_zero hdyn) h.dynasty_le_epoch
    have hFJ := UInt32.le_iff_toNat_le.mp h.finalized_le_justified
    have hJ := UInt32.lt_iff_toNat_lt.mp (h.justified_lt_current hone)
    have hFnew : s.lastFinalizedEpoch ≤ s.currentEpoch + 1 := by
      rw [UInt32.le_iff_toNat_le, hsucc]
      omega
    rw [UInt32.le_iff_toNat_le, UInt32.toNat_sub_of_le _ _ hFnew, hsucc] at hlive
    apply UInt32.toNat_inj.mp
    rw [succ_sub_two, UInt32.toNat_pred hone]
    simp only [UInt32.reduceToNat] at hlive
    omega
  · -- the last finalized checkpoint is an old one
    obtain ⟨cp, hcp, -⟩ := h.finalized_checkpoint
    have hne : s.lastFinalizedEpoch ≠ s.currentEpoch + 1 := UInt32.ne_of_lt
      (lt_succ_of_le h.epoch_le (UInt32.le_trans h.finalized_le_justified h.justified_le_current))
    exact ⟨cp, (Function.update_of_ne hne _ _).trans hcp⟩
  · -- the reward factor leaves the scale factors and the slashed totals
    have hu : u.depositScaleFactor = s.depositScaleFactor ∧ u.totalSlashed = s.totalSlashed := by
      rcases GetCollectiveRewardFactor_eq_ok _ hcollective with rfl | ⟨_, _, _, _, rfl⟩ <;>
        exact ⟨rfl, rfl⟩
    refine (div_failsOnly _ _).bind fun _ _ => ?_
    simp only [UInt32.add_sub_cancel, GetDepositScaleFactor, GetTotalSlashed, hu.1, hu.2, hf, ht,
      Except.ok_bind]
    exact Except.FailsOnly.pure _

/-- Two before the current epoch, once there is such an epoch, is in the checkpoint table
when the last justified epoch is not after it. -/
theorem TablesInvariant.getCheckpoint_sub_two (h : TablesInvariant params s)
    (htwo : 2 ≤ s.currentEpoch) (hJ : s.lastJustifiedEpoch ≤ s.currentEpoch - 2) :
    ∃ cp, s.GetCheckpoint (s.currentEpoch - 2) = .ok cp :=
  h.getCheckpoint (UInt32.le_trans h.finalized_le_justified hJ) (UInt32.sub_le htwo)

theorem TablesInvariant.IncrementDynasty_ok (h : TablesInvariant params s)
    (hJ : s.lastJustifiedEpoch ≤ s.currentEpoch - 2) : ∃ s', s.IncrementDynasty = .ok s' := by
  unfold IncrementDynasty
  split_ifs with hearly
  · exact ⟨s, rfl⟩
  · have htwo : 2 ≤ s.currentEpoch := by
      have := UInt32.not_lt.mp hearly
      rw [UInt32.le_iff_toNat_le] at this ⊢
      simp only [UInt32.reduceToNat] at this ⊢
      omega
    obtain ⟨cp, hcp⟩ := h.getCheckpoint_sub_two htwo hJ
    rw [hcp, Except.ok_bind]
    split_ifs
    · exact ⟨s, rfl⟩
    · dsimp only
      exact ⟨_, rfl⟩

theorem TablesInvariant.InstaJustify_ok (h : TablesInvariant params s) (hone : 1 ≤ s.currentEpoch)
    (hJ : s.lastJustifiedEpoch ≤ s.currentEpoch - 2) : ∃ s', s.InstaJustify = .ok s' := by
  obtain ⟨cp, hcp⟩ := h.hasCheckpoint _ (UInt32.le_trans h.finalized_le_justified h.justified_le_pred)
    (UInt32.sub_le hone)
  unfold InstaJustify
  rw [s.GetCheckpoint_eq_ok.mpr hcp, Except.ok_bind]
  dsimp only
  split_ifs with hlater
  · -- the epoch before the previous one is read as well
    have htwo : 2 ≤ s.currentEpoch := by
      have := UInt32.lt_iff_toNat_lt.mp hlater
      rw [UInt32.le_iff_toNat_le]
      simp only [UInt32.reduceToNat] at this ⊢
      omega
    obtain ⟨cp₂, hcp₂⟩ := h.hasCheckpoint _ (UInt32.le_trans h.finalized_le_justified hJ)
      (UInt32.sub_le htwo)
    simp only [GetCheckpoint, hcp₂, Except.ok_bind]
    split_ifs <;> exact ⟨_, rfl⟩
  · exact ⟨_, rfl⟩

theorem TablesInvariant.initializeEpochTail_ok (h : TablesInvariant params s)
    (hone : 1 ≤ s.currentEpoch) (hdyn : s.currentDynasty < s.currentEpoch)
    (hJ : s.lastJustifiedEpoch ≤ s.currentEpoch - 2) : ∃ s', s.initializeEpochTail = .ok s' := by
  obtain ⟨s₃, hincrement⟩ := h.IncrementDynasty_ok hJ
  have h₃ := h.incrementDynasty hdyn hincrement
  have hsame : s₃.currentEpoch = s.currentEpoch ∧ s₃.lastJustifiedEpoch = s.lastJustifiedEpoch := by
    rcases s.IncrementDynasty_eq_ok hincrement with rfl | ⟨-, -, rfl⟩ <;> exact ⟨rfl, rfl⟩
  unfold FinalizationState.initializeEpochTail
  rw [hincrement, Except.ok_bind]
  split_ifs
  · obtain ⟨s₄, hinsta⟩ := h₃.InstaJustify_ok (hsame.1 ▸ hone) (by rw [hsame.1, hsame.2]; exact hJ)
    rw [hinsta, Except.ok_bind]
    exact ⟨_, rfl⟩
  · exact ⟨_, rfl⟩

theorem TablesInvariant.GetSqrtOfTotalDeposits_failsOnly (h : TablesInvariant params s)
    (hone : 1 ≤ s.currentEpoch) : FailsOnlyOnDivision s.GetSqrtOfTotalDeposits := by
  obtain ⟨f, hf⟩ := h.getDepositScaleFactor (UInt32.sub_le hone)
  unfold GetSqrtOfTotalDeposits
  rw [hf, Except.ok_bind]
  exact sqrt_uint_failsOnly _

theorem TablesInvariant.InitializeEpoch_failsOnly (h : TablesInvariant params s) {height : Height}
    (hheight : height.toNat < 2 ^ 31) (hstart : s.settings.IsEpochStart height = true) :
    FailsOnlyOnDivision (s.InitializeEpoch height) := by
  unfold InitializeEpoch
  simp only [hstart, Bool.not_true, Bool.false_eq_true, if_false]
  by_cases hepoch : s.settings.GetEpoch height = s.currentEpoch + 1
  swap
  · rw [if_pos hepoch]
    exact Except.FailsOnly.pure _
  rw [if_neg (not_not.mpr hepoch), hepoch]
  have hle : (s.currentEpoch + 1).toNat ≤ 2 ^ 31 := hepoch ▸ s.settings.GetEpoch_toNat_le hheight
  refine h.openEpoch_failsOnly.bind fun s₁ hopen => ?_
  have h₁ := h.openEpoch hle hopen
  obtain ⟨checkpoints, _, _, rfl⟩ := s.openEpoch_eq_ok hopen
  -- the tail starts at the new epoch, past the dynasty and the last justified epoch
  have hone : 1 ≤ s.currentEpoch + 1 := one_le_succ h.epoch_le
  have hdyn : s.currentDynasty < s.currentEpoch + 1 :=
    UInt32.lt_of_le_of_lt h.dynasty_le_epoch (lt_succ_of_le h.epoch_le (UInt32.le_refl _))
  have hJ : s.lastJustifiedEpoch ≤ s.currentEpoch + 1 - 2 := by
    rw [succ_sub_two]
    exact h.justified_le_pred
  split_ifs
  · refine (h₁.GetSqrtOfTotalDeposits_failsOnly hone).bind fun _ _ =>
      (div_failsOnly _ _).bind fun _ _ => ?_
    split_ifs
    · exact Except.FailsOnly.pure _
    · exact (Except.FailsOnly.of_exists_ok ((h₁.setRewardFactor _).initializeEpochTail_ok hone hdyn hJ)).bind
        fun _ _ => Except.FailsOnly.pure _
  · exact (Except.FailsOnly.of_exists_ok ((h₁.setRewardFactor 0).initializeEpochTail_ok hone hdyn hJ)).bind
      fun _ _ => Except.FailsOnly.pure _

/-- Along every run from `FinalizationState(params)` of `InitializeEpoch` at the chain's heights
and of commits that their checks accept, with a withdrawal delay that is not negative: the
deposit scale factors and the slashed totals cover every epoch up to the current one, the
dynasty start epochs cover exactly the dynasties up to the current one, and the checkpoints
cover the epochs from the last finalized one to the current one. No assert of the getters and
no `m_validators.at()` fails in a commit that its check accepts, in the withdrawal check, in
`InitializeEpoch` at the first block of an epoch, or in `GetCurrentDynastyEpochStart`: they fail
at most by a division by zero. -/
theorem epochTables_of_reachable (hash160 : List UInt8 → Uint160) {params : Params}
    (hdelay : 0 ≤ params.withdrawal_epoch_delay) (hreach : Reachable hash160 params s) :
    EpochTables s ∧
      (∀ tx, s.ValidateCommit tx → FailsOnlyOnDivision (s.ProcessNewCommit hash160 tx)) ∧
      (∀ validatorAddress requestedWithdraw,
        FailsOnlyOnDivision (s.ValidateWithdraw validatorAddress requestedWithdraw)) ∧
      (∀ height : Height, height.toNat < 2 ^ 31 → s.settings.IsEpochStart height = true →
        FailsOnlyOnDivision (s.InitializeEpoch height)) ∧
      ∃ e, s.GetCurrentDynastyEpochStart = .ok e := by
  have h := TablesInvariant.of_reachable hash160 hreach
  exact ⟨h.toEpochTables, fun _ hvalid => h.ProcessNewCommit_failsOnly hash160 hvalid,
    h.ValidateWithdraw_failsOnly hdelay, fun _ hheight hstart => h.InitializeEpoch_failsOnly hheight hstart,
    h.GetCurrentDynastyEpochStart_ok⟩

def depositInputs : List StepInput :=
  [.commit (.deposit 7 (1500 * UNIT) 0), .initializeEpoch 1, .initializeEpoch 6, .initializeEpoch 11]

def depositState : FinalizationState :=
  (runInputs (fun _ => 0) (create Params.RegTest) depositInputs).getD (create Params.RegTest)

theorem depositState_reachable : Reachable (fun _ => 0) Params.RegTest depositState :=
  reachable_runInputs _ (by decide)

theorem epochTables_of_reachable_depositState :
    EpochTables depositState ∧
      (∀ tx, depositState.ValidateCommit tx →
        FailsOnlyOnDivision (depositState.ProcessNewCommit (fun _ => 0) tx)) ∧
      (∀ validatorAddress requestedWithdraw,
        FailsOnlyOnDivision (depositState.ValidateWithdraw validatorAddress requestedWithdraw)) ∧
      (∀ height : Height, height.toNat < 2 ^ 31 → depositState.settings.IsEpochStart height = true →
        FailsOnlyOnDivision (depositState.InitializeEpoch height)) ∧
      ∃ e, depositState.GetCurrentDynastyEpochStart = .ok e :=
  epochTables_of_reachable (fun _ => 0) (by decide) depositState_reachable

def negativeDelayParams : Params :=
  { Params.RegTest with dynasty_logout_delay := -1, withdrawal_epoch_delay := -1 }

def negativeDelayInputs : List StepInput :=
  [.commit (.deposit 7 (1500 * UNIT) 0), .initializeEpoch 1, .initializeEpoch 6, .initializeEpoch 11,
    .initializeEpoch 16, .commit (.logout 7 0), .commit (.slash ⟨7, 1, 2, 3⟩ ⟨7, 2, 2, 3⟩)]

/-- With a negative withdrawal delay the withdrawal check asserts. After the run above the
finalizer is slashed with end dynasty 1, and dynasty 2 started at epoch 4, so its withdrawal
epoch is 3, which has passed; the base epoch of the slashed totals, 3 minus twice the delay, is
5, after the current epoch 4, and `GetTotalSlashed(5)` asserts. -/
theorem withdraw_asserts_of_negative_delay :
    ∃ s, Reachable (fun _ => 0) negativeDelayParams s ∧ s.ValidateWithdraw 7 0 = .error .assertion := by
  have hrun : (runInputs (fun _ => 0) (create negativeDelayParams) negativeDelayInputs).map
      (fun s => s.ValidateWithdraw 7 0) = some (.error .assertion) := by
    decide
  cases hs : runInputs (fun _ => 0) (create negativeDelayParams) negativeDelayInputs with
  | none =>
    rw [hs] at hrun
    cases hrun
  | some s =>
    rw [hs, Option.map_some, Option.some.injEq] at hrun
    exact ⟨s, runInputs_run _ hs, hrun⟩

end FinalizationState

end Esperanza

end UnitE
