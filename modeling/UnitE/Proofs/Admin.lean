import UnitE.Lib.Except
import UnitE.Proofs.RecommendedVote

/-! The admin state of the finalization state: the admin keys, the whitelist of finalizers
and whether permissioning is active. Only the commands of an admin commit write it, and the
contextual check accepts an admin commit only while permissioning is active and with the
admin keys of the state it is checked against. So along every run of commits and epochs the
admin state changes only by commands signed with the current keys, and once permissioning
has ended it never changes again: from then on every finalizer is authorized, block after
block. -/

namespace UnitE.Esperanza.FinalizationState

open Finalization

variable {s s' : FinalizationState}

section Frame

theorem initializeEpochTail_adminState (h : s.initializeEpochTail = .ok s') :
    s'.adminState = s.adminState := by
  obtain ⟨s₁, s₂, hincrement, hjustify, rfl⟩ := s.initializeEpochTail_eq_ok h
  have h₁ : s₁.adminState = s.adminState := by
    rcases s.IncrementDynasty_eq_ok hincrement with rfl | ⟨-, -, rfl⟩ <;> rfl
  have h₂ : s₂.adminState = s₁.adminState := by
    rcases hjustify with rfl | ⟨-, hinsta⟩
    · rfl
    · obtain ⟨cp, -, hres⟩ := s₁.InstaJustify_eq_ok hinsta
      rcases hres with rfl | ⟨-, -, rfl⟩ <;> rfl
  exact h₂.trans h₁

theorem InitializeEpoch_adminState {height : Height} {res : Result}
    (h : s.InitializeEpoch height = .ok (res, s')) : s'.adminState = s.adminState := by
  rcases s.InitializeEpoch_eq_ok h with rfl | ⟨s₁, s₂, -, hopen, hs₂, htail⟩
  · rfl
  · have h₁ : s₁.adminState = s.adminState := by rw [s.openEpoch_frame hopen]
    have h₂ : s₂.adminState = s₁.adminState := by rw [hs₂]
    rcases htail with rfl | htail
    · exact h₂.trans h₁
    · exact ((initializeEpochTail_adminState htail).trans h₂).trans h₁

theorem startEpoch_adminState {height : Height} (h : s.startEpoch height = .ok s') :
    s'.adminState = s.adminState := by
  unfold startEpoch at h
  split_ifs at h
  · obtain ⟨⟨res, s₁⟩, hinit, hres⟩ := Except.map_eq_ok.mp h
    rw [← hres]
    exact InitializeEpoch_adminState hinit
  · cases Except.ok.inj h
    rfl

variable (hash160 : List UInt8 → Uint160)

/-- A commit writes the admin state only when it is an admin commit, which applies its
commands in order. -/
theorem ProcessNewCommit_adminState {tx : CommitTx} (h : s.ProcessNewCommit hash160 tx = .ok s') :
    s'.adminState = s.adminState ∨ ∃ (commands : List AdminCommand) (adminKeys : AdminKeySet),
      tx = .admin commands adminKeys ∧
      s'.adminState = commands.foldl (processAdminCommand hash160) s.adminState := by
  cases tx with
  | vote vote txHash =>
    obtain ⟨s₂, hvote, hreg⟩ := s.ProcessNewCommit_vote_eq_ok hash160 h
    obtain ⟨v, -, rfl⟩ := s₂.RegisterLastTx_eq_ok_iff.mp hreg
    left
    show s₂.adminState = s.adminState
    rw [s.ProcessVote_frame hvote]
  | deposit validatorAddress depositValue txHash =>
    obtain ⟨_, rfl⟩ := s.ProcessNewCommit_deposit_eq_ok hash160 h
    exact .inl rfl
  | logout validatorAddress txHash =>
    obtain ⟨s₂, hlogout, hreg⟩ := s.ProcessNewCommit_logout_eq_ok hash160 h
    obtain ⟨v, -, rfl⟩ := s₂.RegisterLastTx_eq_ok_iff.mp hreg
    obtain ⟨v', -, rfl⟩ := s.ProcessLogout_eq_ok hlogout
    exact .inl rfl
  | withdraw validatorAddress requestedWithdraw =>
    cases Except.ok.inj h
    exact .inl rfl
  | slash vote1 vote2 =>
    have hslash : s.ProcessSlash vote1 vote2 = .ok s' := h
    obtain ⟨v, t, v', -, -, -, -, -, rfl⟩ := s.ProcessSlash_eq_ok hslash
    exact .inl rfl
  | admin commands adminKeys =>
    cases Except.ok.inj h
    exact .inr ⟨commands, adminKeys, rfl, rfl⟩
  | regular =>
    cases Except.ok.inj h
    exact .inl rfl

end Frame

variable (hash160 : List UInt8 → Uint160)

section Blocks

/-- A block whose parent has ended permissioning holds no admin commit that passes the check,
so it keeps the admin state. -/
theorem BlockStep.adminState_of_ended (h : BlockStep hash160 s s')
    (hended : s.adminState.permissioningIsActive = false) : s'.adminState = s.adminState := by
  cases h with
  | @block height blockHash txes _ hcheck h =>
    obtain ⟨-, s₀, s₁, hstart, hfold, rfl⟩ := (s.child.ProcessNewCommits_eq_ok hash160).mp h
    have h₀ : s₀.adminState = s.adminState := startEpoch_adminState (s := s.child) hstart
    -- every commit of the block was checked against the parent, where no admin commit passes
    have h₁ : s₁.adminState = s.adminState := by
      refine Except.foldlM_preserves (fun b => b.adminState = s.adminState) txes ?_ s₀ s₁ h₀ hfold
      intro b hb tx htx b' hstep
      rcases ProcessNewCommit_adminState hash160 hstep with h' | ⟨commands, adminKeys, rfl, -⟩
      · exact h'.trans hb
      · have hactive := (hcheck _ htx).1
        simp [IsPermissioningActive, hended] at hactive
    show (s₁.recommendTarget height blockHash).adminState = s.adminState
    unfold recommendTarget
    split_ifs <;> exact h₁

/-- Once permissioning has ended, no chain of blocks writes the admin state again, and every
finalizer stays authorized. -/
theorem adminState_of_blocks_of_ended (hrun : Relation.ReflTransGen (BlockStep hash160) s s')
    (hended : s.adminState.permissioningIsActive = false) :
    s'.adminState = s.adminState ∧ ∀ validatorAddress, s'.adminState.IsValidatorAuthorized validatorAddress = true := by
  have hframe : s'.adminState = s.adminState := by
    induction hrun with
    | refl => rfl
    | tail _ hstep ih => exact (hstep.adminState_of_ended hash160 (by rw [ih]; exact hended)).trans ih
  refine ⟨hframe, fun validatorAddress => ?_⟩
  simp [AdminState.IsValidatorAuthorized, hframe, hended]

theorem adminState_of_blocks_of_ended_votingState :
    votingState.adminState = (create Params.RegTest).adminState ∧
      ∀ validatorAddress, votingState.adminState.IsValidatorAuthorized validatorAddress = true :=
  adminState_of_blocks_of_ended (fun _ => 0) votingState_reachable (by decide)

end Blocks

end UnitE.Esperanza.FinalizationState
