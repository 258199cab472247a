import Mathlib.Tactic.LinearCombination
import Mathlib.Tactic.Ring
import UnitE.Lib.FinmapSum
import UnitE.Spec.Commits

/-! Deposit accounting of the finalization state machine. The state keeps running totals of
the deposits of the current and the previous dynasty and, for later dynasties, the deltas
by which the total changes when they start. Every operation that moves a deposit, a start
or an end dynasty adjusts them; here they are compared with the deposits of the finalizers
themselves over every run of validated operations and epoch starts.

The comparison holds for dynasties below `MAX_END_DYNASTY`, the end dynasty of a finalizer
that has not logged out, which no delta records, and with a logout delay small enough that
`GetEndDynasty` does not wrap around `uint32_t`. -/

namespace UnitE.Esperanza.FinalizationState

open Finalization

def depositsWhere (validators : ValidatorMap) (p : Validator → Bool) : CAmount :=
  validators.sumBy fun _ v => if p v then (v.deposit : CAmount) else 0

/-- The running totals against the finalizers' deposits: the totals of the current and the
previous dynasty, and the delta of every later dynasty below `MAX_END_DYNASTY`, which an
absent entry of `m_dynasty_deltas` reads as 0. -/
structure DepositAccounting (s : FinalizationState) : Prop where
  cur : s.curDynDeposits = depositsWhere s.validators (IsInDynasty · s.currentDynasty)
  prev : s.prevDynDeposits = depositsWhere s.validators (IsInDynasty · (s.currentDynasty - 1))
  deltas : ∀ d, s.currentDynasty < d → d < MAX_END_DYNASTY →
    (s.dynastyDeltas d).getD 0 =
      depositsWhere s.validators (·.startDynasty == d) - depositsWhere s.validators (·.endDynasty == d)

/-- A logout delay of at least one dynasty that keeps `GetEndDynasty` below
`MAX_END_DYNASTY` for every dynasty a chain of `int` heights reaches. -/
def LogoutDelayBounded (params : Params) : Prop :=
  1 ≤ params.dynasty_logout_delay ∧ params.dynasty_logout_delay ≤ 2 ^ 31 - 2

instance (params : Params) : Decidable (LogoutDelayBounded params) :=
  inferInstanceAs (Decidable (_ ∧ _))

/-- What keeps the dynasty arithmetic of a state from wrapping: a bounded logout delay,
every finalizer starts before it ends and ends at `MAX_END_DYNASTY` or within the logout
delay, and the dynasty stays below the epoch, which stays within the epochs of `int`
heights. -/
structure DynastyBounds (s : FinalizationState) : Prop where
  delay : LogoutDelayBounded s.settings
  start_lt_end : ∀ a v, s.validators.lookup a = some v → v.startDynasty < v.endDynasty
  end_scheduled : ∀ a v, s.validators.lookup a = some v →
    v.endDynasty = MAX_END_DYNASTY ∨
      (v.endDynasty.toNat : Int) ≤ s.currentDynasty.toNat + s.settings.dynasty_logout_delay
  dynasty_le_epoch : s.currentDynasty ≤ s.currentEpoch
  epoch_le : s.currentEpoch.toNat ≤ 2 ^ 31

section DepositsWhere

variable {validators : ValidatorMap} {p q : Validator → Bool}

theorem depositsWhere_insert_of_notMem {a : Uint160} (v : Validator) (h : a ∉ validators) :
    depositsWhere (validators.insert a v) p =
      depositsWhere validators p + if p v then (v.deposit : CAmount) else 0 := by
  unfold depositsWhere
  rw [Finmap.sumBy_insert_of_notMem v h]

theorem depositsWhere_insert_of_lookup {a : Uint160} {v₀ : Validator} (v : Validator)
    (h : validators.lookup a = some v₀) :
    depositsWhere (validators.insert a v) p =
      depositsWhere validators p - (if p v₀ then (v₀.deposit : CAmount) else 0) +
        if p v then (v.deposit : CAmount) else 0 := by
  unfold depositsWhere
  rw [Finmap.sumBy_insert_of_lookup v h]

theorem depositsWhere_insert_same {a : Uint160} {v₀ : Validator} (v : Validator)
    (h : validators.lookup a = some v₀) (hp : p v = p v₀) (hdeposit : v.deposit = v₀.deposit) :
    depositsWhere (validators.insert a v) p = depositsWhere validators p := by
  rw [depositsWhere_insert_of_lookup v h, hdeposit, hp, sub_add_cancel]

theorem depositsWhere_erase_of_lookup {a : Uint160} {v₀ : Validator}
    (h : validators.lookup a = some v₀) :
    depositsWhere (validators.erase a) p =
      depositsWhere validators p - if p v₀ then (v₀.deposit : CAmount) else 0 := by
  unfold depositsWhere
  rw [Finmap.sumBy_erase_of_lookup h]

theorem depositsWhere_add_sub {r t : Validator → Bool}
    (h : ∀ a v, validators.lookup a = some v →
      ((if p v then (v.deposit : CAmount) else 0) +
        ((if q v then (v.deposit : CAmount) else 0) - if r v then (v.deposit : CAmount) else 0)) =
        if t v then (v.deposit : CAmount) else 0) :
    depositsWhere validators p + (depositsWhere validators q - depositsWhere validators r) =
      depositsWhere validators t := by
  unfold depositsWhere
  rw [← Finmap.sumBy_sub, ← Finmap.sumBy_add]
  exact Finmap.sumBy_congr h

end DepositsWhere

theorem forall_lookup_insert {P : Uint160 → Validator → Prop} {validators : ValidatorMap}
    {a : Uint160} {v : Validator} (hold : ∀ b w, validators.lookup b = some w → P b w)
    (hnew : P a v) : ∀ b w, (validators.insert a v).lookup b = some w → P b w := by
  intro b w hw
  by_cases hb : b = a
  · subst hb
    rw [Finmap.lookup_insert, Option.some.injEq] at hw
    exact hw ▸ hnew
  · rw [Finmap.lookup_insert_of_ne _ hb] at hw
    exact hold b w hw

theorem forall_lookup_erase {P : Uint160 → Validator → Prop} {validators : ValidatorMap}
    {a : Uint160} (hold : ∀ b w, validators.lookup b = some w → P b w) :
    ∀ b w, (validators.erase a).lookup b = some w → P b w := by
  intro b w hw
  by_cases hb : b = a
  · subst hb
    rw [Finmap.lookup_erase] at hw
    cases hw
  · rw [Finmap.lookup_erase_ne hb] at hw
    exact hold b w hw

section DynastyArithmetic

variable {D : UInt32} (hD : D.toNat ≤ 2 ^ 31)
include hD

theorem toNat_succ_of_le : (D + 1).toNat = D.toNat + 1 := by
  rw [UInt32.toNat_add, UInt32.toNat_one]
  omega

theorem toNat_add_two_of_le : (D + 2).toNat = D.toNat + 2 := by
  rw [UInt32.toNat_add]
  simp only [UInt32.reduceToNat]
  omega

end DynastyArithmetic

theorem not_isInDynasty_pred_zero (v : Validator) : IsInDynasty v (0 - 1) = false := by
  simp only [IsInDynasty, Bool.and_eq_false_iff, decide_eq_false_iff_not]
  right
  grind

/-- The deposit accounting with the bounds it rests on. -/
structure DepositInvariant (s : FinalizationState) : Prop extends
    DynastyBounds s, DepositAccounting s

variable {s s' : FinalizationState}

theorem DynastyBounds.dynasty_toNat_le (hb : DynastyBounds s) : s.currentDynasty.toNat ≤ 2 ^ 31 :=
  (UInt32.le_iff_toNat_le.mp hb.dynasty_le_epoch).trans hb.epoch_le

/-- A step that leaves the validators, the dynasty with its totals and deltas and the
settings keeps the invariant, with an epoch that stays above the dynasty and in range. -/
theorem DepositInvariant.of_frame_epoch (h : DepositInvariant s)
    (hvalidators : s'.validators = s.validators) (hdynasty : s'.currentDynasty = s.currentDynasty)
    (hcur : s'.curDynDeposits = s.curDynDeposits) (hprev : s'.prevDynDeposits = s.prevDynDeposits)
    (hdeltas : s'.dynastyDeltas = s.dynastyDeltas) (hsettings : s'.settings = s.settings)
    (hle : s.currentDynasty ≤ s'.currentEpoch) (hepoch : s'.currentEpoch.toNat ≤ 2 ^ 31) :
    DepositInvariant s' where
  delay := hsettings ▸ h.delay
  start_lt_end := hvalidators ▸ h.start_lt_end
  end_scheduled := by rw [hvalidators, hdynasty, hsettings]; exact h.end_scheduled
  dynasty_le_epoch := hdynasty ▸ hle
  epoch_le := hepoch
  cur := by rw [hcur, hvalidators, hdynasty]; exact h.cur
  prev := by rw [hprev, hvalidators, hdynasty]; exact h.prev
  deltas := by rw [hdeltas, hvalidators, hdynasty]; exact h.deltas

/-- A step that leaves the validators, the dynasty with its totals and deltas, the epoch and
the settings keeps the invariant. -/
theorem DepositInvariant.of_frame (h : DepositInvariant s) (hvalidators : s'.validators = s.validators)
    (hdynasty : s'.currentDynasty = s.currentDynasty) (hcur : s'.curDynDeposits = s.curDynDeposits)
    (hprev : s'.prevDynDeposits = s.prevDynDeposits) (hdeltas : s'.dynastyDeltas = s.dynastyDeltas)
    (hepoch : s'.currentEpoch = s.currentEpoch) (hsettings : s'.settings = s.settings) :
    DepositInvariant s' :=
  h.of_frame_epoch hvalidators hdynasty hcur hprev hdeltas hsettings
    (hepoch ▸ h.dynasty_le_epoch) (hepoch ▸ h.epoch_le)

theorem DepositInvariant.registerLastTx (h : DepositInvariant s) {validatorAddress : Uint160}
    {txHash : Uint256} (hreg : s.RegisterLastTx validatorAddress txHash = .ok s') :
    DepositInvariant s' := by
  obtain ⟨v, hv, rfl⟩ := s.RegisterLastTx_eq_ok_iff.mp hreg
  -- the new entry differs from the old one only in its last transaction
  have hsame (p : Validator → Bool) (hp : p { v with lastTransactionHash := txHash } = p v) :
      depositsWhere (s.validators.insert validatorAddress { v with lastTransactionHash := txHash }) p =
        depositsWhere s.validators p :=
    depositsWhere_insert_same _ hv hp rfl
  exact {
    delay := h.delay
    start_lt_end := forall_lookup_insert h.start_lt_end (h.start_lt_end _ v hv)
    end_scheduled := forall_lookup_insert h.end_scheduled (h.end_scheduled _ v hv)
    dynasty_le_epoch := h.dynasty_le_epoch
    epoch_le := h.epoch_le
    cur := by
      dsimp only [setValidator]
      rw [hsame (IsInDynasty · s.currentDynasty) rfl]
      exact h.cur
    prev := by
      dsimp only [setValidator]
      rw [hsame (IsInDynasty · (s.currentDynasty - 1)) rfl]
      exact h.prev
    deltas := fun d hd hmax => by
      dsimp only [setValidator]
      rw [hsame (·.startDynasty == d) rfl, hsame (·.endDynasty == d) rfl]
      exact h.deltas d hd hmax }

theorem start_le_of_isFinalizerVoting {v : Validator} (hvoting : s.IsFinalizerVoting v = true) :
    v.startDynasty ≤ s.currentDynasty := by
  unfold IsFinalizerVoting at hvoting
  by_cases hD : s.currentDynasty = 0
  · rw [hD, not_isInDynasty_pred_zero, Bool.or_false] at hvoting
    simp only [IsInDynasty, Bool.and_eq_true, decide_eq_true_eq] at hvoting
    exact hD ▸ hvoting.1
  · simp only [IsInDynasty, Bool.or_eq_true, Bool.and_eq_true, decide_eq_true_eq] at hvoting
    rcases hvoting with ⟨hle, -⟩ | ⟨hle, -⟩
    · exact hle
    · rw [UInt32.le_iff_toNat_le, UInt32.toNat_pred_of_ne_zero hD] at hle
      rw [UInt32.le_iff_toNat_le]
      omega

theorem depositsWhere_insert_add_deposit {validators : ValidatorMap} {p : Validator → Bool}
    {a : Uint160} {v : Validator} (reward : Nat) (h : validators.lookup a = some v)
    (hp : p { v with deposit := v.deposit + reward } = p v) :
    depositsWhere (validators.insert a { v with deposit := v.deposit + reward }) p =
      depositsWhere validators p + if p v then (reward : CAmount) else 0 := by
  rw [depositsWhere_insert_of_lookup _ h, hp]
  split_ifs <;> push_cast <;> ring

theorem ite_add_eq_add_ite (c : Prop) [Decidable c] (x r : CAmount) :
    (if c then x + r else x) = x + if decide c then r else 0 := by
  split_ifs <;> simp_all

/-- A reward raises the deposit of a finalizer that has started, and the totals of the
dynasties it is in, and lowers the delta of its end dynasty. -/
theorem DepositInvariant.processReward (h : DepositInvariant s) {validatorAddress : Uint160}
    {v : Validator} {reward r : Nat} (hv : s.validators.lookup validatorAddress = some v)
    (hstart : v.startDynasty ≤ s.currentDynasty)
    (hreward : s.ProcessReward validatorAddress reward = .ok (r, s')) : DepositInvariant s' := by
  obtain ⟨v', hv', rfl⟩ := s.ProcessReward_eq_ok hreward
  obtain rfl : v' = v := Option.some.inj (hv'.symm.trans hv)
  refine ⟨⟨h.delay, ?_, ?_, h.dynasty_le_epoch, h.epoch_le⟩, ?_, ?_, ?_⟩
  · exact forall_lookup_insert h.start_lt_end (h.start_lt_end _ v' hv)
  · exact forall_lookup_insert h.end_scheduled (h.end_scheduled _ v' hv)
  · dsimp only
    rw [depositsWhere_insert_add_deposit reward hv rfl, ← h.cur, ite_add_eq_add_ite]
    simp only [IsInDynasty, Bool.decide_and]
    rfl
  · dsimp only
    rw [depositsWhere_insert_add_deposit reward hv rfl, ← h.prev, ite_add_eq_add_ite]
    simp only [IsInDynasty, Bool.decide_and]
    rfl
  · intro d hd hmax
    dsimp only at hd hmax ⊢
    rw [depositsWhere_insert_add_deposit reward hv rfl,
      depositsWhere_insert_add_deposit reward hv rfl]
    -- the finalizer has started, so only its end dynasty can be `d`
    have hstart_ne : (v'.startDynasty == d) = false := by
      rw [beq_eq_false_iff_ne]
      rintro rfl
      exact UInt32.lt_irrefl _ (UInt32.lt_of_le_of_lt hstart hd)
    rw [hstart_ne]
    by_cases hend : v'.endDynasty = d
    · subst hend
      rw [if_pos hmax, Function.update_self, Option.getD_some, h.deltas _ hd hmax,
        beq_self_eq_true]
      simp only [if_true, Bool.false_eq_true, if_false]
      ring
    · have hother : (if v'.endDynasty < MAX_END_DYNASTY then
            Function.update s.dynastyDeltas v'.endDynasty
              (some ((s.dynastyDeltas v'.endDynasty).getD 0 - reward))
          else s.dynastyDeltas) d = s.dynastyDeltas d := by
        split_ifs
        · exact Function.update_of_ne (Ne.symm hend) _ _
        · rfl
      rw [hother, h.deltas d hd hmax, beq_eq_false_iff_ne.mpr hend]
      simp

theorem DepositInvariant.processVote (h : DepositInvariant s) {vote : Vote}
    (hvalid : s.ValidateVote vote = .SUCCESS) (hvote : s.ProcessVote vote = .ok s') :
    DepositInvariant s' := by
  obtain ⟨v, -, -, hv, -, -, -, -, -, -, hvoting⟩ := s.ValidateVote_eq_success hvalid
  obtain ⟨cp, validator, s₁, -, hvalidator, hreward, hjustify⟩ := s.ProcessVote_eq_ok hvote
  obtain rfl : validator = v := Option.some.inj (hvalidator.symm.trans hv)
  have h₁ : DepositInvariant s₁ := by
    rcases s.rewardVote_eq_ok hreward with rfl | ⟨-, r, hr⟩
    · exact h
    · exact h.processReward hv (start_le_of_isFinalizerVoting hvoting) hr
  rcases s₁.justifyTarget_eq_ok hjustify with rfl | ⟨-, -, rfl⟩ | ⟨-, -, rfl⟩ <;>
    exact h₁.of_frame rfl rfl rfl rfl rfl rfl rfl

theorem GetEndDynasty_toNat (hb : DynastyBounds s) :
    (s.GetEndDynasty.toNat : Int) = s.currentDynasty.toNat + s.settings.dynasty_logout_delay := by
  have hD := hb.dynasty_toNat_le
  obtain ⟨h1, h2⟩ := hb.delay
  unfold GetEndDynasty UInt32.ofInt
  rw [UInt32.toNat_ofNat']
  omega

theorem getD_update {α β : Type} [DecidableEq α] (f : α → Option β) (a d : α) (b z : β) :
    (Function.update f a (some b) d).getD z = if d = a then b else (f d).getD z := by
  rw [Function.update_apply]
  split_ifs <;> rfl

theorem isInDynasty_of_end_le {v : Validator} {D : UInt32} (h : v.endDynasty ≤ D) :
    IsInDynasty v D = false := by
  simp [IsInDynasty, UInt32.not_lt.mpr h]

/-- The deltas after a slashing of a finalizer that has not left: its deposit leaves at the
next dynasty instead of at its end dynasty. -/
theorem getD_slashDeltas {Δ : UInt32 → Option CAmount} {D e d : UInt32} (dep : CAmount)
    (hd : d < MAX_END_DYNASTY) :
    ((if e < MAX_END_DYNASTY then
        Function.update (Function.update Δ (D + 1) (some ((Δ (D + 1)).getD 0 - dep))) e
          (some (((Function.update Δ (D + 1) (some ((Δ (D + 1)).getD 0 - dep))) e).getD 0 + dep))
      else Function.update Δ (D + 1) (some ((Δ (D + 1)).getD 0 - dep))) d).getD 0 =
      (Δ d).getD 0 - (if D + 1 = d then dep else 0) + (if e = d then dep else 0) := by
  by_cases he : e < MAX_END_DYNASTY
  · rw [if_pos he, getD_update, getD_update, getD_update]
    by_cases hde : d = e
    · subst hde
      by_cases hd1 : d = D + 1
      · subst hd1
        simp
      · simp [hd1, Ne.symm hd1]
    · by_cases hd1 : d = D + 1
      · subst hd1
        simp [hde, Ne.symm hde]
      · simp [hd1, Ne.symm hd1, hde, Ne.symm hde]
  · have hde : e ≠ d := fun h' => he (h' ▸ hd)
    rw [if_neg he, getD_update]
    by_cases hd1 : d = D + 1
    · subst hd1
      simp [hde]
    · simp [hd1, Ne.symm hd1, hde]

/-- A finalizer is in the next dynasty when it is in this one and does not end at the next,
or starts at the next: the entry the dynasty increment adds to the total. -/
theorem isInDynasty_succ {v : Validator} {D : UInt32} (hlt : v.startDynasty < v.endDynasty)
    (hD : D.toNat ≤ 2 ^ 31) :
    ((if IsInDynasty v D then (v.deposit : CAmount) else 0) +
      ((if v.startDynasty == D + 1 then (v.deposit : CAmount) else 0) -
        if v.endDynasty == D + 1 then (v.deposit : CAmount) else 0)) =
      if IsInDynasty v (D + 1) then (v.deposit : CAmount) else 0 := by
  have hD1 := toNat_succ_of_le hD
  rw [UInt32.lt_iff_toNat_lt] at hlt
  simp only [IsInDynasty, beq_iff_eq, Bool.and_eq_true, decide_eq_true_eq, UInt32.le_iff_toNat_le,
    UInt32.lt_iff_toNat_lt, ← UInt32.toNat_inj, hD1]
  -- the consistent cases are identities of the deposit, the others contradict the bounds
  split_ifs <;> first | omega | ring1

/-- The dynasty increment: the next dynasty's delta moves into the current total, which
becomes the previous one. -/
theorem DepositInvariant.incrementDynasty (h : DepositInvariant s)
    (hlt : s.currentDynasty < s.currentEpoch) (hinc : s.IncrementDynasty = .ok s') :
    DepositInvariant s' := by
  rcases s.IncrementDynasty_eq_ok hinc with rfl | ⟨-, -, rfl⟩
  · exact h
  have hD := h.dynasty_toNat_le
  have hD1 := toNat_succ_of_le hD
  have hsucc : s.currentDynasty < s.currentDynasty + 1 := by
    rw [UInt32.lt_iff_toNat_lt, hD1]
    omega
  have hsuccmax : s.currentDynasty + 1 < MAX_END_DYNASTY := by
    rw [UInt32.lt_iff_toNat_lt, hD1]
    simp only [MAX_END_DYNASTY, UInt32.reduceToNat]
    omega
  refine ⟨⟨h.delay, h.start_lt_end, ?_, ?_, h.epoch_le⟩, ?_, ?_, ?_⟩
  · intro a v hv
    refine (h.end_scheduled a v hv).imp_right fun hle => ?_
    rw [hD1]
    push_cast
    omega
  · dsimp only
    rw [UInt32.lt_iff_toNat_lt] at hlt
    rw [UInt32.le_iff_toNat_le, hD1]
    omega
  · dsimp only
    rw [h.cur, h.deltas _ hsucc hsuccmax]
    exact depositsWhere_add_sub fun a v hv => isInDynasty_succ (h.start_lt_end a v hv) hD
  · dsimp only
    rw [UInt32.add_sub_cancel, h.cur]
  · intro d hd hmax
    dsimp only at hd hmax ⊢
    rw [getD_update, if_neg (UInt32.ne_of_lt hd).symm]
    exact h.deltas d (UInt32.lt_trans hsucc hd) hmax

theorem DepositInvariant.instaJustify (h : DepositInvariant s) (hjustify : s.InstaJustify = .ok s') :
    DepositInvariant s' := by
  obtain ⟨cp, -, rfl | ⟨-, -, rfl⟩⟩ := s.InstaJustify_eq_ok hjustify <;>
    exact h.of_frame rfl rfl rfl rfl rfl rfl rfl

/-- An epoch start at a height of the chain: the next epoch opens, and the dynasty may
increase. -/
theorem DepositInvariant.initializeEpoch (h : DepositInvariant s) {height : Height} {res : Result}
    (hheight : height.toNat < 2 ^ 31) (hinit : s.InitializeEpoch height = .ok (res, s')) :
    DepositInvariant s' := by
  rcases s.InitializeEpoch_eq_ok hinit with rfl | ⟨s₁, s₂, hepoch, hopen, hs₂, hrest⟩
  · exact h
  have hle : (s.currentEpoch + 1).toNat ≤ 2 ^ 31 := hepoch ▸ s.settings.GetEpoch_toNat_le hheight
  have hsucc := toNat_succ_of_le h.epoch_le
  have hD := UInt32.le_iff_toNat_le.mp h.dynasty_le_epoch
  have hf₁ := s.openEpoch_frame hopen
  have h₁ : DepositInvariant s₁ := by
    rw [hf₁]
    refine h.of_frame_epoch rfl rfl rfl rfl rfl rfl ?_ hle
    rw [UInt32.le_iff_toNat_le, hsucc]
    omega
  have h₂ : DepositInvariant s₂ := by
    rw [hs₂]
    exact h₁.of_frame rfl rfl rfl rfl rfl rfl rfl
  rcases hrest with rfl | htail
  · exact h₂
  obtain ⟨s₃, s₄, hincrement, hjustify, rfl⟩ := s₂.initializeEpochTail_eq_ok htail
  -- the dynasty is still the old one, and the epoch has moved past it
  have hlt : s₂.currentDynasty < s₂.currentEpoch := by
    rw [hs₂, hf₁]
    dsimp only
    rw [UInt32.lt_iff_toNat_lt, hsucc]
    omega
  have h₃ := h₂.incrementDynasty hlt hincrement
  have h₄ : DepositInvariant s₄ := by
    rcases hjustify with rfl | ⟨-, hjustify⟩
    · exact h₃
    · exact h₃.instaJustify hjustify
  exact h₄.of_frame rfl rfl rfl rfl rfl rfl rfl

section Commits

variable (hash160 : List UInt8 → Uint160)

/-- A validated deposit creates a finalizer two dynasties ahead that has not logged out, and
adds its deposit to the delta of its start dynasty. -/
theorem DepositInvariant.deposit (h : DepositInvariant s) {validatorAddress : Uint160}
    {depositValue : CAmount} {txHash : Uint256}
    (hvalid : s.ValidateDeposit validatorAddress depositValue = .SUCCESS)
    (hdeposit : s.ProcessNewCommit hash160 (.deposit validatorAddress depositValue txHash) = .ok s') :
    DepositInvariant s' := by
  obtain ⟨-, hnew, -⟩ := s.ValidateDeposit_eq_success.mp hvalid
  obtain ⟨x, rfl⟩ := s.ProcessNewCommit_deposit_eq_ok hash160 hdeposit
  rw [Finmap.lookup_eq_none.mpr hnew, Option.getD_none]
  have hD := h.dynasty_toNat_le
  have h2 := toNat_add_two_of_le hD
  have hmax2 : s.currentDynasty + 2 < MAX_END_DYNASTY := by
    rw [UInt32.lt_iff_toNat_lt, h2]
    simp only [MAX_END_DYNASTY, UInt32.reduceToNat]
    omega
  -- the new finalizer is in no dynasty up to the current one
  have hout (D : UInt32) (hle : D.toNat ≤ s.currentDynasty.toNat) :
      IsInDynasty { Validator.create x (s.currentDynasty + 2) validatorAddress with
        lastTransactionHash := txHash } D = false := by
    simp only [IsInDynasty, Validator.create, Bool.and_eq_false_iff]
    left
    refine decide_eq_false ?_
    rw [UInt32.not_le, UInt32.lt_iff_toNat_lt, h2]
    omega
  refine ⟨⟨h.delay, ?_, ?_, h.dynasty_le_epoch, h.epoch_le⟩, ?_, ?_, ?_⟩
  · exact forall_lookup_insert h.start_lt_end hmax2
  · exact forall_lookup_insert h.end_scheduled (.inl rfl)
  · dsimp only
    rw [depositsWhere_insert_of_notMem _ hnew, hout _ le_rfl, h.cur]
    simp
  · dsimp only
    rw [depositsWhere_insert_of_notMem _ hnew, h.prev]
    by_cases hD0 : s.currentDynasty = 0
    · rw [hD0, not_isInDynasty_pred_zero]
      simp
    · rw [hout _ (by rw [UInt32.toNat_pred_of_ne_zero hD0]; omega)]
      simp
  · intro d hd hmax
    dsimp only at hd hmax ⊢
    rw [depositsWhere_insert_of_notMem _ hnew, depositsWhere_insert_of_notMem _ hnew]
    have hend : (MAX_END_DYNASTY == d) = false := beq_eq_false_iff_ne.mpr (UInt32.ne_of_lt hmax).symm
    simp only [Validator.create, hend, Bool.false_eq_true, if_false, add_zero]
    by_cases hd2 : s.currentDynasty + 2 = d
    · subst hd2
      rw [Function.update_self, Option.getD_some, h.deltas _ hd hmax]
      simp only [beq_self_eq_true, if_true]
      ring
    · rw [Function.update_of_ne (Ne.symm hd2), h.deltas d hd hmax]
      simp [hd2]

/-- A validated logout moves the end dynasty of a finalizer that has not logged out to the
end of the logout delay, and records its deposit leaving there. -/
theorem DepositInvariant.logout (h : DepositInvariant s) {validatorAddress : Uint160}
    {txHash : Uint256} (hvalid : s.ValidateLogout validatorAddress = .SUCCESS)
    (hlogout : s.ProcessNewCommit hash160 (.logout validatorAddress txHash) = .ok s') :
    DepositInvariant s' := by
  obtain ⟨v, hv, hstart, hlater⟩ := s.ValidateLogout_eq_success hvalid
  obtain ⟨s₁, hs₁, hreg⟩ := s.ProcessNewCommit_logout_eq_ok hash160 hlogout
  refine DepositInvariant.registerLastTx ?_ hreg
  obtain ⟨v', hv', rfl⟩ := s.ProcessLogout_eq_ok hs₁
  obtain rfl : v' = v := Option.some.inj (hv'.symm.trans hv)
  have hD := h.dynasty_toNat_le
  have hE := GetEndDynasty_toNat h.toDynastyBounds
  obtain ⟨hdelay1, hdelay2⟩ := h.delay
  have hDE : s.currentDynasty < s.GetEndDynasty := by
    rw [UInt32.lt_iff_toNat_lt]
    omega
  have hEmax : s.GetEndDynasty < MAX_END_DYNASTY := by
    rw [UInt32.lt_iff_toNat_lt]
    simp only [MAX_END_DYNASTY, UInt32.reduceToNat]
    omega
  -- a finalizer that may log out has not logged out before
  have hmax : v'.endDynasty = MAX_END_DYNASTY := by
    refine (h.end_scheduled _ v' hv).resolve_right fun hle => ?_
    rw [UInt32.lt_iff_toNat_lt] at hlater
    omega
  set w : Validator :=
    { v' with
      endDynasty := s.GetEndDynasty
      depositsAtLogout := toUint64 s.curDynDeposits } with hw
  -- it stays in the current and the previous dynasty
  have hsame (D : UInt32) (hD' : D ≤ s.currentDynasty ∨ D = s.currentDynasty - 1) :
      IsInDynasty w D = IsInDynasty v' D := by
    by_cases hD0 : s.currentDynasty = 0 ∧ D = s.currentDynasty - 1
    · rw [hD0.2, hD0.1, not_isInDynasty_pred_zero, not_isInDynasty_pred_zero]
    · have hlt : D < s.GetEndDynasty := by
        rcases hD' with hle | rfl
        · exact UInt32.lt_of_le_of_lt hle hDE
        · have hne : s.currentDynasty ≠ 0 := fun h0 => hD0 ⟨h0, rfl⟩
          rw [UInt32.lt_iff_toNat_lt, UInt32.toNat_pred_of_ne_zero hne]
          omega
      have hltmax : D < MAX_END_DYNASTY := UInt32.lt_of_lt_of_le hlt (UInt32.le_of_lt hEmax)
      simp [w, IsInDynasty, hmax, hlt, hltmax]
  refine ⟨⟨h.delay, ?_, ?_, h.dynasty_le_epoch, h.epoch_le⟩, ?_, ?_, ?_⟩
  · exact forall_lookup_insert h.start_lt_end (UInt32.lt_of_le_of_lt hstart hDE)
  · exact forall_lookup_insert h.end_scheduled (.inr hE.le)
  · dsimp only
    rw [depositsWhere_insert_same w hv (hsame _ (.inl (UInt32.le_refl _))) rfl, h.cur]
  · dsimp only
    rw [depositsWhere_insert_same w hv (hsame _ (.inr rfl)) rfl, h.prev]
  · intro d hd hdmax
    dsimp only at hd hdmax ⊢
    rw [depositsWhere_insert_same w hv rfl rfl, depositsWhere_insert_of_lookup w hv,
      getD_update]
    have hmaxd : (v'.endDynasty == d) = false := by
      rw [hmax]
      exact beq_eq_false_iff_ne.mpr (UInt32.ne_of_lt hdmax).symm
    rw [hmaxd]
    have hwend : w.endDynasty = s.GetEndDynasty := rfl
    have hwdeposit : w.deposit = v'.deposit := rfl
    by_cases hdE : d = s.GetEndDynasty
    · subst hdE
      simp only [hwend, hwdeposit, if_true, beq_self_eq_true, Bool.false_eq_true, if_false]
      linear_combination h.deltas _ hd hdmax
    · simp only [hwend, hdE, if_false, Bool.false_eq_true, beq_eq_false_iff_ne.mpr (Ne.symm hdE)]
      linear_combination h.deltas d hd hdmax

theorem DepositInvariant.withdraw (h : DepositInvariant s) {validatorAddress : Uint160}
    {requestedWithdraw : CAmount}
    (hvalid : s.ValidateWithdraw validatorAddress requestedWithdraw = .ok .SUCCESS) :
    DepositInvariant (s.ProcessWithdraw validatorAddress) := by
  obtain ⟨v, withdrawalEpoch, hv, hwe, hreached⟩ := s.ValidateWithdraw_eq_success hvalid
  have hepoch : s.currentEpoch < 4294967295 := by
    rw [UInt32.lt_iff_toNat_lt]
    have := h.epoch_le
    simp only [UInt32.reduceToNat]
    omega
  have hended := s.CalculateWithdrawEpoch_reached hwe hreached hepoch
  have hlt := h.start_lt_end _ v hv
  -- the finalizer has left before the previous dynasty
  have hprev : v.endDynasty ≤ s.currentDynasty - 1 := by
    have hne : s.currentDynasty ≠ 0 := by
      rintro h0
      rw [h0, UInt32.lt_iff_toNat_lt] at hended
      simp at hended
    rw [UInt32.lt_iff_toNat_lt] at hended
    rw [UInt32.le_iff_toNat_le, UInt32.toNat_pred_of_ne_zero hne]
    omega
  refine ⟨⟨h.delay, forall_lookup_erase h.start_lt_end, forall_lookup_erase h.end_scheduled,
    h.dynasty_le_epoch, h.epoch_le⟩, ?_, ?_, ?_⟩
  · dsimp only [ProcessWithdraw]
    rw [depositsWhere_erase_of_lookup hv, isInDynasty_of_end_le (UInt32.le_of_lt hended), h.cur]
    simp
  · dsimp only [ProcessWithdraw]
    rw [depositsWhere_erase_of_lookup hv, isInDynasty_of_end_le hprev, h.prev]
    simp
  · intro d hd hmax
    dsimp only [ProcessWithdraw] at hd hmax ⊢
    have hend : v.endDynasty ≠ d := UInt32.ne_of_lt (UInt32.lt_trans hended hd)
    have hstart : v.startDynasty ≠ d :=
      UInt32.ne_of_lt (UInt32.lt_trans hlt (UInt32.lt_trans hended hd))
    rw [depositsWhere_erase_of_lookup hv, depositsWhere_erase_of_lookup hv, h.deltas d hd hmax]
    simp [hend, hstart]

/-- A validated slashing of a finalizer that has not left moves its end dynasty to the next
dynasty, and its deposit leaves there instead. -/
theorem DepositInvariant.slash (h : DepositInvariant s) {vote1 vote2 : Vote}
    (hvalid : s.IsSlashable vote1 vote2 = .SUCCESS) (hslash : s.ProcessSlash vote1 vote2 = .ok s') :
    DepositInvariant s' := by
  obtain ⟨v, hv, hstart, -⟩ := s.IsSlashable_eq_success hvalid
  obtain ⟨v₁, t, w, hv₁, -, hdep, hst, hend, rfl⟩ := s.ProcessSlash_eq_ok hslash
  obtain rfl : v₁ = v := Option.some.inj (hv₁.symm.trans hv)
  have hD := h.dynasty_toNat_le
  by_cases hlive : s.currentDynasty < v₁.endDynasty
  · rw [if_pos hlive] at hend
    have hD1 := toNat_succ_of_le hD
    have hsucc : s.currentDynasty < s.currentDynasty + 1 := by
      rw [UInt32.lt_iff_toNat_lt, hD1]
      omega
    -- the slashed finalizer stays in the current and the previous dynasty
    have hcur : IsInDynasty w s.currentDynasty = IsInDynasty v₁ s.currentDynasty := by
      simp [IsInDynasty, hst, hend, hstart, hlive, hsucc]
    have hprev : IsInDynasty w (s.currentDynasty - 1) = IsInDynasty v₁ (s.currentDynasty - 1) := by
      by_cases hD0 : s.currentDynasty = 0
      · rw [hD0, not_isInDynasty_pred_zero, not_isInDynasty_pred_zero]
      · have hpred := UInt32.toNat_pred_of_ne_zero hD0
        have h1 : s.currentDynasty - 1 < s.currentDynasty + 1 := by
          rw [UInt32.lt_iff_toNat_lt, hpred, hD1]
          omega
        have h2 : s.currentDynasty - 1 < v₁.endDynasty := by
          rw [UInt32.lt_iff_toNat_lt, hpred]
          rw [UInt32.lt_iff_toNat_lt] at hlive
          omega
        simp [IsInDynasty, hst, hend, h1, h2]
    refine ⟨⟨h.delay, ?_, ?_, h.dynasty_le_epoch, h.epoch_le⟩, ?_, ?_, ?_⟩
    · refine forall_lookup_insert h.start_lt_end ?_
      rw [hst, hend]
      exact UInt32.lt_of_le_of_lt hstart hsucc
    · refine forall_lookup_insert h.end_scheduled (.inr ?_)
      rw [hend, hD1]
      have := h.delay.1
      push_cast
      omega
    · dsimp only
      rw [depositsWhere_insert_same w hv hcur hdep, h.cur]
    · dsimp only
      rw [depositsWhere_insert_same w hv hprev hdep, h.prev]
    · intro d hd hmax
      dsimp only at hd hmax ⊢
      have hs : (w.startDynasty == d) = (v₁.startDynasty == d) := by rw [hst]
      rw [if_pos hlive, getD_slashDeltas _ hmax, depositsWhere_insert_same w hv hs hdep,
        depositsWhere_insert_of_lookup w hv, h.deltas d hd hmax, hend, hdep]
      simp only [beq_iff_eq]
      ring
  · rw [if_neg hlive] at hend
    have hp (D : UInt32) : IsInDynasty w D = IsInDynasty v₁ D := by
      simp [IsInDynasty, hst, hend]
    refine ⟨⟨h.delay, ?_, ?_, h.dynasty_le_epoch, h.epoch_le⟩, ?_, ?_, ?_⟩
    · refine forall_lookup_insert h.start_lt_end ?_
      rw [hst, hend]
      exact h.start_lt_end _ v₁ hv
    · refine forall_lookup_insert h.end_scheduled ?_
      rw [hend]
      exact h.end_scheduled _ v₁ hv
    · dsimp only
      rw [depositsWhere_insert_same w hv (hp _) hdep, h.cur]
    · dsimp only
      rw [depositsWhere_insert_same w hv (hp _) hdep, h.prev]
    · intro d hd hmax
      dsimp only at hd hmax ⊢
      rw [if_neg hlive, depositsWhere_insert_same w hv (by rw [hst]) hdep,
        depositsWhere_insert_same w hv (by rw [hend]) hdep]
      exact h.deltas d hd hmax

theorem DepositInvariant.processNewCommit (h : DepositInvariant s) {tx : CommitTx}
    (hvalid : s.ValidateCommit tx) (hcommit : s.ProcessNewCommit hash160 tx = .ok s') :
    DepositInvariant s' := by
  cases tx with
  | vote vote txHash =>
    obtain ⟨s₁, hvote, hreg⟩ := s.ProcessNewCommit_vote_eq_ok hash160 hcommit
    exact (h.processVote hvalid hvote).registerLastTx hreg
  | deposit validatorAddress depositValue txHash => exact h.deposit hash160 hvalid hcommit
  | logout validatorAddress txHash => exact h.logout hash160 hvalid hcommit
  | withdraw validatorAddress requestedWithdraw =>
    cases Except.ok.inj hcommit
    exact h.withdraw hvalid
  | slash vote1 vote2 => exact h.slash hvalid hcommit
  | admin commands adminKeys =>
    cases Except.ok.inj hcommit
    exact h.of_frame rfl rfl rfl rfl rfl rfl rfl
  | regular =>
    cases Except.ok.inj hcommit
    exact h

theorem DepositInvariant.step (h : DepositInvariant s) (hstep : Step hash160 s s') :
    DepositInvariant s' := by
  cases hstep with
  | initializeEpoch hheight hinit => exact h.initializeEpoch hheight hinit
  | commit hvalid hcommit => exact h.processNewCommit hash160 hvalid hcommit

theorem depositInvariant_create {params : Params} (hdelay : LogoutDelayBounded params) :
    DepositInvariant (create params) where
  delay := hdelay
  start_lt_end := by simp [create]
  end_scheduled := by simp [create]
  dynasty_le_epoch := UInt32.le_refl _
  epoch_le := by simp [create]
  cur := by simp [create, depositsWhere]
  prev := by simp [create, depositsWhere]
  deltas := fun d hd _ => by
    have hd0 : d ≠ 0 := (UInt32.ne_of_lt hd).symm
    simp [create, depositsWhere, hd0]

/-- Every reachable state keeps the deposit accounting: induction over the run, with the
step lemma. -/
theorem DepositInvariant.of_reachable {params : Params} (hdelay : LogoutDelayBounded params)
    (hreach : Reachable hash160 params s) : DepositInvariant s := by
  induction hreach with
  | refl => exact depositInvariant_create hdelay
  | tail _ hstep ih => exact ih.step hash160 hstep

/-- The running totals of every reachable state agree with the finalizers' deposits, for
every dynasty below `MAX_END_DYNASTY`. -/
theorem deposit_accounting_reachable {params : Params} (hdelay : LogoutDelayBounded params)
    (hreach : Reachable hash160 params s) : DepositAccounting s :=
  (DepositInvariant.of_reachable hash160 hdelay hreach).toDepositAccounting

end Commits

def regTestDeposited : FinalizationState :=
  { create Params.RegTest with
    validators := (∅ : ValidatorMap).insert 7
      { Validator.create 150000000000 2 7 with lastTransactionHash := 1 }
    dynastyDeltas := Function.update (create Params.RegTest).dynastyDeltas 2 (some 150000000000) }

theorem reachable_regTestDeposited : Reachable (fun _ => 0) Params.RegTest regTestDeposited := by
  have hvalid : (create Params.RegTest).ValidateCommit (.deposit 7 (1500 * UNIT) 1) := by
    show (create Params.RegTest).ValidateDeposit 7 (1500 * UNIT) = .SUCCESS
    decide
  have hf : (create Params.RegTest).depositScaleFactor (create Params.RegTest).currentEpoch =
      some BASE_DEPOSIT_SCALE_FACTOR := rfl
  have hdiv : Ufp64.div_to_uint (toUint64 (1500 * UNIT)) BASE_DEPOSIT_SCALE_FACTOR =
      .ok 150000000000 := by decide
  have hcommit : (create Params.RegTest).ProcessNewCommit (fun _ => 0) (.deposit 7 (1500 * UNIT) 1) =
      .ok regTestDeposited := by
    rw [ProcessNewCommit_deposit _ _ 7 (1500 * UNIT) 1 hf hdiv]
    rfl
  exact .single (.commit hvalid hcommit)

theorem deposit_accounting_reachable_regTest :
    LogoutDelayBounded Params.RegTest ∧ regTestDeposited.validators.lookup 7 ≠ none ∧
      DepositAccounting regTestDeposited :=
  ⟨by decide, by decide,
    deposit_accounting_reachable (fun _ => 0) (by decide) reachable_regTestDeposited⟩

/-- At `MAX_END_DYNASTY`, the end dynasty of every finalizer that has not logged out, no
delta is recorded, while the finalizers ending there carry their deposits. -/
theorem deposit_deltas_at_max_end_dynasty :
    Reachable (fun _ => 0) Params.RegTest regTestDeposited ∧
      regTestDeposited.currentDynasty < MAX_END_DYNASTY ∧
      (regTestDeposited.dynastyDeltas MAX_END_DYNASTY).getD 0 ≠
        depositsWhere regTestDeposited.validators (·.startDynasty == MAX_END_DYNASTY) -
          depositsWhere regTestDeposited.validators (·.endDynasty == MAX_END_DYNASTY) := by
  refine ⟨reachable_regTestDeposited, by decide, ?_⟩
  have hnew : (7 : Uint160) ∉ (∅ : ValidatorMap) := Finmap.notMem_empty
  simp only [regTestDeposited, depositsWhere_insert_of_notMem _ hnew]
  simp [depositsWhere, Validator.create, create, getD_update]
  decide

end UnitE.Esperanza.FinalizationState
