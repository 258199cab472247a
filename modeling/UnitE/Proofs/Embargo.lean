import UnitE.Lib.PrecededBy
import UnitE.Spec.EmbargoMan

/-! A child is not fluffed by the embargo timer before its parent. When the child is put under
embargo, its embargo time is at least its parent's, so in the sorted `m_embargo_to_tx` its
entry comes after the parent's (`Ahead`); entries leave only from the front, so the parent's
entry is reached first, and the parent is fluffed then unless an announcement lifted its
embargo before. The argument needs the child's entry to be its only one: an entry left behind
by an earlier embargo of the same transaction is still in `m_embargo_to_tx` after `OnTxInv`
lifts that embargo, and it fluffs a later embargo of the transaction at the old time. -/

namespace UnitE.P2P

/-- The call sends a transaction of hash `tx_hash`. -/
def EmbargoCall.sends (GetHash : CTransaction → Uint256) (tx_hash : Uint256) :
    EmbargoCall → Bool
  | .SendTransactionAndEmbargo tx _ => GetHash tx == tx_hash
  | _ => false

section Maps

variable {m : Uint256 → Option Embargo} {tx_hash h : Uint256} {e e' : Embargo}

theorem isSome_emplaceEmbargo (hm : (m h).isSome) : (emplaceEmbargo m tx_hash e h).isSome := by
  unfold emplaceEmbargo
  split
  · obtain ⟨e₀, he₀⟩ := Option.isSome_iff_exists.1 hm
    simp [he₀]
  · exact hm

theorem emplaceEmbargo_eq_some (hh : emplaceEmbargo m tx_hash e h = some e') :
    m h = some e' ∨ (h = tx_hash ∧ e' = e) := by
  unfold emplaceEmbargo at hh
  split_ifs at hh with hk
  · cases hm : m h with
    | none =>
      rw [hm, Option.none_or] at hh
      exact .inr ⟨hk, (Option.some.inj hh).symm⟩
    | some e₀ =>
      rw [hm, Option.some_or] at hh
      exact .inl hh
  · exact .inl hh

theorem eraseEmbargo_of_ne (hh : h ≠ tx_hash) : eraseEmbargo m tx_hash h = m h := by
  simp [eraseEmbargo, hh]

@[simp] theorem eraseEmbargo_self : eraseEmbargo m tx_hash tx_hash = none := by
  simp [eraseEmbargo]

theorem eraseEmbargo_eq_some (hh : eraseEmbargo m tx_hash h = some e) : m h = some e := by
  unfold eraseEmbargo at hh
  split_ifs at hh
  exact hh

end Maps

namespace EmbargoMan

section Calls

variable (GetHash : CTransaction → Uint256)

/-- What a send of `tx` from `s` can do: fail and leave the embargoes as they are, or put `tx`
under embargo through a relay, at its embargo time from `s`. -/
inductive SendsEmbargo (se : EmbargoManSideEffects) (tx : CTransaction) (s : EmbargoMan) :
    Bool × EmbargoMan → Prop
  | failed {s' : EmbargoMan} (embargoes : s'.m_embargoes = s.m_embargoes)
      (timer : s'.m_embargo_to_tx = s.m_embargo_to_tx) : SendsEmbargo se tx s (false, s')
  | embargoed {s' : EmbargoMan} (relay : NodeId)
      (embargoes : s'.m_embargoes =
        emplaceEmbargo s.m_embargoes (GetHash tx) ⟨relay, GetEmbargoTime se s tx⟩)
      (timer : s'.m_embargo_to_tx =
        Multimap.emplace (GetEmbargoTime se s tx) (GetHash tx) s.m_embargo_to_tx) :
      SendsEmbargo se tx s (true, s')

variable {se : EmbargoManSideEffects} {s : EmbargoMan} {tx : CTransaction}

theorem le_foldl_embargo_time (m : Uint256 → Option Embargo) (inputs : List CTxIn) :
    ∀ t, t ≤ inputs.foldl (fun embargo_time input =>
        match m input.prevout.hash with
        | some e => max embargo_time e.embargo_time
        | none => embargo_time) t ∧
      ∀ input ∈ inputs, ∀ e, m input.prevout.hash = some e →
        e.embargo_time ≤ inputs.foldl (fun embargo_time input =>
          match m input.prevout.hash with
          | some e => max embargo_time e.embargo_time
          | none => embargo_time) t := by
  induction inputs with
  | nil => exact fun t => ⟨le_rfl, by simp⟩
  | cons input rest ih =>
    intro t
    have hstep : t ≤ (match m input.prevout.hash with
        | some e => max t e.embargo_time
        | none => t) := by
      split
      · exact le_max_left _ _
      · exact le_rfl
    obtain ⟨hle, hparents⟩ := ih (match m input.prevout.hash with
      | some e => max t e.embargo_time
      | none => t)
    refine ⟨hstep.trans hle, fun input' hinput' e he => ?_⟩
    rcases List.mem_cons.1 hinput' with rfl | hrest
    · have : e.embargo_time ≤ (match m input'.prevout.hash with
          | some e => max t e.embargo_time
          | none => t) := by
        rw [he]
        exact le_max_right _ _
      exact this.trans hle
    · exact hparents input' hrest e he

theorem le_GetEmbargoTime {P : Uint256} {e : Embargo} (he : s.m_embargoes P = some e)
    (hparent : P ∈ tx.vin.map (·.prevout.hash)) : e.embargo_time ≤ GetEmbargoTime se s tx := by
  obtain ⟨input, hinput, rfl⟩ := List.mem_map.1 hparent
  exact (le_foldl_embargo_time s.m_embargoes tx.vin _).2 input hinput e he

theorem GetEmbargoTime_congr {s' : EmbargoMan} (h : s'.m_embargoes = s.m_embargoes) :
    GetEmbargoTime se s' tx = GetEmbargoTime se s tx := by
  simp only [GetEmbargoTime, h]

theorem GetNewRelay_embargoes {r : Option NodeId × EmbargoMan} (h : GetNewRelay se s = r) :
    r.2.m_embargoes = s.m_embargoes ∧ r.2.m_embargo_to_tx = s.m_embargo_to_tx := by
  subst h
  unfold GetNewRelay
  dsimp only
  split <;> exact ⟨rfl, rfl⟩

theorem SendsEmbargo.congr {s₁ : EmbargoMan} {r : Bool × EmbargoMan}
    (h₁ : s₁.m_embargoes = s.m_embargoes) (h₂ : s₁.m_embargo_to_tx = s.m_embargo_to_tx)
    (hr : SendsEmbargo GetHash se tx s₁ r) : SendsEmbargo GetHash se tx s r := by
  cases hr with
  | failed he ht => exact .failed (he.trans h₁) (ht.trans h₂)
  | embargoed relay he ht =>
    rw [GetEmbargoTime_congr h₁, h₁] at he
    rw [GetEmbargoTime_congr h₁, h₂] at ht
    exact .embargoed relay he ht

theorem SendToAndRemember_sendsEmbargo (relay : NodeId) :
    SendsEmbargo GetHash se tx s (SendToAndRemember GetHash se relay tx s) := by
  unfold SendToAndRemember
  dsimp only
  split
  · exact .embargoed relay rfl rfl
  · exact .failed rfl rfl

theorem SendTransactionAndEmbargo_sendsEmbargo :
    SendsEmbargo GetHash se tx s (SendTransactionAndEmbargo GetHash se tx s) := by
  unfold SendTransactionAndEmbargo
  split
  rename_i sent s₁ hfirst
  -- the first attempt, through the relay if there is one
  have h₁ : SendsEmbargo GetHash se tx s (sent, s₁) := by
    rw [← hfirst]
    split
    · exact SendToAndRemember_sendsEmbargo GetHash _
    · exact .failed rfl rfl
  cases h₁ with
  | embargoed relay he ht =>
    rw [if_pos rfl]
    exact .embargoed relay he ht
  | failed he ht =>
    -- then through a new relay, from a state with the embargoes of `s`
    rw [if_neg Bool.false_ne_true]
    rcases hnew : GetNewRelay se s₁ with ⟨_ | relay, s₂⟩
    · obtain ⟨h₂₁, h₂₂⟩ := GetNewRelay_embargoes hnew
      exact .failed (h₂₁.trans he) (h₂₂.trans ht)
    · obtain ⟨h₂₁, h₂₂⟩ := GetNewRelay_embargoes hnew
      exact (SendToAndRemember_sendsEmbargo GetHash relay).congr GetHash
        (h₂₁.trans he) (h₂₂.trans ht)

/-- What `OnTxInv` does: nothing, or it lifts the embargo of the transaction and announces
it. -/
theorem OnTxInv_cases (tx_hash : Uint256) (from_node : NodeId) :
    OnTxInv tx_hash from_node s = (s, []) ∨
      ((s.m_embargoes tx_hash).isSome ∧ OnTxInv tx_hash from_node s =
        ({ s with m_embargoes := eraseEmbargo s.m_embargoes tx_hash }, [tx_hash])) := by
  unfold OnTxInv
  split
  · exact .inl rfl
  · next e he =>
    split
    · exact .inl rfl
    · exact .inr ⟨by simp [he], rfl⟩

end Calls

section Loop

variable {due : EmbargoTime → Bool} {t : EmbargoTime} {h : Uint256}
  {rest : List (EmbargoTime × Uint256)} {s : EmbargoMan} {acc : List Uint256}

theorem fluffLoop_of_not_due (hdue : due t = false) :
    fluffLoop due ((t, h) :: rest) s acc = ({ s with m_embargo_to_tx := (t, h) :: rest }, acc) := by
  simp [fluffLoop, hdue]

theorem fluffLoop_of_none (rest : List (EmbargoTime × Uint256)) (acc : List Uint256)
    (hdue : due t = true) (he : s.m_embargoes h = none) :
    ∃ s', s'.m_embargoes = s.m_embargoes ∧
      fluffLoop due ((t, h) :: rest) s acc = fluffLoop due rest s' acc :=
  ⟨{ s with m_timeouts_in_a_row := 0 }, rfl, by simp [fluffLoop, hdue, he]⟩

theorem fluffLoop_of_some (rest : List (EmbargoTime × Uint256)) (acc : List Uint256)
    {e : Embargo} (hdue : due t = true) (he : s.m_embargoes h = some e) :
    ∃ s', s'.m_embargoes = eraseEmbargo s.m_embargoes h ∧
      fluffLoop due ((t, h) :: rest) s acc = fluffLoop due rest s' (acc ++ [h]) := by
  -- a timeout of the relay changes the count and the relay, not the embargoes
  have hcount : (if s.m_relay = some e.relay then countTimeout e.relay s else s).m_embargoes =
      s.m_embargoes := by
    unfold countTimeout
    split_ifs <;> rfl
  refine ⟨{ (if s.m_relay = some e.relay then countTimeout e.relay s else s) with
    m_embargoes := eraseEmbargo
      (if s.m_relay = some e.relay then countTimeout e.relay s else s).m_embargoes h }, ?_, ?_⟩
  · exact congrArg (eraseEmbargo · h) hcount
  · simp [fluffLoop, hdue, he]

/-- What the loop of `FluffPendingEmbargoes` does: it takes a prefix off the entries, and
every transaction of a taken entry is no longer under embargo; the others keep theirs. -/
theorem fluffLoop_spec (due : EmbargoTime → Bool) (L : List (EmbargoTime × Uint256)) :
    ∀ (s : EmbargoMan) (acc : List Uint256),
      ∃ popped, L = popped ++ (fluffLoop due L s acc).1.m_embargo_to_tx ∧
        ∀ h, (fluffLoop due L s acc).1.m_embargoes h = none ∨
          ((fluffLoop due L s acc).1.m_embargoes h = s.m_embargoes h ∧
            ∀ x ∈ popped, x.2 ≠ h) := by
  induction L with
  | nil => exact fun s acc => ⟨[], rfl, fun h => .inr ⟨rfl, by simp⟩⟩
  | cons entry rest ih =>
    obtain ⟨t, tx_hash⟩ := entry
    intro s acc
    cases hdue : due t with
    | false =>
      rw [fluffLoop_of_not_due hdue]
      exact ⟨[], rfl, fun h => .inr ⟨rfl, by simp⟩⟩
    | true =>
      cases he : s.m_embargoes tx_hash with
      | none =>
        obtain ⟨s', hs', heq⟩ := fluffLoop_of_none rest acc hdue he
        obtain ⟨popped, hL, hh⟩ := ih s' acc
        rw [heq]
        refine ⟨(t, tx_hash) :: popped, by rw [List.cons_append, ← hL], fun h => ?_⟩
        rcases hh h with hnone | ⟨hsame, hpopped⟩
        · exact .inl hnone
        · rw [hsame, hs']
          by_cases hh' : tx_hash = h
          · subst hh'
            exact .inl he
          · exact .inr ⟨rfl, List.forall_mem_cons.2 ⟨hh', hpopped⟩⟩
      | some e =>
        obtain ⟨s', hs', heq⟩ := fluffLoop_of_some rest acc hdue he
        obtain ⟨popped, hL, hh⟩ := ih s' (acc ++ [tx_hash])
        rw [heq]
        refine ⟨(t, tx_hash) :: popped, by rw [List.cons_append, ← hL], fun h => ?_⟩
        rcases hh h with hnone | ⟨hsame, hpopped⟩
        · exact .inl hnone
        · rw [hsame, hs']
          by_cases hh' : tx_hash = h
          · subst hh'
            exact .inl eraseEmbargo_self
          · exact .inr ⟨eraseEmbargo_of_ne (Ne.symm hh'), List.forall_mem_cons.2 ⟨hh', hpopped⟩⟩

theorem fluffLoop_mem_out (due : EmbargoTime → Bool) (L : List (EmbargoTime × Uint256)) :
    ∀ (s : EmbargoMan) (acc : List Uint256), ∀ h ∈ (fluffLoop due L s acc).2,
      h ∈ acc ∨ ∃ t, (t, h) ∈ L := by
  induction L with
  | nil => exact fun s acc h hh => .inl hh
  | cons entry rest ih =>
    obtain ⟨t, tx_hash⟩ := entry
    intro s acc h hh
    cases hdue : due t with
    | false =>
      rw [fluffLoop_of_not_due hdue] at hh
      exact .inl hh
    | true =>
      cases he : s.m_embargoes tx_hash with
      | none =>
        obtain ⟨s', -, heq⟩ := fluffLoop_of_none rest acc hdue he
        rw [heq] at hh
        rcases ih s' acc h hh with hacc | ⟨t', ht'⟩
        · exact .inl hacc
        · exact .inr ⟨t', List.mem_cons_of_mem _ ht'⟩
      | some e =>
        obtain ⟨s', -, heq⟩ := fluffLoop_of_some rest acc hdue he
        rw [heq] at hh
        rcases ih s' (acc ++ [tx_hash]) h hh with hacc | ⟨t', ht'⟩
        · rcases List.mem_append.1 hacc with hacc | hnew
          · exact .inl hacc
          · rw [List.mem_singleton.1 hnew]
            exact .inr ⟨t, List.mem_cons_self⟩
        · exact .inr ⟨t', List.mem_cons_of_mem _ ht'⟩

end Loop

section Run

variable (GetHash : CTransaction → Uint256) {s : EmbargoMan}

@[simp] theorem step_SendTransactionAndEmbargo (tx : CTransaction) (se : EmbargoManSideEffects) :
    step GetHash s (.SendTransactionAndEmbargo tx se) =
      ((SendTransactionAndEmbargo GetHash se tx s).2, []) := rfl

@[simp] theorem step_OnTxInv (tx_hash : Uint256) (from_node : NodeId) :
    step GetHash s (.OnTxInv tx_hash from_node) =
      ((OnTxInv tx_hash from_node s).1, (OnTxInv tx_hash from_node s).2.map fun h => ⟨h, .inv⟩) :=
  rfl

@[simp] theorem step_FluffPendingEmbargoes (due : EmbargoTime → Bool) :
    step GetHash s (.FluffPendingEmbargoes due) =
      ((fluffLoop due s.m_embargo_to_tx s []).1,
        (fluffLoop due s.m_embargo_to_tx s []).2.map fun h => ⟨h, .timer⟩) := rfl

@[simp] theorem run_cons (call : EmbargoCall) (calls : List EmbargoCall) :
    run GetHash s (call :: calls) =
      ((run GetHash (step GetHash s call).1 calls).1,
        (step GetHash s call).2 ++ (run GetHash (step GetHash s call).1 calls).2) := rfl

theorem run_append (calls₁ calls₂ : List EmbargoCall) :
    ∀ s, run GetHash s (calls₁ ++ calls₂) =
      ((run GetHash (run GetHash s calls₁).1 calls₂).1,
        (run GetHash s calls₁).2 ++ (run GetHash (run GetHash s calls₁).1 calls₂).2) := by
  induction calls₁ with
  | nil => exact fun s => rfl
  | cons call calls ih =>
    intro s
    simp only [List.cons_append, run_cons, ih, List.append_assoc]

end Run

section Wf

variable (GetHash : CTransaction → Uint256) {se : EmbargoManSideEffects} {s : EmbargoMan}
  {tx : CTransaction}

/-- The timer is sorted, and it has an entry at its embargo time for every transaction under
embargo. -/
structure Wf (s : EmbargoMan) : Prop where
  sorted : Multimap.Sorted s.m_embargo_to_tx
  timed : ∀ h e, s.m_embargoes h = some e → (e.embargo_time, h) ∈ s.m_embargo_to_tx

theorem wf_create (n : Nat) : Wf (create n) where
  sorted := List.Pairwise.nil
  timed _ _ h := by simp [create] at h

theorem Wf.sendsEmbargo (hs : Wf s) {r : Bool × EmbargoMan}
    (hr : SendsEmbargo GetHash se tx s r) : Wf r.2 := by
  cases hr with
  | failed he ht =>
    refine ⟨ht ▸ hs.sorted, fun h e hh => ?_⟩
    rw [ht]
    exact hs.timed h e (he ▸ hh)
  | embargoed relay he ht =>
    refine ⟨by rw [ht]; exact hs.sorted.emplace, fun h e hh => ?_⟩
    rw [ht, Multimap.mem_emplace]
    rw [he] at hh
    rcases emplaceEmbargo_eq_some hh with hold | ⟨rfl, rfl⟩
    · exact .inr (hs.timed h e hold)
    · exact .inl rfl

theorem Wf.onTxInv (hs : Wf s) (tx_hash : Uint256) (from_node : NodeId) :
    Wf (OnTxInv tx_hash from_node s).1 := by
  rcases OnTxInv_cases (s := s) tx_hash from_node with h | ⟨-, h⟩ <;> rw [h]
  · exact hs
  · exact ⟨hs.sorted, fun h' e hh => hs.timed h' e (eraseEmbargo_eq_some hh)⟩

/-- The loop keeps the invariant for the entries it walks: what it leaves is a suffix, and a
transaction that keeps its embargo had no entry in the prefix it took. -/
theorem wf_fluffLoop (due : EmbargoTime → Bool) {L : List (EmbargoTime × Uint256)}
    (hsorted : Multimap.Sorted L)
    (htimed : ∀ h e, s.m_embargoes h = some e → (e.embargo_time, h) ∈ L) (acc : List Uint256) :
    Wf (fluffLoop due L s acc).1 := by
  obtain ⟨popped, hL, hh⟩ := fluffLoop_spec due L s acc
  refine ⟨?_, fun h e he => ?_⟩
  · rw [hL] at hsorted
    exact List.Pairwise.sublist (List.sublist_append_right _ _) hsorted
  · rcases hh h with hnone | ⟨heq, hpopped⟩
    · rw [hnone] at he
      cases he
    · have hmem := htimed h e (heq ▸ he)
      rw [hL] at hmem
      rcases List.mem_append.1 hmem with hp | hf
      · exact absurd rfl (hpopped _ hp)
      · exact hf

theorem wf_step (hs : Wf s) (call : EmbargoCall) : Wf (step GetHash s call).1 := by
  cases call with
  | SendTransactionAndEmbargo tx se =>
    exact hs.sendsEmbargo GetHash (SendTransactionAndEmbargo_sendsEmbargo GetHash)
  | OnTxInv tx_hash from_node => exact hs.onTxInv tx_hash from_node
  | FluffPendingEmbargoes due => exact wf_fluffLoop due hs.sorted hs.timed []

theorem wf_run (calls : List EmbargoCall) : ∀ s, Wf s → Wf (run GetHash s calls).1 := by
  induction calls with
  | nil => exact fun s hs => hs
  | cons call calls ih =>
    intro s hs
    rw [run_cons]
    exact ih _ (wf_step GetHash hs call)

end Wf

section Order

/-- The timer entries of the transaction `tx_hash`. -/
def entriesOf (tx_hash : Uint256) (L : List (EmbargoTime × Uint256)) :
    List (EmbargoTime × Uint256) :=
  L.filter (·.2 == tx_hash)

/-- The transaction `P` is under embargo in `m` and has an entry in the timer `L` before the
entry `(t_C, C)`. -/
structure Ahead (P C : Uint256) (t_C : EmbargoTime) (m : Uint256 → Option Embargo)
    (L : List (EmbargoTime × Uint256)) : Prop where
  embargoed : (m P).isSome
  before : ∃ t_P, [(t_P, P), (t_C, C)].Sublist L

theorem mem_of_pair_sublist_cons {α : Type*} {x y a : α} {l : List α}
    (h : [x, y].Sublist (a :: l)) : y ∈ l := by
  rcases List.sublist_cons_iff.1 h with h | ⟨r, hr, hl⟩
  · exact h.subset (by simp)
  · rw [← (List.cons.inj hr).2] at hl
    exact List.singleton_sublist.1 hl

theorem not_two_entries {C : Uint256} {L : List (EmbargoTime × Uint256)}
    {x y z : EmbargoTime × Uint256} (hC : (entriesOf C L).Sublist [x]) (h : [y, z].Sublist L)
    (hy : y.2 = C) (hz : z.2 = C) : False := by
  unfold entriesOf at hC
  have hlen := ((h.filter _).trans hC).length_le
  simp [hy, hz] at hlen

variable (GetHash : CTransaction → Uint256) {se : EmbargoManSideEffects} {s : EmbargoMan}
  {tx : CTransaction} {P C : Uint256} {t_C : EmbargoTime}

theorem entriesOf_fluffLoop_sublist (due : EmbargoTime → Bool) (L : List (EmbargoTime × Uint256))
    (acc : List Uint256) :
    (entriesOf C (fluffLoop due L s acc).1.m_embargo_to_tx).Sublist (entriesOf C L) := by
  obtain ⟨popped, hL, -⟩ := fluffLoop_spec due L s acc
  have h := (List.sublist_append_right popped (fluffLoop due L s acc).1.m_embargo_to_tx).filter
    (·.2 == C)
  rw [← hL] at h
  exact h

theorem entriesOf_sendsEmbargo {r : Bool × EmbargoMan} (hr : SendsEmbargo GetHash se tx s r)
    (hC : GetHash tx ≠ C) : entriesOf C r.2.m_embargo_to_tx = entriesOf C s.m_embargo_to_tx := by
  cases hr with
  | failed _ ht => rw [ht]
  | embargoed _ _ ht =>
    rw [ht, entriesOf, entriesOf, Multimap.filter_emplace_of_false (by simpa using hC)]

theorem entriesOf_step_sublist (call : EmbargoCall) (hcall : call.sends GetHash C = false) :
    (entriesOf C (step GetHash s call).1.m_embargo_to_tx).Sublist
      (entriesOf C s.m_embargo_to_tx) := by
  cases call with
  | SendTransactionAndEmbargo tx se =>
    have hC : GetHash tx ≠ C := by simpa [EmbargoCall.sends] using hcall
    rw [step_SendTransactionAndEmbargo,
      entriesOf_sendsEmbargo GetHash (SendTransactionAndEmbargo_sendsEmbargo GetHash) hC]
  | OnTxInv tx_hash from_node =>
    rcases OnTxInv_cases (s := s) tx_hash from_node with h | ⟨-, h⟩ <;>
      rw [step_OnTxInv, h]
  | FluffPendingEmbargoes due => exact entriesOf_fluffLoop_sublist due _ []

theorem entriesOf_run_sublist (calls : List EmbargoCall)
    (hcalls : ∀ call ∈ calls, call.sends GetHash C = false) :
    ∀ s, (entriesOf C (run GetHash s calls).1.m_embargo_to_tx).Sublist
      (entriesOf C s.m_embargo_to_tx) := by
  induction calls with
  | nil => exact fun s => List.Sublist.refl _
  | cons call calls ih =>
    intro s
    rw [run_cons]
    exact (ih (fun c hc => hcalls c (List.mem_cons_of_mem _ hc)) _).trans
      (entriesOf_step_sublist GetHash call (hcalls call List.mem_cons_self))

theorem step_ne_timer (hC : entriesOf C s.m_embargo_to_tx = []) (call : EmbargoCall) :
    ∀ a ∈ (step GetHash s call).2, a ≠ ⟨C, .timer⟩ := by
  cases call with
  | SendTransactionAndEmbargo tx se => simp
  | OnTxInv tx_hash from_node =>
    rcases OnTxInv_cases (s := s) tx_hash from_node with h | ⟨-, h⟩ <;> simp [h]
  | FluffPendingEmbargoes due =>
    intro a ha hCa
    obtain ⟨h, hh, rfl⟩ := List.mem_map.1 ha
    rcases fluffLoop_mem_out due _ s [] h hh with hnil | ⟨t, ht⟩
    · cases hnil
    · have hhC : h = C := congrArg Announcement.tx_hash hCa
      have hmem : (t, h) ∈ entriesOf C s.m_embargo_to_tx := List.mem_filter.2 ⟨ht, by simp [hhC]⟩
      rw [hC] at hmem
      cases hmem

theorem run_ne_timer (calls : List EmbargoCall)
    (hcalls : ∀ call ∈ calls, call.sends GetHash C = false) :
    ∀ s, entriesOf C s.m_embargo_to_tx = [] → ∀ a ∈ (run GetHash s calls).2, a ≠ ⟨C, .timer⟩ := by
  induction calls with
  | nil => exact fun _ _ a ha => by cases ha
  | cons call calls ih =>
    intro s hC a ha
    have hcall := hcalls call List.mem_cons_self
    rw [run_cons] at ha
    rcases List.mem_append.1 ha with ha | ha
    · exact step_ne_timer GetHash hC call a ha
    · refine ih (fun c hc => hcalls c (List.mem_cons_of_mem _ hc)) _ ?_ a ha
      exact List.sublist_nil.1 (hC ▸ entriesOf_step_sublist GetHash call hcall)

/-- The loop over a timer in which `C`'s only entry comes after an entry of `P`: `C` is queued
only after `P`. -/
theorem fluffLoop_precededBy (due : EmbargoTime → Bool) (L : List (EmbargoTime × Uint256)) :
    ∀ (s : EmbargoMan) (acc : List Uint256), (entriesOf C L).Sublist [(t_C, C)] →
      acc.PrecededBy (· = P) (· = C) → P ∈ acc ∨ Ahead P C t_C s.m_embargoes L →
      (fluffLoop due L s acc).2.PrecededBy (· = P) (· = C) ∧
        (P ∈ (fluffLoop due L s acc).2 ∨
          Ahead P C t_C (fluffLoop due L s acc).1.m_embargoes
            (fluffLoop due L s acc).1.m_embargo_to_tx) := by
  induction L with
  | nil => exact fun s acc _ hacc hP => ⟨hacc, hP⟩
  | cons entry rest ih =>
    obtain ⟨t, h⟩ := entry
    intro s acc hC hacc hP
    have hC' : (entriesOf C rest).Sublist [(t_C, C)] :=
      ((List.sublist_cons_self _ rest).filter _).trans hC
    cases hdue : due t with
    | false =>
      rw [fluffLoop_of_not_due hdue]
      exact ⟨hacc, hP⟩
    | true =>
      cases he : s.m_embargoes h with
      | none =>
        obtain ⟨s', hs', heq⟩ := fluffLoop_of_none rest acc hdue he
        rw [heq]
        refine ih s' acc hC' hacc ?_
        rcases hP with hP | ⟨hsome, t_P, hsub⟩
        · exact .inl hP
        -- the entry passed over is not `P`'s, which is still under embargo
        refine .inr ⟨by rw [hs']; exact hsome, t_P, ?_⟩
        rcases List.sublist_cons_iff.1 hsub with hsub | ⟨r, hr, -⟩
        · exact hsub
        · have hPh : P = h := (Prod.mk.inj (List.cons.inj hr).1).2
          simp [hPh, he] at hsome
      | some e =>
        obtain ⟨s', hs', heq⟩ := fluffLoop_of_some rest acc hdue he
        rw [heq]
        refine ih s' (acc ++ [h]) hC' (hacc.append ?_) ?_
        · -- queueing `C` needs `P` queued before: `C`'s only entry is after `P`'s
          by_cases hhC : h = C
          · rcases hP with hP | ⟨-, t_P, hsub⟩
            · exact .inl ⟨P, hP, rfl⟩
            · exact (not_two_entries hC (List.cons_sublist_cons.2
                (List.singleton_sublist.2 (mem_of_pair_sublist_cons hsub))) hhC rfl).elim
          · exact .inr (List.PrecededBy.of_forall_not (by simpa using hhC))
        · by_cases hhP : h = P
          · exact .inl (List.mem_append_right _ (List.mem_singleton.2 hhP.symm))
          rcases hP with hP | ⟨hsome, t_P, hsub⟩
          · exact .inl (List.mem_append_left _ hP)
          refine .inr ⟨?_, t_P, ?_⟩
          · rw [hs', eraseEmbargo_of_ne (Ne.symm hhP)]
            exact hsome
          · rcases List.sublist_cons_iff.1 hsub with hsub | ⟨r, hr, -⟩
            · exact hsub
            · exact absurd (Prod.mk.inj (List.cons.inj hr).1).2.symm hhP

/-- Sending another transaction keeps `P` ahead: its embargo stays, and entries are only
added. -/
theorem Ahead.sendsEmbargo {r : Bool × EmbargoMan}
    (hP : Ahead P C t_C s.m_embargoes s.m_embargo_to_tx) (hr : SendsEmbargo GetHash se tx s r) :
    Ahead P C t_C r.2.m_embargoes r.2.m_embargo_to_tx := by
  obtain ⟨hsome, t_P, hsub⟩ := hP
  cases hr with
  | failed he ht =>
    rw [he, ht]
    exact ⟨hsome, t_P, hsub⟩
  | embargoed relay he ht =>
    rw [he, ht]
    exact ⟨isSome_emplaceEmbargo hsome, t_P, hsub.trans (Multimap.sublist_emplace _ _ _)⟩

/-- One call that does not send `C`, from a state where `P` is ahead of `C`'s only entry: it
fluffs `C` by the timer only after it announced `P`, and either it announced `P` or `P` is still
ahead. -/
theorem step_precededBy (call : EmbargoCall) (hcall : call.sends GetHash C = false)
    (hC : (entriesOf C s.m_embargo_to_tx).Sublist [(t_C, C)])
    (hP : Ahead P C t_C s.m_embargoes s.m_embargo_to_tx) :
    (step GetHash s call).2.PrecededBy (·.tx_hash = P) (· = ⟨C, .timer⟩) ∧
      ((∃ a ∈ (step GetHash s call).2, a.tx_hash = P) ∨
        Ahead P C t_C (step GetHash s call).1.m_embargoes
          (step GetHash s call).1.m_embargo_to_tx) := by
  cases call with
  | SendTransactionAndEmbargo tx se =>
    rw [step_SendTransactionAndEmbargo]
    exact ⟨List.PrecededBy.nil,
      .inr (hP.sendsEmbargo GetHash (SendTransactionAndEmbargo_sendsEmbargo GetHash))⟩
  | OnTxInv tx_hash from_node =>
    rw [step_OnTxInv]
    rcases OnTxInv_cases (s := s) tx_hash from_node with h | ⟨-, h⟩ <;> rw [h]
    · exact ⟨List.PrecededBy.nil, .inr hP⟩
    · -- an announcement on an inv, never a fluff by the timer
      refine ⟨List.PrecededBy.of_forall_not (by simp), ?_⟩
      by_cases hP' : tx_hash = P
      · exact .inl ⟨⟨tx_hash, .inv⟩, by simp, hP'⟩
      · refine .inr ⟨?_, hP.before⟩
        dsimp only
        rw [eraseEmbargo_of_ne (Ne.symm hP')]
        exact hP.embargoed
  | FluffPendingEmbargoes due =>
    rw [step_FluffPendingEmbargoes]
    obtain ⟨hpre, hnext⟩ :=
      fluffLoop_precededBy due s.m_embargo_to_tx s [] hC List.PrecededBy.nil (.inr hP)
    refine ⟨hpre.map _ (fun x hx => congrArg Announcement.tx_hash hx) (fun y hy => hy), ?_⟩
    rcases hnext with hmem | hahead
    · exact .inl ⟨⟨P, .timer⟩, List.mem_map_of_mem hmem, rfl⟩
    · exact .inr hahead

theorem run_precededBy (calls : List EmbargoCall)
    (hcalls : ∀ call ∈ calls, call.sends GetHash C = false) :
    ∀ s, Wf s → (entriesOf C s.m_embargo_to_tx).Sublist [(t_C, C)] →
      Ahead P C t_C s.m_embargoes s.m_embargo_to_tx →
      (run GetHash s calls).2.PrecededBy (·.tx_hash = P) (· = ⟨C, .timer⟩) := by
  induction calls with
  | nil => exact fun _ _ _ _ => List.PrecededBy.nil
  | cons call calls ih =>
    intro s hs hC hP
    have hcall := hcalls call List.mem_cons_self
    obtain ⟨hout, hnext⟩ := step_precededBy GetHash call hcall hC hP
    rw [run_cons]
    refine hout.append ?_
    rcases hnext with hmem | hahead
    · exact .inl hmem
    · exact .inr (ih (fun c hc => hcalls c (List.mem_cons_of_mem _ hc)) _
        (wf_step GetHash hs call) ((entriesOf_step_sublist GetHash call hcall).trans hC) hahead)

/-- The send that puts `tx` under embargo puts its only entry after the entry of a parent under
embargo. -/
theorem SendsEmbargo.ahead {r : Bool × EmbargoMan} (hr : SendsEmbargo GetHash se tx s r)
    (hsent : r.1 = true) (hs : Wf s) (hC : entriesOf (GetHash tx) s.m_embargo_to_tx = [])
    (hparent : P ∈ tx.vin.map (·.prevout.hash)) (hP : (s.m_embargoes P).isSome) :
    (entriesOf (GetHash tx) r.2.m_embargo_to_tx).Sublist [(GetEmbargoTime se s tx, GetHash tx)] ∧
      Ahead P (GetHash tx) (GetEmbargoTime se s tx) r.2.m_embargoes r.2.m_embargo_to_tx := by
  cases hr with
  | failed => cases hsent
  | embargoed relay he ht =>
    obtain ⟨e, heP⟩ := Option.isSome_iff_exists.1 hP
    refine ⟨?_, ⟨?_, e.embargo_time, ?_⟩⟩
    · rw [ht, entriesOf, Multimap.filter_emplace_of_true (by simp) hC]
    · rw [he]
      exact isSome_emplaceEmbargo hP
    · rw [ht]
      exact Multimap.pair_sublist_emplace hs.sorted (hs.timed P e heP) (le_GetEmbargoTime heP hparent)

def inputCountHash (tx : CTransaction) : Uint256 := BitVec.ofNat 256 tx.vin.length

def parentTx : CTransaction := ⟨.REGULAR, [], []⟩

def childTx : CTransaction := ⟨.REGULAR, [⟨⟨0, 0⟩, []⟩], []⟩

/-- Side effects with next embargo time `t` and one outbound peer, which takes every
transaction. -/
def sideEffectsAt (t : EmbargoTime) : EmbargoManSideEffects :=
  ⟨t, fun _ => false, [7], fun _ => 0, fun _ h => h, fun _ _ => true⟩

/-- In a run from a new `EmbargoMan` in which `tx` is sent once, if that send puts `tx` under
embargo while a parent `P` is under embargo, every fluff of `tx` by the timer comes after an
announcement of `P`. -/
theorem parent_announced_before_timer_fluff (GetHash : CTransaction → Uint256) (n : Nat)
    (calls₁ calls₂ : List EmbargoCall) (tx : CTransaction) (se : EmbargoManSideEffects)
    (P : Uint256) (hparent : P ∈ tx.vin.map (·.prevout.hash))
    (honce : ∀ call ∈ calls₁ ++ calls₂, call.sends GetHash (GetHash tx) = false)
    (hP : ((run GetHash (create n) calls₁).1.m_embargoes P).isSome)
    (hsent : (SendTransactionAndEmbargo GetHash se tx (run GetHash (create n) calls₁).1).1 = true) :
    (run GetHash (create n) (calls₁ ++ .SendTransactionAndEmbargo tx se :: calls₂)).2.PrecededBy
      (·.tx_hash = P) (· = ⟨GetHash tx, .timer⟩) := by
  have hcalls₁ : ∀ call ∈ calls₁, call.sends GetHash (GetHash tx) = false :=
    fun call hcall => honce call (List.mem_append_left _ hcall)
  have hcalls₂ : ∀ call ∈ calls₂, call.sends GetHash (GetHash tx) = false :=
    fun call hcall => honce call (List.mem_append_right _ hcall)
  -- before the send `tx` has no entry, so the timer never fluffs it
  have hwf : Wf (run GetHash (create n) calls₁).1 := wf_run GetHash calls₁ _ (wf_create n)
  have hC : entriesOf (GetHash tx) (run GetHash (create n) calls₁).1.m_embargo_to_tx = [] :=
    List.sublist_nil.1 (entriesOf_run_sublist GetHash calls₁ hcalls₁ (create n))
  have hsend : SendsEmbargo GetHash se tx (run GetHash (create n) calls₁).1
      (SendTransactionAndEmbargo GetHash se tx (run GetHash (create n) calls₁).1) :=
    SendTransactionAndEmbargo_sendsEmbargo GetHash
  obtain ⟨hC', hahead⟩ := hsend.ahead GetHash hsent hwf hC hparent hP
  rw [run_append, run_cons, step_SendTransactionAndEmbargo, List.nil_append]
  refine List.PrecededBy.append (List.PrecededBy.of_forall_not ?_) (.inr ?_)
  · exact run_ne_timer GetHash calls₁ hcalls₁ (create n) rfl
  · exact run_precededBy GetHash calls₂ hcalls₂ _ (hwf.sendsEmbargo GetHash hsend) hC' hahead

theorem parent_announced_before_timer_fluff_childTx :
    inputCountHash parentTx ∈ childTx.vin.map (·.prevout.hash) ∧
      (∀ call ∈ [EmbargoCall.SendTransactionAndEmbargo parentTx (sideEffectsAt 20)] ++
          [EmbargoCall.FluffPendingEmbargoes fun t => decide (t ≤ 30)],
        call.sends inputCountHash (inputCountHash childTx) = false) ∧
      ((run inputCountHash (create 2)
        [.SendTransactionAndEmbargo parentTx (sideEffectsAt 20)]).1.m_embargoes
          (inputCountHash parentTx)).isSome ∧
      (SendTransactionAndEmbargo inputCountHash (sideEffectsAt 5) childTx
        (run inputCountHash (create 2)
          [.SendTransactionAndEmbargo parentTx (sideEffectsAt 20)]).1).1 = true ∧
      (run inputCountHash (create 2)
        ([.SendTransactionAndEmbargo parentTx (sideEffectsAt 20)] ++
          .SendTransactionAndEmbargo childTx (sideEffectsAt 5) ::
            [.FluffPendingEmbargoes fun t => decide (t ≤ 30)])).2.PrecededBy
        (·.tx_hash = inputCountHash parentTx) (· = ⟨inputCountHash childTx, .timer⟩) :=
  ⟨by decide, by decide, by decide, by decide,
    parent_announced_before_timer_fluff inputCountHash 2 _ _ childTx (sideEffectsAt 5) _
      (by decide) (by decide) (by decide) (by decide)⟩

def childSentBefore : List EmbargoCall :=
  [.SendTransactionAndEmbargo childTx (sideEffectsAt 10), .OnTxInv (inputCountHash childTx) 8,
    .SendTransactionAndEmbargo parentTx (sideEffectsAt 20)]

/-- Sent again while its parent is under embargo, the child gets the parent's embargo time 20,
but the entry of its first embargo, at time 10, is still in the timer: the timer fluffs the
child at time 15, and the parent is never announced. -/
theorem resent_child_fluffed_before_parent :
    inputCountHash parentTx ∈ childTx.vin.map (·.prevout.hash) ∧
      ((run inputCountHash (create 2) childSentBefore).1.m_embargoes
        (inputCountHash parentTx)).isSome ∧
      (SendTransactionAndEmbargo inputCountHash (sideEffectsAt 5) childTx
        (run inputCountHash (create 2) childSentBefore).1).1 = true ∧
      (run inputCountHash (create 2) (childSentBefore ++
        [.SendTransactionAndEmbargo childTx (sideEffectsAt 5),
          .FluffPendingEmbargoes fun t => decide (t ≤ 15)])).2 =
        [⟨inputCountHash childTx, .inv⟩, ⟨inputCountHash childTx, .timer⟩] := by
  decide

end Order

end EmbargoMan

end UnitE.P2P
