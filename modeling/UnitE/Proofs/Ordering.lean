import UnitE.Lib.Except
import UnitE.Proofs.Graphene

/-! The canonical order of a block's transactions (LTOR): the coinbase first, then the others
in increasing order of their ids. `ltor::SortTransactions` puts a block in that order, in the
block assembler and when graphene rebuilds a block; the loop of `CheckBlockInternal` checks it,
comparing each transaction with the one before it only. Over transactions with distinct ids
the two agree: the check accepts exactly the blocks that sorting leaves as they are, and so
every block that sorting produces. -/

namespace UnitE

variable (H : BlockHashes)

section Check

def IdsIncrease (txs : List CTransaction) : Prop :=
  txs.Pairwise fun a b => (H.GetHash a).toNat < (H.GetHash b).toNat

variable {H}

theorem idsIncrease_cons_cons_iff {prev tx : CTransaction} {rest : List CTransaction}
    (hlt : (H.GetHash prev).toNat < (H.GetHash tx).toNat) :
    IdsIncrease H (prev :: tx :: rest) ↔ IdsIncrease H (tx :: rest) := by
  constructor
  · exact List.Pairwise.of_cons
  · intro h
    refine List.Pairwise.cons (fun y hy => ?_) h
    rcases List.mem_cons.1 hy with rfl | hy
    · exact hlt
    · exact Nat.lt_trans hlt (List.rel_of_pairwise_cons h hy)

/-- After a transaction that is not a coinbase, the loop accepts exactly the transactions that
are no coinbase and whose ids increase from that transaction's on. -/
theorem checkTransactionOrdering_eq_ok_iff {prev_tx : CTransaction} (hprev : prev_tx.IsCoinBase = false)
    (rest : List CTransaction) :
    checkTransactionOrdering H prev_tx rest = .ok () ↔
      (∀ tx ∈ rest, tx.IsCoinBase = false) ∧ IdsIncrease H (prev_tx :: rest) := by
  induction rest generalizing prev_tx with
  | nil => simp [checkTransactionOrdering, IdsIncrease]
  | cons tx rest ih =>
    by_cases hcb : tx.IsCoinBase = true
    · simp [checkTransactionOrdering, hcb]
    have hcb' : tx.IsCoinBase = false := by simpa using hcb
    -- each step compares the ids of two neighbours only
    rcases Nat.lt_trichotomy (H.GetHash tx).toNat (H.GetHash prev_tx).toNat with hlt | heq | hgt
    · have hnot : ¬IdsIncrease H (prev_tx :: tx :: rest) :=
        fun h => Nat.lt_asymm hlt (List.rel_of_pairwise_cons h List.mem_cons_self)
      simp [checkTransactionOrdering, hcb, hprev, hlt, hnot]
    · have hnot : ¬IdsIncrease H (prev_tx :: tx :: rest) :=
        fun h => Nat.lt_irrefl _ (heq ▸ List.rel_of_pairwise_cons h List.mem_cons_self)
      have hid : H.GetHash tx = H.GetHash prev_tx := BitVec.eq_of_toNat_eq heq
      simp [checkTransactionOrdering, hcb, hid, hnot]
    · have hne : H.GetHash tx ≠ H.GetHash prev_tx := fun h => Nat.lt_irrefl _ (h ▸ hgt)
      rw [checkTransactionOrdering, if_neg hcb, if_neg (fun h => Nat.lt_asymm hgt h.1),
        if_neg hne, ih hcb', idsIncrease_cons_cons_iff hgt]
      simp [hcb']

/-- After the coinbase, the loop accepts exactly the transactions that are no coinbase, whose
ids increase, and the first of which has an id other than the coinbase's. -/
theorem checkTransactionOrdering_coinbase_eq_ok_iff {coinbase : CTransaction}
    (hcoinbase : coinbase.IsCoinBase = true) (rest : List CTransaction) :
    checkTransactionOrdering H coinbase rest = .ok () ↔
      (∀ tx ∈ rest, tx.IsCoinBase = false) ∧ IdsIncrease H rest ∧
        ∀ tx ∈ rest.head?, H.GetHash tx ≠ H.GetHash coinbase := by
  cases rest with
  | nil => simp [checkTransactionOrdering, IdsIncrease]
  | cons tx rest =>
    by_cases hcb : tx.IsCoinBase = true
    · simp [checkTransactionOrdering, hcb]
    have hcb' : tx.IsCoinBase = false := by simpa using hcb
    -- the first transaction is compared with the coinbase for equality only
    by_cases hid : H.GetHash tx = H.GetHash coinbase
    · simp [checkTransactionOrdering, hcb, hcoinbase, hid]
    · rw [checkTransactionOrdering, if_neg hcb, if_neg (by simp [hcoinbase]), if_neg hid,
        checkTransactionOrdering_eq_ok_iff hcb']
      simp [hcb', hid]

end Check

section Sorting

variable {H}

theorem idsIncrease_iff_pairwise_le {txs : List CTransaction} (hnodup : (txs.map H.GetHash).Nodup) :
    IdsIncrease H txs ↔ txs.Pairwise fun a b => (H.GetHash a).toNat ≤ (H.GetHash b).toNat := by
  constructor
  · exact fun h => h.imp Nat.le_of_lt
  · intro h
    have hne : txs.Pairwise fun a b => H.GetHash a ≠ H.GetHash b := List.pairwise_map.1 hnodup
    exact (h.and hne).imp fun hab => Nat.lt_of_le_of_ne hab.1 fun heq => hab.2 (BitVec.eq_of_toNat_eq heq)

theorem pairwise_mergeSort_ids (txs : List CTransaction) :
    (txs.mergeSort fun a b => decide ((H.GetHash a).toNat ≤ (H.GetHash b).toNat)).Pairwise
      fun a b => (H.GetHash a).toNat ≤ (H.GetHash b).toNat := by
  simpa using @List.pairwise_mergeSort _ (fun a b => decide ((H.GetHash a).toNat ≤ (H.GetHash b).toNat))
    (fun a b c hab hbc => by simp only [decide_eq_true_eq] at *; omega)
    (fun a b => by simp only [Bool.or_eq_true, decide_eq_true_eq]; omega) txs

/-- `SortTransactions` leaves a block as it is exactly when the transactions after the first are
in the order of their ids. -/
theorem SortTransactions_eq_self_iff (first : CTransaction) (rest : List CTransaction) :
    ltor.SortTransactions H (first :: rest) = first :: rest ↔
      rest.Pairwise fun a b => (H.GetHash a).toNat ≤ (H.GetHash b).toNat := by
  rw [ltor.SortTransactions]
  split_ifs with hlen
  · -- two transactions or fewer are not sorted, and are in order anyway
    rcases rest with _ | ⟨x, _ | ⟨y, rest⟩⟩
    · simp
    · simp
    · simp at hlen
  · rw [List.cons.injEq]
    constructor
    · rintro ⟨-, hsort⟩
      rw [← hsort]
      exact pairwise_mergeSort_ids rest
    · intro h
      exact ⟨rfl, List.mergeSort_of_pairwise (by simpa using h)⟩

/-- Over a coinbase and other transactions with distinct ids, the validator's ordering loop
accepts the block exactly when `SortTransactions` leaves it as it is. -/
theorem checkTransactionOrdering_iff_SortTransactions {coinbase : CTransaction}
    {rest : List CTransaction} (hcoinbase : coinbase.IsCoinBase = true)
    (hrest : ∀ tx ∈ rest, tx.IsCoinBase = false) (hnodup : ((coinbase :: rest).map H.GetHash).Nodup) :
    checkTransactionOrdering H coinbase rest = .ok () ↔
      ltor.SortTransactions H (coinbase :: rest) = coinbase :: rest := by
  rw [List.map_cons, List.nodup_cons] at hnodup
  have hhead : ∀ tx ∈ rest.head?, H.GetHash tx ≠ H.GetHash coinbase := by
    intro tx htx heq
    exact hnodup.1 (heq ▸ List.mem_map_of_mem (List.mem_of_mem_head? htx))
  rw [checkTransactionOrdering_coinbase_eq_ok_iff hcoinbase, SortTransactions_eq_self_iff,
    ← idsIncrease_iff_pairwise_le hnodup.2]
  exact ⟨fun h => h.2.1, fun h => ⟨hrest, h, hhead⟩⟩

theorem checkTransactionOrdering_iff_SortTransactions_threeTx :
    (checkTransactionOrdering outputCountHashes coinbaseTx [oneOutputTx, twoOutputTx] = .ok () ↔
      ltor.SortTransactions outputCountHashes [coinbaseTx, oneOutputTx, twoOutputTx] =
        [coinbaseTx, oneOutputTx, twoOutputTx]) :=
  checkTransactionOrdering_iff_SortTransactions rfl (by decide) (by decide)

end Sorting

end UnitE
