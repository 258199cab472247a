import Mathlib.Data.List.ReduceOption
import Mathlib.Data.List.SplitBy
import UnitE.Spec.ChainstateIterator

/-! The iterator splits the coins database into one subset per transaction. The records the
cursor decodes come in outpoint order, and the coins of one transaction share its height
and type. Under these conditions the subsets read while the iterator is valid are the maximal
runs of records of one transaction, in order, and their coins are the records again. The
iterator keeps a subset it has collected but not handed out yet. The proof therefore
follows what the iterator still hands out: the subset it shows, then the runs of the
records it still holds and of the records under the cursor. -/

namespace UnitE

def sameTx (a b : COutPoint × Coin) : Bool := a.1.hash == b.1.hash

/-- What the coins database guarantees of the records its cursor decodes. The outputs of a
transaction come in increasing order. They also share the height and the type of their
transaction. -/
structure CursorOrder (entries : List (COutPoint × Coin)) : Prop where
  ordered : entries.Pairwise fun a b => a.1.hash = b.1.hash → a.1.n < b.1.n
  shared : ∀ a ∈ entries, ∀ b ∈ entries, a.1.hash = b.1.hash →
    a.2.nHeight = b.2.nHeight ∧ a.2.tx_type = b.2.tx_type

instance (entries : List (COutPoint × Coin)) : Decidable (CursorOrder entries) :=
  decidable_of_iff ((entries.Pairwise fun a b => a.1.hash = b.1.hash → a.1.n < b.1.n) ∧
      ∀ a ∈ entries, ∀ b ∈ entries, a.1.hash = b.1.hash →
        a.2.nHeight = b.2.nHeight ∧ a.2.tx_type = b.2.tx_type)
    ⟨fun h => ⟨h.1, h.2⟩, fun h => ⟨h.ordered, h.shared⟩⟩

theorem CursorOrder.sublist {l l' : List (COutPoint × Coin)} (h : CursorOrder l)
    (hs : List.Sublist l' l) :
    CursorOrder l' where
  ordered := h.ordered.sublist hs
  shared a ha b hb := h.shared a (hs.subset ha) b (hs.subset hb)

namespace UTXOSubset

theorem mem_coins {s : UTXOSubset} {q : COutPoint × Coin} (hq : q ∈ s.coins) :
    ∃ p ∈ s.outputs, q = (⟨s.tx_id, p.1⟩, ⟨p.2, s.tx_type, s.height⟩) := by
  obtain ⟨p, hp, rfl⟩ := List.mem_map.mp hq
  exact ⟨p, hp, rfl⟩

theorem hash_of_mem_coins {s : UTXOSubset} {q : COutPoint × Coin} (hq : q ∈ s.coins) :
    q.1.hash = s.tx_id := by
  obtain ⟨p, _, rfl⟩ := mem_coins hq
  rfl

theorem coins_isChain (s : UTXOSubset) : s.coins.IsChain fun a b => sameTx a b := by
  apply List.Pairwise.isChain
  apply List.pairwise_of_forall_mem_list
  intro a ha b hb
  rw [sameTx, hash_of_mem_coins ha, hash_of_mem_coins hb, beq_self_eq_true]

theorem splitBy_coins (s : UTXOSubset) (hne : s.coins ≠ []) : s.coins.splitBy sameTx = [s.coins] :=
  List.splitBy_of_isChain hne s.coins_isChain

theorem ofMap_coins (tx_id : Uint256) (height : UInt32) (tx_type : TxType) (m : OutputMap) :
    (ofMap tx_id height tx_type m).coins =
      m.toList.map fun p => (⟨tx_id, p.1⟩, ⟨p.2, tx_type, height⟩) :=
  rfl

theorem ofMap_coins_eq_nil_iff (tx_id : Uint256) (height : UInt32) (tx_type : TxType)
    (m : OutputMap) : (ofMap tx_id height tx_type m).coins = [] ↔ m.isEmpty = true := by
  rw [ofMap_coins, List.map_eq_nil_iff, Std.TreeMap.toList_eq_nil_iff]

end UTXOSubset

namespace ChainstateIterator

variable {it : ChainstateIterator} {key : COutPoint} {coin : Coin} {cursor : List CursorEntry}

def toCome (it : ChainstateIterator) (cursor : List CursorEntry) : List (COutPoint × Coin) :=
  it.pendingSubset.coins ++ cursor.reduceOption

/-- What the iterator still hands out: while it is valid, the subset it shows, then one run
per transaction of the records to come. -/
def yields (it : ChainstateIterator) : List (List (COutPoint × Coin)) :=
  if it.m_valid then it.m_utxo_subset.coins :: (it.toCome it.m_cursor).splitBy sameTx else []

theorem pendingSubset_coins_eq_nil_iff : it.pendingSubset.coins = [] ↔ it.m_outputs.isEmpty = true :=
  UTXOSubset.ofMap_coins_eq_nil_iff _ _ _ _

theorem pendingSubset_coins_emit_collect (it : ChainstateIterator) (key : COutPoint) (coin : Coin) :
    (it.emit.collect key coin).pendingSubset.coins = [(key, coin)] := by
  have hlist : ((∅ : OutputMap).insert key.n coin.out).toList = [(key.n, coin.out)] := by
    rw [Std.TreeMap.toList_insert_of_lt _ (by simp), Std.TreeMap.toList_emptyc, List.nil_append]
  simp only [collect, emit, pendingSubset, UTXOSubset.ofMap_coins, hlist, List.map_cons, List.map_nil]

/-- A record of the transaction being collected, or of the first transaction, joins the
subset being collected. It comes after the outputs collected so far and has their height
and type, since the records are in outpoint order. -/
theorem pendingSubset_coins_collect (hsame : it.m_outputs.isEmpty = true ∨ key.hash = it.m_prev_tx_id)
    (hord : CursorOrder (it.pendingSubset.coins ++ [(key, coin)])) :
    (it.collect key coin).pendingSubset.coins = it.pendingSubset.coins ++ [(key, coin)] := by
  rcases hsame with hempty | hhash
  · have hnil : it.m_outputs.toList = [] := (Std.TreeMap.toList_eq_nil_iff _).mpr hempty
    have hlist : (it.m_outputs.insert key.n coin.out).toList = [(key.n, coin.out)] := by
      rw [Std.TreeMap.toList_insert_of_lt _ (by simp [hnil]), hnil, List.nil_append]
    simp only [collect, pendingSubset, UTXOSubset.ofMap_coins, hlist, hnil, List.map_cons,
      List.map_nil, List.nil_append]
  · -- each collected output is a record before the new one, of the same transaction
    have hbefore : ∀ p ∈ it.m_outputs.toList,
        p.1 < key.n ∧ it.m_prev_coin.nHeight = coin.nHeight ∧ it.m_prev_coin.tx_type = coin.tx_type := by
      intro p hp
      have hmem : (⟨it.m_prev_tx_id, p.1⟩, ⟨p.2, it.m_prev_coin.tx_type, it.m_prev_coin.nHeight⟩) ∈
          it.pendingSubset.coins :=
        List.mem_map_of_mem hp
      exact ⟨(List.pairwise_append.mp hord.ordered).2.2 _ hmem _ List.mem_cons_self hhash.symm,
        hord.shared _ (List.mem_append_left _ hmem) _ (List.mem_append_right _ List.mem_cons_self)
          hhash.symm⟩
    have hlist : (it.m_outputs.insert key.n coin.out).toList =
        it.m_outputs.toList ++ [(key.n, coin.out)] :=
      Std.TreeMap.toList_insert_of_lt _ fun p hp => compareOfLessAndEq_eq_lt.mpr (hbefore p hp).1
    simp only [collect, pendingSubset, UTXOSubset.ofMap_coins, hlist, List.map_append, List.map_cons,
      List.map_nil]
    congr 1
    apply List.map_congr_left
    intro p hp
    obtain ⟨_, hheight, htype⟩ := hbefore p hp
    rw [hhash, hheight, htype]

@[simp] theorem setCursor_pendingSubset (it : ChainstateIterator) (c : List CursorEntry) :
    ({ it with m_cursor := c } : ChainstateIterator).pendingSubset = it.pendingSubset :=
  rfl

@[simp] theorem setCursor_invalid_pendingSubset (it : ChainstateIterator) (c : List CursorEntry) :
    ({ it with m_cursor := c, m_valid := false } : ChainstateIterator).pendingSubset =
      it.pendingSubset :=
  rfl

@[simp] theorem emit_m_valid : it.emit.m_valid = it.m_valid := rfl

@[simp] theorem emit_m_utxo_subset : it.emit.m_utxo_subset = it.pendingSubset := rfl

@[simp] theorem collect_m_valid : (it.collect key coin).m_valid = it.m_valid := rfl

@[simp] theorem collect_m_utxo_subset : (it.collect key coin).m_utxo_subset = it.m_utxo_subset :=
  rfl

@[simp] theorem emit_pendingSubset_coins (it : ChainstateIterator) : it.emit.pendingSubset.coins = [] := by
  simp only [emit, pendingSubset, UTXOSubset.ofMap_coins, Std.TreeMap.toList_emptyc, List.map_nil]

/-- The loop of `Next` hands out the first run of the records to come, and keeps some of
them for later. -/
theorem nextLoop_yields (cursor : List CursorEntry) (it : ChainstateIterator)
    (hvalid : it.m_valid = true) (hord : CursorOrder (it.toCome cursor)) :
    (nextLoop cursor it).yields = (it.toCome cursor).splitBy sameTx ∧
      List.Sublist ((nextLoop cursor it).toCome (nextLoop cursor it).m_cursor) (it.toCome cursor) := by
  induction cursor generalizing it with
  | nil =>
    by_cases hempty : it.m_outputs.isEmpty = true
    · have hnil := pendingSubset_coins_eq_nil_iff.mpr hempty
      simp [nextLoop, hempty, yields, toCome, hnil]
    · have hne : it.pendingSubset.coins ≠ [] := fun h => hempty (pendingSubset_coins_eq_nil_iff.mp h)
      have hnext : nextLoop [] it = { it.emit with m_cursor := [] } := by
        simp only [nextLoop, hempty, Bool.false_eq_true, ↓reduceIte]
      rw [hnext, yields, toCome, toCome, setCursor_pendingSubset, emit_pendingSubset_coins]
      simp only [List.reduceOption_nil, List.append_nil, UTXOSubset.splitBy_coins _ hne,
        List.splitBy_nil, emit_m_valid, hvalid, ↓reduceIte, emit_m_utxo_subset, List.nil_sublist,
        and_self]
  | cons entry cursor ih =>
    cases entry with
    | none =>
      have hcome : it.toCome (none :: cursor) = it.toCome cursor := by
        rw [toCome, toCome, List.reduceOption_cons_of_none]
      rw [hcome] at hord ⊢
      exact ih it hvalid hord
    | some entry =>
      obtain ⟨key, coin⟩ := entry
      have hcome : it.toCome (some (key, coin) :: cursor) =
          it.pendingSubset.coins ++ (key, coin) :: cursor.reduceOption := by
        rw [toCome, List.reduceOption_cons_of_some]
      cases hstop : (!it.m_outputs.isEmpty && key.hash != it.m_prev_tx_id)
      · -- the record is of the transaction being collected, or the first one
        have hsame : it.m_outputs.isEmpty = true ∨ key.hash = it.m_prev_tx_id := by
          by_cases hempty : it.m_outputs.isEmpty = true
          · exact .inl hempty
          · exact .inr (by simpa [hempty] using hstop)
        have hprefix : List.Sublist (it.pendingSubset.coins ++ [(key, coin)])
            (it.toCome (some (key, coin) :: cursor)) := by
          rw [hcome]
          exact (List.append_sublist_append_left _).mpr (List.cons_sublist_cons.mpr (List.nil_sublist _))
        have hcollect : (it.collect key coin).toCome cursor = it.toCome (some (key, coin) :: cursor) := by
          rw [toCome, pendingSubset_coins_collect hsame (hord.sublist hprefix), hcome, List.append_assoc,
            List.singleton_append]
        have hnext : nextLoop (some (key, coin) :: cursor) it = nextLoop cursor (it.collect key coin) := by
          simp only [nextLoop, hstop, Bool.false_eq_true, ↓reduceIte]
        rw [hnext, ← hcollect]
        exact ih _ hvalid (hcollect ▸ hord)
      · -- the record starts another transaction: the subset collected is handed out
        have hne : it.pendingSubset.coins ≠ [] := by
          intro h
          rw [pendingSubset_coins_eq_nil_iff] at h
          simp [h] at hstop
        have hdiff : key.hash ≠ it.m_prev_tx_id := by
          intro h
          simp [h] at hstop
        have hlast : ∀ x ∈ it.pendingSubset.coins.getLast?, sameTx x (key, coin) = false := by
          intro x hx
          have hhash : x.1.hash = it.m_prev_tx_id :=
            UTXOSubset.hash_of_mem_coins (List.mem_of_mem_getLast? hx)
          rw [sameTx, beq_eq_false_iff_ne, hhash]
          exact hdiff.symm
        have hnext : nextLoop (some (key, coin) :: cursor) it =
            { it.emit.collect key coin with m_cursor := cursor } := by
          simp only [nextLoop, hstop, ↓reduceIte]
        rw [hnext, hcome, List.splitBy_append_cons _ hlast, UTXOSubset.splitBy_coins _ hne, yields,
          toCome, setCursor_pendingSubset, pendingSubset_coins_emit_collect]
        simp only [collect_m_valid, emit_m_valid, hvalid, ↓reduceIte, collect_m_utxo_subset,
          emit_m_utxo_subset]
        exact ⟨rfl, List.sublist_append_right _ _⟩

theorem Next_yields (hvalid : it.m_valid = true) (hord : CursorOrder (it.toCome it.m_cursor)) :
    it.Next.yields = (it.toCome it.m_cursor).splitBy sameTx ∧
      List.Sublist (it.Next.toCome it.Next.m_cursor) (it.toCome it.m_cursor) :=
  nextLoop_yields it.m_cursor it hvalid hord

theorem length_toCome_Next_lt (hvalid : it.m_valid = true) (hord : CursorOrder (it.toCome it.m_cursor))
    (hnext : it.Next.m_valid = true) :
    (it.Next.toCome it.Next.m_cursor).length < (it.toCome it.m_cursor).length := by
  have hy := (Next_yields hvalid hord).1
  rw [yields, if_pos hnext] at hy
  have hne : it.Next.m_utxo_subset.coins ≠ [] :=
    List.ne_nil_of_mem_splitBy (hy ▸ List.mem_cons_self)
  have hsplit : it.toCome it.m_cursor = it.Next.m_utxo_subset.coins ++ it.Next.toCome it.Next.m_cursor := by
    rw [← List.flatten_splitBy sameTx (it.toCome it.m_cursor), ← hy, List.flatten_cons,
      List.flatten_splitBy]
  rw [hsplit, List.length_append]
  have hpos := List.length_pos_iff.mpr hne
  omega

theorem readSubsets_of_invalid (fuel : Nat) (hinvalid : it.m_valid = false) : readSubsets fuel it = some [] := by
  cases fuel <;> simp [readSubsets, Valid, hinvalid]

theorem readSubsets_mono {fuel fuel' : Nat} {subsets : List UTXOSubset}
    (hread : readSubsets fuel it = some subsets) (hle : fuel ≤ fuel') : readSubsets fuel' it = some subsets := by
  induction fuel generalizing it fuel' subsets with
  | zero =>
    cases hvalid : it.m_valid
    · simp only [readSubsets, Valid, hvalid, Bool.false_eq_true, ↓reduceIte, Option.some.injEq] at hread
      rw [readSubsets_of_invalid fuel' hvalid, hread]
    · simp [readSubsets, Valid, hvalid] at hread
  | succ fuel ih =>
    obtain ⟨fuel', rfl⟩ : ∃ f, fuel' = f + 1 := ⟨fuel' - 1, by omega⟩
    cases hvalid : it.m_valid
    · rw [readSubsets_of_invalid _ hvalid] at hread ⊢
      exact hread
    · simp only [readSubsets, Valid, hvalid, ↓reduceIte, Option.map_eq_some_iff] at hread ⊢
      obtain ⟨rest, hrest, hcons⟩ := hread
      exact ⟨rest, ih hrest (by omega), hcons⟩

/-- The run of `Creator::Create` over the iterator: fuel above the number of records to come
reads one subset for each run the iterator still hands out. -/
theorem readSubsets_yields (fuel : Nat) (it : ChainstateIterator)
    (hord : CursorOrder (it.toCome it.m_cursor)) (hfuel : (it.toCome it.m_cursor).length < fuel) :
    ∃ subsets, readSubsets fuel it = some subsets ∧ subsets.map UTXOSubset.coins = it.yields := by
  induction fuel generalizing it with
  | zero => omega
  | succ fuel ih =>
    cases hvalid : it.m_valid
    · exact ⟨[], readSubsets_of_invalid _ hvalid, by simp [yields, hvalid]⟩
    · obtain ⟨hy, hsub⟩ := Next_yields hvalid hord
      -- the subsets after this one, read from the iterator after `Next`
      obtain ⟨subsets, hread, hmap⟩ : ∃ subsets, readSubsets fuel it.Next = some subsets ∧
          subsets.map UTXOSubset.coins = it.Next.yields := by
        cases hnext : it.Next.m_valid
        · exact ⟨[], readSubsets_of_invalid _ hnext, by simp [yields, hnext]⟩
        · have hlt := length_toCome_Next_lt hvalid hord hnext
          exact ih it.Next (hord.sublist hsub) (by omega)
      refine ⟨it.GetUTXOSubset :: subsets, ?_, ?_⟩
      · simp [readSubsets, Valid, hvalid, hread]
      · rw [List.map_cons, hmap, hy, yields, if_pos hvalid]
        rfl

theorem toCome_initial (cursor : List CursorEntry) :
    (⟨true, cursor, ∅, Coin.empty, 0, UTXOSubset.empty⟩ : ChainstateIterator).toCome cursor =
      cursor.reduceOption := by
  simp only [toCome, pendingSubset, UTXOSubset.ofMap_coins, Std.TreeMap.toList_emptyc, List.map_nil,
    List.nil_append]

/-- The subsets that `Creator::Create` reads from a new iterator are the runs of records of one
transaction, one subset per run and in order, and their coins are the records the cursor
decodes, whatever records it fails to decode. -/
theorem create_groups_by_transaction (cursor : List CursorEntry) (hord : CursorOrder cursor.reduceOption) :
    ∃ subsets, (∀ fuel, cursor.length < fuel → readSubsets fuel (create cursor) = some subsets) ∧
      subsets.map UTXOSubset.coins = cursor.reduceOption.splitBy sameTx ∧
      (subsets.map UTXOSubset.coins).flatten = cursor.reduceOption := by
  have hinit := toCome_initial cursor
  obtain ⟨hy, hsub⟩ := @Next_yields ⟨true, cursor, ∅, Coin.empty, 0, UTXOSubset.empty⟩ rfl
    (hinit ▸ hord)
  rw [hinit] at hy hsub
  have hlen : ((create cursor).toCome (create cursor).m_cursor).length < cursor.length + 1 := by
    have := hsub.length_le
    have := List.reduceOption_length_le cursor
    rw [create]
    omega
  obtain ⟨subsets, hread, hmap⟩ := readSubsets_yields (cursor.length + 1) (create cursor)
    (hord.sublist hsub) hlen
  refine ⟨subsets, fun fuel hfuel => readSubsets_mono hread hfuel, ?_, ?_⟩
  · rw [hmap]
    exact hy
  · rw [hmap, create, hy, List.flatten_splitBy]

def twoTxCursor : List CursorEntry :=
  [some (⟨1, 0⟩, ⟨⟨5, []⟩, .REGULAR, 7⟩), none, some (⟨1, 2⟩, ⟨⟨6, []⟩, .REGULAR, 7⟩),
    some (⟨2, 0⟩, ⟨⟨8, []⟩, .COINBASE, 9⟩)]

theorem create_groups_by_transaction_twoTx :
    CursorOrder twoTxCursor.reduceOption ∧
      ∃ subsets, (∀ fuel, twoTxCursor.length < fuel →
          readSubsets fuel (create twoTxCursor) = some subsets) ∧
        subsets.map UTXOSubset.coins = twoTxCursor.reduceOption.splitBy sameTx ∧
        (subsets.map UTXOSubset.coins).flatten = twoTxCursor.reduceOption :=
  have hord : CursorOrder twoTxCursor.reduceOption := by decide
  ⟨hord, create_groups_by_transaction twoTxCursor hord⟩

example : (readSubsets 5 (create twoTxCursor)).map (List.map fun s => (s.tx_id, s.outputs.length)) =
    some [(1, 2), (2, 1)] := by
  decide +kernel

end ChainstateIterator

end UnitE
