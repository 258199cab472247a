import Mathlib.Algebra.Group.Int.Defs
import UnitE.Spec.Snapshot

/-! The snapshot a node accepts at download and the snapshot it applies. `ProcessSnapshot`
accepts the subsets a peer sends when `Iterator::CalculateHash` over them equals the
header's snapshot hash, and `CalculateHash` adds every output. `ApplySnapshot` adds them with
`AddCoin`, which drops unspendable outputs, and then asserts that its snapshot hash equals the
header's. A snapshot of unspendable outputs is therefore accepted and then aborts the node. -/

namespace UnitE

variable {G : Type} [AddCommGroup G] (M : MultisetHash G)

theorem foldlM_AddCoin_of_unspendable (coins : List (COutPoint × Coin))
    (h : ∀ c ∈ coins, IsUnspendable c.2.out.scriptPubKey = true) (v : CCoinsViewCache G) :
    coins.foldlM (fun v c => v.AddCoin M c.1 c.2 true) v = .error .assertion ∨
      coins.foldlM (fun v c => v.AddCoin M c.1 c.2 true) v = .ok v := by
  induction coins with
  | nil => simp
  | cons c rest ih =>
    have hrest := ih (fun c' hc' => h c' (List.mem_cons_of_mem _ hc'))
    rcases v.AddCoin_of_unspendable M c.1 true (h c List.mem_cons_self) with he | hv
    · simp [he]
    · simpa [hv] using hrest

theorem addSubset_of_unspendable (v : CCoinsViewCache G) (subset : UTXOSubset)
    (h : ∀ p ∈ subset.outputs, IsUnspendable p.2.scriptPubKey = true) :
    addSubset M v subset = .error .assertion ∨ addSubset M v subset = .ok v := by
  apply foldlM_AddCoin_of_unspendable
  simp only [UTXOSubset.coins, List.mem_map]
  rintro _ ⟨p, hp, rfl⟩
  exact h p hp

/-- The loop over subsets of unspendable outputs asserts, or counts every subset and leaves
the snapshot hash as it was; the periodic flushes keep it. -/
theorem applySubsets_of_unspendable (subsets : List UTXOSubset)
    (h : ∀ subset ∈ subsets, ∀ p ∈ subset.outputs, IsUnspendable p.2.scriptPubKey = true)
    (v : CCoinsViewCache G) (writtenSubsets : Nat) :
    applySubsets M v writtenSubsets subsets = .error .assertion ∨
      ∃ v', applySubsets M v writtenSubsets subsets = .ok (v', writtenSubsets + subsets.length) ∧
        v'.snapshotHash = v.snapshotHash := by
  induction subsets generalizing v writtenSubsets with
  | nil => simp [applySubsets]
  | cons subset rest ih =>
    have ih' := ih (fun s hs => h s (List.mem_cons_of_mem _ hs))
    rcases addSubset_of_unspendable M v subset (h subset List.mem_cons_self) with he | hv
    · simp [applySubsets_cons, he]
    · -- the view after the subset is `v`, flushed or not
      rw [applySubsets_cons, hv, Except.ok_bind]
      set v₁ := if (writtenSubsets + 1) % snapshotBatchSize == 0 then v.Flush else v
      have hv₁ : v₁.snapshotHash = v.snapshotHash := by
        simp only [v₁]
        split <;> simp
      rcases ih' v₁ (writtenSubsets + 1) with he | ⟨v', hok, hhash⟩
      · exact .inl he
      · refine .inr ⟨v', ?_, hhash.trans hv₁⟩
        rw [hok, List.length_cons, Nat.add_assoc, Nat.add_comm 1]

theorem unspendable_snapshot_fails_apply (v : CCoinsViewCache G) (header : SnapshotHeader)
    (subsets : List UTXOSubset)
    (hunspendable : ∀ subset ∈ subsets, ∀ p ∈ subset.outputs, IsUnspendable p.2.scriptPubKey = true)
    (htotal : header.total_utxo_subsets = subsets.length)
    (haccepted : CalculateHash M subsets header.stake_modifier header.chain_work = header.snapshot_hash)
    (hnonempty : CalculateHash M subsets header.stake_modifier header.chain_work ≠
      SnapshotHash.empty.GetHash M header.stake_modifier header.chain_work) :
    ApplySnapshot M v header subsets = .error .assertion := by
  rcases applySubsets_of_unspendable M subsets hunspendable
    { v.ClearCoins with hashBlock := header.block_hash } 0 with he | ⟨v', hok, hhash⟩
  · simp only [CCoinsViewCache.ClearCoins_snapshotHash] at he
    simp [ApplySnapshot, he]
  · -- the applied snapshot hash is that of the empty set, which the header's is not
    have hdiffer : v'.snapshotHash.GetHash M header.stake_modifier header.chain_work ≠
        header.snapshot_hash := by
      rw [hhash, ← haccepted]
      exact hnonempty.symm
    simp only [CCoinsViewCache.ClearCoins_snapshotHash, Nat.zero_add] at hok
    simp [ApplySnapshot, hok, htotal, hdiffer]

def countingHash : MultisetHash ℤ := ⟨fun _ => 1, fun _ _ => 0, fun x => BitVec.ofInt 256 x⟩

def opReturnSubset : UTXOSubset := ⟨5, 1, .REGULAR, [(0, ⟨10, [.OP_RETURN]⟩)], by decide⟩

def opReturnSnapshotHeader : SnapshotHeader :=
  ⟨CalculateHash countingHash [opReturnSubset] 0 0, 9, 0, 0, 1⟩

def emptyCoinsView : CCoinsViewCache ℤ :=
  ⟨fun _ => none, SnapshotHash.empty, fun _ => none, SnapshotHash.empty, 0⟩

theorem unspendable_snapshot_fails_apply_witness :
    (∀ subset ∈ [opReturnSubset], ∀ p ∈ subset.outputs, IsUnspendable p.2.scriptPubKey = true) ∧
    opReturnSnapshotHeader.total_utxo_subsets = [opReturnSubset].length ∧
    CalculateHash countingHash [opReturnSubset] 0 0 = opReturnSnapshotHeader.snapshot_hash ∧
    CalculateHash countingHash [opReturnSubset] 0 0 ≠ SnapshotHash.empty.GetHash countingHash 0 0 ∧
    ApplySnapshot countingHash emptyCoinsView opReturnSnapshotHeader [opReturnSubset] =
      .error .assertion :=
  ⟨by decide, rfl, rfl, by decide,
    unspendable_snapshot_fails_apply countingHash emptyCoinsView opReturnSnapshotHeader
      [opReturnSubset] (by decide) rfl rfl (by decide)⟩

end UnitE
