import UnitE.Spec.CommitsHandler
import UnitE.Lib.Except

/-! What the merkle root of a block's finalizer commits pins down. `CheckBlockInternal`
compares the header's commits root with `BlockFinalizerCommitsMerkleRoot` without its
mutation flag, and `OnCommits` checks received commits the same way; the root of an odd
list of at least three commits is also the root of that list with its last commit
repeated. `OnCommits` therefore accepts that list for the block: it stops at its
assertion when the block's own commits are stored, and otherwise hands the longer list to
`ProcessNewCommits`. -/

namespace UnitE.P2P

variable (H : BlockHashes) (D : CommitsHandlerDeps)

theorem checkCommits_ok_iff (cs : List CTransaction) :
    checkCommits D cs = .ok () ↔ ∀ c ∈ cs, c.IsFinalizerCommit = true ∧ D.CheckCommit c = true := by
  induction cs with
  | nil => simp [checkCommits]
  | cons c rest ih =>
    by_cases hc : c.IsFinalizerCommit = true <;> by_cases hk : D.CheckCommit c = true <;>
      simp [checkCommits, hc, hk, ih, throw, throwThe, MonadExceptOf.throw]

theorem recordVotes_ok_iff (cs : List CTransaction) :
    recordVotes D cs = .ok () ↔ ∀ c ∈ cs, c.txType = .VOTE → D.RecordVote c = true := by
  induction cs with
  | nil => simp [recordVotes]
  | cons c rest ih =>
    by_cases hv : c.txType = .VOTE <;> by_cases hr : D.RecordVote c = true <;>
      simp [recordVotes, hv, hr, ih, throw, throwThe, MonadExceptOf.throw]

theorem CheckBlockInternal_commits_root {C : BlockChecks} {block : CBlock}
    (h : CheckBlockInternal H C block = .ok ()) :
    block.header.hash_finalizer_commits_merkle_root = (BlockFinalizerCommitsMerkleRoot H block).1 := by
  simp only [CheckBlockInternal, Except.guardOr_bind_eq_ok] at h
  obtain ⟨_, -, h⟩ := Except.bind_eq_ok.mp h.2
  simp only [Except.guardOr_bind_eq_ok, beq_iff_eq] at h
  exact h.2.2.2.2.2.1

/-- The root of a list of commits of odd length at least three does not change when its
last commit is repeated. -/
theorem ComputeMerkleRoot_append_dup {xs : List CTransaction} (heven : xs.length % 2 = 0)
    (hne : xs ≠ []) (c : CTransaction) :
    (ComputeMerkleRoot H ((xs ++ [c, c]).map H.GetHash)).1 =
      (ComputeMerkleRoot H ((xs ++ [c]).map H.GetHash)).1 := by
  have hmap : xs.map H.GetHash ≠ [] := by simpa using hne
  simpa [ComputeMerkleRoot] using
    (Merkle.root_append_dup H.SHA256D64 0 (by simpa using heven) hmap (H.GetHash c)).1

theorem FinalizerCommitsEqual_append_dup (xs : List CTransaction) (c : CTransaction) :
    FinalizerCommitsEqual H (xs ++ [c]) (xs ++ [c, c]) = false := by
  simp [FinalizerCommitsEqual]

theorem OnCommits_single (index : CommitsIndex) (d : HeaderAndFinalizerCommits) :
    OnCommits H D index [d] = (do
      checkEntry H D d
      let (index, processed, _) ← processEntry H D (index, [], none) d
      pure (index, processed)) := by
  simp [OnCommits, List.forM_cons, List.foldlM_cons]

/-- A finalizer's commits with the last one repeated pass the checks of `OnCommits`: the
merkle root is the header's, and every commit is one of the block's. -/
theorem checkEntry_append_dup {C : BlockChecks} {block : CBlock} (hcheck : CheckBlockInternal H C block = .ok ())
    {xs : List CTransaction} {c : CTransaction} (hcommits : FinalizerCommits block = xs ++ [c])
    (heven : xs.length % 2 = 0) (hne : xs ≠ [])
    (hpass : ∀ tx ∈ FinalizerCommits block, D.CheckCommit tx = true) :
    checkEntry H D ⟨block.header, xs ++ [c, c]⟩ = .ok () := by
  have hroot := CheckBlockInternal_commits_root H hcheck
  rw [BlockFinalizerCommitsMerkleRoot, hcommits, ← ComputeMerkleRoot_append_dup H heven hne c] at hroot
  have hmem : ∀ tx ∈ xs ++ [c, c], tx ∈ FinalizerCommits block := by
    intro tx htx
    rw [hcommits]
    simp only [List.mem_append, List.mem_cons, List.not_mem_nil, or_false] at htx ⊢
    tauto
  have hcommit : ∀ tx ∈ xs ++ [c, c], tx.IsFinalizerCommit = true ∧ D.CheckCommit tx = true := by
    intro tx htx
    have hblock := hmem tx htx
    exact ⟨(List.mem_filter.mp hblock).2, hpass tx hblock⟩
  simp [checkEntry, hroot, (checkCommits_ok_iff D _).mpr hcommit]

/-- The merkle root does not bind received commits to a block. For every block that passes
`CheckBlockInternal` with an odd number, at least three, of finalizer commits, the list
with its last commit repeated has the header's commits root but is not the block's list;
`OnCommits` given it for the block stops at `assert(not("not implemented"))` when the
block's commits are stored, and otherwise stores it and passes it to `ProcessNewCommits`. -/
theorem mutated_commits_accepted (C : BlockChecks) (block : CBlock)
    (hcheck : CheckBlockInternal H C block = .ok ()) {xs : List CTransaction} {c : CTransaction}
    (hcommits : FinalizerCommits block = xs ++ [c]) (heven : xs.length % 2 = 0) (hne : xs ≠ [])
    (hpass : ∀ tx ∈ FinalizerCommits block, D.CheckCommit tx = true ∧ D.RecordVote tx = true)
    (haccept : D.AcceptBlockHeader block.header = true) (index : CommitsIndex) :
    (ComputeMerkleRoot H ((xs ++ [c, c]).map H.GetHash)).1 =
        block.header.hash_finalizer_commits_merkle_root ∧
      xs ++ [c, c] ≠ FinalizerCommits block ∧
      (index (D.HeaderHash block.header) = some (FinalizerCommits block) →
        OnCommits H D index [⟨block.header, xs ++ [c, c]⟩] = .error .assertion) ∧
      (index (D.HeaderHash block.header) = none →
        D.ProcessNewCommits (D.HeaderHash block.header) (xs ++ [c, c]) = true →
        OnCommits H D index [⟨block.header, xs ++ [c, c]⟩] =
          .ok (Function.update index (D.HeaderHash block.header) (some (xs ++ [c, c])),
            [(D.HeaderHash block.header, xs ++ [c, c])])) := by
  have hroot := CheckBlockInternal_commits_root H hcheck
  rw [BlockFinalizerCommitsMerkleRoot, hcommits, ← ComputeMerkleRoot_append_dup H heven hne c] at hroot
  have hentry := checkEntry_append_dup H D hcheck hcommits heven hne fun tx htx => (hpass tx htx).1
  have hrecord : recordVotes D (xs ++ [c, c]) = .ok () := by
    refine (recordVotes_ok_iff D _).mpr fun tx htx _ => (hpass tx ?_).2
    rw [hcommits]
    simp only [List.mem_append, List.mem_cons, List.not_mem_nil, or_false] at htx ⊢
    tauto
  refine ⟨hroot.symm, ?_, ?_, ?_⟩
  · rw [hcommits]
    simp
  · intro hstored
    rw [hcommits] at hstored
    simp [OnCommits_single, hentry, processEntry, haccept, hrecord, hstored,
      FinalizerCommitsEqual_append_dup, throw, throwThe, MonadExceptOf.throw]
  · intro hnone hprocess
    simp [OnCommits_single, hentry, processEntry, haccept, hrecord, hnone, hprocess]

/-! ### Three votes in a block, on concrete inputs -/

section Witness

def witnessTx (txType : TxType) (nValue : CAmount) : CTransaction := ⟨txType, [], [⟨nValue, []⟩]⟩

def witnessHashes : BlockHashes where
  GetHash tx := BitVec.ofNat 256 (tx.vout.map fun txout => txout.nValue.toNat).sum
  GetWitnessHash tx := BitVec.ofNat 256 (tx.vout.map fun txout => txout.nValue.toNat).sum
  SHA256D64 a b := 3 * a + b

def witnessTxs : List CTransaction :=
  [witnessTx .COINBASE 0, witnessTx .VOTE 1, witnessTx .VOTE 2, witnessTx .VOTE 3]

def witnessBlock : CBlock where
  header :=
    { hashPrevBlock := 0
      hashMerkleRoot := (ComputeMerkleRoot witnessHashes (witnessTxs.map witnessHashes.GetHash)).1
      hash_witness_merkle_root := (ComputeMerkleRoot witnessHashes (witnessTxs.map witnessHashes.GetHash)).1
      hash_finalizer_commits_merkle_root :=
        (ComputeMerkleRoot witnessHashes ((witnessTxs.drop 1).map witnessHashes.GetHash)).1 }
  vtx := witnessTxs

def witnessChecks : BlockChecks := ⟨fun _ => true, fun _ _ => true, fun _ => true, fun _ => true,
  fun _ => true, fun _ => true⟩

def witnessDeps : CommitsHandlerDeps := ⟨fun _ => 5, fun _ => true, fun _ => true, fun _ => true,
  fun _ _ => true⟩

theorem mutated_commits_accepted_witness :
    CheckBlockInternal witnessHashes witnessChecks witnessBlock = .ok () ∧
    FinalizerCommits witnessBlock = [witnessTx .VOTE 1, witnessTx .VOTE 2] ++ [witnessTx .VOTE 3] ∧
    ((ComputeMerkleRoot witnessHashes
        (([witnessTx .VOTE 1, witnessTx .VOTE 2] ++ [witnessTx .VOTE 3, witnessTx .VOTE 3]).map
          witnessHashes.GetHash)).1 = witnessBlock.header.hash_finalizer_commits_merkle_root ∧
      [witnessTx .VOTE 1, witnessTx .VOTE 2] ++ [witnessTx .VOTE 3, witnessTx .VOTE 3] ≠
        FinalizerCommits witnessBlock ∧
      ((fun _ => none : CommitsIndex) (witnessDeps.HeaderHash witnessBlock.header) =
          some (FinalizerCommits witnessBlock) →
        OnCommits witnessHashes witnessDeps (fun _ => none)
          [⟨witnessBlock.header, [witnessTx .VOTE 1, witnessTx .VOTE 2] ++
            [witnessTx .VOTE 3, witnessTx .VOTE 3]⟩] = .error .assertion) ∧
      ((fun _ => none : CommitsIndex) (witnessDeps.HeaderHash witnessBlock.header) = none →
        witnessDeps.ProcessNewCommits (witnessDeps.HeaderHash witnessBlock.header)
          ([witnessTx .VOTE 1, witnessTx .VOTE 2] ++ [witnessTx .VOTE 3, witnessTx .VOTE 3]) = true →
        OnCommits witnessHashes witnessDeps (fun _ => none)
            [⟨witnessBlock.header, [witnessTx .VOTE 1, witnessTx .VOTE 2] ++
              [witnessTx .VOTE 3, witnessTx .VOTE 3]⟩] =
          .ok (Function.update (fun _ => none) (witnessDeps.HeaderHash witnessBlock.header)
              (some ([witnessTx .VOTE 1, witnessTx .VOTE 2] ++ [witnessTx .VOTE 3, witnessTx .VOTE 3])),
            [(witnessDeps.HeaderHash witnessBlock.header,
              [witnessTx .VOTE 1, witnessTx .VOTE 2] ++ [witnessTx .VOTE 3, witnessTx .VOTE 3])]))) :=
  ⟨by decide, by decide,
    mutated_commits_accepted witnessHashes witnessDeps witnessChecks witnessBlock (by decide)
      (by decide) (by decide) (by decide) (by decide) (by decide) (fun _ => none)⟩

end Witness

end UnitE.P2P