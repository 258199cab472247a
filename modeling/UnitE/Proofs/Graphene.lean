import UnitE.Spec.Graphene

/-! What a graphene block can make the receiver do. A peer that prefills nothing, sends a
valid IBLT of empty buckets and a filter that matches none of the receiver's pool
transactions leaves the reconstructor with nothing missing, so the receiver rebuilds the
block at once, from no transaction, and `ReconstructLTOR` fails its `assert(!vtx.empty())`.

For a block that `CreateGrapheneBlock` encodes, the receiver gets the block back: when the
pool holds its transactions, short hashes do not collide and the IBLT difference decodes to
the sender-only and receiver-only short hashes, the candidates left after removing the
receiver-only ones are the block's transactions, and LTOR sorting puts them back in the
block's order. -/

namespace UnitE

variable (H : BlockHashes) (G : GrapheneHashes) {F : Type} (B : BloomFilterOps F)

theorem graphene_empty_block_aborts (AcceptBlockHeader : CBlockHeader → Bool)
    (gb : GrapheneBlock F) (txs : List CTransaction) {numEntries : Nat} {numHashes : UInt8}
    (hiblt : gb.iblt = IBLT.make numEntries numHashes)
    (hvalid : (IBLT.make numEntries numHashes : GrapheneIblt).IsValid = true)
    (hprefilled : gb.prefilled_transactions = [])
    (hnone : ∀ tx ∈ txs, B.contains gb.bloom_filter (GetFullHash H tx) = false)
    (haccept : AcceptBlockHeader gb.header = true) (fuel : Nat) :
    GrapheneBlockReconstructor.create H G B gb txs (fuel + 1) =
        some (.ok (decodeCandidates gb [] ∅ ∅)) ∧
      (decodeCandidates gb [] ∅ ∅).state = .HAS_ALL_TXS ∧
      OnGrapheneBlockReceived H G B true AcceptBlockHeader gb txs (fuel + 1) =
        some (.error .assertion) := by
  have hcreate := create_of_no_match H G B hiblt hvalid hnone fuel
  have hstate : (decodeCandidates gb [] ∅ ∅).state = .HAS_ALL_TXS := by simp
  -- nothing was prefilled and no candidate was decoded
  have hreconstruct : ReconstructLTOR H (decodeCandidates gb [] ∅ ∅) = .error .assertion :=
    ReconstructLTOR_of_nil H hstate (by simp [decodeCandidates, GrapheneBlockReconstructor.initial,
      hprefilled]) rfl
  refine ⟨hcreate, hstate, ?_⟩
  have hgb : gb.iblt.IsValid = true := hiblt ▸ hvalid
  simp only [OnGrapheneBlockReceived, hgb, haccept, Bool.not_true, Bool.false_eq_true, if_false,
    hcreate, Option.map_some, Except.ok_bind, hstate]
  simp [ReconstructAndSubmitBlock, hreconstruct]

section Reconstruction

variable {H G B}

/-- Removing the receiver-only short hashes from the candidates of a pool keeps the matched
pool transactions whose short hash is not receiver-only, in pool order. -/
theorem decoded_eq_filter (short : CTransaction → GrapheneShortHash) (matched : CTransaction → Bool)
    (pool : List CTransaction) (onlyReceiver : TEntriesMap 64) :
    (((pool.filter matched).map fun tx => (short tx, tx)).filter fun c => c.1 ∉ onlyReceiver).map
        (·.2) = pool.filter fun tx => matched tx && decide (short tx ∉ onlyReceiver) := by
  simp [List.filter_map, List.filter_filter, Function.comp_def, Bool.and_comm]

/-- The receiver decodes the block's transactions, up to order: each of them is a matched
pool transaction whose short hash the sender has too, and a matched pool transaction whose
short hash is not receiver-only shares it with a block transaction, so it is that one. -/
theorem decoded_perm {short : CTransaction → GrapheneShortHash} {matched : CTransaction → Bool}
    {pool rest : List CTransaction} {onlyReceiver : TEntriesMap 64}
    (hpool : ∀ tx ∈ rest, tx ∈ pool) (hmatched : ∀ tx ∈ rest, matched tx = true)
    (hpoolNodup : pool.Nodup) (hrestNodup : rest.Nodup)
    (hcross : ∀ x ∈ rest, ∀ y ∈ pool, short x = short y → x = y)
    (hreceiver : onlyReceiver.keys =
      ((pool.filter matched).map short).toFinset \ (rest.map short).toFinset) :
    ((((pool.filter matched).map fun tx => (short tx, tx)).filter fun c => c.1 ∉ onlyReceiver).map
        (·.2)).Perm rest := by
  rw [decoded_eq_filter, List.perm_ext_iff_of_nodup (hpoolNodup.filter _) hrestNodup]
  intro tx
  simp only [List.mem_filter, Bool.and_eq_true, decide_eq_true_eq, ← Finmap.mem_keys, hreceiver,
    Finset.mem_sdiff, List.mem_toFinset, List.mem_map]
  constructor
  · -- a matched pool transaction that is not receiver-only is the block's
    rintro ⟨htx, hmatch, hnot⟩
    have hsender : ∃ y ∈ rest, short y = short tx := by
      by_contra hnone
      exact hnot ⟨⟨tx, ⟨htx, hmatch⟩, rfl⟩, hnone⟩
    obtain ⟨y, hy, hshort⟩ := hsender
    rw [← hcross y hy tx htx hshort]
    exact hy
  · -- a block transaction is in the pool, matched, and known to the sender
    intro htx
    exact ⟨hpool tx htx, hmatched tx htx, fun h => h.2 ⟨tx, htx, rfl⟩⟩

/-- For every block in LTOR order, nonce, filter with no false negatives, IBLT of the
sender's shape and pool holding the block's transactions, if short hashes do not collide
and decoding the IBLT difference lists exactly the sender-only and receiver-only short
hashes, the receiver has all transactions and rebuilds the block. -/
theorem graphene_reconstructs_block (hB : NoFalseNegatives B) (block : CBlock) (nonce : UInt64)
    (bloom : F) (pool : List CTransaction) {coinbase : CTransaction} {rest : List CTransaction}
    (hvtx : block.vtx = coinbase :: rest) (hcoinbase : coinbase.IsCoinBase = true)
    (hsorted : rest.Pairwise fun a b => (H.GetHash a).toNat < (H.GetHash b).toNat)
    (hpool : ∀ tx ∈ rest, tx ∈ pool) {numEntries : Nat} {numHashes : UInt8}
    (hvalid : (IBLT.make numEntries numHashes : GrapheneIblt).IsValid = true)
    (hentries : 0 < numEntries)
    (hblockShort : (block.vtx.map (GetShortHash H G block.header nonce)).Nodup)
    (hpoolShort : (pool.map (GetShortHash H G block.header nonce)).Nodup)
    (hcross : ∀ x ∈ block.vtx, ∀ y ∈ pool,
      GetShortHash H G block.header nonce x = GetShortHash H G block.header nonce y → x = y)
    (fuel : Nat)
    (hdecode : ∀ gb, CreateGrapheneBlock H G B block nonce bloom (IBLT.make numEntries numHashes) =
        .ok (some gb) →
      ∀ candidates receiverIblt, enumeratePool H G B gb pool [] (IBLT.make numEntries numHashes) =
          .ok (some (candidates, receiverIblt)) →
      ∀ diff, gb.iblt.sub receiverIblt = .ok diff →
      ∃ onlySender onlyReceiver,
        diff.ListEntries 0 G.ComputeHash ∅ ∅ fuel = some (.ok (true, onlySender, onlyReceiver)) ∧
        onlySender.keys = (rest.map (GetShortHash H G block.header nonce)).toFinset \
          ((pool.filter fun tx => B.contains gb.bloom_filter (GetFullHash H tx)).map
            (GetShortHash H G block.header nonce)).toFinset ∧
        onlyReceiver.keys = ((pool.filter fun tx => B.contains gb.bloom_filter (GetFullHash H tx)).map
            (GetShortHash H G block.header nonce)).toFinset \
          (rest.map (GetShortHash H G block.header nonce)).toFinset) :
    ∃ gb r, CreateGrapheneBlock H G B block nonce bloom (IBLT.make numEntries numHashes) =
        .ok (some gb) ∧
      GrapheneBlockReconstructor.create H G B gb pool fuel = some (.ok r) ∧
      r.state = .HAS_ALL_TXS ∧ ReconstructLTOR H r = .ok block := by
  rw [hvtx, List.map_cons, List.nodup_cons] at hblockShort
  have hrestNodup : rest.Nodup := hblockShort.2.of_map _
  -- the sender fills the filter and the IBLT with the transactions after the coinbase
  obtain ⟨iblt, hadd, hlenIblt, hnIblt⟩ := addBlockTxs_ok H G B block.header nonce rest ∅ bloom
    (IBLT.make numEntries numHashes) hvalid (by simpa using hentries) hblockShort.2 (by simp)
  let gb : GrapheneBlock F :=
    ⟨block.header, nonce, rest.foldl (fun f tx => B.insert f (GetFullHash H tx)) bloom, iblt, [coinbase]⟩
  have hgb : CreateGrapheneBlock H G B block nonce bloom (IBLT.make numEntries numHashes) =
      .ok (some gb) := by
    simp only [CreateGrapheneBlock, hvtx, hcoinbase, Bool.not_true, Bool.false_eq_true, if_false,
      hadd, Except.ok_bind, Option.map_some]
    rfl
  -- the receiver enumerates its pool into an IBLT of the same shape
  have hclone : gb.iblt.CloneEmpty = .ok (IBLT.make numEntries numHashes) := by
    have hvalidIblt : iblt.IsValid = true := by
      rw [IBLT.IsValid_of_shape hlenIblt hnIblt]
      exact hvalid
    rw [IBLT.CloneEmpty_of_valid hvalidIblt, hlenIblt, hnIblt, IBLT.length_make]
    rfl
  obtain ⟨receiverIblt, henum, hlenR, hnR⟩ := enumeratePool_ok H G B gb pool []
    (IBLT.make numEntries numHashes) hvalid (by simpa using hentries) hpoolShort (by simp)
  rw [List.nil_append] at henum
  set candidates := (pool.filter fun tx => B.contains gb.bloom_filter (GetFullHash H tx)).map
    fun tx => (GetShortHash H G gb.header gb.nonce tx, tx)
  have hsub : ∃ diff, gb.iblt.sub receiverIblt = .ok diff :=
    IBLT.sub_ok_of_shape (hlenR.trans hlenIblt.symm) (hnR.trans hnIblt.symm)
  obtain ⟨diff, hsub⟩ := hsub
  obtain ⟨onlySender, onlyReceiver, hlist, hsender, hreceiver⟩ :=
    hdecode gb hgb _ _ henum diff hsub
  -- every block transaction is in the pool and the filter matches it
  have hmatched : ∀ tx ∈ rest, B.contains gb.bloom_filter (GetFullHash H tx) = true :=
    fun tx htx => contains_foldl_insert B hB (GetFullHash H) rest bloom _ (.inr ⟨tx, htx, rfl⟩)
  have hkeys : onlySender.keys = ∅ := by
    rw [hsender, Finset.sdiff_eq_empty_iff_subset]
    intro s hs
    obtain ⟨tx, htx, rfl⟩ := List.mem_map.mp (List.mem_toFinset.mp hs)
    exact List.mem_toFinset.mpr (List.mem_map_of_mem (List.mem_filter.mpr ⟨hpool tx htx, hmatched tx htx⟩))
  have hperm := decoded_perm hpool hmatched (hpoolShort.of_map _) hrestNodup
    (fun x hx y hy => hcross x (hvtx ▸ List.mem_cons_of_mem coinbase hx) y hy) hreceiver
  refine ⟨gb, decodeCandidates gb candidates onlySender onlyReceiver, hgb, ?_, by simp [hkeys], ?_⟩
  · simp only [GrapheneBlockReconstructor.create, hclone, Except.ok_bind, henum, hsub, hlist,
      Option.map_some, Except.map, if_true]
  · -- the coinbase stays first and the decoded transactions are sorted back into place
    have hprefilled : (decodeCandidates gb candidates onlySender onlyReceiver).prefilledTxs =
        [coinbase] := rfl
    have hdecoded : (decodeCandidates gb candidates onlySender onlyReceiver).decodedTxs.Perm rest :=
      hperm
    simp only [ReconstructLTOR, decodeCandidates_state, hkeys, if_true, ne_eq, not_true_eq_false,
      if_false, hprefilled, List.singleton_append, swapFirstCoinbase_of_coinbase hcoinbase,
      List.cons_ne_nil, SortTransactions_of_perm H coinbase hdecoded hsorted, ← hvtx]
    rfl

end Reconstruction

def setFilter : BloomFilterOps (List GrapheneFullHash) :=
  ⟨fun f h => h :: f, fun f h => f.contains h⟩

theorem setFilter_NoFalseNegatives : NoFalseNegatives setFilter := by
  intro f h h' hfound
  simp only [setFilter, List.contains_cons, Bool.or_eq_true, beq_iff_eq]
  rcases hfound with hold | rfl
  · exact .inr hold
  · exact .inl rfl

def outputCountHashes : BlockHashes :=
  ⟨fun tx => BitVec.ofNat 256 tx.vout.length, fun tx => BitVec.ofNat 256 tx.vout.length, fun _ _ => 0⟩

def truncatingHashes : GrapheneHashes := ⟨fun _ _ => 0, fun _ _ h => h.setWidth 64⟩

def coinbaseTx : CTransaction := ⟨.COINBASE, [], []⟩

def oneOutputTx : CTransaction := ⟨.REGULAR, [], [⟨1, []⟩]⟩

def twoOutputTx : CTransaction := ⟨.REGULAR, [], [⟨1, []⟩, ⟨1, []⟩]⟩

def twoTxBlock : CBlock := ⟨⟨0, 0, 0, 0⟩, [coinbaseTx, oneOutputTx]⟩

def oneKeyIblt : GrapheneIblt := ⟨[⟨1, 1, 0, []⟩], 1⟩

/-- The sender's and the receiver's IBLTs agree, and decoding their difference finds
nothing on either side. -/
theorem twoTxBlock_decodes : ∀ gb,
    CreateGrapheneBlock outputCountHashes truncatingHashes setFilter twoTxBlock 0 [] (IBLT.make 1 1) =
      .ok (some gb) →
    ∀ candidates receiverIblt,
      enumeratePool outputCountHashes truncatingHashes setFilter gb [twoOutputTx, oneOutputTx] []
        (IBLT.make 1 1) = .ok (some (candidates, receiverIblt)) →
    ∀ diff, gb.iblt.sub receiverIblt = .ok diff →
    ∃ onlySender onlyReceiver,
      diff.ListEntries 0 truncatingHashes.ComputeHash ∅ ∅ 1 =
        some (.ok (true, onlySender, onlyReceiver)) ∧
      onlySender.keys = ([oneOutputTx].map
          (GetShortHash outputCountHashes truncatingHashes twoTxBlock.header 0)).toFinset \
        (([twoOutputTx, oneOutputTx].filter
            fun tx => setFilter.contains gb.bloom_filter (GetFullHash outputCountHashes tx)).map
          (GetShortHash outputCountHashes truncatingHashes twoTxBlock.header 0)).toFinset ∧
      onlyReceiver.keys = (([twoOutputTx, oneOutputTx].filter
            fun tx => setFilter.contains gb.bloom_filter (GetFullHash outputCountHashes tx)).map
          (GetShortHash outputCountHashes truncatingHashes twoTxBlock.header 0)).toFinset \
        ([oneOutputTx].map (GetShortHash outputCountHashes truncatingHashes twoTxBlock.header 0)).toFinset := by
  intro gb hgb candidates receiverIblt henum diff hsub
  have hcreate : CreateGrapheneBlock outputCountHashes truncatingHashes setFilter twoTxBlock 0 []
      (IBLT.make 1 1) = .ok (some ⟨twoTxBlock.header, 0, [1], oneKeyIblt, [coinbaseTx]⟩) := rfl
  rw [hcreate] at hgb
  cases hgb
  -- the filter matches `oneOutputTx` only
  have henum' : enumeratePool outputCountHashes truncatingHashes setFilter
      ⟨twoTxBlock.header, 0, [1], oneKeyIblt, [coinbaseTx]⟩ [twoOutputTx, oneOutputTx] []
      (IBLT.make 1 1) = .ok (some ([(1, oneOutputTx)], oneKeyIblt)) := rfl
  rw [henum'] at henum
  cases henum
  have hsub' : oneKeyIblt.sub oneKeyIblt = .ok (IBLT.make 1 1) := by decide
  rw [hsub'] at hsub
  cases hsub
  exact ⟨∅, ∅, IBLT.ListEntries_make 0 _ (by decide) ∅ ∅ 0, by decide, by decide⟩

theorem graphene_reconstructs_block_twoTx :
    NoFalseNegatives setFilter ∧
      ∃ gb r, CreateGrapheneBlock outputCountHashes truncatingHashes setFilter twoTxBlock 0 []
          (IBLT.make 1 1) = .ok (some gb) ∧
        GrapheneBlockReconstructor.create outputCountHashes truncatingHashes setFilter gb
          [twoOutputTx, oneOutputTx] 1 = some (.ok r) ∧
        r.state = .HAS_ALL_TXS ∧ ReconstructLTOR outputCountHashes r = .ok twoTxBlock :=
  ⟨setFilter_NoFalseNegatives, graphene_reconstructs_block setFilter_NoFalseNegatives twoTxBlock 0 []
    [twoOutputTx, oneOutputTx] rfl rfl (List.pairwise_singleton _ _) (by decide) (by decide)
    (by decide) (by decide) (by decide) (by decide) 1 twoTxBlock_decodes⟩

def emptyFilter : BloomFilterOps Unit := ⟨fun f _ => f, fun _ _ => false⟩

def constantHashes : BlockHashes := ⟨fun _ => 0, fun _ => 0, fun _ _ => 0⟩

def constantGrapheneHashes : GrapheneHashes := ⟨fun _ _ => 0, fun _ _ _ => 0⟩

theorem graphene_empty_block_aborts_witness :
    (IBLT.make 1 1 : GrapheneIblt).IsValid = true ∧
    OnGrapheneBlockReceived constantHashes constantGrapheneHashes emptyFilter true (fun _ => true)
      ⟨⟨0, 0, 0, 0⟩, 0, (), IBLT.make 1 1, []⟩ [⟨.REGULAR, [], []⟩] 1 = some (.error .assertion) :=
  ⟨by decide, (graphene_empty_block_aborts constantHashes constantGrapheneHashes emptyFilter
    (fun _ => true) ⟨⟨0, 0, 0, 0⟩, 0, (), IBLT.make 1 1, []⟩ [⟨.REGULAR, [], []⟩] rfl (by decide)
    rfl (fun _ _ => rfl) rfl 0).2.2⟩

end UnitE
