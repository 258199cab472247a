import UnitE.Spec.Block
import UnitE.Spec.Iblt

/-! Graphene block relay (`p2p/graphene.cpp`, `p2p/graphene_receiver.cpp`): the sender
prefills the coinbase and summarises the other transactions by a bloom filter of their full
hashes and an IBLT of their short hashes; the receiver takes the pool transactions the filter
matches, decodes the difference of the two IBLTs, and rebuilds the block in LTOR order. The
bloom filter is a value of any type with its `insert` and `contains`; its sizes, like the
other parameters that `OptimizeGrapheneBlockParams` computes in floating point, are not
modelled: the sender starts from the empty filter and the empty IBLT they give. -/

namespace UnitE

abbrev GrapheneShortHash := BitVec 64

abbrev GrapheneFullHash := Uint256

/-- `GrapheneIblt`, `IBLT<GrapheneShortHash, 0>`. -/
abbrev GrapheneIblt := IBLT 64

/-- `CBloomFilter::insert` and `CBloomFilter::contains` on filters of type `F`. -/
structure BloomFilterOps (F : Type) where
  insert : F → GrapheneFullHash → F
  contains : F → GrapheneFullHash → Bool

/-- The keyed hashes of graphene: `MurmurHash3` of the IBLT, and `SipHashUint256` under the
keys `GrapheneHasher` derives from a header and a nonce. -/
structure GrapheneHashes where
  ComputeHash : UInt32 → GrapheneShortHash → UInt32
  SipHashUint256 : CBlockHeader → UInt64 → GrapheneFullHash → GrapheneShortHash

structure GrapheneBlock (F : Type) where
  header : CBlockHeader
  nonce : UInt64
  bloom_filter : F
  iblt : GrapheneIblt
  prefilled_transactions : List CTransaction

inductive GrapheneDecodeState
  | HAS_ALL_TXS
  | CANT_DECODE_IBLT
  | NEED_MORE_TXS
  deriving DecidableEq, Repr

/-- `GrapheneBlockReconstructor`; the hasher is that of its header and nonce. -/
structure GrapheneBlockReconstructor where
  header : CBlockHeader
  nonce : UInt64
  prefilledTxs : List CTransaction
  decodedTxs : List CTransaction
  missingShortTxHashes : Finset GrapheneShortHash
  state : GrapheneDecodeState

namespace ltor

/-- `ltor::SortTransactions`: all but the first transaction in increasing order of their
ids, unless there are at most two. -/
def SortTransactions (H : BlockHashes) : List CTransaction → List CTransaction
  | first :: rest =>
    if rest.length ≤ 1 then first :: rest
    else first :: rest.mergeSort (fun a b => (H.GetHash a).toNat ≤ (H.GetHash b).toNat)
  | [] => []

end ltor

variable (H : BlockHashes) (G : GrapheneHashes) {F : Type} (B : BloomFilterOps F)

/-- `GrapheneHasher::GetFullHash`: the witness hash. -/
def GetFullHash (tx : CTransaction) : GrapheneFullHash := H.GetWitnessHash tx

/-- `GrapheneHasher::GetShortHash` of a transaction, for the hasher of a header and nonce. -/
def GetShortHash (header : CBlockHeader) (nonce : UInt64) (tx : CTransaction) : GrapheneShortHash :=
  G.SipHashUint256 header nonce (GetFullHash H tx)

/-- The loop of `CreateGrapheneBlock` over the transactions after the coinbase: each goes
into the filter and the IBLT, unless its short hash was seen (`none`). -/
def addBlockTxs (header : CBlockHeader) (nonce : UInt64) :
    List CTransaction → Finset GrapheneShortHash → F → GrapheneIblt →
      Fallible (Option (F × GrapheneIblt))
  | [], _, bloom, iblt => pure (some (bloom, iblt))
  | tx :: txs, seen, bloom, iblt =>
    let shortHash := GetShortHash H G header nonce tx
    if shortHash ∈ seen then pure none
    else do
      let iblt' ← iblt.Insert 0 G.ComputeHash shortHash []
      addBlockTxs header nonce txs (insert shortHash seen) (B.insert bloom (GetFullHash H tx)) iblt'

/-- `CreateGrapheneBlock`, from the empty filter and IBLT its parameters size: the coinbase
is prefilled, and a short hash collision gives no graphene block. -/
def CreateGrapheneBlock (block : CBlock) (nonce : UInt64) (bloom : F) (iblt : GrapheneIblt) :
    Fallible (Option (GrapheneBlock F)) :=
  match block.vtx with
  | [] => .error .assertion
  | coinbase :: txs =>
    if !coinbase.IsCoinBase then .error .assertion
    else do
      let filled ← addBlockTxs H G B block.header nonce txs ∅ bloom iblt
      pure (filled.map fun (bloom', iblt') => ⟨block.header, nonce, bloom', iblt', [coinbase]⟩)

/-- The pool enumeration of the reconstructor: the transactions the filter matches become
candidates by short hash and go into the receiver's IBLT; a second candidate with the same
short hash stops it (`none`). -/
def enumeratePool (gb : GrapheneBlock F) :
    List CTransaction → List (GrapheneShortHash × CTransaction) → GrapheneIblt →
      Fallible (Option (List (GrapheneShortHash × CTransaction) × GrapheneIblt))
  | [], candidates, receiverIblt => pure (some (candidates, receiverIblt))
  | tx :: txs, candidates, receiverIblt =>
    let shortHash := GetShortHash H G gb.header gb.nonce tx
    if !B.contains gb.bloom_filter (GetFullHash H tx) then
      enumeratePool gb txs candidates receiverIblt
    else if candidates.any (·.1 == shortHash) then pure none
    else do
      let receiverIblt' ← receiverIblt.Insert 0 G.ComputeHash shortHash []
      enumeratePool gb txs (candidates ++ [(shortHash, tx)]) receiverIblt'

/-- The reconstructor before decoding, in its initial state `CANT_DECODE_IBLT`. -/
def GrapheneBlockReconstructor.initial (gb : GrapheneBlock F) : GrapheneBlockReconstructor :=
  ⟨gb.header, gb.nonce, gb.prefilled_transactions, [], ∅, .CANT_DECODE_IBLT⟩

/-- The decoding step of the constructor: the receiver-only short hashes leave the
candidates, the sender-only ones are missing. The candidates are kept in pool order, one of
the orders the source's `unordered_map` may give. -/
def decodeCandidates (gb : GrapheneBlock F) (candidates : List (GrapheneShortHash × CTransaction))
    (onlySender onlyReceiver : TEntriesMap 64) : GrapheneBlockReconstructor :=
  let decoded := (candidates.filter fun c => c.1 ∉ onlyReceiver).map (·.2)
  { GrapheneBlockReconstructor.initial gb with
    decodedTxs := decoded
    missingShortTxHashes := onlySender.keys
    state := if onlySender.keys = ∅ then .HAS_ALL_TXS else .NEED_MORE_TXS }

/-- `GrapheneBlockReconstructor(graphene_block, tx_pool)`, with fuel for `ListEntries`. -/
def GrapheneBlockReconstructor.create (gb : GrapheneBlock F) (txs : List CTransaction)
    (fuel : Nat) : Option (Fallible GrapheneBlockReconstructor) :=
  match gb.iblt.CloneEmpty >>= enumeratePool H G B gb txs [] with
  | .error e => some (.error e)
  | .ok none => some (.ok (GrapheneBlockReconstructor.initial gb))
  | .ok (some (candidates, receiverIblt)) =>
    match gb.iblt.sub receiverIblt with
    | .error e => some (.error e)
    | .ok ibltDiff =>
      (ibltDiff.ListEntries 0 G.ComputeHash ∅ ∅ fuel).map fun result => result.map
        fun (reconciled, onlySender, onlyReceiver) =>
          if reconciled then decodeCandidates gb candidates onlySender onlyReceiver
          else GrapheneBlockReconstructor.initial gb

/-- The loop of `ReconstructLTOR` that swaps the first coinbase to the front. -/
def swapFirstCoinbase (vtx : List CTransaction) : List CTransaction :=
  match vtx.findIdx? CTransaction.IsCoinBase, vtx.head? with
  | some i, some first => (vtx.set 0 (vtx.getD i first)).set i first
  | _, _ => vtx

def ReconstructLTOR (r : GrapheneBlockReconstructor) : Fallible CBlock :=
  if r.state ≠ .HAS_ALL_TXS then .error .assertion
  else
    let vtx := swapFirstCoinbase (r.prefilledTxs ++ r.decodedTxs)
    if vtx = [] then .error .assertion
    else .ok ⟨r.header, ltor.SortTransactions H vtx⟩

def AddMissingTxs (r : GrapheneBlockReconstructor) (txs : List CTransaction) :
    Fallible GrapheneBlockReconstructor :=
  if r.state ≠ .NEED_MORE_TXS then .error .assertion
  else
    let r' := txs.foldl (fun r tx =>
      let shortHash := GetShortHash H G r.header r.nonce tx
      if shortHash ∈ r.missingShortTxHashes then
        { r with decodedTxs := r.decodedTxs ++ [tx],
                 missingShortTxHashes := r.missingShortTxHashes.erase shortHash }
      else r) r
    .ok (if r'.missingShortTxHashes = ∅ then { r' with state := .HAS_ALL_TXS } else r')

theorem enumeratePool_of_no_match (gb : GrapheneBlock F) :
    ∀ {txs : List CTransaction}, (∀ tx ∈ txs, B.contains gb.bloom_filter (GetFullHash H tx) = false) →
      ∀ candidates receiverIblt,
        enumeratePool H G B gb txs candidates receiverIblt = .ok (some (candidates, receiverIblt))
  | [], _, _, _ => rfl
  | tx :: txs, hnone, candidates, receiverIblt => by
    have htx := hnone tx List.mem_cons_self
    rw [enumeratePool, if_pos (by simp [htx])]
    exact enumeratePool_of_no_match gb (fun tx' h => hnone tx' (List.mem_cons_of_mem tx h))
      candidates receiverIblt

/-- A graphene block whose IBLT has only empty buckets, against a pool the filter does not
match, decodes to nothing missing and nothing decoded. -/
theorem create_of_no_match {gb : GrapheneBlock F} {txs : List CTransaction} {numEntries : Nat}
    {numHashes : UInt8} (hiblt : gb.iblt = IBLT.make numEntries numHashes)
    (hvalid : (IBLT.make numEntries numHashes : GrapheneIblt).IsValid = true)
    (hnone : ∀ tx ∈ txs, B.contains gb.bloom_filter (GetFullHash H tx) = false) (fuel : Nat) :
    GrapheneBlockReconstructor.create H G B gb txs (fuel + 1) =
      some (.ok (decodeCandidates gb [] ∅ ∅)) := by
  have hclone : (IBLT.make numEntries numHashes : GrapheneIblt).CloneEmpty =
      .ok (IBLT.make numEntries numHashes) := by
    rw [IBLT.CloneEmpty_of_valid hvalid, IBLT.length_make]
    rfl
  simp only [GrapheneBlockReconstructor.create, hiblt, hclone, Except.ok_bind,
    enumeratePool_of_no_match H G B gb hnone, IBLT.sub_make_self,
    IBLT.ListEntries_make 0 G.ComputeHash hvalid, Option.map_some]
  rfl

@[simp] theorem decodeCandidates_state (gb : GrapheneBlock F)
    (candidates : List (GrapheneShortHash × CTransaction)) (onlySender onlyReceiver : TEntriesMap 64) :
    (decodeCandidates gb candidates onlySender onlyReceiver).state =
      if onlySender.keys = ∅ then .HAS_ALL_TXS else .NEED_MORE_TXS := rfl

/-- With nothing prefilled and nothing decoded, `ReconstructLTOR` assembles no transaction
and its assertion fails. -/
theorem ReconstructLTOR_of_nil {r : GrapheneBlockReconstructor} (hstate : r.state = .HAS_ALL_TXS)
    (hprefilled : r.prefilledTxs = []) (hdecoded : r.decodedTxs = []) :
    ReconstructLTOR H r = .error .assertion := by
  simp [ReconstructLTOR, hstate, hprefilled, hdecoded, swapFirstCoinbase]

/-- The property of `CBloomFilter` the reconstruction relies on: an inserted hash is found,
and so is every hash found before. -/
def NoFalseNegatives (B : BloomFilterOps F) : Prop :=
  ∀ f h h', B.contains f h' = true ∨ h' = h → B.contains (B.insert f h) h' = true

theorem contains_foldl_insert (hB : NoFalseNegatives B) (g : CTransaction → GrapheneFullHash) :
    ∀ (txs : List CTransaction) (bloom : F) (h : GrapheneFullHash),
      (B.contains bloom h = true ∨ ∃ tx ∈ txs, g tx = h) →
        B.contains (txs.foldl (fun f tx => B.insert f (g tx)) bloom) h = true
  | [], _, _, hfound => by simpa using hfound
  | tx :: txs, bloom, h, hfound => by
    apply contains_foldl_insert hB g txs (B.insert bloom (g tx)) h
    rcases hfound with hold | ⟨tx', htx', hg⟩
    · exact .inl (hB bloom (g tx) h (.inl hold))
    · rcases List.mem_cons.mp htx' with rfl | htx'
      · exact .inl (hB bloom (g tx') h (.inr hg.symm))
      · exact .inr ⟨tx', htx', hg⟩

/-- `CreateGrapheneBlock`'s loop over transactions with distinct short hashes, into a valid
IBLT with buckets, puts every full hash into the filter and keeps the IBLT's shape. -/
theorem addBlockTxs_ok (header : CBlockHeader) (nonce : UInt64) :
    ∀ (txs : List CTransaction) (seen : Finset GrapheneShortHash) (bloom : F) (iblt : GrapheneIblt),
      iblt.IsValid = true → 0 < iblt.hashTable.length →
      (txs.map (GetShortHash H G header nonce)).Nodup →
      (∀ tx ∈ txs, GetShortHash H G header nonce tx ∉ seen) →
      ∃ iblt', addBlockTxs H G B header nonce txs seen bloom iblt =
          .ok (some (txs.foldl (fun f tx => B.insert f (GetFullHash H tx)) bloom, iblt')) ∧
        iblt'.hashTable.length = iblt.hashTable.length ∧ iblt'.numHashes = iblt.numHashes
  | [], _, bloom, iblt, _, _, _, _ => ⟨iblt, rfl, rfl, rfl⟩
  | tx :: txs, seen, bloom, iblt, hvalid, hlen, hnodup, hseen => by
    rw [List.map_cons, List.nodup_cons] at hnodup
    have hnotin : GetShortHash H G header nonce tx ∉ seen := hseen tx List.mem_cons_self
    have hins : ∃ t', iblt.Insert 0 G.ComputeHash (GetShortHash H G header nonce tx) [] = .ok t' ∧
        t'.hashTable.length = iblt.hashTable.length ∧ t'.numHashes = iblt.numHashes :=
      IBLT.Update_ok_of_valid 0 G.ComputeHash hvalid hlen rfl
    obtain ⟨iblt₁, hins, hlen₁, hn₁⟩ := hins
    have hseen₁ : ∀ tx' ∈ txs,
        GetShortHash H G header nonce tx' ∉ insert (GetShortHash H G header nonce tx) seen := by
      intro tx' htx'
      have hne : GetShortHash H G header nonce tx' ≠ GetShortHash H G header nonce tx :=
        fun heq => hnodup.1 (heq ▸ List.mem_map_of_mem htx')
      simp [hne, hseen tx' (List.mem_cons_of_mem tx htx')]
    obtain ⟨iblt', hrest, hlen', hn'⟩ := addBlockTxs_ok header nonce txs _
      (B.insert bloom (GetFullHash H tx)) iblt₁ (by rw [IBLT.IsValid_of_shape hlen₁ hn₁]; exact hvalid)
      (hlen₁ ▸ hlen) hnodup.2 hseen₁
    refine ⟨iblt', ?_, hlen'.trans hlen₁, hn'.trans hn₁⟩
    simp only [addBlockTxs, if_neg hnotin, hins, Except.ok_bind, hrest, List.foldl_cons]

/-- The pool enumeration over transactions with distinct short hashes, none of them a
candidate already, into a valid IBLT with buckets: the matched transactions become
candidates in pool order, and the IBLT keeps its shape. -/
theorem enumeratePool_ok (gb : GrapheneBlock F) :
    ∀ (txs : List CTransaction) (candidates : List (GrapheneShortHash × CTransaction))
      (receiverIblt : GrapheneIblt),
      receiverIblt.IsValid = true → 0 < receiverIblt.hashTable.length →
      (txs.map (GetShortHash H G gb.header gb.nonce)).Nodup →
      (∀ c ∈ candidates, ∀ tx ∈ txs, c.1 ≠ GetShortHash H G gb.header gb.nonce tx) →
      ∃ iblt', enumeratePool H G B gb txs candidates receiverIblt =
          .ok (some (candidates ++ (txs.filter fun tx => B.contains gb.bloom_filter (GetFullHash H tx)).map
            (fun tx => (GetShortHash H G gb.header gb.nonce tx, tx)), iblt')) ∧
        iblt'.hashTable.length = receiverIblt.hashTable.length ∧
        iblt'.numHashes = receiverIblt.numHashes
  | [], candidates, receiverIblt, _, _, _, _ => ⟨receiverIblt, by simp [enumeratePool], rfl, rfl⟩
  | tx :: txs, candidates, receiverIblt, hvalid, hlen, hnodup, hfresh => by
    rw [List.map_cons, List.nodup_cons] at hnodup
    have hfresh' : ∀ c ∈ candidates, ∀ tx' ∈ txs, c.1 ≠ GetShortHash H G gb.header gb.nonce tx' :=
      fun c hc tx' htx' => hfresh c hc tx' (List.mem_cons_of_mem tx htx')
    by_cases hmatch : B.contains gb.bloom_filter (GetFullHash H tx) = true
    · -- a matched transaction is a new candidate and goes into the receiver's IBLT
      have hnew : candidates.any (·.1 == GetShortHash H G gb.header gb.nonce tx) = false := by
        simpa using fun c hc => hfresh c hc tx List.mem_cons_self
      have hins : ∃ t', receiverIblt.Insert 0 G.ComputeHash
            (GetShortHash H G gb.header gb.nonce tx) [] = .ok t' ∧
          t'.hashTable.length = receiverIblt.hashTable.length ∧
          t'.numHashes = receiverIblt.numHashes :=
        IBLT.Update_ok_of_valid 0 G.ComputeHash hvalid hlen rfl
      obtain ⟨iblt₁, hins, hlen₁, hn₁⟩ := hins
      have hfresh₁ : ∀ c ∈ candidates ++ [(GetShortHash H G gb.header gb.nonce tx, tx)],
          ∀ tx' ∈ txs, c.1 ≠ GetShortHash H G gb.header gb.nonce tx' := by
        intro c hc tx' htx'
        rcases List.mem_append.mp hc with hc | hc
        · exact hfresh' c hc tx' htx'
        · rw [List.mem_singleton.mp hc]
          exact fun heq => hnodup.1 (List.mem_map.mpr ⟨tx', htx', heq.symm⟩)
      obtain ⟨iblt', hrest, hlen', hn'⟩ := enumeratePool_ok gb txs _ iblt₁
        (by rw [IBLT.IsValid_of_shape hlen₁ hn₁]; exact hvalid) (hlen₁ ▸ hlen) hnodup.2 hfresh₁
      refine ⟨iblt', ?_, hlen'.trans hlen₁, hn'.trans hn₁⟩
      simp only [enumeratePool, hmatch, Bool.not_true, Bool.false_eq_true, hnew, hins,
        Except.ok_bind, hrest, List.filter_cons, ↓reduceIte, List.map_cons, List.append_assoc,
        List.singleton_append]
    · -- an unmatched transaction is skipped
      have hskip : B.contains gb.bloom_filter (GetFullHash H tx) = false := by simpa using hmatch
      obtain ⟨iblt', hrest, hlen', hn'⟩ :=
        enumeratePool_ok gb txs candidates receiverIblt hvalid hlen hnodup.2 hfresh'
      refine ⟨iblt', ?_, hlen', hn'⟩
      simp only [enumeratePool, hskip, Bool.not_false, hrest, List.filter_cons,
        Bool.false_eq_true, ↓reduceIte]

theorem swapFirstCoinbase_of_coinbase {first : CTransaction} (hfirst : first.IsCoinBase = true)
    (rest : List CTransaction) : swapFirstCoinbase (first :: rest) = first :: rest := by
  simp [swapFirstCoinbase, List.findIdx?_cons, hfirst]

theorem pairwise_lt_of_perm {l rest : List CTransaction} (hperm : l.Perm rest)
    (hle : l.Pairwise fun a b => (H.GetHash a).toNat ≤ (H.GetHash b).toNat)
    (hsorted : rest.Pairwise fun a b => (H.GetHash a).toNat < (H.GetHash b).toNat) :
    l.Pairwise fun a b => (H.GetHash a).toNat < (H.GetHash b).toNat := by
  have hnodup : (rest.map fun tx => (H.GetHash tx).toNat).Nodup :=
    List.pairwise_map.mpr (hsorted.imp Nat.ne_of_lt)
  have hnodup' : (l.map fun tx => (H.GetHash tx).toNat).Nodup :=
    (hperm.map _).nodup_iff.mpr hnodup
  rw [List.Nodup, List.pairwise_map] at hnodup'
  exact (hle.and hnodup').imp fun h => Nat.lt_of_le_of_ne h.1 h.2

theorem SortTransactions_of_perm (first : CTransaction) {decoded rest : List CTransaction}
    (hperm : decoded.Perm rest)
    (hsorted : rest.Pairwise fun a b => (H.GetHash a).toNat < (H.GetHash b).toNat) :
    ltor.SortTransactions H (first :: decoded) = first :: rest := by
  -- two lists sorted by `<` of ids that are permutations of each other are equal
  have heq : ∀ l : List CTransaction, l.Perm rest →
      (l.Pairwise fun a b => (H.GetHash a).toNat < (H.GetHash b).toNat) → l = rest :=
    fun l hl hs => hl.eq_of_pairwise (fun _ _ _ _ hab hba => absurd hba (Nat.lt_asymm hab)) hs hsorted
  simp only [ltor.SortTransactions]
  split_ifs with hlen
  · -- at most one transaction after the first: nothing to sort
    have hpair : decoded.Pairwise fun a b => (H.GetHash a).toNat < (H.GetHash b).toNat := by
      match decoded, hlen with
      | [], _ => exact List.Pairwise.nil
      | [_], _ => exact List.pairwise_singleton _ _
    rw [heq decoded hperm hpair]
  · -- the merge sort orders by id, and ids are distinct
    let le := fun a b : CTransaction => decide ((H.GetHash a).toNat ≤ (H.GetHash b).toNat)
    have hsortedLe : (decoded.mergeSort le).Pairwise fun a b => le a b = true :=
      List.pairwise_mergeSort (fun a b c hab hbc => by simp only [le, decide_eq_true_eq] at *; omega)
        (fun a b => by simp only [le, Bool.or_eq_true, decide_eq_true_eq]; omega) decoded
    have hpermSorted : (decoded.mergeSort le).Perm rest := (List.mergeSort_perm decoded le).trans hperm
    rw [heq _ hpermSorted (pairwise_lt_of_perm H hpermSorted (by simpa [le] using hsortedLe) hsorted)]

/-- What the receiver does with a graphene block or its missing transactions. -/
inductive GrapheneOutcome
  | ignored
  | rejected
  | fallback
  | requestTxs (reconstructor : GrapheneBlockReconstructor)
  | submit (block : CBlock)

/-- `ReconstructAndSubmitBlock`: a rebuilt block whose merkle root is right is submitted. -/
def ReconstructAndSubmitBlock (r : GrapheneBlockReconstructor) : Fallible GrapheneOutcome := do
  let block ← ReconstructLTOR H r
  let (merkleRoot, mutated) := BlockMerkleRoot H block
  pure (if !mutated && block.header.hashMerkleRoot == merkleRoot then .submit block else .fallback)

/-- `OnGrapheneBlockReceived` for a block requested from the peer (`requested`), with the
verdict of `AcceptBlockHeader` and the transactions of the pool. -/
def OnGrapheneBlockReceived (requested : Bool) (AcceptBlockHeader : CBlockHeader → Bool)
    (gb : GrapheneBlock F) (txs : List CTransaction) (fuel : Nat) :
    Option (Fallible GrapheneOutcome) :=
  if !requested then some (.ok .ignored)
  else if !gb.iblt.IsValid then some (.ok .rejected)
  else if !AcceptBlockHeader gb.header then some (.ok .rejected)
  else (GrapheneBlockReconstructor.create H G B gb txs fuel).map fun result => do
    let r ← result
    match r.state with
    | .CANT_DECODE_IBLT => pure .fallback
    | .NEED_MORE_TXS => pure (.requestTxs r)
    | .HAS_ALL_TXS => ReconstructAndSubmitBlock H r

/-- `OnGrapheneTxReceived` for the reconstructor kept when the missing transactions were
requested. -/
def OnGrapheneTxReceived (r : GrapheneBlockReconstructor) (txs : List CTransaction) :
    Fallible GrapheneOutcome := do
  let r' ← AddMissingTxs H G r txs
  if r'.state ≠ .HAS_ALL_TXS then pure .fallback
  else ReconstructAndSubmitBlock H r'

end UnitE
