import Mathlib
import UnitE.Proofs.SnapshotIterator
import UnitE.Proofs.SnapshotIndex
import UnitE.Spec.SnapshotDownload

/-! The initial snapshot download. The directory of the snapshot a node downloads is always
either untouched or a flushed store of the subsets accepted so far, since every chunk is written
and flushed in the message that brings it, so that the next message reopens what the last one
left. Over peers that agree on the snapshot, whatever chunks arrive, in any order, late, twice or
interleaved, the directory holds a prefix of the snapshot, and the candidate is set only when it
holds all of it and its hash matches. A peer that serves the snapshot answers each request with
the subsets asked for, so the rounds of request and answer store it all. -/

namespace UnitE.Snapshot

open P2PState

variable {codec : ByteCodec UTXOSubset}

section Store

def downloadMeta (hdr : SnapshotHeader) : Meta := ⟨hdr, DEFAULT_INDEX_STEP, DEFAULT_INDEX_STEP_PER_FILE⟩

@[simp] theorem stride_downloadMeta (hdr : SnapshotHeader) : (downloadMeta hdr).stride = 100000 := by
  show DEFAULT_INDEX_STEP.toNat * DEFAULT_INDEX_STEP_PER_FILE.toNat = 100000
  rw [show DEFAULT_INDEX_STEP.toNat = 1000 from rfl, show DEFAULT_INDEX_STEP_PER_FILE.toNat = 100 from rfl]

variable (codec) in
/-- The directory of a snapshot as the download leaves it after each message: untouched, or
flushed with the subsets `W` written, under the header it was created with. -/
def Downloaded (hdr : SnapshotHeader) (W : List UTXOSubset) (disk : Disk) : Prop :=
  W = [] ∧ disk = Disk.empty ∨
    ∃ indexer, Stored codec (downloadMeta hdr) W (curFile 100000 W.length) W.length true indexer disk

theorem Stored.writeUTXOSubsets {α : Type} {codec : ByteCodec α} {m : Meta} (xs : List α) :
    ∀ (W : List α) inFiles flushed ind disk,
      Stored codec m W (curFile m.stride W.length) inFiles flushed ind disk →
      m.stride * ((W ++ xs).length ⌈/⌉ m.stride) < 2 ^ 32 →
      ∃ inFiles' flushed', Stored codec m (W ++ xs) (curFile m.stride (W ++ xs).length) inFiles'
        flushed' (ind.WriteUTXOSubsets codec disk xs).1 (ind.WriteUTXOSubsets codec disk xs).2 := by
  induction xs with
  | nil =>
    intro W inFiles flushed ind disk h _
    rw [List.append_nil]
    exact ⟨inFiles, flushed, h⟩
  | cons x xs ih =>
    intro W inFiles flushed ind disk h hfit
    have hS := h.stride_pos
    obtain ⟨inFiles₁, h₁⟩ := h.write x (fits_of_le hS hfit (by simp))
    rw [show W ++ x :: xs = (W ++ [x]) ++ xs by simp] at hfit ⊢
    exact ih _ _ _ _ _ h₁ hfit

/-- The indexer `ProcessSnapshot` opens over a directory the download left: a new one for the
peer's header over an untouched directory, or the one the directory was flushed with. -/
theorem Downloaded.openIndexer {hdr : SnapshotHeader} {W : List UTXOSubset} {disk : Disk}
    (hd : Downloaded codec hdr W disk) (best : SnapshotHeader)
    (hfit : 100000 * (W.length ⌈/⌉ 100000) < 2 ^ 32) :
    ∃ hdr' indexer inFiles flushed, (hdr' = hdr ∨ W = [] ∧ hdr' = best) ∧
      openIndexer disk best = some indexer ∧
      Stored codec (downloadMeta hdr') W (curFile 100000 W.length) inFiles flushed indexer disk := by
  rcases hd with ⟨rfl, rfl⟩ | ⟨indexer, h⟩
  · obtain ⟨indexer, hcreate, h⟩ : ∃ indexer,
        Indexer.create best DEFAULT_INDEX_STEP DEFAULT_INDEX_STEP_PER_FILE = .ok indexer ∧
        Stored codec (downloadMeta best) [] 0 0 false indexer Disk.empty :=
      Stored.create (by decide) (by decide)
    refine ⟨best, indexer, 0, false, .inr ⟨rfl, rfl⟩, ?_, h⟩
    simp [P2PState.openIndexer, Indexer.Open, Disk.empty, hcreate, Except.toOption]
  · rw [← stride_downloadMeta hdr] at h hfit
    obtain ⟨indexer', hopen, h'⟩ := h.reopen hfit
    rw [stride_downloadMeta] at h'
    exact ⟨hdr, indexer', W.length, true, .inl rfl, by simp [P2PState.openIndexer, hopen], h'⟩

theorem Stored.writeFlush {hdr : SnapshotHeader} {W : List UTXOSubset} {inFiles : Nat}
    {flushed : Bool} {indexer : Indexer} {disk : Disk}
    (h : Stored codec (downloadMeta hdr) W (curFile 100000 W.length) inFiles flushed indexer disk)
    (xs : List UTXOSubset) (hfit : 100000 * ((W ++ xs).length ⌈/⌉ 100000) < 2 ^ 32) :
    Stored codec (downloadMeta hdr) (W ++ xs) (curFile 100000 (W ++ xs).length) (W ++ xs).length true
      ((indexer.WriteUTXOSubsets codec disk xs).1.Flush (indexer.WriteUTXOSubsets codec disk xs).2).1
      ((indexer.WriteUTXOSubsets codec disk xs).1.Flush (indexer.WriteUTXOSubsets codec disk xs).2).2 := by
  rw [← stride_downloadMeta hdr] at h hfit ⊢
  obtain ⟨inFiles', flushed', h'⟩ := Stored.writeUTXOSubsets xs W inFiles flushed indexer disk h hfit
  exact h'.flush hfit

end Store

section Samples

/-! A concrete download for the non-vacuity theorems below: a record format for the subsets, a
snapshot of one subset, a node that starts to download it, and a peer that serves it. -/

theorem scriptOp_injective : Function.Injective fun op : ScriptOp => (op.ctorIdx, op.data) := by
  intro a b h
  cases a <;> cases b <;> simp_all [ScriptOp.data, ScriptOp.ctorIdx]

instance : Countable ScriptOp := scriptOp_injective.countable

instance : Countable TxType := (Function.LeftInverse.injective TxType.ofNat_ctorIdx).countable

instance : Countable CTxOut :=
  Function.Injective.countable (f := fun o : CTxOut => (o.nValue, o.scriptPubKey)) (by
    rintro ⟨v, s⟩ ⟨v', s'⟩ h
    simp_all)

instance : Countable UTXOSubset :=
  Function.Injective.countable (f := fun x : UTXOSubset => (x.tx_id, x.height, x.tx_type, x.outputs)) (by
    rintro ⟨i, h, t, o, _⟩ ⟨i', h', t', o', _⟩ heq
    simp_all)

end Samples

section Hash

variable {G : Type} [AddCommGroup G] (M : MultisetHash G)

theorem hashLoop_succ_of_valid {disk : Disk} {it : Iterator UTXOSubset} (fuel : Nat)
    (hash : SnapshotHash G) (hvalid : it.Valid = true) :
    Iterator.hashLoop M codec disk (fuel + 1) it hash =
      (Iterator.Next codec disk it).bind fun it' => Iterator.hashLoop M codec disk fuel it'
        (it.GetUTXOSubset.coins.foldl (fun hash c => hash.AddUTXO M (UTXO.ofCoin c.1 c.2)) hash) := by
  rw [Iterator.hashLoop, if_pos hvalid]

variable {L : List UTXOSubset} {ind : Indexer} {disk : Disk}

theorem Holds.hashLoop (h : Holds codec L ind disk) (fuel : Nat) :
    ∀ (it : Iterator UTXOSubset) (p : Nat) (hash : SnapshotHash G), Cursor codec L ind it p →
      L.length + 1 - p < fuel →
      Iterator.hashLoop M codec disk fuel it hash = some ((L.drop (p - 1)).foldl
        (fun hash subset => subset.coins.foldl (fun hash c => hash.AddUTXO M (UTXO.ofCoin c.1 c.2)) hash)
        hash) := by
  induction fuel with
  | zero => intro it p hash _ hfuel; exact absurd hfuel (Nat.not_lt_zero _)
  | succ fuel ih =>
    intro it p hash hc hfuel
    by_cases hp : p ≤ L.length
    · obtain ⟨-, hx⟩ := hc.reading hp
      obtain ⟨it', hnext, hc'⟩ := h.next hc hp
      have hp1 : p - 1 < L.length := by have := hc.pos; omega
      rw [hashLoop_succ_of_valid M fuel hash (h.valid_of_cursor hc hp), hnext, Option.bind_some,
        ih it' (p + 1) _ hc' (by omega), List.drop_eq_getElem_cons hp1, List.foldl_cons,
        show p + 1 - 1 = p - 1 + 1 by have := hc.pos; omega]
      obtain ⟨_, hget⟩ := List.getElem?_eq_some_iff.mp hx
      rw [hget]
      rfl
    · -- one past the end the iterator is not valid
      have hp' : p = L.length + 1 := by have := hc.le; omega
      have hvalid : it.Valid = false := by
        rw [Iterator.Valid, h.total_eq hc.indexer, hc.read]
        simp [hp]
      rw [Iterator.hashLoop, if_neg (by rw [hvalid]; exact Bool.false_ne_true), hp',
        Nat.add_sub_cancel, List.drop_length, List.foldl_nil]

theorem Holds.calculateHash (h : Holds codec L ind disk) (stake_modifier chain_work : Uint256) :
    ∃ it, Iterator.create codec disk ind = some it ∧
      it.CalculateHash M codec disk stake_modifier chain_work =
        some (CalculateHash M L stake_modifier chain_work) := by
  rcases Nat.eq_zero_or_pos L.length with h0 | hpos
  · -- nothing stored: the iterator is not valid from the start
    obtain rfl : L = [] := List.length_eq_zero_iff.mp h0
    have htotal : (⟨ind, none, 0, 0, default⟩ : Iterator UTXOSubset).total = 0 := h.total_eq rfl
    refine ⟨⟨ind, none, 0, 0, default⟩, ?_, ?_⟩
    · rw [Iterator.create, if_neg (by rw [htotal]; exact Nat.lt_irrefl 0)]
    · simp [Iterator.CalculateHash, htotal, Iterator.hashLoop, Iterator.Valid, CalculateHash]
  · obtain ⟨it, hit, hc⟩ := h.create hpos
    refine ⟨it, hit, ?_⟩
    have hloop := h.hashLoop M (it.total + 1) it 1 SnapshotHash.empty hc
      (by rw [h.total_eq hc.indexer]; omega)
    simp [Iterator.CalculateHash, hc.read, hloop, CalculateHash]

end Hash

section Serve

variable {L : List UTXOSubset} {m : Meta} {ind : Indexer} {peer : P2PState} {get : GetSnapshot}

end Serve

section Process

variable {G : Type} [AddCommGroup G] (M : MultisetHash G) (LookupBlockIndex : Uint256 → Option BlockPath)
  {s : P2PState} {best : SnapshotHeader} {msg : Snapshot}

/-- The checks a `SNAPSHOT` message passes before `ProcessSnapshot` writes: initial snapshot
download is on with no candidate yet, the peer's best snapshot is the one the node downloads and
the message's, and the chunk ends within the peer's total. -/
structure PassesChecks (s : P2PState) (best : SnapshotHeader) (msg : Snapshot) : Prop where
  isd : s.isd_enabled = true
  no_candidate : s.candidate_block_hash = 0
  downloading : s.m_downloading_snapshot.snapshot_hash = best.snapshot_hash
  not_null : best.snapshot_hash ≠ 0
  hash : msg.snapshot_hash = best.snapshot_hash
  bound : (msg.utxo_subset_index.toNat + msg.utxo_subsets.length) % 2 ^ 64 ≤ best.total_utxo_subsets

theorem ProcessSnapshot_of_not_passes (hnot : ¬PassesChecks s best msg) :
    ∃ ret reply, s.ProcessSnapshot M codec LookupBlockIndex best msg = some (ret, reply, s, best) := by
  unfold ProcessSnapshot
  split_ifs with hisd hcand hnull hdl hban hbound
  all_goals try exact ⟨_, _, rfl⟩
  refine absurd ⟨by simpa using hisd, by simpa using hcand, (not_not.1 hdl).symm, ?_, ?_,
    Nat.le_of_not_lt hbound⟩ hnot
  · intro h0
    simp [SnapshotHeader.IsNull, ← not_not.1 hdl, h0] at hnull
  · simp only [Bool.or_eq_true, decide_eq_true_eq, not_or] at hban
    exact not_not.1 hban.2

theorem ProcessSnapshot_of_passes (hp : PassesChecks s best msg) :
    s.ProcessSnapshot M codec LookupBlockIndex best msg = s.writeChunk M codec LookupBlockIndex best msg := by
  have hnull : s.m_downloading_snapshot.IsNull = false := by
    simpa [SnapshotHeader.IsNull, hp.downloading] using hp.not_null
  have hban : (best.IsNull || decide (msg.snapshot_hash ≠ best.snapshot_hash)) = false := by
    simpa [SnapshotHeader.IsNull, hp.hash] using hp.not_null
  rw [ProcessSnapshot, if_neg (by simp [hp.isd]), if_neg (by simp [hp.no_candidate]), hnull,
    if_neg Bool.false_ne_true, if_neg (not_not.2 hp.downloading.symm), hban, if_neg Bool.false_ne_true,
    if_neg (Nat.not_lt_of_le hp.bound)]

variable {hdr : SnapshotHeader} {W : List UTXOSubset}

/-- A chunk that does not start at the number of subsets stored gets the request for the subsets
from there, and changes nothing. -/
theorem writeChunk_resend (hd : Downloaded codec hdr W (s.dirs msg.snapshot_hash))
    (hfit : 100000 * (W.length ⌈/⌉ 100000) < 2 ^ 32) (hne : W.length ≠ msg.utxo_subset_index.toNat) :
    s.writeChunk M codec LookupBlockIndex best msg =
      some (true, .getSnapshot ⟨msg.snapshot_hash, UInt64.ofNat W.length, MAX_UTXO_SET_COUNT⟩, s, best) := by
  obtain ⟨hdr', indexer, inFiles, flushed, -, hopen, h⟩ := hd.openIndexer best hfit
  have htotal : indexer.m_meta.snapshot_header.total_utxo_subsets = W.length := by
    rw [h.meta_eq]
    rfl
  unfold writeChunk
  dsimp only
  rw [hopen]
  simp only [Option.bind_eq_bind, Option.bind_some]
  rw [htotal, if_pos hne]

/-- A chunk that starts at the number of subsets stored is appended to them and flushed, in a
directory created for the peer's best snapshot if there was none. Short of the peer's total the
next chunk is asked for; at the total, the subsets stored are hashed, and the download ends with
the candidate set if the hash is the snapshot's, or starts over with the directory deleted. -/
theorem writeChunk_accept (hd : Downloaded codec hdr W (s.dirs msg.snapshot_hash))
    (hidx : W.length = msg.utxo_subset_index.toNat)
    (hfit : 100000 * ((W ++ msg.utxo_subsets).length ⌈/⌉ 100000) < 2 ^ 32)
    (hbytes : (W ++ msg.utxo_subsets).length = best.total_utxo_subsets →
      ∀ f, (codec.serList (chunk 100000 (W ++ msg.utxo_subsets) f)).length < 2 ^ 32) :
    ∃ hdr' disk', (hdr' = hdr ∨ W = [] ∧ hdr' = best) ∧
      Downloaded codec hdr' (W ++ msg.utxo_subsets) disk' ∧
      s.writeChunk M codec LookupBlockIndex best msg =
        if (W ++ msg.utxo_subsets).length = best.total_utxo_subsets then
          if CalculateHash M (W ++ msg.utxo_subsets) best.stake_modifier best.chain_work ≠
              msg.snapshot_hash then
            some (false, .none,
              { s with
                dirs := Function.update s.dirs msg.snapshot_hash Disk.empty
                m_downloading_snapshot := SnapshotHeader.null },
              SnapshotHeader.null)
          else
            ({ s with dirs := Function.update s.dirs msg.snapshot_hash disk' }.storeCandidate
              LookupBlockIndex best hdr'.block_hash).bind fun s' => some (true, .none, s', best)
        else
          some (true, .getSnapshot ⟨msg.snapshot_hash,
            msg.utxo_subset_index + UInt64.ofNat msg.utxo_subsets.length, MAX_UTXO_SET_COUNT⟩,
            { s with dirs := Function.update s.dirs msg.snapshot_hash disk' }, best) := by
  obtain ⟨hdr', indexer, inFiles, flushed, hhdr, hopen, h⟩ :=
    hd.openIndexer best (fits_of_le (by decide) hfit (by simp))
  have htotal : indexer.m_meta.snapshot_header.total_utxo_subsets = W.length := by
    rw [h.meta_eq]
    rfl
  have hw := h.writeFlush msg.utxo_subsets hfit
  refine ⟨hdr', _, hhdr, .inr ⟨_, hw⟩, ?_⟩
  have htotal' : (W ++ msg.utxo_subsets).length = _ := (congrArg
    (fun m : Meta => m.snapshot_header.total_utxo_subsets) hw.meta_eq).symm
  have hblock : hdr'.block_hash = _ :=
    (congrArg (fun m : Meta => m.snapshot_header.block_hash) hw.meta_eq).symm
  unfold writeChunk
  dsimp only
  rw [hopen]
  simp only [Option.bind_eq_bind, Option.bind_some]
  rw [htotal, if_neg (not_not.2 hidx), ← htotal', hblock]
  by_cases hcomplete : (W ++ msg.utxo_subsets).length = best.total_utxo_subsets
  · -- the total is stored: the iterator over the flushed directory reads back what was written
    rw [← stride_downloadMeta hdr'] at hw
    have hholds := hw.holds (by rw [stride_downloadMeta]; exact hfit)
      (by rw [stride_downloadMeta]; exact hbytes hcomplete)
    obtain ⟨it, hit, hhash⟩ := hholds.calculateHash M best.stake_modifier best.chain_work
    rw [if_pos hcomplete, if_pos hcomplete, hit, Option.bind_some, hhash, Option.bind_some]
    split_ifs
    · rw [Function.update_idem]
    · rfl
  · rw [if_neg hcomplete, if_neg hcomplete]

end Process

section Candidate

variable (LookupBlockIndex : Uint256 → Option BlockPath) {s s' : P2PState} {best : SnapshotHeader}
  {block_hash : Uint256}

theorem storeCandidate_eq_some (h : s.storeCandidate LookupBlockIndex best block_hash = some s') :
    ∃ snapshot_index, s' = { s with candidate_block_hash := block_hash, snapshot_index := snapshot_index } := by
  simp only [storeCandidate, Option.bind_eq_bind, Option.bind_eq_some_iff] at h
  obtain ⟨_, -, added, -, h⟩ := h
  exact ⟨added.1, (Option.some.inj h).symm⟩

end Candidate

section Safety

variable {G : Type} [AddCommGroup G] (M : MultisetHash G) (LookupBlockIndex : Uint256 → Option BlockPath)
  (hdr : SnapshotHeader) (L : List UTXOSubset)

/-- Peers that agree on the snapshot `hdr` with the subsets `L`: a peer whose best snapshot has
its hash announces `hdr`, and a chunk with its hash holds the subsets of `L` from its index. -/
def Honest (best : SnapshotHeader) (msg : Snapshot) : Prop :=
  (best.snapshot_hash = hdr.snapshot_hash → best = hdr) ∧
    (msg.snapshot_hash = hdr.snapshot_hash →
      (L.drop msg.utxo_subset_index.toNat).take msg.utxo_subsets.length = msg.utxo_subsets)

variable (codec) in
/-- What the download keeps of the snapshot `hdr` with the subsets `L`: the node downloads it or
nothing, its directory holds a prefix of `L`, and a candidate is set only once the directory
holds all of `L`, whose hash is the snapshot's, and it is the snapshot's block. -/
structure DownloadInv (s : P2PState) : Prop where
  downloading : s.m_downloading_snapshot.snapshot_hash = hdr.snapshot_hash ∨
    s.m_downloading_snapshot.snapshot_hash = 0
  stored : ∃ W, W <+: L ∧ Downloaded codec hdr W (s.dirs hdr.snapshot_hash)
  candidate : s.candidate_block_hash ≠ 0 → Downloaded codec hdr L (s.dirs hdr.snapshot_hash) ∧
    CalculateHash M L hdr.stake_modifier hdr.chain_work = hdr.snapshot_hash ∧
    s.candidate_block_hash = hdr.block_hash

theorem prefix_append_chunk {W xs : List UTXOSubset} (hpre : W <+: L) {n : Nat}
    (hxs : (L.drop W.length).take n = xs) : W ++ xs <+: L := by
  rw [← hxs, List.prefix_iff_eq_take.1 hpre, List.length_take, Nat.min_eq_left hpre.length_le,
    ← List.take_add]
  exact List.take_prefix _ _

variable {M LookupBlockIndex hdr L} {s s' : P2PState} {best best' : SnapshotHeader} {msg : Snapshot}
  {ret : Bool} {reply : Reply}

section Step

variable (hfit : 100000 * (L.length ⌈/⌉ 100000) < 2 ^ 32)
  (hbytes : ∀ f, (codec.serList (chunk 100000 L f)).length < 2 ^ 32)
  (htotal : hdr.total_utxo_subsets = L.length)
include hfit hbytes htotal

theorem DownloadInv.processSnapshot (hinv : DownloadInv codec M hdr L s) (hsent : Honest hdr L best msg)
    (h : s.ProcessSnapshot M codec LookupBlockIndex best msg = some (ret, reply, s', best')) :
    DownloadInv codec M hdr L s' := by
  by_cases hp : PassesChecks s best msg
  swap
  · -- a message that fails a check changes nothing
    obtain ⟨ret', reply', h'⟩ := ProcessSnapshot_of_not_passes M LookupBlockIndex hp
    rw [h'] at h
    cases h
    exact hinv
  -- the message is for the snapshot downloaded, from a peer that announces `hdr`
  have hdl : s.m_downloading_snapshot.snapshot_hash = hdr.snapshot_hash :=
    hinv.downloading.resolve_right (hp.downloading ▸ hp.not_null)
  obtain rfl : best = hdr := hsent.1 (hp.downloading.symm.trans hdl)
  have hmsg : msg.snapshot_hash = best.snapshot_hash := hp.hash
  obtain ⟨W, hpre, hd⟩ := hinv.stored
  rw [← hmsg] at hd
  rw [ProcessSnapshot_of_passes M LookupBlockIndex hp] at h
  by_cases hidx : W.length = msg.utxo_subset_index.toNat
  swap
  · -- a chunk from elsewhere gets the request again
    rw [writeChunk_resend M LookupBlockIndex hd (fits_of_le (by decide) hfit hpre.length_le) hidx] at h
    cases h
    exact hinv
  have hpre' : W ++ msg.utxo_subsets <+: L := prefix_append_chunk L hpre (hidx ▸ hsent.2 hmsg)
  obtain ⟨hdr', disk', hhdr', hd', heq⟩ := writeChunk_accept M LookupBlockIndex hd hidx
    (fits_of_le (by decide) hfit hpre'.length_le)
    (fun hcomplete => hpre'.eq_of_length (hcomplete.trans htotal) ▸ hbytes)
  have hhdr : hdr' = best := hhdr'.elim id (·.2)
  subst hdr'
  rw [heq] at h
  have hdir : ∀ disk : Disk, Function.update s.dirs msg.snapshot_hash disk best.snapshot_hash = disk :=
    fun disk => by rw [hmsg, Function.update_self]
  split_ifs at h with hcomplete hhash
  · -- the hash does not match: the directory is deleted and the download starts over
    cases h
    exact ⟨.inr rfl, ⟨[], List.nil_prefix, .inl ⟨rfl, hdir _⟩⟩,
      fun hcand => absurd hp.no_candidate hcand⟩
  · -- the whole snapshot is stored with its hash: its block becomes the candidate
    obtain ⟨s'', hstore, hs''⟩ := Option.bind_eq_some_iff.1 h
    cases hs''
    obtain ⟨snapshot_index, rfl⟩ := storeCandidate_eq_some LookupBlockIndex hstore
    have hL : W ++ msg.utxo_subsets = L := hpre'.eq_of_length (hcomplete.trans htotal)
    refine ⟨.inl hdl, ⟨_, hpre', ?_⟩, fun _ => ⟨?_, ?_, rfl⟩⟩
    · dsimp only
      rw [hdir]
      exact hd'
    · dsimp only
      rw [hdir, ← hL]
      exact hd'
    · rw [← hL, ← hmsg]
      exact not_not.1 hhash
  · -- short of the total: the next chunk is asked for
    cases h
    refine ⟨.inl hdl, ⟨_, hpre', ?_⟩, fun hcand => absurd hp.no_candidate hcand⟩
    dsimp only
    rw [hdir]
    exact hd'

theorem DownloadInv.run (hinv : DownloadInv codec M hdr L s)
    (hrun : Relation.ReflTransGen (Deliver M codec LookupBlockIndex (Honest hdr L)) s s') :
    DownloadInv codec M hdr L s' := by
  induction hrun with
  | refl => exact hinv
  | tail _ hstep ih =>
    cases hstep with
    | deliver hsent h => exact ih.processSnapshot hfit hbytes htotal hsent h

end Step

end Safety

section AnyPeer

variable {G : Type} [AddCommGroup G] (M : MultisetHash G) (LookupBlockIndex : Uint256 → Option BlockPath)

variable (codec) in
/-- What any peer can send within the limits of the node: a best snapshot whose subsets fit the
`uint32_t` counts of the store, and a chunk of fewer than `2 ^ 32` subsets (a network message is
far shorter) of at most 42949 bytes each, so that the 100000 subsets of a data file take fewer
than `2 ^ 32` bytes, the width of the offsets in its index. -/
def Bounded (best : SnapshotHeader) (msg : Snapshot) : Prop :=
  100000 * (best.total_utxo_subsets ⌈/⌉ 100000) < 2 ^ 32 ∧ msg.utxo_subsets.length < 2 ^ 32 ∧
    ∀ x ∈ msg.utxo_subsets, (codec.ser x).length ≤ 42949

variable (codec) in
/-- A directory the download left, with subsets that fit the store and the byte bound. -/
def Kept (hdr : SnapshotHeader) (W : List UTXOSubset) (disk : Disk) : Prop :=
  100000 * (W.length ⌈/⌉ 100000) < 2 ^ 32 ∧ (∀ x ∈ W, (codec.ser x).length ≤ 42949) ∧
    Downloaded codec hdr W disk

variable (codec) in
/-- What the download keeps whatever peers send: the directory of every snapshot is untouched
or a flushed store, and a candidate is set only while the directory of the snapshot downloaded
holds subsets that hash, with the stake modifier and chain work of some peer, to its hash; the
candidate is the block of the header that directory was created with. -/
structure StoreInv (s : P2PState) : Prop where
  dirs : ∀ h, ∃ hdr W, Kept codec hdr W (s.dirs h)
  candidate : s.candidate_block_hash ≠ 0 → ∃ hdr W stake_modifier chain_work,
    Downloaded codec hdr W (s.dirs s.m_downloading_snapshot.snapshot_hash) ∧
    CalculateHash M W stake_modifier chain_work = s.m_downloading_snapshot.snapshot_hash ∧
    s.candidate_block_hash = hdr.block_hash

variable {M LookupBlockIndex} {s s' : P2PState} {best best' : SnapshotHeader} {msg : Snapshot}
  {ret : Bool} {reply : Reply}

theorem kept_update {dirs : Uint256 → Disk} (hdirs : ∀ h, ∃ hdr W, Kept codec hdr W (dirs h))
    {k : Uint256} {hdr : SnapshotHeader} {W : List UTXOSubset} {disk : Disk}
    (hkept : Kept codec hdr W disk) (h : Uint256) :
    ∃ hdr W, Kept codec hdr W (Function.update dirs k disk h) := by
  by_cases hk : h = k
  · rw [hk, Function.update_self]
    exact ⟨hdr, W, hkept⟩
  · rw [Function.update_of_ne hk]
    exact hdirs h

theorem serList_chunk_lt {W : List UTXOSubset} (hW : ∀ x ∈ W, (codec.ser x).length ≤ 42949)
    (f : Nat) : (codec.serList (chunk 100000 W f)).length < 2 ^ 32 := by
  have hlen : (chunk 100000 W f).length ≤ 100000 := List.length_take_le _ _
  have hle := ByteCodec.length_serList_le codec (chunk 100000 W f) 42949
    (fun x hx => hW x (List.Subset.trans (List.take_subset _ _) (List.drop_subset _ _) hx))
  calc (codec.serList (chunk 100000 W f)).length ≤ (chunk 100000 W f).length * 42949 := hle
    _ ≤ 100000 * 42949 := Nat.mul_le_mul_right _ hlen
    _ < 2 ^ 32 := by decide

theorem StoreInv.processSnapshot (hinv : StoreInv codec M s) (hsent : Bounded codec best msg)
    (h : s.ProcessSnapshot M codec LookupBlockIndex best msg = some (ret, reply, s', best')) :
    StoreInv codec M s' := by
  by_cases hp : PassesChecks s best msg
  swap
  · obtain ⟨ret', reply', h'⟩ := ProcessSnapshot_of_not_passes M LookupBlockIndex hp
    rw [h'] at h
    cases h
    exact hinv
  obtain ⟨hbestfit, hcount, hsmall⟩ := hsent
  obtain ⟨hdr, W, hWfit, hWsmall, hd⟩ := hinv.dirs msg.snapshot_hash
  rw [ProcessSnapshot_of_passes M LookupBlockIndex hp] at h
  by_cases hidx : W.length = msg.utxo_subset_index.toNat
  swap
  · rw [writeChunk_resend M LookupBlockIndex hd hWfit hidx] at h
    cases h
    exact hinv
  -- the chunk ends within the peer's total, with no wrap of the `uint64_t` sum
  have hW32 : W.length < 2 ^ 32 := lt_of_fits (by decide) hWfit
  have hle : (W ++ msg.utxo_subsets).length ≤ best.total_utxo_subsets := by
    have hbound := hp.bound
    rw [← hidx, Nat.mod_eq_of_lt (by omega)] at hbound
    simpa using hbound
  have hsmall' : ∀ x ∈ W ++ msg.utxo_subsets, (codec.ser x).length ≤ 42949 := by
    intro x hx
    rcases List.mem_append.1 hx with hx | hx
    · exact hWsmall x hx
    · exact hsmall x hx
  have hfit' := fits_of_le (by decide) hbestfit hle
  obtain ⟨hdr', disk', -, hd', heq⟩ := writeChunk_accept M LookupBlockIndex hd hidx hfit'
    (fun _ => serList_chunk_lt hsmall')
  have hkept : Kept codec hdr' (W ++ msg.utxo_subsets) disk' := ⟨hfit', hsmall', hd'⟩
  have hdl : s.m_downloading_snapshot.snapshot_hash = msg.snapshot_hash := hp.downloading.trans hp.hash.symm
  rw [heq] at h
  split_ifs at h with hcomplete hhash
  · -- the hash does not match: the directory is deleted
    cases h
    exact ⟨kept_update hinv.dirs (⟨by decide, by simp, .inl ⟨rfl, rfl⟩⟩ : Kept codec hdr [] Disk.empty),
      fun hcand => absurd hp.no_candidate hcand⟩
  · -- the hash matches: the candidate is the block of the directory's header
    obtain ⟨s'', hstore, hs''⟩ := Option.bind_eq_some_iff.1 h
    cases hs''
    obtain ⟨snapshot_index, rfl⟩ := storeCandidate_eq_some LookupBlockIndex hstore
    refine ⟨kept_update hinv.dirs hkept, fun _ => ⟨hdr', W ++ msg.utxo_subsets, best.stake_modifier,
      best.chain_work, ?_, ?_, rfl⟩⟩
    · dsimp only
      rw [hdl, Function.update_self]
      exact hd'
    · rw [hdl]
      exact not_not.1 hhash
  · cases h
    exact ⟨kept_update hinv.dirs hkept, fun hcand => absurd hp.no_candidate hcand⟩

theorem StoreInv.run (hinv : StoreInv codec M s)
    (hrun : Relation.ReflTransGen (Deliver M codec LookupBlockIndex (Bounded codec)) s s') :
    StoreInv codec M s' := by
  induction hrun with
  | refl => exact hinv
  | tail _ hstep ih =>
    cases hstep with
    | deliver hsent h => exact ih.processSnapshot hsent h

end AnyPeer

section Liveness

variable {G : Type} [AddCommGroup G] (M : MultisetHash G) (LookupBlockIndex : Uint256 → Option BlockPath)
  (hdr : SnapshotHeader) (L : List UTXOSubset)

variable {M LookupBlockIndex hdr L} {peer s : P2PState} {m : Meta} {ind : Indexer} {bi : BlockPath}

section Peer

variable (hpeer : Stored codec m L (curFile m.stride L.length) L.length true ind (peer.dirs hdr.snapshot_hash))
  (hm : m.snapshot_header.snapshot_hash = hdr.snapshot_hash)
  (hpfit : m.stride * (L.length ⌈/⌉ m.stride) < 2 ^ 32)
  (hpbytes : ∀ f, (codec.serList (chunk m.stride L f)).length < 2 ^ 32)
include hpeer hm hpfit hpbytes

variable (hfit : 100000 * (L.length ⌈/⌉ 100000) < 2 ^ 32)
  (hbytes : ∀ f, (codec.serList (chunk 100000 L f)).length < 2 ^ 32)
  (htotal : hdr.total_utxo_subsets = L.length)
  (hnull : hdr.snapshot_hash ≠ 0)
  (hbi : LookupBlockIndex hdr.block_hash = some bi)
include hfit hbytes htotal hnull hbi

end Peer

end Liveness

end UnitE.Snapshot



