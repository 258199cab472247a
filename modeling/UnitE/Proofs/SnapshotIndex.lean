import UnitE.Lib.Except
import UnitE.Lib.TreeMap
import UnitE.Spec.SnapshotIndex

/-! The invariant of the snapshot index over every run of its operations. Every operation
keeps at most `m_max_snapshots` entries, each under its own height, so that `SanityCheck`
never fails; every hash that leaves the index goes to the set of snapshots for removal, which
only `ConfirmRemoved` and `DeleteSnapshotHash` shrink; and a checkpoint added above every
height pushes out none of the `m_min_finalized_snapshots` highest finalized ones. -/

namespace UnitE.Snapshot

namespace SnapshotIndex

variable {s s₁ s₂ : SnapshotIndex} {k : Nat} {cp : Checkpoint}

def HasHash (s : SnapshotIndex) (h : Uint256) : Prop :=
  ∃ k : Nat, ∃ cp : Checkpoint, s.m_index_map[k]? = some cp ∧ cp.snapshot_hash = h

/-- What `AddSnapshotHash` and `FinalizeSnapshots` may do: the limits stay, the set of
snapshots for removal only grows, and a hash that leaves the index is in it. -/
structure Evicts (s s' : SnapshotIndex) : Prop where
  max_eq : s'.m_max_snapshots = s.m_max_snapshots
  min_eq : s'.m_min_finalized_snapshots = s.m_min_finalized_snapshots
  removal_sub : s.m_snapshots_for_removal ⊆ s'.m_snapshots_for_removal
  gone : ∀ h, s.HasHash h → ¬s'.HasHash h → h ∈ s'.m_snapshots_for_removal

theorem Evicts.refl (s : SnapshotIndex) : Evicts s s :=
  ⟨rfl, rfl, subset_rfl, fun _ hh hgone => absurd hh hgone⟩

theorem Evicts.trans (h₁ : Evicts s s₁) (h₂ : Evicts s₁ s₂) : Evicts s s₂ := by
  refine ⟨h₂.max_eq.trans h₁.max_eq, h₂.min_eq.trans h₁.min_eq,
    h₁.removal_sub.trans h₂.removal_sub, fun h hh hgone => ?_⟩
  by_cases hmid : s₁.HasHash h
  · exact h₂.gone h hmid hgone
  · exact h₂.removal_sub (h₁.gone h hh hmid)

def Heights (s : SnapshotIndex) : Prop :=
  ∀ k (cp : Checkpoint), s.m_index_map[k]? = some cp → cp.height = k

/-- The invariant `SanityCheck` asserts: at most `m_max_snapshots` entries, each under its own
height. The order of the heights is the map's. -/
structure Wf (s : SnapshotIndex) : Prop where
  size_le : s.m_index_map.size ≤ s.m_max_snapshots.toNat
  heights : Heights s

@[simp] theorem evict_m_index_map : (s.evict k cp).m_index_map = s.m_index_map.erase k := rfl

@[simp] theorem evict_m_snapshots_for_removal :
    (s.evict k cp).m_snapshots_for_removal = insert cp.snapshot_hash s.m_snapshots_for_removal :=
  rfl

@[simp] theorem evict_m_max_snapshots : (s.evict k cp).m_max_snapshots = s.m_max_snapshots := rfl

@[simp] theorem evict_m_min_finalized_snapshots :
    (s.evict k cp).m_min_finalized_snapshots = s.m_min_finalized_snapshots := rfl

theorem evict_evicts (hk : s.m_index_map[k]? = some cp) : Evicts s (s.evict k cp) := by
  refine ⟨rfl, rfl, Finset.subset_insert _ _, ?_⟩
  rintro h ⟨k', cp', hk', rfl⟩ hgone
  by_cases hkk : k = k'
  · subst hkk
    rw [hk] at hk'
    cases hk'
    exact Finset.mem_insert_self _ _
  · refine absurd ⟨k', cp', ?_, rfl⟩ hgone
    rw [evict_m_index_map, Std.TreeMap.getElem?_erase, if_neg (by simpa using hkk)]
    exact hk'

theorem insert_evicts {v : Checkpoint}
    (hk : ∀ cp, s.m_index_map[k]? = some cp → cp.snapshot_hash = v.snapshot_hash) :
    Evicts s { s with m_index_map := s.m_index_map.insert k v } := by
  refine ⟨rfl, rfl, subset_rfl, ?_⟩
  rintro h ⟨k', cp', hk', rfl⟩ hgone
  by_cases hkk : k = k'
  · subst hkk
    refine absurd ⟨k, v, ?_, (hk cp' hk').symm⟩ hgone
    exact Std.TreeMap.getElem?_insert_self
  · refine absurd ⟨k', cp', ?_, rfl⟩ hgone
    rw [Std.TreeMap.getElem?_insert, if_neg (by simpa using hkk)]
    exact hk'

theorem Heights.evict (hh : Heights s) : Heights (s.evict k cp) := by
  intro k' cp' hk'
  rw [evict_m_index_map, Std.TreeMap.getElem?_erase] at hk'
  split at hk'
  · cases hk'
  · exact hh k' cp' hk'

theorem Heights.insert (hh : Heights s) {v : Checkpoint} (hv : v.height = k) :
    Heights { s with m_index_map := s.m_index_map.insert k v } := by
  intro k' cp' hk'
  rw [Std.TreeMap.getElem?_insert] at hk'
  split at hk'
  · next hkk =>
    cases hk'
    rw [hv]
    simpa using hkk
  · exact hh k' cp' hk'

theorem Wf.evict (hw : Wf s) : Wf (s.evict k cp) :=
  ⟨Std.TreeMap.size_erase_le.trans hw.size_le, hw.heights.evict⟩

theorem size_evict (hk : s.m_index_map[k]? = some cp) :
    (s.evict k cp).m_index_map.size + 1 = s.m_index_map.size := by
  have hmem : k ∈ s.m_index_map := Std.TreeMap.mem_iff_isSome_getElem?.2 (by simp [hk])
  have hpos : 0 < s.m_index_map.size := by
    rw [← Std.TreeMap.length_toList]
    exact List.length_pos_of_mem (Std.TreeMap.mem_toList_iff_getElem?_eq_some.2 hk)
  rw [evict_m_index_map, Std.TreeMap.size_erase, if_pos (Std.TreeMap.contains_iff_mem.2 hmem)]
  omega

theorem getElem?_of_mem_toList {p : Nat × Checkpoint} (hp : p ∈ s.m_index_map.toList) :
    s.m_index_map[p.1]? = some p.2 :=
  Std.TreeMap.mem_toList_iff_getElem?_eq_some.1 hp

/-- What `RemoveLowest` does: nothing at or below the limit; above it, it pushes out one entry,
which is not finalized or is the lowest while more than `m_min_finalized_snapshots` entries are
finalized, or it finds none to push out, every entry being finalized. -/
theorem RemoveLowest_cases (s : SnapshotIndex) :
    (s.m_index_map.size ≤ s.m_max_snapshots.toNat ∧ s.RemoveLowest = s) ∨
    (s.m_max_snapshots.toNat < s.m_index_map.size ∧ ∃ (k : Nat) (cp : Checkpoint),
      s.m_index_map[k]? = some cp ∧ s.RemoveLowest = s.evict k cp ∧
      (cp.finalized = false ∨ (s.m_index_map.toList.head? = some (k, cp) ∧
        s.m_min_finalized_snapshots <
          UInt32.ofNat (s.m_index_map.toList.countP (·.2.finalized))))) ∨
    (s.m_max_snapshots.toNat < s.m_index_map.size ∧ s.RemoveLowest = s ∧
      ∀ (k : Nat) (cp : Checkpoint), s.m_index_map[k]? = some cp → cp.finalized = true) := by
  by_cases hle : s.m_index_map.size ≤ s.m_max_snapshots.toNat
  · exact .inl ⟨hle, by simp [RemoveLowest, hle]⟩
  have hgt : s.m_max_snapshots.toNat < s.m_index_map.size := Nat.lt_of_not_le hle
  by_cases hcount : s.m_min_finalized_snapshots <
      UInt32.ofNat (s.m_index_map.toList.countP (·.2.finalized))
  · -- more than the minimum are finalized: the lowest entry goes
    cases hhead : s.m_index_map.toList.head? with
    | none =>
      have hnil : s.m_index_map.toList = [] := List.head?_eq_none_iff.1 hhead
      rw [← Std.TreeMap.length_toList, hnil] at hgt
      exact absurd hgt (Nat.not_lt_zero _)
    | some p =>
      obtain ⟨k, cp⟩ := p
      refine .inr (.inl ⟨hgt, k, cp, getElem?_of_mem_toList (List.mem_of_head? hhead), ?_, ?_⟩)
      · simp [RemoveLowest, hle, hcount, hhead]
      · exact .inr ⟨rfl, hcount⟩
  · -- otherwise the lowest entry that is not finalized goes, if there is one
    cases hfind : s.m_index_map.toList.find? (!·.2.finalized) with
    | none =>
      refine .inr (.inr ⟨hgt, by simp [RemoveLowest, hle, hcount, hfind], fun k cp hk => ?_⟩)
      have hall := List.find?_eq_none.1 hfind (k, cp) (Std.TreeMap.mem_toList_iff_getElem?_eq_some.2 hk)
      simpa using hall
    | some p =>
      obtain ⟨k, cp⟩ := p
      have hmem := List.mem_of_find?_eq_some hfind
      refine .inr (.inl ⟨hgt, k, cp, getElem?_of_mem_toList hmem, ?_, .inl ?_⟩)
      · simp [RemoveLowest, hle, hcount, hfind]
      · simpa using List.find?_some hfind

/-- What `RemoveHighest` does: nothing at or below the limit, and above it it pushes out one
entry. -/
theorem RemoveHighest_cases (s : SnapshotIndex) :
    (s.m_index_map.size ≤ s.m_max_snapshots.toNat ∧ s.RemoveHighest = s) ∨
    (s.m_max_snapshots.toNat < s.m_index_map.size ∧ ∃ (k : Nat) (cp : Checkpoint),
      s.m_index_map[k]? = some cp ∧ s.RemoveHighest = s.evict k cp) := by
  by_cases hle : s.m_index_map.size ≤ s.m_max_snapshots.toNat
  · exact .inl ⟨hle, by simp [RemoveHighest, hle]⟩
  have hgt : s.m_max_snapshots.toNat < s.m_index_map.size := Nat.lt_of_not_le hle
  cases hlast : s.m_index_map.toList.getLast? with
  | none =>
    have hnil : s.m_index_map.toList = [] := List.getLast?_eq_none_iff.1 hlast
    rw [← Std.TreeMap.length_toList, hnil] at hgt
    exact absurd hgt (Nat.not_lt_zero _)
  | some p =>
    obtain ⟨k, cp⟩ := p
    refine .inr ⟨hgt, k, cp, getElem?_of_mem_toList (List.mem_of_getLast? hlast), ?_⟩
    simp [RemoveHighest, hle, hlast]

theorem Wf.sanityCheck (hw : Wf s) : s.SanityCheck = true := by
  have hheights : s.m_index_map.toList.all (fun p => p.1 == p.2.height) = true := by
    rw [List.all_eq_true]
    intro p hp
    rw [hw.heights p.1 p.2 (getElem?_of_mem_toList hp)]
    simp
  have horder : (s.m_index_map.keys.zip s.m_index_map.keys.tail).all
      (fun p => decide (p.1 < p.2)) = true := by
    rw [List.all_eq_true]
    intro p hp
    have hlt := Std.TreeMap.ordered_keys.rel_of_mem_zip_tail hp
    simpa [Nat.compare_eq_lt] using hlt
  simp [SanityCheck, hw.size_le, hheights, horder]

theorem Wf.snapshotsForRemoval (hw : Wf s) :
    s.SnapshotsForRemoval = .ok s.m_snapshots_for_removal := by
  simp [SnapshotsForRemoval, hw.sanityCheck]

theorem RemoveLowest_wf (hh : Heights s)
    (hsize : s.m_index_map.size ≤ s.m_max_snapshots.toNat + 1)
    (hnf : ∃ (k : Nat) (cp : Checkpoint), s.m_index_map[k]? = some cp ∧ cp.finalized = false) :
    Wf s.RemoveLowest ∧ Evicts s s.RemoveLowest := by
  rcases RemoveLowest_cases s with ⟨hle, heq⟩ | ⟨-, k, cp, hk, heq, -⟩ | ⟨-, -, hall⟩
  · rw [heq]
    exact ⟨⟨hle, hh⟩, Evicts.refl s⟩
  · rw [heq]
    have hone := size_evict hk
    exact ⟨⟨by simp only [evict_m_max_snapshots]; omega, hh.evict⟩, evict_evicts hk⟩
  · obtain ⟨k, cp, hk, hfin⟩ := hnf
    rw [hall k cp hk] at hfin
    cases hfin

theorem RemoveHighest_wf (hh : Heights s)
    (hsize : s.m_index_map.size ≤ s.m_max_snapshots.toNat + 1) :
    Wf s.RemoveHighest ∧ Evicts s s.RemoveHighest := by
  rcases RemoveHighest_cases s with ⟨hle, heq⟩ | ⟨-, k, cp, hk, heq⟩
  · rw [heq]
    exact ⟨⟨hle, hh⟩, Evicts.refl s⟩
  · rw [heq]
    have hone := size_evict hk
    exact ⟨⟨by simp only [evict_m_max_snapshots]; omega, hh.evict⟩, evict_evicts hk⟩

theorem one_le_max (s : SnapshotIndex) : 1 ≤ s.m_max_snapshots.toNat := by
  have hpos := UInt32.lt_iff_toNat_lt.1 s.min_pos
  have hlt := UInt32.lt_iff_toNat_lt.1 s.min_lt_max
  rw [UInt32.toNat_zero] at hpos
  omega

/-- What `AddSnapshotHash` does to a well-formed index: the new checkpoint enters it, then some
entries may leave it into the set of snapshots for removal, and the index stays well-formed. -/
theorem addCheckpoint_spec (hw : Wf s) (snapshot_hash : Uint256) (block_index : BlockPath) :
    ∃ s₁, Evicts s s₁ ∧ s₁.HasHash snapshot_hash ∧
      Evicts s₁ (s.addCheckpoint snapshot_hash block_index) ∧
      Wf (s.addCheckpoint snapshot_hash block_index) := by
  dsimp only [addCheckpoint]
  set cp₀ : Checkpoint := ⟨block_index.nHeight, false, snapshot_hash, block_index.GetBlockHash⟩
  have hnew : ∀ t : SnapshotIndex,
      HasHash { t with m_index_map := t.m_index_map.insert block_index.nHeight cp₀ } snapshot_hash :=
    fun t => ⟨_, cp₀, Std.TreeMap.getElem?_insert_self, rfl⟩
  have hone := one_le_max s
  by_cases hempty : s.m_index_map.isEmpty = true
  · -- the first checkpoint
    rw [if_pos hempty]
    have hzero : s.m_index_map.size = 0 := by
      simpa [Std.TreeMap.isEmpty_eq_size_eq_zero] using hempty
    refine ⟨_, insert_evicts (fun cp hcp => ?_), hnew s, Evicts.refl _,
      ⟨?_, hw.heights.insert rfl⟩⟩
    · rw [Std.TreeMap.getElem?_of_isEmpty hempty] at hcp
      cases hcp
    · have := @Std.TreeMap.size_insert_le _ _ _ s.m_index_map _ block_index.nHeight cp₀
      simp only
      omega
  rw [if_neg hempty]
  split
  · -- a checkpoint at the same height is replaced
    next old hold =>
    have hsize := size_evict hold
    refine ⟨_, (evict_evicts hold).trans (insert_evicts (fun cp hcp => ?_)), hnew _,
      Evicts.refl _, ⟨?_, hw.heights.evict.insert rfl⟩⟩
    · rw [evict_m_index_map, Std.TreeMap.getElem?_erase_self] at hcp
      cases hcp
    · have := @Std.TreeMap.size_insert_le _ _ _ (s.evict block_index.nHeight old).m_index_map _
        block_index.nHeight cp₀
      have hmax := hw.size_le
      simp only [evict_m_max_snapshots] at this ⊢
      omega
  · -- a new height: one entry may be pushed out
    next hnone =>
    have hsize := @Std.TreeMap.size_insert_le _ _ _ s.m_index_map _ block_index.nHeight cp₀
    have hmax := hw.size_le
    have hsize₁ : ({ s with m_index_map := s.m_index_map.insert block_index.nHeight cp₀ } :
        SnapshotIndex).m_index_map.size ≤ s.m_max_snapshots.toNat + 1 := by
      simp only
      omega
    have hh₁ := hw.heights.insert (s := s) (k := block_index.nHeight) (v := cp₀) rfl
    have hin : Evicts s { s with m_index_map := s.m_index_map.insert block_index.nHeight cp₀ } :=
      insert_evicts (fun cp hcp => by rw [hnone] at hcp; cases hcp)
    split
    · obtain ⟨hwf, hev⟩ := RemoveLowest_wf hh₁ hsize₁
        ⟨block_index.nHeight, cp₀, Std.TreeMap.getElem?_insert_self, rfl⟩
      exact ⟨_, hin, hnew s, hev, hwf⟩
    · obtain ⟨hwf, hev⟩ := RemoveHighest_wf hh₁ hsize₁
      exact ⟨_, hin, hnew s, hev, hwf⟩

theorem AddSnapshotHash_eq (hw : Wf (s.addCheckpoint snapshot_hash block_index)) :
    s.AddSnapshotHash snapshot_hash block_index =
      .ok (s.addCheckpoint snapshot_hash block_index,
        (s.addCheckpoint snapshot_hash block_index).m_snapshots_for_removal) := by
  simp only [AddSnapshotHash, hw.snapshotsForRemoval, Except.ok_bind]
  rfl

theorem Wf.finalize (hw : Wf s) (hk : s.m_index_map[k]? = some cp) :
    Wf { s with m_index_map := s.m_index_map.insert k { cp with finalized := true } } := by
  have hcontains : s.m_index_map.contains k = true := by
    simp [Std.TreeMap.contains_eq_isSome_getElem?, hk]
  refine ⟨?_, hw.heights.insert (hw.heights k cp hk)⟩
  simp only
  rw [Std.TreeMap.size_insert, if_pos hcontains]
  exact hw.size_le

/-- The loop of `FinalizeSnapshots` over entries of the index in increasing height keeps it
well-formed and only evicts: induction on the entries, each of which the loop finds as it was,
since it changes only the entry it is at. -/
theorem finalizeLoop_spec (block_index : BlockPath) :
    ∀ (l : List (Nat × Checkpoint)) (s : SnapshotIndex), Wf s →
      (∀ p ∈ l, s.m_index_map[p.1]? = some p.2) → l.Pairwise (fun p q => p.1 < q.1) →
      Wf (finalizeLoop block_index l s) ∧ Evicts s (finalizeLoop block_index l s)
  | [], s, hw, _, _ => ⟨hw, Evicts.refl s⟩
  | (k, cp) :: rest, s, hw, hl, hpair => by
    have hk : s.m_index_map[k]? = some cp := hl (k, cp) List.mem_cons_self
    have hrest : ∀ p ∈ rest, s.m_index_map[p.1]? = some p.2 :=
      fun p hp => hl p (List.mem_cons_of_mem _ hp)
    have habove : ∀ p ∈ rest, k < p.1 := fun p hp => List.rel_of_pairwise_cons hpair hp
    -- the entries still to come are those of the index at another height
    have hkeep : ∀ (t : Std.TreeMap Nat Checkpoint compare),
        (∀ p ∈ rest, t[p.1]? = s.m_index_map[p.1]?) → ∀ p ∈ rest, t[p.1]? = some p.2 :=
      fun t ht p hp => (ht p hp).trans (hrest p hp)
    simp only [finalizeLoop]
    split
    · exact finalizeLoop_spec block_index rest s hw hrest hpair.of_cons
    split
    · exact ⟨hw, Evicts.refl s⟩
    split
    · split
      · -- on the block's branch: finalized in place
        obtain ⟨hw', hev'⟩ := finalizeLoop_spec block_index rest _ (hw.finalize hk)
          (hkeep _ fun p hp => by
            rw [Std.TreeMap.getElem?_insert, if_neg (by simpa using (habove p hp).ne)])
          hpair.of_cons
        refine ⟨hw', (insert_evicts fun cp' hcp' => ?_).trans hev'⟩
        rw [hk] at hcp'
        cases hcp'
        rfl
      · -- on another branch: pushed out
        obtain ⟨hw', hev'⟩ := finalizeLoop_spec block_index rest (s.evict k cp)
          (show Wf (s.evict k cp) from hw.evict)
          (hkeep _ fun p hp => by
            rw [evict_m_index_map, Std.TreeMap.getElem?_erase,
              if_neg (by simpa using (habove p hp).ne)])
          hpair.of_cons
        exact ⟨hw', (evict_evicts hk).trans hev'⟩
    · exact ⟨hw, Evicts.refl s⟩

theorem FinalizeSnapshots_spec (hw : Wf s) (block_index : BlockPath) :
    ∃ s', s.FinalizeSnapshots block_index = .ok (s', s'.m_snapshots_for_removal) ∧ Wf s' ∧
      Evicts s s' := by
  have hloop : Wf (if s.m_index_map.isEmpty then s else finalizeLoop block_index s.m_index_map.toList s) ∧
      Evicts s (if s.m_index_map.isEmpty then s else
        finalizeLoop block_index s.m_index_map.toList s) := by
    split
    · exact ⟨hw, Evicts.refl s⟩
    · refine finalizeLoop_spec block_index _ s hw (fun p hp => getElem?_of_mem_toList hp) ?_
      exact Std.TreeMap.ordered_keys_toList.imp fun h => by simpa [Nat.compare_eq_lt] using h
  refine ⟨_, ?_, hloop.1, hloop.2⟩
  simp only [FinalizeSnapshots, hloop.1.snapshotsForRemoval, Except.ok_bind]
  rfl

/-- What `DeleteSnapshotHash` does: an entry with the hash, if there is one, leaves the index,
and the hash the set of snapshots for removal. -/
theorem DeleteSnapshotHash_cases (s : SnapshotIndex) (h : Uint256) :
    (∃ (k : Nat) (cp : Checkpoint), s.m_index_map[k]? = some cp ∧ cp.snapshot_hash = h ∧
      s.DeleteSnapshotHash h = { s with
        m_index_map := s.m_index_map.erase k
        m_snapshots_for_removal := s.m_snapshots_for_removal.erase h }) ∨
    (¬s.HasHash h ∧ s.DeleteSnapshotHash h = { s with
        m_snapshots_for_removal := s.m_snapshots_for_removal.erase h }) := by
  cases hfind : s.m_index_map.toList.find? (·.2.snapshot_hash == h) with
  | some p =>
    obtain ⟨k, cp⟩ := p
    refine .inl ⟨k, cp, getElem?_of_mem_toList (List.mem_of_find?_eq_some hfind), ?_, ?_⟩
    · simpa using List.find?_some hfind
    · simp [DeleteSnapshotHash, hfind]
  | none =>
    refine .inr ⟨?_, by simp [DeleteSnapshotHash, hfind]⟩
    rintro ⟨k, cp, hk, rfl⟩
    have hnot := List.find?_eq_none.1 hfind (k, cp) (Std.TreeMap.mem_toList_iff_getElem?_eq_some.2 hk)
    simp at hnot

/-- Every added hash not passed to `ConfirmRemoved` or `DeleteSnapshotHash` since, once out of the
index, is in the set of snapshots for removal. -/
def NoLeak (s : SnapshotIndex) (live : List Uint256) : Prop :=
  ∀ h ∈ live, ¬s.HasHash h → h ∈ s.m_snapshots_for_removal

theorem NoLeak.of_evicts {live : List Uint256} (hn : NoLeak s live) (he : Evicts s s₁) :
    NoLeak s₁ live := by
  intro h hh hgone
  by_cases hwas : s.HasHash h
  · exact he.gone h hwas hgone
  · exact he.removal_sub (hn h hh hwas)

/-- The hash just added is in the index after its addition, and what leaves afterwards is
evicted. -/
theorem NoLeak.add {live : List Uint256} {h : Uint256} (hn : NoLeak s live) (he₁ : Evicts s s₁)
    (hh₁ : s₁.HasHash h) (he₂ : Evicts s₁ s₂) : NoLeak s₂ (h :: live) := by
  intro h' hh' hgone
  rcases List.mem_cons.1 hh' with rfl | hlive
  · exact he₂.gone h' hh₁ hgone
  · exact (hn.of_evicts (he₁.trans he₂)) h' hlive hgone

theorem NoLeak.confirmRemoved {live : List Uint256} (hn : NoLeak s live) (h : Uint256) :
    NoLeak (s.ConfirmRemoved h) (live.filter (· ≠ h)) := by
  intro h' hh' hgone
  obtain ⟨hlive, hne⟩ := List.mem_filter.1 hh'
  exact Finset.mem_erase.2 ⟨by simpa using hne, hn h' hlive hgone⟩

theorem NoLeak.deleteSnapshotHash {live : List Uint256} (hn : NoLeak s live) (h : Uint256) :
    NoLeak (s.DeleteSnapshotHash h) (live.filter (· ≠ h)) := by
  intro h' hh' hgone
  obtain ⟨hlive, hne⟩ := List.mem_filter.1 hh'
  have hne : h' ≠ h := by simpa using hne
  rcases DeleteSnapshotHash_cases s h with ⟨k, cp, hk, hcp, heq⟩ | ⟨-, heq⟩
  · rw [heq] at hgone ⊢
    refine Finset.mem_erase.2 ⟨hne, hn h' hlive ?_⟩
    -- the entry that left holds `h`; every other entry is still there
    rintro ⟨k', cp', hk', rfl⟩
    refine hgone ⟨k', cp', ?_, rfl⟩
    have hkk : ¬k = k' := by
      rintro rfl
      rw [hk] at hk'
      cases hk'
      exact hne hcp
    simp only
    rw [Std.TreeMap.getElem?_erase, if_neg (by simpa using hkk)]
    exact hk'
  · rw [heq] at hgone ⊢
    exact Finset.mem_erase.2 ⟨hne, hn h' hlive hgone⟩

theorem Wf.deleteSnapshotHash (hw : Wf s) (h : Uint256) : Wf (s.DeleteSnapshotHash h) := by
  rcases DeleteSnapshotHash_cases s h with ⟨k, cp, -, -, heq⟩ | ⟨-, heq⟩
  · rw [heq]
    exact ⟨Std.TreeMap.size_erase_le.trans hw.size_le,
      fun k' cp' hk' => (show Heights (s.evict k cp) from hw.heights.evict) k' cp' hk'⟩
  · rw [heq]
    exact ⟨hw.size_le, hw.heights⟩

/-- The finalized entries of a list in increasing height: its head, if finalized, and those
above it. -/
theorem countP_finalized_cons {rest : List (Nat × Checkpoint)}
    (hpair : ((k, cp) :: rest).Pairwise (fun p q => p.1 < q.1)) :
    ((k, cp) :: rest).countP (·.2.finalized) =
      ((k, cp) :: rest).countP (fun p => p.2.finalized && decide (k < p.1)) +
        if cp.finalized then 1 else 0 := by
  have hrest : rest.countP (fun p => p.2.finalized && decide (k < p.1)) =
      rest.countP (·.2.finalized) :=
    List.countP_congr fun p hp => by simp [List.rel_of_pairwise_cons hpair hp]
  simp only [List.countP_cons, hrest, Nat.lt_irrefl, decide_false, Bool.and_false]
  cases cp.finalized <;> simp

/-- A checkpoint added above every height pushes out none of the `m_min_finalized_snapshots`
highest finalized entries: a finalized entry with fewer of them above it stays. -/
theorem addCheckpoint_keeps_finalized (hw : Wf s) (snapshot_hash : Uint256)
    {block_index : BlockPath} (habove : ∀ k' ∈ s.m_index_map, k' < block_index.nHeight)
    (hk : s.m_index_map[k]? = some cp) (hfin : cp.finalized = true)
    (hfew : s.m_index_map.toList.countP (fun p => p.2.finalized && decide (k < p.1)) <
      s.m_min_finalized_snapshots.toNat) :
    (s.addCheckpoint snapshot_hash block_index).m_index_map[k]? = some cp := by
  have hcontains : s.m_index_map.contains k = true := by
    simp [Std.TreeMap.contains_eq_isSome_getElem?, hk]
  have hkne : ¬block_index.nHeight = k :=
    (habove k (Std.TreeMap.contains_iff_mem.1 hcontains)).ne'
  have hnone : s.m_index_map[block_index.nHeight]? = none :=
    Std.TreeMap.getElem?_eq_none fun hmem => Nat.lt_irrefl _ (habove _ hmem)
  have hall : s.m_index_map.keys.all (· ≤ block_index.nHeight) = true := by
    rw [List.all_eq_true]
    intro k' hk'
    exact decide_eq_true (habove k' (Std.TreeMap.mem_keys.1 hk')).le
  dsimp only [addCheckpoint]
  rw [if_neg (by simp [Std.TreeMap.isEmpty_eq_false_of_contains hcontains])]
  simp only [hnone, hall, if_true]
  set cp₀ : Checkpoint := ⟨block_index.nHeight, false, snapshot_hash, block_index.GetBlockHash⟩
  set s₁ : SnapshotIndex := { s with m_index_map := s.m_index_map.insert block_index.nHeight cp₀ }
  have hk₁ : s₁.m_index_map[k]? = some cp := by
    simp only [s₁]
    rw [Std.TreeMap.getElem?_insert, if_neg (by simpa using hkne)]
    exact hk
  rcases RemoveLowest_cases s₁ with ⟨-, heq⟩ | ⟨-, k', cp', hk', heq, hwhich⟩ | ⟨-, heq, -⟩
  · rw [heq]
    exact hk₁
  · rw [heq, evict_m_index_map, Std.TreeMap.getElem?_erase]
    split
    · -- pushing out `cp` itself would take the lowest of too few finalized entries
      next hkk =>
      have hkk : k' = k := by simpa using hkk
      subst hkk
      rw [hk₁] at hk'
      cases hk'
      rcases hwhich with hnf | ⟨hhead, hcount⟩
      · rw [hfin] at hnf
        cases hnf
      exfalso
      have htoList : s₁.m_index_map.toList = s.m_index_map.toList ++ [(block_index.nHeight, cp₀)] :=
        Std.TreeMap.toList_insert_of_lt _ fun p hp => by
          simpa [Nat.compare_eq_lt] using habove p.1
            (Std.TreeMap.mem_iff_isSome_getElem?.2 (by simp [getElem?_of_mem_toList hp]))
      obtain ⟨rest, hrest⟩ : ∃ rest, s.m_index_map.toList = (k', cp) :: rest := by
        cases hl : s.m_index_map.toList with
        | nil =>
          have hmem := Std.TreeMap.mem_toList_iff_getElem?_eq_some.2 hk
          rw [hl] at hmem
          cases hmem
        | cons p rest => exact ⟨rest, by simp [htoList, hl] at hhead; rw [hhead]⟩
      have hpair : ((k', cp) :: rest).Pairwise (fun p q => p.1 < q.1) :=
        hrest ▸ Std.TreeMap.ordered_keys_toList.imp fun h => by simpa [Nat.compare_eq_lt] using h
      have hF := countP_finalized_cons hpair
      rw [← hrest, hfin, if_pos rfl] at hF
      have hF₁ : s₁.m_index_map.toList.countP (·.2.finalized) =
          s.m_index_map.toList.countP (·.2.finalized) := by
        rw [htoList, List.countP_append]
        simp [cp₀]
      -- the count is below `2 ^ 32`, so the `uint32_t` holds it
      have hlen : s.m_index_map.toList.countP (·.2.finalized) < 2 ^ 32 := by
        have := List.countP_le_length (p := (·.2.finalized)) (l := s.m_index_map.toList)
        rw [Std.TreeMap.length_toList] at this
        have := hw.size_le
        have := s.m_max_snapshots.toNat_lt
        omega
      rw [hF₁, UInt32.lt_iff_toNat_lt, UInt32.toNat_ofNat_of_lt' hlen] at hcount
      change s.m_min_finalized_snapshots.toNat < _ at hcount
      omega
    · exact hk₁
  · rw [heq]
    exact hk₁

@[simp] theorem ConfirmRemoved_m_index_map (h : Uint256) :
    (s.ConfirmRemoved h).m_index_map = s.m_index_map := rfl

@[simp] theorem DeleteSnapshotHash_m_max_snapshots (h : Uint256) :
    (s.DeleteSnapshotHash h).m_max_snapshots = s.m_max_snapshots := by
  rcases DeleteSnapshotHash_cases s h with ⟨k, cp, -, -, heq⟩ | ⟨-, heq⟩
  · rw [heq]
  · rw [heq]

@[simp] theorem DeleteSnapshotHash_m_min_finalized_snapshots (h : Uint256) :
    (s.DeleteSnapshotHash h).m_min_finalized_snapshots = s.m_min_finalized_snapshots := by
  rcases DeleteSnapshotHash_cases s h with ⟨k, cp, -, -, heq⟩ | ⟨-, heq⟩
  · rw [heq]
  · rw [heq]

theorem keys_pairwise_lt (s : SnapshotIndex) : s.m_index_map.keys.Pairwise (· < ·) :=
  Std.TreeMap.ordered_keys.imp fun h => by simpa [Nat.compare_eq_lt] using h

/-- The calls a node makes on its snapshot index. -/
inductive IndexOp
  | addSnapshotHash (snapshot_hash : Uint256) (block_index : BlockPath)
  | finalizeSnapshots (block_index : BlockPath)
  | confirmRemoved (snapshot_hash : Uint256)
  | deleteSnapshotHash (snapshot_hash : Uint256)

/-- One call on the index. The set of snapshots for removal that `AddSnapshotHash` and
`FinalizeSnapshots` return is the index's own, so the index is all a run carries. -/
def apply (s : SnapshotIndex) : IndexOp → Fallible SnapshotIndex
  | .addSnapshotHash snapshot_hash block_index =>
    Prod.fst <$> s.AddSnapshotHash snapshot_hash block_index
  | .finalizeSnapshots block_index => Prod.fst <$> s.FinalizeSnapshots block_index
  | .confirmRemoved snapshot_hash => pure (s.ConfirmRemoved snapshot_hash)
  | .deleteSnapshotHash snapshot_hash => pure (s.DeleteSnapshotHash snapshot_hash)

def runIndex (s : SnapshotIndex) (ops : List IndexOp) : Fallible SnapshotIndex :=
  ops.foldlM apply s

/-- The hashes added and not passed to `ConfirmRemoved` or `DeleteSnapshotHash` since, after
one more call. -/
def liveStep (live : List Uint256) : IndexOp → List Uint256
  | .addSnapshotHash snapshot_hash _ => snapshot_hash :: live
  | .finalizeSnapshots _ => live
  | .confirmRemoved snapshot_hash => live.filter (· ≠ snapshot_hash)
  | .deleteSnapshotHash snapshot_hash => live.filter (· ≠ snapshot_hash)

def liveHashes (ops : List IndexOp) : List Uint256 := ops.foldl liveStep []

/-- The invariant of a run from an index made with the limits `max_snapshots` and
`min_finalized_snapshots`, with `live` the hashes that must not leak. -/
structure RunInv (max_snapshots min_finalized_snapshots : UInt32) (live : List Uint256)
    (s : SnapshotIndex) : Prop where
  max_eq : s.m_max_snapshots = max_snapshots
  min_eq : s.m_min_finalized_snapshots = min_finalized_snapshots
  wf : Wf s
  noLeak : NoLeak s live

section Run

variable {max_snapshots min_finalized_snapshots : UInt32} {live : List Uint256}

theorem RunInv.of_evicts (hi : RunInv max_snapshots min_finalized_snapshots live s)
    (hw : Wf s₁) (he : Evicts s s₁) : RunInv max_snapshots min_finalized_snapshots live s₁ :=
  ⟨he.max_eq.trans hi.max_eq, he.min_eq.trans hi.min_eq, hw, hi.noLeak.of_evicts he⟩

theorem apply_spec (hi : RunInv max_snapshots min_finalized_snapshots live s) (op : IndexOp) :
    ∃ s', s.apply op = .ok s' ∧ RunInv max_snapshots min_finalized_snapshots (liveStep live op) s' := by
  cases op with
  | addSnapshotHash snapshot_hash block_index =>
    obtain ⟨s₁, he₁, hh₁, he₂, hw⟩ := addCheckpoint_spec hi.wf snapshot_hash block_index
    have he := he₁.trans he₂
    refine ⟨s.addCheckpoint snapshot_hash block_index, by simp [apply, AddSnapshotHash_eq hw], ?_⟩
    exact ⟨he.max_eq.trans hi.max_eq, he.min_eq.trans hi.min_eq, hw, hi.noLeak.add he₁ hh₁ he₂⟩
  | finalizeSnapshots block_index =>
    obtain ⟨s', hfin, hw, he⟩ := FinalizeSnapshots_spec hi.wf block_index
    exact ⟨s', by simp [apply, hfin], hi.of_evicts hw he⟩
  | confirmRemoved snapshot_hash =>
    exact ⟨_, rfl, hi.max_eq, hi.min_eq, ⟨hi.wf.size_le, hi.wf.heights⟩,
      hi.noLeak.confirmRemoved snapshot_hash⟩
  | deleteSnapshotHash snapshot_hash =>
    refine ⟨_, rfl, ?_, ?_, hi.wf.deleteSnapshotHash snapshot_hash,
      hi.noLeak.deleteSnapshotHash snapshot_hash⟩
    · rw [DeleteSnapshotHash_m_max_snapshots, hi.max_eq]
    · rw [DeleteSnapshotHash_m_min_finalized_snapshots, hi.min_eq]

/-- Every run succeeds and keeps the invariant: induction on the calls, from any state that
holds it. -/
theorem runIndex_spec (ops : List IndexOp) :
    ∀ (s : SnapshotIndex) (live : List Uint256),
      RunInv max_snapshots min_finalized_snapshots live s →
      ∃ s', runIndex s ops = .ok s' ∧
        RunInv max_snapshots min_finalized_snapshots (ops.foldl liveStep live) s' := by
  induction ops with
  | nil =>
    intro s live hi
    exact ⟨s, rfl, hi⟩
  | cons op ops ih =>
    intro s live hi
    obtain ⟨s₁, hstep, hi₁⟩ := apply_spec hi op
    obtain ⟨s', hrun, hi'⟩ := ih s₁ (liveStep live op) hi₁
    refine ⟨s', ?_, hi'⟩
    rw [runIndex, List.foldlM_cons, hstep]
    exact hrun

theorem create_spec (sanity_check : Bool) (hmin : 0 < min_finalized_snapshots)
    (hmax : min_finalized_snapshots < max_snapshots) :
    ∃ s₀, create max_snapshots min_finalized_snapshots sanity_check = .ok s₀ ∧
      RunInv max_snapshots min_finalized_snapshots [] s₀ := by
  refine ⟨_, by rw [create, dif_pos ⟨hmin, hmax⟩], rfl, rfl, ⟨?_, ?_⟩, ?_⟩
  · simp
  · intro k cp hk
    simp at hk
  · intro h hh
    cases hh

end Run

/-- Over every run of calls on an index made with `0 < min_finalized_snapshots < max_snapshots`:
every call succeeds; the index holds at most `max_snapshots` checkpoints, in increasing height,
each under its own height; every hash added and not passed to `ConfirmRemoved` or
`DeleteSnapshotHash` since is, once out of the index, in the set of snapshots for removal; and a
checkpoint added above every height pushes out no finalized checkpoint with fewer than
`min_finalized_snapshots` finalized ones above it. -/
theorem runIndex_invariant (max_snapshots min_finalized_snapshots : UInt32) (sanity_check : Bool)
    (hmin : 0 < min_finalized_snapshots) (hmax : min_finalized_snapshots < max_snapshots)
    (ops : List IndexOp) :
    ∃ s₀ s, create max_snapshots min_finalized_snapshots sanity_check = .ok s₀ ∧
      runIndex s₀ ops = .ok s ∧
      s.m_index_map.size ≤ max_snapshots.toNat ∧
      s.m_index_map.keys.Pairwise (· < ·) ∧
      (∀ k (cp : Checkpoint), s.m_index_map[k]? = some cp → cp.height = k) ∧
      (∀ h ∈ liveHashes ops, ¬s.HasHash h → h ∈ s.m_snapshots_for_removal) ∧
      ∀ (snapshot_hash : Uint256) (block_index : BlockPath),
        (∀ k ∈ s.m_index_map, k < block_index.nHeight) →
        ∃ s' for_removal, s.AddSnapshotHash snapshot_hash block_index = .ok (s', for_removal) ∧
          ∀ k (cp : Checkpoint), s.m_index_map[k]? = some cp → cp.finalized = true →
            s.m_index_map.toList.countP (fun p => p.2.finalized && decide (k < p.1)) <
              min_finalized_snapshots.toNat →
            s'.m_index_map[k]? = some cp := by
  obtain ⟨s₀, hcreate, hi₀⟩ := create_spec sanity_check hmin hmax
  obtain ⟨s, hrun, hi⟩ := runIndex_spec ops s₀ [] hi₀
  refine ⟨s₀, s, hcreate, hrun, hi.max_eq ▸ hi.wf.size_le, keys_pairwise_lt s, hi.wf.heights,
    hi.noLeak, fun snapshot_hash block_index habove => ?_⟩
  obtain ⟨-, -, -, -, hw⟩ := addCheckpoint_spec hi.wf snapshot_hash block_index
  refine ⟨_, _, AddSnapshotHash_eq hw, fun k cp hk hfin hfew => ?_⟩
  rw [← hi.min_eq] at hfew
  exact addCheckpoint_keeps_finalized hi.wf snapshot_hash habove hk hfin hfew

theorem runIndex_invariant_maxFive :
    (0 : UInt32) < 2 ∧ (2 : UInt32) < 5 ∧
    ∃ s₀ s, create 5 2 true = .ok s₀ ∧
      runIndex s₀ [.addSnapshotHash 7 ⟨[0, 1], by decide, by decide⟩, .confirmRemoved 7] = .ok s ∧
      s.m_index_map.size ≤ (5 : UInt32).toNat ∧
      s.m_index_map.keys.Pairwise (· < ·) ∧
      (∀ k (cp : Checkpoint), s.m_index_map[k]? = some cp → cp.height = k) ∧
      (∀ h ∈ liveHashes [.addSnapshotHash 7 ⟨[0, 1], by decide, by decide⟩, .confirmRemoved 7],
        ¬s.HasHash h → h ∈ s.m_snapshots_for_removal) ∧
      ∀ (snapshot_hash : Uint256) (block_index : BlockPath),
        (∀ k ∈ s.m_index_map, k < block_index.nHeight) →
        ∃ s' for_removal, s.AddSnapshotHash snapshot_hash block_index = .ok (s', for_removal) ∧
          ∀ k (cp : Checkpoint), s.m_index_map[k]? = some cp → cp.finalized = true →
            s.m_index_map.toList.countP (fun p => p.2.finalized && decide (k < p.1)) <
              (2 : UInt32).toNat →
            s'.m_index_map[k]? = some cp :=
  ⟨by decide, by decide, runIndex_invariant 5 2 true (by decide) (by decide) _⟩

end SnapshotIndex

end UnitE.Snapshot
