import UnitE.Proofs.EpochStart
import UnitE.Spec.CommitsLocator

/-! What the locator of a `getcommits` request names, and where the peer starts from it.

For a start block whose fork origin is at or above the last finalized checkpoint, the locator
lists the finalized checkpoint, the checkpoints that end the epochs before the epoch of the
start block, and the start block, at strictly increasing heights (`locatorHeights`). The loop
stops at `LOCATOR_START_LIMIT` entries, so only the last epochs before the start block are
listed when there are more. A peer whose active chain holds the start block scans the locator
up to it; a peer reads only blocks of its own active chain, so for a start block on a fork it
returns a block below the fork instead. -/

namespace UnitE

namespace BlockPath

variable {tip b a pindex o : BlockPath} {height k : Nat}

theorem length_hashes (b : BlockPath) : b.hashes.length = b.nHeight + 1 := by
  have hpos := List.length_pos_iff.mpr b.nonempty
  unfold nHeight
  omega

theorem nHeight_lt (b : BlockPath) : b.nHeight < 2 ^ 31 := by
  have hlen := b.length_le
  rw [length_hashes] at hlen
  omega

theorem hashAt_eq_getElem (hk : k < b.hashes.length) : b.hashAt k = b.hashes[k] := by
  rw [hashAt, List.getD_eq_getElem?_getD, List.getElem?_eq_getElem hk, Option.getD_some]

theorem GetBlockHash_eq_hashAt (b : BlockPath) : b.GetBlockHash = b.hashAt b.nHeight := by
  rw [GetBlockHash, List.getLast_eq_getElem, hashAt_eq_getElem]
  rfl

theorem GetAncestor_eq_some_iff :
    b.GetAncestor height = some a ↔ height ≤ b.nHeight ∧ a.hashes = b.hashes.take (height + 1) := by
  unfold GetAncestor
  split_ifs with hle
  · simp only [Option.some.injEq, hle, true_and]
    constructor
    · rintro rfl
      rfl
    · intro h
      ext1
      exact h.symm
  · simp [hle]

theorem exists_GetAncestor (hle : height ≤ b.nHeight) : ∃ a, b.GetAncestor height = some a :=
  ⟨_, if_pos hle⟩

theorem nHeight_of_GetAncestor (h : b.GetAncestor height = some a) : a.nHeight = height := by
  obtain ⟨hle, hhashes⟩ := GetAncestor_eq_some_iff.mp h
  rw [nHeight, hhashes, List.length_take, length_hashes]
  omega

theorem ancestor_of_GetAncestor (h : b.GetAncestor height = some a) : a.hashes <+: b.hashes := by
  rw [(GetAncestor_eq_some_iff.mp h).2]
  exact List.take_prefix _ _

theorem nHeight_le_of_ancestor (hp : a.hashes <+: b.hashes) : a.nHeight ≤ b.nHeight := by
  have hlen := hp.length_le
  rw [length_hashes, length_hashes] at hlen
  omega

theorem hashAt_of_ancestor (hp : a.hashes <+: b.hashes) (hk : k ≤ a.nHeight) :
    a.hashAt k = b.hashAt k := by
  have hlt : k < a.hashes.length := by
    rw [length_hashes]
    omega
  rw [hashAt_eq_getElem hlt, hp.getElem hlt, hashAt_eq_getElem]

theorem GetBlockHash_of_GetAncestor (h : b.GetAncestor height = some a) :
    a.GetBlockHash = b.hashAt height := by
  rw [GetBlockHash_eq_hashAt, hashAt_of_ancestor (ancestor_of_GetAncestor h) le_rfl,
    nHeight_of_GetAncestor h]

theorem GetAncestor_eq_of_ancestor (hp : a.hashes <+: b.hashes) (hk : k ≤ a.nHeight) :
    a.GetAncestor k = b.GetAncestor k := by
  have htake : a.hashes = b.hashes.take (a.nHeight + 1) := by
    rw [← length_hashes]
    exact List.prefix_iff_eq_take.mp hp
  unfold GetAncestor
  rw [if_pos hk, if_pos (hk.trans (nHeight_le_of_ancestor hp))]
  simp only [Option.some.injEq, BlockPath.mk.injEq]
  rw [htake, List.take_take, Nat.min_eq_left (by omega)]

theorem GetAncestor_nHeight (b : BlockPath) : b.GetAncestor b.nHeight = some b := by
  rw [GetAncestor_eq_some_iff, ← length_hashes, List.take_length]
  exact ⟨le_rfl, rfl⟩

theorem Contains_iff : tip.Contains b = true ↔ b.hashes <+: tip.hashes := by
  rw [Contains, beq_iff_eq]
  constructor
  · exact ancestor_of_GetAncestor
  · intro hp
    rw [← GetAncestor_eq_of_ancestor hp le_rfl, GetAncestor_nHeight]

theorem findForkFrom_spec (h : findForkFrom tip pindex height = some o) :
    tip.Contains o = true ∧ o.hashes <+: pindex.hashes := by
  induction height with
  | zero =>
    rw [findForkFrom, Option.filter_eq_some_iff] at h
    exact ⟨h.2, ancestor_of_GetAncestor h.1⟩
  | succ height ih =>
    rw [findForkFrom] at h
    split at h
    · cases h
    · rename_i walk hwalk
      split_ifs at h with hcontains
      · cases h
        exact ⟨hcontains, ancestor_of_GetAncestor hwalk⟩
      · exact ih h

theorem FindFork_spec (h : FindFork tip pindex = some o) :
    tip.Contains o = true ∧ o.hashes <+: pindex.hashes :=
  findForkFrom_spec h

theorem GetAncestor_eq_of_FindFork (h : FindFork tip pindex = some o) (hk : k ≤ o.nHeight) :
    pindex.GetAncestor k = tip.GetAncestor k := by
  obtain ⟨hcontains, hp⟩ := FindFork_spec h
  rw [← GetAncestor_eq_of_ancestor hp hk, GetAncestor_eq_of_ancestor (Contains_iff.mp hcontains) hk]

theorem hashAt_eq_of_FindFork (h : FindFork tip pindex = some o) (hk : k ≤ o.nHeight) :
    pindex.hashAt k = tip.hashAt k := by
  obtain ⟨hcontains, hp⟩ := FindFork_spec h
  rw [← hashAt_of_ancestor hp hk, hashAt_of_ancestor (Contains_iff.mp hcontains) hk]

theorem GetBlockIndex_hashAt (hnodup : tip.hashes.Nodup) (hk : k ≤ tip.nHeight) :
    tip.GetBlockIndex (tip.hashAt k) = tip.GetAncestor k := by
  have hlt : k < tip.hashes.length := by
    rw [length_hashes]
    omega
  have hidx : tip.hashes.idxOf? (tip.hashAt k) = some k := by
    rw [List.idxOf?_eq_some_iff, hashAt_eq_getElem hlt]
    refine ⟨hlt, rfl, ?_⟩
    intro j hj heq
    have hjk := hnodup.idxOf_getElem j (hj.trans hlt)
    rw [heq, hnodup.idxOf_getElem k hlt] at hjk
    omega
  rw [GetBlockIndex, hidx, Option.bind_some]

theorem Contains_of_GetBlockIndex {block_hash : Uint256} (h : tip.GetBlockIndex block_hash = some a) :
    tip.Contains a = true := by
  rw [GetBlockIndex, Option.bind_eq_some_iff] at h
  obtain ⟨_, -, hancestor⟩ := h
  exact Contains_iff.mpr (ancestor_of_GetAncestor hancestor)

end BlockPath

namespace P2P

open Esperanza BlockPath Finalization

/-- How many checkpoints the locator of a block at height `h` lists between the finalized
checkpoint and the block: those of the epochs after `F` and before the epoch of `h`, up to the
room that `LOCATOR_START_LIMIT` leaves. -/
def locatorCount (F L h : Nat) : Nat := min (LOCATOR_START_LIMIT - 1) (h ⌈/⌉ L - 1 - F)

/-- The heights of the blocks that the locator names for a start block at height `h`, with
`F` the last finalized epoch and `L` the epoch length: the finalized checkpoint, then the
checkpoints that end the last epochs before the epoch of `h`, as many as
`LOCATOR_START_LIMIT` leaves room for, then `h`. -/
def locatorHeights (F L h : Nat) : List Nat :=
  if h = F * L then [h]
  else F * L :: ((List.range' (h ⌈/⌉ L - locatorCount F L h) (locatorCount F L h)).map (· * L) ++ [h])

section LocatorHeights

variable {F L h : Nat}

theorem head?_locatorHeights : (locatorHeights F L h).head? = some (F * L) := by
  unfold locatorHeights
  split_ifs with hFL
  · rw [hFL, List.head?_singleton]
  · rfl

theorem getLast?_locatorHeights : (locatorHeights F L h).getLast? = some h := by
  unfold locatorHeights
  split_ifs
  · rfl
  · rw [← List.cons_append, List.getLast?_concat]

theorem locatorCount_le : locatorCount F L h ≤ LOCATOR_START_LIMIT - 1 := Nat.min_le_left _ _

theorem length_locatorHeights_le : (locatorHeights F L h).length ≤ LOCATOR_START_LIMIT + 1 := by
  have hlimit : 1 ≤ LOCATOR_START_LIMIT := by decide
  have hcount := locatorCount_le (F := F) (L := L) (h := h)
  unfold locatorHeights
  split_ifs
  · rw [List.length_singleton]
    omega
  · simp only [List.length_cons, List.length_append, List.length_map, List.length_range',
      List.length_nil]
    omega

theorem pred_ceilDiv_mul_le (hL : 0 < L) : (h ⌈/⌉ L - 1) * L ≤ h := by
  rcases Nat.eq_zero_or_pos h with rfl | hpos
  · rw [Nat.le_zero.mp ((ceilDiv_le_iff_le_mul hL).mpr (Nat.zero_le _))]
    simp
  · have hlow := Nat.mul_pred_ceilDiv_lt hL hpos
    rw [Nat.mul_comm]
    exact hlow.le

theorem mem_locatorHeights_of_ne (hFL : h ≠ F * L) {x : Nat} :
    x ∈ locatorHeights F L h ↔ x = F * L ∨
      (∃ k ∈ List.range' (h ⌈/⌉ L - locatorCount F L h) (locatorCount F L h), k * L = x) ∨ x = h := by
  rw [locatorHeights, if_neg hFL]
  simp only [List.mem_cons, List.mem_append, List.mem_map, List.not_mem_nil, or_false]

theorem mem_range'_locatorHeights (hL : 0 < L) (hFh : F * L < h) {k : Nat}
    (hk : k ∈ List.range' (h ⌈/⌉ L - locatorCount F L h) (locatorCount F L h)) :
    F * L < k * L ∧ k * L < h := by
  rw [List.mem_range'_1, locatorCount] at hk
  have hlow := Nat.mul_pred_ceilDiv_lt hL (show 0 < h by omega)
  constructor
  · exact Nat.mul_lt_mul_of_pos_right (by omega) hL
  · calc k * L ≤ (h ⌈/⌉ L - 1) * L := Nat.mul_le_mul_right L (by omega)
      _ = L * (h ⌈/⌉ L - 1) := Nat.mul_comm _ _
      _ < h := hlow

theorem pairwise_locatorHeights (hL : 0 < L) (hFh : F * L ≤ h) :
    (locatorHeights F L h).Pairwise (· < ·) := by
  unfold locatorHeights
  split_ifs with hFL
  · exact List.pairwise_singleton _ _
  · have hbetween := fun k hk =>
      mem_range'_locatorHeights hL (Nat.lt_of_le_of_ne hFh (Ne.symm hFL)) (k := k) hk
    rw [List.pairwise_cons, List.pairwise_append]
    refine ⟨?_, ⟨?_, List.pairwise_singleton _ _, ?_⟩⟩
    · intro x hx
      simp only [List.mem_append, List.mem_map, List.mem_singleton] at hx
      rcases hx with ⟨k, hk, rfl⟩ | rfl
      · exact (hbetween k hk).1
      · omega
    · exact (List.pairwise_lt_range' 1).map _ fun a b hab => Nat.mul_lt_mul_of_pos_right hab hL
    · intro x hx y hy
      rw [List.mem_singleton] at hy
      obtain ⟨k, hk, rfl⟩ := List.mem_map.mp hx
      rw [hy]
      exact (hbetween k hk).2

theorem le_of_mem_locatorHeights (hL : 0 < L) (hFh : F * L ≤ h) {x : Nat}
    (hx : x ∈ locatorHeights F L h) : x ≤ h := by
  by_cases hFL : h = F * L
  · rw [locatorHeights, if_pos hFL, List.mem_singleton] at hx
    exact hx.le
  · rcases (mem_locatorHeights_of_ne hFL).mp hx with rfl | ⟨k, hk, rfl⟩ | rfl
    · exact hFh
    · exact (mem_range'_locatorHeights hL (Nat.lt_of_le_of_ne hFh (Ne.symm hFL)) hk).2.le
    · exact le_rfl

theorem dvd_of_mem_locatorHeights {x : Nat} (hx : x ∈ locatorHeights F L h) : x = h ∨ L ∣ x := by
  by_cases hFL : h = F * L
  · rw [locatorHeights, if_pos hFL] at hx
    exact Or.inl (List.mem_singleton.mp hx)
  · rcases (mem_locatorHeights_of_ne hFL).mp hx with rfl | ⟨k, -, rfl⟩ | rfl
    · exact Or.inr (Dvd.intro_left F rfl)
    · exact Or.inr (Dvd.intro_left k rfl)
    · exact Or.inl rfl

theorem mem_locatorHeights_of_le (hL : 0 < L) (hroom : h ⌈/⌉ L - F ≤ LOCATOR_START_LIMIT)
    {k : Nat} (hFk : F ≤ k) (hkh : k * L ≤ h) :
    k * L ∈ locatorHeights F L h := by
  by_cases hFL : h = F * L
  · rw [locatorHeights, if_pos hFL, List.mem_singleton]
    have hkF : k ≤ F := Nat.le_of_mul_le_mul_right (hFL ▸ hkh) hL
    rw [hFL, Nat.le_antisymm hkF hFk]
  · rw [mem_locatorHeights_of_ne hFL]
    rcases Nat.eq_or_lt_of_le hFk with rfl | hFk'
    · exact Or.inl rfl
    · rcases Nat.eq_or_lt_of_le hkh with hkh' | hkh'
      · exact Or.inr (Or.inr hkh')
      · -- `k * L < h` puts `k` before the epoch of `h`, and below the limit nothing is cut
        have hke : k < h ⌈/⌉ L := by
          by_contra hge
          have hceil := Nat.le_mul_ceilDiv (a := h) hL
          have := Nat.mul_le_mul_right L (Nat.le_of_not_lt hge)
          rw [Nat.mul_comm (h ⌈/⌉ L)] at this
          omega
        have hcount : locatorCount F L h = h ⌈/⌉ L - 1 - F := by
          unfold locatorCount
          omega
        refine Or.inr (Or.inl ⟨k, ?_, rfl⟩)
        rw [List.mem_range'_1, hcount]
        omega

end LocatorHeights

section Loop

variable {epoch_length finalized_height : Height} {start : BlockPath}

theorem toNat_sub_min (height epoch_length : Height) :
    (height - min height epoch_length).toNat = height.toNat - epoch_length.toNat := by
  have hle : min height epoch_length ≤ height := by
    rw [UInt32.le_iff_toNat_le, UInt32.toNat_min]
    omega
  rw [UInt32.toNat_sub_of_le _ _ hle, UInt32.toNat_min]
  omega

/-- Run lemma of the locator loop: from the checkpoint of epoch `k`, with `room` entries left,
it pushes the checkpoints of epochs `k`, `k - 1`, ... of `start` down to the first above
epoch `F`, or fewer if the room runs out. -/
theorem pushCheckpoints_eq (hL : 0 < epoch_length.toNat) {F : Nat}
    (hfin : finalized_height.toNat = F * epoch_length.toNat) :
    ∀ (room k : Nat) (walk : BlockPath) (height : Height) (acc : List Uint256),
      walk.hashes <+: start.hashes → height.toNat = k * epoch_length.toNat →
      k * epoch_length.toNat ≤ walk.nHeight →
      pushCheckpoints epoch_length finalized_height room walk height acc =
        .ok (acc ++ (List.range (min room (k - F))).map
          fun i => start.hashAt ((k - i) * epoch_length.toNat)) := by
  intro room
  induction room with
  | zero =>
    intro k walk height acc _ _ _
    simp [pushCheckpoints]
  | succ room ih =>
    intro k walk height acc hp hheight hk
    rw [pushCheckpoints]
    by_cases habove : height > finalized_height
    · rw [if_pos habove]
      have hFk : F < k := by
        rw [GT.gt, UInt32.lt_iff_toNat_lt, hheight, hfin] at habove
        exact Nat.lt_of_mul_lt_mul_right habove
      obtain ⟨a, ha⟩ := exists_GetAncestor (hheight ▸ hk)
      have hpa : a.hashes <+: start.hashes := (ancestor_of_GetAncestor ha).trans hp
      have hna : a.nHeight = k * epoch_length.toNat := hheight ▸ nHeight_of_GetAncestor ha
      have hnext : (height - min height epoch_length).toNat = (k - 1) * epoch_length.toNat := by
        rw [toNat_sub_min, hheight, Nat.sub_one_mul]
      have hmin : min (room + 1) (k - F) = min room (k - 1 - F) + 1 := by omega
      rw [ha]
      dsimp only
      rw [ih (k - 1) a _ _ hpa hnext (by rw [hna]; exact Nat.mul_le_mul_right _ (Nat.sub_le k 1)),
        hmin, List.range_succ_eq_map, GetBlockHash_of_GetAncestor ha,
        hashAt_of_ancestor hp (hheight ▸ hk), hheight]
      simp only [List.map_cons, List.map_map, List.append_assoc, List.singleton_append,
        Nat.sub_zero]
      congr 3
      apply List.map_congr_left
      intro i _
      simp only [Function.comp, Nat.succ_eq_add_one, Nat.sub_sub, Nat.add_comm 1 i]
    · rw [if_neg habove]
      have hkF : k ≤ F := by
        rw [GT.gt, UInt32.lt_iff_toNat_lt, hheight, hfin, Nat.not_lt] at habove
        exact Nat.le_of_mul_le_mul_right habove hL
      simp [Nat.sub_eq_zero_of_le hkF]

end Loop

theorem map_range'_eq_reverse {α : Type} (f : Nat → α) {e c : Nat} (hc : c ≤ e) :
    (List.range' (e - c) c).map f = ((List.range c).map fun i => f (e - 1 - i)).reverse := by
  rw [← List.reverse_reverse (List.range' (e - c) c), List.map_reverse, List.reverse_range',
    List.map_map]
  congr 1
  apply List.map_congr_left
  intro i hi
  rw [List.mem_range] at hi
  simp only [Function.comp]
  congr 1
  omega

section Locator

variable {s : FinalizationState} {tip start o : BlockPath}

theorem lastCheckpoint_toNat (hL : s.settings.epoch_length ≠ 0) {h : Nat} (hh : h < 2 ^ 31) :
    (if s.settings.GetEpoch (UInt32.ofNat h) > 0 then
      s.settings.GetEpochCheckpointHeight (s.settings.GetEpoch (UInt32.ofNat h) - 1) else 0).toNat =
      (h ⌈/⌉ s.settings.epoch_length.toNat - 1) * s.settings.epoch_length.toNat := by
  have hLpos := Params.epoch_length_toNat_pos hL
  have he : (s.settings.GetEpoch (UInt32.ofNat h)).toNat = h ⌈/⌉ s.settings.epoch_length.toNat := by
    rw [Params.GetEpoch_toNat _ hL, UInt32.toNat_ofNat_of_lt' (hh.trans (by decide))]
  split_ifs with hpos
  · rw [GT.gt, UInt32.pos_iff_ne_zero] at hpos
    have hpred := UInt32.toNat_pred_of_ne_zero hpos
    rw [he] at hpred
    -- the epoch of height 0 is 0, so the epoch is positive only above the genesis block
    have hh0 : 0 < h := by
      rcases Nat.eq_zero_or_pos h with h0 | h0
      · have hzero : (s.settings.GetEpoch (UInt32.ofNat h)).toNat = 0 := by
          rw [he, h0]
          exact Nat.le_zero.mp ((ceilDiv_le_iff_le_mul hLpos).mpr (Nat.zero_le _))
        exact absurd (UInt32.toNat_inj.mp (hzero.trans UInt32.toNat_zero.symm)) hpos
      · exact h0
    have hlow := Nat.mul_pred_ceilDiv_lt hLpos hh0
    rw [Params.GetEpochCheckpointHeight_toNat _ (by rw [hpred, Nat.mul_comm]; omega), hpred]
  · rw [GT.gt, UInt32.pos_iff_ne_zero, not_not] at hpos
    rw [hpos, UInt32.toNat_zero] at he
    rw [← he]
    simp

theorem IsFinalizedCheckpoint_finalized (hL : s.settings.epoch_length ≠ 0)
    (hfit : s.lastFinalizedEpoch.toNat * s.settings.epoch_length.toNat < 2 ^ 32) :
    s.IsFinalizedCheckpoint
      (UInt32.ofNat (s.lastFinalizedEpoch.toNat * s.settings.epoch_length.toNat)) = true := by
  have hLpos := Params.epoch_length_toNat_pos hL
  have hval := UInt32.toNat_ofNat_of_lt' hfit
  rw [FinalizationState.IsFinalizedCheckpoint, Bool.and_eq_true, Params.IsCheckpoint_iff, hval,
    decide_eq_true_eq, UInt32.le_iff_toNat_le, Params.GetEpoch_toNat _ hL, hval,
    ceilDiv_le_iff_le_mul hLpos, Nat.mul_comm]
  exact ⟨Nat.mul_mod_right _ _, le_rfl⟩

/-- The locator of a block whose fork origin is at or above the last finalized checkpoint:
the start block's ancestors at `locatorHeights`. -/
theorem GetFinalizerCommitsLocator_eq_ok (hL : s.settings.epoch_length ≠ 0)
    (hfin : s.lastFinalizedEpoch.toNat * s.settings.epoch_length.toNat ≤ tip.nHeight)
    (hfork : FindFork tip start = some o)
    (ho : s.lastFinalizedEpoch.toNat * s.settings.epoch_length.toNat ≤ o.nHeight) :
    GetFinalizerCommitsLocator s tip start =
      .ok ((locatorHeights s.lastFinalizedEpoch.toNat s.settings.epoch_length.toNat
        start.nHeight).map start.hashAt) := by
  have hLpos := Params.epoch_length_toNat_pos hL
  have hh := start.nHeight_lt
  have hoh : o.nHeight ≤ start.nHeight := nHeight_le_of_ancestor (FindFork_spec hfork).2
  obtain ⟨fin, hfinA⟩ := exists_GetAncestor hfin
  have hfinH := nHeight_of_GetAncestor hfinA
  have hfinIdx : FindLastFinalizedCheckpoint tip s = .ok fin := by
    have hcp := @Params.GetEpochCheckpointHeight_toNat s.settings s.lastFinalizedEpoch
      (by have := tip.nHeight_lt; omega)
    rw [FindLastFinalizedCheckpoint, GetCheckpointIndex, hcp, hfinA]
    rfl
  have hstartA : start.GetAncestor _ = some fin := (GetAncestor_eq_of_FindFork hfork ho).trans hfinA
  have hfinHash : fin.GetBlockHash = start.hashAt _ := GetBlockHash_of_GetAncestor hstartA
  have hcp := lastCheckpoint_toNat (s := s) hL hh
  have hfinval : (UInt32.ofNat fin.nHeight).toNat =
      s.lastFinalizedEpoch.toNat * s.settings.epoch_length.toNat := by
    rw [UInt32.toNat_ofNat_of_lt' (fin.nHeight_lt.trans (by decide)), hfinH]
  have hrun := @pushCheckpoints_eq _ _ start hLpos _ hfinval
  rw [GetFinalizerCommitsLocator, hfinIdx, Except.ok_bind, hfork]
  dsimp only
  rw [if_neg (show ¬o.nHeight < fin.nHeight by omega)]
  by_cases hFL : start.nHeight = s.lastFinalizedEpoch.toNat * s.settings.epoch_length.toNat
  · -- the start block is the finalized checkpoint, and the loop stops at once
    have hstart : start = fin := by
      have hself := start.GetAncestor_nHeight
      rw [hFL, hstartA] at hself
      exact (Option.some.inj hself).symm
    have hepoch : start.nHeight ⌈/⌉ s.settings.epoch_length.toNat ≤ s.lastFinalizedEpoch.toNat := by
      rw [ceilDiv_le_iff_le_mul hLpos, hFL, Nat.mul_comm]
    rw [if_neg (fun hcond => hcond.2 hstart), hrun _ _ start _ [] (List.prefix_refl _) hcp
      (pred_ceilDiv_mul_le hLpos), locatorHeights, if_pos hFL]
    simp only [Nat.sub_eq_zero_of_le (Nat.sub_le_of_le_add (Nat.le_add_right_of_le hepoch)),
      Nat.min_zero, List.range_zero, List.map_nil, List.append_nil, List.map_singleton, hfinHash,
      ← hFL]
    rfl
  · -- the start block is pushed first, then the checkpoints below its epoch
    have hpos : 0 < start.nHeight := by omega
    have hlow := Nat.mul_pred_ceilDiv_lt hLpos hpos
    have habove : UInt32.ofNat start.nHeight >
        (if s.settings.GetEpoch (UInt32.ofNat start.nHeight) > 0 then
          s.settings.GetEpochCheckpointHeight (s.settings.GetEpoch (UInt32.ofNat start.nHeight) - 1)
        else 0) := by
      rw [GT.gt, UInt32.lt_iff_toNat_lt, hcp, UInt32.toNat_ofNat_of_lt' (hh.trans (by decide)),
        Nat.mul_comm]
      exact hlow
    have hcount :
        locatorCount s.lastFinalizedEpoch.toNat s.settings.epoch_length.toNat start.nHeight ≤
          start.nHeight ⌈/⌉ s.settings.epoch_length.toNat := by
      unfold locatorCount
      omega
    rw [if_pos ⟨habove, fun heq => hFL (heq ▸ hfinH)⟩, hrun _ _ start _ _ (List.prefix_refl _) hcp
      (pred_ceilDiv_mul_le hLpos), locatorHeights, if_neg hFL]
    simp only [List.map_cons, List.map_append, List.map_map]
    rw [map_range'_eq_reverse _ hcount]
    simp only [Except.ok_bind, List.length_singleton, List.reverse_append, List.reverse_singleton,
      hfinHash, GetBlockHash_eq_hashAt, Function.comp]
    rfl

end Locator

section Scan

variable {s : FinalizationState} {tip : BlockPath} {hash : Uint256} {l : List Uint256}
  {index : BlockPath}

theorem scanStart_cons_first (hidx : tip.GetBlockIndex hash = some index) :
    scanStart s tip none (hash :: l) =
      if tip.Genesis ≠ some index ∧ !s.IsFinalizedCheckpoint (UInt32.ofNat index.nHeight)
      then none else scanStart s tip (some index) l := by
  simp only [scanStart, hidx]

theorem scanStart_cons_next (hidx : tip.GetBlockIndex hash = some index) (best : BlockPath) :
    scanStart s tip (some best) (hash :: l) =
      if index.nHeight > best.nHeight then scanStart s tip (some index) l else some best := by
  simp only [scanStart, hidx]

theorem scanStart_cons_none (hidx : tip.GetBlockIndex hash = none) (best : Option BlockPath) :
    scanStart s tip best (hash :: l) = best := by
  simp only [scanStart, hidx]

/-- Run lemma of the peer's scan: over the hashes of its active chain at increasing heights,
the best block moves up to the last of them. -/
theorem scanStart_of_chain (hnodup : tip.hashes.Nodup) :
    ∀ (hs : List Nat) (b0 : Nat) (best : BlockPath), tip.GetAncestor b0 = some best →
      (b0 :: hs).IsChain (· < ·) → (∀ k ∈ hs, k ≤ tip.nHeight) →
      scanStart s tip (some best) (hs.map tip.hashAt) =
        tip.GetAncestor ((b0 :: hs).getLast (List.cons_ne_nil _ _)) := by
  intro hs
  induction hs with
  | nil =>
    intro b0 best hbest _ _
    rw [List.map_nil, scanStart, List.getLast_singleton, hbest]
  | cons k hs ih =>
    intro b0 best hbest hchain hle
    have hk := hle k List.mem_cons_self
    obtain ⟨a, ha⟩ := exists_GetAncestor hk
    rw [List.isChain_cons_cons] at hchain
    rw [List.map_cons, scanStart_cons_next ((GetBlockIndex_hashAt hnodup hk).trans ha),
      if_pos (by rw [nHeight_of_GetAncestor ha, nHeight_of_GetAncestor hbest]; exact hchain.1),
      ih k a ha hchain.2 (fun j hj => hle j (List.mem_cons_of_mem _ hj)),
      List.getLast_cons (List.cons_ne_nil k hs)]

/-- A locator whose first entry is a finalized checkpoint and whose entries are blocks of the
peer's active chain at increasing heights leads the peer to its last entry. -/
theorem FindMostRecentStart_of_chain (hnodup : tip.hashes.Nodup) (b0 : Nat) (hs : List Nat)
    (hfirst : s.IsFinalizedCheckpoint (UInt32.ofNat b0) = true)
    (hchain : (b0 :: hs).IsChain (· < ·)) (hle : ∀ k ∈ b0 :: hs, k ≤ tip.nHeight) :
    FindMostRecentStart s tip ((b0 :: hs).map tip.hashAt) =
      tip.GetAncestor ((b0 :: hs).getLast (List.cons_ne_nil _ _)) := by
  have hb0 := hle b0 List.mem_cons_self
  obtain ⟨best, hbest⟩ := exists_GetAncestor hb0
  rw [FindMostRecentStart, List.map_cons,
    scanStart_cons_first ((GetBlockIndex_hashAt hnodup hb0).trans hbest),
    if_neg (fun hcond => by simp [nHeight_of_GetAncestor hbest, hfirst] at hcond),
    scanStart_of_chain hnodup hs b0 best hbest hchain (fun k hk => hle k (List.mem_cons_of_mem _ hk))]

theorem Contains_of_scanStart :
    ∀ (l : List Uint256) (best : Option BlockPath) {b : BlockPath},
      scanStart s tip best l = some b → best = some b ∨ tip.Contains b = true := by
  intro l
  induction l with
  | nil =>
    intro best b h
    exact Or.inl h
  | cons hash l ih =>
    intro best b h
    -- a step either keeps the best block or moves to a block the peer found on its chain
    have hstep : ∀ index, tip.GetBlockIndex hash = some index →
        scanStart s tip (some index) l = some b → best = some b ∨ tip.Contains b = true := by
      intro index hindex hscan
      rcases ih (some index) hscan with heq | hc
      · cases heq
        exact Or.inr (Contains_of_GetBlockIndex hindex)
      · exact Or.inr hc
    cases hindex : tip.GetBlockIndex hash with
    | none =>
      rw [scanStart_cons_none hindex] at h
      exact Or.inl h
    | some index =>
      cases best with
      | none =>
        rw [scanStart_cons_first hindex] at h
        split_ifs at h
        exact hstep index hindex h
      | some best =>
        rw [scanStart_cons_next hindex] at h
        split_ifs at h
        · exact hstep index hindex h
        · exact Or.inl h

theorem Contains_of_FindMostRecentStart {l : List Uint256} {b : BlockPath}
    (h : FindMostRecentStart s tip l = some b) : tip.Contains b = true := by
  rcases Contains_of_scanStart l none h with hnone | hc
  · cases hnone
  · exact hc

end Scan

/-- The locator of a start block whose fork origin is at or above the last finalized
checkpoint, and the peer's reading of it. The locator names the start block's ancestors at
`locatorHeights`: first the finalized checkpoint, then checkpoints, then the start block, at
increasing heights, with every checkpoint in between unless there are more than
`LOCATOR_START_LIMIT` allows, and at most `LOCATOR_START_LIMIT + 1` entries. A peer with the
same active chain and finalization state starts from the start block when the block is on
its active chain, and never from it otherwise. -/
theorem GetFinalizerCommitsLocator_FindMostRecentStart (s : FinalizationState)
    (tip start o : BlockPath) (hL : s.settings.epoch_length ≠ 0)
    (hfin : s.lastFinalizedEpoch.toNat * s.settings.epoch_length.toNat ≤ tip.nHeight)
    (hfork : FindFork tip start = some o)
    (ho : s.lastFinalizedEpoch.toNat * s.settings.epoch_length.toNat ≤ o.nHeight) :
    let F := s.lastFinalizedEpoch.toNat
    let L := s.settings.epoch_length.toNat
    let heights := locatorHeights F L start.nHeight
    ∃ locator, GetFinalizerCommitsLocator s tip start = .ok locator ∧
      locator = heights.map start.hashAt ∧
      locator.head? = some (tip.hashAt (F * L)) ∧
      heights.Pairwise (· < ·) ∧ heights.getLast? = some start.nHeight ∧
      (∀ x ∈ heights, x = start.nHeight ∨ L ∣ x) ∧
      (start.nHeight ⌈/⌉ L - F ≤ LOCATOR_START_LIMIT →
        ∀ k, F ≤ k → k * L ≤ start.nHeight → k * L ∈ heights) ∧
      locator.length ≤ LOCATOR_START_LIMIT + 1 ∧
      (tip.Contains start = true → tip.hashes.Nodup →
        FindMostRecentStart s tip locator = some start) ∧
      (tip.Contains start = false → FindMostRecentStart s tip locator ≠ some start) := by
  dsimp only
  have hLpos := Params.epoch_length_toNat_pos hL
  have hFh := ho.trans (nHeight_le_of_ancestor (FindFork_spec hfork).2)
  have hpairwise := pairwise_locatorHeights hLpos hFh
  refine ⟨_, GetFinalizerCommitsLocator_eq_ok hL hfin hfork ho, rfl, ?_, hpairwise,
    getLast?_locatorHeights, fun x hx => dvd_of_mem_locatorHeights hx,
    fun hroom k hFk hkh => mem_locatorHeights_of_le hLpos hroom hFk hkh, ?_, ?_, ?_⟩
  · rw [List.head?_map, head?_locatorHeights, Option.map_some, hashAt_eq_of_FindFork hfork ho]
  · rw [List.length_map]
    exact length_locatorHeights_le
  · intro hcontains hnodup
    -- on the active chain the start block's ancestors are the tip's, so the peer finds them all
    have hp := Contains_iff.mp hcontains
    have hle := fun x (hx : x ∈ locatorHeights _ _ _) => le_of_mem_locatorHeights hLpos hFh hx
    obtain ⟨rest, hcons⟩ := List.head?_eq_some_iff.mp (head?_locatorHeights (F := s.lastFinalizedEpoch.toNat)
      (L := s.settings.epoch_length.toNat) (h := start.nHeight))
    have hlast : (s.lastFinalizedEpoch.toNat * s.settings.epoch_length.toNat :: rest).getLast
        (List.cons_ne_nil _ _) = start.nHeight := by
      have hget := getLast?_locatorHeights (F := s.lastFinalizedEpoch.toNat)
        (L := s.settings.epoch_length.toNat) (h := start.nHeight)
      rw [hcons, List.getLast?_eq_some_getLast (List.cons_ne_nil _ _)] at hget
      exact Option.some.inj hget
    have hfit : s.lastFinalizedEpoch.toNat * s.settings.epoch_length.toNat < 2 ^ 32 := by
      have := tip.nHeight_lt
      omega
    rw [List.map_congr_left fun x hx => hashAt_of_ancestor hp (hle x hx), hcons,
      FindMostRecentStart_of_chain hnodup _ rest (IsFinalizedCheckpoint_finalized hL hfit)
        (hcons ▸ hpairwise.isChain)
        (fun x hx => (hle x (hcons ▸ hx)).trans (nHeight_le_of_ancestor hp)), hlast,
      ← GetAncestor_eq_of_ancestor hp le_rfl, GetAncestor_nHeight]
  · intro hnot hfind
    have hcontains := Contains_of_FindMostRecentStart hfind
    rw [hnot] at hcontains
    cases hcontains

def threeBlockTip : BlockPath := ⟨[0, 1, 2], by decide, by decide⟩

def forkedStart : BlockPath := ⟨[0, 1, 7], by decide, by decide⟩

theorem GetFinalizerCommitsLocator_FindMostRecentStart_threeBlockTip :
    (FinalizationState.create Params.RegTest).settings.epoch_length ≠ 0 ∧
      (FinalizationState.create Params.RegTest).lastFinalizedEpoch.toNat *
        (FinalizationState.create Params.RegTest).settings.epoch_length.toNat ≤ threeBlockTip.nHeight ∧
      FindFork threeBlockTip threeBlockTip = some threeBlockTip ∧
      (FinalizationState.create Params.RegTest).lastFinalizedEpoch.toNat *
        (FinalizationState.create Params.RegTest).settings.epoch_length.toNat ≤ threeBlockTip.nHeight ∧
      let F := (FinalizationState.create Params.RegTest).lastFinalizedEpoch.toNat
      let L := (FinalizationState.create Params.RegTest).settings.epoch_length.toNat
      let heights := locatorHeights F L threeBlockTip.nHeight
      ∃ locator, GetFinalizerCommitsLocator (FinalizationState.create Params.RegTest) threeBlockTip
          threeBlockTip = .ok locator ∧
        locator = heights.map threeBlockTip.hashAt ∧
        locator.head? = some (threeBlockTip.hashAt (F * L)) ∧
        heights.Pairwise (· < ·) ∧ heights.getLast? = some threeBlockTip.nHeight ∧
        (∀ x ∈ heights, x = threeBlockTip.nHeight ∨ L ∣ x) ∧
        (threeBlockTip.nHeight ⌈/⌉ L - F ≤ LOCATOR_START_LIMIT →
          ∀ k, F ≤ k → k * L ≤ threeBlockTip.nHeight → k * L ∈ heights) ∧
        locator.length ≤ LOCATOR_START_LIMIT + 1 ∧
        (threeBlockTip.Contains threeBlockTip = true → threeBlockTip.hashes.Nodup →
          FindMostRecentStart (FinalizationState.create Params.RegTest) threeBlockTip locator =
            some threeBlockTip) ∧
        (threeBlockTip.Contains threeBlockTip = false →
          FindMostRecentStart (FinalizationState.create Params.RegTest) threeBlockTip locator ≠
            some threeBlockTip) :=
  have hL : (FinalizationState.create Params.RegTest).settings.epoch_length ≠ 0 := by decide
  have hfin : (FinalizationState.create Params.RegTest).lastFinalizedEpoch.toNat *
      (FinalizationState.create Params.RegTest).settings.epoch_length.toNat ≤ threeBlockTip.nHeight := by
    decide
  have hfork : FindFork threeBlockTip threeBlockTip = some threeBlockTip := by decide
  ⟨hL, hfin, hfork, hfin, GetFinalizerCommitsLocator_FindMostRecentStart _ threeBlockTip threeBlockTip
    threeBlockTip hL hfin hfork hfin⟩

/-- A start block on a fork above the finalized checkpoint: its locator is built, but the peer,
which finds only blocks of its active chain, starts from the genesis block. -/
theorem GetFinalizerCommitsLocator_forkedStart :
    FindFork threeBlockTip forkedStart = forkedStart.GetAncestor 1 ∧
      GetFinalizerCommitsLocator (FinalizationState.create Params.RegTest) threeBlockTip forkedStart =
        .ok [0, 7] ∧
      FindMostRecentStart (FinalizationState.create Params.RegTest) threeBlockTip [0, 7] =
        threeBlockTip.Genesis ∧
      threeBlockTip.Genesis ≠ some forkedStart := by
  decide

end P2P

end UnitE
