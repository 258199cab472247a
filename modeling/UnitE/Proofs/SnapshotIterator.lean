import UnitE.Proofs.SnapshotIndexer

/-! The iterator reads back what the indexer wrote. `Holds` is what a reader needs of an indexer
opened over a directory: the directory holds the subsets `L` in their layout, and the counts and
every data file's bytes fit in `uint32_t`, the width of the offsets in the index. `GetClosestIdx`
then opens the file of a subset at the start of its group, and the cursor predicates `At` and
`Cursor` say what the iterator has read; `Next`, `MoveCursorTo` and the loop of
`GetUTXOSubsets` keep them. -/

namespace UnitE.Snapshot

section Position

variable (step S n : Nat)

def groupStart (i : Nat) : Nat := i / S * S + i % S / step * step

def fileEnd (i : Nat) : Nat := min n (i / S * S + S)

variable {step S n} {i : Nat}

theorem groupStart_le : groupStart step S i ≤ i := by
  have hsplit := Nat.div_add_mod' i S
  have hgroup := Nat.div_mul_le_self (i % S) step
  unfold groupStart
  omega

theorem lt_fileEnd (hS : 0 < S) (hi : i < n) : i < fileEnd S n i :=
  lt_min hi (Nat.lt_div_mul_add hS)

theorem groupStart_of_dvd (hd : S ∣ i) : groupStart step S i = i := by
  rw [groupStart, Nat.mod_eq_zero_of_dvd hd, Nat.zero_div, Nat.zero_mul, Nat.add_zero,
    Nat.div_mul_cancel hd]

end Position

section Reader

variable {α : Type} (codec : ByteCodec α)

/-- What a reader needs of an indexer `ind` opened over `disk`: the directory holds the subsets
`L` in their layout, and the counts and each data file's bytes fit in `uint32_t`. -/
structure Holds (L : List α) (ind : Indexer) (disk : Disk) : Prop where
  total : ind.m_meta.snapshot_header.total_utxo_subsets = L.length
  step_ne : ind.m_meta.step ≠ 0
  steps_per_file_ne : ind.m_meta.steps_per_file ≠ 0
  fits : ind.m_meta.stride * (L.length ⌈/⌉ ind.m_meta.stride) < 2 ^ 32
  bytes : ∀ f, (codec.serList (chunk ind.m_meta.stride L f)).length < 2 ^ 32
  dir : ind.m_dir_idx.entries = dirEntries codec ind.m_meta.step.toNat ind.m_meta.stride L
  files : ∀ f < L.length ⌈/⌉ ind.m_meta.stride,
    disk.utxoDat (UInt32.ofNat f) = some (codec.serList (chunk ind.m_meta.stride L f))

/-- The iterator over `ind` has read `p` subsets, and its open file holds the subsets from `p` to
the end `fe` of that data file, as many as it has left. -/
structure At (L : List α) (ind : Indexer) (it : Iterator α) (p fe : Nat) : Prop where
  indexer : it.m_indexer = ind
  read : it.m_read_total = p
  le_end : p ≤ fe
  end_le : fe ≤ L.length
  end_file : fe = L.length ∨ ind.m_meta.stride ∣ fe
  file : it.m_file = some (codec.serList ((L.drop p).take (fe - p)))
  left : it.m_subset_left = UInt32.ofNat (fe - p)

/-- The iterator over `ind` has read the subsets before `p`, and the last of them is current; one
past the end, it has read them all. -/
structure Cursor (L : List α) (ind : Indexer) (it : Iterator α) (p : Nat) : Prop where
  indexer : it.m_indexer = ind
  read : it.m_read_total = p
  pos : 0 < p
  le : p ≤ L.length + 1
  reading : p ≤ L.length → (∃ fe, At codec L ind it p fe) ∧ L[p - 1]? = some it.m_utxo_subset

variable {codec} {L : List α} {ind : Indexer} {disk : Disk}

namespace Holds

variable (h : Holds codec L ind disk)
include h

theorem stride_pos : 0 < ind.m_meta.stride := Meta.stride_pos h.step_ne h.steps_per_file_ne

theorem step_pos : 0 < ind.m_meta.step.toNat := toNat_pos_of_ne_zero h.step_ne

theorem length_lt : L.length < 2 ^ 32 := lt_of_fits h.stride_pos h.fits

theorem numFiles_lt : L.length ⌈/⌉ ind.m_meta.stride < 2 ^ 32 :=
  lt_of_le_of_lt (Nat.le_mul_of_pos_left _ h.stride_pos) h.fits

theorem stride_lt (hn : 0 < L.length) : ind.m_meta.stride < 2 ^ 32 :=
  lt_of_le_of_lt (Nat.le_mul_of_pos_right _ (Nat.ceilDiv_pos h.stride_pos hn)) h.fits

theorem getElem?_dir {f : Nat} (hf : f < L.length ⌈/⌉ ind.m_meta.stride) :
    ∃ idx_map, ind.m_dir_idx[UInt32.ofNat f]? = some idx_map ∧
      idx_map.toList = idxEntries codec ind.m_meta.step.toNat (chunk ind.m_meta.stride L f) := by
  have hlook := getElem?_ofNat_of_toList (e := fun m : IdxMap => m.toList)
    (F := fun f => idxEntries codec ind.m_meta.step.toNat (chunk ind.m_meta.stride L f)) h.dir
    h.numFiles_lt.le (hf.trans h.numFiles_lt)
  rw [if_pos hf] at hlook
  exact Option.map_eq_some_iff.mp hlook

theorem contains_dir {f : Nat} (hf : f < 2 ^ 32) :
    ind.m_dir_idx.contains (UInt32.ofNat f) = decide (f < L.length ⌈/⌉ ind.m_meta.stride) := by
  have hlook := getElem?_ofNat_of_toList (e := fun m : IdxMap => m.toList)
    (F := fun f => idxEntries codec ind.m_meta.step.toNat (chunk ind.m_meta.stride L f)) h.dir
    h.numFiles_lt.le hf
  rw [Std.TreeMap.contains_eq_isSome_getElem?, ← Option.isSome_map (f := fun m : IdxMap => m.toList),
    hlook]
  by_cases hlt : f < L.length ⌈/⌉ ind.m_meta.stride
  · rw [if_pos hlt, decide_eq_true hlt]
    rfl
  · rw [if_neg hlt, decide_eq_false hlt]
    rfl

theorem fileOf_lt {i : Nat} (hi : i < L.length) :
    i / ind.m_meta.stride < L.length ⌈/⌉ ind.m_meta.stride :=
  Nat.lt_ceilDiv_of_mul_lt h.stride_pos (lt_of_le_of_lt (Nat.div_mul_le_self i _) hi)

theorem stride_eq (hn : 0 < L.length) :
    (ind.m_meta.step * ind.m_meta.steps_per_file).toNat = ind.m_meta.stride := by
  rw [UInt32.toNat_mul, Nat.mod_eq_of_lt
    (show ind.m_meta.step.toNat * ind.m_meta.steps_per_file.toNat < 2 ^ 32 from h.stride_lt hn)]
  rfl

theorem groups_le (f : Nat) :
    (chunk ind.m_meta.stride L f).length ⌈/⌉ ind.m_meta.step.toNat ≤ 2 ^ 32 := by
  have hst := h.step_pos
  have hlen := h.length_lt
  have hle : (chunk ind.m_meta.stride L f).length ≤ L.length := by
    rw [chunk, List.length_take, List.length_drop]
    omega
  have hceil := (ceilDiv_le_iff_le_mul hst).mpr
    (Nat.le_mul_of_pos_left (chunk ind.m_meta.stride L f).length hst)
  omega

/-- The subsets left in the file of subset `i` from the start of its group, as `GetClosestIdx`
counts them: to the end of a full file, or to the total in the last one. -/
theorem closest_left {i : Nat} (hi : i < L.length) :
    (if ind.m_dir_idx.contains (UInt32.ofNat (i / ind.m_meta.stride) + 1) = true then
        ind.m_meta.step * ind.m_meta.steps_per_file -
          UInt32.ofNat (i % ind.m_meta.stride / ind.m_meta.step.toNat) * ind.m_meta.step
      else UInt32.ofNat ind.m_meta.snapshot_header.total_utxo_subsets -
          UInt32.ofNat (i / ind.m_meta.stride * ind.m_meta.stride) -
          UInt32.ofNat (i % ind.m_meta.stride / ind.m_meta.step.toNat) * ind.m_meta.step) =
      UInt32.ofNat (fileEnd ind.m_meta.stride L.length i -
        groupStart ind.m_meta.step.toNat ind.m_meta.stride i) := by
  have hn : 0 < L.length := by omega
  have hS := h.stride_pos
  have hlen := h.length_lt
  have hS32 := h.stride_lt hn
  have hsplit := Nat.div_add_mod' i ind.m_meta.stride
  have hmod := Nat.mod_lt i hS
  have hgroup := Nat.div_mul_le_self (i % ind.m_meta.stride) ind.m_meta.step.toNat
  have hN := h.numFiles_lt
  have hf := h.fileOf_lt hi
  have hprod : ind.m_meta.step * ind.m_meta.steps_per_file = UInt32.ofNat ind.m_meta.stride := by
    rw [← h.stride_eq hn, UInt32.ofNat_toNat]
  rw [show UInt32.ofNat (i / ind.m_meta.stride) + 1 = UInt32.ofNat (i / ind.m_meta.stride + 1) from
      ofNat_add_ofNat _ 1, h.contains_dir (by omega), ofNat_mul_toNat, h.total, hprod, fileEnd,
    groupStart]
  by_cases hlast : i / ind.m_meta.stride + 1 < L.length ⌈/⌉ ind.m_meta.stride
  · -- a full file follows
    have hfull : (i / ind.m_meta.stride + 1) * ind.m_meta.stride < L.length := by
      rw [Nat.succ_mul]
      have := (ceilDiv_le_iff_le_mul hS).not.mp (Nat.not_le.mpr hlast)
      rw [Nat.mul_succ, Nat.mul_comm] at this
      omega
    rw [Nat.succ_mul] at hfull
    rw [decide_eq_true hlast, if_pos rfl, ofNat_sub_ofNat (by omega) hS32,
      min_eq_right (by omega)]
    congr 1
    omega
  · -- the last file ends at the total
    have hend : L.length ≤ i / ind.m_meta.stride * ind.m_meta.stride + ind.m_meta.stride := by
      have := (ceilDiv_le_iff_le_mul hS).mp (Nat.not_lt.mp hlast)
      rw [Nat.mul_succ, Nat.mul_comm] at this
      exact this
    rw [decide_eq_false hlast, if_neg Bool.false_ne_true, ofNat_sub_ofNat (by omega) hlen,
      ofNat_sub_ofNat (by omega) (by omega), min_eq_left hend]
    congr 1
    omega

/-- The offset `GetClosestIdx` seeks to: the bytes of the groups before the subset's in its
file, read from the index. -/
theorem closest_offset {i : Nat} (hi : i < L.length) {idx_map : IdxMap}
    (hidx : idx_map.toList =
      idxEntries codec ind.m_meta.step.toNat (chunk ind.m_meta.stride L (i / ind.m_meta.stride))) :
    (if UInt32.ofNat (i % ind.m_meta.stride / ind.m_meta.step.toNat) > 0 then
        (idx_map.getD (UInt32.ofNat (i % ind.m_meta.stride / ind.m_meta.step.toNat) - 1) 0).toNat
      else 0) =
      (codec.serList ((chunk ind.m_meta.stride L (i / ind.m_meta.stride)).take
        (i % ind.m_meta.stride / ind.m_meta.step.toNat * ind.m_meta.step.toNat))).length := by
  have hst := h.step_pos
  have hlen := h.length_lt
  have hc := mod_lt_length_chunk h.stride_pos hi
  have hbytes := h.bytes (i / ind.m_meta.stride)
  have hgroup := Nat.div_mul_le_self (i % ind.m_meta.stride) ind.m_meta.step.toNat
  have hmod := Nat.mod_le i ind.m_meta.stride
  rcases Nat.eq_zero_or_pos (i % ind.m_meta.stride / ind.m_meta.step.toNat) with hg | hg
  · rw [hg, if_neg (show ¬UInt32.ofNat 0 > 0 by decide), Nat.zero_mul, List.take_zero,
      ByteCodec.serList_nil]
    rfl
  · -- the entry of the group before, one below the subset's group
    have hg32 : i % ind.m_meta.stride / ind.m_meta.step.toNat < 2 ^ 32 :=
      lt_of_le_of_lt ((Nat.div_le_self _ _).trans hmod) (by omega)
    have hpos : UInt32.ofNat (i % ind.m_meta.stride / ind.m_meta.step.toNat) > 0 :=
      (ofNat_lt_ofNat (a := 0) (Nat.two_pow_pos 32) hg32).mpr hg
    have hpred : UInt32.ofNat (i % ind.m_meta.stride / ind.m_meta.step.toNat) - 1 =
        UInt32.ofNat (i % ind.m_meta.stride / ind.m_meta.step.toNat - 1) :=
      ofNat_sub_ofNat hg hg32
    have hentry := getElem?_of_idxEntries hidx (h.groups_le _)
      (Nat.lt_ceilDiv_of_mul_lt hst (lt_of_le_of_lt (Nat.mul_le_mul_right _ (Nat.sub_le _ 1))
        (lt_of_le_of_lt hgroup hc)))
    rw [if_pos hpos, hpred, Std.TreeMap.getD_eq_getD_getElem?, hentry, Option.getD_some,
      Nat.sub_add_cancel hg]
    exact toNat_ofNat_of_lt
      (lt_of_le_of_lt (ByteCodec.length_serList_take_le _ _ _) hbytes)

/-- `GetClosestIdx` opens the data file of subset `i` at the start of its group, with the
subsets from there to the end of the file left. -/
theorem GetClosestIdx {i : Nat} (hi : i < L.length) (left : UInt32) (read : Nat) :
    ind.GetClosestIdx disk i left read =
      (some (codec.serList ((L.drop (groupStart ind.m_meta.step.toNat ind.m_meta.stride i)).take
          (fileEnd ind.m_meta.stride L.length i - groupStart ind.m_meta.step.toNat ind.m_meta.stride i))),
        UInt32.ofNat (fileEnd ind.m_meta.stride L.length i -
          groupStart ind.m_meta.step.toNat ind.m_meta.stride i),
        groupStart ind.m_meta.step.toNat ind.m_meta.stride i) := by
  have hn : 0 < L.length := by omega
  have hlen := h.length_lt
  have hS := h.stride_pos
  have hst := h.step_pos
  have hsplit := Nat.div_add_mod' i ind.m_meta.stride
  have hc := mod_lt_length_chunk hS hi
  have hgroup := Nat.div_mul_le_self (i % ind.m_meta.stride) ind.m_meta.step.toNat
  have hprod : ind.m_meta.step * ind.m_meta.steps_per_file = UInt32.ofNat ind.m_meta.stride := by
    rw [← h.stride_eq hn, UInt32.ofNat_toNat]
  obtain ⟨idx_map, hget, hidx⟩ := h.getElem?_dir (h.fileOf_lt hi)
  -- the start of the file, and the subset's group in it, in `uint32_t` arithmetic
  have hprev : UInt32.ofNat (i / ind.m_meta.stride) * ind.m_meta.step * ind.m_meta.steps_per_file =
      UInt32.ofNat (i / ind.m_meta.stride * ind.m_meta.stride) := by
    rw [UInt32.mul_assoc, hprod, ofNat_mul_ofNat]
  have hindex : (UInt32.ofNat i - UInt32.ofNat (i / ind.m_meta.stride * ind.m_meta.stride)) /
      ind.m_meta.step = UInt32.ofNat (i % ind.m_meta.stride / ind.m_meta.step.toNat) := by
    rw [ofNat_sub_ofNat (Nat.div_mul_le_self i _) (by omega),
      show i - i / ind.m_meta.stride * ind.m_meta.stride = i % ind.m_meta.stride by omega,
      ofNat_div_toNat (by omega)]
  have hread : (UInt32.ofNat (i / ind.m_meta.stride * ind.m_meta.stride) +
      UInt32.ofNat (i % ind.m_meta.stride / ind.m_meta.step.toNat) * ind.m_meta.step).toNat =
      groupStart ind.m_meta.step.toNat ind.m_meta.stride i := by
    rw [ofNat_mul_toNat, ofNat_add_ofNat, toNat_ofNat_of_lt (by omega)]
    rfl
  have htake : (L.drop (groupStart ind.m_meta.step.toNat ind.m_meta.stride i)).take
      (ind.m_meta.stride - i % ind.m_meta.stride / ind.m_meta.step.toNat * ind.m_meta.step.toNat) =
      (L.drop (groupStart ind.m_meta.step.toNat ind.m_meta.stride i)).take
        (fileEnd ind.m_meta.stride L.length i - groupStart ind.m_meta.step.toNat ind.m_meta.stride i) := by
    rw [List.take_eq_take_iff, List.length_drop, fileEnd, groupStart]
    omega
  have hentry := getElem?_of_idxEntries hidx (h.groups_le _)
    (Nat.lt_ceilDiv_of_mul_lt hst (lt_of_le_of_lt hgroup hc))
  simp only [Indexer.GetClosestIdx, h.stride_eq hn, hget, hprev, hindex, hentry, hread,
    h.files _ (h.fileOf_lt hi), h.closest_left hi, h.closest_offset hi hidx,
    ByteCodec.drop_serList_take, drop_chunk]
  rw [← htake]
  rfl

end Holds

theorem Cursor.of_at {it : Iterator α} {p fe : Nat} (hat : At codec L ind it (p + 1) fe)
    (hx : L[p]? = some it.m_utxo_subset) : Cursor codec L ind it (p + 1) :=
  ⟨hat.indexer, hat.read, Nat.succ_pos p, by have := hat.le_end; have := hat.end_le; omega,
    fun _ => ⟨⟨fe, hat⟩, hx⟩⟩

namespace Holds

variable (h : Holds codec L ind disk)
include h

theorem readSubset {it : Iterator α} {p fe : Nat} (hat : At codec L ind it p fe) (hp : p < fe) :
    ∃ it', Iterator.readSubset codec it = some it' ∧ At codec L ind it' (p + 1) fe ∧
      L[p]? = some it'.m_utxo_subset := by
  have hlen := h.length_lt
  have hend := hat.end_le
  have hpL : p < L.length := by omega
  have hbytes : (L.drop p).take (fe - p) = L[p] :: (L.drop (p + 1)).take (fe - (p + 1)) := by
    rw [List.drop_eq_getElem_cons hpL, show fe - p = fe - (p + 1) + 1 by omega, List.take_succ_cons]
  have hleft : UInt32.ofNat (fe - p) - 1 = UInt32.ofNat (fe - (p + 1)) := by
    rw [show fe - (p + 1) = fe - p - 1 by omega]
    exact ofNat_sub_ofNat (b := 1) (by omega) (by omega)
  have hread : Iterator.readSubset codec it = some { it with
      m_file := some (codec.serList ((L.drop (p + 1)).take (fe - (p + 1))))
      m_utxo_subset := L[p]
      m_read_total := p + 1
      m_subset_left := UInt32.ofNat (fe - (p + 1)) } := by
    have hdeser : codec.deser (codec.serList ((L.drop p).take (fe - p))) =
        some (L[p], codec.serList ((L.drop (p + 1)).take (fe - (p + 1)))) := by
      rw [hbytes, ← List.append_nil (codec.serList (_ :: _)), ByteCodec.deser_serList_cons,
        List.append_nil]
    simp only [Iterator.readSubset, hat.file, hdeser, hat.read, hat.left, hleft]
  refine ⟨_, hread, ⟨hat.indexer, rfl, by omega, hend, hat.end_file, rfl, rfl⟩, ?_⟩
  · exact List.getElem?_eq_getElem hpL

theorem closest_at {it : Iterator α} (hind : it.m_indexer = ind) {i : Nat} (hi : i < L.length) :
    At codec L ind { it with
      m_file := some (codec.serList ((L.drop (groupStart ind.m_meta.step.toNat ind.m_meta.stride i)).take
        (fileEnd ind.m_meta.stride L.length i - groupStart ind.m_meta.step.toNat ind.m_meta.stride i)))
      m_subset_left := UInt32.ofNat (fileEnd ind.m_meta.stride L.length i -
        groupStart ind.m_meta.step.toNat ind.m_meta.stride i)
      m_read_total := groupStart ind.m_meta.step.toNat ind.m_meta.stride i }
      (groupStart ind.m_meta.step.toNat ind.m_meta.stride i) (fileEnd ind.m_meta.stride L.length i) := by
  refine ⟨hind, rfl, groupStart_le.trans (lt_fileEnd h.stride_pos hi).le, min_le_left _ _, ?_, rfl,
    rfl⟩
  rw [fileEnd]
  rcases le_total L.length (i / ind.m_meta.stride * ind.m_meta.stride + ind.m_meta.stride) with hle | hle
  · exact .inl (min_eq_left hle)
  · rw [min_eq_right hle]
    exact .inr (Nat.dvd_add (Nat.dvd_mul_left _ _) (Nat.dvd_refl _))

theorem total_eq {it : Iterator α} (hind : it.m_indexer = ind) : it.total = L.length := by
  rw [Iterator.total, hind, h.total]

theorem next_of_at {it : Iterator α} {p fe : Nat} (hat : At codec L ind it p fe) (hp : p < fe) :
    ∃ it', Iterator.Next codec disk it = some it' ∧ At codec L ind it' (p + 1) fe ∧
      L[p]? = some it'.m_utxo_subset := by
  have hlen := h.length_lt
  have hend := hat.end_le
  have htotal := h.total_eq hat.indexer
  have hleft : it.m_subset_left ≠ 0 := by
    rw [hat.left]
    intro h0
    have := ofNat_inj (by omega) (Nat.two_pow_pos 32) h0
    omega
  rw [Iterator.Next, if_neg (by rw [htotal, hat.read]; omega),
    if_neg (by rw [htotal, hat.read]; omega), if_neg hleft]
  exact h.readSubset hat hp

/-- `Next` with the open file used up opens the file of the next subset, at its start, and
reads it. -/
theorem next_of_closest {it : Iterator α} (hind : it.m_indexer = ind) {p : Nat}
    (hread : it.m_read_total = p) (hp : p < L.length) (hdvd : ind.m_meta.stride ∣ p)
    (hleft : it.m_subset_left = 0) :
    ∃ it', Iterator.Next codec disk it = some it' ∧ Cursor codec L ind it' (p + 1) := by
  have htotal := h.total_eq hind
  have hat := h.closest_at hind hp
  rw [groupStart_of_dvd hdvd] at hat
  obtain ⟨it', hread', hat', hx⟩ := h.readSubset hat (lt_fileEnd h.stride_pos hp)
  refine ⟨it', ?_, Cursor.of_at hat' hx⟩
  rw [Iterator.Next, if_neg (by rw [htotal, hread]; omega), if_neg (by rw [htotal, hread]; omega),
    if_pos hleft]
  simp only [hind, hread, h.GetClosestIdx hp, groupStart_of_dvd hdvd, Option.isNone_some,
    Bool.false_eq_true, if_false]
  rw [hind] at hread'
  exact hread'

theorem next {it : Iterator α} {p : Nat} (hc : Cursor codec L ind it p) (hp : p ≤ L.length) :
    ∃ it', Iterator.Next codec disk it = some it' ∧ Cursor codec L ind it' (p + 1) := by
  have htotal := h.total_eq hc.indexer
  have hlen := h.length_lt
  rcases Nat.lt_or_eq_of_le hp with hlt | rfl
  · obtain ⟨⟨fe, hat⟩, -⟩ := hc.reading hp
    have hend := hat.end_le
    have hle := hat.le_end
    by_cases hleft : it.m_subset_left = 0
    · -- the open file is used up: the next subset starts a data file
      have hfe : fe = p := by
        rw [hat.left] at hleft
        have := ofNat_inj (by omega) (Nat.two_pow_pos 32) hleft
        omega
      have hdvd : ind.m_meta.stride ∣ p := hfe ▸ hat.end_file.resolve_left (by omega)
      exact h.next_of_closest hc.indexer hc.read hlt hdvd hleft
    · have hpfe : p < fe := by
        rcases Nat.lt_or_eq_of_le hle with hlt' | heq
        · exact hlt'
        · rw [hat.left, heq, Nat.sub_self] at hleft
          exact absurd rfl hleft
      obtain ⟨it', hnext, hat', hx⟩ := h.next_of_at hat hpfe
      exact ⟨it', hnext, Cursor.of_at hat' hx⟩
  · -- one past the last subset
    refine ⟨{ it with m_read_total := it.m_read_total + 1 }, ?_,
      ⟨hc.indexer, by rw [hc.read], Nat.succ_pos _, le_rfl, fun hle => absurd hle (by omega)⟩⟩
    rw [Iterator.Next, if_neg (by rw [htotal, hc.read]; omega), if_pos (by rw [htotal, hc.read])]

theorem create [Inhabited α] (hn : 0 < L.length) :
    ∃ it, Iterator.create codec disk ind = some it ∧ Cursor codec L ind it 1 := by
  have hpos : (⟨ind, none, 0, 0, default⟩ : Iterator α).total > 0 := by
    rw [h.total_eq rfl]
    exact hn
  rw [Iterator.create, if_pos hpos]
  exact h.next_of_closest rfl rfl hn (Nat.dvd_zero _) rfl

theorem valid_of_cursor {it : Iterator α} {p : Nat} (hc : Cursor codec L ind it p)
    (hp : p ≤ L.length) : it.Valid = true := by
  obtain ⟨⟨fe, hat⟩, -⟩ := hc.reading hp
  rw [Iterator.Valid, hat.file, h.total_eq hc.indexer, hc.read]
  simp [hp]

theorem moveLoop {i : Nat} (hi : i < L.length) (fuel : Nat) :
    ∀ (it : Iterator α) (p : Nat), Cursor codec L ind it p → p ≤ i + 1 → i + 1 - p < fuel →
      ∃ it', Iterator.moveLoop codec disk i fuel it = some (true, it') ∧
        Cursor codec L ind it' (i + 1) := by
  induction fuel with
  | zero =>
    intro it p _ _ hfuel
    omega
  | succ fuel ih =>
    intro it p hc hp hfuel
    rcases Nat.lt_or_eq_of_le hp with hlt | rfl
    · -- the subset is ahead: read the next one
      obtain ⟨it', hnext, hc'⟩ := h.next hc (by omega)
      obtain ⟨it'', hloop, hc''⟩ := ih it' (p + 1) hc' hlt (by omega)
      refine ⟨it'', ?_, hc''⟩
      rw [Iterator.moveLoop, if_pos (by rw [hc.read]; exact hlt), h.valid_of_cursor hc (by omega),
        Bool.not_true, if_neg Bool.false_ne_true, hnext, Option.bind_some]
      exact hloop
    · exact ⟨it, by rw [Iterator.moveLoop, if_neg (by rw [hc.read]; omega)], hc⟩

theorem MoveCursorTo {it : Iterator α} {p : Nat} (hc : Cursor codec L ind it p) (i : Nat) :
    ∃ it', Iterator.MoveCursorTo codec disk it i = some (decide (i < L.length), it') ∧
      (i < L.length → Cursor codec L ind it' (i + 1)) := by
  have htotal := h.total_eq hc.indexer
  by_cases hi : i < L.length
  · rw [decide_eq_true hi]
    by_cases hshort : it.m_read_total = 1 ∧ i = 0
    · -- right after construction the first subset is current
      obtain ⟨hread, rfl⟩ := hshort
      have hp : p = 1 := hc.read.symm.trans hread
      refine ⟨it, ?_, fun _ => by rw [Nat.zero_add, ← hp]; exact hc⟩
      rw [Iterator.MoveCursorTo, if_neg (by rw [htotal]; omega), if_pos ⟨hread, rfl⟩]
    · -- the file of subset `i` is opened at its group, and read forward to it
      have hat := h.closest_at hc.indexer hi
      have hstart : groupStart ind.m_meta.step.toNat ind.m_meta.stride i ≤ i := groupStart_le
      obtain ⟨it₁, hnext, hat₁, hx⟩ :=
        h.next_of_at hat (lt_of_le_of_lt hstart (lt_fileEnd h.stride_pos hi))
      obtain ⟨it', hloop, hc'⟩ :=
        h.moveLoop hi (i + 1) it₁ _ (Cursor.of_at hat₁ hx) (by omega) (by omega)
      refine ⟨it', ?_, fun _ => hc'⟩
      rw [Iterator.MoveCursorTo, if_neg (by rw [htotal]; omega), if_neg hshort]
      simp only [hc.indexer, h.GetClosestIdx hi, Option.isNone_some, Bool.false_eq_true, if_false]
      rw [hc.indexer] at hnext
      rw [hnext, Option.bind_some]
      exact hloop
  · rw [decide_eq_false hi]
    exact ⟨it, by rw [Iterator.MoveCursorTo, if_pos (by rw [htotal]; omega)], fun h' => absurd h' hi⟩

theorem collect (c : Nat) : ∀ (it : Iterator α) (p : Nat), Cursor codec L ind it p →
    ∃ it', Iterator.collect codec disk c it = some ((L.drop (p - 1)).take c, it') := by
  induction c with
  | zero =>
    intro it p _
    exact ⟨it, by rw [List.take_zero]; rfl⟩
  | succ c ih =>
    intro it p hc
    have htotal := h.total_eq hc.indexer
    by_cases hp : p ≤ L.length
    · obtain ⟨-, hx⟩ := hc.reading hp
      obtain ⟨it', hnext, hc'⟩ := h.next hc hp
      obtain ⟨it'', hcol⟩ := ih it' (p + 1) hc'
      have hp1 : p - 1 < L.length := by have := hc.pos; omega
      obtain ⟨hlt, hget⟩ := List.getElem?_eq_some_iff.mp hx
      have hdrop : (L.drop (p - 1)).take (c + 1) = it.GetUTXOSubset :: (L.drop (p + 1 - 1)).take c := by
        rw [List.drop_eq_getElem_cons hp1, List.take_succ_cons, hget,
          show p - 1 + 1 = p + 1 - 1 by have := hc.pos; omega]
        rfl
      refine ⟨it'', ?_⟩
      rw [Iterator.collect, if_pos (h.valid_of_cursor hc hp), hnext, Option.bind_some, hcol, hdrop]
      rfl
    · -- one past the end the iterator is not valid
      have hp' : p = L.length + 1 := by have := hc.le; omega
      have hvalid : it.Valid = false := by
        rw [Iterator.Valid, htotal, hc.read]
        simp [hp]
      refine ⟨it, ?_⟩
      rw [Iterator.collect, if_neg (by rw [hvalid]; exact Bool.false_ne_true), hp',
        Nat.add_sub_cancel, List.drop_length, List.take_nil]

theorem GetUTXOSubsets {it : Iterator α} {p : Nat} (hc : Cursor codec L ind it p) {i : Nat}
    (hi : i < L.length) (count : UInt16) (subsets_out : List α) :
    ∃ it', Iterator.GetUTXOSubsets codec disk it i count subsets_out =
      some (true, (L.drop i).take count.toNat, it') := by
  obtain ⟨it₁, hmove, hc₁⟩ := h.MoveCursorTo hc i
  obtain ⟨it', hcol⟩ := h.collect count.toNat it₁ (i + 1) (hc₁ hi)
  refine ⟨it', ?_⟩
  rw [Iterator.GetUTXOSubsets, hmove, Option.bind_some, decide_eq_true hi, if_pos rfl, hcol,
    Nat.add_sub_cancel]
  rfl

/-- A new iterator over the directory reads back `L`: the loop of `Valid`, `GetUTXOSubset` and
`Next` yields it in order, `MoveCursorTo` moves exactly to its subsets, and `GetUTXOSubsets`
returns them from the one asked for. -/
theorem reads_back [Inhabited α] :
    ∃ it, Iterator.create codec disk ind = some it ∧
      (∀ c, (Iterator.collect codec disk c it).map Prod.fst = some (L.take c)) ∧
      (∀ i, ∃ it', Iterator.MoveCursorTo codec disk it i = some (decide (i < L.length), it') ∧
        (i < L.length → L[i]? = some it'.GetUTXOSubset)) ∧
      (∀ i < L.length, ∀ (count : UInt16) (subsets_out : List α), ∃ it',
        Iterator.GetUTXOSubsets codec disk it i count subsets_out =
          some (true, (L.drop i).take count.toNat, it')) := by
  rcases Nat.eq_zero_or_pos L.length with h0 | hpos
  · -- nothing written: the iterator is not valid from the start
    obtain rfl : L = [] := List.length_eq_zero_iff.mp h0
    have htotal : (⟨ind, none, 0, 0, default⟩ : Iterator α).total = 0 := h.total_eq rfl
    refine ⟨⟨ind, none, 0, 0, default⟩, ?_, fun c => ?_,
      fun i => ⟨⟨ind, none, 0, 0, default⟩, ?_, fun hi => absurd hi (by simp)⟩,
      fun i hi => absurd hi (by simp)⟩
    · rw [Iterator.create, if_neg (by rw [htotal]; exact Nat.lt_irrefl 0)]
    · cases c with
      | zero => rfl
      | succ c =>
        rw [Iterator.collect, if_neg (by simp [Iterator.Valid])]
        rfl
    · rw [Iterator.MoveCursorTo, if_pos (by rw [htotal]; exact Nat.zero_le i)]
      rfl
  · obtain ⟨it, hit, hc⟩ := h.create hpos
    refine ⟨it, hit, fun c => ?_, fun i => ?_, fun i hi count subsets_out => h.GetUTXOSubsets hc hi _ _⟩
    · obtain ⟨it', hcol⟩ := h.collect c it 1 hc
      rw [hcol]
      rfl
    · obtain ⟨it', hmove, hc'⟩ := h.MoveCursorTo hc i
      exact ⟨it', hmove, fun hi => ((hc' hi).reading hi).2⟩

end Holds

theorem Stored.holds {m : Meta} (h : Stored codec m L (curFile m.stride L.length) L.length true ind disk)
    (hfit : m.stride * (L.length ⌈/⌉ m.stride) < 2 ^ 32)
    (hbytes : ∀ f, (codec.serList (chunk m.stride L f)).length < 2 ^ 32) : Holds codec L ind disk := by
  have hstride : ind.m_meta.stride = m.stride := by rw [h.meta_eq]; rfl
  have hstep : ind.m_meta.step = m.step := by rw [h.meta_eq]; rfl
  have hS := h.stride_pos
  refine ⟨by rw [h.meta_eq]; rfl, hstep ▸ h.step_ne, by rw [h.meta_eq]; exact h.steps_per_file_ne,
    hstride ▸ hfit, hstride ▸ hbytes, ?_, ?_⟩
  · rw [hstride, hstep]
    exact (h.clean rfl).2.2.2
  · intro f hf
    rw [hstride] at hf ⊢
    have hpos : 0 < L.length := by
      rcases Nat.eq_zero_or_pos L.length with h0 | hpos
      · rw [h0, zero_ceilDiv] at hf
        exact absurd hf (Nat.not_lt_zero f)
      · exact hpos
    rw [ceilDiv_eq_curFile_succ hS hpos] at hf
    rcases Nat.lt_succ_iff_lt_or_eq.mp hf with hlt | rfl
    · exact h.files_lt f hlt
    · rcases h.files_cur with ⟨-, hin⟩ | hsome
      · have := curFile_mul_lt (S := m.stride) hpos
        omega
      · rw [hsome, List.take_length, ← chunk_eq_drop h.le_next]

end Reader

section RoundTrip

variable {α : Type}

/-- The store reads back what was written. Writes, flushes and reopens, every reopen right after
a flush, then a final flush: an iterator over the reopened indexer yields the subsets written in
order, `MoveCursorTo` succeeds exactly for them and makes the subset current, and
`GetUTXOSubsets` returns them from the one asked for. The counts of the files fit in
`uint32_t`, and so do the bytes of each data file, the width of the offsets in its index. -/
theorem snapshot_round_trip [Inhabited α] (codec : ByteCodec α) (hdr : SnapshotHeader)
    (step steps_per_file : UInt32) (ops : List (IndexerOp α)) (hstep : step ≠ 0)
    (hspf : steps_per_file ≠ 0) (hflushed : IndexerOp.ReopensFlushed false ops = true)
    (hfit : step.toNat * steps_per_file.toNat *
      ((IndexerOp.writes ops).length ⌈/⌉ (step.toNat * steps_per_file.toNat)) < 2 ^ 32)
    (hbytes : ∀ f, (codec.serList
      (chunk (step.toNat * steps_per_file.toNat) (IndexerOp.writes ops) f)).length < 2 ^ 32) :
    ∃ ind₀ ind disk ind' it, Indexer.create hdr step steps_per_file = .ok ind₀ ∧
      runIndexer codec (ops ++ [.flush]) (ind₀, Disk.empty) = some (ind, disk) ∧
      Indexer.Open disk = .ok (some ind') ∧ Iterator.create codec disk ind' = some it ∧
      (∀ c, (Iterator.collect codec disk c it).map Prod.fst =
        some ((IndexerOp.writes ops).take c)) ∧
      (∀ i, ∃ it', Iterator.MoveCursorTo codec disk it i =
          some (decide (i < (IndexerOp.writes ops).length), it') ∧
        (i < (IndexerOp.writes ops).length → (IndexerOp.writes ops)[i]? = some it'.GetUTXOSubset)) ∧
      (∀ i < (IndexerOp.writes ops).length, ∀ (count : UInt16) (subsets_out : List α), ∃ it',
        Iterator.GetUTXOSubsets codec disk it i count subsets_out =
          some (true, ((IndexerOp.writes ops).drop i).take count.toNat, it')) := by
  obtain ⟨ind₀, hcreate, h₀⟩ : ∃ ind, Indexer.create hdr step steps_per_file = .ok ind ∧
      Stored codec ⟨hdr, step, steps_per_file⟩ [] 0 0 false ind Disk.empty :=
    Stored.create hstep hspf
  have h₀' : Stored codec ⟨hdr, step, steps_per_file⟩ [] (curFile (step.toNat * steps_per_file.toNat)
      ([] : List α).length) 0 false ind₀ Disk.empty := by
    rw [List.length_nil, curFile_zero]
    exact h₀
  obtain ⟨inFiles, flushed, ind₁, disk₁, hrun, h₁⟩ :=
    Stored.run ops [] 0 false ind₀ Disk.empty h₀' hflushed (by rw [List.nil_append]; exact hfit)
  rw [List.nil_append] at h₁
  have h₂ := h₁.flush hfit
  obtain ⟨ind', hopen, h₃⟩ := h₂.reopen hfit
  obtain ⟨it, hit, hcollect, hmove, hsubsets⟩ := (h₃.holds hfit hbytes).reads_back
  refine ⟨ind₀, (ind₁.Flush disk₁).1, (ind₁.Flush disk₁).2, ind', it, hcreate, ?_, hopen, hit,
    hcollect, hmove, hsubsets⟩
  rw [runIndexer_append, hrun, Option.bind_some]
  rfl

def byteCodec : ByteCodec UInt8 where
  ser x := [x]
  deser
    | [] => none
    | x :: rest => some (x, rest)
  deser_ser _ _ := rfl
  ser_ne_nil _ := List.cons_ne_nil _ _

theorem byteCodec_serList (l : List UInt8) : byteCodec.serList l = l := by
  induction l with
  | nil => rfl
  | cons x l ih =>
    rw [ByteCodec.serList_cons, ih]
    rfl

def resumedOps : List (IndexerOp UInt8) := [.write 7, .flush, .reopen, .write 8]

theorem snapshot_round_trip_resumed :
    (1 : UInt32) ≠ 0 ∧ IndexerOp.ReopensFlushed false resumedOps = true ∧
      (∀ f, (byteCodec.serList (chunk ((1 : UInt32).toNat * (1 : UInt32).toNat)
        (IndexerOp.writes resumedOps) f)).length < 2 ^ 32) ∧
      ∃ ind₀ ind disk ind' it, Indexer.create ⟨0, 0, 0, 0, 0⟩ 1 1 = .ok ind₀ ∧
        runIndexer byteCodec (resumedOps ++ [.flush]) (ind₀, Disk.empty) = some (ind, disk) ∧
        Indexer.Open disk = .ok (some ind') ∧ Iterator.create byteCodec disk ind' = some it ∧
        (Iterator.collect byteCodec disk 3 it).map Prod.fst = some [7, 8] := by
  have hbytes : ∀ f, (byteCodec.serList (chunk ((1 : UInt32).toNat * (1 : UInt32).toNat)
      (IndexerOp.writes resumedOps) f)).length < 2 ^ 32 := by
    intro f
    rw [byteCodec_serList, chunk, List.length_take]
    exact lt_of_le_of_lt (Nat.min_le_left _ _) (by decide)
  obtain ⟨ind₀, ind, disk, ind', it, hcreate, hrun, hopen, hit, hcollect, -, -⟩ :=
    snapshot_round_trip byteCodec ⟨0, 0, 0, 0, 0⟩ 1 1 resumedOps (by decide) (by decide) (by decide)
      (by decide) hbytes
  exact ⟨by decide, by decide, hbytes, ind₀, ind, disk, ind', it, hcreate, hrun, hopen, hit,
    (hcollect 3).trans rfl⟩

/-- Reopening without a flush drops what was written since the last one: the reader of the
directory finds nothing, where a subset was written. -/
theorem reopen_unflushed_loses_subset :
    IndexerOp.writes [IndexerOp.flush, .write (7 : UInt8), .reopen] = [7] ∧
      ∃ ind₀ ind disk ind' it, Indexer.create ⟨0, 0, 0, 0, 0⟩ 1 1 = .ok ind₀ ∧
        runIndexer byteCodec ([.flush, .write 7, .reopen] ++ [.flush]) (ind₀, Disk.empty) =
          some (ind, disk) ∧
        Indexer.Open disk = .ok (some ind') ∧ Iterator.create byteCodec disk ind' = some it ∧
        (Iterator.collect byteCodec disk 2 it).map Prod.fst = some [] :=
  ⟨rfl, _, _, _, _, _, rfl, rfl, rfl, rfl, rfl⟩

end RoundTrip

end UnitE.Snapshot
