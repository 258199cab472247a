import UnitE.Proofs.SnapshotLayout

/-! The indexer keeps to the layout of what it wrote. `Stored` says where every subset written
so far is: in a data file or still in the stream, with the current file's index in the indexer
and the earlier files' in the directory's. Writes, flushes and reopens keep it, as long as every
reopen follows a flush with no write since and the counts fit in `uint32_t`; a flush also
brings `meta.dat` and `index.dat` up to date. -/

namespace UnitE.Snapshot

def Meta.stride (m : Meta) : Nat := m.step.toNat * m.steps_per_file.toNat

def Meta.withTotal (m : Meta) (n : Nat) : Meta :=
  { m with snapshot_header := { m.snapshot_header with total_utxo_subsets := n } }

theorem toNat_pos_of_ne_zero {a : UInt32} (h : a ≠ 0) : 0 < a.toNat := by
  rw [Nat.pos_iff_ne_zero, Ne, ← UInt32.toNat_zero, UInt32.toNat_inj]
  exact h

theorem Meta.stride_pos {m : Meta} (hstep : m.step ≠ 0) (hspf : m.steps_per_file ≠ 0) :
    0 < m.stride :=
  Nat.mul_pos (toNat_pos_of_ne_zero hstep) (toNat_pos_of_ne_zero hspf)

namespace Indexer

variable {α : Type} (codec : ByteCodec α) (ind : Indexer) (disk : Disk)

def fileOf : UInt32 :=
  UInt32.ofNat (ind.m_meta.snapshot_header.total_utxo_subsets /
    (ind.m_meta.step * ind.m_meta.steps_per_file).toNat)

/-- The move to the next data file in `WriteUTXOSubset`. -/
def nextFile (file_id : UInt32) : Indexer × Disk :=
  let (ind, disk) := ind.FlushFile disk
  ({ ind with
      m_dir_idx := ind.m_dir_idx.insert ind.m_file_id ind.m_file_idx
      m_stream := []
      m_file_idx := ∅
      m_file_msgs := 0
      m_file_bytes := 0
      m_file_id := file_id }, disk)

/-- The rest of `WriteUTXOSubset`: the subset is buffered and its group's offset set. -/
def appendSubset (subset : α) : Indexer :=
  let m_stream := ind.m_stream ++ codec.ser subset
  let idx := ind.m_file_msgs / ind.m_meta.step
  { ind with
      m_stream := m_stream
      m_file_idx := ind.m_file_idx.insert idx (UInt32.ofNat m_stream.length + ind.m_file_bytes)
      m_meta.snapshot_header.total_utxo_subsets := ind.m_meta.snapshot_header.total_utxo_subsets + 1
      m_file_msgs := ind.m_file_msgs + 1 }

theorem ofMeta_eq_of_getLast? {m : Meta} {dir_idx : DirIdx} {file_id : UInt32} {file_idx : IdxMap}
    (hstep : m.step ≠ 0) (hspf : m.steps_per_file ≠ 0)
    (hlast : dir_idx.toList.getLast? = some (file_id, file_idx)) :
    ofMeta m dir_idx = .ok ⟨m, [], dir_idx, file_idx, file_id,
      UInt32.ofNat m.snapshot_header.total_utxo_subsets -
        UInt32.ofNat ((dir_idx.size - 1) * m.step.toNat * m.steps_per_file.toNat),
      match file_idx.toList.getLast? with
      | none => 0
      | some (_, bytes) => bytes⟩ := by
  simp only [ofMeta, hstep, hspf, hlast, if_false]
  rfl

theorem ofMeta_eq_of_getLast?_none {m : Meta} {dir_idx : DirIdx} (hstep : m.step ≠ 0)
    (hspf : m.steps_per_file ≠ 0) (hlast : dir_idx.toList.getLast? = none) :
    ofMeta m dir_idx = .ok ⟨m, [], dir_idx, ∅, 0, 0, 0⟩ := by
  simp only [ofMeta, hstep, hspf, hlast, if_false]
  rfl

theorem Open_eq {m : Meta} {dir_idx : DirIdx} {ind : Indexer} (hmeta : disk.metaDat = some m)
    (hidx : disk.indexDat = some dir_idx) (h : ofMeta m dir_idx = .ok ind) :
    Open disk = .ok (some ind) := by
  simp only [Open, hmeta, hidx, h]
  rfl

theorem WriteUTXOSubset_eq (subset : α) :
    ind.WriteUTXOSubset codec disk subset =
      let p := if ind.fileOf > ind.m_file_id then ind.nextFile disk ind.fileOf else (ind, disk)
      (p.1.appendSubset codec subset, p.2) :=
  rfl

end Indexer

theorem take_drop_append_drop {α : Type} (l : List α) {a b : Nat} (h : a ≤ b) :
    (l.take b).drop a ++ l.drop b = l.drop a := by
  rw [List.drop_take, show l.drop b = (l.drop a).drop (b - a) by rw [List.drop_drop]; congr 1; omega,
    List.take_append_drop]

section Stored

variable {α : Type} (codec : ByteCodec α)

/-- An indexer with the meta data `m` that wrote the subsets `W`: it writes to data file `cur`,
the first `inFiles` subsets are in the data files and the others in its stream, and with
`flushed` the directory's `meta.dat` and `index.dat` are those of `W`. The directory's index has
the earlier files, and the current file's entry as last flushed, if it was. -/
structure Stored (m : Meta) (W : List α) (cur inFiles : Nat) (flushed : Bool) (ind : Indexer)
    (disk : Disk) : Prop where
  step_ne : m.step ≠ 0
  steps_per_file_ne : m.steps_per_file ≠ 0
  cur_le : cur * m.stride ≤ W.length
  le_next : W.length ≤ cur * m.stride + m.stride
  cur_le_inFiles : cur * m.stride ≤ inFiles
  inFiles_le : inFiles ≤ W.length
  meta_eq : ind.m_meta = m.withTotal W.length
  file_id : ind.m_file_id = UInt32.ofNat cur
  file_msgs : ind.m_file_msgs = UInt32.ofNat (W.length - cur * m.stride)
  file_idx : ind.m_file_idx.toList = idxEntries codec m.step.toNat (chunk m.stride W cur)
  file_bytes : ind.m_file_bytes =
    UInt32.ofNat (codec.serList ((W.take inFiles).drop (cur * m.stride))).length
  stream : ind.m_stream = codec.serList (W.drop inFiles)
  dir : ∃ A B, ind.m_dir_idx.toList = A ++ B ∧
    A.map (fun p => (p.1, p.2.toList)) = (dirEntries codec m.step.toNat m.stride W).take cur ∧
    (B = [] ∨ cur * m.stride < W.length ∧ ∃ fi, B = [(UInt32.ofNat cur, fi)])
  files_lt : ∀ f < cur, disk.utxoDat (UInt32.ofNat f) = some (codec.serList (chunk m.stride W f))
  files_cur : disk.utxoDat (UInt32.ofNat cur) = none ∧ inFiles = cur * m.stride ∨
    disk.utxoDat (UInt32.ofNat cur) =
      some (codec.serList ((W.take inFiles).drop (cur * m.stride)))
  files_gt : ∀ k : UInt32, cur < k.toNat → disk.utxoDat k = none
  clean : flushed = true → inFiles = W.length ∧ disk.metaDat = some ind.m_meta ∧
    disk.indexDat = some ind.m_dir_idx ∧
    ind.m_dir_idx.entries = dirEntries codec m.step.toNat m.stride W

variable {codec} {m : Meta} {W : List α} {cur inFiles : Nat} {flushed : Bool} {ind : Indexer}
  {disk : Disk}

namespace Stored

variable (h : Stored codec m W cur inFiles flushed ind disk)
include h

theorem stride_pos : 0 < m.stride := Meta.stride_pos h.step_ne h.steps_per_file_ne

theorem utxoDat_cur_getD :
    (disk.utxoDat (UInt32.ofNat cur)).getD [] =
      codec.serList ((W.take inFiles).drop (cur * m.stride)) := by
  rcases h.files_cur with ⟨hnone, hin⟩ | hsome
  · rw [hnone, hin, List.drop_eq_nil_of_le (by rw [List.length_take]; omega)]
    rfl
  · rw [hsome]
    rfl

theorem flushFile (hcur : cur < 2 ^ 32) :
    Stored codec m W cur W.length false (ind.FlushFile disk).1 (ind.FlushFile disk).2 := by
  have hsplit := take_drop_append_drop W h.cur_le_inFiles
  have hne : ∀ k : UInt32, k.toNat ≠ cur → k ≠ UInt32.ofNat cur := by
    rintro k hk rfl
    exact hk (toNat_ofNat_of_lt hcur)
  have hcur' : (W.take W.length).drop (cur * m.stride) = W.drop (cur * m.stride) := by
    rw [List.take_length]
  refine ⟨h.step_ne, h.steps_per_file_ne, h.cur_le, h.le_next, h.cur_le, le_rfl, h.meta_eq,
    h.file_id, h.file_msgs, h.file_idx, ?_, ?_, h.dir, ?_, ?_, ?_, fun hf => absurd hf (by simp)⟩
  · show ind.m_file_bytes + UInt32.ofNat ind.m_stream.length = _
    rw [h.file_bytes, h.stream, ofNat_add_ofNat, ← List.length_append, ← ByteCodec.serList_append,
      hsplit, hcur']
  · show [] = _
    rw [List.drop_length, ByteCodec.serList_nil]
  · intro f hf
    show Function.update _ _ _ _ = _
    rw [h.file_id, Function.update_of_ne (hne _ (by rw [toNat_ofNat_of_lt (by omega)]; omega)),
      h.files_lt f hf]
  · refine .inr ?_
    show Function.update _ _ _ _ = _
    rw [h.file_id, Function.update_self, h.utxoDat_cur_getD, h.stream, ← ByteCodec.serList_append,
      hsplit, hcur']
  · intro k hk
    show Function.update _ _ _ _ = _
    rw [h.file_id, Function.update_of_ne (hne k (by omega)), h.files_gt k hk]

theorem dirInsert (hcur : cur < 2 ^ 32) :
    ∃ A, (ind.m_dir_idx.insert ind.m_file_id ind.m_file_idx).toList =
        A ++ [(UInt32.ofNat cur, ind.m_file_idx)] ∧
      (A ++ [(UInt32.ofNat cur, ind.m_file_idx)]).map (fun p => (p.1, p.2.toList)) =
        (List.range (cur + 1)).map (dirEntry codec m.step.toNat m.stride W) ∧
      A.map (fun p => (p.1, p.2.toList)) = (dirEntries codec m.step.toNat m.stride W).take cur := by
  obtain ⟨A, B, hdir, hA, hB⟩ := h.dir
  have hA' : A.map (fun p => (p.1, p.2.toList)) =
      (List.range cur).map (dirEntry codec m.step.toNat m.stride W) := by
    rw [hA, dirEntries_take h.stride_pos h.cur_le]
  have hkeys : ∀ p ∈ A, compare p.1 (UInt32.ofNat cur) = .lt := by
    intro p hp
    have hmem := List.mem_map_of_mem (f := fun p : UInt32 × IdxMap => (p.1, p.2.toList)) hp
    rw [hA'] at hmem
    exact compare_lt_of_mem_map_range (F := dirEntry codec m.step.toNat m.stride W) (fun _ => rfl)
      hcur (p.1, p.2.toList) hmem
  refine ⟨A, ?_, ?_, hA⟩
  · rw [h.file_id]
    exact Std.TreeMap.toList_insert_of_keys_lt _ hdir hkeys (hB.imp_right fun hB' => hB'.2)
  · rw [List.map_append, hA', List.range_succ, List.map_append, List.map_singleton,
      List.map_singleton, h.file_idx]
    rfl

theorem nextFile (hfull : W.length = cur * m.stride + m.stride) (hcur : cur + 1 < 2 ^ 32) :
    Stored codec m W (cur + 1) W.length false (ind.nextFile disk (UInt32.ofNat (cur + 1))).1
      (ind.nextFile disk (UInt32.ofNat (cur + 1))).2 := by
  have hf := h.flushFile (by omega)
  have hS := h.stride_pos
  have hnext : (cur + 1) * m.stride = W.length := by rw [Nat.succ_mul, hfull]
  obtain ⟨A, hins, hmap, -⟩ := hf.dirInsert (by omega)
  refine ⟨h.step_ne, h.steps_per_file_ne, hnext.le, by omega, hnext.le, le_rfl, hf.meta_eq, rfl,
    ?_, ?_, ?_, ?_,
    ⟨A ++ [(UInt32.ofNat cur, (ind.FlushFile disk).1.m_file_idx)], [], by rw [List.append_nil]; exact hins,
      by rw [hmap, dirEntries_take hS hnext.le], .inl rfl⟩,
    ?_, .inl ⟨hf.files_gt _ (by rw [toNat_ofNat_of_lt hcur]; omega), hnext.symm⟩,
    fun k hk => hf.files_gt k (by omega), fun hfl => absurd hfl (by simp)⟩
  · show (0 : UInt32) = UInt32.ofNat (W.length - (cur + 1) * m.stride)
    rw [hnext, Nat.sub_self]
    rfl
  · show (∅ : IdxMap).toList = _
    rw [Std.TreeMap.toList_emptyc, chunk_eq_nil hnext.ge]
    simp [idxEntries]
  · show (0 : UInt32) = _
    rw [List.take_length, List.drop_eq_nil_of_le (by rw [hnext])]
    rfl
  · show [] = _
    rw [List.drop_length, ByteCodec.serList_nil]
  · intro f hf'
    rcases Nat.lt_succ_iff_lt_or_eq.mp hf' with hlt | rfl
    · exact hf.files_lt f hlt
    · rcases hf.files_cur with ⟨-, hin⟩ | hsome
      · omega
      · rw [List.take_length, ← chunk_eq_drop h.le_next] at hsome
        exact hsome

/-- Appending a subset to a data file with room for it buffers its bytes and sets the offset of
its group to the end of them. -/
theorem appendSubset (x : α) (hroom : W.length < cur * m.stride + m.stride)
    (hbound : cur * m.stride + m.stride < 2 ^ 32) :
    Stored codec m (W ++ [x]) cur inFiles false (ind.appendSubset codec x) disk := by
  have hS := h.stride_pos
  have hst : 0 < m.step.toNat := toNat_pos_of_ne_zero h.step_ne
  have hlen : (W ++ [x]).length = W.length + 1 := by rw [List.length_append, List.length_singleton]
  have htake : (W ++ [x]).take inFiles = W.take inFiles := List.take_append_of_le_length h.inFiles_le
  have hc : chunk m.stride W cur = W.drop (cur * m.stride) := chunk_eq_drop h.le_next
  have hcur := h.cur_le
  have hin := h.inFiles_le
  obtain ⟨A, B, hdir, hA, hB⟩ := h.dir
  refine ⟨h.step_ne, h.steps_per_file_ne, by omega, by omega, h.cur_le_inFiles, by omega, ?_,
    h.file_id, ?_, ?_, by rw [htake]; exact h.file_bytes, ?_, ⟨A, B, hdir, ?_, ?_⟩, ?_,
    by rw [htake]; exact h.files_cur, h.files_gt, fun hfl => absurd hfl (by simp)⟩
  · show { ind.m_meta with snapshot_header := { ind.m_meta.snapshot_header with
      total_utxo_subsets := ind.m_meta.snapshot_header.total_utxo_subsets + 1 } } = _
    rw [h.meta_eq, hlen]
    rfl
  · show ind.m_file_msgs + UInt32.ofNat 1 = _
    rw [h.file_msgs, ofNat_add_ofNat, hlen, Nat.sub_add_comm h.cur_le]
  · -- the subset's group is the last one of the current file
    have hk : (chunk m.stride W cur).length / m.step.toNat < 2 ^ 32 := by
      rw [hc, List.length_drop]
      exact lt_of_le_of_lt (Nat.div_le_self _ _) (by omega)
    have hidx : ind.m_file_msgs / ind.m_meta.step =
        UInt32.ofNat ((chunk m.stride W cur).length / m.step.toNat) := by
      rw [h.file_msgs, h.meta_eq, hc, List.length_drop]
      show UInt32.ofNat _ / m.step = _
      rw [← ofNat_div (by omega) m.step.toNat_lt, UInt32.ofNat_toNat]
    have hbytes : UInt32.ofNat (ind.m_stream ++ codec.ser x).length + ind.m_file_bytes =
        UInt32.ofNat (codec.serList (chunk m.stride W cur ++ [x])).length := by
      rw [h.stream, h.file_bytes, ofNat_add_ofNat, hc, ← take_drop_append_drop W h.cur_le_inFiles]
      simp only [ByteCodec.serList_append, ByteCodec.serList_cons, ByteCodec.serList_nil,
        List.append_nil, List.length_append]
      congr 1
      omega
    obtain ⟨B', hsplit, hB'⟩ := @idxEntries_split _ codec _ hst (chunk m.stride W cur)
    show (ind.m_file_idx.insert _ _).toList = _
    rw [hidx, hbytes, Std.TreeMap.toList_insert_of_keys_lt _ (h.file_idx.trans hsplit)
        (compare_lt_of_mem_map_range (fun _ => rfl) hk) hB',
      chunk_concat x h.cur_le hroom, idxEntries_concat hst]
  · show ind.m_stream ++ codec.ser x = _
    rw [h.stream, List.drop_append_of_le_length h.inFiles_le, ByteCodec.serList_append,
      ByteCodec.serList_cons, ByteCodec.serList_nil, List.append_nil]
  · rw [hA, dirEntries_take hS h.cur_le, dirEntries_take hS (by omega)]
    refine List.map_congr_left fun f hf => (dirEntry_append [x] ?_).symm
    have hf' := List.mem_range.mp hf
    calc (f + 1) * m.stride ≤ cur * m.stride := Nat.mul_le_mul_right _ hf'
      _ ≤ W.length := h.cur_le
  · exact hB.imp_right fun hB' => ⟨by omega, hB'.2⟩
  · intro f hf
    have hle : (f + 1) * m.stride ≤ W.length := (Nat.mul_le_mul_right _ hf).trans h.cur_le
    rw [chunk_append [x] hle]
    exact h.files_lt f hf

theorem unflushed : Stored codec m W cur inFiles false ind disk :=
  { h with clean := fun hfl => absurd hfl (by simp) }

theorem flushStream (hcur : cur < 2 ^ 32) :
    Stored codec m W cur W.length false
      (if ind.m_stream.isEmpty then (ind, disk) else ind.FlushFile disk).1
      (if ind.m_stream.isEmpty then (ind, disk) else ind.FlushFile disk).2 := by
  split_ifs with hempty
  · rw [List.isEmpty_iff, h.stream, ByteCodec.serList_eq_nil_iff, List.drop_eq_nil_iff] at hempty
    have hin : inFiles = W.length := le_antisymm h.inFiles_le hempty
    exact hin ▸ h.unflushed
  · exact h.flushFile hcur

theorem fileOf_eq (hS32 : m.stride < 2 ^ 32) : ind.fileOf = UInt32.ofNat (W.length / m.stride) := by
  rw [Indexer.fileOf, h.meta_eq]
  show UInt32.ofNat (W.length / (m.step * m.steps_per_file).toNat) = _
  rw [UInt32.toNat_mul, Nat.mod_eq_of_lt (show m.step.toNat * m.steps_per_file.toNat < 2 ^ 32 from hS32)]
  rfl

end Stored

/-- Writing a subset keeps the layout; the indexer moves on to the next data file when the
current one is full. -/
theorem Stored.write (h : Stored codec m W (curFile m.stride W.length) inFiles flushed ind disk)
    (x : α) (hfit : m.stride * ((W.length + 1) ⌈/⌉ m.stride) < 2 ^ 32) :
    ∃ inFiles', Stored codec m (W ++ [x]) (curFile m.stride (W ++ [x]).length) inFiles' false
      (ind.WriteUTXOSubset codec disk x).1 (ind.WriteUTXOSubset codec disk x).2 := by
  have hS := h.stride_pos
  rw [ceilDiv_eq_curFile_succ hS (Nat.succ_pos _), curFile_succ, Nat.mul_succ] at hfit
  have hS32 : m.stride < 2 ^ 32 := by omega
  rw [List.length_append, List.length_singleton, curFile_succ]
  generalize curFile m.stride W.length = cur at h
  have hcur := h.cur_le
  have hnext := h.le_next
  have hle := Nat.le_mul_of_pos_right cur hS
  by_cases hfull : W.length = cur * m.stride + m.stride
  · -- the current file is full: the subset opens the next one
    have hdiv : W.length / m.stride = cur + 1 := by
      rw [hfull, ← Nat.succ_mul, Nat.mul_div_cancel _ hS]
    rw [hdiv, Nat.mul_succ, Nat.mul_comm] at hfit
    have hgt : UInt32.ofNat (cur + 1) > UInt32.ofNat cur :=
      (ofNat_lt_ofNat (by omega) (by omega)).mpr (Nat.lt_succ_self cur)
    have hw : ind.WriteUTXOSubset codec disk x =
        ((ind.nextFile disk (UInt32.ofNat (cur + 1))).1.appendSubset codec x,
          (ind.nextFile disk (UInt32.ofNat (cur + 1))).2) := by
      rw [Indexer.WriteUTXOSubset_eq, h.fileOf_eq hS32, hdiv, h.file_id, if_pos hgt]
    rw [hw, hdiv]
    exact ⟨_, (h.nextFile hfull (by omega)).appendSubset x (by rw [Nat.succ_mul]; omega)
      (by rw [Nat.succ_mul]; omega)⟩
  · have hdiv : W.length / m.stride = cur :=
      Nat.div_eq_of_lt_le hcur (by rw [Nat.succ_mul]; omega)
    rw [hdiv, Nat.mul_comm] at hfit
    have hw : ind.WriteUTXOSubset codec disk x = (ind.appendSubset codec x, disk) := by
      rw [Indexer.WriteUTXOSubset_eq, h.fileOf_eq hS32, hdiv, h.file_id, if_neg (UInt32.lt_irrefl _)]
    rw [hw, hdiv]
    exact ⟨_, h.appendSubset x (by omega) (by omega)⟩

theorem Indexer.FlushIndex_eq :
    ind.FlushIndex disk =
      ({ ind with m_dir_idx := (if ind.m_file_idx.isEmpty then ind.m_dir_idx
          else ind.m_dir_idx.insert ind.m_file_id ind.m_file_idx) },
        { disk with indexDat := some (if ind.m_file_idx.isEmpty then ind.m_dir_idx
          else ind.m_dir_idx.insert ind.m_file_id ind.m_file_idx) }) := by
  unfold Indexer.FlushIndex
  split <;> rfl

/-- The rest of `Flush`: the current file's index, if not empty, is filed in the directory's, and
`index.dat` and `meta.dat` are written. -/
theorem Stored.flushIndex
    (h : Stored codec m W (curFile m.stride W.length) W.length flushed ind disk)
    (hfit : m.stride * (W.length ⌈/⌉ m.stride) < 2 ^ 32) :
    Stored codec m W (curFile m.stride W.length) W.length true (ind.FlushIndex disk).1
      ((ind.FlushIndex disk).1.FlushMeta (ind.FlushIndex disk).2) := by
  have hS := h.stride_pos
  have hcur : curFile m.stride W.length < 2 ^ 32 :=
    lt_of_le_of_lt (curFile_le _) (lt_of_fits hS hfit)
  obtain ⟨A, hins, hmap, hA⟩ := h.dirInsert hcur
  rw [Indexer.FlushIndex_eq]
  generalize hc : curFile m.stride W.length = cur at h hcur hins hmap hA ⊢
  have hcur_le := h.cur_le
  by_cases hlt : cur * m.stride < W.length
  · -- the current file has subsets: its index joins the directory's, as the last entry
    have hfiles : W.length ⌈/⌉ m.stride = cur + 1 := by
      rw [Nat.ceilDiv_eq_iff hS (Nat.succ_pos _), Nat.succ_sub_one, Nat.mul_succ, Nat.mul_comm]
      exact ⟨hlt, h.le_next⟩
    have hne : ind.m_file_idx.isEmpty = false := by
      rw [← Bool.not_eq_true, ← Std.TreeMap.toList_eq_nil_iff, h.file_idx, ← List.length_eq_zero_iff,
        idxEntries, List.length_map, List.length_range]
      exact Nat.pos_iff_ne_zero.mp (Nat.ceilDiv_pos (toNat_pos_of_ne_zero h.step_ne)
        (by rw [chunk_eq_drop h.le_next, List.length_drop]; omega))
    rw [hne, if_neg Bool.false_ne_true]
    refine ⟨h.step_ne, h.steps_per_file_ne, h.cur_le, h.le_next, h.cur_le_inFiles, h.inFiles_le,
      h.meta_eq, h.file_id, h.file_msgs, h.file_idx, h.file_bytes, h.stream,
      ⟨A, _, hins, hA, .inr ⟨hlt, _, rfl⟩⟩, h.files_lt, h.files_cur, h.files_gt,
      fun _ => ⟨rfl, rfl, rfl, ?_⟩⟩
    show (_ : DirIdx).toList.map _ = _
    rw [hins, hmap, dirEntries, hfiles]
  · -- nothing written yet: the directory's index stays empty
    have hzero : W.length = 0 := by
      rcases Nat.eq_zero_or_pos W.length with h0 | hpos
      · exact h0
      · have hlow := curFile_mul_lt (S := m.stride) hpos
        rw [hc] at hlow
        omega
    have hempty : ind.m_file_idx.isEmpty = true := by
      rw [← Std.TreeMap.toList_eq_nil_iff, h.file_idx, chunk_eq_nil (by omega)]
      simp [idxEntries]
    rw [hempty, if_pos rfl]
    refine ⟨h.step_ne, h.steps_per_file_ne, h.cur_le, h.le_next, h.cur_le_inFiles, h.inFiles_le,
      h.meta_eq, h.file_id, h.file_msgs, h.file_idx, h.file_bytes, h.stream, h.dir,
      h.files_lt, h.files_cur, h.files_gt, fun _ => ⟨rfl, rfl, rfl, ?_⟩⟩
    obtain ⟨A', B', hdir, hA', hB'⟩ := h.dir
    obtain rfl : W = [] := List.length_eq_zero_iff.mp hzero
    have hB : B' = [] := hB'.resolve_right fun hB => by simp at hB
    have hA0 : A' = [] := by
      rw [← List.map_eq_nil_iff, hA']
      simp [dirEntries]
    show (_ : DirIdx).toList.map _ = _
    rw [hdir, hA0, hB]
    simp [dirEntries]

theorem Indexer.Flush_eq :
    ind.Flush disk =
      let p := if ind.m_stream.isEmpty then (ind, disk) else ind.FlushFile disk
      ((p.1.FlushIndex p.2).1, (p.1.FlushIndex p.2).1.FlushMeta (p.1.FlushIndex p.2).2) :=
  rfl

/-- `Flush` puts every subset written in the data files and brings `meta.dat` and `index.dat`
up to date. -/
theorem Stored.flush (h : Stored codec m W (curFile m.stride W.length) inFiles flushed ind disk)
    (hfit : m.stride * (W.length ⌈/⌉ m.stride) < 2 ^ 32) :
    Stored codec m W (curFile m.stride W.length) W.length true (ind.Flush disk).1
      (ind.Flush disk).2 := by
  have hcur : curFile m.stride W.length < 2 ^ 32 :=
    lt_of_le_of_lt (curFile_le _) (lt_of_fits h.stride_pos hfit)
  rw [Indexer.Flush_eq]
  exact (h.flushStream hcur).flushIndex hfit

/-- Reopening a flushed directory gives an indexer that carries on where the last one stopped:
the current file is the last one of the index, with the subsets and bytes it holds. -/
theorem Stored.reopen (h : Stored codec m W (curFile m.stride W.length) inFiles true ind disk)
    (hfit : m.stride * (W.length ⌈/⌉ m.stride) < 2 ^ 32) :
    ∃ ind', Indexer.Open disk = .ok (some ind') ∧
      Stored codec m W (curFile m.stride W.length) W.length true ind' disk := by
  obtain ⟨rfl, hmeta, hidx, hentries⟩ := h.clean rfl
  have hS := h.stride_pos
  have hn := lt_of_fits hS hfit
  have hstep : ind.m_meta.step ≠ 0 := by rw [h.meta_eq]; exact h.step_ne
  have hspf : ind.m_meta.steps_per_file ≠ 0 := by rw [h.meta_eq]; exact h.steps_per_file_ne
  rcases Nat.eq_zero_or_pos W.length with h0 | hpos
  · -- nothing written: the reopened indexer starts on file 0
    obtain rfl : W = [] := List.length_eq_zero_iff.mp h0
    have hnil : ind.m_dir_idx.toList = [] := by
      rw [← List.map_eq_nil_iff]
      exact hentries.trans (by simp [dirEntries])
    refine ⟨⟨ind.m_meta, [], ind.m_dir_idx, ∅, 0, 0, 0⟩,
      Indexer.Open_eq disk hmeta hidx
        (Indexer.ofMeta_eq_of_getLast?_none hstep hspf (by rw [hnil]; rfl)), ?_⟩
    simp only [List.length_nil, curFile_zero] at h ⊢
    refine ⟨h.step_ne, h.steps_per_file_ne, by simp, by simp, by simp, le_rfl, h.meta_eq, rfl,
      by simp, by simp [chunk, idxEntries], by simp, rfl, ⟨[], [], hnil, by simp, .inl rfl⟩, h.files_lt,
      h.files_cur, h.files_gt, fun _ => ⟨rfl, hmeta, hidx, hentries⟩⟩
  · -- the last entry of the directory's index is the current file's
    generalize hc : curFile m.stride W.length = cur at h ⊢
    have hfiles : W.length ⌈/⌉ m.stride = cur + 1 := hc ▸ ceilDiv_eq_curFile_succ hS hpos
    have hlt : cur * m.stride < W.length := hc ▸ curFile_mul_lt hpos
    have hsplit : dirEntries codec m.step.toNat m.stride W =
        (List.range cur).map (dirEntry codec m.step.toNat m.stride W) ++
          [dirEntry codec m.step.toNat m.stride W cur] := by
      rw [dirEntries, hfiles, List.range_succ, List.map_append, List.map_singleton]
    obtain ⟨l₁, l₂, hdir, hl₁, hl₂⟩ := List.map_eq_append_iff.mp (hentries.trans hsplit)
    obtain ⟨⟨file_id, file_idx⟩, rfl, hlast⟩ := List.map_eq_singleton_iff.mp hl₂
    simp only [dirEntry, Prod.mk.injEq] at hlast
    obtain ⟨rfl, hfile_idx⟩ := hlast
    have hc_ne : chunk m.stride W cur ≠ [] := by
      rw [chunk_eq_drop h.le_next, Ne, List.drop_eq_nil_iff]
      omega
    have hsize : ind.m_dir_idx.size - 1 = cur := by
      rw [← Std.TreeMap.length_toList, hdir, List.length_append, List.length_singleton,
        Nat.add_sub_cancel, ← List.length_map (f := fun p : UInt32 × IdxMap => (p.1, p.2.toList)),
        hl₁, List.length_map, List.length_range]
    have htotal : ind.m_meta.snapshot_header.total_utxo_subsets = W.length := by
      rw [h.meta_eq]
      rfl
    refine ⟨_, Indexer.Open_eq disk hmeta hidx
      (Indexer.ofMeta_eq_of_getLast? hstep hspf (by rw [hdir, List.getLast?_concat])), ?_⟩
    refine ⟨h.step_ne, h.steps_per_file_ne, h.cur_le, h.le_next, h.cur_le, le_rfl, h.meta_eq, rfl,
      ?_, hfile_idx, ?_, by simp, ⟨l₁, _, hdir, ?_, .inr ⟨hlt, _, rfl⟩⟩, h.files_lt, h.files_cur,
      h.files_gt, fun _ => ⟨rfl, hmeta, hidx, hentries⟩⟩
    · show UInt32.ofNat ind.m_meta.snapshot_header.total_utxo_subsets -
          UInt32.ofNat ((ind.m_dir_idx.size - 1) * ind.m_meta.step.toNat *
            ind.m_meta.steps_per_file.toNat) = _
      rw [htotal, hsize, Nat.mul_assoc, h.meta_eq]
      exact ofNat_sub_ofNat h.cur_le hn
    · show (match file_idx.toList.getLast? with
        | none => 0
        | some (_, bytes) => bytes) = _
      rw [hfile_idx, getLast?_idxEntries (toNat_pos_of_ne_zero h.step_ne) hc_ne, List.take_length,
        chunk_eq_drop h.le_next]
    · rw [hl₁, dirEntries_take hS h.cur_le]

@[simp] theorem IndexerOp.writes_write (x : α) (ops : List (IndexerOp α)) :
    IndexerOp.writes (.write x :: ops) = x :: IndexerOp.writes ops := rfl

@[simp] theorem IndexerOp.writes_flush (ops : List (IndexerOp α)) :
    IndexerOp.writes (.flush :: ops) = IndexerOp.writes ops := rfl

@[simp] theorem IndexerOp.writes_reopen (ops : List (IndexerOp α)) :
    IndexerOp.writes (.reopen :: ops) = IndexerOp.writes ops := rfl

theorem runIndexer_append (ops ops' : List (IndexerOp α)) (s : Indexer × Disk) :
    runIndexer codec (ops ++ ops') s = (runIndexer codec ops s).bind (runIndexer codec ops') := by
  induction ops generalizing s with
  | nil => rfl
  | cons op ops ih =>
    rw [List.cons_append, runIndexer, runIndexer, Option.bind_assoc]
    congr 1
    funext s'
    exact ih s'

theorem Stored.create {hdr : SnapshotHeader} {step steps_per_file : UInt32} (hstep : step ≠ 0)
    (hspf : steps_per_file ≠ 0) :
    ∃ ind, Indexer.create hdr step steps_per_file = .ok ind ∧
      Stored codec ⟨hdr, step, steps_per_file⟩ [] 0 0 false ind Disk.empty := by
  refine ⟨_, by simp only [Indexer.create, hstep, hspf, if_false]; rfl, ?_⟩
  exact ⟨hstep, hspf, by simp, by simp, by simp, le_rfl, rfl, rfl, by simp, by simp [chunk, idxEntries],
    by simp, rfl, ⟨[], [], by simp, by simp, .inl rfl⟩, fun f hf => absurd hf (Nat.not_lt_zero f),
    .inl ⟨rfl, by simp⟩, fun _ _ => rfl, fun hfl => absurd hfl (by simp)⟩

/-- A run of writes, flushes and reopens keeps the layout of everything written, as long as every
reopen follows a flush with no write since and the files fit the `uint32_t` counts. -/
theorem Stored.run (ops : List (IndexerOp α)) : ∀ (W : List α) inFiles flushed ind disk,
    Stored codec m W (curFile m.stride W.length) inFiles flushed ind disk →
    IndexerOp.ReopensFlushed flushed ops = true →
    m.stride * ((W ++ IndexerOp.writes ops).length ⌈/⌉ m.stride) < 2 ^ 32 →
    ∃ inFiles' flushed' ind' disk', runIndexer codec ops (ind, disk) = some (ind', disk') ∧
      Stored codec m (W ++ IndexerOp.writes ops)
        (curFile m.stride (W ++ IndexerOp.writes ops).length) inFiles' flushed' ind' disk' := by
  induction ops with
  | nil =>
    intro W inFiles flushed ind disk h _ _
    rw [IndexerOp.writes, List.append_nil]
    exact ⟨inFiles, flushed, ind, disk, rfl, h⟩
  | cons op ops ih =>
    intro W inFiles flushed ind disk h hflushed hfit
    have hS := h.stride_pos
    have hle : W.length ≤ (W ++ IndexerOp.writes ops).length := by
      rw [List.length_append]
      exact Nat.le_add_right _ _
    cases op with
    | write x =>
      have hw : W ++ IndexerOp.writes (.write x :: ops) = (W ++ [x]) ++ IndexerOp.writes ops := by
        rw [IndexerOp.writes_write, List.append_assoc, List.singleton_append]
      rw [hw] at hfit ⊢
      obtain ⟨inFiles₁, h₁⟩ := h.write x (fits_of_le hS hfit (by simp))
      exact ih _ _ _ _ _ h₁ hflushed hfit
    | flush =>
      rw [IndexerOp.writes_flush] at hfit ⊢
      exact ih _ _ _ _ _ (h.flush (fits_of_le hS hfit hle)) hflushed hfit
    | reopen =>
      rw [IndexerOp.writes_reopen] at hfit ⊢
      rw [IndexerOp.ReopensFlushed, Bool.and_eq_true] at hflushed
      obtain ⟨rfl, hrest⟩ := hflushed
      obtain ⟨ind₁, hopen, h₁⟩ := h.reopen (fits_of_le hS hfit hle)
      obtain ⟨inFiles', flushed', ind', disk', hrun, h'⟩ := ih _ _ _ _ _ h₁ hrest hfit
      refine ⟨inFiles', flushed', ind', disk', ?_, h'⟩
      rw [runIndexer, IndexerOp.run, hopen]
      exact hrun

end Stored

end UnitE.Snapshot
