import UnitE.Lib.CeilDiv
import UnitE.Spec.SnapshotIndexer

/-! Where the snapshot store puts each subset. The layout of the subsets `W` written so far,
`S` to a data file and `step` to a group, is computed from `W` alone: the subsets of each file
(`chunk`), the index of a file (`idxEntries`) and the directory's (`dirEntries`). The indexes
are keyed by `uint32_t` numbers `0, 1, ...`, so below 2^32 a lookup of a key is a lookup of a
position. -/

namespace UnitE.Snapshot

section OfNat

variable {a b : Nat}

theorem toNat_ofNat_of_lt (h : a < 2 ^ 32) : (UInt32.ofNat a).toNat = a :=
  UInt32.toNat_ofNat_of_lt' h

theorem ofNat_inj (ha : a < 2 ^ 32) (hb : b < 2 ^ 32) (h : UInt32.ofNat a = UInt32.ofNat b) :
    a = b := by
  rw [← toNat_ofNat_of_lt ha, ← toNat_ofNat_of_lt hb, h]

theorem ofNat_lt_ofNat (ha : a < 2 ^ 32) (hb : b < 2 ^ 32) :
    UInt32.ofNat a < UInt32.ofNat b ↔ a < b := by
  rw [UInt32.lt_iff_toNat_lt, toNat_ofNat_of_lt ha, toNat_ofNat_of_lt hb]

theorem compare_ofNat_of_lt (hab : a < b) (hb : b < 2 ^ 32) :
    compare (UInt32.ofNat a) (UInt32.ofNat b) = .lt :=
  compareOfLessAndEq_eq_lt.mpr ((ofNat_lt_ofNat (hab.trans hb) hb).mpr hab)

theorem ofNat_div (ha : a < 2 ^ 32) (hb : b < 2 ^ 32) :
    UInt32.ofNat a / UInt32.ofNat b = UInt32.ofNat (a / b) := by
  apply UInt32.toNat_inj.mp
  rw [UInt32.toNat_div, toNat_ofNat_of_lt ha, toNat_ofNat_of_lt hb,
    toNat_ofNat_of_lt (lt_of_le_of_lt (Nat.div_le_self a b) ha)]

theorem ofNat_sub_ofNat (hba : b ≤ a) (ha : a < 2 ^ 32) :
    UInt32.ofNat a - UInt32.ofNat b = UInt32.ofNat (a - b) := by
  apply UInt32.toNat_inj.mp
  have hb : b < 2 ^ 32 := lt_of_le_of_lt hba ha
  rw [UInt32.toNat_sub_of_le _ _ ((UInt32.le_iff_toNat_le).mpr (by
      rw [toNat_ofNat_of_lt ha, toNat_ofNat_of_lt hb]; exact hba)),
    toNat_ofNat_of_lt ha, toNat_ofNat_of_lt hb, toNat_ofNat_of_lt (by omega)]

theorem ofNat_add_ofNat (a b : Nat) : UInt32.ofNat a + UInt32.ofNat b = UInt32.ofNat (a + b) :=
  (UInt32.ofNat_add a b).symm

theorem ofNat_mul_ofNat (a b : Nat) : UInt32.ofNat a * UInt32.ofNat b = UInt32.ofNat (a * b) :=
  (UInt32.ofNat_mul a b).symm

theorem ofNat_mul_toNat (a : Nat) (x : UInt32) :
    UInt32.ofNat a * x = UInt32.ofNat (a * x.toNat) := by
  rw [← ofNat_mul_ofNat, UInt32.ofNat_toNat]

theorem ofNat_div_toNat (ha : a < 2 ^ 32) (x : UInt32) :
    UInt32.ofNat a / x = UInt32.ofNat (a / x.toNat) := by
  rw [← ofNat_div ha x.toNat_lt, UInt32.ofNat_toNat]

end OfNat

section Layout

variable {α : Type} (codec : ByteCodec α) (step S : Nat)

def chunk (W : List α) (f : Nat) : List α := (W.drop (f * S)).take S

/-- The entry of group `g` in the index of a data file that holds `c`: the bytes up to the end
of the group. -/
def idxEntry (c : List α) (g : Nat) : UInt32 × UInt32 :=
  (UInt32.ofNat g, UInt32.ofNat (codec.serList (c.take ((g + 1) * step))).length)

def idxEntries (c : List α) : List (UInt32 × UInt32) :=
  (List.range (c.length ⌈/⌉ step)).map (idxEntry codec step c)

def dirEntry (W : List α) (f : Nat) : UInt32 × List (UInt32 × UInt32) :=
  (UInt32.ofNat f, idxEntries codec step (chunk S W f))

def dirEntries (W : List α) : List (UInt32 × List (UInt32 × UInt32)) :=
  (List.range (W.length ⌈/⌉ S)).map (dirEntry codec step S W)

def curFile (n : Nat) : Nat := (n - 1) / S

end Layout

def DirIdx.entries (d : DirIdx) : List (UInt32 × List (UInt32 × UInt32)) :=
  d.toList.map fun p => (p.1, p.2.toList)

section LayoutLemmas

variable {α : Type} {codec : ByteCodec α} {step S : Nat} {W c : List α}

theorem range_ceilDiv {a b : Nat} (hb : 0 < b) :
    List.range (a ⌈/⌉ b) = List.range (a / b) ++ if a % b = 0 then [] else [a / b] := by
  rw [Nat.ceilDiv_eq_div_add hb]
  split_ifs
  · rw [Nat.add_zero, List.append_nil]
  · rw [List.range_succ]

theorem succ_ceilDiv {a b : Nat} (hb : 0 < b) : (a + 1) ⌈/⌉ b = a / b + 1 := by
  rw [Nat.ceilDiv_eq_add_pred_div, show a + 1 + b - 1 = a + b by omega, Nat.add_div_right _ hb]

theorem compare_lt_of_mem_map_range {β : Type} {F : Nat → UInt32 × β}
    (hF : ∀ g, (F g).1 = UInt32.ofNat g) {k : Nat} (hk : k < 2 ^ 32) :
    ∀ p ∈ (List.range k).map F, compare p.1 (UInt32.ofNat k) = .lt := by
  intro p hp
  obtain ⟨g, hg, rfl⟩ := List.mem_map.mp hp
  rw [hF]
  exact compare_ofNat_of_lt (List.mem_range.mp hg) hk

theorem curFile_mul_lt {n : Nat} (hn : 0 < n) : curFile S n * S < n :=
  lt_of_le_of_lt (Nat.div_mul_le_self _ _) (by omega)

theorem le_curFile_mul_add (hS : 0 < S) (n : Nat) : n ≤ curFile S n * S + S := by
  have hlt := Nat.lt_div_mul_add (a := n - 1) hS
  rw [curFile]
  omega

theorem curFile_succ (n : Nat) : curFile S (n + 1) = n / S := by
  rw [curFile, Nat.add_sub_cancel]

theorem ceilDiv_eq_curFile_succ (hS : 0 < S) {n : Nat} (hn : 0 < n) : n ⌈/⌉ S = curFile S n + 1 := by
  rw [Nat.ceilDiv_eq_iff hS (Nat.succ_pos _), Nat.succ_sub_one, Nat.mul_comm, Nat.mul_comm S,
    Nat.succ_mul]
  exact ⟨curFile_mul_lt hn, le_curFile_mul_add hS n⟩

@[simp] theorem curFile_zero : curFile S 0 = 0 := Nat.zero_div S

theorem curFile_le (n : Nat) : curFile S n ≤ n := (Nat.div_le_self _ _).trans (Nat.sub_le _ _)

theorem lt_of_fits (hS : 0 < S) {n : Nat} (h : S * (n ⌈/⌉ S) < 2 ^ 32) : n < 2 ^ 32 :=
  lt_of_le_of_lt (Nat.le_mul_ceilDiv hS) h

theorem fits_of_le (hS : 0 < S) {n n' : Nat} (h : S * (n ⌈/⌉ S) < 2 ^ 32) (hn : n' ≤ n) :
    S * (n' ⌈/⌉ S) < 2 ^ 32 :=
  lt_of_le_of_lt (Nat.mul_le_mul_left _ (Nat.ceilDiv_le_ceilDiv hS hn)) h

theorem idxEntry_append {g : Nat} (d : List α) (hg : (g + 1) * step ≤ c.length) :
    idxEntry codec step (c ++ d) g = idxEntry codec step c g := by
  simp only [idxEntry, List.take_append_of_le_length hg]

theorem idxEntries_concat (hstep : 0 < step) (x : α) :
    idxEntries codec step (c ++ [x]) = (List.range (c.length / step)).map (idxEntry codec step c) ++
      [(UInt32.ofNat (c.length / step), UInt32.ofNat (codec.serList (c ++ [x])).length)] := by
  have hlt : c.length < (c.length / step + 1) * step := by
    rw [Nat.add_mul, Nat.one_mul]
    exact Nat.lt_div_mul_add hstep
  rw [idxEntries, List.length_append, List.length_singleton, succ_ceilDiv hstep, List.range_succ,
    List.map_append, List.map_singleton]
  congr 1
  · refine List.map_congr_left fun g hg => idxEntry_append [x] ?_
    have hg' := List.mem_range.mp hg
    calc (g + 1) * step ≤ c.length / step * step := Nat.mul_le_mul_right _ hg'
      _ ≤ c.length := Nat.div_mul_le_self _ _
  · rw [idxEntry, List.take_of_length_le (by rw [List.length_append, List.length_singleton]; omega)]

/-- The index of a data file lists its full groups, then at most the entry of a last group that
is not full. -/
theorem idxEntries_split (hstep : 0 < step) (c : List α) :
    ∃ B, idxEntries codec step c = (List.range (c.length / step)).map (idxEntry codec step c) ++ B ∧
      (B = [] ∨ ∃ v, B = [(UInt32.ofNat (c.length / step), v)]) := by
  rw [idxEntries, range_ceilDiv hstep, List.map_append]
  refine ⟨_, rfl, ?_⟩
  split_ifs
  · exact .inl rfl
  · exact .inr ⟨_, rfl⟩

theorem getLast?_idxEntries (hstep : 0 < step) (hc : c ≠ []) :
    (idxEntries codec step c).getLast? =
      some (UInt32.ofNat (c.length ⌈/⌉ step - 1), UInt32.ofNat (codec.serList c).length) := by
  have hk : 0 < c.length ⌈/⌉ step := Nat.ceilDiv_pos hstep (List.length_pos_iff.mpr hc)
  have hle : c.length ≤ (c.length ⌈/⌉ step - 1 + 1) * step := by
    rw [Nat.sub_add_cancel hk, Nat.mul_comm]
    exact Nat.le_mul_ceilDiv hstep
  rw [idxEntries, ← Nat.sub_add_cancel hk, List.range_succ, List.map_append, List.map_singleton,
    List.getLast?_concat, Nat.sub_add_cancel hk, idxEntry, List.take_of_length_le hle]

theorem chunk_append {f : Nat} (d : List α) (hf : (f + 1) * S ≤ W.length) :
    chunk S (W ++ d) f = chunk S W f := by
  have hlen : S ≤ (W.drop (f * S)).length := by
    rw [List.length_drop]
    rw [Nat.add_mul, Nat.one_mul] at hf
    omega
  rw [chunk, chunk, List.drop_append_of_le_length (by rw [Nat.add_mul] at hf; omega),
    List.take_append_of_le_length hlen]

theorem chunk_eq_drop {f : Nat} (h : W.length ≤ f * S + S) : chunk S W f = W.drop (f * S) :=
  List.take_of_length_le (by rw [List.length_drop]; omega)

theorem chunk_concat {f : Nat} (x : α) (hf : f * S ≤ W.length) (h : W.length < f * S + S) :
    chunk S (W ++ [x]) f = chunk S W f ++ [x] := by
  rw [chunk_eq_drop (by rw [List.length_append, List.length_singleton]; omega), chunk_eq_drop h.le,
    List.drop_append_of_le_length hf]

theorem chunk_eq_nil {f : Nat} (h : W.length ≤ f * S) : chunk S W f = [] := by
  rw [chunk, List.drop_eq_nil_of_le h, List.take_nil]

theorem drop_chunk (f k : Nat) : (chunk S W f).drop k = (W.drop (f * S + k)).take (S - k) := by
  rw [chunk, List.drop_take, List.drop_drop]

theorem mod_lt_length_chunk (hS : 0 < S) {i : Nat} (hi : i < W.length) :
    i % S < (chunk S W (i / S)).length := by
  have hsplit := Nat.div_add_mod' i S
  have hmod := Nat.mod_lt i hS
  rw [chunk, List.length_take, List.length_drop]
  omega

theorem dirEntry_append {f : Nat} (d : List α) (hf : (f + 1) * S ≤ W.length) :
    dirEntry codec step S (W ++ d) f = dirEntry codec step S W f := by
  rw [dirEntry, dirEntry, chunk_append d hf]

theorem dirEntries_take (hS : 0 < S) {k : Nat} (hk : k * S ≤ W.length) :
    (dirEntries codec step S W).take k = (List.range k).map (dirEntry codec step S W) := by
  have hle : k ≤ W.length ⌈/⌉ S := ((Nat.le_div_iff_mul_le hS).mpr hk).trans (Nat.div_le_ceilDiv hS)
  rw [dirEntries, ← List.map_take, List.take_range, Nat.min_eq_left hle]

end LayoutLemmas

section Lookup

variable {β γ : Type} {t : Std.TreeMap UInt32 β compare} {e : β → γ} {N : Nat} {F : Nat → γ}

/-- A map that lists, seen through `e`, the values `F 0, F 1, ...` under the keys `0, 1, ...`
has the value of `i` under key `i`, and nothing under a key past them. -/
theorem getElem?_ofNat_of_toList
    (ht : t.toList.map (fun p => (p.1, e p.2)) = (List.range N).map fun i => (UInt32.ofNat i, F i))
    (hN : N ≤ 2 ^ 32) {i : Nat} (hi : i < 2 ^ 32) :
    (t[UInt32.ofNat i]?).map e = if i < N then some (F i) else none := by
  cases hget : t[UInt32.ofNat i]? with
  | some w =>
    have hmem : (UInt32.ofNat i, e w) ∈ (List.range N).map fun i => (UInt32.ofNat i, F i) := by
      rw [← ht]
      exact List.mem_map.mpr
        ⟨(UInt32.ofNat i, w), Std.TreeMap.mem_toList_iff_getElem?_eq_some.mpr hget, rfl⟩
    obtain ⟨j, hj, hji⟩ := List.mem_map.mp hmem
    simp only [Prod.mk.injEq] at hji
    have hjN := List.mem_range.mp hj
    obtain rfl := ofNat_inj (lt_of_lt_of_le hjN hN) hi hji.1
    rw [Option.map_some, if_pos hjN, hji.2]
  | none =>
    rw [Option.map_none, if_neg]
    intro hiN
    have hmem : (UInt32.ofNat i, F i) ∈ t.toList.map (fun p => (p.1, e p.2)) := by
      rw [ht]
      exact List.mem_map.mpr ⟨i, List.mem_range.mpr hiN, rfl⟩
    obtain ⟨⟨k, w⟩, hp, hpi⟩ := List.mem_map.mp hmem
    simp only [Prod.mk.injEq] at hpi
    have hsome := Std.TreeMap.mem_toList_iff_getElem?_eq_some.mp hp
    rw [hpi.1, hget] at hsome
    cases hsome

theorem getElem?_of_idxEntries {α : Type} {codec : ByteCodec α} {step : Nat} {c : List α}
    {idx_map : Std.TreeMap UInt32 UInt32 compare} (hidx : idx_map.toList = idxEntries codec step c)
    (hN : c.length ⌈/⌉ step ≤ 2 ^ 32) {g : Nat} (hg : g < c.length ⌈/⌉ step) :
    idx_map[UInt32.ofNat g]? =
      some (UInt32.ofNat (codec.serList (c.take ((g + 1) * step))).length) := by
  have ht : idx_map.toList.map (fun p => (p.1, id p.2)) = (List.range (c.length ⌈/⌉ step)).map
      fun i => (UInt32.ofNat i, UInt32.ofNat (codec.serList (c.take ((i + 1) * step))).length) := by
    rw [hidx, idxEntries, List.map_map]
    rfl
  have hlook := getElem?_ofNat_of_toList ht hN (lt_of_lt_of_le hg hN)
  rwa [Option.map_id, if_pos hg] at hlook

end Lookup

end UnitE.Snapshot
