import UnitE.Lib.Except
import UnitE.Lib.ListModify
import UnitE.Spec.Iblt

/-! `operator-` of two IBLTs of one shape, at the value size 0 of graphene. Without values
every bucket keeps an empty value sum, and `Update` adds to each bucket of its key the call's
count, the key and the key's check: an integer sum and two xors, which commute. A run of
`Insert` and `Erase` calls on an empty table is therefore the empty table with the additions
of every call made, in any order; and subtracting a table subtracts the additions of its
calls, which are those of the same keys erased. -/

namespace UnitE

variable {w : Nat}

/-- What `Update` adds to each bucket of its key: the count delta, the key and its check. -/
structure IBLTDelta (w : Nat) where
  count : Int
  key : BitVec w
  keyCheck : UInt32

def IBLTDelta.neg (d : IBLTDelta w) : IBLTDelta w := ⟨-d.count, d.key, d.keyCheck⟩

namespace IBLTEntry

/-- A bucket with a delta added; the value sum is kept. -/
def add (e : IBLTEntry w) (d : IBLTDelta w) : IBLTEntry w :=
  { e with count := e.count + d.count, keySum := e.keySum ^^^ d.key,
           keyCheck := e.keyCheck ^^^ d.keyCheck }

def toDelta (e : IBLTEntry w) : IBLTDelta w := ⟨e.count, e.keySum, e.keyCheck⟩

@[simp] theorem valueSum_add (e : IBLTEntry w) (d : IBLTDelta w) : (e.add d).valueSum = e.valueSum :=
  rfl

theorem add_right_comm (e : IBLTEntry w) (d d' : IBLTDelta w) :
    (e.add d).add d' = (e.add d').add d := by
  simp only [add, mk.injEq, and_true]
  refine ⟨Int.add_right_comm _ _ _, ?_, ?_⟩
  · rw [BitVec.xor_assoc, BitVec.xor_comm d.key, ← BitVec.xor_assoc]
  · rw [UInt32.xor_assoc, UInt32.xor_comm d.keyCheck, ← UInt32.xor_assoc]

theorem add_neg_add (e₁ e₂ : IBLTEntry w) (d : IBLTDelta w) :
    e₁.add (e₂.add d).toDelta.neg = (e₁.add e₂.toDelta.neg).add d.neg := by
  simp only [add, toDelta, IBLTDelta.neg, mk.injEq, and_true]
  refine ⟨by omega, ?_, ?_⟩
  · rw [BitVec.xor_assoc]
  · rw [UInt32.xor_assoc]

@[simp] theorem add_neg_empty (e : IBLTEntry w) : e.add (empty : IBLTEntry w).toDelta.neg = e := by
  simp [add, toDelta, IBLTDelta.neg, empty]

/-- Without a value, `combine` on a bucket with an empty value sum adds the delta: when the
bucket empties, the value sum it clears is empty already. -/
theorem combine_of_valueSum_nil {e : IBLTEntry w} (he : e.valueSum = []) (d : IBLTDelta w) :
    e.combine (e.count + d.count) d.key d.keyCheck [] = e.add d := by
  dsimp only [combine]
  split
  · simp [add, he]
  · rfl

theorem combine_sub_of_valueSum_nil {e₁ e₂ : IBLTEntry w} (h₁ : e₁.valueSum = [])
    (h₂ : e₂.valueSum = []) :
    e₁.combine (e₁.count - e₂.count) e₂.keySum e₂.keyCheck e₂.valueSum = e₁.add e₂.toDelta.neg := by
  rw [h₂, Int.sub_eq_add_neg]
  exact combine_of_valueSum_nil h₁ e₂.toDelta.neg

end IBLTEntry

namespace IBLT

variable (hash : UInt32 → BitVec w → UInt32)

/-- The buckets `Update` writes for a key, `i * buckets_per_hash + h % buckets_per_hash` for
hash function `i`. -/
def buckets (perHash numHashes : Nat) (key : BitVec w) : List Nat :=
  (List.range numHashes).map fun i => i * perHash + (hash (UInt32.ofNat i) key).toNat % perHash

def addAt (table : List (IBLTEntry w)) (p : Nat × IBLTDelta w) : List (IBLTEntry w) :=
  table.modify p.1 (IBLTEntry.add · p.2)

def NilValues (table : List (IBLTEntry w)) : Prop := ∀ e ∈ table, e.valueSum = []

/-- A call of `Insert` or `Erase` with the empty value of a table of value size 0. -/
inductive Call (w : Nat)
  | insert (key : BitVec w)
  | erase (key : BitVec w)
  deriving DecidableEq

namespace Call

def key : Call w → BitVec w
  | .insert key => key
  | .erase key => key

def delta : Call w → IBLTDelta w
  | .insert key => ⟨1, key, hash N_HASHCHECK key⟩
  | .erase key => ⟨-1, key, hash N_HASHCHECK key⟩

/-- The call on a table. -/
def apply (t : IBLT w) : Call w → Fallible (IBLT w)
  | .insert key => t.Insert 0 hash key []
  | .erase key => t.Erase 0 hash key []

def updates (perHash numHashes : Nat) (c : Call w) : List (Nat × IBLTDelta w) :=
  (buckets hash perHash numHashes c.key).map (·, c.delta hash)

end Call

def runCalls (t : IBLT w) (calls : List (Call w)) : Fallible (IBLT w) :=
  calls.foldlM (Call.apply hash) t

variable {hash}

theorem addAt_right_comm (table : List (IBLTEntry w)) (p q : Nat × IBLTDelta w) :
    addAt (addAt table p) q = addAt (addAt table q) p :=
  List.modify_modify_comm (fun e => IBLTEntry.add_right_comm e _ _) table _ _

@[simp] theorem length_foldl_addAt (table : List (IBLTEntry w)) (ps : List (Nat × IBLTDelta w)) :
    (ps.foldl addAt table).length = table.length := by
  induction ps generalizing table with
  | nil => rfl
  | cons p ps ih =>
    rw [List.foldl_cons, ih]
    exact List.length_modify _ _ _

theorem NilValues.addAt {table : List (IBLTEntry w)} (h : NilValues table) (p : Nat × IBLTDelta w) :
    NilValues (IBLT.addAt table p) := by
  intro e he
  obtain ⟨j, hj, rfl⟩ := List.getElem_of_mem he
  simp only [IBLT.addAt, List.getElem_modify]
  split
  · rw [IBLTEntry.valueSum_add]
    exact h _ (List.getElem_mem _)
  · exact h _ (List.getElem_mem _)

theorem NilValues.foldl_addAt {table : List (IBLTEntry w)} (h : NilValues table)
    (ps : List (Nat × IBLTDelta w)) : NilValues (ps.foldl IBLT.addAt table) := by
  induction ps generalizing table with
  | nil => exact h
  | cons p ps ih => exact ih (h.addAt p)

theorem nilValues_make (numEntries : Nat) (numHashes : UInt8) :
    NilValues (make numEntries numHashes : IBLT w).hashTable := by
  intro e he
  rw [make, List.mem_replicate] at he
  rw [he.2]
  rfl

theorem bucket_of_ne_zero {perHash : Nat} (hper : perHash ≠ 0) (i : Nat) (key : BitVec w) :
    bucket hash perHash i key = .ok (i * perHash + (hash (UInt32.ofNat i) key).toNat % perHash) := by
  simp [bucket, hper]

/-- `Update` without a value, on a valid table with buckets and empty value sums, adds the
delta at every bucket of the key. -/
theorem Update_of_nilValues {t : IBLT w} (hvalid : t.IsValid = true) (hlen : 0 < t.hashTable.length)
    (hnil : NilValues t.hashTable) (count : Int) (key : BitVec w) :
    t.Update 0 hash count key [] = .ok { t with hashTable :=
      ((buckets hash (t.hashTable.length / t.numHashes.toNat) t.numHashes.toNat key).map
        (·, (⟨count, key, hash N_HASHCHECK key⟩ : IBLTDelta w))).foldl addAt t.hashTable } := by
  simp only [Update, ne_eq, List.length_nil, not_true_eq_false, if_false,
    bucketsPerHash_of_valid hvalid, Except.ok_bind]
  set perHash := t.hashTable.length / t.numHashes.toNat
  set d : IBLTDelta w := ⟨count, key, hash N_HASHCHECK key⟩
  -- the loop over the hash functions, read off the goal, adds the delta at one bucket a step
  erw [(Except.foldlM_eq_foldl
    (g := fun table i => addAt table (i * perHash + (hash (UInt32.ofNat i) key).toNat % perHash, d))
    (fun table => table.length = t.hashTable.length ∧ NilValues table)
    (List.range t.numHashes.toNat) ?_ t.hashTable ⟨rfl, hnil⟩).1]
  · rw [buckets, List.map_map, List.foldl_map]
    rfl
  · rintro table ⟨htable, hnilt⟩ i hi
    obtain ⟨b, hb, hblt⟩ := bucket_lt_of_valid hash hvalid hlen (List.mem_range.mp hi) key
    have hper : perHash ≠ 0 := by
      intro h0
      rw [bucket, if_pos h0] at hb
      cases hb
    rw [bucket_of_ne_zero hper] at hb
    obtain rfl := Except.ok.inj hb
    have hget : table[i * perHash + (hash (UInt32.ofNat i) key).toNat % perHash]? =
        some table[i * perHash + (hash (UInt32.ofNat i) key).toNat % perHash] :=
      List.getElem?_eq_getElem (htable ▸ hblt)
    refine ⟨?_, by simp [addAt, htable], hnilt.addAt _⟩
    rw [bucket_of_ne_zero hper, Except.ok_bind, hget]
    show Except.ok _ = _
    rw [IBLTEntry.combine_of_valueSum_nil (hnilt _ (List.getElem_mem _)) d]
    exact congrArg Except.ok (List.set_eq_modify_of_getElem?_eq hget (IBLTEntry.add · d))

theorem Call.apply_of_nilValues {t : IBLT w} (hvalid : t.IsValid = true)
    (hlen : 0 < t.hashTable.length) (hnil : NilValues t.hashTable) (c : Call w) :
    c.apply hash t = .ok
      { t with
        hashTable := List.foldl addAt t.hashTable
          (c.updates hash (t.hashTable.length / t.numHashes.toNat) t.numHashes.toNat) } := by
  cases c with
  | insert key => exact Update_of_nilValues hvalid hlen hnil 1 key
  | erase key => exact Update_of_nilValues hvalid hlen hnil (-1) key

/-- A run of calls on a valid table with buckets and empty value sums makes the additions of
every call, one call after the other: induction on the calls. -/
theorem runCalls_of_nilValues (calls : List (Call w)) {t : IBLT w} (hvalid : t.IsValid = true)
    (hlen : 0 < t.hashTable.length) (hnil : NilValues t.hashTable) :
    runCalls hash t calls = .ok
      { t with
        hashTable := List.foldl addAt t.hashTable
          (calls.flatMap (Call.updates hash (t.hashTable.length / t.numHashes.toNat)
            t.numHashes.toNat)) } := by
  induction calls generalizing t with
  | nil => rfl
  | cons c calls ih =>
    set t₁ : IBLT w :=
      { t with
        hashTable := List.foldl addAt t.hashTable
          (c.updates hash (t.hashTable.length / t.numHashes.toNat) t.numHashes.toNat) }
    have hlen₁ : t₁.hashTable.length = t.hashTable.length := length_foldl_addAt _ _
    have hvalid₁ : t₁.IsValid = true := (IsValid_of_shape hlen₁ rfl).trans hvalid
    show (c.apply hash t >>= fun t' => runCalls hash t' calls) = _
    rw [Call.apply_of_nilValues hvalid hlen hnil c, Except.ok_bind]
    rw [ih hvalid₁ (hlen₁ ▸ hlen) (hnil.foldl_addAt _), hlen₁, List.flatMap_cons, List.foldl_append]

theorem sub_of_nilValues {t u : IBLT w} (hlen : u.hashTable.length = t.hashTable.length)
    (hn : u.numHashes = t.numHashes) (ht : NilValues t.hashTable) (hu : NilValues u.hashTable) :
    t.sub u = .ok
      { t with
        hashTable := List.zipWith (fun e₁ e₂ => e₁.add e₂.toDelta.neg) t.hashTable u.hashTable } := by
  simp only [sub, hlen, hn, ne_eq, not_true_eq_false, or_self, if_false, Except.ok.injEq]
  congr 1
  apply List.ext_getElem
  · simp
  · intro j h₁ h₂
    simp only [List.getElem_zipWith]
    exact IBLTEntry.combine_sub_of_valueSum_nil (ht _ (List.getElem_mem _))
      (hu _ (List.getElem_mem _))

/-- Subtracting a table with additions made subtracts the table, then makes the opposite
additions: induction on the additions. -/
theorem zipWith_foldl_addAt (T : List (IBLTEntry w)) (ps : List (Nat × IBLTDelta w)) :
    ∀ U : List (IBLTEntry w),
      List.zipWith (fun e₁ e₂ => e₁.add e₂.toDelta.neg) T (ps.foldl addAt U) =
        (ps.map fun p => (p.1, p.2.neg)).foldl addAt
          (List.zipWith (fun e₁ e₂ => e₁.add e₂.toDelta.neg) T U) := by
  induction ps with
  | nil => intro U; rfl
  | cons p ps ih =>
    intro U
    rw [List.foldl_cons, ih, addAt, @List.zipWith_modify_right _ _ _ _ _ (IBLTEntry.add · p.2.neg)
      (fun e₁ e₂ => IBLTEntry.add_neg_add e₁ e₂ p.2)]
    rfl

theorem zipWith_replicate_empty {T : List (IBLTEntry w)} {n : Nat} (hlen : T.length = n) :
    List.zipWith (fun e₁ e₂ => e₁.add e₂.toDelta.neg) T (List.replicate n IBLTEntry.empty) = T := by
  subst hlen
  apply List.ext_getElem
  · simp
  · intro j h₁ h₂
    simp

theorem updates_insert_neg (perHash numHashes : Nat) (key : BitVec w) :
    ((Call.insert key).updates hash perHash numHashes).map (fun p => (p.1, p.2.neg)) =
      (Call.erase key).updates hash perHash numHashes := by
  simp only [Call.updates, List.map_map]
  rfl

/-- Subtraction of IBLTs is a homomorphism: on a valid shape with buckets, the table of the keys
`A` inserted minus the table of the keys `B` inserted is the table that the calls inserting the
keys of `A` and erasing those of `B` make, in whatever order they come. -/
theorem sub_runCalls_insert (hash : UInt32 → BitVec w → UInt32) {numEntries : Nat}
    {numHashes : UInt8} (hvalid : (make numEntries numHashes : IBLT w).IsValid = true)
    (hpos : 0 < numEntries) (A B : List (BitVec w)) (calls : List (Call w))
    (hperm : calls.Perm (A.map .insert ++ B.map .erase)) :
    ∃ tA tB t, runCalls hash (make numEntries numHashes) (A.map .insert) = .ok tA ∧
      runCalls hash (make numEntries numHashes) (B.map .insert) = .ok tB ∧
      runCalls hash (make numEntries numHashes) calls = .ok t ∧ tA.sub tB = .ok t := by
  have hlen : 0 < (make numEntries numHashes : IBLT w).hashTable.length := by
    rw [length_make]
    exact hpos
  have hnil := nilValues_make (w := w) numEntries numHashes
  refine ⟨_, _, _, runCalls_of_nilValues _ hvalid hlen hnil, runCalls_of_nilValues _ hvalid hlen hnil,
    runCalls_of_nilValues _ hvalid hlen hnil, ?_⟩
  set U := Call.updates hash ((make numEntries numHashes : IBLT w).hashTable.length /
    (make numEntries numHashes : IBLT w).numHashes.toNat) (make numEntries numHashes : IBLT w).numHashes.toNat
  rw [sub_of_nilValues ?hlen ?hn (hnil.foldl_addAt _) (hnil.foldl_addAt _), zipWith_foldl_addAt]
  case hlen => simp
  case hn => rfl
  -- the inserts of `B`, subtracted, are the erases of `B`
  have herase : ((B.map .insert).flatMap U).map (fun p => (p.1, p.2.neg)) =
      (B.map .erase).flatMap U := by
    simp only [List.map_flatMap, List.flatMap_map, updates_insert_neg, U]
  have hempty : (make numEntries numHashes : IBLT w).hashTable =
      List.replicate numEntries IBLTEntry.empty := rfl
  rw [herase]
  nth_rewrite 2 [hempty]
  rw [zipWith_replicate_empty (by simp), ← List.foldl_append, ← List.flatMap_append,
    (hperm.flatMap_right U).foldl_eq' (fun x _ y _ z => addAt_right_comm z x y)]

theorem sub_runCalls_insert_interleaved :
    (make 4 2 : IBLT 64).IsValid = true ∧ 0 < 4 ∧
      [Call.erase 3, Call.insert 1, Call.erase 2, Call.insert 2].Perm
        ([(1 : BitVec 64), 2].map .insert ++ [(2 : BitVec 64), 3].map .erase) ∧
      ∃ tA tB t,
        runCalls (fun seed key => seed ^^^ key.toNat.toUInt32) (make 4 2)
          ([(1 : BitVec 64), 2].map .insert) = .ok tA ∧
        runCalls (fun seed key => seed ^^^ key.toNat.toUInt32) (make 4 2)
          ([(2 : BitVec 64), 3].map .insert) = .ok tB ∧
        runCalls (fun seed key => seed ^^^ key.toNat.toUInt32) (make 4 2)
          [Call.erase 3, Call.insert 1, Call.erase 2, Call.insert 2] = .ok t ∧
        tA.sub tB = .ok t :=
  ⟨by decide, by decide, by decide,
    sub_runCalls_insert (fun seed key => seed ^^^ key.toNat.toUInt32) (by decide) (by decide) _ _ _
      (by decide)⟩

end IBLT

end UnitE
