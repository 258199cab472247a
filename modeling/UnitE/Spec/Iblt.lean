import Mathlib.Data.Finmap
import UnitE.Spec.Types

/-! `IBLT<TKey, ValueSize>` of `iblt.h`, the invertible Bloom lookup table that graphene
blocks carry. Keys are integers of `w` bits, kept as their bit patterns; `ComputeHash`
(`MurmurHash3` of the key's bytes under a seed) is the parameter `hash`. A modulus by zero
is `Failure.divisionByZero`, `std::vector::at` out of range is `Failure.outOfRange`. The
peeling loops of `ListEntries` and `Get` have no bound in the source, so they take fuel here,
and `none` means the fuel ran out. -/

namespace UnitE

structure IBLTEntry (w : Nat) where
  count : Int
  keySum : BitVec w
  keyCheck : UInt32
  valueSum : List UInt8
  deriving DecidableEq, Repr

/-- `IBLT`: the table and the number of hash functions. -/
structure IBLT (w : Nat) where
  hashTable : List (IBLTEntry w)
  numHashes : UInt8
  deriving DecidableEq, Repr

/-- `IBLT::N_HASHCHECK`, the seed of the key check. -/
def N_HASHCHECK : UInt32 := 11

/-- `IBLT::TEntriesMap`, the decoded entries by key. -/
abbrev TEntriesMap (w : Nat) := Finmap (fun _ : BitVec w => List UInt8)

/-- `std::map::emplace`: a key already present keeps its value. -/
def TEntriesMap.emplace {w : Nat} (m : TEntriesMap w) (key : BitVec w) (value : List UInt8) :
    TEntriesMap w :=
  if key ∈ m then m else m.insert key value

namespace IBLTEntry

variable {w : Nat}

/-- `IBLTEntry()`. -/
def empty : IBLTEntry w := ⟨0, 0, 0, []⟩

/-- `IsPure`: a count of one or minus one and the check of the key sum. -/
def IsPure (hash : UInt32 → BitVec w → UInt32) (e : IBLTEntry w) : Bool :=
  (e.count == 1 || e.count == -1) && e.keyCheck == hash N_HASHCHECK e.keySum

def IsEmpty (e : IBLTEntry w) : Bool :=
  e.count == 0 && e.keySum == 0 && e.keyCheck == 0

/-- `AddValue`: the value sum grows to the value's length, and the value is xored into it. -/
def AddValue (e : IBLTEntry w) (value : List UInt8) : IBLTEntry w :=
  if value.isEmpty then e
  else
    let valueSum := e.valueSum ++ List.replicate (value.length - e.valueSum.length) 0
    { e with valueSum := List.zipWith (· ^^^ ·) valueSum value ++ valueSum.drop value.length }

/-- What `Update` and `operator-` do to one bucket: the count, key sum and key check are
combined, and the value sum is cleared when the bucket becomes empty. -/
def combine (e : IBLTEntry w) (count : Int) (keySum : BitVec w) (keyCheck : UInt32)
    (value : List UInt8) : IBLTEntry w :=
  let e' := { e with count := count, keySum := e.keySum ^^^ keySum, keyCheck := e.keyCheck ^^^ keyCheck }
  if e'.IsEmpty then { e' with valueSum := [] } else e'.AddValue value

@[simp] theorem empty_IsEmpty : (empty : IBLTEntry w).IsEmpty = true := rfl

@[simp] theorem empty_IsPure (hash : UInt32 → BitVec w → UInt32) :
    (empty : IBLTEntry w).IsPure hash = false := rfl

theorem IsPure_of_count {hash : UInt32 → BitVec w → UInt32} {e : IBLTEntry w}
    (hcount : e.count = 1 ∨ e.count = -1) (hcheck : e.keyCheck = hash N_HASHCHECK e.keySum) :
    e.IsPure hash = true := by
  rcases hcount with h | h <;> simp [IsPure, h, hcheck]

theorem zipWith_xor_replicate_zero (value : List UInt8) :
    List.zipWith (· ^^^ ·) (List.replicate value.length 0) value = value := by
  induction value with
  | nil => rfl
  | cons b value ih => simp [List.replicate_succ, ih]

theorem AddValue_of_nil {e : IBLTEntry w} (he : e.valueSum = []) (value : List UInt8) :
    e.AddValue value = { e with valueSum := value } := by
  unfold AddValue
  cases hv : value.isEmpty with
  | true =>
    rw [List.isEmpty_iff.mp hv, ← he]
    rfl
  | false => simp [he, zipWith_xor_replicate_zero]

theorem empty_combine {count : Int} (hcount : count ≠ 0) (keySum : BitVec w) (keyCheck : UInt32)
    (value : List UInt8) :
    (empty : IBLTEntry w).combine count keySum keyCheck value = ⟨count, keySum, keyCheck, value⟩ := by
  simp [combine, IsEmpty, hcount, empty, AddValue_of_nil]

theorem combine_cancel (count : Int) (keySum : BitVec w) (keyCheck : UInt32)
    (value value' : List UInt8) :
    (⟨count, keySum, keyCheck, value⟩ : IBLTEntry w).combine 0 keySum keyCheck value' = empty := by
  simp [combine, IsEmpty, empty]

end IBLTEntry

namespace IBLT

variable {w : Nat} (ValueSize : Nat) (hash : UInt32 → BitVec w → UInt32)

/-- `IBLT(num_entries, num_hashes)` without its assertion. -/
def make (numEntries : Nat) (numHashes : UInt8) : IBLT w :=
  ⟨List.replicate numEntries IBLTEntry.empty, numHashes⟩

/-- `IsValid`: at least one hash function, and as many buckets for each. -/
def IsValid (t : IBLT w) : Bool :=
  t.numHashes != 0 && t.hashTable.length % t.numHashes.toNat == 0

/-- `m_hash_table.size() / m_num_hashes`. -/
def bucketsPerHash (t : IBLT w) : Fallible Nat :=
  if t.numHashes = 0 then .error .divisionByZero
  else .ok (t.hashTable.length / t.numHashes.toNat)

/-- The bucket of a key for hash function `i`, `start_entry + (h % buckets_per_hash)`. -/
def bucket (bucketsPerHash i : Nat) (key : BitVec w) : Fallible Nat :=
  if bucketsPerHash = 0 then .error .divisionByZero
  else .ok (i * bucketsPerHash + (hash (UInt32.ofNat i) key).toNat % bucketsPerHash)

/-- `Update`: the key goes into its bucket of every hash function. -/
def Update (t : IBLT w) (countDelta : Int) (key : BitVec w) (value : List UInt8) :
    Fallible (IBLT w) := do
  if value.length ≠ ValueSize then throw .assertion
  let keyCheck := hash N_HASHCHECK key
  let perHash ← t.bucketsPerHash
  let table ← (List.range t.numHashes.toNat).foldlM (fun table i => do
      let b ← bucket hash perHash i key
      match table[b]? with
      | none => throw .outOfRange
      | some entry =>
        pure (table.set b (entry.combine (entry.count + countDelta) key keyCheck value)))
    t.hashTable
  pure { t with hashTable := table }

def Insert (t : IBLT w) (key : BitVec w) (value : List UInt8) : Fallible (IBLT w) :=
  t.Update ValueSize hash 1 key value

def Erase (t : IBLT w) (key : BitVec w) (value : List UInt8) : Fallible (IBLT w) :=
  t.Update ValueSize hash (-1) key value

/-- The first loop of `Get`: the key's buckets, until one is empty or pure. -/
def probe (t : IBLT w) (perHash : Nat) (key : BitVec w) :
    List Nat → Fallible (Option (Bool × List UInt8))
  | [] => pure none
  | i :: is => do
    let b ← bucket hash perHash i key
    match t.hashTable[b]? with
    | none => throw .outOfRange
    | some entry =>
      if entry.IsEmpty then pure (some (true, []))
      else if entry.IsPure hash then
        pure (some (true, if entry.keySum = key then entry.valueSum else []))
      else probe t perHash key is

/-- The peeling loop of `Get` over the buckets `is` of `peeled`: the value of the key when a
pure bucket holds it, else the peeled table and whether a bucket was erased. Every index is
below the table's size, which `Update` keeps, so `getD` reads `m_hash_table[i]`. -/
def getPeel (key : BitVec w) : List Nat → IBLT w → Bool →
    Fallible (Option (List UInt8) × IBLT w × Bool)
  | [], peeled, erased => pure (none, peeled, erased)
  | i :: is, peeled, erased =>
    let entry := peeled.hashTable.getD i IBLTEntry.empty
    if entry.IsPure hash then
      if entry.keySum = key then pure (some entry.valueSum, peeled, erased)
      else do
        let peeled' ← peeled.Update ValueSize hash (-entry.count) entry.keySum entry.valueSum
        getPeel key is peeled' true
    else getPeel key is peeled erased

/-- `Get`: whether the answer is certain, and the value found. It recurses on the peeled
table while peeling erases a bucket. -/
def Get (t : IBLT w) (key : BitVec w) : Nat → Option (Fallible (Bool × List UInt8))
  | 0 => none
  | fuel + 1 =>
    match t.bucketsPerHash >>= fun perHash => probe hash t perHash key (List.range t.numHashes.toNat) with
    | .error e => some (.error e)
    | .ok (some result) => some (.ok result)
    | .ok none =>
      match getPeel ValueSize hash key (List.range t.hashTable.length) t false with
      | .error e => some (.error e)
      | .ok (some value, _, _) => some (.ok (true, value))
      | .ok (none, peeled, erased) =>
        if erased then Get peeled key fuel else some (.ok (false, []))

/-- One pass of the `do … while (erased)` loop of `ListEntries` over the buckets `is`: each
pure bucket is listed and peeled off. -/
def listPeel : List Nat → IBLT w × TEntriesMap w × TEntriesMap w × Bool →
    Fallible (IBLT w × TEntriesMap w × TEntriesMap w × Bool)
  | [], acc => pure acc
  | i :: is, (peeled, positive, negative, erased) =>
    let entry := peeled.hashTable.getD i IBLTEntry.empty
    if entry.IsPure hash then do
      let positive' := if entry.count = 1 then positive.emplace entry.keySum entry.valueSum
        else positive
      let negative' := if entry.count = 1 then negative
        else negative.emplace entry.keySum entry.valueSum
      let peeled' ← peeled.Update ValueSize hash (-entry.count) entry.keySum entry.valueSum
      listPeel is (peeled', positive', negative', true)
    else listPeel is (peeled, positive, negative, erased)

/-- The `do … while (erased)` loop of `ListEntries`. -/
def listLoop : Nat → IBLT w → TEntriesMap w → TEntriesMap w →
    Option (Fallible (IBLT w × TEntriesMap w × TEntriesMap w))
  | 0, _, _, _ => none
  | fuel + 1, peeled, positive, negative =>
    match listPeel ValueSize hash (List.range peeled.hashTable.length)
        (peeled, positive, negative, false) with
    | .error e => some (.error e)
    | .ok (peeled', positive', negative', erased) =>
      if erased then listLoop fuel peeled' positive' negative'
      else some (.ok (peeled', positive', negative'))

/-- `ListEntries`: the entries listed into `positive_out` and `negative_out`, and whether
the buckets of the first hash function were all peeled. -/
def ListEntries (t : IBLT w) (positive negative : TEntriesMap w) (fuel : Nat) :
    Option (Fallible (Bool × TEntriesMap w × TEntriesMap w)) :=
  (listLoop ValueSize hash fuel t positive negative).map fun result => do
    let (peeled, positive', negative') ← result
    let perHash ← t.bucketsPerHash
    pure ((List.range perHash).all (fun i => (peeled.hashTable.getD i IBLTEntry.empty).IsEmpty),
      positive', negative')

/-- `operator-`, for tables of the same shape. -/
def sub (t other : IBLT w) : Fallible (IBLT w) :=
  if t.hashTable.length ≠ other.hashTable.length ∨ t.numHashes ≠ other.numHashes then
    .error .assertion
  else .ok { t with
    hashTable := List.zipWith (fun e1 e2 =>
      e1.combine (e1.count - e2.count) e2.keySum e2.keyCheck e2.valueSum) t.hashTable other.hashTable }

/-- `CloneEmpty`: `IBLT(m_hash_table.size(), m_num_hashes)`, which asserts `IsValid()`. -/
def CloneEmpty (t : IBLT w) : Fallible (IBLT w) :=
  let clone : IBLT w := make t.hashTable.length t.numHashes
  if clone.IsValid then .ok clone else .error .assertion

theorem numHashes_ne_zero_of_valid {t : IBLT w} (hvalid : t.IsValid = true) : t.numHashes ≠ 0 := by
  simp only [IsValid, Bool.and_eq_true, bne_iff_ne] at hvalid
  exact hvalid.1

theorem bucketsPerHash_of_valid {t : IBLT w} (hvalid : t.IsValid = true) :
    t.bucketsPerHash = .ok (t.hashTable.length / t.numHashes.toNat) := by
  simp [bucketsPerHash, numHashes_ne_zero_of_valid hvalid]

theorem CloneEmpty_of_valid {t : IBLT w} (hvalid : t.IsValid = true) :
    t.CloneEmpty = .ok (make t.hashTable.length t.numHashes) := by
  have hclone : (make t.hashTable.length t.numHashes : IBLT w).IsValid = t.IsValid := by
    simp [IsValid, make]
  simp [CloneEmpty, hclone, hvalid]

theorem Update_of_one_hash {t : IBLT w} {countDelta : Int} {key : BitVec w} {value : List UInt8}
    (hn : t.numHashes = 1) (hlen : 0 < t.hashTable.length) (hv : value.length = ValueSize)
    {b : Nat} (hb : b = (hash 0 key).toNat % t.hashTable.length) {e : IBLTEntry w}
    (he : t.hashTable.getD b IBLTEntry.empty = e) :
    t.Update ValueSize hash countDelta key value = .ok { t with
      hashTable := t.hashTable.set b (e.combine (e.count + countDelta) key (hash N_HASHCHECK key) value) } := by
  have hlt : b < t.hashTable.length := hb ▸ Nat.mod_lt _ hlen
  have hget : t.hashTable[b]? = some e := by
    rw [← he, List.getD_eq_getElem?_getD, List.getElem?_eq_getElem hlt]
    rfl
  subst hb
  simp [Update, hv, bucketsPerHash, hn, bucket, Nat.pos_iff_ne_zero.mp hlen, hget]

theorem numHashes_toNat_succ {t : IBLT w} (hvalid : t.IsValid = true) :
    ∃ k, t.numHashes.toNat = k + 1 := by
  have hn := numHashes_ne_zero_of_valid hvalid
  have hnat : t.numHashes.toNat ≠ 0 := fun h => hn (UInt8.toNat_inj.mp (by simp [h]))
  exact ⟨t.numHashes.toNat - 1, by omega⟩

theorem IsValid_of_shape {t t' : IBLT w} (hlen : t'.hashTable.length = t.hashTable.length)
    (hn : t'.numHashes = t.numHashes) : t'.IsValid = t.IsValid := by
  simp [IsValid, hlen, hn]

theorem sub_ok_of_shape {t other : IBLT w} (hlen : other.hashTable.length = t.hashTable.length)
    (hn : other.numHashes = t.numHashes) : ∃ diff, t.sub other = .ok diff := by
  simp [sub, hlen, hn]

theorem bucket_lt_of_valid {t : IBLT w} (hvalid : t.IsValid = true) (hlen : 0 < t.hashTable.length)
    {i : Nat} (hi : i < t.numHashes.toNat) (key : BitVec w) :
    ∃ b, bucket hash (t.hashTable.length / t.numHashes.toNat) i key = .ok b ∧
      b < t.hashTable.length := by
  obtain ⟨k, hk⟩ := numHashes_toNat_succ hvalid
  have hdvd : t.numHashes.toNat ∣ t.hashTable.length := by
    simp only [IsValid, Bool.and_eq_true, beq_iff_eq] at hvalid
    exact Nat.dvd_of_mod_eq_zero hvalid.2
  -- the table is `numHashes` ranges of `perHash` buckets, and hash function `i` uses the `i`-th
  have hmul := Nat.mul_div_cancel' hdvd
  have hpos : 0 < t.hashTable.length / t.numHashes.toNat :=
    Nat.div_pos (Nat.le_of_dvd hlen hdvd) (by omega)
  set perHash := t.hashTable.length / t.numHashes.toNat
  have hmod := Nat.mod_lt (hash (UInt32.ofNat i) key).toNat hpos
  have hle : (i + 1) * perHash ≤ t.numHashes.toNat * perHash := Nat.mul_le_mul_right _ hi
  refine ⟨i * perHash + (hash (UInt32.ofNat i) key).toNat % perHash, ?_, ?_⟩
  · simp [bucket, Nat.pos_iff_ne_zero.mp hpos]
  · rw [Nat.succ_mul] at hle
    omega

/-- `Update` on a valid table with buckets succeeds for a value of the table's value size,
and keeps the table's shape. -/
theorem Update_ok_of_valid {t : IBLT w} {countDelta : Int} {key : BitVec w} {value : List UInt8}
    (hvalid : t.IsValid = true) (hlen : 0 < t.hashTable.length) (hv : value.length = ValueSize) :
    ∃ t', t.Update ValueSize hash countDelta key value = .ok t' ∧
      t'.hashTable.length = t.hashTable.length ∧ t'.numHashes = t.numHashes := by
  -- each step writes one bucket of the table and keeps its length
  have hstep : ∀ table : List (IBLTEntry w), table.length = t.hashTable.length →
      ∀ i ∈ List.range t.numHashes.toNat, ∃ table',
        (do
          let b ← bucket hash (t.hashTable.length / t.numHashes.toNat) i key
          match table[b]? with
          | none => throw .outOfRange
          | some entry =>
            pure (table.set b (entry.combine (entry.count + countDelta) key
              (hash N_HASHCHECK key) value)) : Fallible (List (IBLTEntry w))) = .ok table' ∧
        table'.length = t.hashTable.length := by
    intro table htable i hi
    obtain ⟨b, hb, hblt⟩ := bucket_lt_of_valid hash hvalid hlen (List.mem_range.mp hi) key
    have hb' : b < table.length := htable ▸ hblt
    refine ⟨table.set b (table[b].combine (table[b].count + countDelta) key
      (hash N_HASHCHECK key) value), ?_, List.length_set.trans htable⟩
    rw [hb, Except.ok_bind, List.getElem?_eq_getElem hb']
    rfl
  obtain ⟨table, hfold, htable⟩ := Except.foldlM_invariant (fun table => table.length = t.hashTable.length)
    (List.range t.numHashes.toNat) hstep t.hashTable rfl
  refine ⟨{ t with hashTable := table }, ?_, htable, rfl⟩
  simp only [Update, hv, ne_eq, not_true_eq_false, if_false, bucketsPerHash_of_valid hvalid,
    Except.ok_bind]
  rw [hfold]
  rfl

theorem Update_of_empty_table {t : IBLT w} {countDelta : Int} {key : BitVec w}
    {value : List UInt8} (hvalid : t.IsValid = true) (hempty : t.hashTable = [])
    (hv : value.length = ValueSize) :
    t.Update ValueSize hash countDelta key value = .error .divisionByZero := by
  obtain ⟨k, hk⟩ := numHashes_toNat_succ hvalid
  simp [Update, hv, bucketsPerHash_of_valid hvalid, hempty, hk, List.range_succ_eq_map, bucket]

theorem Get_of_empty_table {t : IBLT w} {key : BitVec w} (hvalid : t.IsValid = true)
    (hempty : t.hashTable = []) (fuel : Nat) :
    t.Get ValueSize hash key (fuel + 1) = some (.error .divisionByZero) := by
  obtain ⟨k, hk⟩ := numHashes_toNat_succ hvalid
  simp [Get, bucketsPerHash_of_valid hvalid, hempty, hk, List.range_succ_eq_map, probe, bucket]

theorem listPeel_of_not_pure {i : Nat} {is : List Nat} {peeled : IBLT w}
    {positive negative : TEntriesMap w} {erased : Bool}
    (hpure : (peeled.hashTable.getD i IBLTEntry.empty).IsPure hash = false) :
    listPeel ValueSize hash (i :: is) (peeled, positive, negative, erased) =
      listPeel ValueSize hash is (peeled, positive, negative, erased) := by
  simp only [listPeel, hpure, Bool.false_eq_true, if_false]

theorem listPeel_of_pure {i : Nat} {is : List Nat} {peeled peeled' : IBLT w}
    {positive negative : TEntriesMap w} {erased : Bool} {entry : IBLTEntry w}
    (hentry : peeled.hashTable.getD i IBLTEntry.empty = entry) (hpure : entry.IsPure hash = true)
    (hupdate : peeled.Update ValueSize hash (-entry.count) entry.keySum entry.valueSum =
      .ok peeled') :
    listPeel ValueSize hash (i :: is) (peeled, positive, negative, erased) =
      listPeel ValueSize hash is (peeled',
        if entry.count = 1 then positive.emplace entry.keySum entry.valueSum else positive,
        if entry.count = 1 then negative else negative.emplace entry.keySum entry.valueSum,
        true) := by
  subst hentry
  simp only [listPeel, hpure, if_true, hupdate, Except.ok_bind]

@[simp] theorem length_make (numEntries : Nat) (numHashes : UInt8) :
    (make numEntries numHashes : IBLT w).hashTable.length = numEntries := by
  simp [make]

theorem getD_make (numEntries : Nat) (numHashes : UInt8) (i : Nat) :
    (make numEntries numHashes : IBLT w).hashTable.getD i IBLTEntry.empty = IBLTEntry.empty := by
  simp only [make, List.getD_eq_getElem?_getD, List.getElem?_replicate]
  split <;> rfl

theorem sub_make_self (numEntries : Nat) (numHashes : UInt8) :
    (make numEntries numHashes : IBLT w).sub (make numEntries numHashes) =
      .ok (make numEntries numHashes) := by
  simp [sub, make, IBLTEntry.empty, IBLTEntry.combine, IBLTEntry.IsEmpty]

theorem listPeel_of_none_pure {peeled : IBLT w}
    (hnone : ∀ i, (peeled.hashTable.getD i IBLTEntry.empty).IsPure hash = false) :
    ∀ (is : List Nat) positive negative erased,
      listPeel ValueSize hash is (peeled, positive, negative, erased) =
        .ok (peeled, positive, negative, erased)
  | [], _, _, _ => rfl
  | i :: is, positive, negative, erased => by
    rw [listPeel_of_not_pure ValueSize hash (hnone i)]
    exact listPeel_of_none_pure hnone is positive negative erased

theorem ListEntries_make {numEntries : Nat} {numHashes : UInt8}
    (hvalid : (make numEntries numHashes : IBLT w).IsValid = true)
    (positive negative : TEntriesMap w) (fuel : Nat) :
    (make numEntries numHashes : IBLT w).ListEntries ValueSize hash positive negative (fuel + 1) =
      some (.ok (true, positive, negative)) := by
  have hpass : listPeel ValueSize hash (List.range numEntries)
      (make numEntries numHashes, positive, negative, false) =
        .ok (make numEntries numHashes, positive, negative, false) :=
    listPeel_of_none_pure ValueSize hash (fun i => by rw [getD_make]; rfl) _ _ _ _
  simp only [ListEntries, listLoop, length_make, hpass, Bool.false_eq_true, if_false,
    Option.map_some, bucketsPerHash_of_valid hvalid, Except.ok_bind, getD_make,
    IBLTEntry.empty_IsEmpty]
  simp

/-- A table on which a pass of the peeling loop erases buckets and ends on the table itself
never leaves the loop: induction on the fuel. -/
theorem listLoop_of_cycle {t : IBLT w}
    (hcycle : ∀ positive negative, ∃ positive' negative',
      listPeel ValueSize hash (List.range t.hashTable.length) (t, positive, negative, false) =
        .ok (t, positive', negative', true)) :
    ∀ fuel positive negative, listLoop ValueSize hash fuel t positive negative = none := by
  intro fuel
  induction fuel with
  | zero => intro _ _; rfl
  | succ fuel ih =>
    intro positive negative
    obtain ⟨positive', negative', hpass⟩ := hcycle positive negative
    simp only [listLoop, hpass, if_true]
    exact ih positive' negative'

end IBLT

end UnitE
