import UnitE.Spec.Iblt

/-! What `IsValid` admits of the tables a peer sends. A table without buckets is valid, and
every `Insert`, `Erase` or `Get` on it, or on its `CloneEmpty`, takes a hash modulo zero
buckets per hash. A table of two buckets and one hash function whose only pure bucket is not
the bucket of its own key is valid too, and peeling it never ends: taking the key out of its
bucket puts its inverse there, which the next step of the pass peels back. -/

namespace UnitE.IBLT

variable {w : Nat} {ValueSize : Nat} (hash : UInt32 → BitVec w → UInt32)

/-- A table without buckets, valid for every non-zero number of hash functions: `Insert`
and `Get` on it and on its clone divide by zero. -/
theorem empty_table_modulus_by_zero {numHashes : UInt8} (hn : numHashes ≠ 0) (key : BitVec w)
    {value : List UInt8} (hv : value.length = ValueSize) (fuel : Nat) :
    (make 0 numHashes : IBLT w).IsValid = true ∧
      (make 0 numHashes : IBLT w).CloneEmpty = .ok (make 0 numHashes) ∧
      (make 0 numHashes : IBLT w).Insert ValueSize hash key value = .error .divisionByZero ∧
      (make 0 numHashes : IBLT w).Get ValueSize hash key (fuel + 1) = some (.error .divisionByZero) := by
  have hvalid : (make 0 numHashes : IBLT w).IsValid = true := by
    simp [IsValid, make, hn]
  have hempty : (make 0 numHashes : IBLT w).hashTable = [] := rfl
  exact ⟨hvalid, CloneEmpty_of_valid hvalid, Update_of_empty_table ValueSize hash hvalid hempty hv,
    Get_of_empty_table ValueSize hash hvalid hempty fuel⟩

theorem empty_table_modulus_by_zero_graphene :
    (1 : UInt8) ≠ 0 ∧ ([] : List UInt8).length = 0 ∧
      (make 0 1 : IBLT 64).IsValid = true ∧ (make 0 1 : IBLT 64).CloneEmpty = .ok (make 0 1) ∧
      (make 0 1 : IBLT 64).Insert 0 (fun _ _ => 0) 7 [] = .error .divisionByZero ∧
      (make 0 1 : IBLT 64).Get 0 (fun _ _ => 0) 7 1 = some (.error .divisionByZero) :=
  ⟨by decide, rfl, empty_table_modulus_by_zero (fun _ _ => 0) (by decide) 7 rfl 0⟩

section Misplaced

variable (key : BitVec w) (value : List UInt8)

def pureEntry : IBLTEntry w := ⟨1, key, hash N_HASHCHECK key, value⟩

def inverseEntry : IBLTEntry w := ⟨-1, key, hash N_HASHCHECK key, value⟩

def misplacedTable : IBLT w :=
  ⟨if (hash 0 key).toNat % 2 = 0 then [IBLTEntry.empty, pureEntry hash key value]
    else [pureEntry hash key value, IBLTEntry.empty], 1⟩

theorem pureEntry_IsPure : (pureEntry hash key value).IsPure hash = true :=
  IBLTEntry.IsPure_of_count (.inl rfl) rfl

theorem inverseEntry_IsPure : (inverseEntry hash key value).IsPure hash = true :=
  IBLTEntry.IsPure_of_count (.inr rfl) rfl

variable {hash key value}

theorem Update_take_out (table : List (IBLTEntry w)) (hlen : table.length = 2)
    (hv : value.length = ValueSize) {b : Nat} (hb : b = (hash 0 key).toNat % 2)
    (hentry : table.getD b IBLTEntry.empty = IBLTEntry.empty) :
    (⟨table, 1⟩ : IBLT w).Update ValueSize hash (-1) key value =
      .ok ⟨table.set b (inverseEntry hash key value), 1⟩ := by
  rw [Update_of_one_hash ValueSize hash rfl (by simp [hlen]) hv (by simp [hb, hlen]) hentry,
    IBLTEntry.empty_combine (by simp [IBLTEntry.empty])]
  rfl

/-- In a two-bucket table, putting the key back into its bucket, which holds its inverse,
empties the bucket. -/
theorem Update_put_back (table : List (IBLTEntry w)) (hlen : table.length = 2)
    (hv : value.length = ValueSize) {b : Nat} (hb : b = (hash 0 key).toNat % 2)
    (hentry : table.getD b IBLTEntry.empty = inverseEntry hash key value) :
    (⟨table, 1⟩ : IBLT w).Update ValueSize hash (-(-1)) key value =
      .ok ⟨table.set b IBLTEntry.empty, 1⟩ := by
  rw [Update_of_one_hash ValueSize hash rfl (by simp [hlen]) hv (by simp [hb, hlen]) hentry]
  simp only [inverseEntry, show (-1 : Int) + -(-1) = 0 by decide, IBLTEntry.combine_cancel]

variable {positive negative : TEntriesMap w}

/-- The key's bucket is the first: the first pass peels the pure second bucket and leaves
the key's inverse in the first. -/
theorem listPeel_first_pass (hb : (hash 0 key).toNat % 2 = 0) (hv : value.length = ValueSize) :
    listPeel ValueSize hash (List.range 2)
        (⟨[IBLTEntry.empty, pureEntry hash key value], 1⟩, positive, negative, false) =
      .ok (⟨[inverseEntry hash key value, pureEntry hash key value], 1⟩,
        positive.emplace key value, negative, true) := by
  have htake := Update_take_out [IBLTEntry.empty, pureEntry hash key value] rfl hv
    hb.symm rfl
  rw [show List.range 2 = [0, 1] from rfl]
  refine (listPeel_of_not_pure ValueSize hash ?_).trans
    ((listPeel_of_pure ValueSize hash rfl ?_ htake).trans rfl)
  · exact IBLTEntry.empty_IsPure hash
  · exact pureEntry_IsPure hash key value

/-- The key's bucket is the first and holds its inverse: a pass puts the key back there and
takes it out again, and ends on the table it started from. -/
theorem listPeel_cycle_first (hb : (hash 0 key).toNat % 2 = 0) (hv : value.length = ValueSize) :
    listPeel ValueSize hash (List.range 2)
        (⟨[inverseEntry hash key value, pureEntry hash key value], 1⟩, positive, negative, false) =
      .ok (⟨[inverseEntry hash key value, pureEntry hash key value], 1⟩,
        positive.emplace key value, negative.emplace key value, true) := by
  have hput := Update_put_back [inverseEntry hash key value, pureEntry hash key value]
    rfl hv hb.symm rfl
  have htake := Update_take_out [IBLTEntry.empty, pureEntry hash key value] rfl hv
    hb.symm rfl
  rw [show List.range 2 = [0, 1] from rfl]
  refine (listPeel_of_pure ValueSize hash rfl ?_ hput).trans
    ((listPeel_of_pure ValueSize hash rfl ?_ htake).trans rfl)
  · exact inverseEntry_IsPure hash key value
  · exact pureEntry_IsPure hash key value

/-- The key's bucket is the second: a pass takes the key out of it and puts it back, and
ends on the table it started from. -/
theorem listPeel_cycle_second (hb : (hash 0 key).toNat % 2 = 1) (hv : value.length = ValueSize) :
    listPeel ValueSize hash (List.range 2)
        (⟨[pureEntry hash key value, IBLTEntry.empty], 1⟩, positive, negative, false) =
      .ok (⟨[pureEntry hash key value, IBLTEntry.empty], 1⟩,
        positive.emplace key value, negative.emplace key value, true) := by
  have htake := Update_take_out [pureEntry hash key value, IBLTEntry.empty] rfl hv
    hb.symm rfl
  have hput := Update_put_back [pureEntry hash key value, inverseEntry hash key value]
    rfl hv hb.symm rfl
  rw [show List.range 2 = [0, 1] from rfl]
  refine (listPeel_of_pure ValueSize hash rfl ?_ htake).trans
    ((listPeel_of_pure ValueSize hash rfl ?_ hput).trans rfl)
  · exact pureEntry_IsPure hash key value
  · exact inverseEntry_IsPure hash key value

theorem misplacedTable_IsValid : (misplacedTable hash key value).IsValid = true := by
  unfold misplacedTable
  split <;> simp [IsValid]

/-- For every hash function, key and value of the table's value size, `IsValid` accepts the
misplaced table and `ListEntries` on it never returns, whatever its fuel: after at most one
pass, every pass of the peeling loop erases buckets and ends where it started. -/
theorem misplaced_ListEntries_never_returns (hv : value.length = ValueSize) :
    (misplacedTable hash key value).IsValid = true ∧
      ∀ positive negative fuel,
        (misplacedTable hash key value).ListEntries ValueSize hash positive negative fuel = none := by
  refine ⟨misplacedTable_IsValid, fun positive negative fuel => ?_⟩
  suffices hloop : listLoop ValueSize hash fuel (misplacedTable hash key value) positive negative = none by
    simp [ListEntries, hloop]
  unfold misplacedTable
  by_cases hb : (hash 0 key).toNat % 2 = 0
  · -- one pass leaves the key's inverse in its bucket, and from there every pass cycles
    rw [if_pos hb]
    cases fuel with
    | zero => rfl
    | succ fuel =>
      simp only [listLoop, List.length_cons, List.length_nil, Nat.reduceAdd,
        listPeel_first_pass hb hv, if_true]
      apply listLoop_of_cycle
      exact fun _ _ => ⟨_, _, listPeel_cycle_first hb hv⟩
  · -- every pass cycles from the start
    rw [if_neg hb]
    have hb1 : (hash 0 key).toNat % 2 = 1 := by omega
    apply listLoop_of_cycle
    exact fun _ _ => ⟨_, _, listPeel_cycle_second hb1 hv⟩

end Misplaced

theorem misplaced_ListEntries_never_returns_graphene :
    ([] : List UInt8).length = 0 ∧
      (misplacedTable (fun _ _ => 0) (7 : BitVec 64) []).IsValid = true ∧
      ∀ positive negative fuel, (misplacedTable (fun _ _ => 0) (7 : BitVec 64) []).ListEntries 0
        (fun _ _ => 0) positive negative fuel = none :=
  ⟨rfl, misplaced_ListEntries_never_returns rfl⟩

end UnitE.IBLT
