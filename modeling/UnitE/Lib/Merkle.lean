import Mathlib.Data.List.Basic

/-! The level-by-level merkle root over an arbitrary hash of two nodes: each level hashes
adjacent pairs and pairs an odd last node with itself, and a flag records whether some
pair of a level was equal. Because of the self-pairing, a list and the same list with its
odd last node repeated have the same root. -/

namespace Merkle

variable {α : Type} (hash2 : α → α → α)

/-- The next level: adjacent pairs hashed, a last node alone paired with itself. -/
def level : List α → List α
  | a :: b :: rest => hash2 a b :: level rest
  | [a] => [hash2 a a]
  | [] => []

/-- Some adjacent pair, counted from the start, holds two equal nodes. -/
def hasEqualPair [DecidableEq α] : List α → Bool
  | a :: b :: rest => a == b || hasEqualPair rest
  | _ => false

theorem length_level (l : List α) : (level hash2 l).length = (l.length + 1) / 2 := by
  induction l using level.induct with
  | case1 a b rest ih => simp only [level, List.length_cons, ih]; omega
  | case2 a => simp [level]
  | case3 => simp [level]

theorem length_level_le {l : List α} (h : 1 < l.length) : (level hash2 l).length ≤ l.length - 1 := by
  rw [length_level]
  omega

variable [DecidableEq α]

/-- The loop of the merkle root from a level and the flag so far, for at most `fuel` more
levels; each level has fewer nodes, so the length of the first level is enough. -/
def rootFrom (zero : α) : Nat → List α → Bool → α × Bool
  | fuel + 1, a :: b :: rest, mutation =>
    rootFrom zero fuel (level hash2 (a :: b :: rest)) (mutation || hasEqualPair (a :: b :: rest))
  | _, hashes, mutation => (hashes.headD zero, mutation)

/-- The merkle root of `hashes` with the mutation flag; `zero` for no hashes. -/
def root (zero : α) (hashes : List α) : α × Bool := rootFrom hash2 zero hashes.length hashes false

variable (zero : α)

theorem rootFrom_of_lt {fuel : Nat} {hashes : List α} (h : 1 < hashes.length) (m : Bool) :
    rootFrom hash2 zero (fuel + 1) hashes m =
      rootFrom hash2 zero fuel (level hash2 hashes) (m || hasEqualPair hashes) := by
  match hashes, h with
  | a :: b :: rest, _ => rfl

theorem rootFrom_of_le (fuel : Nat) {hashes : List α} (h : hashes.length ≤ 1) (m : Bool) :
    rootFrom hash2 zero fuel hashes m = (hashes.headD zero, m) := by
  match fuel, hashes, h with
  | 0, _, _ => rfl
  | _ + 1, [], _ => rfl
  | _ + 1, [_], _ => rfl

theorem rootFrom_fuel (f1 f2 : Nat) {hashes : List α} (h1 : hashes.length ≤ f1 + 1)
    (h2 : hashes.length ≤ f2 + 1) (m : Bool) :
    rootFrom hash2 zero f1 hashes m = rootFrom hash2 zero f2 hashes m := by
  induction f1 generalizing f2 hashes m with
  | zero => rw [rootFrom_of_le hash2 zero _ h1, rootFrom_of_le hash2 zero _ (by omega)]
  | succ f ih =>
    by_cases h : 1 < hashes.length
    · obtain ⟨g, rfl⟩ : ∃ g, f2 = g + 1 := ⟨f2 - 1, by omega⟩
      have hlevel := length_level_le hash2 h
      rw [rootFrom_of_lt hash2 zero h, rootFrom_of_lt hash2 zero h]
      exact ih _ (by omega) (by omega) _
    · rw [rootFrom_of_le hash2 zero _ (by omega), rootFrom_of_le hash2 zero _ (by omega)]

theorem rootFrom_fst (fuel : Nat) (hashes : List α) (m m' : Bool) :
    (rootFrom hash2 zero fuel hashes m).1 = (rootFrom hash2 zero fuel hashes m').1 := by
  induction fuel generalizing hashes m m' with
  | zero => rfl
  | succ fuel ih =>
    by_cases h : 1 < hashes.length
    · rw [rootFrom_of_lt hash2 zero h, rootFrom_of_lt hash2 zero h]
      exact ih _ _ _
    · rw [rootFrom_of_le hash2 zero _ (by omega), rootFrom_of_le hash2 zero _ (by omega)]

theorem rootFrom_snd_true (fuel : Nat) (hashes : List α) : (rootFrom hash2 zero fuel hashes true).2 = true := by
  induction fuel generalizing hashes with
  | zero => rfl
  | succ fuel ih =>
    by_cases h : 1 < hashes.length
    · rw [rootFrom_of_lt hash2 zero h, Bool.true_or]
      exact ih _
    · rw [rootFrom_of_le hash2 zero _ (by omega)]

omit [DecidableEq α] in
theorem level_append_dup {xs : List α} (hxs : xs.length % 2 = 0) (c : α) :
    level hash2 (xs ++ [c, c]) = level hash2 (xs ++ [c]) := by
  induction xs using level.induct with
  | case1 a b rest ih =>
    simp only [List.cons_append, level, List.length_cons] at hxs ⊢
    rw [ih (by omega)]
  | case2 a => simp at hxs
  | case3 => rfl

theorem hasEqualPair_append_dup {xs : List α} (hxs : xs.length % 2 = 0) (c : α) :
    hasEqualPair (xs ++ [c, c]) = true := by
  induction xs using level.induct with
  | case1 a b rest ih =>
    simp only [List.cons_append, hasEqualPair, List.length_cons] at hxs ⊢
    rw [ih (by omega), Bool.or_true]
  | case2 a => simp at hxs
  | case3 => simp [hasEqualPair]

/-- A list of odd length at least three and the list with its last node repeated have
the same root; only the mutation flag tells them apart. -/
theorem root_append_dup {xs : List α} (hxs : xs.length % 2 = 0) (hne : xs ≠ []) (c : α) :
    (root hash2 zero (xs ++ [c, c])).1 = (root hash2 zero (xs ++ [c])).1 ∧
      (root hash2 zero (xs ++ [c, c])).2 = true := by
  have hpos : 0 < xs.length := List.length_pos_of_ne_nil hne
  have hlen : 1 < (xs ++ [c]).length := by simp; omega
  have hlen' : 1 < (xs ++ [c, c]).length := by simp
  have e1 : (xs ++ [c]).length = xs.length + 1 := by simp
  have e2 : (xs ++ [c, c]).length = xs.length + 1 + 1 := by simp
  constructor
  · have hlevel : (level hash2 (xs ++ [c])).length ≤ xs.length + 1 := by
      rw [length_level, e1]
      omega
    rw [root, root, e1, e2, rootFrom_of_lt hash2 zero hlen', rootFrom_of_lt hash2 zero hlen,
      level_append_dup hash2 hxs, rootFrom_fuel hash2 zero (xs.length + 1) xs.length (by omega) hlevel]
    exact rootFrom_fst hash2 zero _ _ _ _
  · rw [root, e2, rootFrom_of_lt hash2 zero hlen', hasEqualPair_append_dup hxs c, Bool.or_true]
    exact rootFrom_snd_true hash2 zero _ _

end Merkle
