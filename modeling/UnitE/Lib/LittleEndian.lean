import Mathlib.Tactic.Ring

/-! Little-endian byte encodings of natural numbers: `toListLE w n` writes `n` in exactly `w`
bytes, least significant first, `minimalLE n` in as few bytes as it needs, and `ofListLE`
reads bytes back. -/

namespace Bytes

/-- The `w` little-endian bytes of `n`; bits above `8 * w` are dropped. -/
def toListLE : ℕ → ℕ → List UInt8
  | 0, _ => []
  | w + 1, n => UInt8.ofNat (n % 256) :: toListLE w (n / 256)

/-- The natural number with the given little-endian bytes. -/
def ofListLE : List UInt8 → ℕ
  | [] => 0
  | b :: bs => b.toNat + 256 * ofListLE bs

/-- The little-endian bytes of `n` up to its last nonzero one: none for `0`. -/
def minimalLE (n : ℕ) : List UInt8 :=
  if n = 0 then [] else UInt8.ofNat (n % 256) :: minimalLE (n / 256)
termination_by n
decreasing_by omega

@[simp] theorem toListLE_zero (n : ℕ) : toListLE 0 n = [] := rfl

@[simp] theorem toListLE_succ (w n : ℕ) :
    toListLE (w + 1) n = UInt8.ofNat (n % 256) :: toListLE w (n / 256) := rfl

@[simp] theorem ofListLE_nil : ofListLE [] = 0 := rfl

@[simp] theorem ofListLE_cons (b : UInt8) (bs : List UInt8) :
    ofListLE (b :: bs) = b.toNat + 256 * ofListLE bs := rfl

@[simp] theorem length_toListLE (w n : ℕ) : (toListLE w n).length = w := by
  induction w generalizing n with
  | zero => rfl
  | succ w ih => simp only [toListLE_succ, List.length_cons, ih]

theorem toNat_ofNat_mod_256 (n : ℕ) : (UInt8.ofNat (n % 256)).toNat = n % 256 := by
  rw [UInt8.toNat_ofNat', Nat.mod_eq_of_lt (by have := Nat.mod_lt n (show 0 < 256 by omega); omega)]

theorem ofListLE_toListLE (w n : ℕ) : ofListLE (toListLE w n) = n % 256 ^ w := by
  induction w generalizing n with
  | zero => simp only [toListLE_zero, ofListLE_nil, pow_zero, Nat.mod_one]
  | succ w ih =>
    rw [toListLE_succ, ofListLE_cons, ih, toNat_ofNat_mod_256, pow_succ', Nat.mod_mul]

theorem ofListLE_toListLE_of_lt {w n : ℕ} (h : n < 256 ^ w) : ofListLE (toListLE w n) = n := by
  rw [ofListLE_toListLE, Nat.mod_eq_of_lt h]

theorem ofListLE_append (l₁ l₂ : List UInt8) :
    ofListLE (l₁ ++ l₂) = ofListLE l₁ + 256 ^ l₁.length * ofListLE l₂ := by
  induction l₁ with
  | nil => simp
  | cons b bs ih =>
    rw [List.cons_append, ofListLE_cons, ofListLE_cons, ih, List.length_cons, pow_succ]
    ring

theorem ofListLE_append_zero (l : List UInt8) : ofListLE (l ++ [0]) = ofListLE l := by
  rw [ofListLE_append]
  simp

theorem ofListLE_lt (l : List UInt8) : ofListLE l < 256 ^ l.length := by
  induction l with
  | nil => simp
  | cons b bs ih =>
    rw [ofListLE_cons, List.length_cons, pow_succ]
    have hb : b.toNat < 256 := b.toNat_lt
    omega

theorem minimalLE_zero : minimalLE 0 = [] := by
  rw [minimalLE, if_pos rfl]

theorem minimalLE_of_pos {n : ℕ} (hn : n ≠ 0) :
    minimalLE n = UInt8.ofNat (n % 256) :: minimalLE (n / 256) := by
  rw [minimalLE, if_neg hn]

theorem ofListLE_minimalLE (n : ℕ) : ofListLE (minimalLE n) = n := by
  induction n using Nat.strong_induction_on with
  | _ n ih =>
    by_cases hn : n = 0
    · rw [hn, minimalLE_zero, ofListLE_nil]
    · rw [minimalLE_of_pos hn, ofListLE_cons, toNat_ofNat_mod_256,
        ih (n / 256) (by omega)]
      omega

theorem length_minimalLE_le {n w : ℕ} (h : n < 256 ^ w) : (minimalLE n).length ≤ w := by
  induction w generalizing n with
  | zero =>
    rw [pow_zero, Nat.lt_one_iff] at h
    rw [h, minimalLE_zero, List.length_nil]
  | succ w ih =>
    by_cases hn : n = 0
    · rw [hn, minimalLE_zero, List.length_nil]
      exact Nat.zero_le _
    · rw [minimalLE_of_pos hn, List.length_cons]
      have : n / 256 < 256 ^ w := by
        rw [pow_succ] at h
        omega
      exact Nat.succ_le_succ (ih this)

theorem minimalLE_eq_nil_iff {n : ℕ} : minimalLE n = [] ↔ n = 0 := by
  constructor
  · intro h
    by_contra hn
    rw [minimalLE_of_pos hn] at h
    cases h
  · rintro rfl
    exact minimalLE_zero

end Bytes
