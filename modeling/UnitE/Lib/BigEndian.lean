import Mathlib.Tactic.Ring
import UnitE.Lib.LittleEndian

/-! Byte strings read as natural numbers, most significant byte first. A bit packer that
writes fields at arbitrary bit offsets into a byte buffer is checked against this reading:
a field read out of a window of bytes is a quotient and remainder of the number, and a field
or-ed into a byte whose low bits are clear adds its value at that byte's weight. The `Nat`
lemmas give `or` of numbers with disjoint bits as their sum, and `and` with a mask of the high
bits of a byte as rounding down. -/

namespace Bytes

section Bits

theorem lor_eq_add_of_dvd {a b k : ℕ} (ha : 2 ^ k ∣ a) (hb : b < 2 ^ k) : a ||| b = a + b := by
  obtain ⟨q, rfl⟩ := ha
  exact (Nat.two_pow_add_eq_or_of_lt hb q).symm

theorem two_pow_mul_and_eq_zero {b k : ℕ} (hb : b < 2 ^ k) (a : ℕ) : (2 ^ k * a) &&& b = 0 := by
  apply Nat.eq_of_testBit_eq
  intro j
  rw [Nat.testBit_and, Nat.testBit_two_pow_mul, Nat.zero_testBit]
  by_cases hj : k ≤ j
  · have hbj : b < 2 ^ j := lt_of_lt_of_le hb (Nat.pow_le_pow_right (by omega) hj)
    rw [Nat.testBit_lt_two_pow hbj, Bool.and_false]
  · simp [hj]

/-- The mask of the bits from `k` to `n` rounds a number below `2 ^ n` down to a multiple of
`2 ^ k`. -/
theorem and_high_mask {x k n : ℕ} (hx : x < 2 ^ n) (hk : k ≤ n) :
    x &&& (2 ^ (n - k) - 1) * 2 ^ k = x / 2 ^ k * 2 ^ k := by
  have hq : x / 2 ^ k < 2 ^ (n - k) := by
    rw [Nat.div_lt_iff_lt_mul (Nat.two_pow_pos k), ← Nat.pow_add, Nat.sub_add_cancel hk]
    exact hx
  have hm := Nat.mod_lt x (Nat.two_pow_pos k)
  calc x &&& (2 ^ (n - k) - 1) * 2 ^ k
      = ((x / 2 ^ k) <<< k ||| x % 2 ^ k) &&& (2 ^ (n - k) - 1) <<< k := by
        rw [Nat.shiftLeft_eq, Nat.shiftLeft_eq, Nat.mul_comm (x / 2 ^ k),
          lor_eq_add_of_dvd (Dvd.intro _ rfl) hm, Nat.div_add_mod]
    _ = (x / 2 ^ k &&& 2 ^ (n - k) - 1) <<< k := by
        rw [Nat.and_or_distrib_right, Nat.shiftLeft_and_distrib, Nat.and_comm (x % 2 ^ k),
          Nat.shiftLeft_eq (2 ^ (n - k) - 1), Nat.mul_comm, two_pow_mul_and_eq_zero hm,
          Nat.or_zero]
    _ = x / 2 ^ k * 2 ^ k := by
        rw [Nat.and_two_pow_sub_one_of_lt_two_pow hq, Nat.shiftLeft_eq]

theorem div_mod_eq_of_mod_eq {y w a b c : ℕ} (hy : y % 2 ^ c = w) (hc : a + b ≤ c) :
    y / 2 ^ a % 2 ^ b = w / 2 ^ a % 2 ^ b := by
  have hdvd : 2 ^ a * 2 ^ b ∣ 2 ^ c := by
    rw [← Nat.pow_add]
    exact Nat.pow_dvd_pow 2 hc
  calc y / 2 ^ a % 2 ^ b = y % (2 ^ a * 2 ^ b) / 2 ^ a := (Nat.mod_mul_right_div_self _ _ _).symm
    _ = y % 2 ^ c % (2 ^ a * 2 ^ b) / 2 ^ a := by rw [Nat.mod_mod_of_dvd _ hdvd]
    _ = w / 2 ^ a % 2 ^ b := by rw [hy, Nat.mod_mul_right_div_self]

theorem two_pow_eight_mul (m : ℕ) : 2 ^ (8 * m) = 256 ^ m := by
  rw [Nat.pow_mul]

end Bits

/-- The number with the given bytes, most significant first. -/
def ofListBE (l : List UInt8) : ℕ := ofListLE l.reverse

@[simp] theorem ofListBE_nil : ofListBE [] = 0 := rfl

@[simp] theorem ofListBE_singleton (b : UInt8) : ofListBE [b] = b.toNat := by
  simp [ofListBE]

theorem ofListBE_append (l₁ l₂ : List UInt8) :
    ofListBE (l₁ ++ l₂) = ofListBE l₁ * 256 ^ l₂.length + ofListBE l₂ := by
  rw [ofListBE, List.reverse_append, ofListLE_append, List.length_reverse, ofListBE, ofListBE]
  ring

theorem ofListBE_cons (b : UInt8) (l : List UInt8) :
    ofListBE (b :: l) = b.toNat * 256 ^ l.length + ofListBE l := by
  rw [← List.singleton_append, ofListBE_append, ofListBE_singleton]

theorem ofListBE_lt (l : List UInt8) : ofListBE l < 256 ^ l.length := by
  rw [ofListBE, ← List.length_reverse]
  exact ofListLE_lt _

@[simp] theorem ofListBE_replicate_zero (n : ℕ) : ofListBE (List.replicate n 0) = 0 := by
  induction n with
  | zero => rfl
  | succ n ih => simp [List.replicate_succ, ofListBE_cons, ih]

/-- The quotient and remainder of a number written as a high part over a weight and a low part
below the weight. -/
theorem div_mod_of_lt {a r P : ℕ} (hr : r < P) : (a * P + r) / P = a ∧ (a * P + r) % P = r := by
  have hP : 0 < P := by omega
  rw [Nat.mul_comm, Nat.mul_add_div hP, Nat.div_eq_of_lt hr, Nat.add_zero, Nat.mul_add_mod,
    Nat.mod_eq_of_lt hr]
  exact ⟨rfl, rfl⟩

theorem ofListBE_injective {l₁ l₂ : List UInt8} (hlen : l₁.length = l₂.length)
    (h : ofListBE l₁ = ofListBE l₂) : l₁ = l₂ := by
  induction l₁ generalizing l₂ with
  | nil => exact (List.length_eq_zero_iff.1 hlen.symm).symm
  | cons b₁ t₁ ih =>
    obtain ⟨b₂, t₂, rfl⟩ := List.exists_cons_of_length_eq_add_one hlen.symm
    have hlen' : t₁.length = t₂.length := by simpa using hlen
    rw [ofListBE_cons, ofListBE_cons, hlen'] at h
    have ht₁ : ofListBE t₁ < 256 ^ t₂.length := hlen' ▸ ofListBE_lt t₁
    -- the top byte is the quotient by the weight of the rest, the rest the remainder
    obtain ⟨hq₁, hr₁⟩ := div_mod_of_lt (a := b₁.toNat) ht₁
    obtain ⟨hq₂, hr₂⟩ := div_mod_of_lt (a := b₂.toNat) (ofListBE_lt t₂)
    rw [h] at hq₁ hr₁
    rw [UInt8.toNat_inj.1 (hq₁.symm.trans hq₂), ih hlen' (hr₁.symm.trans hr₂)]

theorem ofListBE_take_drop (l : List UInt8) (k : ℕ) :
    ofListBE l = ofListBE (l.take k) * 256 ^ (l.length - k) + ofListBE (l.drop k) := by
  have h := ofListBE_append (l.take k) (l.drop k)
  rwa [List.take_append_drop, List.length_drop] at h

theorem ofListBE_div (l : List UInt8) (k : ℕ) :
    ofListBE l / 256 ^ (l.length - k) = ofListBE (l.take k) := by
  rw [ofListBE_take_drop l k]
  exact (div_mod_of_lt (by simpa using ofListBE_lt (l.drop k))).1

theorem ofListBE_mod (l : List UInt8) (k : ℕ) :
    ofListBE l % 256 ^ (l.length - k) = ofListBE (l.drop k) := by
  rw [ofListBE_take_drop l k]
  exact (div_mod_of_lt (by simpa using ofListBE_lt (l.drop k))).2

/-- A byte string whose number is `a` over the weight of its last `k` bytes plus a remainder
below it holds `a` in its first bytes and the remainder in the last `k`. -/
theorem ofListBE_take_drop_of_eq {l : List UInt8} {m k a b : ℕ} (hlen : l.length = m + k)
    (hb : b < 256 ^ k) (h : ofListBE l = a * 256 ^ k + b) :
    ofListBE (l.take m) = a ∧ ofListBE (l.drop m) = b := by
  have hsplit := ofListBE_take_drop l m
  rw [hlen, Nat.add_sub_cancel_left, h] at hsplit
  obtain ⟨hq, hr⟩ := div_mod_of_lt (a := a) hb
  obtain ⟨hq', hr'⟩ := div_mod_of_lt (a := ofListBE (l.take m))
    (by simpa [hlen] using ofListBE_lt (l.drop m))
  rw [hsplit] at hq hr
  exact ⟨hq'.symm.trans hq, hr'.symm.trans hr⟩

theorem ofListBE_window (l : List UInt8) {s k : ℕ} (h : s + k ≤ l.length) :
    ofListBE l / 256 ^ (l.length - (s + k)) % 256 ^ k = ofListBE ((l.drop s).take k) := by
  have hlen : (l.take (s + k)).length - s = k := by simp; omega
  have hmod := ofListBE_mod (l.take (s + k)) s
  rw [hlen] at hmod
  rw [ofListBE_div, hmod, List.drop_take, Nat.add_sub_cancel_left]

theorem toNat_getElem_eq (l : List UInt8) {j : ℕ} (hj : j < l.length) :
    l[j].toNat = ofListBE l / 256 ^ (l.length - 1 - j) % 256 := by
  have h := ofListBE_window l (show j + 1 ≤ l.length by omega)
  rw [pow_one, show l.length - (j + 1) = l.length - 1 - j by omega] at h
  rw [h, List.take_one, List.head?_drop, List.getElem?_eq_getElem hj]
  rfl

/-- A byte whose low `k` bits are clear, in a number divisible by `2 ^ k` times the byte's
weight. -/
theorem two_pow_dvd_getElem {l : List UInt8} {j k : ℕ} (hj : j < l.length) (hk : k ≤ 8)
    (h : 2 ^ k * 256 ^ (l.length - 1 - j) ∣ ofListBE l) : 2 ^ k ∣ l[j].toNat := by
  obtain ⟨q, hq⟩ := h
  have hpos : 0 < 256 ^ (l.length - 1 - j) := pow_pos (by norm_num) _
  have h256 : (256 : ℕ) = 2 ^ k * 2 ^ (8 - k) := by
    rw [← Nat.pow_add, Nat.add_sub_cancel' hk]
  rw [toNat_getElem_eq l hj, hq, Nat.mul_assoc, Nat.mul_comm, Nat.mul_assoc,
    Nat.mul_div_cancel_left _ hpos, h256, Nat.mul_comm, Nat.mul_mod_mul_left]
  exact Dvd.intro _ rfl

/-- Bits or-ed into a byte whose bits there are clear add their value at the byte's
weight. -/
theorem ofListBE_modify_or {l : List UInt8} {j k : ℕ} (hj : j < l.length) {x : UInt8}
    (hb : 2 ^ k ∣ l[j].toNat) (hx : x.toNat < 2 ^ k) :
    ofListBE (l.modify j (· ||| x)) = ofListBE l + x.toNat * 256 ^ (l.length - 1 - j) := by
  have hlen : (l.drop (j + 1)).length = l.length - 1 - j := by simp; omega
  -- the byte string split around the byte at `j`, before and after the change
  have hsplit : ∀ b : UInt8, ofListBE (l.take j ++ b :: l.drop (j + 1)) =
      ofListBE (l.take j) * 256 ^ (l.length - j) + b.toNat * 256 ^ (l.length - 1 - j) +
        ofListBE (l.drop (j + 1)) := by
    intro b
    rw [ofListBE_append, ofListBE_cons, List.length_cons, hlen,
      show l.length - 1 - j + 1 = l.length - j by omega]
    ring
  have hval := hsplit l[j]
  rw [← List.drop_eq_getElem_cons hj, List.take_append_drop] at hval
  rw [List.modify_eq_take_cons_drop hj, hsplit, UInt8.toNat_or, lor_eq_add_of_dvd hb hx, hval]
  ring

theorem ofListBE_modify_or_of_dvd {l : List UInt8} {j k : ℕ} (hj : j < l.length) (hk : k ≤ 8)
    {x : UInt8} (h : 2 ^ (8 * (l.length - 1 - j) + k) ∣ ofListBE l) (hx : x.toNat < 2 ^ k) :
    ofListBE (l.modify j (· ||| x)) = ofListBE l + x.toNat * 2 ^ (8 * (l.length - 1 - j)) := by
  rw [Nat.pow_add, two_pow_eight_mul, Nat.mul_comm] at h
  rw [ofListBE_modify_or hj (two_pow_dvd_getElem hj hk h) hx, two_pow_eight_mul]

/-- `and` of the last byte with a mask of its high bits rounds the number down to a multiple of
`2 ^ k`. -/
theorem ofListBE_modify_last_and {l : List UInt8} (hl : l ≠ []) {k : ℕ} (hk : k ≤ 8) {m : UInt8}
    (hm : m.toNat = (2 ^ (8 - k) - 1) * 2 ^ k) :
    ofListBE (l.modify (l.length - 1) (· &&& m)) = ofListBE l / 2 ^ k * 2 ^ k := by
  have h256 : (256 : ℕ) = 2 ^ (8 - k) * 2 ^ k := by
    rw [← Nat.pow_add, Nat.sub_add_cancel hk]
  obtain ⟨init, b, rfl⟩ : ∃ init b, l = init ++ [b] :=
    ⟨_, _, (List.dropLast_concat_getLast hl).symm⟩
  have hmask : (b &&& m).toNat = b.toNat / 2 ^ k * 2 ^ k := by
    rw [UInt8.toNat_and, hm, and_high_mask (UInt8.toNat_lt _) hk]
  have hmod : (init ++ [b]).modify init.length (· &&& m) = init ++ [b &&& m] := by
    simp [List.modify_eq_take_cons_drop]
  have hdiv : (ofListBE init * 2 ^ (8 - k) * 2 ^ k + b.toNat) / 2 ^ k =
      ofListBE init * 2 ^ (8 - k) + b.toNat / 2 ^ k := by
    rw [Nat.mul_comm _ (2 ^ k), Nat.mul_add_div (Nat.two_pow_pos k)]
  rw [List.length_append, List.length_singleton, Nat.add_sub_cancel, hmod, ofListBE_append,
    ofListBE_append]
  simp only [List.length_singleton, pow_one, ofListBE_singleton, hmask]
  rw [h256, ← Nat.mul_assoc, hdiv]
  ring

end Bytes
