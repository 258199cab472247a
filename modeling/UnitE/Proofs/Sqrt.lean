import UnitE.Lib.Babylonian
import UnitE.Lib.Except
import UnitE.Spec.Ufp64

/-! `sqrt_uint` is the Babylonian iteration `Nat.babylonianStep` on the scaled input
`y = x * SCALE * SCALE`, sixty steps from `y / 2`. For every `x ≥ 1` no step divides by zero,
and below `2 ^ 64` the low 64 bits keep the whole result, so `sqrt_uint` returns the sixtieth
iterate: never below `Nat.sqrt y`, and above it by at most `(y / 2) / 2 ^ 60`, or one. For the
largest inputs sixty steps do not reach the root, and the result stays more than one above it. -/

namespace UnitE.Ufp64

open Nat (babylonianStep)

variable {x y s n : ℕ}

theorem sqrtStep_eq (hs : 0 < s) : sqrtStep y s = .ok (babylonianStep y s) := by
  simp [sqrtStep, divChecked, Nat.pos_iff_ne_zero.1 hs, babylonianStep]

/-- From a guess at or above the floor square root no step of the loop divides by zero, and the
loop computes the Babylonian iterate. -/
theorem sqrtIterate_eq (hy : 0 < y) (hs : Nat.sqrt y ≤ s) :
    sqrtIterate y n s = .ok ((babylonianStep y)^[n] s) := by
  induction n generalizing s with
  | zero => rfl
  | succ n ih =>
    have hpos : 0 < s := lt_of_lt_of_le (Nat.sqrt_pos.2 hy) hs
    rw [sqrtIterate, sqrtStep_eq hpos, Except.ok_bind, Function.iterate_succ_apply]
    exact ih (Nat.sqrt_le_babylonianStep hpos)

/-- The sixtieth iterate of `sqrt_uint` on a 64-bit input, bounded on both sides by the floor
square root. -/
theorem iterate_scaled_bounds (hx : 0 < x) :
    Nat.sqrt (x * SCALE * SCALE) ≤
        (babylonianStep (x * SCALE * SCALE))^[SQRT_ITERATIONS] (x * SCALE * SCALE / 2) ∧
      (babylonianStep (x * SCALE * SCALE))^[SQRT_ITERATIONS] (x * SCALE * SCALE / 2) -
          Nat.sqrt (x * SCALE * SCALE) ≤
        max ((x * SCALE * SCALE / 2 - Nat.sqrt (x * SCALE * SCALE)) / 2 ^ SQRT_ITERATIONS) 1 := by
  have hy : 2 ≤ x * SCALE * SCALE := by
    unfold SCALE
    omega
  exact ⟨Nat.sqrt_le_iterate_babylonianStep (Nat.sqrt_le_half hy),
    Nat.iterate_babylonianStep_sub_sqrt_le (Nat.sqrt_le_half hy)⟩

theorem iterate_scaled_lt (hx : 0 < x) (hx64 : x < 2 ^ 64) :
    (babylonianStep (x * SCALE * SCALE))^[SQRT_ITERATIONS] (x * SCALE * SCALE / 2) < 2 ^ 64 := by
  obtain ⟨-, hdist⟩ := iterate_scaled_bounds hx
  have hy : x * SCALE * SCALE < 2 ^ 118 := by
    unfold SCALE
    omega
  have hroot : Nat.sqrt (x * SCALE * SCALE) < 2 ^ 59 := Nat.sqrt_lt'.2 (by omega)
  have hhalf : (x * SCALE * SCALE / 2 - Nat.sqrt (x * SCALE * SCALE)) / 2 ^ SQRT_ITERATIONS
      < 2 ^ 58 := by
    apply (Nat.div_lt_iff_lt_mul (Nat.two_pow_pos _)).2
    unfold SQRT_ITERATIONS
    omega
  omega

theorem sqrt_uint_eq (hx : 0 < x) (hx64 : x < 2 ^ 64) :
    sqrt_uint x =
      .ok ((babylonianStep (x * SCALE * SCALE))^[SQRT_ITERATIONS] (x * SCALE * SCALE / 2)) := by
  have hy : 2 ≤ x * SCALE * SCALE := by
    unfold SCALE
    omega
  simp only [sqrt_uint]
  rw [sqrtIterate_eq (by omega) (Nat.sqrt_le_half hy), Except.ok_bind, GetLow64,
    Nat.mod_eq_of_lt (iterate_scaled_lt hx hx64)]
  rfl

/-- `sqrt_uint` never returns less than the floor square root of the scaled input, and returns
more by at most the starting distance halved sixty times, or one. -/
theorem sqrt_uint_bounds (hx : 0 < x) (hx64 : x < 2 ^ 64) :
    ∃ r, sqrt_uint x = .ok r ∧ Nat.sqrt (x * SCALE * SCALE) ≤ r ∧
      r - Nat.sqrt (x * SCALE * SCALE) ≤
        max ((x * SCALE * SCALE / 2 - Nat.sqrt (x * SCALE * SCALE)) / 2 ^ SQRT_ITERATIONS) 1 :=
  ⟨_, sqrt_uint_eq hx hx64, iterate_scaled_bounds hx⟩

theorem sqrt_uint_bounds_two :
    ∃ r, sqrt_uint 2 = .ok r ∧ Nat.sqrt (2 * SCALE * SCALE) ≤ r ∧
      r - Nat.sqrt (2 * SCALE * SCALE) ≤
        max ((2 * SCALE * SCALE / 2 - Nat.sqrt (2 * SCALE * SCALE)) / 2 ^ SQRT_ITERATIONS) 1 :=
  sqrt_uint_bounds (by decide) (by decide)

/-- At the largest 64-bit input sixty steps stop short of the root: the result exceeds the floor
square root of `x * 10 ^ 16` by 18655109262629. -/
theorem sqrt_uint_misses_root_at_max :
    sqrt_uint (2 ^ 64 - 1) = .ok 429515384709262628 ∧
      Nat.sqrt ((2 ^ 64 - 1) * SCALE * SCALE) = 429496729599999999 :=
  ⟨by decide, (Nat.eq_sqrt.2 ⟨by decide, by decide⟩).symm⟩

end UnitE.Ufp64
