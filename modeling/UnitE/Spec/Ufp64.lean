import UnitE.Spec.Types

/-! `ufp64`: unsigned fixed point numbers with eight decimal digits, stored in a
`uint64`. Intermediate results are computed in `arith_uint256`, where no product of two
64-bit values overflows; `GetLow64` keeps the low 64 bits, and a division by zero throws
`uint_error`. -/

namespace UnitE.Ufp64

/-- `ufp64_t`, a `uint64_t` read as a multiple of `10 ^ -8`. -/
abbrev ufp64_t := Nat

def SCALE : Nat := 100000000

def GetLow64 (x : Nat) : Nat := x % 2 ^ 64

/-- `arith_uint256` division, which throws on a zero divisor. -/
def divChecked (x y : Nat) : Fallible Nat :=
  if y = 0 then .error .divisionByZero else .ok (x / y)

/-- `add_uint`: `uint * SCALE` is computed in 32 bits before the 64-bit addition. -/
def add_uint (ufp : ufp64_t) (uint : UInt32) : ufp64_t :=
  ((uint.toNat * SCALE) % 2 ^ 32 + ufp) % 2 ^ 64

def mul (x y : ufp64_t) : ufp64_t := GetLow64 (x * y / SCALE)

def mul_by_uint (x : ufp64_t) (y : Nat) : ufp64_t := GetLow64 (x * y)

def mul_to_uint (x : ufp64_t) (y : Nat) : Nat := GetLow64 (x * y / SCALE)

def div_2uint (x y : Nat) : Fallible ufp64_t := GetLow64 <$> divChecked (x * SCALE) y

def div_by_uint (x : ufp64_t) (y : Nat) : Fallible ufp64_t := GetLow64 <$> divChecked x y

def div_to_uint (x : Nat) (y : ufp64_t) : Fallible Nat := GetLow64 <$> divChecked (x * SCALE) y

def div (x y : ufp64_t) : Fallible ufp64_t := GetLow64 <$> divChecked (x * SCALE) y

def add (x y : ufp64_t) : ufp64_t := (x + y) % 2 ^ 64

def sub (x y : ufp64_t) : ufp64_t := (x + 2 ^ 64 - y % 2 ^ 64) % 2 ^ 64

def min (x y : ufp64_t) : ufp64_t := Nat.min x y

def to_uint (x : ufp64_t) : Nat := x / SCALE

def to_ufp64 (x : Nat) : ufp64_t := (x * SCALE) % 2 ^ 64

theorem div_to_uint_of_ne_zero (x : Nat) {y : ufp64_t} (hy : y ≠ 0) :
    div_to_uint x y = .ok (GetLow64 (x * SCALE / y)) := by
  simp [div_to_uint, divChecked, hy]

def SQRT_ITERATIONS : Nat := 60

/-- One Babylonian step `sqrt = (sqrt + y / sqrt) / 2` of `sqrt_uint`. -/
def sqrtStep (y sqrt : Nat) : Fallible Nat := do
  let q ← divChecked y sqrt
  pure ((sqrt + q) / 2)

/-- `n` Babylonian steps from `sqrt`. -/
def sqrtIterate (y : Nat) : Nat → Nat → Fallible Nat
  | 0, sqrt => pure sqrt
  | n + 1, sqrt => do
    let next ← sqrtStep y sqrt
    sqrtIterate y n next

/-- `sqrt_uint`: 60 Babylonian steps from `y / 2`, where `y = x * SCALE * SCALE`. -/
def sqrt_uint (x : Nat) : Fallible ufp64_t := do
  let y := x * SCALE * SCALE
  let sqrt ← sqrtIterate y SQRT_ITERATIONS (y / 2)
  pure (GetLow64 sqrt)

end UnitE.Ufp64
