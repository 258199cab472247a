import UnitE.Spec.Staking

/-! The difficulty of the next block: the `difficulty_function` of `Parameters::Base`, which
`Behavior::CalculateDifficulty` calls and which `TestNet` keeps, and
`arith_uint256::GetCompact`, which encodes its result. The function averages the targets of the
last `difficulty_adjustment_window` blocks and scales the average by the time the window took
against the time it should have taken, with `max_difficulty_value` as the ceiling. A chain is
read through `ChainAccess`, whose lookups may find no block; the function then dereferences a
null pointer, and returns `none` here. -/

namespace UnitE

abbrev Time := UInt32

abbrev Depth := Height

/-- The fields of a `CBlockIndex` the difficulty function reads. -/
structure CBlockIndex where
  nTime : Time
  nBits : Difficulty
  deriving DecidableEq, Repr

/-- `blockchain::ChainAccess`: the blocks of the active chain by depth and by height, `none`
where it returns `nullptr`. -/
structure ChainAccess where
  AtDepth : Depth → Option CBlockIndex
  AtHeight : Height → Option CBlockIndex

/-- The loop of `base_uint::bits` over the bits below `n`, from the top: one more than the
position of the highest set bit, `0` if there is none. -/
def bitsBelow (x : arith_uint256) : Nat → Nat
  | 0 => 0
  | n + 1 => if x.getLsbD n then n + 1 else bitsBelow x n

/-- `base_uint::bits`. The source looks for the highest non-zero 32-bit word and then for its
highest set bit; looking at the 256 bits from the top finds the same bit. -/
def bits (x : arith_uint256) : Nat := bitsBelow x 256

def GetLow64 (x : arith_uint256) : UInt64 := UInt64.ofNat x.toNat

/-- The mantissa and the size `GetCompact` computes before it packs them: the three bytes of
`x` from its highest non-zero one, one byte fewer when the top one would set the sign bit. -/
def GetCompactParts (x : arith_uint256) : UInt32 × Nat :=
  let nSize := (bits x + 7) / 8
  let nCompact : UInt32 :=
    if nSize ≤ 3 then (GetLow64 x <<< UInt64.ofNat (8 * (3 - nSize))).toUInt32
    else (GetLow64 (x >>> (8 * (nSize - 3)))).toUInt32
  if nCompact &&& 0x00800000 != 0 then (nCompact >>> 8, nSize + 1) else (nCompact, nSize)

/-- `arith_uint256::GetCompact`. Its assertions, that the mantissa is below `2 ^ 23` and the
size below `256`, hold at every input (`GetCompactParts_lt`). -/
def GetCompact (x : arith_uint256) (fNegative : Bool) : UInt32 :=
  let nCompact := (GetCompactParts x).1 ||| UInt32.ofNat (GetCompactParts x).2 <<< 24
  nCompact ||| if fNegative && nCompact &&& 0x007fffff != 0 then 0x00800000 else 0

namespace Parameters

/-- `difficulty_adjustment_window` of `Parameters::Base`. -/
def difficulty_adjustment_window : Height := 128

/-- `block_time_seconds` of `Parameters::Base`. -/
def block_time_seconds : Time := 8

/-- `max_difficulty_value` of `Parameters::Base`, `0x00000000ffff...ff`. -/
def max_difficulty_value : arith_uint256 := BitVec.ofNat 256 (2 ^ 224 - 1)

/-- The loop of `difficulty_function` that sums the targets of the `n` blocks from height `i`
on. The source runs it from `window_start + 1` up to `window_end`, `n` being the window. -/
def windowSum (chain : ChainAccess) (i : Height) : Nat → arith_uint256 → Option arith_uint256
  | 0, sum => some sum
  | n + 1, sum => do
    let block ← chain.AtHeight i
    windowSum chain (i + 1) n (sum + (SetCompact block.nBits).1)

/-- `difficulty_function` of `Parameters::Base`. A duration is a `uint32_t`, made an
`arith_uint256` where it meets one; the divisors are the window, the positive duration and the
expected duration, none of them zero. -/
def difficulty_function (height : Height) (chain : ChainAccess) : Option Difficulty := do
  if height ≤ difficulty_adjustment_window then
    let block ← chain.AtDepth 1
    return block.nBits
  let window_end := height - 1
  let window_start := height - 1 - difficulty_adjustment_window
  let end_index ← chain.AtHeight window_end
  let start_index ← chain.AtHeight window_start
  if end_index.nTime ≤ start_index.nTime then
    return GetCompact max_difficulty_value false
  let actual_window_duration : Time := end_index.nTime - start_index.nTime
  let window_difficulties_sum ←
    windowSum chain (window_start + 1) difficulty_adjustment_window.toNat 0
  let avg_difficulty :=
    window_difficulties_sum / BitVec.ofNat 256 difficulty_adjustment_window.toNat
  let numerator := BitVec.ofNat 256 actual_window_duration.toNat * avg_difficulty
  -- the product overflowed
  if numerator / BitVec.ofNat 256 actual_window_duration.toNat != avg_difficulty then
    return GetCompact max_difficulty_value false
  let expected_window_duration : Time := difficulty_adjustment_window * block_time_seconds
  let next_difficulty := numerator / BitVec.ofNat 256 expected_window_duration.toNat
  if max_difficulty_value < next_difficulty then
    return GetCompact max_difficulty_value false
  return GetCompact next_difficulty false

end Parameters

end UnitE
