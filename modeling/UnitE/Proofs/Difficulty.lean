import UnitE.Proofs.Compact

/-! The difficulty retarget stays in range and is monotone in the window's duration. Past the
first window, `difficulty_function` encodes either `max_difficulty_value` or `nextTarget`, the
average target scaled by the duration, which its overflow test and its cap keep at most
`max_difficulty_value`; `GetCompact` only rounds down. The overflow test is exact, so a longer
window overflows whenever a shorter one does, and below the overflow the scaled target grows
with the duration; rounding down is monotone, so the encoded target does too. -/

namespace UnitE

namespace Parameters

/-- The target `difficulty_function` encodes after a window of positive duration whose targets
sum to `window_difficulties_sum`. -/
def nextTarget (actual_window_duration : Time) (window_difficulties_sum : arith_uint256) :
    arith_uint256 :=
  let avg_difficulty :=
    window_difficulties_sum / BitVec.ofNat 256 difficulty_adjustment_window.toNat
  let numerator := BitVec.ofNat 256 actual_window_duration.toNat * avg_difficulty
  if numerator / BitVec.ofNat 256 actual_window_duration.toNat != avg_difficulty then
    max_difficulty_value
  else
    let next_difficulty :=
      numerator / BitVec.ofNat 256 (difficulty_adjustment_window * block_time_seconds).toNat
    if max_difficulty_value < next_difficulty then max_difficulty_value else next_difficulty

section Window

variable {height : Height}

theorem toNat_window (hheight : difficulty_adjustment_window < height) :
    (height - 1).toNat = height.toNat - 1 ∧
      (height - 1 - difficulty_adjustment_window).toNat = height.toNat - 129 := by
  have hwin : difficulty_adjustment_window.toNat = 128 := rfl
  have h := UInt32.lt_iff_toNat_lt.1 hheight
  rw [hwin] at h
  have hend : (height - 1).toNat = height.toNat - 1 :=
    UInt32.toNat_sub_of_le _ _ (UInt32.le_iff_toNat_le.2 (by rw [UInt32.toNat_one]; omega))
  refine ⟨hend, ?_⟩
  rw [UInt32.toNat_sub_of_le _ _ (UInt32.le_iff_toNat_le.2 (by rw [hend, hwin]; omega)), hend,
    hwin]
  omega

theorem window_index_mem (hheight : difficulty_adjustment_window < height) {j : Nat}
    (hj : j < difficulty_adjustment_window.toNat) :
    height - 1 - difficulty_adjustment_window ≤
        height - 1 - difficulty_adjustment_window + 1 + UInt32.ofNat j ∧
      height - 1 - difficulty_adjustment_window + 1 + UInt32.ofNat j ≤ height - 1 := by
  obtain ⟨hend, hstart⟩ := toNat_window hheight
  have hwin : difficulty_adjustment_window.toNat = 128 := rfl
  have h := UInt32.lt_iff_toNat_lt.1 hheight
  rw [hwin] at h hj
  have hidx : (height - 1 - difficulty_adjustment_window + 1 + UInt32.ofNat j).toNat =
      height.toNat - 128 + j := by
    rw [UInt32.toNat_add, UInt32.toNat_add, hstart, UInt32.toNat_one, UInt32.toNat_ofNat',
      Nat.mod_eq_of_lt (show j < 2 ^ 32 by omega)]
    have := UInt32.toNat_lt height
    rw [Nat.mod_eq_of_lt (by omega), Nat.mod_eq_of_lt (by omega)]
    omega
  rw [UInt32.le_iff_toNat_le, UInt32.le_iff_toNat_le, hidx, hstart, hend]
  omega

theorem window_start_le_end (hheight : difficulty_adjustment_window < height) :
    height - 1 - difficulty_adjustment_window ≤ height - 1 := by
  obtain ⟨hend, hstart⟩ := toNat_window hheight
  rw [UInt32.le_iff_toNat_le, hend, hstart]
  omega

theorem window_start_ne_end (hheight : difficulty_adjustment_window < height) :
    height - 1 - difficulty_adjustment_window ≠ height - 1 := by
  obtain ⟨hend, hstart⟩ := toNat_window hheight
  have h := UInt32.lt_iff_toNat_lt.1 hheight
  intro heq
  rw [heq, hend] at hstart
  have hwin : difficulty_adjustment_window.toNat = 128 := rfl
  omega

end Window

section WindowSum

variable {chain chain₂ : ChainAccess}

theorem windowSum_isSome (chain : ChainAccess) (n : Nat) :
    ∀ (i : Height) (sum : arith_uint256),
      (∀ j < n, (chain.AtHeight (i + UInt32.ofNat j)).isSome) →
      ∃ s, windowSum chain i n sum = some s := by
  induction n with
  | zero =>
    intro i sum _
    exact ⟨sum, rfl⟩
  | succ n ih =>
    intro i sum hblocks
    obtain ⟨block, hblock⟩ := Option.isSome_iff_exists.1 (hblocks 0 (Nat.succ_pos n))
    rw [show UInt32.ofNat 0 = 0 from rfl, UInt32.add_zero] at hblock
    obtain ⟨s, hs⟩ := ih (i + 1) (sum + (SetCompact block.nBits).1) fun j hj => by
      have hnext : i + 1 + UInt32.ofNat j = i + UInt32.ofNat (j + 1) := by
        rw [UInt32.ofNat_add]
        ac_rfl
      rw [hnext]
      exact hblocks (j + 1) (by omega)
    exact ⟨s, by simp [windowSum, hblock, hs]⟩

theorem windowSum_congr
    (hbits : ∀ i, (chain.AtHeight i).map CBlockIndex.nBits =
      (chain₂.AtHeight i).map CBlockIndex.nBits) (n : Nat) :
    ∀ (i : Height) (sum : arith_uint256), windowSum chain i n sum = windowSum chain₂ i n sum := by
  induction n with
  | zero =>
    intro i sum
    rfl
  | succ n ih =>
    intro i sum
    have hi := hbits i
    simp only [windowSum]
    cases h₁ : chain.AtHeight i <;> cases h₂ : chain₂.AtHeight i <;>
      simp only [h₁, h₂, Option.map_none, Option.map_some, reduceCtorEq,
        Option.some.injEq] at hi
    · rfl
    · simp only [Option.bind_eq_bind, Option.bind_some, hi, ih]

end WindowSum

section NextTarget

/-- The overflow test of `difficulty_function` is exact: the quotient of the wrapped product
by the duration is the average exactly when the product fits in 256 bits. -/
theorem scaled_overflow {d : Time} (hd : 0 < d.toNat) (avg : arith_uint256) :
    (BitVec.ofNat 256 d.toNat * avg / BitVec.ofNat 256 d.toNat != avg) =
      decide (2 ^ 256 ≤ d.toNat * avg.toNat) := by
  have hd256 : (BitVec.ofNat 256 d.toNat).toNat = d.toNat :=
    Nat.mod_eq_of_lt ((UInt32.toNat_lt d).trans (by decide))
  have hiff : BitVec.ofNat 256 d.toNat * avg / BitVec.ofNat 256 d.toNat = avg ↔
      d.toNat * avg.toNat < 2 ^ 256 := by
    rw [← BitVec.toNat_inj, BitVec.toNat_udiv, BitVec.toNat_mul, hd256]
    constructor
    · intro heq
      apply Nat.lt_of_not_le
      intro hover
      have hlt : d.toNat * avg.toNat % 2 ^ 256 < avg.toNat * d.toNat :=
        (Nat.mod_lt _ (by decide)).trans_le (by rw [Nat.mul_comm]; exact hover)
      have := (Nat.div_lt_iff_lt_mul hd).2 hlt
      omega
    · intro hfit
      rw [Nat.mod_eq_of_lt hfit, Nat.mul_div_cancel_left _ hd]
  by_cases hover : 2 ^ 256 ≤ d.toNat * avg.toNat
  · rw [decide_eq_true hover, bne_iff_ne, ne_eq, hiff]
    omega
  · rw [decide_eq_false hover, bne_eq_false_iff_eq, hiff]
    omega

theorem nextTarget_le (d : Time) (window_difficulties_sum : arith_uint256) :
    nextTarget d window_difficulties_sum ≤ max_difficulty_value := by
  simp only [nextTarget]
  split
  · exact BitVec.le_refl _
  · split
    · exact BitVec.le_refl _
    · next hle => exact BitVec.not_lt.1 hle

section Scaled

variable {d : Time} {window_difficulties_sum : arith_uint256}

/-- Where the product of the duration and the average overflows, the target is the
ceiling. -/
theorem nextTarget_of_overflow (hd : 0 < d.toNat)
    (hover : 2 ^ 256 ≤ d.toNat *
      (window_difficulties_sum / BitVec.ofNat 256 difficulty_adjustment_window.toNat).toNat) :
    nextTarget d window_difficulties_sum = max_difficulty_value := by
  simp only [nextTarget]
  rw [scaled_overflow hd, decide_eq_true hover, if_pos rfl]

theorem nextTarget_of_fit (hd : 0 < d.toNat)
    (hfit : d.toNat *
      (window_difficulties_sum / BitVec.ofNat 256 difficulty_adjustment_window.toNat).toNat <
        2 ^ 256) :
    nextTarget d window_difficulties_sum =
      let next_difficulty : arith_uint256 := BitVec.ofNat 256 (d.toNat *
        (window_difficulties_sum / BitVec.ofNat 256 difficulty_adjustment_window.toNat).toNat /
          1024)
      if max_difficulty_value < next_difficulty then max_difficulty_value
      else next_difficulty := by
  simp only [nextTarget]
  rw [scaled_overflow hd, decide_eq_false (by omega)]
  simp only [Bool.false_eq_true, if_false]
  generalize window_difficulties_sum / BitVec.ofNat 256 difficulty_adjustment_window.toNat
    = avg at hfit ⊢
  have hnext : BitVec.ofNat 256 d.toNat * avg /
      BitVec.ofNat 256 (difficulty_adjustment_window * block_time_seconds).toNat =
      BitVec.ofNat 256 (d.toNat * avg.toNat / 1024) := by
    apply BitVec.eq_of_toNat_eq
    rw [BitVec.toNat_udiv, BitVec.toNat_mul, BitVec.toNat_ofNat, BitVec.toNat_ofNat,
      BitVec.toNat_ofNat, Nat.mod_eq_of_lt ((UInt32.toNat_lt d).trans (by decide)),
      Nat.mod_eq_of_lt hfit, Nat.mod_eq_of_lt ((Nat.div_le_self _ _).trans_lt hfit)]
    rfl
  rw [hnext]

end Scaled

theorem cap_mono {M n₁ n₂ : arith_uint256} (h : n₁ ≤ n₂) :
    (if M < n₁ then M else n₁) ≤ (if M < n₂ then M else n₂) := by
  rw [BitVec.le_def] at h ⊢
  split <;> split <;> simp only [BitVec.lt_def] at * <;> omega

theorem nextTarget_mono {d₁ d₂ : Time} (hd : 0 < d₁.toNat) (hle : d₁.toNat ≤ d₂.toNat)
    (window_difficulties_sum : arith_uint256) :
    nextTarget d₁ window_difficulties_sum ≤ nextTarget d₂ window_difficulties_sum := by
  have hprod := Nat.mul_le_mul_right
    (window_difficulties_sum / BitVec.ofNat 256 difficulty_adjustment_window.toNat).toNat hle
  by_cases hover : 2 ^ 256 ≤ d₂.toNat *
    (window_difficulties_sum / BitVec.ofNat 256 difficulty_adjustment_window.toNat).toNat
  · -- the longer window overflows: its target is the ceiling
    rw [nextTarget_of_overflow (by omega) hover]
    exact nextTarget_le d₁ window_difficulties_sum
  · -- neither overflows: the scaled averages keep the order of the durations
    rw [nextTarget_of_fit hd (by omega), nextTarget_of_fit (by omega) (by omega)]
    apply cap_mono
    rw [BitVec.le_def, BitVec.toNat_ofNat, BitVec.toNat_ofNat,
      Nat.mod_eq_of_lt ((Nat.div_le_self _ _).trans_lt (by omega)),
      Nat.mod_eq_of_lt ((Nat.div_le_self _ _).trans_lt (by omega))]
    exact Nat.div_le_div_right hprod

end NextTarget

section Function

variable {height : Height} {chain : ChainAccess}

/-- Past the first window, with its blocks found, `difficulty_function` encodes the ceiling
after a window of no positive duration and `nextTarget` after any other. -/
theorem difficulty_function_eq {end_index start_index : CBlockIndex} {sum : arith_uint256}
    (hheight : difficulty_adjustment_window < height)
    (hend : chain.AtHeight (height - 1) = some end_index)
    (hstart : chain.AtHeight (height - 1 - difficulty_adjustment_window) = some start_index)
    (hsum : windowSum chain (height - 1 - difficulty_adjustment_window + 1)
      difficulty_adjustment_window.toNat 0 = some sum) :
    difficulty_function height chain = some (GetCompact
      (if end_index.nTime ≤ start_index.nTime then max_difficulty_value
        else nextTarget (end_index.nTime - start_index.nTime) sum) false) := by
  simp only [difficulty_function, if_neg (UInt32.not_le.2 hheight), hend, hstart,
    Option.bind_eq_bind, Option.bind_some]
  split
  · rfl
  · simp only [hsum, Option.bind_some, nextTarget]
    split_ifs <;> rfl

theorem windowSum_window (hheight : difficulty_adjustment_window < height)
    (hblocks : ∀ i : Height, height - 1 - difficulty_adjustment_window ≤ i → i ≤ height - 1 →
      (chain.AtHeight i).isSome) :
    ∃ sum, windowSum chain (height - 1 - difficulty_adjustment_window + 1)
      difficulty_adjustment_window.toNat 0 = some sum :=
  windowSum_isSome chain _ _ 0 fun _ hj =>
    hblocks _ (window_index_mem hheight hj).1 (window_index_mem hheight hj).2

/-- Past the first window, the difficulty is found and decodes, without sign or overflow, to
at most `max_difficulty_value`. -/
theorem difficulty_function_le_max (hheight : difficulty_adjustment_window < height)
    (hblocks : ∀ i : Height, height - 1 - difficulty_adjustment_window ≤ i → i ≤ height - 1 →
      (chain.AtHeight i).isSome) :
    ∃ nBits target, difficulty_function height chain = some nBits ∧
      SetCompact nBits = (target, false, false) ∧ target ≤ max_difficulty_value := by
  obtain ⟨end_index, hend⟩ :=
    Option.isSome_iff_exists.1 (hblocks _ (window_start_le_end hheight) (UInt32.le_refl _))
  obtain ⟨start_index, hstart⟩ :=
    Option.isSome_iff_exists.1 (hblocks _ (UInt32.le_refl _) (window_start_le_end hheight))
  obtain ⟨sum, hsum⟩ := windowSum_window hheight hblocks
  have hcap : (if end_index.nTime ≤ start_index.nTime then max_difficulty_value
      else nextTarget (end_index.nTime - start_index.nTime) sum) ≤ max_difficulty_value := by
    split
    · exact BitVec.le_refl _
    · exact nextTarget_le _ _
  obtain ⟨target, htarget, -⟩ := SetCompact_GetCompact (if end_index.nTime ≤ start_index.nTime
    then max_difficulty_value else nextTarget (end_index.nTime - start_index.nTime) sum)
  have hround := SetCompact_GetCompact_le (if end_index.nTime ≤ start_index.nTime
    then max_difficulty_value else nextTarget (end_index.nTime - start_index.nTime) sum)
  rw [htarget] at hround
  exact ⟨_, target, difficulty_function_eq hheight hend hstart hsum, htarget,
    BitVec.le_trans hround hcap⟩

/-- Two chains that differ only in the time of the window's last block, both windows of
positive duration: the longer one never gives the smaller target. -/
theorem difficulty_function_mono {chain₂ : ChainAccess} {end_index start_index : CBlockIndex}
    {nTime : Time} (hheight : difficulty_adjustment_window < height)
    (hblocks : ∀ i : Height, height - 1 - difficulty_adjustment_window ≤ i → i ≤ height - 1 →
      (chain.AtHeight i).isSome)
    (hend : chain.AtHeight (height - 1) = some end_index)
    (hend₂ : chain₂.AtHeight (height - 1) = some { end_index with nTime := nTime })
    (hsame : ∀ i, i ≠ height - 1 → chain₂.AtHeight i = chain.AtHeight i)
    (hstart : chain.AtHeight (height - 1 - difficulty_adjustment_window) = some start_index)
    (hpos : start_index.nTime < end_index.nTime) (hlonger : end_index.nTime ≤ nTime) :
    ∃ nBits nBits₂, difficulty_function height chain = some nBits ∧
      difficulty_function height chain₂ = some nBits₂ ∧ (SetCompact nBits).1 ≤ (SetCompact nBits₂).1 := by
  obtain ⟨sum, hsum⟩ := windowSum_window hheight hblocks
  -- the second chain sums the same targets, from the same first block
  have hbits : ∀ i, (chain.AtHeight i).map CBlockIndex.nBits =
      (chain₂.AtHeight i).map CBlockIndex.nBits := by
    intro i
    by_cases hi : i = height - 1
    · rw [hi, hend, hend₂]
      rfl
    · rw [hsame i hi]
  have hsum₂ := (windowSum_congr hbits _ _ _).symm.trans hsum
  have hstart₂ := (hsame _ (window_start_ne_end hheight)).trans hstart
  refine ⟨_, _, difficulty_function_eq hheight hend hstart hsum,
    difficulty_function_eq hheight hend₂ hstart₂ hsum₂, ?_⟩
  have hlt₂ : start_index.nTime < nTime := UInt32.lt_of_lt_of_le hpos hlonger
  rw [if_neg (UInt32.not_le.2 hpos), if_neg (UInt32.not_le.2 hlt₂)]
  apply SetCompact_GetCompact_mono
  have hpos' := UInt32.lt_iff_toNat_lt.1 hpos
  have hlonger' := UInt32.le_iff_toNat_le.1 hlonger
  apply nextTarget_mono
  · rw [UInt32.toNat_sub_of_le _ _ (UInt32.le_of_lt hpos)]
    omega
  · rw [UInt32.toNat_sub_of_le _ _ (UInt32.le_of_lt hpos),
      UInt32.toNat_sub_of_le _ _ (UInt32.le_of_lt hlt₂)]
    omega

/-- The retarget past the first window: on every chain whose window has its blocks, the
difficulty decodes, without sign or overflow, to at most `max_difficulty_value`; and of two
chains that differ only in the time of the window's last block, with windows of positive
duration, the longer window never gives the smaller target. -/
theorem difficulty_function_in_range_and_mono (height : Height)
    (hheight : difficulty_adjustment_window < height) :
    (∀ chain : ChainAccess,
      (∀ i : Height, height - 1 - difficulty_adjustment_window ≤ i → i ≤ height - 1 →
        (chain.AtHeight i).isSome) →
      ∃ nBits target, difficulty_function height chain = some nBits ∧
        SetCompact nBits = (target, false, false) ∧ target ≤ max_difficulty_value) ∧
    (∀ (chain chain₂ : ChainAccess) (end_index start_index : CBlockIndex) (nTime : Time),
      (∀ i : Height, height - 1 - difficulty_adjustment_window ≤ i → i ≤ height - 1 →
        (chain.AtHeight i).isSome) →
      chain.AtHeight (height - 1) = some end_index →
      chain₂.AtHeight (height - 1) = some { end_index with nTime := nTime } →
      (∀ i, i ≠ height - 1 → chain₂.AtHeight i = chain.AtHeight i) →
      chain.AtHeight (height - 1 - difficulty_adjustment_window) = some start_index →
      start_index.nTime < end_index.nTime → end_index.nTime ≤ nTime →
      ∃ nBits nBits₂, difficulty_function height chain = some nBits ∧
        difficulty_function height chain₂ = some nBits₂ ∧
        (SetCompact nBits).1 ≤ (SetCompact nBits₂).1) :=
  ⟨fun _ hblocks => difficulty_function_le_max hheight hblocks,
    fun _ _ _ _ _ hblocks hend hend₂ hsame hstart hpos hlonger =>
      difficulty_function_mono hheight hblocks hend hend₂ hsame hstart hpos hlonger⟩

theorem difficulty_function_in_range_and_mono_atHeight200 :
    difficulty_adjustment_window < 200 ∧
    (∀ chain : ChainAccess,
      (∀ i : Height, 200 - 1 - difficulty_adjustment_window ≤ i → i ≤ 200 - 1 →
        (chain.AtHeight i).isSome) →
      ∃ nBits target, difficulty_function 200 chain = some nBits ∧
        SetCompact nBits = (target, false, false) ∧ target ≤ max_difficulty_value) ∧
    (∀ (chain chain₂ : ChainAccess) (end_index start_index : CBlockIndex) (nTime : Time),
      (∀ i : Height, 200 - 1 - difficulty_adjustment_window ≤ i → i ≤ 200 - 1 →
        (chain.AtHeight i).isSome) →
      chain.AtHeight (200 - 1) = some end_index →
      chain₂.AtHeight (200 - 1) = some { end_index with nTime := nTime } →
      (∀ i, i ≠ 200 - 1 → chain₂.AtHeight i = chain.AtHeight i) →
      chain.AtHeight (200 - 1 - difficulty_adjustment_window) = some start_index →
      start_index.nTime < end_index.nTime → end_index.nTime ≤ nTime →
      ∃ nBits nBits₂, difficulty_function 200 chain = some nBits ∧
        difficulty_function 200 chain₂ = some nBits₂ ∧
        (SetCompact nBits).1 ≤ (SetCompact nBits₂).1) :=
  ⟨by decide, difficulty_function_in_range_and_mono 200 (by decide)⟩

end Function

end Parameters

end UnitE
