import UnitE.Spec.Undo

/-! Disconnecting a block that spends the last unspent output of a transaction of height 0.
The genesis block's outputs have height 0 and are spendable, and undo data of height 0 is
read by `ApplyTxInUndo` as the old format without metadata: it looks for another unspent
output of the same transaction to copy the height from, finds none, and the disconnection
fails although the connection succeeded. -/

namespace UnitE.CCoinsViewCache

variable {G : Type} [AddCommGroup G] (M : MultisetHash G) (H : BlockHashes)

/-- A block of one coinbase, which besides its meta input spends a coin of height 0 that is
the only unspent output of its transaction (a proposer staking a genesis output): the UTXO
part of `ConnectBlock` succeeds, and `DisconnectBlock` with the undo data it recorded fails. -/
theorem genesis_stake_disconnect_fails (v : CCoinsViewCache G) (header : CBlockHeader)
    {coinbase : CTransaction} {metaInput txin : CTxIn} {coin : Coin}
    (hcoinbase : coinbase.IsCoinBase = true) (hvin : coinbase.vin = [metaInput, txin])
    (hvalues : ∀ out ∈ coinbase.vout, out.IsNull = false)
    (htxid : txin.prevout.hash ≠ H.GetHash coinbase)
    (hcoin : v.coins txin.prevout = some coin) (hheight : coin.nHeight = 0)
    (hmoney : MoneyRange coin.out.nValue = true) (hfresh : v.FreshOk txin.prevout)
    (hlast : ∀ n : UInt32, n ≠ txin.prevout.n → v.coins ⟨txin.prevout.hash, n⟩ = none)
    {nHeight : UInt32} (hblock : nHeight ≠ 0) (hashPrev : Uint256) :
    ∃ blockUndo w, v.ConnectBlockCoins M H ⟨header, [coinbase]⟩ nHeight = .ok (.ok (blockUndo, w)) ∧
      ∃ w', w.DisconnectBlock M H ⟨header, [coinbase]⟩ blockUndo nHeight hashPrev =
        .ok (.DISCONNECT_FAILED, w') := by
  have hinputs : coinbase.spentInputs = [txin] := by simp [CTransaction.spentInputs, hcoinbase, hvin]
  have hmature : coin.IsImmatureCoinBaseReward txin.prevout.n nHeight = false := by
    simp [Coin.IsImmatureCoinBaseReward, hheight]
  -- the outputs go in at the coinbase's id, away from the staked coin
  have hadd : ∃ v₁, v.AddCoins M H coinbase nHeight false = .ok v₁ ∧
      CoinsFrame (·.hash ≠ H.GetHash coinbase) v v₁ :=
    AddCoins_of_coinbase M H hcoinbase hvalues nHeight
  obtain ⟨v₁, hadd, hframe₁⟩ := hadd
  -- the inputs are checked and the staked coin is spent
  obtain ⟨v₂, hcheck, hframe₂⟩ := CheckTxInputs_of_coinbase hcoinbase hinputs
    ((hframe₁.coins _ htxid).trans hcoin) hmature hmoney hblock
  have hcoin₂ : v₂.coins txin.prevout = some coin :=
    ((hframe₂.coins _ trivial).trans (hframe₁.coins _ htxid)).trans hcoin
  have hfresh₂ : v₂.FreshOk txin.prevout := hframe₂.fresh _ trivial (hframe₁.fresh _ htxid hfresh)
  obtain ⟨v₃, hspend, hnone₃, hframe₃⟩ := MarkCoinAsSpent_of_single M hinputs hcoin₂ hfresh₂
  have hconnect : v.ConnectBlockCoins M H ⟨header, [coinbase]⟩ nHeight = .ok (.ok ([[coin]], v₃)) := by
    simp [ConnectBlockCoins, hadd, spendBlockInputs, hcheck, hspend, Except.map]
  refine ⟨[[coin]], v₃, hconnect, ?_⟩
  -- after the spend no output of the staked coin's transaction is unspent
  have horphan : ∀ n : UInt32, v₃.coins ⟨txin.prevout.hash, n⟩ = none := by
    intro n
    by_cases hn : n = txin.prevout.n
    · rw [← hnone₃, hn]
    · have hne : (⟨txin.prevout.hash, n⟩ : COutPoint) ≠ txin.prevout := fun h => hn (by rw [← h])
      rw [hframe₃.coins _ hne, hframe₂.coins _ trivial, hframe₁.coins ⟨txin.prevout.hash, n⟩ htxid,
        hlast n hn]
  obtain ⟨w', hundo⟩ := ApplyTxInUndo_of_orphan M hheight horphan
  exact ⟨w', by simp [DisconnectBlock, restoreInputs, hcoinbase, hvin, hinputs, restoreTxInputs, hundo]⟩

def countingHash : MultisetHash ℤ := ⟨fun _ => 1, fun _ _ => 0, fun _ => 0⟩

def stakeHashes : BlockHashes :=
  ⟨fun tx => if tx.txType = .COINBASE then 1 else 0, fun _ => 0, fun _ _ => 0⟩

def genesisCoin : Coin := ⟨⟨10 * UNIT, []⟩, .COINBASE, 0⟩

def genesisView : CCoinsViewCache ℤ :=
  ⟨fun o => if o = ⟨0, 0⟩ then some genesisCoin else none, ⟨1⟩, fun _ => none, ⟨1⟩, 0⟩

def stakeCoinbase : CTransaction :=
  ⟨.COINBASE, [⟨⟨0, 4294967295⟩, []⟩, ⟨⟨0, 0⟩, []⟩], [⟨10 * UNIT, []⟩]⟩

theorem genesis_stake_disconnect_fails_regTest :
    ∃ blockUndo w, genesisView.ConnectBlockCoins countingHash stakeHashes
        ⟨⟨0, 0, 0, 0⟩, [stakeCoinbase]⟩ 1 = .ok (.ok (blockUndo, w)) ∧
      ∃ w', w.DisconnectBlock countingHash stakeHashes ⟨⟨0, 0, 0, 0⟩, [stakeCoinbase]⟩ blockUndo 1 0 =
        .ok (.DISCONNECT_FAILED, w') :=
  @genesis_stake_disconnect_fails ℤ _ countingHash stakeHashes genesisView ⟨0, 0, 0, 0⟩ stakeCoinbase
    ⟨⟨0, 4294967295⟩, []⟩ ⟨⟨0, 0⟩, []⟩ genesisCoin rfl rfl (by decide) (by decide) (by decide) rfl
    (by decide) (fun _ h _ => by cases h) (fun n hn => by simp [coins_def, genesisView, hn]) 1
    (by decide) 0

end UnitE.CCoinsViewCache
