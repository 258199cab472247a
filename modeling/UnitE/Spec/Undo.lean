import UnitE.Spec.Block
import UnitE.Spec.Checks
import UnitE.Spec.Coins

/-! The UTXO part of connecting and disconnecting a block (`validation.cpp`,
`consensus/tx_verify.cpp`, `coins.cpp`). `ConnectBlock` adds the outputs of every
transaction first, so that a transaction may spend an output placed after it, then checks
and spends the inputs of each transaction in order and records the spent coins as undo
data. `DisconnectBlock` puts the spent coins back from the undo data and then spends the
outputs the block created. Scripts, sequence locks, sigop costs and the block reward,
which `ConnectBlock` checks in between, are not modelled. -/

namespace UnitE

open Esperanza (Reject)

def MAX_MONEY : CAmount := 2718275100 * UNIT

def MoneyRange (nValue : CAmount) : Bool := 0 ≤ nValue && nValue ≤ MAX_MONEY

def COINBASE_MATURITY : UInt32 := 100

def MAX_BLOCK_WEIGHT : Nat := 4000000

def WITNESS_SCALE_FACTOR : Nat := 4

/-- `MIN_TRANSACTION_OUTPUT_WEIGHT`: a serialized null `CTxOut` takes 9 bytes, the 8 of its
value and the length byte of its empty script. -/
def MIN_TRANSACTION_OUTPUT_WEIGHT : Nat := WITNESS_SCALE_FACTOR * 9

def MAX_OUTPUTS_PER_BLOCK : Nat := MAX_BLOCK_WEIGHT / MIN_TRANSACTION_OUTPUT_WEIGHT

def Coin.IsCoinBase (coin : Coin) : Bool := coin.tx_type == .COINBASE

/-- `Coin::IsImmatureCoinBaseReward`: only the first output of a coinbase above height
`COINBASE_MATURITY` matures, `COINBASE_MATURITY` blocks after it; `uint32_t` arithmetic. -/
def Coin.IsImmatureCoinBaseReward (coin : Coin) (prevout_index spend_height : UInt32) : Bool :=
  if !coin.IsCoinBase || prevout_index > 0 then false
  else if coin.nHeight ≤ COINBASE_MATURITY then false
  else spend_height - coin.nHeight < COINBASE_MATURITY

/-- `CTransaction::GetValueOut`. Its exception on a value out of range is not modelled:
`CheckTransaction`, which `CheckBlock` runs before `ConnectBlock`, rejects such a
transaction. -/
def CTransaction.GetValueOut (tx : CTransaction) : CAmount := (tx.vout.map CTxOut.nValue).sum

/-- The inputs a transaction spends: all but the meta input of a coinbase. -/
def CTransaction.spentInputs (tx : CTransaction) : List CTxIn :=
  if tx.IsCoinBase then tx.vin.drop 1 else tx.vin

/-- `CTxUndo`: the coins the spent inputs took, in order. -/
abbrev CTxUndo := List Coin

/-- `CBlockUndo`: one `CTxUndo` per transaction. -/
abbrev CBlockUndo := List CTxUndo

inductive DisconnectResult
  | DISCONNECT_OK
  | DISCONNECT_UNCLEAN
  | DISCONNECT_FAILED
  deriving DecidableEq, Repr

namespace CCoinsViewCache

variable {G : Type} [AddCommGroup G] (M : MultisetHash G) (H : BlockHashes)

/-- `AddCoins`: every output at the transaction's id, announcing an overwrite when `check`
finds a coin there, and without `check` for a coinbase. -/
def AddCoins (v : CCoinsViewCache G) (tx : CTransaction) (nHeight : UInt32) (check : Bool) :
    Fallible (CCoinsViewCache G) :=
  let txid := H.GetHash tx
  tx.vout.zipIdx.foldlM (fun v (out, i) =>
    let outpoint : COutPoint := ⟨txid, i.toUInt32⟩
    let (overwrite, v) := if check then v.HaveCoin outpoint else (tx.IsCoinBase, v)
    v.AddCoin M outpoint ⟨out, tx.txType, nHeight⟩ overwrite) v

/-- The loop of `HaveInputs`: the first input without an unspent coin ends it. -/
def haveInputs : CCoinsViewCache G → List CTxIn → Bool × CCoinsViewCache G
  | v, [] => (true, v)
  | v, txin :: rest =>
    let (found, v) := v.HaveCoin txin.prevout
    if found then haveInputs v rest else (false, v)

/-- `HaveInputs`: every spent input has an unspent coin. -/
def HaveInputs (v : CCoinsViewCache G) (tx : CTransaction) : Bool × CCoinsViewCache G :=
  haveInputs v tx.spentInputs

/-- The loop of `CheckTxInputs` over the spent inputs: each coin is unspent (`assert`),
mature and in range, and so is the running sum. -/
def sumInputs (nSpendHeight : UInt32) :
    CCoinsViewCache G → CAmount → List CTxIn → Fallible (Except Reject CAmount × CCoinsViewCache G)
  | v, nValueIn, [] => pure (.ok nValueIn, v)
  | v, nValueIn, txin :: rest => do
    let (coin, v) := v.AccessCoin txin.prevout
    if coin.IsSpent then throw .assertion
    if coin.IsImmatureCoinBaseReward txin.prevout.n nSpendHeight then
      return (.error ⟨0, "bad-txns-premature-spend-of-coinbase-reward"⟩, v)
    let nValueIn := nValueIn + coin.out.nValue
    if !MoneyRange coin.out.nValue || !MoneyRange nValueIn then
      return (.error ⟨100, "bad-txns-inputvalues-outofrange"⟩, v)
    sumInputs nSpendHeight v nValueIn rest

/-- `Consensus::CheckTxInputs` at height `nSpendHeight`: the fee and the input value, or
the reason to reject. At height 0 it accepts at once. -/
def CheckTxInputs (v : CCoinsViewCache G) (tx : CTransaction) (nSpendHeight : UInt32) :
    Fallible (Except Reject (CAmount × CAmount) × CCoinsViewCache G) := do
  if nSpendHeight = 0 then return (.ok (0, 0), v)
  let (found, v) := v.HaveInputs tx
  if !found then return (.error ⟨100, "bad-txns-inputs-missingorspent"⟩, v)
  let (nValueIn, v) ← sumInputs nSpendHeight v 0 tx.spentInputs
  match nValueIn with
  | .error r => return (.error r, v)
  | .ok nValueIn =>
    let value_out := tx.GetValueOut
    if !tx.IsCoinBase && nValueIn < value_out then
      return (.error ⟨100, "bad-txns-in-belowout"⟩, v)
    let txfee_aux := nValueIn - value_out
    if !tx.IsCoinBase && !MoneyRange txfee_aux then
      return (.error ⟨100, "bad-txns-fee-outofrange"⟩, v)
    return (.ok (txfee_aux, nValueIn), v)

/-- `MarkCoinAsSpent`: the coins of the spent inputs, in order, are the transaction's undo
data; every one must be found (`assert(is_spent)`). -/
def MarkCoinAsSpent (tx : CTransaction) (v : CCoinsViewCache G) :
    Fallible (CTxUndo × CCoinsViewCache G) :=
  tx.spentInputs.foldlM (fun (txundo, v) txin =>
    match v.SpendCoin M txin.prevout with
    | (none, _) => throw .assertion
    | (some coin, v) => pure (txundo ++ [coin], v)) ([], v)

/-- The second loop of `ConnectBlock`: each transaction's inputs are checked, then spent. -/
def spendBlockInputs (nHeight : UInt32) :
    CCoinsViewCache G → List CTransaction → Fallible (Except Reject (CBlockUndo × CCoinsViewCache G))
  | v, [] => pure (.ok ([], v))
  | v, tx :: txs => do
    let (checked, v) ← v.CheckTxInputs tx nHeight
    match checked with
    | .error r => pure (.error r)
    | .ok _ =>
      let (txundo, v) ← MarkCoinAsSpent M tx v
      let rest ← spendBlockInputs nHeight v txs
      pure (rest.map fun (blockundo, v) => (txundo :: blockundo, v))

/-- The UTXO part of `ConnectBlock` for a block at `nHeight`: the outputs of all
transactions, then the inputs of each. -/
def ConnectBlockCoins (v : CCoinsViewCache G) (block : CBlock) (nHeight : UInt32) :
    Fallible (Except Reject (CBlockUndo × CCoinsViewCache G)) := do
  let v ← block.vtx.foldlM (fun v tx => v.AddCoins M H tx nHeight false) v
  spendBlockInputs M nHeight v block.vtx

/-- The loop of `AccessByTxid`: the first unspent output of `txid` at the given indices. -/
def accessFirstUnspent (txid : Uint256) : CCoinsViewCache G → List Nat → Coin × CCoinsViewCache G
  | v, [] => (Coin.empty, v)
  | v, n :: ns =>
    let (alternate, v) := v.AccessCoin ⟨txid, n.toUInt32⟩
    if !alternate.IsSpent then (alternate, v) else accessFirstUnspent txid v ns

/-- `AccessByTxid`: an unspent output of the transaction among the first
`MAX_OUTPUTS_PER_BLOCK`, or a spent coin. -/
def AccessByTxid (v : CCoinsViewCache G) (txid : Uint256) : Coin × CCoinsViewCache G :=
  accessFirstUnspent txid v (List.range MAX_OUTPUTS_PER_BLOCK)

/-- `ApplyTxInUndo`: the spent coin goes back, with an overwrite announced, and an unclean
result, when a coin is there. Undo data of height 0 takes the height and type of an unspent
output of the same transaction, and fails without one. -/
def ApplyTxInUndo (undo : Coin) (v : CCoinsViewCache G) (out : COutPoint) :
    Fallible (DisconnectResult × CCoinsViewCache G) := do
  let (found, v) := v.HaveCoin out
  let fClean := !found
  let (undo, v) : Option Coin × CCoinsViewCache G :=
    if undo.nHeight = 0 then
      let (alternate, v) := v.AccessByTxid out.hash
      if !alternate.IsSpent then
        (some { undo with nHeight := alternate.nHeight, tx_type := alternate.tx_type }, v)
      else (none, v)
    else (some undo, v)
  match undo with
  | none => pure (.DISCONNECT_FAILED, v)
  | some undo =>
    let v ← v.AddCoin M out undo !fClean
    pure (if fClean then .DISCONNECT_OK else .DISCONNECT_UNCLEAN, v)

/-- The inputs of one transaction get their coins back; `none` when one fails. -/
def restoreTxInputs : Bool → CCoinsViewCache G → List (CTxIn × Coin) →
    Fallible (Option Bool × CCoinsViewCache G)
  | fClean, v, [] => pure (some fClean, v)
  | fClean, v, (txin, undo) :: rest => do
    let (res, v) ← ApplyTxInUndo M undo v txin.prevout
    if res = .DISCONNECT_FAILED then return (none, v)
    restoreTxInputs (fClean && res != .DISCONNECT_UNCLEAN) v rest

/-- The first loop of `DisconnectBlock`, over the transactions with their undo data; a
transaction whose undo data does not match its spent inputs fails it. -/
def restoreInputs : Bool → CCoinsViewCache G → List (CTransaction × CTxUndo) →
    Fallible (Option Bool × CCoinsViewCache G)
  | fClean, v, [] => pure (some fClean, v)
  | fClean, v, (tx, txundo) :: rest => do
    if txundo.length + (if tx.IsCoinBase then 1 else 0) ≠ tx.vin.length then return (none, v)
    let (fClean, v) ← restoreTxInputs M fClean v (tx.spentInputs.zip txundo)
    match fClean with
    | none => pure (none, v)
    | some fClean => restoreInputs fClean v rest

/-- The second loop of `DisconnectBlock`: every spendable output of the block is spent, and
must be the coin the block created at its height. -/
def revertOutputs (nHeight : UInt32) : Bool → CCoinsViewCache G → List CTransaction →
    Bool × CCoinsViewCache G
  | fClean, v, [] => (fClean, v)
  | fClean, v, tx :: txs =>
    let txid := H.GetHash tx
    let (fClean, v) := tx.vout.zipIdx.foldl (fun (fClean, v) (out, o) =>
      if IsUnspendable out.scriptPubKey then (fClean, v)
      else
        let (coin, v) := v.SpendCoin M ⟨txid, o.toUInt32⟩
        let isCreated := match coin with
          | some coin => out == coin.out && nHeight == coin.nHeight && tx.txType == coin.tx_type
          | none => false
        (fClean && isCreated, v)) (fClean, v)
    revertOutputs nHeight fClean v txs

/-- `DisconnectBlock` for the block at `nHeight` whose parent is `hashPrev`, with the undo
data it was connected with. Reading the undo data from disk is not modelled. -/
def DisconnectBlock (v : CCoinsViewCache G) (block : CBlock) (blockUndo : CBlockUndo)
    (nHeight : UInt32) (hashPrev : Uint256) : Fallible (DisconnectResult × CCoinsViewCache G) := do
  if blockUndo.length ≠ block.vtx.length then return (.DISCONNECT_FAILED, v)
  let (fClean, v) ← restoreInputs M true v (block.vtx.zip blockUndo)
  match fClean with
  | none => pure (.DISCONNECT_FAILED, v)
  | some fClean =>
    let (fClean, v) := revertOutputs M H nHeight fClean v block.vtx
    pure (if fClean then .DISCONNECT_OK else .DISCONNECT_UNCLEAN, { v with hashBlock := hashPrev })

section Lemmas

/-- `AddCoins` of a coinbase whose outputs are not null succeeds and leaves every outpoint of
another transaction alone. -/
theorem AddCoins_of_coinbase {v : CCoinsViewCache G} {tx : CTransaction}
    (hcoinbase : tx.IsCoinBase = true) (hvalues : ∀ out ∈ tx.vout, out.IsNull = false)
    (nHeight : UInt32) :
    ∃ w, v.AddCoins M H tx nHeight false = .ok w ∧ CoinsFrame (·.hash ≠ H.GetHash tx) v w := by
  unfold AddCoins
  apply Except.foldlM_invariant (fun w => CoinsFrame (·.hash ≠ H.GetHash tx) v w) _ _ v CoinsFrame.refl
  rintro w hw ⟨out, i⟩ hmem
  obtain ⟨-, -, hout⟩ := List.mem_zipIdx hmem
  have hnull : out.IsNull = false := hvalues out (by rw [hout]; exact List.getElem_mem _)
  have hadd : ∃ w', w.AddCoin M ⟨H.GetHash tx, i.toUInt32⟩ ⟨out, tx.txType, nHeight⟩ true = .ok w' :=
    AddCoin_ok_of_overwrite M hnull
  obtain ⟨w', hw'⟩ := hadd
  refine ⟨w', by simpa [hcoinbase] using hw', ?_⟩
  exact hw.trans ((AddCoin_coinsFrame M hw').mono fun o ho => by rintro rfl; exact ho rfl)

omit [AddCommGroup G] in
theorem haveInputs_spec : ∀ (l : List CTxIn) (v : CCoinsViewCache G),
    (haveInputs v l).1 = l.all (fun txin => (v.coins txin.prevout).isSome) ∧
      CoinsFrame (fun _ => True) v (haveInputs v l).2
  | [], _ => ⟨rfl, CoinsFrame.refl⟩
  | txin :: rest, v => by
    rcases hhave : v.HaveCoin txin.prevout with ⟨found, w⟩
    have hfound : found = (v.coins txin.prevout).isSome := by rw [← HaveCoin_fst, hhave]
    have hw : CoinsFrame (fun _ => True) v w := by
      have hframe : CoinsFrame (fun _ => True) v (v.FetchCoin txin.prevout).2 := FetchCoin_coinsFrame _
      rwa [← HaveCoin_snd, hhave] at hframe
    obtain ⟨hrest, hframe⟩ := haveInputs_spec rest w
    have hcoins : ∀ txin' : CTxIn, (w.coins txin'.prevout).isSome = (v.coins txin'.prevout).isSome :=
      fun txin' => by rw [hw.coins _ trivial]
    cases found with
    | true =>
      simp only [haveInputs, hhave, if_true, List.all_cons, ← hfound, Bool.true_and]
      exact ⟨hrest.trans (List.all_congr rfl hcoins), hw.trans hframe⟩
    | false =>
      simp only [haveInputs, hhave, Bool.false_eq_true, if_false, List.all_cons, ← hfound, Bool.false_and]
      exact ⟨trivial, hw⟩

omit [AddCommGroup G] in
theorem accessFirstUnspent_of_none (txid : Uint256) : ∀ (ns : List Nat) (v : CCoinsViewCache G),
    (∀ n ∈ ns, v.coins ⟨txid, n.toUInt32⟩ = none) →
      (accessFirstUnspent txid v ns).1.IsSpent = true ∧
        CoinsFrame (fun _ => True) v (accessFirstUnspent txid v ns).2
  | [], _, _ => ⟨Coin.empty_IsSpent, CoinsFrame.refl⟩
  | n :: ns, v, hnone => by
    rcases hacc : v.AccessCoin ⟨txid, n.toUInt32⟩ with ⟨alternate, w⟩
    have hspent : alternate.IsSpent = true := by
      rw [← AccessCoin_IsSpent (hnone n List.mem_cons_self), hacc]
    have hw : CoinsFrame (fun _ => True) v w := by
      have hframe : CoinsFrame (fun _ => True) v (v.FetchCoin ⟨txid, n.toUInt32⟩).2 :=
        FetchCoin_coinsFrame _
      rwa [← AccessCoin_snd, hacc] at hframe
    obtain ⟨hrest, hframe⟩ := accessFirstUnspent_of_none txid ns w
      (fun m hm => (hw.coins _ trivial).trans (hnone m (List.mem_cons_of_mem n hm)))
    simp only [accessFirstUnspent, hacc, hspent, Bool.not_true, Bool.false_eq_true, if_false]
    exact ⟨hrest, hw.trans hframe⟩

omit [AddCommGroup G] in
/-- `CheckTxInputs` of a coinbase spending one mature coin in range accepts it, reading
through the cache only. -/
theorem CheckTxInputs_of_coinbase {v : CCoinsViewCache G} {tx : CTransaction} {txin : CTxIn} {coin : Coin}
    {nSpendHeight : UInt32} (hcoinbase : tx.IsCoinBase = true) (hinputs : tx.spentInputs = [txin])
    (hcoin : v.coins txin.prevout = some coin)
    (hmature : coin.IsImmatureCoinBaseReward txin.prevout.n nSpendHeight = false)
    (hmoney : MoneyRange coin.out.nValue = true) (hheight : nSpendHeight ≠ 0) :
    ∃ w, v.CheckTxInputs tx nSpendHeight =
        .ok (.ok (coin.out.nValue - tx.GetValueOut, coin.out.nValue), w) ∧
      CoinsFrame (fun _ => True) v w := by
  obtain ⟨hfound, hframe⟩ := haveInputs_spec [txin] v
  rcases hhave : haveInputs v [txin] with ⟨found, w⟩
  rw [hhave] at hfound hframe
  have hfound' : found = true := by simpa [hcoin] using hfound
  have haccess : (w.AccessCoin txin.prevout).1 = coin := AccessCoin_of_coins ((hframe.coins _ trivial).trans hcoin)
  have hw' : CoinsFrame (fun _ => True) w (w.AccessCoin txin.prevout).2 := by
    rw [AccessCoin_snd]; exact FetchCoin_coinsFrame _
  refine ⟨(w.AccessCoin txin.prevout).2, ?_, hframe.trans hw'⟩
  rcases hacc : w.AccessCoin txin.prevout with ⟨c, w'⟩
  rw [hacc] at haccess
  subst haccess
  simp [CheckTxInputs, hheight, HaveInputs, hinputs, hhave, hfound', sumInputs, hacc,
    IsSpent_of_coins hcoin, hmature, hmoney, hcoinbase]

/-- `MarkCoinAsSpent` of a transaction spending one coin the view shows: that coin is the
undo data and no coin is left there. -/
theorem MarkCoinAsSpent_of_single {v : CCoinsViewCache G} {tx : CTransaction} {txin : CTxIn} {coin : Coin}
    (hinputs : tx.spentInputs = [txin]) (hcoin : v.coins txin.prevout = some coin)
    (hfresh : v.FreshOk txin.prevout) :
    ∃ w, MarkCoinAsSpent M tx v = .ok ([coin], w) ∧ w.coins txin.prevout = none ∧
      CoinsFrame (· ≠ txin.prevout) v w := by
  obtain ⟨hspent, hnone, -⟩ := SpendCoin_of_coins M hcoin hfresh
  refine ⟨(v.SpendCoin M txin.prevout).2, ?_, hnone, SpendCoin_coinsFrame M⟩
  rcases hspend : v.SpendCoin M txin.prevout with ⟨c, w⟩
  rw [hspend] at hspent
  subst hspent
  simp [MarkCoinAsSpent, hinputs, hspend]

/-- `ApplyTxInUndo` of undo data of height 0, when no output of its transaction is unspent,
fails. -/
theorem ApplyTxInUndo_of_orphan {v : CCoinsViewCache G} {undo : Coin} {out : COutPoint}
    (hheight : undo.nHeight = 0) (hnone : ∀ n : UInt32, v.coins ⟨out.hash, n⟩ = none) :
    ∃ w, ApplyTxInUndo M undo v out = .ok (.DISCONNECT_FAILED, w) := by
  rcases hhave : v.HaveCoin out with ⟨found, w⟩
  have hw : CoinsFrame (fun _ => True) v w := by
    have hframe : CoinsFrame (fun _ => True) v (v.FetchCoin out).2 := FetchCoin_coinsFrame _
    rwa [← HaveCoin_snd, hhave] at hframe
  obtain ⟨halternate, -⟩ := accessFirstUnspent_of_none out.hash (List.range MAX_OUTPUTS_PER_BLOCK) w
    (fun n _ => (hw.coins _ trivial).trans (hnone _))
  rcases haccess : w.AccessByTxid out.hash with ⟨alternate, w'⟩
  rw [← AccessByTxid, haccess] at halternate
  exact ⟨w', by simp [ApplyTxInUndo, hhave, hheight, haccess, halternate]⟩

end Lemmas

end CCoinsViewCache

end UnitE
