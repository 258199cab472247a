import UnitE.Spec.Interpreter
import UnitE.Spec.Validate

/-! The transaction checks of finalizer votes and slashings (`esperanza/checks.cpp`): the
form of the transaction, the vote decoded from its signature script, the vote signature,
the finalization state's verdict, and for a vote the output it spends. A check fails with
the DoS score and the reject reason of the source. -/

namespace UnitE.Esperanza

open FinalizationState

/-- A failed check: the DoS score and the reject reason given to `CValidationState`. -/
structure Reject where
  dos : Nat
  reason : String
  deriving DecidableEq, Repr

variable (P : Primitives)

/-- `CScript::ExtractVoteFromVoteSignature`: the vote and its signature, decoded from the
data of the second operation; the first is the transaction signature. -/
def ExtractVoteFromVoteSignature (scriptSig : CScript) : Option (Vote × valtype) :=
  match scriptSig with
  | _ :: op :: _ => Script.DecodeVote op.data
  | _ => none

/-- `CScript::ExtractVotesFromSlashSignature`: two votes with their signatures, from the
data of the first two operations. -/
def ExtractVotesFromSlashSignature (scriptSig : CScript) :
    Option ((Vote × valtype) × (Vote × valtype)) :=
  match scriptSig with
  | op1 :: op2 :: _ => do
    let first ← Script.DecodeVote op1.data
    let second ← Script.DecodeVote op2.data
    pure (first, second)
  | _ => none

/-- `ExtractValidatorPubkey`: for a vote, the key of the commit script of its output. -/
def ExtractValidatorPubkey (tx : CTransaction) : Option valtype :=
  if tx.txType = .VOTE then
    match tx.vout with
    | txout :: _ => SolverCommit txout.scriptPubKey
    | [] => none
  else none

def CheckVoteSignature (pubkey : CPubKey) (vote : Vote) (voteSig : valtype) : Bool :=
  P.Verify pubkey (P.voteHash vote) voteSig

/-- `CheckVoteTx` for a vote transaction: one input and one output, a commit script as the
output, a vote in the signature script, signed by the key of that commit script. Returns
the vote and its signature. -/
def CheckVoteTx (tx : CTransaction) : Except Reject (Vote × valtype) :=
  match tx.vin, tx.vout with
  | [txin], [txout] =>
    if !IsFinalizerCommitScript txout.scriptPubKey then .error ⟨100, "bad-vote-vout-script"⟩
    else match ExtractVoteFromVoteSignature txin.scriptSig with
      | none => .error ⟨100, "bad-vote-data-format"⟩
      | some (vote, voteSig) =>
        match ExtractValidatorPubkey tx with
        | none => .error ⟨100, "bad-scriptpubkey-pubkey-format"⟩
        | some pubkey =>
          if !CheckVoteSignature P ⟨pubkey⟩ vote voteSig then .error ⟨100, "bad-vote-signature"⟩
          else .ok (vote, voteSig)
  | _, _ => .error ⟨100, "bad-vote-malformed"⟩

/-- `FindPrevOutData`: the type of the transaction and the script of the output that
`prevout` names, from the mempool first and then from the coins view. An output index past
a mempool transaction's outputs is undefined behaviour in the source; here it is not
found. -/
def FindPrevOutData (mempool : Uint256 → Option CTransaction) (view : COutPoint → Option Coin)
    (prevout : COutPoint) : Option (TxType × CScript) :=
  match mempool prevout.hash with
  | some prev_tx => (prev_tx.vout[prevout.n.toNat]?).map fun txout => (prev_tx.txType, txout.scriptPubKey)
  | none => (view prevout).map fun coin => (coin.tx_type, coin.out.scriptPubKey)

/-- `ContextualCheckVoteTx`: `CheckVoteTx`, `ValidateVote` on the state, and the spent output
is a commit output of a deposit, vote or logout with the same script as the new output. -/
def ContextualCheckVoteTx (tx : CTransaction) (fin_state : FinalizationState)
    (mempool : Uint256 → Option CTransaction) (view : COutPoint → Option Coin) :
    Except Reject Unit := do
  let (vote, _) ← CheckVoteTx P tx
  match fin_state.ValidateVote vote with
  | .SUCCESS => pure ()
  | .VOTE_NOT_BY_VALIDATOR => throw ⟨100, "bad-vote-not-from-validator"⟩
  | _ => throw ⟨0, "bad-vote-invalid"⟩
  match tx.vin.head?.bind fun txin => FindPrevOutData mempool view txin.prevout with
  | none => throw ⟨0, "bad-vote-no-prev-tx-found"⟩
  | some (prev_tx_type, prev_out_script) =>
    if prev_tx_type ≠ .DEPOSIT ∧ prev_tx_type ≠ .VOTE ∧ prev_tx_type ≠ .LOGOUT then
      throw ⟨100, "bad-vote-prev-not-deposit-vote-or-logout"⟩
    if some prev_out_script ≠ tx.vout.head?.map CTxOut.scriptPubKey then
      throw ⟨100, "bad-vote-not-same-finalizercommit-script"⟩

/-- `CheckSlashTx`: one input and one output, and two votes in the signature script. -/
def CheckSlashTx (tx : CTransaction) : Except Reject (Vote × Vote) :=
  match tx.vin, tx.vout with
  | [txin], [_] =>
    match ExtractVotesFromSlashSignature txin.scriptSig with
    | none => .error ⟨100, "bad-slash-data-format"⟩
    | some ((vote1, _), (vote2, _)) => .ok (vote1, vote2)
  | _, _ => .error ⟨100, "bad-slash-malformed"⟩

/-- `ContextualCheckSlashTx`: `CheckSlashTx` and `IsSlashable` on the state. -/
def ContextualCheckSlashTx (tx : CTransaction) (fin_state : FinalizationState) :
    Except Reject Unit := do
  let (vote1, vote2) ← CheckSlashTx tx
  match fin_state.IsSlashable vote1 vote2 with
  | .SUCCESS => pure ()
  | .SLASH_TOO_EARLY | .SLASH_ALREADY_SLASHED => throw ⟨0, "bad-slash-not-slashable"⟩
  | _ => throw ⟨100, "bad-slash-not-slashable"⟩

end UnitE.Esperanza
