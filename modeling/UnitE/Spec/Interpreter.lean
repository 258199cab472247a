import UnitE.Spec.Script
import UnitE.Spec.Transaction

/-! `EvalScript` and `VerifyScript` on the operations of `UnitE.Spec.Transaction`, with the
`OP_CHECKCOMMIT` branches for votes, logouts and slashings, and the finalizer commit
script. A vote is read from the stack by `CScript::DecodeVote` (`UnitE.Spec.Script`); the
cryptography is a parameter (`Primitives`). -/

namespace UnitE

open Esperanza

/-- The cryptography the scripts rely on, which this model leaves open: `Hash160` as
`CPubKey::GetID` computes it, `Vote::GetHash` and `CPubKey::Verify`. -/
structure Primitives where
  hash160 : valtype → Uint160
  voteHash : Vote → Uint256
  Verify : CPubKey → Uint256 → valtype → Bool

/-- What the interpreter asks of the transaction it checks (`BaseSignatureChecker`): its
type, and whether a signature and public key sign it. `CheckSig` includes the encoding
checks of both. -/
structure SignatureChecker where
  GetTxType : TxType
  CheckSig : valtype → valtype → Bool

/-- `ScriptError`, for the errors the modelled operations raise. -/
inductive ScriptError
  | UNKNOWN_ERROR
  | EVAL_FALSE
  | UNBALANCED_CONDITIONAL
  | INVALID_STACK_OPERATION
  | EQUALVERIFY
  | CHECKSIGVERIFY
  | INVALID_VOTE_SCRIPT
  | INVALID_VOTE_SIG
  | INVALID_LOGOUT_SCRIPT
  | INVALID_SLASH_NOT_SAME_VALIDATOR
  | INVALID_SLASH_NOT_SLASHABLE
  | OP_RETURN
  deriving DecidableEq, Repr

/-- `CScriptNum(1).getvch()`. -/
def vchTrue : valtype := [1]

/-- `CScriptNum(0).getvch()`. -/
def vchFalse : valtype := []

/-- `CastToBool`: some byte is nonzero, other than a sign bit alone in the last byte. -/
def CastToBool : valtype → Bool
  | [] => false
  | [b] => b != 0 && b != 0x80
  | b :: rest => b != 0 || CastToBool rest

variable (P : Primitives) (checker : SignatureChecker)

/-- `CScript::CreateFinalizerCommitScript`: the finalizer may spend with a commit
transaction checked by `OP_CHECKCOMMIT`, or with a plain signature of its key. -/
def CreateFinalizerCommitScript (pubkey : CPubKey) : CScript :=
  [.push pubkey.vch, .OP_CHECKCOMMIT, .OP_IF, .OP_TRUE, .OP_ELSE,
   .OP_DUP, .OP_HASH160, .push (Uint160.toBytes (pubkey.GetID P.hash160)), .OP_EQUALVERIFY,
   .OP_CHECKSIG, .OP_ENDIF]

/-- `CScript::IsFinalizerCommitScript`: the shape of a finalizer commit script, with a
33-byte key and a 20-byte key hash, which need not be the hash of the key. -/
def IsFinalizerCommitScript : CScript → Bool
  | [.push pk, .OP_CHECKCOMMIT, .OP_IF, .OP_TRUE, .OP_ELSE,
     .OP_DUP, .OP_HASH160, .push h, .OP_EQUALVERIFY, .OP_CHECKSIG, .OP_ENDIF] =>
    pk.length == 33 && h.length == 20
  | _ => false

/-- `Solver` on a finalizer commit script: the solution `TX_COMMIT` with the key. The
modelled callers reach it only with commit scripts. -/
def SolverCommit (script : CScript) : Option valtype :=
  if IsFinalizerCommitScript script then
    match script with
    | .push pk :: _ => some pk
    | _ => none
  else none

/-- The slashing condition of the `SLASH` branch of `OP_CHECKCOMMIT`. -/
def isSlashableVotePair (vote1 vote2 : Vote) : Bool :=
  let isDoubleVote := vote1.targetEpoch == vote2.targetEpoch && vote1.targetHash != vote2.targetHash
  let isSurroundVote :=
    (decide (vote1.targetEpoch > vote2.targetEpoch) && decide (vote1.sourceEpoch < vote2.sourceEpoch)) ||
    (decide (vote2.targetEpoch > vote1.targetEpoch) && decide (vote2.sourceEpoch < vote1.sourceEpoch))
  isDoubleVote || isSurroundVote

/-- `OP_CHECKCOMMIT` on the stack, top first. A vote must be signed by the key on the
stack and the transaction by the same key; a slashing needs two different votes signed by
that key for one validator address; other transaction types replace the key by false. -/
def checkCommit (stack : List valtype) : Except ScriptError (List valtype) :=
  match checker.GetTxType with
  | .VOTE =>
    match stack with
    | [vchPubKey, vchVote, vchSig] =>
      match Script.DecodeVote vchVote with
      | none => .error .INVALID_VOTE_SCRIPT
      | some (vote, voteSig) =>
        if !P.Verify ⟨vchPubKey⟩ (P.voteHash vote) voteSig then .error .INVALID_VOTE_SIG
        else if !checker.CheckSig vchSig vchPubKey then .error .CHECKSIGVERIFY
        else .ok [vchTrue]
    | _ => .error .INVALID_VOTE_SCRIPT
  | .LOGOUT =>
    match stack with
    | [vchPubKey, vchSig] =>
      if checker.CheckSig vchSig vchPubKey then .ok [vchTrue] else .error .CHECKSIGVERIFY
    | _ => .error .INVALID_LOGOUT_SCRIPT
  | .SLASH =>
    match stack with
    | [vchPubKey, vchVote1, vchVote2] =>
      match Script.DecodeVote vchVote1, Script.DecodeVote vchVote2 with
      | some (vote1, voteSig1), some (vote2, voteSig2) =>
        if P.voteHash vote1 = P.voteHash vote2 then .error .INVALID_VOTE_SCRIPT
        else if !P.Verify ⟨vchPubKey⟩ (P.voteHash vote1) voteSig1 then .error .INVALID_VOTE_SIG
        else if !P.Verify ⟨vchPubKey⟩ (P.voteHash vote2) voteSig2 then .error .INVALID_VOTE_SIG
        else if vote1.validatorAddress ≠ vote2.validatorAddress then
          .error .INVALID_SLASH_NOT_SAME_VALIDATOR
        else if isSlashableVotePair vote1 vote2 then .ok [vchTrue]
        else .error .INVALID_SLASH_NOT_SLASHABLE
      | _, _ => .error .INVALID_VOTE_SCRIPT
    | _ => .error .INVALID_VOTE_SCRIPT
  | _ =>
    -- `popstack` on an empty stack throws, and `EvalScript` reports it as unknown
    match stack with
    | _ :: rest => .ok (vchFalse :: rest)
    | [] => .error .UNKNOWN_ERROR

/-- The stack (top first) and the condition stack (innermost first) of `EvalScript`. -/
structure ExecState where
  stack : List valtype
  vfExec : List Bool
  deriving DecidableEq, Repr

/-- One operation of `EvalScript`. Conditionals are always evaluated; other operations
only in an executed branch. -/
def execOp (st : ExecState) : ScriptOp → Except ScriptError ExecState
  | .OP_IF =>
    if st.vfExec.all id then
      match st.stack with
      | [] => .error .UNBALANCED_CONDITIONAL
      | vch :: rest => .ok ⟨rest, CastToBool vch :: st.vfExec⟩
    else .ok { st with vfExec := false :: st.vfExec }
  | .OP_ELSE =>
    match st.vfExec with
    | [] => .error .UNBALANCED_CONDITIONAL
    | b :: rest => .ok { st with vfExec := (!b) :: rest }
  | .OP_ENDIF =>
    match st.vfExec with
    | [] => .error .UNBALANCED_CONDITIONAL
    | _ :: rest => .ok { st with vfExec := rest }
  | op =>
    if !st.vfExec.all id then .ok st
    else match op, st.stack with
      | .push data, stack => .ok { st with stack := data :: stack }
      | .OP_TRUE, stack => .ok { st with stack := vchTrue :: stack }
      | .OP_DUP, vch :: rest => .ok { st with stack := vch :: vch :: rest }
      | .OP_HASH160, vch :: rest =>
        .ok { st with stack := Uint160.toBytes (P.hash160 vch) :: rest }
      | .OP_EQUALVERIFY, vch1 :: vch2 :: rest =>
        if vch1 = vch2 then .ok { st with stack := rest } else .error .EQUALVERIFY
      | .OP_CHECKSIG, vchPubKey :: vchSig :: rest =>
        .ok { st with stack := (if checker.CheckSig vchSig vchPubKey then vchTrue else vchFalse) :: rest }
      | .OP_RETURN, _ => .error .OP_RETURN
      | .OP_CHECKCOMMIT, stack => do
        let stack ← checkCommit P checker stack
        pure { st with stack := stack }
      | _, _ => .error .INVALID_STACK_OPERATION

/-- `EvalScript`: the operations in order, with every conditional closed at the end. -/
def EvalScript (stack : List valtype) (script : CScript) : Except ScriptError (List valtype) := do
  let st ← script.foldlM (execOp P checker) ⟨stack, []⟩
  if st.vfExec ≠ [] then throw .UNBALANCED_CONDITIONAL
  pure st.stack

/-- `VerifyScript` for a script that is neither pay-to-script-hash nor a witness program:
the signature script, then the output script on its stack, must leave a true top. -/
def VerifyScript (scriptSig scriptPubKey : CScript) : Except ScriptError Unit := do
  let stack ← EvalScript P checker [] scriptSig
  let stack ← EvalScript P checker stack scriptPubKey
  match stack with
  | [] => throw .EVAL_FALSE
  | top :: _ => if CastToBool top then pure () else throw .EVAL_FALSE

end UnitE
