import UnitE.Spec.Checks
import UnitE.Lib.Except
import UnitE.Proofs.VoteScript

/-! What the checks of a vote or slashing bind it to. The vote signature is checked against
the key of the commit output the transaction spends and re-creates, and the finalization
state looks the finalizer up by the address written in the vote; no check relates the
address to the key. A finalizer's key therefore gets a vote, or a slashing, accepted for
another finalizer's address. -/

namespace UnitE.Esperanza

open FinalizationState

variable (P : Primitives) (checker : SignatureChecker)

section Interpreter

theorem foldlM_execOp_pushes (ds stack : List valtype) :
    (ds.map ScriptOp.push).foldlM (execOp P checker) ⟨stack, []⟩ = .ok ⟨ds.reverse ++ stack, []⟩ := by
  induction ds generalizing stack with
  | nil => rfl
  | cons d ds ih =>
    have step : execOp P checker ⟨stack, []⟩ (.push d) = .ok ⟨d :: stack, []⟩ := rfl
    simp only [List.map_cons, List.foldlM_cons, step, Except.ok_bind, ih, List.reverse_cons,
      List.append_assoc, List.singleton_append]

theorem EvalScript_pushes (ds stack : List valtype) :
    EvalScript P checker stack (ds.map ScriptOp.push) = .ok (ds.reverse ++ stack) := by
  simp [EvalScript, foldlM_execOp_pushes]

/-- The commit script succeeds when its `OP_CHECKCOMMIT` does: the true branch of its
`OP_IF` is taken and leaves true, and the key-hash branch is skipped. -/
theorem EvalScript_commitScript (pubkey : CPubKey) (stack : List valtype)
    (h : checkCommit P checker (pubkey.vch :: stack) = .ok [vchTrue]) :
    EvalScript P checker stack (CreateFinalizerCommitScript P pubkey) = .ok [vchTrue] := by
  simp [EvalScript, CreateFinalizerCommitScript, List.foldlM, execOp, h, CastToBool, vchTrue]

theorem IsFinalizerCommitScript_create (pubkey : CPubKey) (hpk : pubkey.vch.length = 33) :
    IsFinalizerCommitScript (CreateFinalizerCommitScript P pubkey) = true := by
  simp [IsFinalizerCommitScript, CreateFinalizerCommitScript, hpk, Uint160.toBytes]

theorem SolverCommit_create (pubkey : CPubKey) (hpk : pubkey.vch.length = 33) :
    SolverCommit (CreateFinalizerCommitScript P pubkey) = some pubkey.vch := by
  simp [SolverCommit, IsFinalizerCommitScript, CreateFinalizerCommitScript, hpk, Uint160.toBytes]

end Interpreter

/-! ### Concrete inputs

Primitives in which a signature is the signer's key bytes, a state in which the finalizer
at address 7 may vote on epoch 0, and the commit output of a different key. The vote script
is the one `CScript::EncodeVote` writes. -/

section Fixtures

def witnessPrimitives : Primitives where
  hash160 vch := BitVec.ofNat 160 (Bytes.ofListLE vch)
  voteHash vote := vote.targetHash
  Verify pubkey _ sig := sig == pubkey.vch

def witnessChecker : SignatureChecker where
  GetTxType := .VOTE
  CheckSig sig pubkey := sig == pubkey

def witnessParams : Finalization.Params where
  epoch_length := 5
  min_deposit_size := 1500
  dynasty_logout_delay := 2
  withdrawal_epoch_delay := 5
  slash_fraction_multiplier := 3
  base_interest_factor := 0
  base_penalty_factor := 0
  admin_params := ⟨none, []⟩

def witnessState : FinalizationState :=
  { FinalizationState.create witnessParams with
    validators := Finmap.singleton 7 (Validator.create 1000 0 7)
    currentEpoch := 1 }

def witnessKey : CPubKey := ⟨List.replicate 33 2⟩

def witnessVote : Vote := ⟨7, 0, 0, 0⟩

/-- The coins view holds the commit output of `witnessKey` at outpoint `(1, 0)`. -/
def witnessView (prevout : COutPoint) : Option Coin :=
  if prevout = ⟨1, 0⟩ then
    some ⟨⟨1500, CreateFinalizerCommitScript witnessPrimitives witnessKey⟩, .DEPOSIT, 1⟩
  else none

def witnessSlashChecker : SignatureChecker := { witnessChecker with GetTxType := .SLASH }

end Fixtures

section Attack

variable (pubkey : CPubKey) (prevout : COutPoint) (amount : CAmount)

/-- A vote transaction as `SendVote` builds it: it spends the commit output at `prevout`,
carries the transaction signature and the vote script, and re-creates the commit output of
`pubkey`. -/
def voteTx (voteScript txSig : valtype) : CTransaction where
  txType := .VOTE
  vin := [⟨prevout, [.push txSig, .push voteScript]⟩]
  vout := [⟨amount, CreateFinalizerCommitScript P pubkey⟩]

/-- A slashing transaction that spends the commit output at `prevout` with two vote scripts. -/
def slashTx (voteScript1 voteScript2 : valtype) : CTransaction where
  txType := .SLASH
  vin := [⟨prevout, [.push voteScript1, .push voteScript2]⟩]
  vout := [⟨amount, CreateFinalizerCommitScript P pubkey⟩]

variable {pubkey} {vote : Vote} {voteSig voteScript : valtype}
  (hdecode : Script.DecodeVote voteScript = some (vote, voteSig))
  (hverify : P.Verify pubkey (P.voteHash vote) voteSig = true)
include hdecode hverify

theorem CheckVoteTx_voteTx (hpk : pubkey.vch.length = 33) (txSig : valtype) :
    CheckVoteTx P (voteTx P pubkey prevout amount voteScript txSig) = .ok (vote, voteSig) := by
  simp [CheckVoteTx, voteTx, IsFinalizerCommitScript_create P pubkey hpk,
    ExtractVoteFromVoteSignature, ScriptOp.data, hdecode,
    ExtractValidatorPubkey, SolverCommit_create P pubkey hpk, CheckVoteSignature, hverify]

omit hdecode hverify in
theorem ExtractValidatorPubkey_voteTx (hpk : pubkey.vch.length = 33) (voteScript txSig : valtype) :
    ExtractValidatorPubkey (voteTx P pubkey prevout amount voteScript txSig) = some pubkey.vch := by
  simp [ExtractValidatorPubkey, voteTx, SolverCommit_create P pubkey hpk]

/-- The input script of `voteTx` passes against the commit output of the key that signed
the vote and the transaction, whatever address the vote carries. -/
theorem VerifyScript_voteTx (hvote : checker.GetTxType = .VOTE) {txSig : valtype}
    (htx : checker.CheckSig txSig pubkey.vch = true) :
    VerifyScript P checker [.push txSig, .push voteScript] (CreateFinalizerCommitScript P pubkey) =
      .ok () := by
  have hcommit : checkCommit P checker [pubkey.vch, voteScript, txSig] = .ok [vchTrue] := by
    simp [checkCommit, hvote, hdecode, hverify, htx]
  have hsigScript := EvalScript_pushes P checker [txSig, voteScript] []
  simp only [List.map_cons, List.map_nil, List.reverse_cons, List.reverse_nil, List.nil_append,
    List.cons_append, List.append_nil] at hsigScript
  simp [VerifyScript, hsigScript, EvalScript_commitScript P checker pubkey _ hcommit, CastToBool, vchTrue]

theorem ContextualCheckVoteTx_voteTx (hpk : pubkey.vch.length = 33) (fin_state : FinalizationState)
    (mempool : Uint256 → Option CTransaction) (view : COutPoint → Option Coin)
    (hprev : FindPrevOutData mempool view prevout = some (.DEPOSIT, CreateFinalizerCommitScript P pubkey))
    (hvalid : fin_state.ValidateVote vote = .SUCCESS) (txSig : valtype) :
    ContextualCheckVoteTx P (voteTx P pubkey prevout amount voteScript txSig) fin_state mempool view =
      .ok () := by
  rw [ContextualCheckVoteTx, CheckVoteTx_voteTx P prevout amount hdecode hverify hpk txSig]
  simp [hvalid, voteTx, hprev]

omit hdecode hverify in
/-- A finalizer's key gets a vote for another finalizer's address through every check of a
vote transaction: `ContextualCheckVoteTx` against a state in which that address may vote,
and script verification against the finalizer's own commit output, which the transaction
spends. The decoded vote then names an address that is not the `Hash160` of the key
`ExtractValidatorPubkey` returns. -/
theorem vote_for_other_finalizer_accepted (hpk : pubkey.vch.length = 33) (fin_state : FinalizationState)
    (mempool : Uint256 → Option CTransaction) (view : COutPoint → Option Coin)
    (hprev : FindPrevOutData mempool view prevout = some (.DEPOSIT, CreateFinalizerCommitScript P pubkey))
    (vote : Vote) (hvalid : fin_state.ValidateVote vote = .SUCCESS)
    (hother : vote.validatorAddress ≠ pubkey.GetID P.hash160) (voteSig txSig : valtype)
    (hsig : voteSig ≠ []) (hlen : voteSig.length < 2 ^ 31)
    (hverify : P.Verify pubkey (P.voteHash vote) voteSig = true)
    (hvote : checker.GetTxType = .VOTE) (htx : checker.CheckSig txSig pubkey.vch = true) :
    ∃ voteScript, Script.EncodeVote vote voteSig = .ok voteScript ∧
      ContextualCheckVoteTx P (voteTx P pubkey prevout amount voteScript txSig) fin_state mempool view =
        .ok () ∧
      VerifyScript P checker [.push txSig, .push voteScript] (CreateFinalizerCommitScript P pubkey) =
        .ok () ∧
      CheckVoteTx P (voteTx P pubkey prevout amount voteScript txSig) = .ok (vote, voteSig) ∧
      ExtractValidatorPubkey (voteTx P pubkey prevout amount voteScript txSig) = some pubkey.vch ∧
      vote.validatorAddress ≠ P.hash160 pubkey.vch := by
  -- the vote script is the one `EncodeVote` writes, and it decodes back
  have hencode : Script.EncodeVote vote voteSig = .ok _ := Script.EncodeVote_eq_ok hsig
  have hdecode := Script.DecodeVote_of_EncodeVote (by omega) hencode
  exact ⟨_, hencode,
    ContextualCheckVoteTx_voteTx P prevout amount hdecode hverify hpk fin_state mempool view hprev
      hvalid txSig,
    VerifyScript_voteTx P checker hdecode hverify hvote htx,
    CheckVoteTx_voteTx P prevout amount hdecode hverify hpk txSig,
    ExtractValidatorPubkey_voteTx P prevout amount hpk _ txSig,
    hother⟩

end Attack

theorem vote_for_other_finalizer_accepted_witness :
    witnessState.ValidateVote witnessVote = .SUCCESS ∧
    witnessVote.validatorAddress ≠ witnessKey.GetID witnessPrimitives.hash160 ∧
    ∃ voteScript, Script.EncodeVote witnessVote witnessKey.vch = .ok voteScript ∧
      ContextualCheckVoteTx witnessPrimitives
          (voteTx witnessPrimitives witnessKey ⟨1, 0⟩ 1500 voteScript witnessKey.vch)
          witnessState (fun _ => none) witnessView = .ok () ∧
        VerifyScript witnessPrimitives witnessChecker [.push witnessKey.vch, .push voteScript]
          (CreateFinalizerCommitScript witnessPrimitives witnessKey) = .ok () ∧
        CheckVoteTx witnessPrimitives
          (voteTx witnessPrimitives witnessKey ⟨1, 0⟩ 1500 voteScript witnessKey.vch) =
          .ok (witnessVote, witnessKey.vch) ∧
        ExtractValidatorPubkey
          (voteTx witnessPrimitives witnessKey ⟨1, 0⟩ 1500 voteScript witnessKey.vch) =
          some witnessKey.vch ∧
        witnessVote.validatorAddress ≠ witnessPrimitives.hash160 witnessKey.vch :=
  ⟨by decide, by decide,
    vote_for_other_finalizer_accepted witnessPrimitives witnessChecker ⟨1, 0⟩ 1500 (by decide)
      witnessState (fun _ => none) witnessView rfl witnessVote (by decide) (by decide)
      witnessKey.vch witnessKey.vch (by decide) (by decide) (by decide) rfl (by decide)⟩

section Binding

end Binding

/-- The slashing condition of the interpreter follows from the state's: `IsSlashable` rejects
equal target hashes before it tests for a double or surround vote. -/
theorem isSlashableVotePair_of_IsSlashable {s : FinalizationState} {vote1 vote2 : Vote}
    (h : s.IsSlashable vote1 vote2 = .SUCCESS) : isSlashableVotePair vote2 vote1 = true := by
  simp only [IsSlashable] at h
  split at h
  · cases h
  · split at h
    · cases h
    · split_ifs at h with h1 h2 h3 h4 h5
      simp only [isSlashableVotePair, Bool.or_eq_true, Bool.and_eq_true, beq_iff_eq, bne_iff_ne,
        ne_eq, decide_eq_true_eq]
      grind

section Attack

variable {pubkey : CPubKey} (prevout : COutPoint) (amount : CAmount) {vote1 vote2 : Vote}
  {voteSig1 voteSig2 voteScript1 voteScript2 : valtype}
  (hdecode1 : Script.DecodeVote voteScript1 = some (vote1, voteSig1))
  (hdecode2 : Script.DecodeVote voteScript2 = some (vote2, voteSig2))
include hdecode1 hdecode2

theorem CheckSlashTx_slashTx :
    CheckSlashTx (slashTx P pubkey prevout amount voteScript1 voteScript2) = .ok (vote1, vote2) := by
  simp [CheckSlashTx, slashTx, ExtractVotesFromSlashSignature, ScriptOp.data, hdecode1, hdecode2]

/-- The input script of `slashTx` passes against the commit output of the key that signed
both votes; the second vote is on top of the stack, so `OP_CHECKCOMMIT` reads it first. -/
theorem VerifyScript_slashTx (hslash : checker.GetTxType = .SLASH)
    (hhash : P.voteHash vote2 ≠ P.voteHash vote1)
    (hverify1 : P.Verify pubkey (P.voteHash vote1) voteSig1 = true)
    (hverify2 : P.Verify pubkey (P.voteHash vote2) voteSig2 = true)
    (haddr : vote1.validatorAddress = vote2.validatorAddress)
    (hpair : isSlashableVotePair vote2 vote1 = true) :
    VerifyScript P checker [.push voteScript1, .push voteScript2]
      (CreateFinalizerCommitScript P pubkey) = .ok () := by
  have hcommit : checkCommit P checker [pubkey.vch, voteScript2, voteScript1] = .ok [vchTrue] := by
    simp [checkCommit, hslash, hdecode1, hdecode2, hhash, hverify1, hverify2, haddr, hpair]
  have hsigScript := EvalScript_pushes P checker [voteScript1, voteScript2] []
  simp only [List.map_cons, List.map_nil, List.reverse_cons, List.reverse_nil, List.nil_append,
    List.cons_append, List.append_nil] at hsigScript
  simp [VerifyScript, hsigScript, EvalScript_commitScript P checker pubkey _ hcommit, CastToBool, vchTrue]

omit hdecode1 hdecode2 in
/-- A finalizer's key gets another finalizer slashed: two conflicting votes for that
finalizer's address, both signed by the key, pass `ContextualCheckSlashTx` and script
verification against the key's own commit output. -/
theorem slash_of_other_finalizer_accepted (fin_state : FinalizationState) (vote1 vote2 : Vote)
    (hslashable : fin_state.IsSlashable vote1 vote2 = .SUCCESS)
    (haddr : vote1.validatorAddress = vote2.validatorAddress)
    (hother : vote1.validatorAddress ≠ pubkey.GetID P.hash160) (voteSig1 voteSig2 : valtype)
    (hsig1 : voteSig1 ≠ []) (hsig2 : voteSig2 ≠ []) (hlen1 : voteSig1.length < 2 ^ 31)
    (hlen2 : voteSig2.length < 2 ^ 31) (hhash : P.voteHash vote2 ≠ P.voteHash vote1)
    (hverify1 : P.Verify pubkey (P.voteHash vote1) voteSig1 = true)
    (hverify2 : P.Verify pubkey (P.voteHash vote2) voteSig2 = true)
    (hslash : checker.GetTxType = .SLASH) :
    ∃ voteScript1 voteScript2, Script.EncodeVote vote1 voteSig1 = .ok voteScript1 ∧
      Script.EncodeVote vote2 voteSig2 = .ok voteScript2 ∧
      ContextualCheckSlashTx (slashTx P pubkey prevout amount voteScript1 voteScript2) fin_state =
        .ok () ∧
      VerifyScript P checker [.push voteScript1, .push voteScript2]
        (CreateFinalizerCommitScript P pubkey) = .ok () ∧
      vote1.validatorAddress ≠ P.hash160 pubkey.vch := by
  have hencode1 : Script.EncodeVote vote1 voteSig1 = .ok _ := Script.EncodeVote_eq_ok hsig1
  have hencode2 : Script.EncodeVote vote2 voteSig2 = .ok _ := Script.EncodeVote_eq_ok hsig2
  have hdecode1 := Script.DecodeVote_of_EncodeVote (by omega) hencode1
  have hdecode2 := Script.DecodeVote_of_EncodeVote (by omega) hencode2
  refine ⟨_, _, hencode1, hencode2, ?_, VerifyScript_slashTx P checker hdecode1 hdecode2 hslash hhash
    hverify1 hverify2 haddr (isSlashableVotePair_of_IsSlashable hslashable), hother⟩
  rw [ContextualCheckSlashTx, CheckSlashTx_slashTx P prevout amount hdecode1 hdecode2]
  simp [hslashable]

end Attack

theorem slash_of_other_finalizer_accepted_witnessState :
    ∃ voteScript1 voteScript2, Script.EncodeVote ⟨7, 1, 0, 1⟩ witnessKey.vch = .ok voteScript1 ∧
      Script.EncodeVote ⟨7, 2, 0, 1⟩ witnessKey.vch = .ok voteScript2 ∧
      ContextualCheckSlashTx (slashTx witnessPrimitives witnessKey ⟨1, 0⟩ 1500 voteScript1 voteScript2)
        witnessState = .ok () ∧
      VerifyScript witnessPrimitives witnessSlashChecker [.push voteScript1, .push voteScript2]
        (CreateFinalizerCommitScript witnessPrimitives witnessKey) = .ok () ∧
      (⟨7, 1, 0, 1⟩ : Vote).validatorAddress ≠ witnessPrimitives.hash160 witnessKey.vch :=
  slash_of_other_finalizer_accepted witnessPrimitives witnessSlashChecker ⟨1, 0⟩ 1500 witnessState
    ⟨7, 1, 0, 1⟩ ⟨7, 2, 0, 1⟩ (by decide) rfl (by decide) witnessKey.vch witnessKey.vch (by decide)
    (by decide) (by decide) (by decide) (by decide) (by decide) (by decide) rfl


end UnitE.Esperanza
