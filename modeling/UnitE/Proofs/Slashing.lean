import UnitE.Lib.LowerBound
import UnitE.Proofs.Deposits
import UnitE.Spec.VoteRecorder

/-! Slashing: the vote recorder's search for a slashable pair of votes, and the penalty of
a slashed finalizer at its withdrawal. `FindOffendingVote` judges two votes by their epochs
and hashes alone, while `IsSlashable` also asks that the finalizer has started and is not
slashed; so two conflicting votes of a finalizer whose deposit has not started yet reach the
`assert(false)` of `RecordVote`, which runs on every vote transaction the node checks, valid
or not. `ValidateWithdraw` computes the amount a finalizer may withdraw and drops its
comparison with the requested amount, so a slashed finalizer withdraws its whole deposit.

Over the records of one finalizer, `FindOffendingVote` refines the naive search for a double
or surround vote: the scan from `lower_bound(m_source_epoch)` misses no surround vote since each
record is kept under its target epoch, which such a record has at or above the new vote's source
epoch. The recorders a node goes through keep records that way and never fill the cache. -/

namespace UnitE.Finalization

open Esperanza Esperanza.FinalizationState

/-- A recorded vote of a finalizer that has not started, and a second vote of it for the
same target epoch with another hash: `FindOffendingVote` returns the first, `IsSlashable`
rejects the pair as too early, and recording the second vote aborts. -/
theorem record_vote_not_started_aborts (recorder : VoteRecorder) (finState : FinalizationState)
    (vote : Vote) (voteSig : List UInt8) {validator : Validator} {record : VoteRecord}
    (hauth : finState.adminState.IsValidatorAuthorized vote.validatorAddress = true)
    (hlookup : finState.validators.lookup vote.validatorAddress = some validator)
    (hearly : finState.currentDynasty < validator.startDynasty)
    (hcache : recorder.voteCache.lookup vote.validatorAddress = none)
    (hrecord : recorder.GetVote vote.validatorAddress vote.targetEpoch = some record)
    (haddress : record.vote.validatorAddress = vote.validatorAddress)
    (hhash : record.vote.targetHash ≠ vote.targetHash) :
    recorder.FindOffendingVote vote = some record ∧
      finState.IsSlashable vote record.vote = .SLASH_TOO_EARLY ∧
      RecordVote recorder vote voteSig finState = .error .assertion := by
  have hfind := recorder.FindOffendingVote_double hcache hrecord hhash
  have htooEarly := finState.IsSlashable_too_early haddress hlookup hearly
  refine ⟨hfind, htooEarly, ?_⟩
  rw [RecordVote_of_finalizer hauth hlookup, VoteRecorder.RecordVote_eq_error]
  exact ⟨rfl, Finmap.mem_of_lookup_eq_some hlookup, record, hfind, by rw [htooEarly]; decide⟩

namespace VoteRecorder

def IsDoubleVote (vote recorded : Vote) : Prop :=
  recorded.targetEpoch = vote.targetEpoch ∧ recorded.targetHash ≠ vote.targetHash

/-- A surround vote: one of the two votes spans the other, strictly at both ends. -/
def IsSurroundVote (vote recorded : Vote) : Prop :=
  vote.sourceEpoch < recorded.sourceEpoch ∧ recorded.targetEpoch < vote.targetEpoch ∨
    recorded.sourceEpoch < vote.sourceEpoch ∧ vote.targetEpoch < recorded.targetEpoch

/-- The records of one finalizer as the search reads them: each is kept under its target
epoch, and its source epoch is before its target epoch. -/
structure WellFormedVoteMap (voteMap : VoteMap) : Prop where
  key_eq : ∀ (e : UInt32) (record : VoteRecord), voteMap[e]? = some record →
    record.vote.targetEpoch = e
  source_lt : ∀ (e : UInt32) (record : VoteRecord), voteMap[e]? = some record →
    record.vote.sourceEpoch < record.vote.targetEpoch

/-- The loop of `FindOffendingVote` from `voteMap.lower_bound(m_source_epoch)` to the end. -/
def surroundScan (voteMap : VoteMap) (vote : Vote) : Option VoteRecord :=
  ((voteMap.toList.dropWhile (·.1 < vote.sourceEpoch)).find? fun p =>
    p.2.vote.sourceEpoch < vote.targetEpoch &&
      ((vote.sourceEpoch < p.2.vote.sourceEpoch && p.2.vote.targetEpoch < vote.targetEpoch) ||
       (p.2.vote.sourceEpoch < vote.sourceEpoch && vote.targetEpoch < p.2.vote.targetEpoch))).map
    (·.2)

variable {r : VoteRecorder} {vote : Vote} {voteMap : VoteMap}

theorem FindOffendingVote_of_lookup (hcache : r.voteCache.lookup vote.validatorAddress = none)
    (hmap : r.voteRecords.lookup vote.validatorAddress = some voteMap) :
    r.FindOffendingVote vote = match voteMap[vote.targetEpoch]? with
      | some record =>
        if record.vote.targetHash ≠ vote.targetHash then some record else surroundScan voteMap vote
      | none => surroundScan voteMap vote := by
  simp only [FindOffendingVote, hcache, hmap, Option.any_none, Bool.false_eq_true, if_false]
  rfl

theorem toList_pairwise_below (voteMap : VoteMap) (bound : UInt32) :
    voteMap.toList.Pairwise fun a b => decide (b.1 < bound) = true → decide (a.1 < bound) = true :=
  Std.TreeMap.ordered_keys_toList.imp fun hab hb => by
    have hlt := compareOfLessAndEq_eq_lt.mp hab
    simp only [decide_eq_true_eq] at hb ⊢
    exact UInt32.lt_trans hlt hb

/-- What the loop returns is a record of the map that surrounds the vote or that the vote
surrounds. -/
theorem surroundScan_eq_some {record : VoteRecord} (h : surroundScan voteMap vote = some record) :
    (∃ e : UInt32, voteMap[e]? = some record) ∧ IsSurroundVote vote record.vote := by
  obtain ⟨⟨e, record'⟩, hfind, rfl⟩ := Option.map_eq_some_iff.mp h
  obtain ⟨hmem, -, hfilter⟩ := List.find?_dropWhile_eq_some (toList_pairwise_below _ _) hfind
  refine ⟨⟨e, Std.TreeMap.mem_toList_iff_getElem?_eq_some.mp hmem⟩, ?_⟩
  simp only [Bool.and_eq_true, Bool.or_eq_true, decide_eq_true_eq] at hfilter
  exact hfilter.2

/-- The loop finds a record exactly when some record of the map surrounds the vote or is
surrounded by it: such a record has its target epoch, its key, at or above the vote's source
epoch, and its source epoch below the vote's target epoch. -/
theorem surroundScan_isSome_iff (hwf : WellFormedVoteMap voteMap)
    (hvote : vote.sourceEpoch < vote.targetEpoch) :
    (surroundScan voteMap vote).isSome ↔
      ∃ (e : UInt32) (record : VoteRecord), voteMap[e]? = some record ∧
        IsSurroundVote vote record.vote := by
  rw [surroundScan, Option.isSome_map, List.find?_dropWhile_isSome_iff (toList_pairwise_below _ _)]
  constructor
  · rintro ⟨⟨e, record⟩, hmem, -, hfilter⟩
    simp only [Bool.and_eq_true, Bool.or_eq_true, decide_eq_true_eq] at hfilter
    exact ⟨e, record, Std.TreeMap.mem_toList_iff_getElem?_eq_some.mp hmem, hfilter.2⟩
  · rintro ⟨e, record, hget, hsurround⟩
    have hkey := hwf.key_eq e record hget
    have hsource := hwf.source_lt e record hget
    refine ⟨(e, record), Std.TreeMap.mem_toList_iff_getElem?_eq_some.mpr hget, ?_, ?_⟩
    · simp only [decide_eq_false_iff_not, UInt32.not_lt, ← hkey]
      simp only [IsSurroundVote, UInt32.lt_iff_toNat_lt] at hsurround hsource hvote
      rw [UInt32.le_iff_toNat_le]
      omega
    · simp only [Bool.and_eq_true, Bool.or_eq_true, decide_eq_true_eq]
      refine ⟨?_, hsurround⟩
      simp only [IsSurroundVote, UInt32.lt_iff_toNat_lt] at hsurround hsource hvote ⊢
      omega

/-- When the record at the vote's target epoch, if any, has the vote's target hash, no record
of a well-formed map is a double vote: a double vote would be kept under that epoch. -/
theorem not_isDoubleVote (hwf : WellFormedVoteMap voteMap)
    (hsame : ∀ record, voteMap[vote.targetEpoch]? = some record →
      record.vote.targetHash = vote.targetHash) :
    ∀ (e : UInt32) (record : VoteRecord), voteMap[e]? = some record →
      ¬ IsDoubleVote vote record.vote := by
  rintro e record hget ⟨htarget, hhash⟩
  rw [← hwf.key_eq e record hget, htarget] at hget
  exact hhash (hsame record hget)

/-- `FindOffendingVote` refines the naive slashing search over the finalizer's records: it
finds a record exactly when some recorded vote is a double vote or a surround vote with the new
one, and what it returns is such a record. -/
theorem FindOffendingVote_iff_naive (r : VoteRecorder) (vote : Vote)
    (hcache : r.voteCache.lookup vote.validatorAddress = none)
    (hrecords : ∀ e record, r.GetVote vote.validatorAddress e = some record →
      record.vote.targetEpoch = e ∧ record.vote.sourceEpoch < record.vote.targetEpoch)
    (hvote : vote.sourceEpoch < vote.targetEpoch) :
    ((r.FindOffendingVote vote).isSome ↔ ∃ e record,
        r.GetVote vote.validatorAddress e = some record ∧
          (IsDoubleVote vote record.vote ∨ IsSurroundVote vote record.vote)) ∧
      ∀ record, r.FindOffendingVote vote = some record →
        (∃ e, r.GetVote vote.validatorAddress e = some record) ∧
          (IsDoubleVote vote record.vote ∨ IsSurroundVote vote record.vote) := by
  cases hmap : r.voteRecords.lookup vote.validatorAddress with
  | none =>
    -- a finalizer without records: nothing is found and nothing is recorded
    have hfind : r.FindOffendingVote vote = none := by simp [FindOffendingVote, hcache, hmap]
    simp [hfind, GetVote, hmap]
  | some voteMap =>
    have hget : ∀ e, r.GetVote vote.validatorAddress e = voteMap[e]? := by simp [GetVote, hmap]
    simp only [hget] at hrecords ⊢
    have hwf : WellFormedVoteMap voteMap :=
      ⟨fun e record h => (hrecords e record h).1, fun e record h => (hrecords e record h).2⟩
    rw [FindOffendingVote_of_lookup hcache hmap]
    -- the loop decides unless the record at the target epoch is a double vote
    have hscan : ∀ (hsame : ∀ record, voteMap[vote.targetEpoch]? = some record →
        record.vote.targetHash = vote.targetHash),
        ((surroundScan voteMap vote).isSome ↔ ∃ (e : UInt32) (record : VoteRecord),
          voteMap[e]? = some record ∧
          (IsDoubleVote vote record.vote ∨ IsSurroundVote vote record.vote)) ∧
        ∀ record, surroundScan voteMap vote = some record →
          (∃ e : UInt32, voteMap[e]? = some record) ∧
            (IsDoubleVote vote record.vote ∨ IsSurroundVote vote record.vote) := by
      intro hsame
      refine ⟨?_, fun record h => ?_⟩
      · rw [surroundScan_isSome_iff hwf hvote]
        constructor
        · rintro ⟨e, record, hget, hsurround⟩
          exact ⟨e, record, hget, .inr hsurround⟩
        · rintro ⟨e, record, hget, hdouble | hsurround⟩
          · exact absurd hdouble (not_isDoubleVote hwf hsame e record hget)
          · exact ⟨e, record, hget, hsurround⟩
      · obtain ⟨hmem, hsurround⟩ := surroundScan_eq_some h
        exact ⟨hmem, .inr hsurround⟩
    cases htarget : voteMap[vote.targetEpoch]? with
    | none => exact hscan (by simp [htarget])
    | some found =>
      by_cases hhash : found.vote.targetHash ≠ vote.targetHash
      · -- a double vote at the target epoch is returned at once
        have hdouble : IsDoubleVote vote found.vote :=
          ⟨hwf.key_eq _ found htarget, hhash⟩
        simp only [hhash, ne_eq, not_false_eq_true, if_true, Option.isSome_some, true_iff,
          Option.some.injEq]
        exact ⟨⟨_, found, htarget, .inl hdouble⟩, fun record h => h ▸ ⟨⟨_, htarget⟩, .inl hdouble⟩⟩
      · simp only [hhash, if_false]
        exact hscan fun record h => by
          rw [htarget, Option.some.injEq] at h
          exact h ▸ not_not.mp hhash

def surroundedRecorder : VoteRecorder :=
  ⟨(∅ : Finmap (fun _ : Uint160 => VoteMap)).insert 7
    ((((∅ : VoteMap).insertIfNew 2 ⟨⟨7, 1, 1, 2⟩, []⟩).insertIfNew 6 ⟨⟨7, 1, 4, 6⟩, []⟩).insertIfNew 9
      ⟨⟨7, 1, 5, 9⟩, []⟩), ∅⟩

theorem FindOffendingVote_iff_naive_surrounded :
    surroundedRecorder.FindOffendingVote ⟨7, 5, 3, 8⟩ = some ⟨⟨7, 1, 4, 6⟩, []⟩ ∧
    (((surroundedRecorder.FindOffendingVote ⟨7, 5, 3, 8⟩).isSome ↔ ∃ e record,
        surroundedRecorder.GetVote 7 e = some record ∧
          (IsDoubleVote ⟨7, 5, 3, 8⟩ record.vote ∨ IsSurroundVote ⟨7, 5, 3, 8⟩ record.vote)) ∧
      ∀ record, surroundedRecorder.FindOffendingVote ⟨7, 5, 3, 8⟩ = some record →
        (∃ e, surroundedRecorder.GetVote 7 e = some record) ∧
          (IsDoubleVote ⟨7, 5, 3, 8⟩ record.vote ∨ IsSurroundVote ⟨7, 5, 3, 8⟩ record.vote)) := by
  have hrecords : ∀ (e : UInt32) (record : VoteRecord), surroundedRecorder.GetVote 7 e = some record →
      record.vote.targetEpoch = e ∧ record.vote.sourceEpoch < record.vote.targetEpoch := by
    intro e record h
    simp only [surroundedRecorder, GetVote, Finmap.lookup_insert, Option.bind_some,
      Std.TreeMap.getElem?_insertIfNew, Std.TreeMap.getElem?_emptyc] at h
    split_ifs at h with h₉ h₆ h₂ <;> cases h
    · exact ⟨Std.LawfulEqCmp.eq_of_compare h₉.1, by decide⟩
    · exact ⟨Std.LawfulEqCmp.eq_of_compare h₆.1, by decide⟩
    · exact ⟨Std.LawfulEqCmp.eq_of_compare h₂.1, by decide⟩
  exact ⟨by decide, FindOffendingVote_iff_naive surroundedRecorder ⟨7, 5, 3, 8⟩ rfl hrecords
    (by decide)⟩

end VoteRecorder

def regTestRecorder : VoteRecorder :=
  ⟨(∅ : Finmap (fun _ : Uint160 => VoteMap)).insert 7
    ((∅ : VoteMap).insertIfNew 0 ⟨⟨7, 1, 0, 0⟩, []⟩), ∅⟩

theorem record_vote_not_started_aborts_regTest :
    Reachable (fun _ => 0) Params.RegTest regTestDeposited ∧
    RecordVote VoteRecorder.empty ⟨7, 1, 0, 0⟩ [] regTestDeposited = .ok (regTestRecorder, none) ∧
    (regTestRecorder.FindOffendingVote ⟨7, 2, 0, 0⟩ = some ⟨⟨7, 1, 0, 0⟩, []⟩ ∧
      regTestDeposited.IsSlashable ⟨7, 2, 0, 0⟩ ⟨7, 1, 0, 0⟩ = .SLASH_TOO_EARLY ∧
      RecordVote regTestRecorder ⟨7, 2, 0, 0⟩ [] regTestDeposited = .error .assertion) := by
  have hlookup : regTestDeposited.validators.lookup 7 =
      some { Validator.create 150000000000 2 7 with lastTransactionHash := 1 } := by
    decide
  exact ⟨reachable_regTestDeposited, rfl,
    record_vote_not_started_aborts regTestRecorder regTestDeposited ⟨7, 2, 0, 0⟩ [] rfl hlookup
      (by decide) rfl rfl rfl (by decide)⟩

end UnitE.Finalization

namespace UnitE.Esperanza.FinalizationState

open Finalization

/-- Once `CalculateWithdrawAmount` succeeds, `ValidateWithdraw` accepts every requested
amount, above the withdrawable one included. -/
theorem withdraw_above_amount_accepted (s : FinalizationState) {validatorAddress : Uint160}
    {withdrawableAmount : Nat}
    (h : s.CalculateWithdrawAmount validatorAddress = .ok (.SUCCESS, withdrawableAmount))
    (requestedWithdraw : CAmount) :
    s.ValidateWithdraw validatorAddress requestedWithdraw = .ok .SUCCESS := by
  simp [ValidateWithdraw, h]

def slashedInputs : List StepInput :=
  [.commit (.deposit 7 (1500 * UNIT) 0), .initializeEpoch 1, .initializeEpoch 6, .initializeEpoch 11,
    .initializeEpoch 16, .commit (.vote ⟨7, 0, 2, 3⟩ 1), .commit (.logout 7 2), .initializeEpoch 21,
    .commit (.vote ⟨7, 0, 3, 4⟩ 3), .initializeEpoch 26, .commit (.vote ⟨7, 0, 4, 5⟩ 4),
    .commit (.slash ⟨7, 1, 4, 5⟩ ⟨7, 2, 4, 5⟩), .initializeEpoch 31, .initializeEpoch 36,
    .initializeEpoch 41, .initializeEpoch 46, .initializeEpoch 51, .initializeEpoch 56]

def slashedState : FinalizationState :=
  (runInputs (fun _ => 0) (create Params.RegTest) slashedInputs).getD (create Params.RegTest)

-- the run is long enough that it is evaluated by the kernel
theorem slashedState_reachable : Reachable (fun _ => 0) Params.RegTest slashedState :=
  reachable_runInputs _ (by decide +kernel)

theorem withdraw_above_amount_accepted_slashedState :
    Reachable (fun _ => 0) Params.RegTest slashedState ∧
      (slashedState.validators.lookup 7).map Validator.isSlashed = some true ∧
      slashedState.CalculateWithdrawAmount 7 = .ok (.SUCCESS, 0) ∧ (0 : CAmount) < 1500 * UNIT ∧
      slashedState.ValidateWithdraw 7 (1500 * UNIT) = .ok .SUCCESS := by
  have hamount : slashedState.CalculateWithdrawAmount 7 = .ok (.SUCCESS, 0) := by decide +kernel
  exact ⟨slashedState_reachable, by decide +kernel, hamount, by decide,
    withdraw_above_amount_accepted slashedState hamount (1500 * UNIT)⟩

end UnitE.Esperanza.FinalizationState
