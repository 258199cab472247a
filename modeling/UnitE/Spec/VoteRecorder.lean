import UnitE.Spec.Validate

/-! `finalization::VoteRecorder`: the votes the node has seen, kept per finalizer and target
epoch, and the search among them for one that a new vote double-votes or surrounds. Each
vote is recorded when its transaction is checked, before the vote itself is validated. The
database copy of the records (`m_db`, `LoadFromDB`, `SaveVoteToDB`) is not modelled. -/

namespace UnitE.Finalization

open Esperanza

/-- `VoteRecord`: a vote with its signature. -/
structure VoteRecord where
  vote : Vote
  sig : List UInt8
  deriving DecidableEq, Repr

/-- The records of one finalizer by target epoch, `std::map<uint32_t, VoteRecord>`. -/
abbrev VoteMap := Std.TreeMap UInt32 VoteRecord

/-- `VoteRecorder`: `voteRecords` by finalizer, and `voteCache`, which nothing writes. -/
structure VoteRecorder where
  voteRecords : Finmap (fun _ : Uint160 => VoteMap)
  voteCache : Finmap (fun _ : Uint160 => VoteRecord)

namespace VoteRecorder

variable (r : VoteRecorder)

/-- The recorder the node starts with. -/
def empty : VoteRecorder := ⟨∅, ∅⟩

def GetVote (validatorAddress : Uint160) (epoch : UInt32) : Option VoteRecord :=
  (r.voteRecords.lookup validatorAddress).bind (·[epoch]?)

/-- `FindOffendingVote`: a record of the finalizer for the same target epoch with another
target hash, else the first record, from the vote's source epoch on, that the vote surrounds
or that surrounds it. A vote equal to the cached one has nothing to find. -/
def FindOffendingVote (vote : Vote) : Option VoteRecord :=
  if (r.voteCache.lookup vote.validatorAddress).any (·.vote == vote) then none
  else match r.voteRecords.lookup vote.validatorAddress with
    | none => none
    | some voteMap =>
      -- the loop from `voteMap.lower_bound(m_source_epoch)` to the end, in key order
      let surrounding := ((voteMap.toList.dropWhile (·.1 < vote.sourceEpoch)).find? fun p =>
          p.2.vote.sourceEpoch < vote.targetEpoch &&
            ((vote.sourceEpoch < p.2.vote.sourceEpoch && p.2.vote.targetEpoch < vote.targetEpoch) ||
             (p.2.vote.sourceEpoch < vote.sourceEpoch &&
               vote.targetEpoch < p.2.vote.targetEpoch))).map (·.2)
      match voteMap[vote.targetEpoch]? with
      | some record => if record.vote.targetHash ≠ vote.targetHash then some record else surrounding
      | none => surrounding

/-- `VoteRecorder::RecordVote`: a vote of a finalizer of `finState` is kept unless one is
kept for its target epoch already (`emplace`); an offending vote found before is reported
with it to the slashing listener when `IsSlashable` agrees, and is an `assert(false)`
otherwise. -/
def RecordVote (vote : Vote) (voteSig : List UInt8) (finState : FinalizationState) :
    Fallible (VoteRecorder × Option (VoteRecord × VoteRecord)) :=
  match finState.validators.lookup vote.validatorAddress with
  | none => pure (r, none)
  | some _ =>
    let offendingVote := r.FindOffendingVote vote
    let voteRecord : VoteRecord := ⟨vote, voteSig⟩
    -- a finalizer without records gets a new map, which the same `emplace` fills
    let voteMap := (r.voteRecords.lookup vote.validatorAddress).getD ∅
    let r' := { r with
      voteRecords := r.voteRecords.insert vote.validatorAddress
        (voteMap.insertIfNew vote.targetEpoch voteRecord) }
    match offendingVote with
    | none => pure (r', none)
    | some offending =>
      if finState.IsSlashable vote offending.vote = .SUCCESS then pure (r', some (voteRecord, offending))
      else .error .assertion

theorem FindOffendingVote_double {vote : Vote} {record : VoteRecord}
    (hcache : r.voteCache.lookup vote.validatorAddress = none)
    (hrecord : r.GetVote vote.validatorAddress vote.targetEpoch = some record)
    (hhash : record.vote.targetHash ≠ vote.targetHash) :
    r.FindOffendingVote vote = some record := by
  obtain ⟨voteMap, hmap, hget⟩ := Option.bind_eq_some_iff.mp hrecord
  simp [FindOffendingVote, hcache, hmap, hget, hhash]

/-- `RecordVote` aborts exactly when it finds an offending vote of a finalizer that
`IsSlashable` does not confirm. -/
theorem RecordVote_eq_error {vote : Vote} {voteSig : List UInt8} {finState : FinalizationState}
    {e : Failure} :
    r.RecordVote vote voteSig finState = .error e ↔
      e = .assertion ∧ vote.validatorAddress ∈ finState.validators ∧
        ∃ offending, r.FindOffendingVote vote = some offending ∧
          finState.IsSlashable vote offending.vote ≠ .SUCCESS := by
  unfold RecordVote
  cases hv : finState.validators.lookup vote.validatorAddress with
  | none => simp [Finmap.lookup_eq_none.mp hv]
  | some v =>
    have hmem : vote.validatorAddress ∈ finState.validators := Finmap.mem_of_lookup_eq_some hv
    cases hfind : r.FindOffendingVote vote with
    | none => simp
    | some offending =>
      by_cases hslash : finState.IsSlashable vote offending.vote = .SUCCESS
      · simp [hslash]
      · simp only [hslash, if_false, Except.error.injEq]
        exact ⟨fun he => ⟨he.symm, hmem, offending, rfl, hslash⟩, fun h => h.1.symm⟩

end VoteRecorder

/-- `finalization::RecordVote`, on the vote and signature already taken from the
transaction's script: every vote that `ValidateVote` does not reject as blacklisted or not
by a finalizer is recorded, whether valid or not. -/
def RecordVote (recorder : VoteRecorder) (vote : Vote) (voteSig : List UInt8)
    (finState : FinalizationState) : Fallible (VoteRecorder × Option (VoteRecord × VoteRecord)) :=
  let res := finState.ValidateVote vote
  if res ≠ .ADMIN_BLACKLISTED ∧ res ≠ .VOTE_NOT_BY_VALIDATOR then
    recorder.RecordVote vote voteSig finState
  else pure (recorder, none)

theorem RecordVote_of_finalizer {recorder : VoteRecorder} {vote : Vote} {voteSig : List UInt8}
    {finState : FinalizationState} {validator : Validator}
    (hauth : finState.adminState.IsValidatorAuthorized vote.validatorAddress = true)
    (hlookup : finState.validators.lookup vote.validatorAddress = some validator) :
    RecordVote recorder vote voteSig finState = recorder.RecordVote vote voteSig finState := by
  have hres := finState.IsVotable_ne_of_finalizer validator vote.targetHash vote.targetEpoch
    vote.sourceEpoch
  rw [← finState.ValidateVote_of_lookup hauth hlookup] at hres
  simp [RecordVote, hres]

end UnitE.Finalization
