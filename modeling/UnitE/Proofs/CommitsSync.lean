import UnitE.Spec.CommitsHandler

/-! The entries `OnGetCommits` sends. The entries of the blocks after the start should reach
the peer in order, each once. When the entry of a block would take the response being built
to `MAX_PROTOCOL_MESSAGE_LENGTH`, the response is pushed without it and the next one is
started without it too: that block's entry is in no message, and the next message starts
with a header whose parent the peer was never sent. -/

namespace UnitE.P2P

def sentData (messages : List FinalizerCommitsResponse) : List HeaderAndFinalizerCommits :=
  messages.flatMap (·.data)

@[simp] theorem sentData_nil : sentData [] = [] := rfl

@[simp] theorem sentData_cons (message : FinalizerCommitsResponse)
    (messages : List FinalizerCommitsResponse) :
    sentData (message :: messages) = message.data ++ sentData messages := by
  simp [sentData]

@[simp] theorem sentData_append (messages messages' : List FinalizerCommitsResponse) :
    sentData (messages ++ messages') = sentData messages ++ sentData messages' := by
  simp [sentData]

@[simp] theorem sentData_singleton (message : FinalizerCommitsResponse) :
    sentData [message] = message.data := by
  simp [sentData]

section Walk

variable (entrySize : HeaderAndFinalizerCommits → Nat) (stop : Option Uint256)
  (IsFinalizedCheckpoint : Height → Bool)

theorem takeEntry_pushed (response : FinalizerCommitsResponse)
    (pushed : List FinalizerCommitsResponse) (hc : HeaderAndFinalizerCommits) :
    takeEntry entrySize response pushed hc =
      ((takeEntry entrySize response [] hc).1, pushed ++ (takeEntry entrySize response [] hc).2) := by
  simp only [takeEntry]
  split_ifs <;> simp

/-- The walk goes on from the messages already pushed and only appends to them: the walk from
any of them is that list followed by the walk from none. -/
theorem walkCommits_pushed (chain : List ChainEntry) (response : FinalizerCommitsResponse)
    (pushed : List FinalizerCommitsResponse) :
    walkCommits entrySize stop IsFinalizedCheckpoint chain response pushed =
      (pushed ++ (walkCommits entrySize stop IsFinalizedCheckpoint chain response []).1,
        (walkCommits entrySize stop IsFinalizedCheckpoint chain response []).2) := by
  induction chain generalizing response pushed with
  | nil => simp [walkCommits]
  | cons walk rest ih =>
    -- the entry of `walk`, if any, is taken the same way from both lists
    cases hfind : FindHeaderAndFinalizerCommits walk with
    | none =>
      simp only [walkCommits, hfind]
      split
      · simp
      · rw [ih _ pushed, ih _ []]
    | some hc =>
      simp only [walkCommits, hfind]
      rw [takeEntry_pushed entrySize response pushed hc]
      split
      · simp
      · rw [ih _ (pushed ++ _), ih _ (takeEntry entrySize response [] hc).2]
        simp

/-- What `OnGetCommits` sends: the entries of the messages the walk pushed, then those of the
response it ended with, which is pushed only when it has any. -/
theorem sentData_OnGetCommits (chain : List ChainEntry) :
    sentData (OnGetCommits entrySize stop IsFinalizedCheckpoint chain) =
      sentData (walkCommits entrySize stop IsFinalizedCheckpoint chain {} []).1 ++
        (walkCommits entrySize stop IsFinalizedCheckpoint chain {} []).2.data := by
  rcases hwalk : walkCommits entrySize stop IsFinalizedCheckpoint chain {} [] with ⟨pushed, response⟩
  simp only [OnGetCommits, hwalk]
  split_ifs with hempty
  · rw [List.isEmpty_iff.mp hempty, List.append_nil]
  · simp

/-- The entry of the second block after the start, when it takes the response holding the first
one to the length limit, is in no message: the messages carry the first block's entry, then
what the walk from the third block sends, while every one of the blocks should be sent. -/
theorem OnGetCommits_drops_entry {b₁ b₂ : ChainEntry} {rest : List ChainEntry}
    {hc₁ hc₂ : HeaderAndFinalizerCommits}
    (h₁ : FindHeaderAndFinalizerCommits b₁ = some hc₁)
    (h₂ : FindHeaderAndFinalizerCommits b₂ = some hc₂)
    (hfit : responseSize entrySize { data := [hc₁] } < MAX_PROTOCOL_MESSAGE_LENGTH)
    (hover : MAX_PROTOCOL_MESSAGE_LENGTH ≤ responseSize entrySize { data := [hc₁, hc₂] })
    (hgo₁ : (stop = some b₁.hash || IsFinalizedCheckpoint b₁.nHeight) = false)
    (hgo₂ : (stop = some b₂.hash || IsFinalizedCheckpoint b₂.nHeight) = false) :
    sentData (OnGetCommits entrySize stop IsFinalizedCheckpoint (b₁ :: b₂ :: rest)) =
      hc₁ :: sentData (OnGetCommits entrySize stop IsFinalizedCheckpoint rest) := by
  -- the first entry fits; the second one sends the first alone and is lost with the copy
  have htake₁ : takeEntry entrySize {} [] hc₁ = ({ data := [hc₁] }, []) := by
    simp [takeEntry, Nat.not_le.mpr hfit]
  have htake₂ : takeEntry entrySize { data := [hc₁] } [] hc₂ =
      ({}, [{ data := [hc₁], status := .LengthExceeded }]) := by
    simp [takeEntry, hover]
  have hwalk : walkCommits entrySize stop IsFinalizedCheckpoint (b₁ :: b₂ :: rest) {} [] =
      walkCommits entrySize stop IsFinalizedCheckpoint rest {}
        [{ data := [hc₁], status := .LengthExceeded }] := by
    simp only [walkCommits, h₁, h₂, htake₁, htake₂, hgo₁, hgo₂, Bool.false_eq_true, if_false]
  rw [sentData_OnGetCommits, sentData_OnGetCommits, hwalk, walkCommits_pushed]
  simp

/-- The block at height `n` of a chain whose block hashes are their heights, with no commits
stored. -/
def chainBlock (n : Nat) : ChainEntry := ⟨n.toUInt32, n, ⟨(n : Uint256) - 1, 0, 0, 0⟩, some [], none⟩

/-- Two blocks after the start whose entries take 2,000,000 bytes each (blocks full of
finalizer commits), with no stop block and no finalized checkpoint before the tip: only the
first block's entry is sent. -/
theorem OnGetCommits_drops_entry_twoBlocks :
    sentData (OnGetCommits (fun _ => 2000000) none (fun _ => false) [chainBlock 1, chainBlock 2]) =
      [⟨(chainBlock 1).header, []⟩] := by
  rw [OnGetCommits_drops_entry (fun _ => 2000000) none (fun _ => false) rfl rfl (by decide)
    (by decide) rfl rfl]
  rfl

end Walk

end UnitE.P2P
