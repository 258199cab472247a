import UnitE.Lib.Multimap
import UnitE.Spec.Transaction

/-! `p2p::EmbargoMan`, the stem phase of Dandelion-lite. A transaction of the wallet is sent to
one relay only and put under embargo; it is announced to all peers (fluffed) when its embargo
time is due, or as soon as a peer other than the relay announces it. A child's embargo time is
at least the embargo time of each of its parents under embargo. The side effects (the clock,
the peers, the network) answer each call; `EmbargoManSideEffects` holds their answers during
one call, and the announcements to all peers are the output of a call. -/

namespace UnitE.P2P

abbrev NodeId := Int

abbrev EmbargoTime := Int

/-- The answers of `EmbargoManSideEffects` during one call. `GetOutboundNodes` is the set in
its order, and `RandRange` keeps its contract. -/
structure EmbargoManSideEffects where
  GetNextEmbargoTime : EmbargoTime
  IsEmbargoDue : EmbargoTime → Bool
  GetOutboundNodes : List NodeId
  RandRange : Nat → Nat
  RandRange_lt : ∀ n, 0 < n → RandRange n < n
  SendTxInv : NodeId → Uint256 → Bool

structure Embargo where
  relay : NodeId
  embargo_time : EmbargoTime
  deriving DecidableEq, Repr

/-- The state of `EmbargoMan`. The map `m_embargoes` is a function to `Option`, the multimap
`m_embargo_to_tx` the list of its entries as it iterates them, and the set
`m_unwanted_relays` a list without repetition. -/
structure EmbargoMan where
  m_timeouts_to_switch_relay : Nat
  m_relay : Option NodeId
  m_timeouts_in_a_row : Nat
  m_embargo_to_tx : List (EmbargoTime × Uint256)
  m_embargoes : Uint256 → Option Embargo
  m_unwanted_relays : List NodeId

/-- `std::map::emplace` on `m_embargoes`: the embargo is added only where the transaction has
none. -/
def emplaceEmbargo (m : Uint256 → Option Embargo) (tx_hash : Uint256) (e : Embargo) :
    Uint256 → Option Embargo :=
  fun h => if h = tx_hash then (m h).or (some e) else m h

/-- `std::map::erase` on `m_embargoes`. -/
def eraseEmbargo (m : Uint256 → Option Embargo) (tx_hash : Uint256) : Uint256 → Option Embargo :=
  fun h => if h = tx_hash then none else m h

namespace EmbargoMan

/-- `EmbargoMan(timeouts_to_switch_relay, side_effects)`. -/
def create (timeouts_to_switch_relay : Nat) : EmbargoMan :=
  ⟨timeouts_to_switch_relay, none, 0, [], fun _ => none, []⟩

/-- `GetNewRelay`: a random outbound peer that is not unwanted. The unwanted peers that are no
longer connected are forgotten. -/
def GetNewRelay (se : EmbargoManSideEffects) (s : EmbargoMan) : Option NodeId × EmbargoMan :=
  let unwanted := s.m_unwanted_relays.filter (· ∈ se.GetOutboundNodes)
  let s := { s with m_unwanted_relays := unwanted }
  let outbounds := se.GetOutboundNodes.filter (· ∉ unwanted)
  if h : outbounds = [] then (none, s)
  else
    (some (outbounds.get ⟨se.RandRange outbounds.length,
      se.RandRange_lt _ (List.length_pos_of_ne_nil h)⟩), s)

/-- `GetEmbargoTime`: the next embargo time, raised to the embargo time of every parent under
embargo. -/
def GetEmbargoTime (se : EmbargoManSideEffects) (s : EmbargoMan) (tx : CTransaction) :
    EmbargoTime :=
  tx.vin.foldl (fun embargo_time input =>
    match s.m_embargoes input.prevout.hash with
    | some e => max embargo_time e.embargo_time
    | none => embargo_time) se.GetNextEmbargoTime

variable (GetHash : CTransaction → Uint256)

/-- `SendToAndRemember`: the transaction is sent to the relay and put under embargo; a relay
that does not take it becomes unwanted. -/
def SendToAndRemember (se : EmbargoManSideEffects) (relay : NodeId) (tx : CTransaction)
    (s : EmbargoMan) : Bool × EmbargoMan :=
  let tx_hash := GetHash tx
  if se.SendTxInv relay tx_hash then
    let embargo_time := GetEmbargoTime se s tx
    (true,
      { s with
        m_timeouts_in_a_row := if s.m_relay ≠ some relay then 0 else s.m_timeouts_in_a_row
        m_relay := some relay
        m_embargoes := emplaceEmbargo s.m_embargoes tx_hash ⟨relay, embargo_time⟩
        m_embargo_to_tx := Multimap.emplace embargo_time tx_hash s.m_embargo_to_tx })
  else
    (false,
      { s with
        m_unwanted_relays := s.m_unwanted_relays.insert relay
        m_relay := none })

/-- `SendTransactionAndEmbargo`: through the relay, or else through a new one. -/
def SendTransactionAndEmbargo (se : EmbargoManSideEffects) (tx : CTransaction)
    (s : EmbargoMan) : Bool × EmbargoMan :=
  let (sent, s) :=
    match s.m_relay with
    | some relay => SendToAndRemember GetHash se relay tx s
    | none => (false, s)
  if sent then (true, s)
  else
    match GetNewRelay se s with
    | (some new_relay, s) => SendToAndRemember GetHash se new_relay tx s
    | (none, s) => (false, s)

/-- A timeout of `relay`, the relay: the count goes up, and at `m_timeouts_to_switch_relay`
the relay becomes unwanted. -/
def countTimeout (relay : NodeId) (s : EmbargoMan) : EmbargoMan :=
  if s.m_timeouts_in_a_row + 1 ≥ s.m_timeouts_to_switch_relay then
    { s with
      m_timeouts_in_a_row := s.m_timeouts_in_a_row + 1
      m_unwanted_relays := s.m_unwanted_relays.insert relay
      m_relay := none }
  else { s with m_timeouts_in_a_row := s.m_timeouts_in_a_row + 1 }

/-- The loop of `FluffPendingEmbargoes` over the entries of `m_embargo_to_tx` from the first:
it stops at the first entry not due. A due entry whose transaction is still under embargo ends
the embargo and queues the transaction to be fluffed; it counts a timeout when it was sent to
the relay. -/
def fluffLoop (IsEmbargoDue : EmbargoTime → Bool) :
    List (EmbargoTime × Uint256) → EmbargoMan → List Uint256 → EmbargoMan × List Uint256
  | [], s, txs_to_fluff => ({ s with m_embargo_to_tx := [] }, txs_to_fluff)
  | (embargo_time, tx_hash) :: rest, s, txs_to_fluff =>
    if !IsEmbargoDue embargo_time then
      ({ s with m_embargo_to_tx := (embargo_time, tx_hash) :: rest }, txs_to_fluff)
    else
      match s.m_embargoes tx_hash with
      | none =>
        -- an embargo lifted by `OnTxInv`
        fluffLoop IsEmbargoDue rest { s with m_timeouts_in_a_row := 0 } txs_to_fluff
      | some e =>
        let s := if s.m_relay = some e.relay then countTimeout e.relay s else s
        fluffLoop IsEmbargoDue rest { s with m_embargoes := eraseEmbargo s.m_embargoes tx_hash }
          (txs_to_fluff ++ [tx_hash])

/-- `FluffPendingEmbargoes`, with the transactions it sends to all peers in order. -/
def FluffPendingEmbargoes (IsEmbargoDue : EmbargoTime → Bool) (s : EmbargoMan) :
    EmbargoMan × List Uint256 :=
  fluffLoop IsEmbargoDue s.m_embargo_to_tx s []

/-- `IsEmbargoedFor`: a transaction under embargo is hidden from every peer but its relay. -/
def IsEmbargoedFor (s : EmbargoMan) (tx_hash : Uint256) (node : NodeId) : Bool :=
  match s.m_embargoes tx_hash with
  | some e => e.relay != node
  | none => false

/-- `OnTxInv`: an announcement from a peer other than the relay lifts the embargo, and the
transaction is sent to all peers. -/
def OnTxInv (tx_hash : Uint256) (from_node : NodeId) (s : EmbargoMan) :
    EmbargoMan × List Uint256 :=
  match s.m_embargoes tx_hash with
  | none => (s, [])
  | some e =>
    if from_node = e.relay then (s, [])
    else ({ s with m_embargoes := eraseEmbargo s.m_embargoes tx_hash }, [tx_hash])

end EmbargoMan

/-- What made `EmbargoMan` call `SendTxInvToAll`. -/
inductive FluffCause
  | timer
  | inv
  deriving DecidableEq, Repr

/-- One call of `SendTxInvToAll`. -/
structure Announcement where
  tx_hash : Uint256
  cause : FluffCause
  deriving DecidableEq, Repr

/-- The calls the node makes on `EmbargoMan`, each with what its side effects answer. -/
inductive EmbargoCall
  | SendTransactionAndEmbargo (tx : CTransaction) (se : EmbargoManSideEffects)
  | OnTxInv (tx_hash : Uint256) (from_node : NodeId)
  | FluffPendingEmbargoes (IsEmbargoDue : EmbargoTime → Bool)

namespace EmbargoMan

variable (GetHash : CTransaction → Uint256)

/-- One call, with the announcements to all peers it makes. -/
def step (s : EmbargoMan) : EmbargoCall → EmbargoMan × List Announcement
  | .SendTransactionAndEmbargo tx se => ((SendTransactionAndEmbargo GetHash se tx s).2, [])
  | .OnTxInv tx_hash from_node =>
    let (s', fluffed) := OnTxInv tx_hash from_node s
    (s', fluffed.map fun h => ⟨h, .inv⟩)
  | .FluffPendingEmbargoes IsEmbargoDue =>
    let (s', fluffed) := FluffPendingEmbargoes IsEmbargoDue s
    (s', fluffed.map fun h => ⟨h, .timer⟩)

/-- A run of calls, with all the announcements to all peers in order. -/
def run : EmbargoMan → List EmbargoCall → EmbargoMan × List Announcement
  | s, [] => (s, [])
  | s, call :: calls =>
    let (s', out) := step GetHash s call
    let (s'', out') := run s' calls
    (s'', out ++ out')

end EmbargoMan

end UnitE.P2P
