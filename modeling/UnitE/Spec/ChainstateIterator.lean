import UnitE.Lib.TreeMap
import UnitE.Spec.Snapshot

/-! The iterator a snapshot is created from (`snapshot::ChainstateIterator`). It reads the
coins database through a cursor and groups the coins of one transaction into a `UTXOSubset`:
`Next` hands out the group it has collected when it reads the first coin of another
transaction, and the last group once the cursor is exhausted. `Creator::Create` reads the
subsets while the iterator is valid. -/

namespace UnitE

/-- `std::map<uint32_t, CTxOut>`, the outputs of a subset by index. -/
abbrev OutputMap := Std.TreeMap UInt32 CTxOut compare

theorem OutputMap.sorted (m : OutputMap) : (m.toList.map Prod.fst).Pairwise (· < ·) := by
  rw [List.pairwise_map]
  exact m.ordered_keys_toList.imp compareOfLessAndEq_eq_lt.mp

/-- `UTXOSubset(tx_id, height, tx_type, out_map)`. -/
def UTXOSubset.ofMap (tx_id : Uint256) (height : UInt32) (tx_type : TxType) (out_map : OutputMap) :
    UTXOSubset :=
  ⟨tx_id, height, tx_type, out_map.toList, out_map.sorted⟩

/-- `UTXOSubset()`. -/
def UTXOSubset.empty : UTXOSubset := ⟨0, 0, .REGULAR, [], List.Pairwise.nil⟩

/-- What the cursor reads at one record: its outpoint and coin, or `none` when `GetKey` or
`GetValue` fails to decode it. -/
abbrev CursorEntry := Option (COutPoint × Coin)

/-- `ChainstateIterator`, with the records its cursor has not read yet. -/
structure ChainstateIterator where
  m_valid : Bool
  m_cursor : List CursorEntry
  m_outputs : OutputMap
  m_prev_coin : Coin
  m_prev_tx_id : Uint256
  m_utxo_subset : UTXOSubset

namespace ChainstateIterator

/-- The subset that the outputs collected so far make. -/
def pendingSubset (it : ChainstateIterator) : UTXOSubset :=
  UTXOSubset.ofMap it.m_prev_tx_id it.m_prev_coin.nHeight it.m_prev_coin.tx_type it.m_outputs

/-- The subset collected so far is handed out, and collecting starts again. -/
def emit (it : ChainstateIterator) : ChainstateIterator :=
  { it with m_utxo_subset := it.pendingSubset, m_outputs := ∅ }

/-- The output of a record is collected, and its coin and transaction are remembered. -/
def collect (it : ChainstateIterator) (key : COutPoint) (coin : Coin) : ChainstateIterator :=
  { it with
    m_outputs := it.m_outputs.insert key.n coin.out, m_prev_coin := coin, m_prev_tx_id := key.hash }

/-- The loop of `Next` over the records left under the cursor. -/
def nextLoop : List CursorEntry → ChainstateIterator → ChainstateIterator
  | [], it =>
    if it.m_outputs.isEmpty then { it with m_cursor := [], m_valid := false }
    else { it.emit with m_cursor := [] }
  | none :: cursor, it => nextLoop cursor it
  | some (key, coin) :: cursor, it =>
    let stop := !it.m_outputs.isEmpty && key.hash != it.m_prev_tx_id
    let it := (if stop then it.emit else it).collect key coin
    if stop then { it with m_cursor := cursor } else nextLoop cursor it

def Next (it : ChainstateIterator) : ChainstateIterator := nextLoop it.m_cursor it

def Valid (it : ChainstateIterator) : Bool := it.m_valid

def GetUTXOSubset (it : ChainstateIterator) : UTXOSubset := it.m_utxo_subset

/-- The constructor over the records of the cursor: valid, with nothing collected, and a
first `Next`. -/
def create (cursor : List CursorEntry) : ChainstateIterator :=
  Next ⟨true, cursor, ∅, Coin.empty, 0, UTXOSubset.empty⟩

/-- The loop of `Creator::Create`, without the indexer and the limit on the number of
subsets: the subsets read while the iterator is valid, or `none` when `fuel` calls of `Next`
do not end it. -/
def readSubsets : Nat → ChainstateIterator → Option (List UTXOSubset)
  | 0, it => if it.Valid then none else some []
  | fuel + 1, it =>
    if it.Valid then (readSubsets fuel it.Next).map (it.GetUTXOSubset :: ·) else some []

end ChainstateIterator

end UnitE
