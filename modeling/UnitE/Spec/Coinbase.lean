import UnitE.Spec.Script
import UnitE.Spec.Undo

/-! The coinbase transaction of a proposed block (`proposer/block_builder.cpp`) and the checks
a validator runs on it: the meta input (`staking/block_validator.cpp`), the block reward
(`staking/block_reward_validator.cpp`) and the amounts paid back to remote-staking scripts
(`staking/stake_validator.cpp`). Scripts are their bytes, as `GetScriptOp` reads them. Signing
the coinbase, which fills in the inputs after the meta input and nothing else, is not
modelled. -/

namespace UnitE

/-- `COutPoint()`: a null hash and the index `(uint32_t) -1`. -/
def COutPoint.null : COutPoint := ⟨0, 0xFFFFFFFF⟩

def COutPoint.IsNull (out : COutPoint) : Bool := out.hash == 0 && out.n == 0xFFFFFFFF

end UnitE

namespace UnitE.Staking

open Script

/-- `CTxIn`, with its script as bytes. -/
structure TxIn where
  prevout : COutPoint
  scriptSig : List UInt8
  deriving DecidableEq, Repr

/-- `CTxOut`, with its script as bytes. -/
structure TxOut where
  nValue : CAmount
  scriptPubKey : List UInt8
  deriving DecidableEq, Repr

/-- `CMutableTransaction`, as the proposer fills it in and the validators read it. -/
structure CMutableTransaction where
  nVersion : UInt32
  txType : TxType
  vin : List TxIn
  vout : List TxOut
  deriving DecidableEq, Repr

/-- `staking::Coin`: its outpoint and output. Its block height is read by neither side. -/
structure Coin where
  m_out_point : COutPoint
  m_tx_out : TxOut
  deriving DecidableEq, Repr

def Coin.GetAmount (coin : Coin) : CAmount := coin.m_tx_out.nValue

def Coin.GetOutPoint (coin : Coin) : COutPoint := coin.m_out_point

def Coin.GetScriptPubKey (coin : Coin) : List UInt8 := coin.m_tx_out.scriptPubKey

/-- The values of `staking::BlockValidationError` that the coinbase checks return. -/
inductive BlockValidationError
  | INVALID_BLOCK_HEIGHT
  | INVALID_META_INPUT_PREVOUT
  | NO_BLOCK_HEIGHT
  | NO_SNAPSHOT_HASH
  | REMOTE_STAKING_INPUT_BIGGER_THAN_OUTPUT
  | TRANSACTION_INPUT_NOT_FOUND
  deriving DecidableEq, Repr

/-- One step of `CTransaction::GetValueOut`, which throws on an output or a running sum out of
`MoneyRange`. -/
def addValueOut (nValueOut : CAmount) (tx_out : TxOut) : Fallible CAmount :=
  let nValueOut := nValueOut + tx_out.nValue
  if !MoneyRange tx_out.nValue || !MoneyRange nValueOut then .error .outOfRange
  else .ok nValueOut

def GetValueOut (tx : CMutableTransaction) : Fallible CAmount :=
  tx.vout.foldlM addValueOut 0

/-- `std::map<CScript, CAmount>`, as its entries. -/
abbrev AmountMap := List (List UInt8 × CAmount)

/-- `m[key] += amount`: a missing key comes in with its amount. -/
def AmountMap.add (m : AmountMap) (key : List UInt8) (amount : CAmount) : AmountMap :=
  if m.any (·.1 == key) then m.map fun p => if p.1 = key then (p.1, p.2 + amount) else p
  else m ++ [(key, amount)]

/-- `m.count(key) != 0`. -/
def AmountMap.contains (m : AmountMap) (key : List UInt8) : Bool := m.any (·.1 == key)

end UnitE.Staking

namespace UnitE.Proposer

open Script Staking

/-- The proposer's settings that the coinbase reads; `reward_destination` is the script of the
destination, as `GetScriptForDestination` writes it. -/
structure Settings where
  stake_split_threshold : CAmount
  stake_combine_maximum : CAmount
  reward_destination : Option (List UInt8)
  deriving DecidableEq, Repr

/-- `BlockBuilderImpl::SplitAmount`: `amount` in as few pieces of at most `threshold` as there
can be, the remainder spread one unit each over the first pieces. -/
def SplitAmount (amount threshold : CAmount) : List CAmount :=
  let number_of_pieces := amount.tdiv threshold + if amount.tmod threshold > 0 then 1 else 0
  let pieces := List.replicate number_of_pieces.toNat (amount.tdiv number_of_pieces)
  let number_of_full_pieces := amount.tmod number_of_pieces
  (List.range number_of_full_pieces.toNat).foldl (fun pieces i => pieces.modify i (· + 1)) pieces

/-- The body of the loop of `BlockBuilderImpl::CombineCoins`: a coin other than the stake joins
unless it takes the total over `stake_combine_maximum` or is a remote-staking coin. -/
def combineCoin (settings : Settings) (stake : Staking.Coin) (acc : CAmount × List TxIn)
    (coin : Staking.Coin) :
    CAmount × List TxIn :=
  if coin.GetOutPoint = stake.GetOutPoint then acc
  else
    let new_total := acc.1 + coin.GetAmount
    if settings.stake_combine_maximum > 0 ∧ new_total > settings.stake_combine_maximum then acc
    else if IsRemoteStakingScript coin.GetScriptPubKey then acc
    else (new_total, acc.2 ++ [⟨coin.GetOutPoint, []⟩])

/-- `BlockBuilderImpl::CombineCoins`, over the coin set in its order: the combined amount, and
the inputs with the combined coins appended. -/
def CombineCoins (settings : Settings) (coins : List Staking.Coin)
    (stake : Staking.Coin) (tx_inputs : List TxIn) :
    CAmount × List TxIn :=
  coins.foldl (combineCoin settings stake) (stake.GetAmount, tx_inputs)

/-- The meta input of `BuildCoinbaseTransaction`: a null outpoint, and a script that pushes the
height with `CScriptNum::serialize` and then the snapshot hash. -/
def metaInput (target_height : Height) (snapshot_hash : Uint256) : TxIn :=
  ⟨COutPoint.null, pushVector (CScriptNum.serialize target_height.toNat) ++
    pushVector (ToByteVector 256 snapshot_hash)⟩

end UnitE.Proposer
