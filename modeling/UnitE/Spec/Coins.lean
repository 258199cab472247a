import Mathlib.Algebra.Group.Defs
import UnitE.Lib.Except
import UnitE.Spec.Transaction

/-! The coins cache `CCoinsViewCache` over the coins database, with the snapshot hash it
keeps up to date (`coins.cpp`, `CCoinsViewDB::BatchWrite`). The snapshot hash is a
multiset hash: UTXOs are mapped into a commutative group (`secp256k1_multiset`), added and
subtracted there, and a digest with the stake modifier and the chain work finishes it.
The group, the map and the digest are parameters (`MultisetHash`). -/

namespace UnitE

/-- `snapshot::UTXO`: an outpoint with its coin. -/
structure UTXO where
  out_point : COutPoint
  height : UInt32
  tx_type : TxType
  tx_out : CTxOut
  deriving DecidableEq, Repr

/-- `UTXO(out, coin)`. -/
def UTXO.ofCoin (out : COutPoint) (coin : Coin) : UTXO := ⟨out, coin.nHeight, coin.tx_type, coin.out⟩

/-- The multiset hash behind `SnapshotHash`: the group element of a UTXO, of the stake
modifier with the chain work, and the digest of a group element. -/
structure MultisetHash (G : Type) [AddCommGroup G] where
  element : UTXO → G
  metadata : Uint256 → Uint256 → G
  digest : G → Uint256

/-- `SnapshotHash`: the sum of the UTXOs added and not subtracted. -/
structure SnapshotHash (G : Type) where
  m_multiset : G
  deriving DecidableEq

namespace SnapshotHash

variable {G : Type} [AddCommGroup G] (M : MultisetHash G) (h : SnapshotHash G)

/-- `SnapshotHash()`, and `Clear`. -/
def empty : SnapshotHash G := ⟨0⟩

def AddUTXO (utxo : UTXO) : SnapshotHash G := ⟨h.m_multiset + M.element utxo⟩

def SubtractUTXO (utxo : UTXO) : SnapshotHash G := ⟨h.m_multiset - M.element utxo⟩

/-- `GetHash`: the digest of the sum with the stake modifier and the chain work added. -/
def GetHash (stake_modifier chain_work : Uint256) : Uint256 :=
  M.digest (h.m_multiset + M.metadata stake_modifier chain_work)

end SnapshotHash

/-- `CTxOut::IsNull`: the value of a cleared output. -/
def CTxOut.IsNull (out : CTxOut) : Bool := out.nValue == -1

def Coin.IsSpent (coin : Coin) : Bool := coin.out.IsNull

/-- `Coin()` and `Coin::Clear`: a spent coin. -/
def Coin.empty : Coin := ⟨⟨-1, []⟩, .REGULAR, 0⟩

@[simp] theorem Coin.empty_IsSpent : Coin.empty.IsSpent = true := rfl

/-- `CCoinsCacheEntry`: a coin with the `DIRTY` and `FRESH` flags. -/
structure CCoinsCacheEntry where
  coin : Coin
  dirty : Bool
  fresh : Bool
  deriving DecidableEq, Repr

/-- An entry that `emplace` creates: a spent coin and no flags. -/
def CCoinsCacheEntry.empty : CCoinsCacheEntry := ⟨Coin.empty, false, false⟩

/-- `CCoinsMap`, by outpoint. -/
abbrev CCoinsMap := COutPoint → Option CCoinsCacheEntry

/-- The unspent coins of the coins database, by outpoint. -/
abbrev CoinsDB := COutPoint → Option Coin

/-- `CCoinsViewCache` over the coins database `base`, with the database's snapshot hash. -/
structure CCoinsViewCache (G : Type) where
  base : CoinsDB
  baseSnapshotHash : SnapshotHash G
  cacheCoins : CCoinsMap
  snapshotHash : SnapshotHash G
  hashBlock : Uint256

namespace CCoinsViewCache

variable {G : Type} [AddCommGroup G] (M : MultisetHash G) (v : CCoinsViewCache G)

/-- `FetchCoin`: the cached entry, or the database's coin, which is then cached clean, and
`FRESH` when it is spent. -/
def FetchCoin (outpoint : COutPoint) : Option CCoinsCacheEntry × CCoinsViewCache G :=
  match v.cacheCoins outpoint with
  | some entry => (some entry, v)
  | none =>
    match v.base outpoint with
    | none => (none, v)
    | some coin =>
      let entry : CCoinsCacheEntry := ⟨coin, false, coin.IsSpent⟩
      (some entry, { v with cacheCoins := Function.update v.cacheCoins outpoint (some entry) })

def HaveCoin (outpoint : COutPoint) : Bool × CCoinsViewCache G :=
  let (entry, v) := v.FetchCoin outpoint
  (entry.any fun e => !e.coin.IsSpent, v)

/-- `AccessCoin`: the coin, or a spent one when there is none. -/
def AccessCoin (outpoint : COutPoint) : Coin × CCoinsViewCache G :=
  let (entry, v) := v.FetchCoin outpoint
  ((entry.map CCoinsCacheEntry.coin).getD Coin.empty, v)

/-- `AddCoin`. An unspendable output is not added. Without `possible_overwrite` an unspent
entry is a logic error; with it, an unspent entry is replaced and its UTXO subtracted from
the snapshot hash. -/
def AddCoin (outpoint : COutPoint) (coin : Coin) (possible_overwrite : Bool) :
    Fallible (CCoinsViewCache G) := do
  if coin.IsSpent then throw .assertion
  if IsUnspendable coin.out.scriptPubKey then return v
  let (existing, inserted) := match v.cacheCoins outpoint with
    | some entry => (entry, false)
    | none => (CCoinsCacheEntry.empty, true)
  let fresh ← if !possible_overwrite then
      if !existing.coin.IsSpent then throw .logicError else pure !existing.dirty
    else pure false
  let hash := if !inserted && !existing.coin.IsSpent then
      v.snapshotHash.SubtractUTXO M (UTXO.ofCoin outpoint existing.coin)
    else v.snapshotHash
  let entry : CCoinsCacheEntry := ⟨coin, true, existing.fresh || fresh⟩
  pure { v with
    cacheCoins := Function.update v.cacheCoins outpoint (some entry)
    snapshotHash := hash.AddUTXO M (UTXO.ofCoin outpoint coin) }

/-- `GetCoin`: the coin at the outpoint when it is unspent, fetched into the cache. -/
def GetCoin (outpoint : COutPoint) : Option Coin × CCoinsViewCache G :=
  let (entry, v) := v.FetchCoin outpoint
  ((entry.map CCoinsCacheEntry.coin).filter (!·.IsSpent), v)

/-- `SpendCoin`: false without a coin; otherwise the UTXO is subtracted from the snapshot
hash, and the entry is erased when fresh or else cleared and marked dirty. Returns the
coin that was there. -/
def SpendCoin (outpoint : COutPoint) : Option Coin × CCoinsViewCache G :=
  match v.FetchCoin outpoint with
  | (none, v) => (none, v)
  | (some entry, v) =>
    let v := { v with snapshotHash := v.snapshotHash.SubtractUTXO M (UTXO.ofCoin outpoint entry.coin) }
    let cacheCoins := Function.update v.cacheCoins outpoint
      (if entry.fresh then none else some ⟨Coin.empty, true, entry.fresh⟩)
    (some entry.coin, { v with cacheCoins := cacheCoins })

/-- `CCoinsViewDB::BatchWrite` at one outpoint: a dirty spent coin is erased, a dirty
unspent one written, anything else left as it was. -/
def writeEntry (stored : Option Coin) : Option CCoinsCacheEntry → Option Coin
  | some entry => if !entry.dirty then stored else if entry.coin.IsSpent then none else some entry.coin
  | none => stored

/-- `Flush`: the entries are written to the database with the snapshot hash, and the cache
is emptied. A failing database write is not modelled. -/
def Flush : CCoinsViewCache G :=
  { v with
    base := fun outpoint => writeEntry (v.base outpoint) (v.cacheCoins outpoint)
    baseSnapshotHash := v.snapshotHash
    cacheCoins := fun _ => none }

/-- `ClearCoins`: the database's coins, the cache and the snapshot hash are cleared. -/
def ClearCoins : CCoinsViewCache G :=
  { v with base := fun _ => none, cacheCoins := fun _ => none, snapshotHash := SnapshotHash.empty }

omit [AddCommGroup G] in
@[simp] theorem Flush_snapshotHash : v.Flush.snapshotHash = v.snapshotHash := rfl

@[simp] theorem ClearCoins_snapshotHash : v.ClearCoins.snapshotHash = SnapshotHash.empty := rfl

theorem AddCoin_of_unspendable (outpoint : COutPoint) {coin : Coin} (possible_overwrite : Bool)
    (h : IsUnspendable coin.out.scriptPubKey = true) :
    v.AddCoin M outpoint coin possible_overwrite = .error .assertion ∨
      v.AddCoin M outpoint coin possible_overwrite = .ok v := by
  by_cases hspent : coin.IsSpent = true
  · left
    simp [AddCoin, hspent]
  · right
    simp [AddCoin, hspent, h]

end CCoinsViewCache

namespace CCoinsViewCache

variable {G : Type} (v : CCoinsViewCache G)

/-- The unspent coins the view shows, by outpoint: what `GetCoin` finds. -/
def coins (outpoint : COutPoint) : Option Coin := (v.GetCoin outpoint).1

/-- A fresh entry hides no unspent coin of the base: the `FRESH` flag is right at the
outpoint. -/
def FreshOk (outpoint : COutPoint) : Prop :=
  ∀ entry, v.cacheCoins outpoint = some entry → entry.fresh = true →
    (v.base outpoint).filter (!·.IsSpent) = none

variable {v} {outpoint o : COutPoint}

/-- The coin a view shows: an unspent cached coin, or when nothing is cached an unspent coin
of the base. -/
theorem coins_def : v.coins outpoint =
    match v.cacheCoins outpoint with
    | some entry => if entry.coin.IsSpent then none else some entry.coin
    | none => (v.base outpoint).filter (!·.IsSpent) := by
  cases hentry : v.cacheCoins outpoint with
  | some entry => by_cases hspent : entry.coin.IsSpent = true <;> simp [coins, GetCoin, FetchCoin, hentry, hspent]
  | none => cases hbase : v.base outpoint <;> simp [coins, GetCoin, FetchCoin, hentry, hbase]

theorem coins_of_cached {entry : CCoinsCacheEntry} (h : v.cacheCoins outpoint = some entry) :
    v.coins outpoint = if entry.coin.IsSpent then none else some entry.coin := by
  rw [coins_def, h]

theorem coins_of_not_cached (h : v.cacheCoins outpoint = none) :
    v.coins outpoint = (v.base outpoint).filter (!·.IsSpent) := by
  rw [coins_def, h]

theorem coins_congr {w : CCoinsViewCache G} (hcache : v.cacheCoins outpoint = w.cacheCoins outpoint)
    (hbase : v.base outpoint = w.base outpoint) : v.coins outpoint = w.coins outpoint := by
  cases hentry : v.cacheCoins outpoint with
  | none => rw [coins_of_not_cached hentry, coins_of_not_cached (hcache ▸ hentry), hbase]
  | some entry => rw [coins_of_cached hentry, coins_of_cached (hcache ▸ hentry)]

theorem FreshOk_congr {w : CCoinsViewCache G} (hcache : v.cacheCoins outpoint = w.cacheCoins outpoint)
    (hbase : v.base outpoint = w.base outpoint) (h : v.FreshOk outpoint) : w.FreshOk outpoint := by
  intro entry hentry hfresh
  rw [← hbase]
  exact h entry (hcache.trans hentry) hfresh

@[simp] theorem FetchCoin_base : (v.FetchCoin outpoint).2.base = v.base := by
  unfold FetchCoin
  split
  · rfl
  · split <;> rfl

theorem FetchCoin_cacheCoins_of_ne (hne : o ≠ outpoint) :
    (v.FetchCoin outpoint).2.cacheCoins o = v.cacheCoins o := by
  unfold FetchCoin
  split
  · rfl
  · split
    · rfl
    · simp [Function.update_of_ne hne]

/-- Fetching caches a clean copy of the base's coin, which the view shows already. -/
@[simp] theorem FetchCoin_coins : (v.FetchCoin outpoint).2.coins = v.coins := by
  funext o
  by_cases hne : o = outpoint
  · subst hne
    cases hentry : v.cacheCoins o with
    | some entry => simp [FetchCoin, hentry]
    | none =>
      cases hbase : v.base o with
      | none => simp [FetchCoin, hentry, hbase]
      | some coin =>
        rw [coins_of_not_cached hentry, hbase]
        rw [coins_of_cached (by simp [FetchCoin, hentry, hbase] : (v.FetchCoin o).2.cacheCoins o =
          some ⟨coin, false, coin.IsSpent⟩)]
        by_cases hspent : coin.IsSpent = true <;> simp [hspent, Option.filter]
  · exact coins_congr (FetchCoin_cacheCoins_of_ne hne) (by simp)

theorem FetchCoin_FreshOk (h : v.FreshOk o) : (v.FetchCoin outpoint).2.FreshOk o := by
  by_cases hne : o = outpoint
  · subst hne
    cases hentry : v.cacheCoins o with
    | some entry =>
      have hfetch : (v.FetchCoin o).2 = v := by simp [FetchCoin, hentry]
      rw [hfetch]
      exact h
    | none =>
      cases hbase : v.base o with
      | none =>
        have hfetch : (v.FetchCoin o).2 = v := by simp [FetchCoin, hentry, hbase]
        rw [hfetch]
        exact h
      | some coin =>
        -- the fetched entry is fresh only when the base's coin is spent
        intro entry hcached hfresh
        simp [FetchCoin, hentry, hbase] at hcached
        simp [← hcached] at hfresh
        simp [hbase, hfresh]
  · exact FreshOk_congr (FetchCoin_cacheCoins_of_ne hne).symm (by simp) h

@[simp] theorem HaveCoin_snd : (v.HaveCoin outpoint).2 = (v.FetchCoin outpoint).2 := rfl

@[simp] theorem AccessCoin_snd : (v.AccessCoin outpoint).2 = (v.FetchCoin outpoint).2 := rfl

theorem HaveCoin_fst : (v.HaveCoin outpoint).1 = (v.coins outpoint).isSome := by
  rcases hfetch : v.FetchCoin outpoint with ⟨entry, w⟩
  cases entry with
  | none => simp [HaveCoin, coins, GetCoin, hfetch]
  | some e => cases hspent : e.coin.IsSpent <;> simp [HaveCoin, coins, GetCoin, hfetch, hspent]

theorem IsSpent_of_coins {coin : Coin} (h : v.coins outpoint = some coin) :
    coin.IsSpent = false := by
  rw [coins_def] at h
  split at h
  · split at h
    · cases h
    · rename_i hspent
      cases h
      exact Bool.eq_false_iff.mpr hspent
  · obtain ⟨-, h⟩ := Option.filter_eq_some_iff.mp h
    simpa using h

theorem AccessCoin_of_coins {coin : Coin} (h : v.coins outpoint = some coin) :
    (v.AccessCoin outpoint).1 = coin := by
  rcases hfetch : v.FetchCoin outpoint with ⟨entry, w⟩
  cases entry with
  | none => simp [coins, GetCoin, hfetch] at h
  | some e =>
    simp only [coins, GetCoin, hfetch, Option.map_some, Option.filter_some] at h
    split at h <;> simp_all [AccessCoin]

theorem AccessCoin_IsSpent (h : v.coins outpoint = none) : (v.AccessCoin outpoint).1.IsSpent = true := by
  rcases hfetch : v.FetchCoin outpoint with ⟨entry, w⟩
  cases entry with
  | none => simp [AccessCoin, hfetch]
  | some e =>
    simp only [coins, GetCoin, hfetch, Option.map_some, Option.filter_some] at h
    split at h <;> simp_all [AccessCoin]

/-- `w` shows the coins `v` shows at the outpoints `P` leaves alone, over the same base, and
keeps the `FRESH` flags right there that `v` had right. -/
structure CoinsFrame (P : COutPoint → Prop) (v w : CCoinsViewCache G) : Prop where
  base : w.base = v.base
  coins : ∀ o, P o → w.coins o = v.coins o
  fresh : ∀ o, P o → v.FreshOk o → w.FreshOk o

namespace CoinsFrame

variable {P Q : COutPoint → Prop} {u w : CCoinsViewCache G}

theorem refl : CoinsFrame P v v := ⟨rfl, fun _ _ => rfl, fun _ _ h => h⟩

theorem trans (h₁ : CoinsFrame P u v) (h₂ : CoinsFrame P v w) : CoinsFrame P u w :=
  ⟨h₂.base.trans h₁.base, fun o ho => (h₂.coins o ho).trans (h₁.coins o ho),
    fun o ho h => h₂.fresh o ho (h₁.fresh o ho h)⟩

theorem mono (hPQ : ∀ o, Q o → P o) (h : CoinsFrame P v w) : CoinsFrame Q v w :=
  ⟨h.base, fun o ho => h.coins o (hPQ o ho), fun o ho => h.fresh o (hPQ o ho)⟩

theorem of_cacheCoins (hbase : w.base = v.base)
    (hcache : ∀ o, o ≠ outpoint → w.cacheCoins o = v.cacheCoins o) :
    CoinsFrame (· ≠ outpoint) v w :=
  ⟨hbase, fun o ho => coins_congr (hcache o ho) (by rw [hbase]),
    fun o ho => FreshOk_congr (hcache o ho).symm (by rw [hbase])⟩

end CoinsFrame

theorem FetchCoin_coinsFrame (P : COutPoint → Prop) : CoinsFrame P v (v.FetchCoin outpoint).2 :=
  ⟨FetchCoin_base, fun o _ => by rw [FetchCoin_coins], fun _ _ h => FetchCoin_FreshOk h⟩

section Update

variable [AddCommGroup G] (M : MultisetHash G) {coin : Coin}

/-- `AddCoin` over a cached entry: a logic error when it is unspent and no overwrite was
announced; otherwise the entry is replaced, dirty, and fresh when it was or when a clean
spent entry is filled without overwrite; the old coin leaves the hash if it was unspent. -/
theorem AddCoin_of_cached {entry : CCoinsCacheEntry} (hentry : v.cacheCoins outpoint = some entry)
    (hspent : coin.IsSpent = false) (hspendable : IsUnspendable coin.out.scriptPubKey = false)
    (possible_overwrite : Bool) :
    v.AddCoin M outpoint coin possible_overwrite =
      if !possible_overwrite && !entry.coin.IsSpent then .error .logicError
      else .ok { v with
        cacheCoins := Function.update v.cacheCoins outpoint
          (some ⟨coin, true, entry.fresh || (!possible_overwrite && !entry.dirty)⟩)
        snapshotHash := (if entry.coin.IsSpent then v.snapshotHash
          else v.snapshotHash.SubtractUTXO M (UTXO.ofCoin outpoint entry.coin)).AddUTXO M
            (UTXO.ofCoin outpoint coin) } := by
  cases possible_overwrite <;> cases hold : entry.coin.IsSpent <;>
    simp [AddCoin, hentry, hspent, hspendable, hold]

/-- `AddCoin` at an outpoint the cache does not hold: a new dirty entry, fresh unless an
overwrite was announced, whatever the base holds there. -/
theorem AddCoin_of_not_cached (hentry : v.cacheCoins outpoint = none)
    (hspent : coin.IsSpent = false) (hspendable : IsUnspendable coin.out.scriptPubKey = false)
    (possible_overwrite : Bool) :
    v.AddCoin M outpoint coin possible_overwrite =
      .ok { v with
        cacheCoins := Function.update v.cacheCoins outpoint (some ⟨coin, true, !possible_overwrite⟩)
        snapshotHash := v.snapshotHash.AddUTXO M (UTXO.ofCoin outpoint coin) } := by
  cases possible_overwrite <;> simp [AddCoin, hentry, hspent, hspendable, CCoinsCacheEntry.empty]

theorem AddCoin_frame {possible_overwrite : Bool} {v' : CCoinsViewCache G}
    (h : v.AddCoin M outpoint coin possible_overwrite = .ok v') :
    v'.base = v.base ∧ ∀ o, o ≠ outpoint → v'.cacheCoins o = v.cacheCoins o := by
  by_cases hspent : coin.IsSpent = true
  · simp [AddCoin, hspent] at h
  by_cases hspendable : IsUnspendable coin.out.scriptPubKey = true
  · rcases AddCoin_of_unspendable M v outpoint possible_overwrite hspendable with herr | hok
    · rw [herr] at h
      cases h
    · rw [hok] at h
      cases h
      exact ⟨rfl, fun _ _ => rfl⟩
  simp only [Bool.not_eq_true] at hspent hspendable
  cases hentry : v.cacheCoins outpoint with
  | none =>
    rw [AddCoin_of_not_cached M hentry hspent hspendable] at h
    cases h
    exact ⟨rfl, fun o hne => Function.update_of_ne hne _ _⟩
  | some entry =>
    rw [AddCoin_of_cached M hentry hspent hspendable] at h
    split at h
    · cases h
    · cases h
      exact ⟨rfl, fun o hne => Function.update_of_ne hne _ _⟩

theorem AddCoin_coinsFrame {possible_overwrite : Bool} {v' : CCoinsViewCache G}
    (h : v.AddCoin M outpoint coin possible_overwrite = .ok v') : CoinsFrame (· ≠ outpoint) v v' :=
  CoinsFrame.of_cacheCoins (AddCoin_frame M h).1 (AddCoin_frame M h).2

theorem AddCoin_ok_of_overwrite (hspent : coin.IsSpent = false) :
    ∃ v', v.AddCoin M outpoint coin true = .ok v' := by
  by_cases hspendable : IsUnspendable coin.out.scriptPubKey = true
  · exact ⟨v, by simp [AddCoin, hspent, hspendable]⟩
  simp only [Bool.not_eq_true] at hspendable
  cases hentry : v.cacheCoins outpoint with
  | none => exact ⟨_, AddCoin_of_not_cached M hentry hspent hspendable true⟩
  | some entry => simp [AddCoin_of_cached M hentry hspent hspendable]

/-- `SpendCoin` of a cached entry: its coin is returned and leaves the hash; the entry is
erased when fresh, and otherwise cleared and made dirty. -/
theorem SpendCoin_of_cached {entry : CCoinsCacheEntry} (hentry : v.cacheCoins outpoint = some entry) :
    v.SpendCoin M outpoint = (some entry.coin, { v with
      snapshotHash := v.snapshotHash.SubtractUTXO M (UTXO.ofCoin outpoint entry.coin)
      cacheCoins := Function.update v.cacheCoins outpoint
        (if entry.fresh then none else some ⟨Coin.empty, true, entry.fresh⟩) }) := by
  simp [SpendCoin, FetchCoin, hentry]

/-- `SpendCoin` of a coin of the base: it is fetched, returned, and left as a dirty spent
entry, or erased when it was spent and so fetched `FRESH`. -/
theorem SpendCoin_of_base (hentry : v.cacheCoins outpoint = none) (hbase : v.base outpoint = some coin) :
    v.SpendCoin M outpoint = (some coin, { v with
      snapshotHash := v.snapshotHash.SubtractUTXO M (UTXO.ofCoin outpoint coin)
      cacheCoins := Function.update v.cacheCoins outpoint
        (if coin.IsSpent then none else some ⟨Coin.empty, true, false⟩) }) := by
  cases hspent : coin.IsSpent <;> simp [SpendCoin, FetchCoin, hentry, hbase, hspent]

theorem SpendCoin_of_none (hentry : v.cacheCoins outpoint = none) (hbase : v.base outpoint = none) :
    v.SpendCoin M outpoint = (none, v) := by
  simp [SpendCoin, FetchCoin, hentry, hbase]

theorem SpendCoin_frame : (v.SpendCoin M outpoint).2.base = v.base ∧
    ∀ o, o ≠ outpoint → (v.SpendCoin M outpoint).2.cacheCoins o = v.cacheCoins o := by
  cases hentry : v.cacheCoins outpoint with
  | some entry =>
    rw [SpendCoin_of_cached M hentry]
    exact ⟨rfl, fun o hne => Function.update_of_ne hne _ _⟩
  | none =>
    cases hbase : v.base outpoint with
    | none =>
      rw [SpendCoin_of_none M hentry hbase]
      exact ⟨rfl, fun _ _ => rfl⟩
    | some coin =>
      rw [SpendCoin_of_base M hentry hbase]
      exact ⟨rfl, fun o hne => Function.update_of_ne hne _ _⟩

theorem SpendCoin_coinsFrame : CoinsFrame (· ≠ outpoint) v (v.SpendCoin M outpoint).2 :=
  CoinsFrame.of_cacheCoins (SpendCoin_frame M).1 (SpendCoin_frame M).2

/-- Spending the unspent coin a view shows returns it and leaves no coin there, when the
entry's `FRESH` flag is right. -/
theorem SpendCoin_of_coins (hcoin : v.coins outpoint = some coin) (hfresh : v.FreshOk outpoint) :
    (v.SpendCoin M outpoint).1 = some coin ∧ (v.SpendCoin M outpoint).2.coins outpoint = none ∧
      (v.SpendCoin M outpoint).2.FreshOk outpoint := by
  cases hentry : v.cacheCoins outpoint with
  | some entry =>
    rw [coins_of_cached hentry] at hcoin
    have hcoin' : entry.coin = coin := by
      split at hcoin
      · cases hcoin
      · exact Option.some.inj hcoin
    rw [SpendCoin_of_cached M hentry]
    by_cases hfr : entry.fresh = true
    · -- a fresh entry is erased, and the base has nothing there
      have hbase := hfresh entry hentry hfr
      refine ⟨by rw [hcoin'], by simp [coins_def, hfr, hbase], ?_⟩
      intro e he
      simp [hfr] at he
    · refine ⟨by rw [hcoin'], by simp [coins_def, hfr], ?_⟩
      intro e he
      simp [hfr] at he
      simp [← he] at hfr ⊢
  | none =>
    rw [coins_of_not_cached hentry] at hcoin
    obtain ⟨hbase, hunspent⟩ := Option.filter_eq_some_iff.mp hcoin
    have hspent : coin.IsSpent = false := by simpa using hunspent
    rw [SpendCoin_of_base M hentry hbase, hspent]
    refine ⟨rfl, by simp [coins_def], ?_⟩
    intro e he hfr
    simp at he
    subst he
    simp at hfr

end Update

end CCoinsViewCache

end UnitE
