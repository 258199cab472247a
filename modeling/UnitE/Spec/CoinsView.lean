import UnitE.Spec.Coins

/-! The stack of coins views: caches over caches over the coins database (`coins.cpp`,
`CCoinsViewDB` in `txdb.cpp`). Each `CCoinsViewCache` reads through its base pointer, so a
read through the top fetches into every cache on the way down, and flushes into it: the
view under it merges the entries into its own cache or, at the bottom, writes them to the
database. Only the top of the stack is used, as a node's validation code does. -/

namespace UnitE

/-- A cache's coins map with the outpoints it holds, which `BatchWrite` walks. -/
structure CacheMap where
  entries : CCoinsMap
  keys : List COutPoint
  entries_eq_none : ∀ o, o ∉ keys → entries o = none

namespace CacheMap

/-- An empty map, and `cacheCoins.clear()`. -/
def empty : CacheMap := ⟨fun _ => none, [], fun _ _ => rfl⟩

/-- The map with the entry at `outpoint` set, or erased when `entry` is `none`. -/
def set (m : CacheMap) (outpoint : COutPoint) (entry : Option CCoinsCacheEntry) : CacheMap where
  entries := Function.update m.entries outpoint entry
  keys := if outpoint ∈ m.keys then m.keys else outpoint :: m.keys
  entries_eq_none o ho := by
    have hne : o ≠ outpoint := by
      rintro rfl
      split_ifs at ho with hmem
      · exact ho hmem
      · exact ho List.mem_cons_self
    have hkeys : o ∉ m.keys := fun hmem => ho (by split_ifs <;> simp [hmem])
    rw [Function.update_of_ne hne]
    exact m.entries_eq_none o hkeys

@[simp] theorem empty_entries (o : COutPoint) : empty.entries o = none := rfl

@[simp] theorem set_entries_self (m : CacheMap) (outpoint : COutPoint) (entry : Option CCoinsCacheEntry) :
    (m.set outpoint entry).entries outpoint = entry := by
  simp [set]

theorem set_entries_of_ne {m : CacheMap} {outpoint o : COutPoint} (entry : Option CCoinsCacheEntry)
    (hne : o ≠ outpoint) : (m.set outpoint entry).entries o = m.entries o := by
  simp [set, Function.update_of_ne hne]

end CacheMap

/-- `CCoinsViewCache::BatchWrite` at one outpoint: the child's entry `it` written over ours,
`itUs`. A clean child entry is skipped. A `FRESH` spent one over nothing is dropped, and a
spent one over a `FRESH` entry of ours erases it. Anything else is copied in dirty, and
`FRESH` only when it is new here and `FRESH` in the child. -/
def batchWriteEntry (itUs : Option CCoinsCacheEntry) : Option CCoinsCacheEntry → Option CCoinsCacheEntry
  | none => itUs
  | some it =>
    if !it.dirty then itUs
    else
      match itUs with
      | none => if it.fresh && it.coin.IsSpent then none else some ⟨it.coin, true, it.fresh⟩
      | some us => if us.fresh && it.coin.IsSpent then none else some ⟨it.coin, true, us.fresh⟩

/-- The logic error of `BatchWrite` at one outpoint: a dirty `FRESH` child entry over an
unspent entry of ours. -/
def misappliedFresh : Option CCoinsCacheEntry → Option CCoinsCacheEntry → Bool
  | some us, some it => it.dirty && it.fresh && !us.coin.IsSpent
  | _, _ => false

/-- Our map with the child's entries written over it. -/
def CacheMap.batchWrite (ours mapCoins : CacheMap) : CacheMap where
  entries o := batchWriteEntry (ours.entries o) (mapCoins.entries o)
  keys := mapCoins.keys ++ ours.keys
  entries_eq_none o ho := by
    rw [List.mem_append, not_or] at ho
    rw [mapCoins.entries_eq_none o ho.1, ours.entries_eq_none o ho.2]
    rfl

/-- The members of a `CCoinsViewCache` other than its base pointer. -/
structure CacheLayer (G : Type) where
  cacheCoins : CacheMap
  snapshotHash : SnapshotHash G
  hashBlock : Uint256

/-- A coins view with the views under it: the coins database with the snapshot hash it
stores, or a cache over the view its base pointer points to. -/
inductive CCoinsView (G : Type) where
  | db (coins : CoinsDB) (snapshotHash : SnapshotHash G)
  | cache (layer : CacheLayer G) (base : CCoinsView G)

namespace CacheLayer

variable {G : Type} (c : CacheLayer G)

/-- `FetchCoin`, given the base and its `GetCoin`: the cached entry, or the coin the base
returns, cached clean and `FRESH` when it is spent. Returns the entry with the cache and
the base as the read left them. -/
def FetchCoin {B : Type} (base : B) (baseGetCoin : COutPoint → Option Coin × B)
    (outpoint : COutPoint) : Option CCoinsCacheEntry × CacheLayer G × B :=
  match c.cacheCoins.entries outpoint with
  | some entry => (some entry, c, base)
  | none =>
    match baseGetCoin outpoint with
    | (none, base) => (none, c, base)
    | (some coin, base) =>
      let entry : CCoinsCacheEntry := ⟨coin, false, coin.IsSpent⟩
      (some entry, { c with cacheCoins := c.cacheCoins.set outpoint (some entry) }, base)

/-- `Uncache`: an entry with no flags is dropped. -/
def Uncache (outpoint : COutPoint) : CacheLayer G :=
  match c.cacheCoins.entries outpoint with
  | some entry =>
    if !entry.dirty && !entry.fresh then { c with cacheCoins := c.cacheCoins.set outpoint none }
    else c
  | none => c

def SetBestBlock (hashBlockIn : Uint256) : CacheLayer G := { c with hashBlock := hashBlockIn }

/-- `CCoinsViewCache::BatchWrite`: the child's map written into ours, and its block hash and
snapshot hash taken. The loop meets each outpoint of the child once and changes ours there
only, so it ends in the merge at every outpoint, or in the logic error when the merge at
some outpoint raises it. -/
def BatchWrite (mapCoins : CacheMap) (hashBlockIn : Uint256) (snapshotHashIn : SnapshotHash G) :
    Fallible (CacheLayer G) :=
  if mapCoins.keys.any fun o => misappliedFresh (c.cacheCoins.entries o) (mapCoins.entries o) then
    throw .logicError
  else pure ⟨c.cacheCoins.batchWrite mapCoins, snapshotHashIn, hashBlockIn⟩

variable [AddCommGroup G] (M : MultisetHash G)

/-- `AddCoin`, as `CCoinsViewCache.AddCoin` over the database. -/
def AddCoin (outpoint : COutPoint) (coin : Coin) (possible_overwrite : Bool) :
    Fallible (CacheLayer G) := do
  if coin.IsSpent then throw .assertion
  if IsUnspendable coin.out.scriptPubKey then return c
  let (existing, inserted) := match c.cacheCoins.entries outpoint with
    | some entry => (entry, false)
    | none => (CCoinsCacheEntry.empty, true)
  let fresh ← if !possible_overwrite then
      if !existing.coin.IsSpent then throw .logicError else pure !existing.dirty
    else pure false
  let hash := if !inserted && !existing.coin.IsSpent then
      c.snapshotHash.SubtractUTXO M (UTXO.ofCoin outpoint existing.coin)
    else c.snapshotHash
  let entry : CCoinsCacheEntry := ⟨coin, true, existing.fresh || fresh⟩
  pure { c with
    cacheCoins := c.cacheCoins.set outpoint (some entry)
    snapshotHash := hash.AddUTXO M (UTXO.ofCoin outpoint coin) }

/-- `SpendCoin`, given the base and its `GetCoin`: nothing without an entry; otherwise the
entry's UTXO leaves the snapshot hash, and the entry is erased when `FRESH` and else
cleared and made dirty. Returns the coin that was there. -/
def SpendCoin {B : Type} (base : B) (baseGetCoin : COutPoint → Option Coin × B)
    (outpoint : COutPoint) : Option Coin × CacheLayer G × B :=
  match c.FetchCoin base baseGetCoin outpoint with
  | (none, c, base) => (none, c, base)
  | (some entry, c, base) =>
    let c := { c with snapshotHash := c.snapshotHash.SubtractUTXO M (UTXO.ofCoin outpoint entry.coin) }
    let cacheCoins := c.cacheCoins.set outpoint
      (if entry.fresh then none else some ⟨Coin.empty, true, entry.fresh⟩)
    (some entry.coin, { c with cacheCoins := cacheCoins }, base)

end CacheLayer

namespace CCoinsView

variable {G : Type}

/-- `GetSnapshotHash`: the stored one of the database, a cache's own. -/
def GetSnapshotHash : CCoinsView G → SnapshotHash G
  | .db _ snapshotHash => snapshotHash
  | .cache c _ => c.snapshotHash

/-- `GetCoin`: the database's stored coin; through a cache, the fetched coin when it is
unspent. Returns the view as the read left it. -/
def GetCoin : CCoinsView G → COutPoint → Option Coin × CCoinsView G
  | .db coins snapshotHash, outpoint => (coins outpoint, .db coins snapshotHash)
  | .cache c base, outpoint =>
    let (entry, c, base) := c.FetchCoin base (GetCoin base) outpoint
    ((entry.map CCoinsCacheEntry.coin).filter (!·.IsSpent), .cache c base)

/-- `BatchWrite` into a view. The database (`CCoinsViewDB::BatchWrite`) asserts a block hash,
writes the dirty entries and stores the snapshot hash; a failing database write is not
modelled. A cache merges the entries into its own. -/
def BatchWrite : CCoinsView G → CacheMap → Uint256 → SnapshotHash G → Fallible (CCoinsView G)
  | .db coins _, mapCoins, hashBlock, snapshotHash =>
    if hashBlock = 0 then throw .assertion
    else pure (.db (fun o => CCoinsViewCache.writeEntry (coins o) (mapCoins.entries o)) snapshotHash)
  | .cache c base, mapCoins, hashBlock, snapshotHash =>
    (.cache · base) <$> c.BatchWrite mapCoins hashBlock snapshotHash

/-- `CCoinsViewCache(baseIn)`: an empty cache over `base`, with its snapshot hash and a null
block hash. -/
def newCache (base : CCoinsView G) : CCoinsView G :=
  .cache ⟨CacheMap.empty, base.GetSnapshotHash, 0⟩ base

/-- `Flush` of the cache `c` over `base`: the base's `BatchWrite` of its entries, block hash
and snapshot hash, and then its map cleared. -/
def Flush (c : CacheLayer G) (base : CCoinsView G) : Fallible (CCoinsView G) := do
  let base ← base.BatchWrite c.cacheCoins c.hashBlock c.snapshotHash
  pure (.cache { c with cacheCoins := CacheMap.empty } base)

/-- The unspent coin a view shows at an outpoint: what its `GetCoin` finds there. -/
def view (v : CCoinsView G) (outpoint : COutPoint) : Option Coin :=
  (v.GetCoin outpoint).1.filter (!·.IsSpent)

/-- The view and the views under it, top first. -/
def views : CCoinsView G → List (CCoinsView G)
  | .db coins snapshotHash => [.db coins snapshotHash]
  | .cache c base => .cache c base :: base.views

end CCoinsView

/-- A call on the top of the stack. -/
inductive CoinsOp where
  | getCoin (outpoint : COutPoint)
  | addCoin (outpoint : COutPoint) (coin : Coin) (possible_overwrite : Bool)
  | spendCoin (outpoint : COutPoint)
  | uncache (outpoint : COutPoint)
  | setBestBlock (hashBlock : Uint256)
  | flush
  | push
  | pop

namespace CCoinsView

variable {G : Type} [AddCommGroup G] (M : MultisetHash G)

/-- A call on the top cache of the stack, or a new cache over the top (`push`) and the top
cache destroyed (`pop`). Only `push` applies to the database alone; a call that raises
an error has no result. -/
def apply : CCoinsView G → CoinsOp → Option (CCoinsView G)
  | .db coins snapshotHash, .push => some (newCache (.db coins snapshotHash))
  | .db _ _, _ => none
  | .cache c base, .getCoin outpoint => some ((CCoinsView.cache c base).GetCoin outpoint).2
  | .cache c base, .addCoin outpoint coin possible_overwrite =>
    (c.AddCoin M outpoint coin possible_overwrite).toOption.map (.cache · base)
  | .cache c base, .spendCoin outpoint =>
    let (_, c, base) := c.SpendCoin M base base.GetCoin outpoint
    some (.cache c base)
  | .cache c base, .uncache outpoint => some (.cache (c.Uncache outpoint) base)
  | .cache c base, .setBestBlock hashBlock => some (.cache (c.SetBestBlock hashBlock) base)
  | .cache c base, .flush => (Flush c base).toOption
  | .cache c base, .push => some (newCache (.cache c base))
  | .cache _ base, .pop => some base

end CCoinsView

/-- The coin an entry shows: none when it is spent. -/
@[simp] theorem Coin.filter_unspent (coin : Coin) :
    (some coin).filter (!·.IsSpent) = if coin.IsSpent then none else some coin := by
  cases h : coin.IsSpent <;> simp [Option.filter, h]

namespace CacheLayer

variable {G B : Type} {c : CacheLayer G} {base : B} {baseGetCoin : COutPoint → Option Coin × B}
  {outpoint o : COutPoint}

theorem FetchCoin_of_cached {entry : CCoinsCacheEntry} (h : c.cacheCoins.entries outpoint = some entry) :
    c.FetchCoin base baseGetCoin outpoint = (some entry, c, base) := by
  simp [FetchCoin, h]

theorem FetchCoin_of_none (h : c.cacheCoins.entries outpoint = none) {base' : B}
    (hget : baseGetCoin outpoint = (none, base')) :
    c.FetchCoin base baseGetCoin outpoint = (none, c, base') := by
  simp [FetchCoin, h, hget]

theorem FetchCoin_of_base (h : c.cacheCoins.entries outpoint = none) {coin : Coin} {base' : B}
    (hget : baseGetCoin outpoint = (some coin, base')) :
    c.FetchCoin base baseGetCoin outpoint =
      (some ⟨coin, false, coin.IsSpent⟩,
        { c with cacheCoins := c.cacheCoins.set outpoint (some ⟨coin, false, coin.IsSpent⟩) }, base') := by
  simp [FetchCoin, h, hget]

/-- What a read does in a cache: it finds the entry there, or nothing when the base returns
nothing, or the base's coin, which it caches clean. -/
theorem FetchCoin_cases (c : CacheLayer G) (base : B) (baseGetCoin : COutPoint → Option Coin × B)
    (outpoint : COutPoint) :
    (∃ entry, c.cacheCoins.entries outpoint = some entry ∧
      c.FetchCoin base baseGetCoin outpoint = (some entry, c, base)) ∨
    (∃ base', c.cacheCoins.entries outpoint = none ∧ baseGetCoin outpoint = (none, base') ∧
      c.FetchCoin base baseGetCoin outpoint = (none, c, base')) ∨
    (∃ coin base', c.cacheCoins.entries outpoint = none ∧ baseGetCoin outpoint = (some coin, base') ∧
      c.FetchCoin base baseGetCoin outpoint =
        (some ⟨coin, false, coin.IsSpent⟩,
          { c with cacheCoins := c.cacheCoins.set outpoint (some ⟨coin, false, coin.IsSpent⟩) }, base')) := by
  cases hentry : c.cacheCoins.entries outpoint with
  | some entry => exact Or.inl ⟨entry, rfl, FetchCoin_of_cached hentry⟩
  | none =>
    rcases hget : baseGetCoin outpoint with ⟨_ | coin, base'⟩
    · exact Or.inr (Or.inl ⟨base', rfl, rfl, FetchCoin_of_none hentry hget⟩)
    · exact Or.inr (Or.inr ⟨coin, base', rfl, rfl, FetchCoin_of_base hentry hget⟩)

theorem FetchCoin_entries_self :
    (c.FetchCoin base baseGetCoin outpoint).2.1.cacheCoins.entries outpoint =
      (c.FetchCoin base baseGetCoin outpoint).1 := by
  rcases FetchCoin_cases c base baseGetCoin outpoint with
    ⟨entry, hentry, hfetch⟩ | ⟨base', hentry, -, hfetch⟩ | ⟨coin, base', -, -, hfetch⟩ <;>
    rw [hfetch]
  · exact hentry
  · exact hentry
  · simp

@[simp] theorem FetchCoin_snapshotHash :
    (c.FetchCoin base baseGetCoin outpoint).2.1.snapshotHash = c.snapshotHash := by
  unfold FetchCoin
  split
  · rfl
  · split <;> rfl

@[simp] theorem FetchCoin_hashBlock :
    (c.FetchCoin base baseGetCoin outpoint).2.1.hashBlock = c.hashBlock := by
  unfold FetchCoin
  split
  · rfl
  · split <;> rfl

section Update

variable [AddCommGroup G] (M : MultisetHash G) {coin : Coin}

theorem AddCoin_of_cached {entry : CCoinsCacheEntry} (hentry : c.cacheCoins.entries outpoint = some entry)
    (hspent : coin.IsSpent = false) (hspendable : IsUnspendable coin.out.scriptPubKey = false)
    (possible_overwrite : Bool) :
    c.AddCoin M outpoint coin possible_overwrite =
      if !possible_overwrite && !entry.coin.IsSpent then .error .logicError
      else .ok { c with
        cacheCoins := c.cacheCoins.set outpoint
          (some ⟨coin, true, entry.fresh || (!possible_overwrite && !entry.dirty)⟩)
        snapshotHash := (if entry.coin.IsSpent then c.snapshotHash
          else c.snapshotHash.SubtractUTXO M (UTXO.ofCoin outpoint entry.coin)).AddUTXO M
            (UTXO.ofCoin outpoint coin) } := by
  cases possible_overwrite <;> cases hold : entry.coin.IsSpent <;>
    simp [AddCoin, hentry, hspent, hspendable, hold]

theorem AddCoin_of_not_cached (hentry : c.cacheCoins.entries outpoint = none)
    (hspent : coin.IsSpent = false) (hspendable : IsUnspendable coin.out.scriptPubKey = false)
    (possible_overwrite : Bool) :
    c.AddCoin M outpoint coin possible_overwrite =
      .ok { c with
        cacheCoins := c.cacheCoins.set outpoint (some ⟨coin, true, !possible_overwrite⟩)
        snapshotHash := c.snapshotHash.AddUTXO M (UTXO.ofCoin outpoint coin) } := by
  cases possible_overwrite <;> simp [AddCoin, hentry, hspent, hspendable, CCoinsCacheEntry.empty]

theorem SpendCoin_of_fetch {c₁ : CacheLayer G} {base₁ : B} {entry : CCoinsCacheEntry}
    (h : c.FetchCoin base baseGetCoin outpoint = (some entry, c₁, base₁)) :
    c.SpendCoin M base baseGetCoin outpoint = (some entry.coin, { c₁ with
      cacheCoins := c₁.cacheCoins.set outpoint
        (if entry.fresh then none else some ⟨Coin.empty, true, entry.fresh⟩)
      snapshotHash := c₁.snapshotHash.SubtractUTXO M (UTXO.ofCoin outpoint entry.coin) }, base₁) := by
  simp [SpendCoin, h]

end Update

end CacheLayer

namespace CCoinsView

variable {G : Type} {c c' : CacheLayer G} {base : CCoinsView G} {v : CCoinsView G}
  {outpoint o : COutPoint}

theorem view_def : v.view outpoint = (v.GetCoin outpoint).1.filter (!·.IsSpent) := rfl

@[simp] theorem view_db (coins : CoinsDB) (snapshotHash : SnapshotHash G) :
    (CCoinsView.db coins snapshotHash).view outpoint = (coins outpoint).filter (!·.IsSpent) :=
  rfl

theorem view_cache_eq_fetch : (CCoinsView.cache c base).view outpoint =
    ((c.FetchCoin base base.GetCoin outpoint).1.map CCoinsCacheEntry.coin).filter (!·.IsSpent) := by
  simp [view_def, GetCoin, Option.filter_filter]

theorem view_cache : (CCoinsView.cache c base).view outpoint =
    match c.cacheCoins.entries outpoint with
    | some entry => (some entry.coin).filter (!·.IsSpent)
    | none => base.view outpoint := by
  rw [view_cache_eq_fetch]
  cases hentry : c.cacheCoins.entries outpoint with
  | some entry => simp [CacheLayer.FetchCoin, hentry]
  | none =>
    rcases hget : base.GetCoin outpoint with ⟨_ | coin, base'⟩ <;>
      simp [CacheLayer.FetchCoin, hentry, hget, view_def]

theorem view_of_cached {entry : CCoinsCacheEntry} (h : c.cacheCoins.entries outpoint = some entry) :
    (CCoinsView.cache c base).view outpoint = (some entry.coin).filter (!·.IsSpent) := by
  rw [view_cache, h]

theorem view_of_not_cached (h : c.cacheCoins.entries outpoint = none) :
    (CCoinsView.cache c base).view outpoint = base.view outpoint := by
  rw [view_cache, h]

theorem view_cache_congr {base' : CCoinsView G}
    (hentry : c'.cacheCoins.entries outpoint = c.cacheCoins.entries outpoint)
    (hbase : base'.view outpoint = base.view outpoint) :
    (CCoinsView.cache c' base').view outpoint = (CCoinsView.cache c base).view outpoint := by
  rw [view_cache, view_cache, hentry, hbase]

theorem GetCoin_cache_snd : ((CCoinsView.cache c base).GetCoin outpoint).2 =
    .cache (c.FetchCoin base base.GetCoin outpoint).2.1 (c.FetchCoin base base.GetCoin outpoint).2.2 :=
  rfl

/-- Reading through a view changes no coin it shows. -/
@[simp] theorem GetCoin_view (v : CCoinsView G) (outpoint : COutPoint) :
    (v.GetCoin outpoint).2.view = v.view := by
  induction v with
  | db coins snapshotHash => rfl
  | cache c base ih =>
    funext o
    show (CCoinsView.cache (c.FetchCoin base base.GetCoin outpoint).2.1
      (c.FetchCoin base base.GetCoin outpoint).2.2).view o = _
    cases hentry : c.cacheCoins.entries outpoint with
    | some entry => rw [CacheLayer.FetchCoin_of_cached hentry]
    | none =>
      rcases hget : base.GetCoin outpoint with ⟨_ | coin, base'⟩
      · -- nothing was fetched: the cache is as it was, over a base showing the same coins
        have hbase' : base'.view = base.view := by rw [← ih, hget]
        rw [CacheLayer.FetchCoin_of_none hentry hget]
        exact view_cache_congr rfl (by rw [hbase'])
      · -- the fetched coin is what the base showed there
        have hbase' : base'.view = base.view := by rw [← ih, hget]
        rw [CacheLayer.FetchCoin_of_base hentry hget]
        by_cases ho : o = outpoint
        · subst ho
          rw [view_of_cached (CacheMap.set_entries_self _ _ _), view_of_not_cached hentry, view_def,
            hget]
        · exact view_cache_congr (CacheMap.set_entries_of_ne _ ho) (by rw [hbase'])

@[simp] theorem GetCoin_GetSnapshotHash (v : CCoinsView G) (outpoint : COutPoint) :
    (v.GetCoin outpoint).2.GetSnapshotHash = v.GetSnapshotHash := by
  cases v with
  | db coins snapshotHash => rfl
  | cache c base => exact CacheLayer.FetchCoin_snapshotHash

section Flush

variable {c₂ : CacheLayer G} {base₂ : CCoinsView G}

@[simp] theorem CacheMap.batchWrite_entries (ours mapCoins : CacheMap) (o : COutPoint) :
    (ours.batchWrite mapCoins).entries o = batchWriteEntry (ours.entries o) (mapCoins.entries o) :=
  rfl

theorem view_of_empty (h : c.cacheCoins = CacheMap.empty) : (CCoinsView.cache c base).view = base.view := by
  funext o
  exact view_of_not_cached (by rw [h]; rfl)

theorem Flush_db (c : CacheLayer G) (coins : CoinsDB) (snapshotHash : SnapshotHash G) :
    Flush c (.db coins snapshotHash) =
      if c.hashBlock = 0 then .error .assertion
      else .ok (.cache { c with cacheCoins := CacheMap.empty }
        (.db (fun o => CCoinsViewCache.writeEntry (coins o) (c.cacheCoins.entries o)) c.snapshotHash)) := by
  simp only [Flush, BatchWrite]
  split_ifs <;> rfl

theorem Flush_cache (c c₂ : CacheLayer G) (base₂ : CCoinsView G) :
    Flush c (.cache c₂ base₂) =
      (fun c₂' => .cache { c with cacheCoins := CacheMap.empty } (.cache c₂' base₂)) <$>
        c₂.BatchWrite c.cacheCoins c.hashBlock c.snapshotHash := by
  simp only [Flush, BatchWrite]
  cases c₂.BatchWrite c.cacheCoins c.hashBlock c.snapshotHash <;> rfl

end Flush

end CCoinsView

end UnitE
