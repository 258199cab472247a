import UnitE.Spec.CoinsView
import UnitE.Lib.Finsum
import UnitE.Proofs.Snapshot
import Mathlib.Tactic.Abel

/-! The snapshot hash of every view of the stack commits to the coins the view shows: it is
the sum, in the multiset hash's group, of the UTXOs at the outpoints where the view's
`GetCoin` finds an unspent coin. The invariant behind it is on the entries of each cache
relative to the view under it: a clean entry shows what the base shows, and a `FRESH` one
stands over no unspent coin of the base. Reads fetch clean copies, `Flush` merges the
entries so that the base then shows what the cache showed, and the hash is moved by every
change of a coin; `AddCoin` must not hide an unspent coin of the base. -/

namespace UnitE

namespace CCoinsView

variable {G : Type} {c c' : CacheLayer G} {base : CCoinsView G} {v : CCoinsView G}
  {outpoint o : COutPoint}

/-- The entries of a cache agree with the view under it: a clean entry shows what the base
shows, and a `FRESH` one stands over no unspent coin of the base. -/
structure EntriesOk (m : CacheMap) (base : CCoinsView G) : Prop where
  clean : ∀ o entry, m.entries o = some entry → entry.dirty = false →
    (some entry.coin).filter (!·.IsSpent) = base.view o
  fresh : ∀ o entry, m.entries o = some entry → entry.fresh = true → base.view o = none

namespace EntriesOk

variable {m : CacheMap} {base' : CCoinsView G}

theorem empty : EntriesOk CacheMap.empty base :=
  ⟨fun _ _ h => (by simp at h), fun _ _ h => (by simp at h)⟩

theorem of_view (h : EntriesOk m base) (hview : base'.view = base.view) : EntriesOk m base' :=
  ⟨fun o entry he hd => by rw [hview]; exact h.clean o entry he hd,
    fun o entry he hf => by rw [hview]; exact h.fresh o entry he hf⟩

/-- An entry may be written where, when clean, it shows what the base shows, and when
`FRESH`, the base shows no unspent coin. -/
theorem set (h : EntriesOk m base) {coin : Coin} {dirty fresh : Bool}
    (hclean : dirty = false → (some coin).filter (!·.IsSpent) = base.view outpoint)
    (hfresh : fresh = true → base.view outpoint = none) :
    EntriesOk (m.set outpoint (some ⟨coin, dirty, fresh⟩)) base := by
  constructor
  · intro o entry he hd
    by_cases ho : o = outpoint
    · subst ho
      simp at he
      rw [← he] at hd
      rw [← he]
      exact hclean hd
    · rw [CacheMap.set_entries_of_ne _ ho] at he
      exact h.clean o entry he hd
  · intro o entry he hf
    by_cases ho : o = outpoint
    · subst ho
      simp at he
      rw [← he] at hf
      exact hfresh hf
    · rw [CacheMap.set_entries_of_ne _ ho] at he
      exact h.fresh o entry he hf

theorem erase (h : EntriesOk m base) : EntriesOk (m.set outpoint none) base := by
  constructor
  · intro o entry he hd
    by_cases ho : o = outpoint
    · subst ho
      simp at he
    · rw [CacheMap.set_entries_of_ne _ ho] at he
      exact h.clean o entry he hd
  · intro o entry he hf
    by_cases ho : o = outpoint
    · subst ho
      simp at he
    · rw [CacheMap.set_entries_of_ne _ ho] at he
      exact h.fresh o entry he hf

end EntriesOk

section Hash

variable [AddCommGroup G] (M : MultisetHash G)

def utxoElement (outpoint : COutPoint) (coin : Option Coin) : G :=
  (coin.map fun coin => M.element (UTXO.ofCoin outpoint coin)).getD 0

@[simp] theorem utxoElement_none : utxoElement M outpoint none = 0 := rfl

@[simp] theorem utxoElement_some (coin : Coin) :
    utxoElement M outpoint (some coin) = M.element (UTXO.ofCoin outpoint coin) := rfl

noncomputable def utxoSum (v : CCoinsView G) : G := ∑ᶠ o, utxoElement M o (v.view o)

theorem utxoSum_congr {w : CCoinsView G} (h : w.view = v.view) : utxoSum M w = utxoSum M v := by
  simp only [utxoSum, h]

/-- The stack keeps its snapshot hashes: the database holds finitely many coins, every
cache's entries agree with its base, and the snapshot hash of every view is the sum of the
UTXOs it shows. -/
inductive StackOk : CCoinsView G → Prop
  | db {coins : CoinsDB} {snapshotHash : SnapshotHash G} (finite : {o | coins o ≠ none}.Finite)
    (hash : snapshotHash.m_multiset = utxoSum M (.db coins snapshotHash)) :
    StackOk (.db coins snapshotHash)
  | cache {c : CacheLayer G} {base : CCoinsView G} (entries : EntriesOk c.cacheCoins base)
    (hash : c.snapshotHash.m_multiset = utxoSum M (.cache c base)) (base_ok : StackOk base) :
    StackOk (.cache c base)

variable {M}

theorem StackOk.hash_eq (h : StackOk M v) : v.GetSnapshotHash.m_multiset = utxoSum M v := by
  cases h with
  | db _ hash => exact hash
  | cache _ hash _ => exact hash

theorem StackOk.finite (h : StackOk M v) : {o | v.view o ≠ none}.Finite := by
  induction h with
  | @db coins _ finite _ =>
    refine finite.subset fun o ho hnone => ho ?_
    simp [hnone]
  | @cache c base _ _ _ ih =>
    refine (c.cacheCoins.keys.finite_toSet.union ih).subset fun o ho => ?_
    by_cases hkey : o ∈ c.cacheCoins.keys
    · exact Or.inl hkey
    · right
      rwa [Set.mem_ofPred_eq, ← view_of_not_cached (c.cacheCoins.entries_eq_none o hkey)]

theorem StackOk.hasFiniteSupport (h : StackOk M v) :
    Function.HasFiniteSupport fun o => utxoElement M o (v.view o) := by
  refine h.finite.subset fun o ho hnone => ho ?_
  simp [hnone]

theorem StackOk.utxoSum_update (h : StackOk M v) {w : CCoinsView G}
    (hw : ∀ o, o ≠ outpoint → w.view o = v.view o) :
    utxoSum M w = utxoSum M v +
      (utxoElement M outpoint (w.view outpoint) - utxoElement M outpoint (v.view outpoint)) :=
  finsum_eq_add_sub_of_update h.hasFiniteSupport fun o ho => by rw [hw o ho]

/-- A read through the stack keeps it well-formed: every cache on the way down caches a clean
copy of what its base shows, `FRESH` when that is a spent coin of the database. -/
theorem StackOk.getCoin (h : StackOk M v) (outpoint : COutPoint) : StackOk M (v.GetCoin outpoint).2 := by
  induction h with
  | db finite hash => exact .db finite hash
  | @cache c base hentries hhash hbase ih =>
    have hview := GetCoin_view (.cache c base) outpoint
    rw [GetCoin_cache_snd] at hview ⊢
    have hhash' : (c.FetchCoin base base.GetCoin outpoint).2.1.snapshotHash.m_multiset =
        utxoSum M (.cache (c.FetchCoin base base.GetCoin outpoint).2.1
          (c.FetchCoin base base.GetCoin outpoint).2.2) := by
      rw [CacheLayer.FetchCoin_snapshotHash, hhash, utxoSum_congr M hview]
    rcases CacheLayer.FetchCoin_cases c base base.GetCoin outpoint with
      ⟨entry, -, hfetch⟩ | ⟨base', hentry, hget, hfetch⟩ | ⟨coin, base', hentry, hget, hfetch⟩ <;>
      rw [hfetch] at hhash' ⊢
    · exact .cache hentries hhash' hbase
    · -- nothing fetched: the base the read left shows the same coins
      have hbase' : base'.view = base.view := by rw [← GetCoin_view base outpoint, hget]
      rw [hget] at ih
      exact .cache (hentries.of_view hbase') hhash' ih
    · -- the fetched entry is clean and shows the base's coin
      have hbase' : base'.view = base.view := by rw [← GetCoin_view base outpoint, hget]
      have hshown : (some coin).filter (!·.IsSpent) = base.view outpoint := by
        rw [view_def, hget]
      rw [hget] at ih
      refine .cache ((hentries.of_view hbase').set (fun _ => by rw [hbase', hshown]) ?_) hhash' ih
      intro hspent
      rw [hbase', ← hshown]
      simp [hspent]

/-- The sum of the top cache with its entry at one outpoint replaced: its snapshot hash,
moved by the change of the UTXO shown there. -/
theorem StackOk.utxoSum_set (h : StackOk M (.cache c base)) {entry : Option CCoinsCacheEntry}
    (hmap : c'.cacheCoins = c.cacheCoins.set outpoint entry) :
    utxoSum M (.cache c' base) = c.snapshotHash.m_multiset +
      (utxoElement M outpoint ((CCoinsView.cache c' base).view outpoint) -
        utxoElement M outpoint ((CCoinsView.cache c base).view outpoint)) := by
  have hframe : ∀ o, o ≠ outpoint →
      (CCoinsView.cache c' base).view o = (CCoinsView.cache c base).view o := by
    intro o ho
    exact view_cache_congr (by rw [hmap]; exact CacheMap.set_entries_of_ne _ ho) rfl
  rw [h.utxoSum_update hframe, ← h.hash_eq]
  rfl

/-- The top cache with its entry at one outpoint replaced and its snapshot hash moved by the
change of the UTXO it shows there stays well-formed, when the new entry agrees with the
base. -/
theorem StackOk.set (h : StackOk M (.cache c base)) {entry : Option CCoinsCacheEntry}
    (hmap : c'.cacheCoins = c.cacheCoins.set outpoint entry) (hentries : EntriesOk c'.cacheCoins base)
    (hhash : c'.snapshotHash.m_multiset = c.snapshotHash.m_multiset +
      (utxoElement M outpoint ((CCoinsView.cache c' base).view outpoint) -
        utxoElement M outpoint ((CCoinsView.cache c base).view outpoint))) :
    StackOk M (.cache c' base) := by
  refine .cache hentries ?_ ?_
  · rw [hhash, h.utxoSum_set hmap]
  · cases h with
    | cache _ _ hbase => exact hbase

/-- `AddCoin` where the cache holds an entry or the base shows no unspent coin keeps the
stack well-formed: the coin replaces the one shown, in the view and in the hash. -/
theorem StackOk.addCoin (h : StackOk M (.cache c base)) {coin : Coin} {possible_overwrite : Bool}
    (hallowed : c.cacheCoins.entries outpoint ≠ none ∨ base.view outpoint = none)
    (hadd : c.AddCoin M outpoint coin possible_overwrite = .ok c') : StackOk M (.cache c' base) := by
  by_cases hspent : coin.IsSpent = true
  · simp [CacheLayer.AddCoin, hspent] at hadd
  by_cases hspendable : IsUnspendable coin.out.scriptPubKey = true
  · -- an unspendable coin is not added
    have hc' : c' = c := by simpa [CacheLayer.AddCoin, hspent, hspendable] using hadd.symm
    rw [hc']
    exact h
  simp only [Bool.not_eq_true] at hspent hspendable
  have hentries : EntriesOk c.cacheCoins base := by
    cases h with
    | cache hentries _ _ => exact hentries
  cases hentry : c.cacheCoins.entries outpoint with
  | none =>
    -- a new entry, over a base showing no coin
    have hnone : base.view outpoint = none := hallowed.resolve_left (by simp [hentry])
    rw [CacheLayer.AddCoin_of_not_cached M hentry hspent hspendable] at hadd
    cases hadd
    refine h.set rfl (hentries.set (fun h => by cases h) fun _ => hnone) ?_
    rw [view_of_cached (CacheMap.set_entries_self _ _ _), view_of_not_cached hentry, hnone]
    simp [hspent, SnapshotHash.AddUTXO]
  | some entry =>
    rw [CacheLayer.AddCoin_of_cached M hentry hspent hspendable] at hadd
    split at hadd
    · cases hadd
    rename_i hok
    cases hadd
    refine h.set rfl (hentries.set (fun h => by cases h) ?_) ?_
    · -- the entry is `FRESH` when it was, or when a clean spent entry is filled
      intro hfresh
      rcases Bool.or_eq_true_iff.mp hfresh with hfr | hclean
      · exact hentries.fresh outpoint entry hentry hfr
      · have hspent' : entry.coin.IsSpent = true := by
          revert hok hclean
          cases possible_overwrite <;> cases entry.coin.IsSpent <;> simp
        have hdirty : entry.dirty = false := by simpa using (Bool.and_eq_true_iff.mp hclean).2
        rw [← hentries.clean outpoint entry hentry hdirty]
        simp [hspent']
    · rw [view_of_cached (CacheMap.set_entries_self _ _ _), view_of_cached hentry]
      cases hold : entry.coin.IsSpent
      · -- an unspent coin was shown and leaves the hash
        simp [hold, hspent, SnapshotHash.AddUTXO, SnapshotHash.SubtractUTXO]
        abel
      · simp [hold, hspent, SnapshotHash.AddUTXO]

/-- Spending the unspent coin a cache shows keeps the stack well-formed: its UTXO leaves the
hash and no coin is shown there. -/
theorem StackOk.spendCoin (h : StackOk M (.cache c base))
    (hcoin : (CCoinsView.cache c base).view outpoint ≠ none) :
    StackOk M (.cache (c.SpendCoin M base base.GetCoin outpoint).2.1
      (c.SpendCoin M base base.GetCoin outpoint).2.2) := by
  -- the read first: it leaves a well-formed stack showing the same coins
  have hread := h.getCoin outpoint
  rw [GetCoin_cache_snd] at hread
  rw [view_cache_eq_fetch] at hcoin
  have hself : (c.FetchCoin base base.GetCoin outpoint).2.1.cacheCoins.entries outpoint =
      (c.FetchCoin base base.GetCoin outpoint).1 :=
    CacheLayer.FetchCoin_entries_self
  rcases hfetch : c.FetchCoin base base.GetCoin outpoint with ⟨_ | entry, c₁, base₁⟩
  · rw [hfetch] at hcoin
    exact absurd rfl hcoin
  rw [hfetch] at hread hcoin hself
  dsimp only at hread hcoin hself
  have hunspent : entry.coin.IsSpent = false := by simpa using hcoin
  rw [CacheLayer.SpendCoin_of_fetch M hfetch]
  have hentries : EntriesOk c₁.cacheCoins base₁ := by
    cases hread with
    | cache hentries _ _ => exact hentries
  by_cases hfr : entry.fresh = true
  · -- a `FRESH` entry is erased, over a base showing no coin
    have hnone : base₁.view outpoint = none := hentries.fresh outpoint entry hself hfr
    refine hread.set rfl (by simpa [hfr] using hentries.erase) ?_
    rw [if_pos hfr, view_of_not_cached (CacheMap.set_entries_self _ _ _), hnone, view_of_cached hself]
    simp [hunspent, SnapshotHash.SubtractUTXO]
    abel
  · -- otherwise it is cleared and made dirty
    have hentries' : EntriesOk (c₁.cacheCoins.set outpoint (some ⟨Coin.empty, true, false⟩)) base₁ :=
      hentries.set (fun h => by cases h) (fun h => by cases h)
    refine hread.set rfl (by simpa [hfr] using hentries') ?_
    rw [if_neg hfr, view_of_cached (CacheMap.set_entries_self _ _ _), view_of_cached hself]
    simp [hunspent, SnapshotHash.SubtractUTXO]
    abel

theorem StackOk.uncache (h : StackOk M (.cache c base)) :
    StackOk M (.cache (c.Uncache outpoint) base) := by
  cases h with
  | cache hentries hhash hbase =>
    cases hentry : c.cacheCoins.entries outpoint with
    | none => simpa [CacheLayer.Uncache, hentry] using StackOk.cache hentries hhash hbase
    | some entry =>
      by_cases hflags : entry.dirty = false ∧ entry.fresh = false
      · have hkept : (CCoinsView.cache { c with cacheCoins := c.cacheCoins.set outpoint none } base).view =
            (CCoinsView.cache c base).view := by
          funext o
          by_cases ho : o = outpoint
          · subst ho
            rw [view_of_not_cached (CacheMap.set_entries_self _ _ _), view_of_cached hentry,
              hentries.clean o entry hentry hflags.1]
          · exact view_cache_congr (CacheMap.set_entries_of_ne _ ho) rfl
        have huncache : c.Uncache outpoint = { c with cacheCoins := c.cacheCoins.set outpoint none } := by
          simp [CacheLayer.Uncache, hentry, hflags.1, hflags.2]
        rw [huncache]
        exact .cache hentries.erase (by rw [utxoSum_congr M hkept]; exact hhash) hbase
      · have huncache : c.Uncache outpoint = c := by
          simp only [not_and_or, Bool.not_eq_false] at hflags
          rcases hflags with hd | hd <;> simp [CacheLayer.Uncache, hentry, hd]
        rw [huncache]
        exact .cache hentries hhash hbase

theorem StackOk.setBestBlock (h : StackOk M (.cache c base)) (hashBlock : Uint256) :
    StackOk M (.cache (c.SetBestBlock hashBlock) base) := by
  cases h with
  | cache hentries hhash hbase =>
    have hview : (CCoinsView.cache (c.SetBestBlock hashBlock) base).view = (CCoinsView.cache c base).view := by
      funext o
      exact view_cache_congr rfl rfl
    exact .cache hentries (by rw [utxoSum_congr M hview]; exact hhash) hbase

end Hash

section Flush

variable {c₂ : CacheLayer G} {base₂ : CCoinsView G}

/-- Written into the database, the entries of a cache over it leave it showing what the cache
showed: dirty entries are written or erased, and clean ones already agree with it. -/
theorem view_writeEntry {coins : CoinsDB} {snapshotHash snapshotHash' : SnapshotHash G}
    (hentries : EntriesOk c.cacheCoins (.db coins snapshotHash)) :
    (CCoinsView.db (fun o => CCoinsViewCache.writeEntry (coins o) (c.cacheCoins.entries o))
      snapshotHash').view = (CCoinsView.cache c (.db coins snapshotHash)).view := by
  funext o
  cases hentry : c.cacheCoins.entries o with
  | none => simp [view_of_not_cached hentry, hentry, CCoinsViewCache.writeEntry]
  | some entry =>
    rw [view_of_cached hentry]
    cases hdirty : entry.dirty
    · rw [hentries.clean o entry hentry hdirty]
      simp [hentry, hdirty, CCoinsViewCache.writeEntry]
    · cases hspent : entry.coin.IsSpent <;> simp [hentry, hdirty, hspent, CCoinsViewCache.writeEntry]

/-- A cache's entries agree with a cache under it only where the logic error of `BatchWrite`
is not raised: a `FRESH` entry stands over no unspent coin of the cache under it. -/
theorem misappliedFresh_eq_false (hentries : EntriesOk c.cacheCoins (.cache c₂ base₂)) (o : COutPoint) :
    misappliedFresh (c₂.cacheCoins.entries o) (c.cacheCoins.entries o) = false := by
  cases hus : c₂.cacheCoins.entries o with
  | none => rfl
  | some us =>
    cases hit : c.cacheCoins.entries o with
    | none => rfl
    | some it =>
      cases hfresh : it.fresh
      · simp [misappliedFresh, hfresh]
      · -- the cache under it shows no coin there, so its entry is spent
        have hnone := hentries.fresh o it hit hfresh
        rw [view_of_cached hus] at hnone
        cases hspent : us.coin.IsSpent
        · simp [hspent] at hnone
        · simp [misappliedFresh, hspent]

/-- Written into the cache under it, the entries of a cache leave it showing what the cache
showed. -/
theorem view_batchWrite {snapshotHash : SnapshotHash G} {hashBlock : Uint256}
    (hentries : EntriesOk c.cacheCoins (.cache c₂ base₂)) (hentries₂ : EntriesOk c₂.cacheCoins base₂) :
    (CCoinsView.cache ⟨c₂.cacheCoins.batchWrite c.cacheCoins, snapshotHash, hashBlock⟩ base₂).view =
      (CCoinsView.cache c (.cache c₂ base₂)).view := by
  funext o
  cases hit : c.cacheCoins.entries o with
  | none =>
    rw [view_of_not_cached hit]
    exact view_cache_congr (by simp [hit, batchWriteEntry]) rfl
  | some it =>
    rw [view_of_cached hit]
    cases hdirty : it.dirty
    · -- a clean entry is skipped, and shows what the cache under it shows
      rw [hentries.clean o it hit hdirty]
      exact view_cache_congr (by simp [hit, hdirty, batchWriteEntry]) rfl
    cases hus : c₂.cacheCoins.entries o with
    | none =>
      by_cases hdrop : it.fresh = true ∧ it.coin.IsSpent = true
      · -- a `FRESH` spent entry is dropped, over a base showing no coin
        have hnone := hentries.fresh o it hit hdrop.1
        rw [view_of_not_cached hus] at hnone
        rw [view_of_not_cached (by simp [hit, hdirty, hus, batchWriteEntry, hdrop.1, hdrop.2]), hnone]
        simp [hdrop.2]
      · rw [view_of_cached (by simp [hit, hdirty, hus, batchWriteEntry, hdrop] :
          (CacheMap.batchWrite c₂.cacheCoins c.cacheCoins).entries o = some ⟨it.coin, true, it.fresh⟩)]
    | some us =>
      by_cases herase : us.fresh = true ∧ it.coin.IsSpent = true
      · -- a spent entry over a `FRESH` one erases it, over a base showing no coin
        rw [view_of_not_cached (by simp [hit, hdirty, hus, batchWriteEntry, herase.1, herase.2]),
          hentries₂.fresh o us hus herase.1]
        simp [herase.2]
      · rw [view_of_cached (by simp [hit, hdirty, hus, batchWriteEntry, herase] :
          (CacheMap.batchWrite c₂.cacheCoins c.cacheCoins).entries o = some ⟨it.coin, true, us.fresh⟩)]

/-- The merged entries agree with the view under the cache they were written into: clean
entries are those it had, and a `FRESH` one is either its own or new over no coin. -/
theorem EntriesOk.batchWrite (hentries : EntriesOk c.cacheCoins (.cache c₂ base₂))
    (hentries₂ : EntriesOk c₂.cacheCoins base₂) :
    EntriesOk (c₂.cacheCoins.batchWrite c.cacheCoins) base₂ := by
  -- every merged entry is ours unchanged, or dirty with the child's coin
  have hmerged : ∀ o entry, (c₂.cacheCoins.batchWrite c.cacheCoins).entries o = some entry →
      c₂.cacheCoins.entries o = some entry ∨
      (entry.dirty = true ∧ (entry.fresh = true → base₂.view o = none)) := by
    intro o entry he
    rw [CacheMap.batchWrite_entries] at he
    cases hit : c.cacheCoins.entries o with
    | none => exact Or.inl (by simpa [hit, batchWriteEntry] using he)
    | some it =>
      cases hdirty : it.dirty
      · exact Or.inl (by simpa [hit, hdirty, batchWriteEntry] using he)
      cases hus : c₂.cacheCoins.entries o with
      | none =>
        simp only [hit, hus, batchWriteEntry, hdirty, Bool.not_true, Bool.false_eq_true, if_false] at he
        split_ifs at he
        cases he
        refine Or.inr ⟨rfl, fun hfresh => ?_⟩
        have hnone := hentries.fresh o it hit hfresh
        rwa [view_of_not_cached hus] at hnone
      | some us =>
        simp only [hit, hus, batchWriteEntry, hdirty, Bool.not_true, Bool.false_eq_true, if_false] at he
        split_ifs at he
        cases he
        exact Or.inr ⟨rfl, hentries₂.fresh o us hus⟩
  constructor
  · intro o entry he hd
    rcases hmerged o entry he with hours | ⟨hdirty, -⟩
    · exact hentries₂.clean o entry hours hd
    · rw [hdirty] at hd
      cases hd
  · intro o entry he hf
    rcases hmerged o entry he with hours | ⟨-, hfresh⟩
    · exact hentries₂.fresh o entry hours hf
    · exact hfresh hf

/-- Over a cache whose entries agree with it, `BatchWrite` raises no logic error: the flush of
a cache into the cache under it succeeds. -/
theorem Flush_cache_eq_ok (hentries : EntriesOk c.cacheCoins (.cache c₂ base₂)) :
    Flush c (.cache c₂ base₂) = .ok (.cache { c with cacheCoins := CacheMap.empty }
      (.cache ⟨c₂.cacheCoins.batchWrite c.cacheCoins, c.snapshotHash, c.hashBlock⟩ base₂)) := by
  have hany : (c.cacheCoins.keys.any fun o =>
      misappliedFresh (c₂.cacheCoins.entries o) (c.cacheCoins.entries o)) = false := by
    simp [misappliedFresh_eq_false hentries]
  rw [Flush_cache]
  simp [CacheLayer.BatchWrite, hany]

end Flush

section Run

variable [AddCommGroup G] {M : MultisetHash G}

/-- `Flush` keeps the stack well-formed: the view under the top then shows what the top
showed, and takes its snapshot hash. -/
theorem StackOk.flush (h : StackOk M (.cache c base)) (hflush : Flush c base = .ok v) : StackOk M v := by
  cases h with
  | cache hentries hhash hbase =>
    cases hbase with
    | @db coins snapshotHash hfinite _ =>
      rw [Flush_db] at hflush
      split at hflush
      · cases hflush
      cases hflush
      have hview : (CCoinsView.db (fun o => CCoinsViewCache.writeEntry (coins o) (c.cacheCoins.entries o))
          c.snapshotHash).view = (CCoinsView.cache c (.db coins snapshotHash)).view :=
        view_writeEntry hentries
      -- the database changes at the cache's outpoints only
      have hfinite' : {o | CCoinsViewCache.writeEntry (coins o) (c.cacheCoins.entries o) ≠ none}.Finite := by
        refine (hfinite.union c.cacheCoins.keys.finite_toSet).subset fun o ho => ?_
        by_cases hkey : o ∈ c.cacheCoins.keys
        · exact Or.inr hkey
        · left
          rw [Set.mem_ofPred_eq, c.cacheCoins.entries_eq_none o hkey] at ho
          exact ho
      refine .cache EntriesOk.empty ?_ (.db hfinite' ?_)
      · rw [utxoSum_congr M ((view_of_empty rfl).trans hview)]
        exact hhash
      · rw [utxoSum_congr M hview]
        exact hhash
    | @cache c₂ base₂ hentries₂ _ hbase₂ =>
      rw [Flush_cache_eq_ok hentries] at hflush
      cases hflush
      have hview : (CCoinsView.cache ⟨c₂.cacheCoins.batchWrite c.cacheCoins, c.snapshotHash, c.hashBlock⟩
          base₂).view = (CCoinsView.cache c (.cache c₂ base₂)).view :=
        view_batchWrite hentries hentries₂
      refine .cache EntriesOk.empty ?_ (.cache (EntriesOk.batchWrite hentries hentries₂) ?_ hbase₂)
      · rw [utxoSum_congr M ((view_of_empty rfl).trans hview)]
        exact hhash
      · rw [utxoSum_congr M hview]
        exact hhash

/-- A new cache over a well-formed stack takes the snapshot hash of the view under it, and
shows the same coins. -/
theorem StackOk.newCache (h : StackOk M v) : StackOk M v.newCache :=
  .cache EntriesOk.empty (by rw [utxoSum_congr M (view_of_empty rfl)]; exact h.hash_eq) h

def Allowed : CCoinsView G → CoinsOp → Prop
  | .cache c base, .addCoin outpoint _ _ =>
    c.cacheCoins.entries outpoint ≠ none ∨ base.view outpoint = none
  | v, .spendCoin outpoint => v.view outpoint ≠ none
  | _, _ => True

variable (M) in
/-- A call of a run on the stack: allowed, and without error. -/
inductive Step : CCoinsView G → CCoinsView G → Prop
  | call {v v' : CCoinsView G} (op : CoinsOp) (hallowed : Allowed v op) (happly : v.apply M op = some v') :
    Step v v'

theorem StackOk.step (h : StackOk M v) {v' : CCoinsView G} (hstep : Step M v v') : StackOk M v' := by
  obtain ⟨op, hallowed, happly⟩ := hstep
  cases v with
  | db coins snapshotHash =>
    -- over the database alone only a new cache can be made
    cases op <;> simp only [apply, reduceCtorEq] at happly
    cases happly
    exact h.newCache
  | cache c base =>
    cases op with
    | getCoin outpoint =>
      cases happly
      exact h.getCoin outpoint
    | addCoin outpoint coin possible_overwrite =>
      cases hadd : c.AddCoin M outpoint coin possible_overwrite with
      | error e => simp [apply, hadd, Except.toOption] at happly
      | ok c' =>
        simp only [apply, hadd, Except.toOption, Option.map_some, Option.some.injEq] at happly
        subst happly
        exact h.addCoin hallowed hadd
    | spendCoin outpoint =>
      cases happly
      exact h.spendCoin hallowed
    | uncache outpoint =>
      cases happly
      exact h.uncache
    | setBestBlock hashBlock =>
      cases happly
      exact h.setBestBlock hashBlock
    | flush =>
      cases hflush : Flush c base with
      | error e => simp [apply, hflush, Except.toOption] at happly
      | ok v'' =>
        simp only [apply, hflush, Except.toOption, Option.some.injEq] at happly
        subst happly
        exact h.flush hflush
    | push =>
      cases happly
      exact h.newCache
    | pop =>
      cases happly
      cases h with
      | cache _ _ hbase => exact hbase

theorem StackOk.of_run (h : StackOk M v) {v' : CCoinsView G} (hrun : Relation.ReflTransGen (Step M) v v') :
    StackOk M v' := by
  induction hrun with
  | refl => exact h
  | tail _ hstep ih => exact ih.step hstep

instance (v : CCoinsView G) (op : CoinsOp) : Decidable (Allowed v op) := by
  cases v <;> cases op <;> simp only [Allowed] <;> infer_instance

variable (M) in
def runCalls : CCoinsView G → List CoinsOp → Option (CCoinsView G)
  | v, [] => some v
  | v, op :: ops => if Allowed v op then (v.apply M op).bind fun v' => runCalls v' ops else none

theorem runCalls_run {v v' : CCoinsView G} {ops : List CoinsOp} (h : runCalls M v ops = some v') :
    Relation.ReflTransGen (Step M) v v' := by
  induction ops generalizing v with
  | nil =>
    cases h
    exact .refl
  | cons op ops ih =>
    rw [runCalls] at h
    split_ifs at h with hallowed
    obtain ⟨v₁, happly, hrest⟩ := Option.bind_eq_some_iff.mp h
    exact .head (.call op hallowed happly) (ih hrest)

/-- In a well-formed stack, the top cache flushes into a cache under it without the logic
error of `BatchWrite`. -/
theorem StackOk.Flush_cache_ok {c₂ : CacheLayer G} {base₂ : CCoinsView G}
    (h : StackOk M (.cache c (.cache c₂ base₂))) : ∃ v', Flush c (.cache c₂ base₂) = .ok v' := by
  cases h with
  | cache hentries _ _ => exact ⟨_, Flush_cache_eq_ok hentries⟩

theorem StackOk.views_hash (h : StackOk M v) :
    ∀ w ∈ v.views, w.GetSnapshotHash.m_multiset = utxoSum M w := by
  induction h with
  | db _ hash =>
    intro w hw
    rw [views, List.mem_singleton] at hw
    rw [hw]
    exact hash
  | cache _ hash _ ih =>
    intro w hw
    rcases List.mem_cons.mp hw with rfl | hw
    · exact hash
    · exact ih w hw

variable (M) in
/-- Over any run of allowed calls on the top of a stack rooted at a coins database whose
snapshot hash is the sum of its UTXOs, the snapshot hash of every view of the stack is the
sum of the UTXOs at the outpoints where the view's `GetCoin` finds an unspent coin, and a
`Flush` of the top into a cache under it raises no logic error. -/
theorem snapshotHash_commits_to_coins {coins : CoinsDB} {snapshotHash : SnapshotHash G}
    (hfinite : {o | coins o ≠ none}.Finite)
    (hhash : snapshotHash.m_multiset = utxoSum M (.db coins snapshotHash))
    (hrun : Relation.ReflTransGen (Step M) (.db coins snapshotHash) v) :
    (∀ w ∈ v.views, w.GetSnapshotHash.m_multiset = utxoSum M w) ∧
      ∀ c c₂ base₂, v = .cache c (.cache c₂ base₂) → ∃ v', Flush c (.cache c₂ base₂) = .ok v' := by
  have h := (StackOk.db hfinite hhash).of_run hrun
  refine ⟨h.views_hash, ?_⟩
  rintro c c₂ base₂ rfl
  exact h.Flush_cache_ok

def dbCoin : Coin := ⟨⟨10 * UNIT, []⟩, .COINBASE, 0⟩

def oneCoin : CoinsDB := fun o => if o = ⟨0, 0⟩ then some dbCoin else none

def oneCoinDB : CCoinsView ℤ := .db oneCoin ⟨1⟩

theorem oneCoin_finite : {o | oneCoin o ≠ none}.Finite := by
  refine (Set.finite_singleton (⟨0, 0⟩ : COutPoint)).subset fun o ho => ?_
  by_contra hne
  exact ho (if_neg hne)

theorem oneCoinDB_hash : (⟨1⟩ : SnapshotHash ℤ).m_multiset = utxoSum countingHash oneCoinDB := by
  -- its one coin is its one UTXO
  have hzero : ∀ o : COutPoint, o ≠ ⟨0, 0⟩ → utxoElement countingHash o (oneCoinDB.view o) = 0 := by
    intro o ho
    simp only [oneCoinDB, oneCoin, view_db]
    split_ifs with h
    · exact absurd h ho
    · rfl
  rw [utxoSum, finsum_eq_single _ ⟨0, 0⟩ hzero]
  decide

theorem oneCoinDB_stackOk : StackOk countingHash oneCoinDB := .db oneCoin_finite oneCoinDB_hash

def sampleCalls : List CoinsOp :=
  [.push, .addCoin ⟨1, 0⟩ dbCoin false, .setBestBlock 1, .flush, .push, .spendCoin ⟨0, 0⟩, .flush]

def sampleStack : CCoinsView ℤ := (runCalls countingHash oneCoinDB sampleCalls).getD oneCoinDB

theorem snapshotHash_commits_to_coins_sampleStack :
    (∀ w ∈ sampleStack.views, w.GetSnapshotHash.m_multiset = utxoSum countingHash w) ∧
      ∀ c c₂ base₂, sampleStack = .cache c (.cache c₂ base₂) →
        ∃ v', Flush c (.cache c₂ base₂) = .ok v' := by
  have hsome : (runCalls countingHash oneCoinDB sampleCalls).isSome = true := by decide
  obtain ⟨v, hv⟩ := Option.isSome_iff_exists.mp hsome
  have hstack : sampleStack = v := by rw [sampleStack, hv, Option.getD_some]
  rw [hstack]
  exact snapshotHash_commits_to_coins countingHash oneCoin_finite oneCoinDB_hash (runCalls_run hv)

variable (M) in
/-- `AddCoin` at an outpoint the top cache does not hold, over a base showing an unspent coin
there, succeeds, and the top's snapshot hash keeps that coin's UTXO while the top shows the
new coin alone: the hash exceeds the sum by the hidden coin. -/
theorem StackOk.addCoin_over_base_coin (h : StackOk M (.cache c base)) {coin old : Coin}
    (possible_overwrite : Bool) (hentry : c.cacheCoins.entries outpoint = none)
    (hbase : base.view outpoint = some old) (hspent : coin.IsSpent = false)
    (hspendable : IsUnspendable coin.out.scriptPubKey = false) :
    ∃ c', c.AddCoin M outpoint coin possible_overwrite = .ok c' ∧
      c'.snapshotHash.m_multiset = utxoSum M (.cache c' base) + M.element (UTXO.ofCoin outpoint old) := by
  obtain ⟨c', hadd, hmap, hhash⟩ : ∃ c', c.AddCoin M outpoint coin possible_overwrite = .ok c' ∧
      c'.cacheCoins = c.cacheCoins.set outpoint (some ⟨coin, true, !possible_overwrite⟩) ∧
      c'.snapshotHash = c.snapshotHash.AddUTXO M (UTXO.ofCoin outpoint coin) :=
    ⟨_, CacheLayer.AddCoin_of_not_cached M hentry hspent hspendable possible_overwrite, rfl, rfl⟩
  refine ⟨c', hadd, ?_⟩
  have hshown : (CCoinsView.cache c' base).view outpoint = some coin := by
    rw [view_of_cached (by rw [hmap]; exact CacheMap.set_entries_self _ _ _)]
    simp [hspent]
  rw [h.utxoSum_set hmap, hhash, hshown, view_of_not_cached hentry, hbase]
  simp [SnapshotHash.AddUTXO]
  abel

/-- A new cache over the database holding one coin, and a coin added at that coin's outpoint
without an announced overwrite: the top's snapshot hash counts two UTXOs while the top shows
one. -/
theorem addCoin_over_base_coin_breaks_hash :
    StackOk countingHash oneCoinDB ∧
      ∃ v, ((oneCoinDB.apply countingHash .push).bind fun v =>
          v.apply countingHash (.addCoin ⟨0, 0⟩ dbCoin false)) = some v ∧
        v.GetSnapshotHash.m_multiset ≠ utxoSum countingHash v := by
  obtain ⟨c', hadd, hhash⟩ := oneCoinDB_stackOk.newCache.addCoin_over_base_coin countingHash false
    (CacheMap.empty_entries ⟨0, 0⟩) (show oneCoinDB.view ⟨0, 0⟩ = some dbCoin by decide)
    (show dbCoin.IsSpent = false by decide)
    (show IsUnspendable dbCoin.out.scriptPubKey = false by decide)
  refine ⟨oneCoinDB_stackOk, .cache c' oneCoinDB, ?_, ?_⟩
  · show (newCache oneCoinDB).apply countingHash (.addCoin ⟨0, 0⟩ dbCoin false) = some (.cache c' oneCoinDB)
    simp only [newCache, apply, hadd]
    rfl
  · intro heq
    rw [GetSnapshotHash, hhash] at heq
    simp [countingHash] at heq

end Run

end CCoinsView

end UnitE
