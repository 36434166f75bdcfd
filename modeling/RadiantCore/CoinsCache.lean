import RadiantCore.Coins

/-!
# The stack of coin caches

`CCoinsViewCache` of `coins.cpp` : a layer keeps entries over the view below it, reads
fill it, and `Flush` merges its changed entries into that view. An entry is DIRTY when it
may differ from the view below and FRESH when the view below has no coin there.

A stack represents a map of unspent coins (`CCoinsView.coinAt`). `Coherent` says what the
flags of every layer mean. Each function has one lemma : it keeps `Coherent`, and changes
the represented map as its name says.
-/

namespace RadiantCore

open Finmap Coin

/-- A coin as a view answers with it : nothing when it is spent. -/
def Coin.unspent? (coin : Coin) : Option Coin := if coin.isSpent then none else some coin

/-- `CCoinsCacheEntry`, with one field for each flag. -/
structure CCoinsCacheEntry where
  coin : Coin
  dirty : Bool
  fresh : Bool
deriving DecidableEq

/-- `CCoinsMap`. -/
abbrev CCoinsMap := FMap COutPoint CCoinsCacheEntry

/-- `CCoinsView` : a map of coins, or a `CCoinsViewCache` over another view. -/
inductive CCoinsView
  | backing (coins : CoinsMap)
  | cache (cacheCoins : CCoinsMap) (base : CCoinsView)

section

variable {coin : Coin}

theorem Coin.unspent?_eq_none_iff : coin.unspent? = none ↔ coin.isSpent = true := by
  unfold unspent?
  split_ifs with h <;> simp [h]

theorem Coin.unspent?_bind_unspent? : coin.unspent?.bind unspent? = coin.unspent? := by
  cases h : coin.isSpent <;> simp [unspent?, h]

theorem Coin.isSome_unspent? : coin.unspent?.isSome = !coin.isSpent := by
  unfold unspent?
  split_ifs with h <;> simp [h]

theorem Coin.unspent?_of_not_isSpent (h : coin.isSpent = false) : coin.unspent? = some coin := by
  simp [unspent?, h]

end

namespace CCoinsView

/-! ## Reading -/

/-- The entry `FetchCoin` makes of a coin of the view below. -/
def fetched (coin : Coin) : CCoinsCacheEntry := ⟨coin, false, coin.isSpent⟩

/-- `CCoinsViewCache::FetchCoin`, where `below` is what the view below answers and becomes
when it is asked : the entry, the layer and the view below. -/
def fetch (outpoint : COutPoint) (cacheCoins : CCoinsMap) (base : CCoinsView)
    (below : Option Coin × CCoinsView) : Option CCoinsCacheEntry × CCoinsMap × CCoinsView :=
  match cacheCoins.lookup outpoint with
  | some entry => (some entry, cacheCoins, base)
  | none =>
    match below with
    | (none, base) => (none, cacheCoins, base)
    | (some coin, base) => (some (fetched coin), cacheCoins.insert outpoint (fetched coin), base)

/-- `GetCoin`, and the view with the layers it filled. -/
def getCoin (outpoint : COutPoint) : CCoinsView → Option Coin × CCoinsView
  | backing coins => (coins.lookup outpoint, backing coins)
  | cache cacheCoins base =>
    let (entry, cacheCoins, base) := fetch outpoint cacheCoins base (getCoin outpoint base)
    (entry.bind fun entry => entry.coin.unspent?, cache cacheCoins base)

/-- `CCoinsViewCache::FetchCoin`. -/
def fetchCoin (outpoint : COutPoint) (cacheCoins : CCoinsMap) (base : CCoinsView) :
    Option CCoinsCacheEntry × CCoinsMap × CCoinsView :=
  fetch outpoint cacheCoins base (base.getCoin outpoint)

/-! ## Writing into the view below -/

/-- What `BatchWrite` does to a map of coins for one entry. -/
def writeCoin (coins : CoinsMap) (p : COutPoint × CCoinsCacheEntry) : CoinsMap :=
  if ¬ p.2.dirty then coins
  else if p.2.coin.isSpent then coins.erase p.1
  else coins.insert p.1 p.2.coin

/-- One iteration of `BatchWrite`, of a map of coins or of a layer. -/
def writeEntry : CCoinsView → COutPoint × CCoinsCacheEntry → Except Failure CCoinsView
  | backing coins, p => .ok (backing (writeCoin coins p))
  | cache cacheCoins base, (outpoint, entry) =>
    if ¬ entry.dirty then .ok (cache cacheCoins base)
    else
      match cacheCoins.lookup outpoint with
      | none =>
        if entry.fresh ∧ entry.coin.isSpent then .ok (cache cacheCoins base)
        else .ok (cache (cacheCoins.insert outpoint ⟨entry.coin, true, entry.fresh⟩) base)
      | some entryUs =>
        if entry.fresh ∧ ¬ entryUs.coin.isSpent then
          .error (.exception
            "FRESH flag misapplied to cache entry for base transaction with spendable outputs")
        else if entryUs.fresh ∧ entry.coin.isSpent then
          .ok (cache (cacheCoins.erase outpoint) base)
        else .ok (cache (cacheCoins.insert outpoint ⟨entry.coin, true, entryUs.fresh⟩) base)

/-- `BatchWrite`, of the entries of a layer in the order of an iteration over them. -/
def batchWrite (view : CCoinsView) (entries : List (COutPoint × CCoinsCacheEntry)) :
    Except Failure CCoinsView :=
  entries.foldlM writeEntry view

end CCoinsView

/-- The list is an iteration over the entries of the map. -/
structure Enumerates (entries : List (COutPoint × CCoinsCacheEntry)) (cacheCoins : CCoinsMap) :
    Prop where
  nodup : (entries.map Prod.fst).Nodup
  mem_iff : ∀ o entry, (o, entry) ∈ entries ↔ cacheCoins.lookup o = some entry

theorem enumerates_singleton (o : COutPoint) (entry : CCoinsCacheEntry) :
    Enumerates [(o, entry)] ((∅ : CCoinsMap).insert o entry) := by
  refine ⟨by simp, fun o' entry' => ?_⟩
  by_cases ho : o' = o
  · rw [ho, lookup_insert]
    simp [eq_comm]
  · rw [lookup_insert_of_ne _ ho]
    simp [ho]

/-! ## The operations of a layer -/

namespace CCoinsView

/-- `CCoinsViewCache::AddCoin`. A new entry starts with an empty coin and no flag. -/
def addCoin (outpoint : COutPoint) (coin : Coin) (possibleOverwrite : Bool)
    (cacheCoins : CCoinsMap) (base : CCoinsView) : Except Failure CCoinsView := do
  require (¬ coin.isSpent) (.abort "!coin.IsSpent()")
  if isUnspendable coin.out.scriptPubKey then return cache cacheCoins base
  let entry := (cacheCoins.lookup outpoint).getD ⟨empty, false, false⟩
  require (possibleOverwrite ∨ entry.coin.isSpent)
    (.exception "Adding new coin that replaces non-pruned entry")
  let fresh := !possibleOverwrite && !entry.dirty
  return cache (cacheCoins.insert outpoint ⟨coin, true, entry.fresh || fresh⟩) base

/-- `CCoinsViewCache::SpendCoin` : the coin moved out, `none` when the source returns
false. -/
def spendCoin (outpoint : COutPoint) (cacheCoins : CCoinsMap) (base : CCoinsView) :
    Option Coin × CCoinsView :=
  match fetchCoin outpoint cacheCoins base with
  | (none, cacheCoins, base) => (none, cache cacheCoins base)
  | (some entry, cacheCoins, base) =>
    (some entry.coin,
      if entry.fresh then cache (cacheCoins.erase outpoint) base
      else cache (cacheCoins.insert outpoint ⟨empty, true, false⟩) base)

/-- `CCoinsViewCache::Uncache`. -/
def uncache (outpoint : COutPoint) (cacheCoins : CCoinsMap) (base : CCoinsView) : CCoinsView :=
  match cacheCoins.lookup outpoint with
  | some ⟨_, false, false⟩ => cache (cacheCoins.erase outpoint) base
  | _ => cache cacheCoins base

end CCoinsView

/-! ## What a stack represents -/

namespace CCoinsView

/-- The coin a view has at an outpoint. -/
def coinAt : CCoinsView → COutPoint → Option Coin
  | backing coins, outpoint => (coins.lookup outpoint).bind unspent?
  | cache cacheCoins base, outpoint =>
    match cacheCoins.lookup outpoint with
    | some entry => entry.coin.unspent?
    | none => base.coinAt outpoint

end CCoinsView

/-- What the flags of an entry say about the view below : it has no coin there when the entry
is FRESH, and the same coin when the entry is not DIRTY. -/
structure CCoinsCacheEntry.Coherent (entry : CCoinsCacheEntry) (below : Option Coin) : Prop where
  fresh : entry.fresh = true → below = none
  clean : entry.dirty = false → entry.coin.unspent? = below

namespace CCoinsView

/-- The flags of every layer are right. -/
def Coherent : CCoinsView → Prop
  | backing _ => True
  | cache cacheCoins base => base.Coherent ∧
    ∀ o entry, cacheCoins.lookup o = some entry → entry.Coherent (base.coinAt o)

/-- A coherent view with the same coins. -/
structure Same (view view' : CCoinsView) : Prop where
  coherent : view'.Coherent
  coinAt_eq : ∀ o, view'.coinAt o = view.coinAt o

variable {cacheCoins : CCoinsMap} {base : CCoinsView} {o : COutPoint} {entry : CCoinsCacheEntry}

theorem coinAt_of_lookup (h : cacheCoins.lookup o = some entry) :
    (cache cacheCoins base).coinAt o = entry.coin.unspent? := by
  rw [coinAt, h]

theorem coinAt_of_lookup_none (h : cacheCoins.lookup o = none) :
    (cache cacheCoins base).coinAt o = base.coinAt o := by
  rw [coinAt, h]

theorem coinAt_insert (a : COutPoint) :
    (cache (cacheCoins.insert o entry) base).coinAt a =
      if a = o then entry.coin.unspent? else (cache cacheCoins base).coinAt a := by
  split_ifs with ha
  · rw [ha, coinAt_of_lookup (lookup_insert _)]
  · rw [coinAt, coinAt, lookup_insert_of_ne _ ha]

theorem coinAt_erase (a : COutPoint) :
    (cache (cacheCoins.erase o) base).coinAt a =
      if a = o then base.coinAt o else (cache cacheCoins base).coinAt a := by
  split_ifs with ha
  · rw [ha, coinAt_of_lookup_none (lookup_erase _ _)]
  · rw [coinAt, coinAt, lookup_erase_ne ha]

section

variable (h : (cache cacheCoins base).Coherent)

include h

theorem Coherent.insert (hentry : entry.Coherent (base.coinAt o)) :
    (cache (cacheCoins.insert o entry) base).Coherent := by
  refine ⟨h.1, fun a e he => ?_⟩
  by_cases ha : a = o
  · rw [ha, lookup_insert] at he
    rwa [← Option.some.inj he, ha]
  · rw [lookup_insert_of_ne _ ha] at he
    exact h.2 a e he

theorem Coherent.erase (o : COutPoint) : (cache (cacheCoins.erase o) base).Coherent := by
  refine ⟨h.1, fun a e he => ?_⟩
  have ha : a ≠ o := by
    rintro rfl
    simp at he
  rw [lookup_erase_ne ha] at he
  exact h.2 a e he

/-- A layer over a view with the same coins. -/
theorem Same.layer {base' : CCoinsView} (hbase : base.Same base') :
    (cache cacheCoins base).Same (cache cacheCoins base') := by
  refine ⟨⟨hbase.coherent, fun a e he => ?_⟩, fun a => ?_⟩
  · rw [hbase.coinAt_eq]
    exact h.2 a e he
  · rw [coinAt, coinAt, hbase.coinAt_eq]

/-! ## Reading -/

/-- `FetchCoin` keeps the coins, and finds the coin of the outpoint. -/
structure FetchSpec (o : COutPoint) (cacheCoins : CCoinsMap) (base : CCoinsView)
    (res : Option CCoinsCacheEntry × CCoinsMap × CCoinsView) : Prop where
  same : (cache cacheCoins base).Same (cache res.2.1 res.2.2)
  entry : res.1 = res.2.1.lookup o
  coin : (res.1.bind fun entry => entry.coin.unspent?) = (cache cacheCoins base).coinAt o

theorem fetch_spec {below : Option Coin × CCoinsView}
    (hcoin : below.1.bind unspent? = base.coinAt o) (hsame : base.Same below.2) :
    FetchSpec o cacheCoins base (fetch o cacheCoins base below) := by
  unfold fetch
  cases hlookup : cacheCoins.lookup o with
  | some entry =>
    exact ⟨⟨h, fun _ => rfl⟩, hlookup.symm, (coinAt_of_lookup hlookup).symm⟩
  | none =>
    obtain ⟨coin, base'⟩ := below
    have hlayer := Same.layer h hsame
    cases coin with
    | none => exact ⟨hlayer, hlookup.symm, hcoin.trans (coinAt_of_lookup_none hlookup).symm⟩
    | some coin =>
      have hbase : base'.coinAt o = coin.unspent? := (hsame.coinAt_eq o).trans hcoin.symm
      have hentry : (fetched coin).Coherent (base'.coinAt o) := by
        refine ⟨fun (hspent : coin.isSpent = true) => ?_, fun _ => hbase.symm⟩
        rw [hbase, unspent?, if_pos hspent]
      dsimp only
      refine ⟨⟨hlayer.coherent.insert hentry, fun a => ?_⟩, by rw [lookup_insert], ?_⟩
      · rw [coinAt_insert]
        split_ifs with ha
        · rw [ha, coinAt_of_lookup_none hlookup]
          exact hcoin
        · exact hlayer.coinAt_eq a
      · exact hcoin.trans (coinAt_of_lookup_none hlookup).symm

end

/-- `GetCoin` finds the coin of the outpoint, and keeps the coins. -/
theorem getCoin_spec (o : COutPoint) : ∀ {view : CCoinsView}, view.Coherent →
    (view.getCoin o).1.bind unspent? = view.coinAt o ∧ view.Same (view.getCoin o).2
  | backing _, h => ⟨rfl, h, fun _ => rfl⟩
  | cache cacheCoins base, h => by
    obtain ⟨hcoin, hsame⟩ := getCoin_spec o h.1
    have hfetch := fetch_spec h hcoin hsame
    refine ⟨?_, hfetch.same⟩
    rw [← hfetch.coin]
    simp only [getCoin]
    cases (fetch o cacheCoins base (getCoin o base)).1 with
    | none => rfl
    | some entry => exact unspent?_bind_unspent?

theorem fetchCoin_spec (o : COutPoint) (h : (cache cacheCoins base).Coherent) :
    FetchSpec o cacheCoins base (fetchCoin o cacheCoins base) :=
  fetch_spec h (getCoin_spec o h.1).1 (getCoin_spec o h.1).2

/-! ## Writing -/

/-- A DIRTY entry merged into a layer. -/
theorem writeEntry_cache_spec (h : (cache cacheCoins base).Coherent) (hdirty : entry.dirty = true)
    (hfresh : entry.fresh = true → (cache cacheCoins base).coinAt o = none) :
    ∃ view', (cache cacheCoins base).writeEntry (o, entry) = .ok view' ∧ view'.Coherent ∧
      ∀ a, view'.coinAt a =
        if a = o then entry.coin.unspent? else (cache cacheCoins base).coinAt a := by
  have hinsert : ∀ fresh, (fresh = true → base.coinAt o = none) →
      (cache (cacheCoins.insert o ⟨entry.coin, true, fresh⟩) base).Coherent := fun fresh hnone =>
    h.insert ⟨hnone, nofun⟩
  simp only [writeEntry, hdirty, not_true_eq_false, if_false]
  cases hlookup : cacheCoins.lookup o with
  | none =>
    rw [coinAt_of_lookup_none hlookup] at hfresh
    by_cases hdrop : entry.fresh = true ∧ entry.coin.isSpent = true
    · refine ⟨_, if_pos hdrop, h, fun a => ?_⟩
      split_ifs with ha
      · rw [ha, coinAt_of_lookup_none hlookup, hfresh hdrop.1, unspent?_eq_none_iff.mpr hdrop.2]
      · rfl
    · exact ⟨_, if_neg hdrop, hinsert _ hfresh, fun a => coinAt_insert a⟩
  | some entryUs =>
    rw [coinAt_of_lookup hlookup] at hfresh
    have hus := h.2 o entryUs hlookup
    have hnot : ¬ (entry.fresh = true ∧ ¬ entryUs.coin.isSpent = true) := fun ⟨hf, hunspent⟩ =>
      hunspent (unspent?_eq_none_iff.mp (hfresh hf))
    simp only [if_neg hnot]
    by_cases hdrop : entryUs.fresh = true ∧ entry.coin.isSpent = true
    · refine ⟨_, if_pos hdrop, h.erase o, fun a => ?_⟩
      rw [coinAt_erase, hus.fresh hdrop.1, unspent?_eq_none_iff.mpr hdrop.2]
    · exact ⟨_, if_neg hdrop, hinsert _ hus.fresh, fun a => coinAt_insert a⟩

theorem lookup_writeCoin (coins : CoinsMap) (p : COutPoint × CCoinsCacheEntry) (a : COutPoint) :
    (writeCoin coins p).lookup a =
      if a = p.1 ∧ p.2.dirty = true then p.2.coin.unspent? else coins.lookup a := by
  obtain ⟨o, entry⟩ := p
  by_cases hdirty : entry.dirty = true
  · by_cases hspent : entry.coin.isSpent = true
    · by_cases ha : a = o
      · rw [ha]
        simp [writeCoin, hdirty, hspent, unspent?]
      · simp [writeCoin, hdirty, hspent, ha, lookup_erase_ne]
    · by_cases ha : a = o
      · rw [ha]
        simp [writeCoin, hdirty, hspent, unspent?]
      · simp [writeCoin, hdirty, hspent, ha, lookup_insert_of_ne]
  · simp [writeCoin, hdirty]

/-- One iteration of `BatchWrite` sets the coin of a DIRTY entry and no other. It needs a
FRESH entry to be new. -/
theorem writeEntry_spec {view : CCoinsView} (h : view.Coherent)
    (hfresh : entry.fresh = true → view.coinAt o = none) :
    ∃ view', view.writeEntry (o, entry) = .ok view' ∧ view'.Coherent ∧ ∀ a, view'.coinAt a =
      if a = o ∧ entry.dirty = true then entry.coin.unspent? else view.coinAt a := by
  cases view with
  | backing coins =>
    refine ⟨_, rfl, trivial, fun a => ?_⟩
    rw [coinAt, coinAt, lookup_writeCoin]
    split_ifs
    · exact unspent?_bind_unspent?
    · rfl
  | cache cacheCoins base =>
    by_cases hdirty : entry.dirty = true
    · simp only [hdirty, and_true]
      exact writeEntry_cache_spec h hdirty hfresh
    · exact ⟨cache cacheCoins base, by simp [writeEntry, hdirty], h, fun a => by simp [hdirty]⟩

/-- `BatchWrite` of entries with right flags succeeds, and sets the coins of the DIRTY ones. -/
theorem batchWrite_spec : ∀ {entries : List (COutPoint × CCoinsCacheEntry)} {view : CCoinsView},
    view.Coherent → (entries.map Prod.fst).Nodup →
      (∀ p ∈ entries, p.2.fresh = true → view.coinAt p.1 = none) →
      ∃ view', view.batchWrite entries = .ok view' ∧ view'.Coherent ∧
        (∀ p ∈ entries, p.2.dirty = true → view'.coinAt p.1 = p.2.coin.unspent?) ∧
        ∀ o, (∀ p ∈ entries, p.1 = o → p.2.dirty = false) → view'.coinAt o = view.coinAt o
  | [], view, h, _, _ => ⟨view, rfl, h, by simp, fun _ _ => rfl⟩
  | (o, entry) :: entries, view, h, hnodup, hfresh => by
    rw [List.map_cons, List.nodup_cons] at hnodup
    rw [List.forall_mem_cons] at hfresh
    obtain ⟨view₁, hwrite, hcoh, hcoin⟩ := writeEntry_spec h hfresh.1
    have hne : ∀ p ∈ entries, p.1 ≠ o := fun p hp hpo =>
      hnodup.1 (List.mem_map.mpr ⟨p, hp, hpo⟩)
    have hfresh' : ∀ p ∈ entries, p.2.fresh = true → view₁.coinAt p.1 = none := fun p hp hf => by
      rw [hcoin, if_neg fun hpo => hne p hp hpo.1]
      exact hfresh.2 p hp hf
    obtain ⟨view₂, hrest, hcoh₂, hset, hkeep⟩ := batchWrite_spec hcoh hnodup.2 hfresh'
    refine ⟨view₂, ?_, hcoh₂, ?_, fun a ha => ?_⟩
    · rw [batchWrite, List.foldlM_cons, hwrite]
      exact hrest
    · rw [List.forall_mem_cons]
      refine ⟨fun hdirty => ?_, hset⟩
      rw [hkeep o fun p hp hpo => absurd hpo (hne p hp), hcoin, if_pos ⟨rfl, hdirty⟩]
    · rw [List.forall_mem_cons] at ha
      rw [hkeep a ha.2, hcoin, if_neg]
      rintro ⟨rfl, hdirty⟩
      have hclean : entry.dirty = false := ha.1 rfl
      simp [hclean] at hdirty

variable {entries : List (COutPoint × CCoinsCacheEntry)}

section

variable (h : (cache cacheCoins base).Coherent)

include h

/-- Flushing a layer gives the view below the coins of the layer. -/
theorem flush_spec (hentries : Enumerates entries cacheCoins) :
    ∃ view', base.batchWrite entries = .ok view' ∧ (cache cacheCoins base).Same view' := by
  have hentry : ∀ p ∈ entries, p.2.Coherent (base.coinAt p.1) := fun p hp =>
    h.2 p.1 p.2 ((hentries.mem_iff p.1 p.2).mp hp)
  obtain ⟨view', hwrite, hcoh, hset, hkeep⟩ :=
    batchWrite_spec h.1 hentries.nodup fun p hp => (hentry p hp).fresh
  refine ⟨view', hwrite, hcoh, fun o => ?_⟩
  cases hlookup : cacheCoins.lookup o with
  | none =>
    rw [coinAt_of_lookup_none hlookup]
    refine hkeep o fun p hp hpo => ?_
    rw [← hpo, (hentries.mem_iff p.1 p.2).mp hp] at hlookup
    cases hlookup
  | some entry =>
    have hmem := (hentries.mem_iff o entry).mpr hlookup
    rw [coinAt_of_lookup hlookup]
    by_cases hdirty : entry.dirty = true
    · exact hset _ hmem hdirty
    · rw [Bool.not_eq_true] at hdirty
      rw [(hentry _ hmem).clean hdirty]
      refine hkeep o fun p hp hpo => ?_
      have hp' := (hentries.mem_iff p.1 p.2).mp hp
      rw [hpo, hlookup] at hp'
      rw [← Option.some.inj hp', hdirty]

theorem fresh_getD (hfresh : ((cacheCoins.lookup o).getD ⟨empty, false, false⟩).fresh = true) :
    base.coinAt o = none := by
  cases hlookup : cacheCoins.lookup o with
  | none => simp [hlookup] at hfresh
  | some entry =>
    rw [hlookup] at hfresh
    exact (h.2 o entry hlookup).fresh hfresh

/-- The entry `AddCoin` finds or makes where there is no coin. -/
theorem coherent_getD (habsent : (cache cacheCoins base).coinAt o = none) :
    ((cacheCoins.lookup o).getD ⟨empty, false, false⟩).coin.isSpent = true ∧
      (((cacheCoins.lookup o).getD ⟨empty, false, false⟩).dirty = false →
        base.coinAt o = none) := by
  cases hlookup : cacheCoins.lookup o with
  | none =>
    rw [coinAt_of_lookup_none hlookup] at habsent
    exact ⟨rfl, fun _ => habsent⟩
  | some entry =>
    rw [coinAt_of_lookup hlookup] at habsent
    refine ⟨unspent?_eq_none_iff.mp habsent, fun hclean => ?_⟩
    rw [← (h.2 o entry hlookup).clean hclean, habsent]

/-- `AddCoin` without overwriting needs the coin to be absent. -/
theorem addCoin_spec {coin : Coin} {possibleOverwrite : Bool} (hspent : coin.isSpent = false)
    (habsent : possibleOverwrite = true ∨ (cache cacheCoins base).coinAt o = none) :
    ∃ view', addCoin o coin possibleOverwrite cacheCoins base = .ok view' ∧ view'.Coherent ∧
      ∀ a, view'.coinAt a = if a = o ∧ isUnspendable coin.out.scriptPubKey = false then some coin
        else (cache cacheCoins base).coinAt a := by
  unfold addCoin
  rw [require_pos (by simp [hspent]), ok_bind]
  by_cases hun : isUnspendable coin.out.scriptPubKey = true
  · exact ⟨_, if_pos hun, h, fun a => by simp [hun]⟩
  · simp only [if_neg hun]
    have hfound : possibleOverwrite = true ∨
        ((cacheCoins.lookup o).getD ⟨empty, false, false⟩).coin.isSpent = true :=
      habsent.imp id fun hnone => (coherent_getD h hnone).1
    rw [require_pos hfound, ok_bind]
    refine ⟨_, rfl, h.insert ⟨fun hfresh => ?_, fun hclean => by cases hclean⟩,
      fun a => ?_⟩
    · rcases Bool.or_eq_true_iff.mp hfresh with hold | hnew
      · exact fresh_getD h hold
      · simp only [Bool.and_eq_true, Bool.not_eq_true'] at hnew
        exact (coherent_getD h (habsent.resolve_left (by simp [hnew.1]))).2 hnew.2
    · rw [coinAt_insert, unspent?_of_not_isSpent hspent]
      simp [hun]

/-- `SpendCoin` moves out the coin, if there is one, and removes it. -/
theorem spendCoin_spec (o : COutPoint) :
    (spendCoin o cacheCoins base).2.Coherent ∧
      (∀ a, (spendCoin o cacheCoins base).2.coinAt a =
        if a = o then none else (cache cacheCoins base).coinAt a) ∧
      ((spendCoin o cacheCoins base).1.bind unspent?) = (cache cacheCoins base).coinAt o := by
  have hfetch := fetchCoin_spec o h
  unfold spendCoin
  generalize fetchCoin o cacheCoins base = res at hfetch
  obtain ⟨entry, cacheCoins', base'⟩ := res
  obtain ⟨hsame, hentry, hcoin⟩ := hfetch
  cases entry with
  | none =>
    refine ⟨hsame.coherent, fun a => ?_, hcoin⟩
    rw [hsame.coinAt_eq]
    split_ifs with ha
    · rw [ha, ← hcoin]
      rfl
    · rfl
  | some entry =>
    have hright := hsame.coherent.2 o entry hentry.symm
    dsimp only at hsame hcoin ⊢
    split_ifs with hfresh
    · refine ⟨hsame.coherent.erase o, fun a => ?_, hcoin⟩
      rw [coinAt_erase, hright.fresh hfresh, hsame.coinAt_eq]
    · refine ⟨hsame.coherent.insert ⟨nofun, nofun⟩, fun a => ?_, hcoin⟩
      rw [coinAt_insert, hsame.coinAt_eq]
      rfl

theorem uncache_spec (o : COutPoint) :
    (cache cacheCoins base).Same (uncache o cacheCoins base) := by
  unfold uncache
  split
  · rename_i coin hlookup
    refine ⟨h.erase o, fun a => ?_⟩
    rw [coinAt_erase, ← (h.2 o _ hlookup).clean rfl]
    split_ifs with ha
    · rw [ha, coinAt_of_lookup hlookup]
    · rfl
  · exact ⟨h, fun _ => rfl⟩

end

end CCoinsView

end RadiantCore
