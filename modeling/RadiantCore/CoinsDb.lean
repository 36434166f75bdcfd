import RadiantCore.CacheRun
import RadiantCore.MapReplay

/-!
# The coins database

`CCoinsViewDB` of `txdb.cpp`. `BatchWrite` writes the entries of a cache in batches, each
of which is atomic. The first one replaces the record of the best block by a record of the
new and the old tip, the last one puts the record of the best block back, so that a
database in which a flush was interrupted says so.

The entries come from a cache over the database that represents the coins to write
(`IsFlush`). After any of the batches every outpoint has either the coin it had or the
coin to write (`CoinsDB.IsFlush.mixes`), and after the last one the coin to write
(`CoinsDB.IsFlush.foldl_writeCoin_eq`).
-/

namespace RadiantCore

open List CCoinsView

/-- The entries of a cache in the order of an iteration, cut into batches. -/
abbrev Batches := List (List (COutPoint × CCoinsCacheEntry))

/-- `CCoinsViewDB` : the coins and the records `DB_BEST_BLOCK` and `DB_HEAD_BLOCKS`. -/
structure CoinsDB where
  coins : CoinsMap
  bestBlock : Option Uint256
  headBlocks : Option (List Uint256)

namespace CoinsDB

def getBestBlock (db : CoinsDB) : Uint256 := db.bestBlock.getD Blob.null

def getHeadBlocks (db : CoinsDB) : List Uint256 := db.headBlocks.getD []

/-- `old_tip` of `BatchWrite` : the best block, or the old tip of the flush that a replay
finishes. -/
def oldTip (db : CoinsDB) (hashBlock : Uint256) : Except Failure Uint256 :=
  if db.getBestBlock.isNull then
    match db.getHeadBlocks with
    | [hashNew, hashOld] => do
      require (hashNew = hashBlock) (.abort "old_heads[0] == hashBlock")
      return hashOld
    | _ => .ok db.getBestBlock
  else .ok db.getBestBlock

/-- The databases after each of the batches. -/
def afterBatches (hashBlock oldTip : Uint256) : CoinsMap → Batches → List CoinsDB
  | _, [] => []
  | coins, [batch] => [⟨batch.foldl writeCoin coins, some hashBlock, none⟩]
  | coins, batch :: batches =>
    ⟨batch.foldl writeCoin coins, none, some [hashBlock, oldTip]⟩ ::
      afterBatches hashBlock oldTip (batch.foldl writeCoin coins) batches

/-- `CCoinsViewDB::BatchWrite` : the databases after each of the batches it writes. -/
def batchWrite (db : CoinsDB) (batches : Batches) (hashBlock : Uint256) :
    Except Failure (List CoinsDB) := do
  require (¬ hashBlock.isNull) (.abort "!hashBlock.IsNull()")
  let oldTip ← db.oldTip hashBlock
  return afterBatches hashBlock oldTip db.coins batches

/-- The batches write the entries of a cache over the database that represents `coins`. The
last batch is there even when it has no entry. -/
def IsFlush (db : CoinsDB) (coins : CoinsMap) (batches : Batches) : Prop :=
  batches ≠ [] ∧ ∃ cacheCoins, Enumerates batches.flatten cacheCoins ∧
    (cache cacheCoins (.backing db.coins)).Represents coins

end CoinsDB

/-- The entries of a cache that was filled over the database by any run are such batches. -/
theorem CoinsDB.isFlush_of_cacheRun {db : CoinsDB} {cacheCoins : CCoinsMap} {coins : CoinsMap}
    (h : CacheRun db.coins (.cache cacheCoins (.backing db.coins)) coins) {batches : Batches}
    (hne : batches ≠ []) (hbatches : Enumerates batches.flatten cacheCoins) :
    db.IsFlush coins batches :=
  ⟨hne, cacheCoins, hbatches, h.represents⟩

/-- No coin of the map is spent. -/
def AllUnspent (coins : CoinsMap) : Prop := ∀ o c, coins.lookup o = some c → c.isSpent = false

theorem Mixes.allUnspent {coins old new : CoinsMap} (h : Mixes coins old new)
    (hold : AllUnspent old) (hnew : AllUnspent new) : AllUnspent coins := by
  intro o c hc
  rcases h o with hlookup | hlookup
  · exact hold o c (hlookup ▸ hc)
  · exact hnew o c (hlookup ▸ hc)

/-! ## What the batches leave -/

section Batches

variable {coins old new : CoinsMap} {l : List (COutPoint × CCoinsCacheEntry)}

/-- Writing entries whose coins are those of `new`. -/
theorem lookup_foldl_writeCoin
    (hl : ∀ p ∈ l, p.2.dirty = true → p.2.coin.unspent? = new.lookup p.1) (o : COutPoint) :
    (l.foldl writeCoin coins).lookup o =
      if ∃ p ∈ l, o = p.1 ∧ p.2.dirty = true then new.lookup o else coins.lookup o := by
  induction l generalizing coins with
  | nil => simp
  | cons p l ih =>
    rw [forall_mem_cons] at hl
    have hfirst : (writeCoin coins p).lookup o =
        if o = p.1 ∧ p.2.dirty = true then new.lookup o else coins.lookup o := by
      rw [lookup_writeCoin]
      split_ifs with hp
      · rw [hl.1 hp.2, hp.1]
      · rfl
    rw [foldl_cons, ih hl.2, hfirst]
    simp only [exists_mem_cons_iff]
    by_cases hrest : ∃ q ∈ l, o = q.1 ∧ q.2.dirty = true
    · rw [if_pos hrest, if_pos (Or.inr hrest)]
    · by_cases hp : o = p.1 ∧ p.2.dirty = true
      · rw [if_neg hrest, if_pos hp, if_pos (Or.inl hp)]
      · rw [if_neg hrest, if_neg hp, if_neg (not_or.mpr ⟨hp, hrest⟩)]

theorem Mixes.foldl_writeCoin (hl : ∀ p ∈ l, p.2.dirty = true → p.2.coin.unspent? = new.lookup p.1)
    (h : Mixes coins old new) : Mixes (l.foldl writeCoin coins) old new := by
  intro o
  rw [lookup_foldl_writeCoin hl]
  split_ifs
  · exact Or.inr rfl
  · exact h o

variable {hashBlock oldTip : Uint256} {db db' : CoinsDB} {batches : Batches}

/-- After a batch some of the entries are written, and all of them when the records are those
of a completed flush. -/
theorem mem_afterBatches : ∀ {batches : Batches} {coins : CoinsMap},
    db ∈ CoinsDB.afterBatches hashBlock oldTip coins batches →
      ∃ written, written <+: batches.flatten ∧
        (db = ⟨written.foldl writeCoin coins, none, some [hashBlock, oldTip]⟩ ∨
          written = batches.flatten ∧
            db = ⟨written.foldl writeCoin coins, some hashBlock, none⟩)
  | [], _, hdb => by simp [CoinsDB.afterBatches] at hdb
  | [batch], coins, hdb => by
    rw [CoinsDB.afterBatches, mem_singleton] at hdb
    exact ⟨batch, by simp, Or.inr ⟨by simp, hdb⟩⟩
  | batch :: batch' :: batches, coins, hdb => by
    rcases mem_cons.mp hdb with rfl | hrest
    · exact ⟨batch, prefix_append _ _, Or.inl rfl⟩
    · obtain ⟨written, hpre, hdb⟩ := mem_afterBatches hrest
      refine ⟨batch ++ written, ?_, ?_⟩
      · rw [flatten_cons]
        exact (prefix_append_right_inj batch).mpr hpre
      · rw [foldl_append, flatten_cons]
        exact hdb.imp id fun h => ⟨by rw [h.1], h.2⟩

/-- The last batch completes the flush. -/
theorem getLast?_afterBatches : ∀ {batches : Batches} {coins : CoinsMap}, batches ≠ [] →
    (CoinsDB.afterBatches hashBlock oldTip coins batches).getLast? =
      some ⟨batches.flatten.foldl writeCoin coins, some hashBlock, none⟩
  | [], _, h => absurd rfl h
  | [batch], coins, _ => by simp [CoinsDB.afterBatches]
  | batch :: batch' :: batches, coins, _ => by
    have hrest : (CoinsDB.afterBatches hashBlock oldTip (batch.foldl writeCoin coins)
        (batch' :: batches)).getLast? = _ := getLast?_afterBatches (by simp)
    rw [CoinsDB.afterBatches, getLast?_cons, hrest, Option.getD_some]
    · simp only [flatten_cons, foldl_append]
    · simp

section

variable (h : db.IsFlush new batches)

include h

/-- The DIRTY entries of a flush hold the coins to write. -/
theorem CoinsDB.IsFlush.unspent?_eq :
    ∀ p ∈ batches.flatten, p.2.coin.unspent? = new.lookup p.1 := by
  obtain ⟨-, cacheCoins, henum, hrep⟩ := h
  intro p hp
  rw [← hrep.coinAt_eq, coinAt_of_lookup ((henum.mem_iff p.1 p.2).mp hp)]

theorem CoinsDB.IsFlush.mixes (hmix : Mixes db.coins old new) (hl : l <+: batches.flatten) :
    Mixes (l.foldl writeCoin db.coins) old new :=
  hmix.foldl_writeCoin fun p hp _ => h.unspent?_eq p (hl.subset hp)

/-- A completed flush leaves the coins to write. -/
theorem CoinsDB.IsFlush.foldl_writeCoin_eq (hdb : AllUnspent db.coins) :
    batches.flatten.foldl writeCoin db.coins = new := by
  refine Finmap.ext_lookup fun o => ?_
  rw [lookup_foldl_writeCoin fun p hp _ => h.unspent?_eq p hp]
  split_ifs with hdirty
  · rfl
  · obtain ⟨-, cacheCoins, henum, hrep⟩ := h
    have hbase : (backing db.coins).coinAt o = db.coins.lookup o := by
      cases hlookup : db.coins.lookup o with
      | none => simp [coinAt, hlookup]
      | some c => simp [coinAt, hlookup, Coin.unspent?_of_not_isSpent (hdb o c hlookup)]
    rw [← hrep.coinAt_eq, ← hbase]
    cases hlookup : cacheCoins.lookup o with
    | none => rw [coinAt_of_lookup_none hlookup]
    | some entry =>
      have hclean : entry.dirty = false := by
        rw [← Bool.not_eq_true]
        exact fun hd => hdirty ⟨(o, entry), (henum.mem_iff o entry).mpr hlookup, rfl, hd⟩
      rw [coinAt_of_lookup hlookup, (hrep.coherent.2 o entry hlookup).clean hclean]

end

end Batches

end RadiantCore
