import RadiantCore.Replay

/-!
# Recovering from an interrupted flush

A flush from one tip to another that is interrupted leaves a mixture of the coins of the
two tips. `ReplayBlocks` goes from any mixture to the coins of the new tip, as it does from
the coins of the old one (`applyAll_of_mixes`), and flushes them. A flush that is interrupted
once more leaves a mixture again, which is the invariant of a run with any number of crashes
(`RecoveryInv`, `Recovery.inv`).
-/

namespace RadiantCore

open CBlockIndex CoinsDB

section Recovery

variable [Crypto]

/-- The block index finds the tip by its hash, which is not null. -/
def BlockStore.Knows (store : BlockStore) (pindex : CBlockIndex) : Prop :=
  store.mapBlockIndex pindex.getBlockHash = some pindex ∧ pindex.getBlockHash.isNull = false

/-- The databases of a run that flushes from the old tip, if there is one, to the new tip, with
any number of crashes : a flush stops after any of its batches, and after a restart
`ReplayBlocks` flushes again. -/
inductive Recovery (store : BlockStore) (pindexOld : Option CBlockIndex) (pindexNew : CBlockIndex)
    (old new : CoinsMap) : CoinsDB → Prop
  | start : Recovery store pindexOld pindexNew old new
      ⟨old, pindexOld.map getBlockHash, none⟩
  | flush {batches : Batches} {dbs : List CoinsDB} {db : CoinsDB} :
      CoinsDB.IsFlush ⟨old, pindexOld.map getBlockHash, none⟩ new batches →
      batchWrite ⟨old, pindexOld.map getBlockHash, none⟩ batches
        pindexNew.getBlockHash = .ok dbs →
      db ∈ dbs → Recovery store pindexOld pindexNew old new db
  | replay {db db' : CoinsDB} {hashBlock : Uint256} {coins : CoinsMap} {batches : Batches}
      {dbs : List CoinsDB} : Recovery store pindexOld pindexNew old new db →
      store.replayBlocks db = .ok (.flush hashBlock coins) → db.IsFlush coins batches →
      db.batchWrite batches hashBlock = .ok dbs → db' ∈ dbs →
      Recovery store pindexOld pindexNew old new db'

/-- The hash of the old tip, null when there is none. -/
def tipHash (pindexOld : Option CBlockIndex) : Uint256 :=
  (pindexOld.map getBlockHash).getD Blob.null

/-- What holds of the databases of such a run : the flush has not started, it was interrupted
and left a mixture, or it is complete. -/
inductive RecoveryInv (pindexOld : Option CBlockIndex) (pindexNew : CBlockIndex)
    (old new : CoinsMap) : CoinsDB → Prop
  | start : RecoveryInv pindexOld pindexNew old new
      ⟨old, pindexOld.map getBlockHash, none⟩
  | interrupted {coins : CoinsMap} : Mixes coins old new → RecoveryInv pindexOld pindexNew old new
      ⟨coins, none, some [pindexNew.getBlockHash, tipHash pindexOld]⟩
  | complete : RecoveryInv pindexOld pindexNew old new ⟨new, some pindexNew.getBlockHash, none⟩

variable {store : BlockStore} {params : Params} {pindexOld : Option CBlockIndex}
  {pindex pindexNew : CBlockIndex} {old new coins : CoinsMap} {txs newTxs : List CTransaction}

/-- The old tip is a chain of the store with the genesis block of the new one, or there is none
and no coin. -/
def OldTip (store : BlockStore) (params : Params) (pindexNew : CBlockIndex)
    (pindexOld : Option CBlockIndex) (old : CoinsMap) : Prop :=
  match pindexOld with
  | none => old = ∅
  | some pindexOld => store.Knows pindexOld ∧ pindexOld.root = pindexNew.root ∧
    ∃ txs, ChainAt store params pindexOld txs old

theorem replayFrom_eq {nForkHeight : ℕ} {updates : List (COutPoint × Option Coin)}
    (h : ∀ view, store.rollforward pindexNew
      (List.range' (nForkHeight + 1) (pindexNew.nHeight - nForkHeight)) view =
        .ok (some (applyAll view updates))) (view : CoinsMap) :
    store.replayFrom nForkHeight pindexNew view =
      .ok (.flush pindexNew.getBlockHash (applyAll view updates)) := by
  simp only [BlockStore.replayFrom, h, ok_bind]
  rfl

theorem ChainAt.eq_empty_of_root (h : ChainAt store params pindex.root txs coins) : coins = ∅ := by
  have hheight := nHeight_root pindex
  generalize pindex.root = pindexRoot at h hheight
  cases h with
  | genesis => rfl
  | next => simp [nHeight] at hheight

/-- Replaying an interrupted flush leads to the coins of the new tip. -/
theorem replayBlocks_interrupted (hold : OldTip store params pindexNew pindexOld old)
    (hknown : store.Knows pindexNew) (hnew : ChainAt store params pindexNew newTxs new)
    (hmix : Mixes coins old new) :
    store.replayBlocks ⟨coins, none, some [pindexNew.getBlockHash, tipHash pindexOld]⟩ =
      .ok (.flush pindexNew.getBlockHash new) := by
  cases pindexOld with
  | none =>
    obtain rfl : old = ∅ := hold
    obtain ⟨txs, coins', -, updates, hroot, -, -, hroll, hcoins⟩ :=
      exists_roll (isAncestor_root pindexNew) hnew
    rw [nHeight_root] at hroll
    obtain rfl := hroot.eq_empty_of_root
    rw [← hcoins] at hmix
    have hreplay := replayFrom_eq hroll coins
    rw [applyAll_of_mixes hmix, hcoins] at hreplay
    simp only [BlockStore.replayBlocks, getHeadBlocks, Option.getD_some, hknown.1]
    rw [if_pos (by rfl), hreplay]
  | some pindexOld =>
    obtain ⟨hknownOld, hroot, oldTxs, hchain⟩ := hold
    obtain ⟨pindexFork, hfork, hancOld, hancNew⟩ := lastCommonAncestor_eq hroot
    obtain ⟨_, _, back, -, hchainFork, hback, hcoins, -, -⟩ := exists_roll hancOld hchain
    obtain ⟨_, _, -, forth, hchainFork', -, -, hforth, hcoins'⟩ := exists_roll hancNew hnew
    obtain ⟨-, rfl⟩ := hchainFork.unique hchainFork'
    have hall : applyAll old (back ++ forth) = new := by rw [applyAll_append, hcoins, hcoins']
    rw [← hall] at hmix
    have hreplay := replayFrom_eq hforth (applyAll coins back)
    rw [← applyAll_append, applyAll_of_mixes hmix, hall] at hreplay
    have hnull : ¬ (tipHash (some pindexOld)).isNull = true := by
      rw [tipHash, Option.map_some, Option.getD_some, hknownOld.2]
      exact Bool.false_ne_true
    have hindex : store.mapBlockIndex (tipHash (some pindexOld)) = some pindexOld := hknownOld.1
    simp only [BlockStore.replayBlocks, getHeadBlocks, Option.getD_some, hknown.1,
      if_neg hnull, hindex, hfork, hback, ok_bind, hreplay]

/-- The old tip that a flush records is the same whether it starts or finishes. -/
theorem oldTip_start (hold : OldTip store params pindexNew pindexOld old) (hashBlock : Uint256) :
    oldTip ⟨old, pindexOld.map getBlockHash, none⟩ hashBlock =
      .ok (tipHash pindexOld) := by
  cases pindexOld with
  | none => rfl
  | some pindexOld =>
    have hnull : ¬ pindexOld.getBlockHash.isNull = true := by
      rw [hold.1.2]
      exact Bool.false_ne_true
    exact if_neg hnull

omit [Crypto] in
theorem oldTip_interrupted :
    oldTip ⟨coins, none, some [pindexNew.getBlockHash, tipHash pindexOld]⟩
      pindexNew.getBlockHash = .ok (tipHash pindexOld) := by
  have hnull : (Blob.null : Uint256).isNull = true := by decide
  simp only [oldTip, getBestBlock, getHeadBlocks, Option.getD_none,
    Option.getD_some, hnull, if_true, require_pos, ok_bind]
  rfl

theorem ChainAt.allUnspent (h : ChainAt store params pindex txs coins) : AllUnspent coins :=
  fun o c hc => (h.restorable o c hc).2.1

theorem OldTip.allUnspent (hold : OldTip store params pindexNew pindexOld old) :
    AllUnspent old := by
  cases pindexOld with
  | none =>
    obtain rfl : old = ∅ := hold
    intro o c hc
    simp at hc
  | some pindexOld =>
    obtain ⟨-, -, oldTxs, hchain⟩ := hold
    exact hchain.allUnspent

/-- A flush to the new tip from a mixture : no assertion fails, each batch keeps the invariant
and the last one completes the flush. -/
theorem flush_spec (hknown : store.Knows pindexNew) {db : CoinsDB} {batches : Batches}
    (htip : db.oldTip pindexNew.getBlockHash = .ok (tipHash pindexOld))
    (hmix : Mixes db.coins old new) (hunspent : AllUnspent db.coins)
    (hflush : db.IsFlush new batches) :
    ∃ dbs, db.batchWrite batches pindexNew.getBlockHash = .ok dbs ∧
      dbs.getLast? = some ⟨new, some pindexNew.getBlockHash, none⟩ ∧
      ∀ db' ∈ dbs, RecoveryInv pindexOld pindexNew old new db' := by
  have hwritten := hflush.foldl_writeCoin_eq hunspent
  refine ⟨afterBatches pindexNew.getBlockHash (tipHash pindexOld) db.coins batches, ?_,
    (getLast?_afterBatches hflush.1).trans (by rw [hwritten]), fun db' hdb' => ?_⟩
  · rw [batchWrite, require_pos (by simp [hknown.2]), ok_bind, htip, ok_bind]
    rfl
  · obtain ⟨written, hpre, rfl | ⟨rfl, rfl⟩⟩ := mem_afterBatches hdb'
    · exact .interrupted (hflush.mixes hmix hpre)
    · rw [hwritten]
      exact .complete

/-- The invariant holds in every run. -/
theorem Recovery.inv (hold : OldTip store params pindexNew pindexOld old)
    (hknown : store.Knows pindexNew) (hnew : ChainAt store params pindexNew newTxs new)
    {db : CoinsDB} (h : Recovery store pindexOld pindexNew old new db) :
    RecoveryInv pindexOld pindexNew old new db := by
  induction h with
  | start => exact .start
  | flush hflush hwrite hmem =>
    obtain ⟨dbs, hwrite', -, hinv⟩ := flush_spec hknown (oldTip_start hold _) (.refl_left old new)
      hold.allUnspent hflush
    obtain rfl := Except.ok.inj (hwrite.symm.trans hwrite')
    exact hinv _ hmem
  | replay _ hreplay hflush hwrite hmem ih =>
    cases ih with
    | start => simp [BlockStore.replayBlocks, getHeadBlocks] at hreplay
    | complete => simp [BlockStore.replayBlocks, getHeadBlocks] at hreplay
    | interrupted hmix =>
      rw [replayBlocks_interrupted hold hknown hnew hmix] at hreplay
      cases hreplay
      obtain ⟨dbs, hwrite', -, hinv⟩ := flush_spec hknown oldTip_interrupted hmix
        (hmix.allUnspent hold.allUnspent hnew.allUnspent) hflush
      obtain rfl := Except.ok.inj (hwrite.symm.trans hwrite')
      exact hinv _ hmem

/-- Whatever the crashes, `ReplayBlocks` returns true : it has nothing to do when the flush has
not started or is complete, and otherwise flushes the coins of the new tip. That flush,
like the first one, fails no assertion and leaves a database with exactly the coins of the
new tip, which is its best block, and without a record of head blocks. -/
theorem recovery_correct (hold : OldTip store params pindexNew pindexOld old)
    (hknown : store.Knows pindexNew) (hnew : ChainAt store params pindexNew newTxs new)
    {db : CoinsDB} (h : Recovery store pindexOld pindexNew old new db) :
    (db.headBlocks = none ∧ store.replayBlocks db = .ok .consistent ∧
        (db = ⟨old, pindexOld.map getBlockHash, none⟩ ∨
          db = ⟨new, some pindexNew.getBlockHash, none⟩) ∨
      db.headBlocks ≠ none ∧
        store.replayBlocks db = .ok (.flush pindexNew.getBlockHash new)) ∧
    ∀ batches, db.IsFlush new batches →
      db.headBlocks ≠ none ∨ db = ⟨old, pindexOld.map getBlockHash, none⟩ →
      ∃ dbs, db.batchWrite batches pindexNew.getBlockHash = .ok dbs ∧
        dbs.getLast? = some ⟨new, some pindexNew.getBlockHash, none⟩ := by
  have hinv := h.inv hold hknown hnew
  refine ⟨?_, ?_⟩
  · cases hinv with
    | start => exact Or.inl ⟨rfl, rfl, Or.inl rfl⟩
    | complete => exact Or.inl ⟨rfl, rfl, Or.inr rfl⟩
    | interrupted hmix =>
      exact Or.inr ⟨nofun, replayBlocks_interrupted hold hknown hnew hmix⟩
  · rintro batches hflush (hhead | rfl)
    · cases hinv with
      | start => exact absurd rfl hhead
      | complete => exact absurd rfl hhead
      | interrupted hmix =>
        obtain ⟨dbs, hwrite, hlast, -⟩ := flush_spec hknown oldTip_interrupted hmix
          (hmix.allUnspent hold.allUnspent hnew.allUnspent) hflush
        exact ⟨dbs, hwrite, hlast⟩
    · obtain ⟨dbs, hwrite, hlast, -⟩ := flush_spec hknown (oldTip_start hold _)
        (.refl_left old new) hold.allUnspent hflush
      exact ⟨dbs, hwrite, hlast⟩

end Recovery

section Sample

attribute [local instance] Crypto.toy

/-- The index of a first block. -/
def sampleTip : CBlockIndex := .next (.genesis Blob.null 0) sampleReward.getId 0

/-- A store with one block. -/
def sampleStore : BlockStore where
  mapBlockIndex := fun hash => if hash = sampleTip.getBlockHash then some sampleTip else none
  readBlockFromDisk := fun pindex => if pindex = sampleTip then some [sampleReward] else none
  undoReadFromDisk := fun pindex => if pindex = sampleTip then some [] else none

/-- A first flush is interrupted before its last batch and is replayed. -/
theorem recovery_correct_sample : ∃ new db,
    ChainAt sampleStore sampleParams sampleTip [sampleReward] new ∧
      Recovery sampleStore none sampleTip ∅ new db ∧ db.headBlocks ≠ none ∧
      sampleStore.replayBlocks db = .ok (.flush sampleTip.getBlockHash new) := by
  let o := sampleReward.outpoint 0
  let coin : Coin := ⟨⟨50, [0x51]⟩, 1, true⟩
  let new := (∅ : CoinsMap).insert o coin
  let batches : Batches := [[(o, ⟨coin, true, true⟩)], []]
  have hok : ∃ st ∈ (utxoStage sampleParams sampleTip [sampleReward] ∅).toOption,
      st.view = new ∧ st.blockUndo 1 = [] := by decide +kernel
  obtain ⟨st, hst, hview, hundo⟩ := hok
  have hread : sampleStore.readBlockFromDisk sampleTip = some [sampleReward] := by
    simp [sampleStore]
  have hundo' : sampleStore.undoReadFromDisk sampleTip = some (st.blockUndo 1) := by
    simp [sampleStore, hundo]
  have hchain : ChainAt sampleStore sampleParams sampleTip [sampleReward] new := by
    rw [← hview]
    exact .next (.genesis _ _) hread ⟨sampleReward, [], rfl, rfl, by simp⟩ (by decide +kernel)
      (by decide +kernel) (toOption_eq_some_iff.mp hst) hundo'
  have hadd : (CacheOp.addCoin o coin false).Allowed (.cache ∅ (.backing ∅)) ∅ :=
    ⟨trivial, by decide, Or.inr Finmap.notMem_empty⟩
  have hrun₀ : CacheRun ∅ (.backing ∅) ∅ := .start fun o => by simp
  have hpush : CacheOp.push.Allowed (.backing ∅) ∅ := trivial
  have hrun₁ := (hrun₀.step hpush rfl).step hadd rfl
  have hflush : CoinsDB.IsFlush ⟨∅, none, none⟩ new batches :=
    isFlush_of_cacheRun hrun₁ (List.cons_ne_nil _ _) (enumerates_singleton _ _)
  have hnull : sampleTip.getBlockHash.isNull = false := by decide +kernel
  have hwrite : batchWrite ⟨∅, none, none⟩ batches sampleTip.getBlockHash =
      .ok (afterBatches sampleTip.getBlockHash Blob.null ∅ batches) := by
    rw [batchWrite, require_pos (by simp [hnull]), ok_bind]
    rfl
  have hrecovery : Recovery sampleStore none sampleTip ∅ new
      ⟨new, none, some [sampleTip.getBlockHash, Blob.null]⟩ :=
    .flush hflush hwrite (List.mem_cons_self ..)
  have hold : OldTip sampleStore sampleParams sampleTip none ∅ := rfl
  have hindex : sampleStore.mapBlockIndex sampleTip.getBlockHash = some sampleTip := by
    simp [sampleStore]
  have hcorrect := recovery_correct hold ⟨hindex, hnull⟩ hchain hrecovery
  exact ⟨_, _, hchain, hrecovery, hcorrect.1.resolve_left fun h => absurd h.1 nofun⟩

end Sample

end RadiantCore
