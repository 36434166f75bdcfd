import RadiantCore.BlockTree
import RadiantCore.BlockUndo
import RadiantCore.CoinsDb
import RadiantCore.ReferenceRun

/-!
# Replaying blocks

`ReplayBlocks` of `validation.cpp`. When a flush from one tip to another was interrupted,
the blocks of the old branch are disconnected and those of the new branch are connected
again, on top of whatever coins the flush left and with every addition allowed to
overwrite.

Disconnecting and connecting a block set and remove coins in a way that does not depend on
the map (`exists_roll`), and from the coins of the old tip they
lead to those of the new one.
-/

namespace RadiantCore

open List CBlockIndex

/-! ## Replaying blocks -/

/-- What `ReplayBlocks` does : it finds nothing to do, it returns false, or it flushes coins
with a best block. -/
inductive ReplayResult
  | consistent
  | failed
  | flush (hashBlock : Uint256) (coins : CoinsMap)

section Replay

variable [Crypto]

/-- The block index and the files of blocks and undo data. -/
structure BlockStore where
  mapBlockIndex : Uint256 → Option CBlockIndex
  readBlockFromDisk : CBlockIndex → Option (List CTransaction)
  undoReadFromDisk : CBlockIndex → Option (List (List Coin))

namespace BlockStore

/-- `CChainState::DisconnectBlock`. -/
def disconnectBlock (store : BlockStore) (vtx : List CTransaction) (pindex : CBlockIndex)
    (view : CoinsMap) : Except Failure (DisconnectResult × CoinsMap) :=
  match store.undoReadFromDisk pindex with
  | none => .ok (.DISCONNECT_FAILED, view)
  | some vtxundo => applyBlockUndo vtxundo vtx pindex view

/-- The loop of `ReplayBlocks` that rolls back from an index to the fork, `none` when the source
returns false. Past the genesis block there is no index to read. -/
def rollback (store : BlockStore) (pindexFork : CBlockIndex) :
    CBlockIndex → CoinsMap → Except Failure (Option CoinsMap)
  | pindexOld@(.genesis _ _), view =>
    if pindexOld = pindexFork then .ok (some view) else .error (.abort "pindexOld")
  | pindexOld@(.next pprev _ _), view =>
    if pindexOld = pindexFork then .ok (some view)
    else
      match store.readBlockFromDisk pindexOld with
      | none => .ok none
      | some vtx => do
        let (res, view) ← store.disconnectBlock vtx pindexOld view
        if res = .DISCONNECT_FAILED then return none
        rollback store pindexFork pprev view

/-- The inputs of a transaction are spent, whether they are there or not. -/
def spendInputs (view : CoinsMap) (tx : CTransaction) : CoinsMap :=
  if tx.isCoinBase then view
  else tx.prevouts.foldl (fun view o => ((spendCoin view o).map Prod.snd).getD view) view

/-- `CChainState::RollforwardBlock`, `none` when the source returns false. -/
def rollforwardBlock (store : BlockStore) (pindex : CBlockIndex) (view : CoinsMap) :
    Except Failure (Option CoinsMap) :=
  match store.readBlockFromDisk pindex with
  | none => .ok none
  | some vtx => do
    let view ← vtx.foldlM (fun view tx => addCoins view tx pindex.nHeight true) view
    return some (vtx.foldl spendInputs view)

/-- The loop of `ReplayBlocks` that rolls forward over some heights of the chain of the new
tip. -/
def rollforward (store : BlockStore) (pindexNew : CBlockIndex) :
    List ℕ → CoinsMap → Except Failure (Option CoinsMap)
  | [], view => .ok (some view)
  | nHeight :: heights, view =>
    match pindexNew.getAncestor nHeight with
    | none => .error (.abort "pindex")
    | some pindex => do
      match ← store.rollforwardBlock pindex view with
      | none => return none
      | some view => rollforward store pindexNew heights view

end BlockStore

/-- Roll forward from a height to the new tip, and flush. -/
def BlockStore.replayFrom (store : BlockStore) (nForkHeight : ℕ) (pindexNew : CBlockIndex)
    (view : CoinsMap) : Except Failure ReplayResult := do
  let heights := range' (nForkHeight + 1) (pindexNew.nHeight - nForkHeight)
  match ← store.rollforward pindexNew heights view with
  | none => return .failed
  | some coins => return .flush pindexNew.getBlockHash coins

/-- `CChainState::ReplayBlocks`, up to its flush. -/
def BlockStore.replayBlocks (store : BlockStore) (db : CoinsDB) : Except Failure ReplayResult :=
  match db.getHeadBlocks with
  | [] => .ok .consistent
  | [hashNew, hashOld] =>
    match store.mapBlockIndex hashNew with
    | none => .ok .failed
    | some pindexNew =>
      if hashOld.isNull then store.replayFrom 0 pindexNew db.coins
      else
        match store.mapBlockIndex hashOld with
        | none => .ok .failed
        | some pindexOld =>
          match pindexOld.lastCommonAncestor pindexNew with
          | none => .error (.abort "pindexFork != nullptr")
          | some pindexFork => do
            match ← store.rollback pindexFork pindexOld db.coins with
            | none => return .failed
            | some view => store.replayFrom pindexFork.nHeight pindexNew view
  | _ => .ok .failed

/-! ## Chains of the store -/

/-- A chain of valid blocks in the store, with the undo data written when they were connected :
the transactions from the genesis block to the index and the coins after it. No
identifier is created twice. -/
inductive ChainAt (store : BlockStore) (params : Params) :
    CBlockIndex → List CTransaction → CoinsMap → Prop
  | genesis (hash : Uint256) (nTime : UInt32) : ChainAt store params (.genesis hash nTime) [] ∅
  | next {pprev : CBlockIndex} {txs vtx : List CTransaction} {coins : CoinsMap} {hash : Uint256}
      {nTime : UInt32} {st : ConnectState Empty} : ChainAt store params pprev txs coins →
      store.readBlockFromDisk (.next pprev hash nTime) = some vtx → CoinbaseFirst vtx →
      (∀ tx ∈ vtx, checkCoinbaseRefs tx = .ok ()) →
      ((txs ++ vtx).map CTransaction.getId).Nodup →
      utxoStage params (.next pprev hash nTime) vtx coins = .ok st →
      store.undoReadFromDisk (.next pprev hash nTime) = some (st.blockUndo vtx.length) →
      ChainAt store params (.next pprev hash nTime) (txs ++ vtx) st.view

variable {store : BlockStore} {params : Params} {pindex : CBlockIndex} {txs vtx : List CTransaction}
  {coins view : CoinsMap}

theorem ChainAt.utxoRun (h : ChainAt store params pindex txs coins) : UtxoRun params txs coins := by
  induction h with
  | genesis => exact .empty
  | next _ _ _ hrefs _ hst _ ih => exact ih.block hrefs hst

theorem ChainAt.unique {txs' : List CTransaction} {coins' : CoinsMap}
    (h : ChainAt store params pindex txs coins) (h' : ChainAt store params pindex txs' coins') :
    txs = txs' ∧ coins = coins' := by
  induction h generalizing txs' coins' with
  | genesis =>
    cases h'
    exact ⟨rfl, rfl⟩
  | next _ hread _ _ _ hst _ ih =>
    cases h' with
    | next hprev hread' _ _ _ hst' _ =>
      obtain ⟨rfl, rfl⟩ := ih hprev
      obtain rfl := Option.some.inj (hread.symm.trans hread')
      obtain rfl := Except.ok.inj (hst.symm.trans hst')
      exact ⟨rfl, rfl⟩

variable {st : ConnectState Empty}

/-- A block connected to restorable coins leaves restorable coins. -/
theorem restorable_utxoStage (hfresh : FreshBlock coins vtx) (hheight : pindex.nHeight ≠ 0)
    (hcoins : ∀ o c, coins.lookup o = some c → c.Restorable)
    (h : utxoStage params pindex vtx coins = .ok st) :
    ∀ o c, st.view.lookup o = some c → c.Restorable := by
  obtain ⟨hnull, -, checks, -, rfl⟩ := (connectTxs_eq_ok_iff (fun _ _ _ _ => rfl) hfresh).mp h
  intro o c hc
  obtain ⟨-, hlookup⟩ := lookup_eraseAll_eq_some.mp hc
  rcases (lookup_insertAll (nodup_blockCoins hfresh.nodup)).mp hlookup with hnew | ⟨-, hold⟩
  · obtain ⟨tx, htx, hcoin⟩ := mem_blockCoins_iff.mp hnew
    obtain ⟨out, hout, hun, rfl⟩ := mem_coinsOf_iff.mp hcoin
    have hmem : out ∈ tx.vout := tx.map_snd_outputs ▸ mem_map_of_mem hout
    exact ⟨hheight, hnull tx htx out hmem, hun⟩
  · exact hcoins o c hold

theorem ChainAt.freshBlock (h : ChainAt store params pindex txs coins)
    (hids : ((txs ++ vtx).map CTransaction.getId).Nodup) : FreshBlock coins vtx := by
  have hids' := hids
  rw [map_append, nodup_append'] at hids'
  exact (h.utxoRun.inv hids'.1).freshBlock hids

theorem ChainAt.restorable (h : ChainAt store params pindex txs coins) :
    ∀ o c, coins.lookup o = some c → c.Restorable := by
  induction h with
  | genesis =>
    intro o c hc
    simp at hc
  | next hprev _ _ _ hids hst _ ih =>
    refine restorable_utxoStage (hprev.freshBlock hids) ?_ ih hst
    exact Nat.succ_ne_zero _

/-- The coins of a chain as a map of stored coins. -/
def ChainAt.utxoMap (h : ChainAt store params pindex txs coins) : UtxoMap :=
  ⟨coins, fun o c hc => (h.restorable o c hc).2⟩

/-! ## Rolling back and forward -/

/-- What disconnecting a block does to the coins. -/
def undoUpdates (vtx : List CTransaction) (nHeight : ℕ) (coins : CoinsMap) :
    List (COutPoint × Option Coin) :=
  ((blockSpent vtx nHeight coins).map fun p => (p.1, some p.2)) ++
    ((blockCoins vtx nHeight).map Prod.fst).map fun o => (o, none)

/-- What connecting a block does to the coins. -/
def connectUpdates (vtx : List CTransaction) (nHeight : ℕ) : List (COutPoint × Option Coin) :=
  ((blockCoins vtx nHeight).map fun p => (p.1, some p.2)) ++
    (spentBy (regularTxs vtx)).map fun o => (o, none)

theorem applyAll_undoUpdates (view : CoinsMap) (vtx : List CTransaction) (nHeight : ℕ)
    (coins : CoinsMap) : applyAll view (undoUpdates vtx nHeight coins) =
      eraseAll (insertAll view (blockSpent vtx nHeight coins))
        ((blockCoins vtx nHeight).map Prod.fst) := by
  rw [undoUpdates, applyAll_append, ← insertAll_eq_applyAll, ← eraseAll_eq_applyAll]

theorem applyAll_connectUpdates (view : CoinsMap) (vtx : List CTransaction) (nHeight : ℕ) :
    applyAll view (connectUpdates vtx nHeight) =
      eraseAll (insertAll view (blockCoins vtx nHeight)) (spentBy (regularTxs vtx)) := by
  rw [connectUpdates, applyAll_append, ← insertAll_eq_applyAll, ← eraseAll_eq_applyAll]

theorem spendInputs_eq (tx : CTransaction) (view : CoinsMap) :
    BlockStore.spendInputs view tx =
      if tx.isCoinBase then view else eraseAll view tx.prevouts := by
  have hstep : ∀ (view : CoinsMap) (o : COutPoint),
      ((spendCoin view o).map Prod.snd).getD view = view.erase o := fun view o => by
    cases hlookup : view.lookup o with
    | none => simp [spendCoin, hlookup, erase_of_notMem (Finmap.lookup_eq_none.mp hlookup)]
    | some coin => simp [spendCoin, hlookup]
  have hloop : ∀ (l : List COutPoint) (view : CoinsMap),
      l.foldl (fun view o => ((spendCoin view o).map Prod.snd).getD view) view =
        eraseAll view l := by
    intro l
    induction l with
    | nil => exact fun _ => rfl
    | cons o l ih =>
      intro view
      rw [foldl_cons, hstep, ih, eraseAll]
  rw [BlockStore.spendInputs, hloop]

theorem foldl_spendInputs : ∀ (vtx : List CTransaction) (view : CoinsMap),
    vtx.foldl BlockStore.spendInputs view = eraseAll view (spentBy (regularTxs vtx))
  | [], _ => rfl
  | tx :: vtx, view => by
    rw [foldl_cons, spendInputs_eq, foldl_spendInputs vtx]
    cases hcb : tx.isCoinBase with
    | true => simp [regularTxs, hcb]
    | false =>
      have hspent : spentBy (regularTxs (tx :: vtx)) = tx.prevouts ++ spentBy (regularTxs vtx) := by
        simp [regularTxs, hcb, spentBy]
      rw [hspent, eraseAll_append]
      simp

theorem rollforwardBlock_eq (hread : store.readBlockFromDisk pindex = some vtx)
    (hnull : ∀ tx ∈ vtx, ∀ out ∈ tx.vout, out.isNull = false) (view : CoinsMap) :
    store.rollforwardBlock pindex view =
      .ok (some (applyAll view (connectUpdates vtx pindex.nHeight))) := by
  have hadd : ∀ view : CoinsMap,
      vtx.foldlM (fun view tx => addCoins view tx pindex.nHeight true) view =
        .ok (insertAll view (blockCoins vtx pindex.nHeight)) := by
    clear hread
    induction vtx with
    | nil => exact fun _ => rfl
    | cons tx vtx ih =>
      intro view
      rw [forall_mem_cons] at hnull
      have hcons : blockCoins (tx :: vtx) pindex.nHeight =
          coinsOf tx pindex.nHeight ++ blockCoins vtx pindex.nHeight := flatMap_cons ..
      rw [foldlM_cons, addCoins_check hnull.1, ok_bind, ih hnull.2, hcons, insertAll_append]
  rw [applyAll_connectUpdates, ← foldl_spendInputs]
  simp [BlockStore.rollforwardBlock, hread, hadd, pure, Except.pure]

theorem rollback_self (store : BlockStore) (pindex : CBlockIndex) (view : CoinsMap) :
    store.rollback pindex pindex view = .ok (some view) := by
  cases pindex <;> exact if_pos rfl

variable {pprev : CBlockIndex}

/-- Disconnecting a block of a chain from any coins succeeds. -/
theorem disconnectBlock_eq (hprev : ChainAt store params pprev txs coins)
    (hids : ((txs ++ vtx).map CTransaction.getId).Nodup) (hblock : CoinbaseFirst vtx) (hst : utxoStage params pindex vtx coins = .ok st)
    (hundo : store.undoReadFromDisk pindex = some (st.blockUndo vtx.length)) (view : CoinsMap) :
    ∃ res, store.disconnectBlock vtx pindex view =
      .ok (res, applyAll view (undoUpdates vtx pindex.nHeight coins)) ∧
        res ≠ .DISCONNECT_FAILED := by
  have hheight : ∀ o c, hprev.utxoMap.coins.lookup o = some c → 1 ≤ c.nHeight := fun o c hc =>
    Nat.one_le_iff_ne_zero.mpr (hprev.restorable o c hc).1
  have happly := applyBlockUndo_eq hprev.utxoMap hheight (hprev.freshBlock hids) hblock hst view
  simp only [BlockStore.disconnectBlock, hundo, applyAll_undoUpdates, happly]
  refine ⟨_, rfl, ?_⟩
  split_ifs <;> exact nofun

variable {pindexFork : CBlockIndex}

/-- Rolling forward over more heights. -/
theorem rollforward_append {pindexNew : CBlockIndex} {heights heights' : List ℕ}
    {view' : CoinsMap} (h : store.rollforward pindexNew heights view = .ok (some view')) :
    store.rollforward pindexNew (heights ++ heights') view =
      store.rollforward pindexNew heights' view' := by
  induction heights generalizing view with
  | nil =>
    simp only [BlockStore.rollforward, Except.ok.injEq, Option.some.injEq] at h
    rw [nil_append, h]
  | cons nHeight heights ih =>
    rw [cons_append, BlockStore.rollforward]
    rw [BlockStore.rollforward] at h
    cases hanc : pindexNew.getAncestor nHeight with
    | none => simp [hanc] at h
    | some pindex =>
      simp only [hanc, bind_eq_ok_iff] at h
      obtain ⟨res, hblock, h⟩ := h
      cases res with
      | none => simp at h
      | some view₁ => simp only [hblock, ok_bind, ih h]

/-- Below its top, a chain is rolled forward as the chain of its predecessor. -/
theorem rollforward_next {hash : Uint256} {nTime : UInt32} :
    ∀ {heights : List ℕ}, (∀ n ∈ heights, n ≤ pprev.nHeight) → ∀ view,
      store.rollforward (.next pprev hash nTime) heights view =
        store.rollforward pprev heights view
  | [], _, _ => rfl
  | nHeight :: heights, h, view => by
    rw [forall_mem_cons] at h
    have hanc : (next pprev hash nTime).getAncestor nHeight =
        pprev.getAncestor nHeight := if_neg (by rw [CBlockIndex.nHeight]; omega)
    simp only [BlockStore.rollforward, hanc, rollforward_next h.2]

/-- Rolling back from a tip to an ancestor, and forward again, sets and removes coins in the same
way whatever the coins are, and takes the coins of the one to those of the other. -/
theorem exists_roll (h : CBlockIndex.IsAncestor pindexFork pindex)
    (hchain : ChainAt store params pindex txs coins) :
    ∃ txs' coins' back forth, ChainAt store params pindexFork txs' coins' ∧
      (∀ view, store.rollback pindexFork pindex view = .ok (some (applyAll view back))) ∧
      applyAll coins back = coins' ∧
      (∀ view, store.rollforward pindex
        (range' (pindexFork.nHeight + 1) (pindex.nHeight - pindexFork.nHeight)) view =
          .ok (some (applyAll view forth))) ∧
      applyAll coins' forth = coins := by
  induction h generalizing txs coins with
  | refl =>
    refine ⟨txs, coins, [], [], hchain, rollback_self store _, rfl, fun view => ?_, rfl⟩
    rw [Nat.sub_self, range'_zero]
    rfl
  | @step pprev hash nTime hanc ih =>
    cases hchain with
    | @next _ txs vtx coins _ _ st hprev hread hblock hrefs hids hst hundo =>
      obtain ⟨txs', coins', back, forth, hfork, hback, hcoins', hforth, hcoins⟩ := ih hprev
      have hfresh := hprev.freshBlock hids
      have hle := hanc.nHeight_le
      have hne : next pprev hash nTime ≠ pindexFork := by
        rintro rfl
        rw [nHeight] at hle
        omega
      have hheights : range' (pindexFork.nHeight + 1)
            ((next pprev hash nTime).nHeight - pindexFork.nHeight) =
          range' (pindexFork.nHeight + 1) (pprev.nHeight - pindexFork.nHeight) ++
            [(next pprev hash nTime).nHeight] := by
        rw [nHeight, Nat.sub_add_comm hle, range'_1_concat]
        congr 2
        omega
      refine ⟨txs', coins', undoUpdates vtx (next pprev hash nTime).nHeight coins ++ back,
        forth ++ connectUpdates vtx (next pprev hash nTime).nHeight, hfork, fun view => ?_, ?_,
        fun view => ?_, ?_⟩
      · obtain ⟨res, hdisconnect, hres⟩ := disconnectBlock_eq hprev hids hblock hst hundo view
        simp only [BlockStore.rollback, if_neg hne, hread, hdisconnect, ok_bind, if_neg hres, hback,
          applyAll_append]
      · rw [applyAll_append, applyAll_undoUpdates, insertAll_blockSpent hfresh hst,
          eraseAll_insertAll hfresh.notMem, hcoins']
      all_goals obtain ⟨hnull, -, checks, -, rfl⟩ :=
        (connectTxs_eq_ok_iff (fun _ _ _ _ => rfl) hfresh).mp hst
      · have hbelow : ∀ n ∈ range' (pindexFork.nHeight + 1)
            (pprev.nHeight - pindexFork.nHeight), n ≤ pprev.nHeight := fun n hn => by
          rw [mem_range'_1] at hn
          omega
        have htop : (next pprev hash nTime).getAncestor
            (next pprev hash nTime).nHeight = some (.next pprev hash nTime) := if_pos rfl
        rw [hheights, rollforward_append ((rollforward_next hbelow view).trans (hforth view))]
        simp only [BlockStore.rollforward, htop, rollforwardBlock_eq hread hnull, ok_bind,
          applyAll_append]
      · rw [applyAll_append, hcoins, applyAll_connectUpdates]
        rfl

end Replay

end RadiantCore
