import RadiantCore.ConnectBlock

/-!
# Blocks of new transactions

A block is new for a map of coins when its transactions have distinct identifiers and none
of their outputs is a coin of the map (`FreshBlock`). For such a block the outputs are
added without an overwrite (`addBlockCoins_eq_ok_iff`), and the whole stage of
`ConnectBlock` that changes the coins is described by the coins before it and the list of
its transactions (`connectTxs_eq_ok_iff`) : add the coins of all transactions, check each
transaction against the result, remove what they spend.

Nothing in that description depends on the order of the transactions, so the stage
accepts a block in one order if and only if it accepts it in every other, with the same
fees and the same coins (`utxoStage_perm`).
-/

namespace RadiantCore

open List

section Stage

variable [Crypto] {γ : Type}

/-- The transactions of a block have distinct identifiers, and none of their outputs is a
coin of the map. -/
structure FreshBlock (view : CoinsMap) (vtx : List CTransaction) : Prop where
  nodup : (vtx.map CTransaction.getId).Nodup
  fresh : ∀ tx ∈ vtx, ∀ p ∈ tx.outputs, p.1 ∉ view

/-- The coins the transactions of a block create. -/
def blockCoins (vtx : List CTransaction) (nHeight : ℕ) : List (COutPoint × Coin) :=
  vtx.flatMap fun tx => coinsOf tx nHeight

variable {view : CoinsMap} {vtx vtx' : List CTransaction} {nHeight : ℕ}

variable {o : COutPoint}

theorem mem_blockCoins_iff {c : Coin} :
    (o, c) ∈ blockCoins vtx nHeight ↔ ∃ tx ∈ vtx, (o, c) ∈ coinsOf tx nHeight :=
  mem_flatMap

variable {tx : CTransaction}

/-- A created coin is an output of its transaction. -/
theorem mem_outputs_of_mem_coinsOf
    (h : o ∈ (coinsOf tx nHeight).map Prod.fst) : ∃ out, (o, out) ∈ tx.outputs := by
  obtain ⟨⟨o, c⟩, hmem, rfl⟩ := mem_map.mp h
  obtain ⟨out, hout, -⟩ := mem_coinsOf_iff.mp hmem
  exact ⟨out, hout⟩

/-- Distinct identifiers make distinct outpoints. -/
theorem nodup_blockCoins (h : (vtx.map CTransaction.getId).Nodup) :
    ((blockCoins vtx nHeight).map Prod.fst).Nodup := by
  rw [blockCoins, map_flatMap, nodup_flatMap]
  refine ⟨fun tx _ => nodup_coinsOf tx nHeight, ?_⟩
  refine (pairwise_map.mp h).imp fun {tx tx'} hne o ho ho' => hne ?_
  rw [← txid_of_mem_coinsOf ho, ← txid_of_mem_coinsOf ho']

/-- None of the coins a new block creates is in the map. -/
theorem FreshBlock.notMem (h : FreshBlock view vtx) :
    ∀ o ∈ (blockCoins vtx nHeight).map Prod.fst, o ∉ view := by
  intro o ho
  obtain ⟨p, hp, rfl⟩ := mem_map.mp ho
  obtain ⟨tx, htx, hcoin⟩ := mem_blockCoins_iff.mp hp
  obtain ⟨out, hout, -⟩ := mem_coinsOf_iff.mp hcoin
  exact h.fresh tx htx _ hout

/-- After the coins of its first transaction, the rest of a new block is still new. -/
theorem FreshBlock.tail (h : FreshBlock view (tx :: vtx)) :
    FreshBlock (insertAll view (coinsOf tx nHeight)) vtx := by
  obtain ⟨hnodup, hfresh⟩ := h
  rw [map_cons, nodup_cons] at hnodup
  refine ⟨hnodup.2, fun tx' htx' p hp hmem => ?_⟩
  have hid : p.1.txid = tx'.getId := by
    obtain ⟨i, -, hi⟩ := CTransaction.mem_outputs_iff.mp hp
    exact congrArg COutPoint.txid hi
  have hne : p.1 ∉ (coinsOf tx nHeight).map Prod.fst := fun ho =>
    hnodup.1 (mem_map.mpr ⟨tx', htx', hid.symm.trans (txid_of_mem_coinsOf ho)⟩)
  rw [Finmap.mem_iff, lookup_insertAll_of_notMem hne] at hmem
  exact hfresh tx' (mem_cons_of_mem _ htx') p hp (Finmap.mem_iff.mpr hmem)

/-- Adding the outputs of a new block : it fails on a null output only. -/
theorem addBlockCoins_eq_ok_iff (hfresh : FreshBlock view vtx) {view' : CoinsMap} :
    addBlockCoins vtx nHeight view = .ok view' ↔
      (∀ tx ∈ vtx, ∀ out ∈ tx.vout, out.isNull = false) ∧
        view' = insertAll view (blockCoins vtx nHeight) := by
  have hfold : vtx.foldlM (fun view tx => addCoins view tx nHeight false) view = .ok view' ↔
      (∀ tx ∈ vtx, ∀ out ∈ tx.vout, out.isNull = false) ∧
        view' = insertAll view (blockCoins vtx nHeight) := by
    induction vtx generalizing view with
    | nil =>
      rw [foldlM_nil, pure_eq_ok_iff, eq_comm]
      simp [blockCoins, insertAll]
    | cons tx vtx ih =>
      have hnew : ∀ o ∈ (coinsOf tx nHeight).map Prod.fst, o ∉ view := by
        intro o ho
        obtain ⟨_, hout⟩ := mem_outputs_of_mem_coinsOf ho
        exact hfresh.fresh tx (mem_cons_self ..) _ hout
      rw [foldlM_cons, bind_eq_ok_iff, forall_mem_cons, blockCoins, flatMap_cons,
        insertAll_append]
      constructor
      · rintro ⟨m, hm, hrest⟩
        obtain ⟨hnull, -, rfl⟩ := addCoins_eq_ok_iff.mp hm
        obtain ⟨hnulls, rfl⟩ := (ih hfresh.tail).mp hrest
        exact ⟨⟨hnull, hnulls⟩, rfl⟩
      · rintro ⟨⟨hnull, hnulls⟩, rfl⟩
        exact ⟨_, addCoins_eq_ok_iff.mpr ⟨hnull, Or.inr hnew, rfl⟩,
          (ih hfresh.tail).mpr ⟨hnulls, rfl⟩⟩
  rw [← hfold, addBlockCoins]
  split
  · rename_i what hfail
    simp [hfail]
  · rfl

variable {params : Params} {pindex : CBlockIndex}

/-- The stage of `ConnectBlock` that changes the coins, for a new block. -/
theorem connectTxs_eq_ok_iff {scripts : ScriptStage γ}
    (hlocal : scripts.IsLocal) (hfresh : FreshBlock view vtx) {st : ConnectState γ} :
    connectTxs scripts params pindex vtx view = .ok st ↔
      (∀ tx ∈ vtx, ∀ out ∈ tx.vout, out.isNull = false) ∧
        LoopAccepts params pindex vtx.length (insertAll view (blockCoins vtx pindex.nHeight)) 0 0
          (regularTxs vtx) ∧
        ∃ checks, (regularTxs vtx).mapM
            (scripts (insertAll view (blockCoins vtx pindex.nHeight))) = .ok checks ∧
          st = ConnectState.spendAll
            ⟨insertAll view (blockCoins vtx pindex.nHeight), 0, [], []⟩ (regularTxs vtx) checks := by
  rw [connectTxs, bind_eq_ok_iff]
  simp only [addBlockCoins_eq_ok_iff hfresh]
  constructor
  · rintro ⟨_, ⟨hnull, rfl⟩, hloop⟩
    exact ⟨hnull, (connectLoop_eq_ok_iff hlocal moneyRange_zero).mp hloop⟩
  · rintro ⟨hnull, hloop⟩
    exact ⟨_, ⟨hnull, rfl⟩, (connectLoop_eq_ok_iff hlocal moneyRange_zero).mpr hloop⟩

/-! ## The order of the transactions -/

theorem FreshBlock.perm (h : FreshBlock view vtx) (hperm : vtx.Perm vtx') :
    FreshBlock view vtx' :=
  ⟨(hperm.map _).nodup_iff.mp h.nodup, fun tx htx => h.fresh tx (hperm.mem_iff.mpr htx)⟩

theorem LoopAccepts.perm {nTx nUndo : ℕ} {nFees : ℤ}
    {txs txs' : List CTransaction} (h : LoopAccepts params pindex nTx view nFees nUndo txs)
    (hperm : txs.Perm txs') : LoopAccepts params pindex nTx view nFees nUndo txs' := by
  obtain ⟨hnodup, hacc, hfees, hroom⟩ := h
  refine ⟨(hperm.flatMap_right _).nodup_iff.mp hnodup,
    fun tx htx => hacc tx (hperm.mem_iff.mpr htx), ?_, ?_⟩
  · rwa [totalFees, ← (hperm.map _).sum_eq, ← totalFees]
  · rw [← hperm.length_eq]
    exact hroom.imp (fun hnil => (hnil ▸ hperm).symm.eq_nil) id

/-- A block that the stage accepts is accepted in every order of its transactions, with
the same fees and the same coins. -/
theorem utxoStage_of_perm
    (hfresh : FreshBlock view vtx) (hperm : vtx.Perm vtx') {st : ConnectState Empty}
    (h : utxoStage params pindex vtx view = .ok st) :
    ∃ st', utxoStage params pindex vtx' view = .ok st' ∧ st'.nFees = st.nFees ∧
      st'.view = st.view := by
  have hlocal : ScriptStage.IsLocal (γ := Empty) fun _ _ => .ok [] := fun _ _ _ _ => rfl
  have hcoins : insertAll view (blockCoins vtx pindex.nHeight) =
      insertAll view (blockCoins vtx' pindex.nHeight) :=
    insertAll_perm (nodup_blockCoins hfresh.nodup) (hperm.flatMap_right _)
  have hreg : (regularTxs vtx).Perm (regularTxs vtx') := hperm.filter _
  obtain ⟨hnull, hloop, checks, -, rfl⟩ := (connectTxs_eq_ok_iff hlocal hfresh).mp h
  rw [hcoins, hperm.length_eq] at hloop
  obtain ⟨checks', hchecks'⟩ : ∃ checks', (regularTxs vtx').mapM
      (fun _ => (Except.ok [] : Except Failure (List Empty))) = .ok checks' :=
    exists_mapM_eq_ok_iff.mpr fun _ _ => ⟨[], rfl⟩
  refine ⟨_, (connectTxs_eq_ok_iff hlocal (hfresh.perm hperm)).mpr
    ⟨fun tx htx => hnull tx (hperm.mem_iff.mpr htx), hloop.perm hreg, checks', hchecks', rfl⟩,
    ?_, ?_⟩
  · simp only [ConnectState.spendAll, totalFees, hcoins, (hreg.map _).sum_eq]
  · simp only [ConnectState.spendAll, hcoins]
    exact (eraseAll_perm (hreg.flatMap_right _)).symm

/-- The order of the transactions of a new block changes neither whether the stage accepts
it, nor its fees, nor the coins after it. -/
theorem utxoStage_perm {params : Params} {pindex : CBlockIndex} (hfresh : FreshBlock view vtx)
    (hperm : vtx.Perm vtx') :
    (utxoStage params pindex vtx view).toOption.map (fun st => (st.nFees, st.view)) =
      (utxoStage params pindex vtx' view).toOption.map fun st => (st.nFees, st.view) := by
  cases hst : utxoStage params pindex vtx view with
  | ok st =>
    obtain ⟨st', hst', hfees, hview⟩ := utxoStage_of_perm hfresh hperm hst
    simp [hst', Except.toOption, hfees, hview]
  | error e =>
    cases hst' : utxoStage params pindex vtx' view with
    | error e' => rfl
    | ok st' =>
      obtain ⟨st, hok, -⟩ := utxoStage_of_perm (hfresh.perm hperm) hperm.symm hst'
      simp [hst] at hok

end Stage

/-! ## A block that spends an output of a later transaction -/

/-- Parameters with every rule active from the start. -/
def sampleParams : Params where
  hashGenesisBlock := Blob.null
  nSubsidyHalvingInterval := 210000
  BIP16Height := 0
  BIP34Height := 0
  BIP65Height := 0
  BIP66Height := 0
  CSVHeight := 0
  uahfHeight := 0
  ERHeight := 0
  PushTXStateHeight := 0
  powLimit := Blob.fill 0xff

/-- A block index of height 2. -/
def sampleIndex : CBlockIndex :=
  .next (.next (.genesis Blob.null 0) Blob.null 1) Blob.null 2

/-- A single coin, at the first output of the null identifier. -/
def sampleView : CoinsMap := (∅ : CoinsMap).insert ⟨Blob.null, 0⟩ ⟨⟨50, [0x51]⟩, 1, false⟩

section Sample

attribute [local instance] Crypto.toy

/-- A transaction with one input and one output. -/
def sampleTx (prevout : COutPoint) (nValue : Int64) (script : CScript) : CTransaction :=
  .ofLegacy ⟨[⟨prevout, [0x51], 0xffffffff⟩], [⟨nValue, script⟩], 1, 0⟩
    version_one one_lt_word

/-- A coinbase without reward. -/
def sampleCoinbase : CTransaction := sampleTx ⟨Blob.null, 0xffffffff⟩ 0 [0x51]

/-- Spends the coin of `sampleView`. -/
def sampleParent : CTransaction := sampleTx ⟨Blob.null, 0⟩ 20 [0x51]

/-- Spends the output of `sampleParent`. -/
def sampleChild : CTransaction := sampleTx (sampleParent.outpoint 0) 10 [0x51]

/-- The child before its parent : a new block, accepted in both orders with fees 40. -/
theorem utxoStage_perm_sample :
    FreshBlock sampleView [sampleCoinbase, sampleChild, sampleParent] ∧
      (utxoStage sampleParams sampleIndex [sampleCoinbase, sampleChild, sampleParent]
        sampleView).toOption.map ConnectState.nFees = some 40 ∧
      (utxoStage sampleParams sampleIndex [sampleCoinbase, sampleChild, sampleParent]
          sampleView).toOption.map (fun st => (st.nFees, st.view)) =
        (utxoStage sampleParams sampleIndex [sampleCoinbase, sampleParent, sampleChild]
          sampleView).toOption.map fun st => (st.nFees, st.view) :=
  have hfresh : FreshBlock sampleView [sampleCoinbase, sampleChild, sampleParent] :=
    ⟨by decide +kernel, by decide +kernel⟩
  ⟨hfresh, by decide +kernel, utxoStage_perm hfresh (.cons _ (.swap _ _ _))⟩

end Sample

end RadiantCore
