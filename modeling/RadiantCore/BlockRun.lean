import RadiantCore.ReferenceRun

/-!
# Connecting a block and chains of blocks

`connectBlock` is `CChainState::ConnectBlock` as a whole : the context-free checks, the
references of the coinbase, the stage that changes the coins, the block reward and the
result of the script checks. `connectBlock_eq_ok` says what an accepted block satisfies.

`BlockRun` is a chain of accepted blocks. Script checks only reject, so a chain of blocks
is a run of the stage without them (`BlockRun.utxoRun`), and what holds of all such runs
holds of chains.
-/

namespace RadiantCore

variable [Crypto] {γ : Type}

/-! ## The block -/

/-- What a coins view holds : the coins and the block up to which they are connected. -/
structure CoinsTip where
  coins : CoinsMap
  hashBlock : Uint256

/-- The check of `ConnectBlock` that the coinbase pays at most the fees and the subsidy. -/
def checkBlockReward (params : Params) (nHeight : ℕ) (nFees : ℤ) (vtx : List CTransaction) :
    Except Failure Unit := do
  let blockReward ← addAmount nFees (getBlockSubsidy nHeight params)
  match vtx with
  | [] => .error (.abort "block.vtx[0]")
  | coinbase :: _ =>
    let valueOut ← coinbase.getValueOut
    require (valueOut ≤ blockReward) (rejectInvalid 100 "bad-cb-amount")

/-- `CChainState::ConnectBlock`, with the coins and the undo data it leaves. The script checks
of a transaction are `scripts`, and `wait` is the result of `control.Wait()` on the checks
handed over. Undo data is written unless `fJustCheck`. -/
def connectBlock (scripts : ScriptStage γ) (wait : List γ → Bool) (params : Params)
    (options : BlockValidationOptions) (fJustCheck : Bool) (block : CBlock)
    (pindex : CBlockIndex) (tip : CoinsTip) : Except Failure (CoinsTip × List (List Coin)) := do
  require (pindex.getBlockHash = block.getHash) (.abort "*pindex->phashBlock == block.GetHash()")
  checkBlock params { options with checkPoW := !fJustCheck, checkMerkleRoot := !fJustCheck } block
  require ((pindex.pprev?.map CBlockIndex.getBlockHash).getD Blob.null = tip.hashBlock)
    (.abort "hashPrevBlock == view.GetBestBlock()")
  let hashBlock := if fJustCheck then tip.hashBlock else pindex.getBlockHash
  if block.getHash = params.hashGenesisBlock then return (⟨tip.coins, hashBlock⟩, [])
  require pindex.pprev?.isSome (.abort "pindex->pprev")
  block.vtx.forM checkCoinbaseRefs
  let st ← connectTxs scripts params pindex block.vtx tip.coins
  checkBlockReward params pindex.nHeight st.nFees block.vtx
  require (wait st.vChecks) (rejectInvalid 100 "blk-bad-inputs")
  return (⟨st.view, hashBlock⟩, st.vtxundo)

/-- A run of `ConnectBlock` at consecutive heights, from no coins at the genesis block. The
scripts of a block depend on its index, and `assume` holds of every block where it is
connected. -/
inductive BlockRun (assume : CoinsMap → List CTransaction → Prop)
    (scripts : CBlockIndex → ScriptStage γ) (wait : List γ → Bool) (params : Params) :
    CBlockIndex → CoinsTip → Prop
  | genesis (hash : Uint256) (nTime : UInt32) :
      BlockRun assume scripts wait params (.genesis hash nTime) ⟨∅, hash⟩
  | block {pprev : CBlockIndex} {tip tip' : CoinsTip} {hash : Uint256} {nTime : UInt32}
      {options : BlockValidationOptions} {block : CBlock} {undo : List (List Coin)} :
      BlockRun assume scripts wait params pprev tip → assume tip.coins block.vtx →
      connectBlock (scripts (.next pprev hash nTime)) wait params options false block
        (.next pprev hash nTime) tip = .ok (tip', undo) →
      BlockRun assume scripts wait params (.next pprev hash nTime) tip'

variable {scripts : ScriptStage γ} {wait : List γ → Bool} {params : Params}
  {pindex : CBlockIndex}

variable {vtx : List CTransaction}

theorem checkBlockReward_eq_ok {nHeight : ℕ} {nFees : ℤ} {u : Unit}
    (h : checkBlockReward params nHeight nFees vtx = .ok u) :
    ∀ coinbase ∈ vtx.head?, coinbase.valueOut ≤ nFees + getBlockSubsidy nHeight params := by
  rw [checkBlockReward, bind_eq_ok_iff] at h
  obtain ⟨reward, hreward, h⟩ := h
  obtain rfl := addAmount_eq_ok hreward
  intro coinbase hcb
  obtain ⟨txs, rfl⟩ := List.head?_eq_some_iff.mp hcb
  simp only [bind_eq_ok_iff, CMutableTransaction.getValueOut_eq_ok_iff, require_eq_ok_iff] at h
  obtain ⟨_, ⟨-, -, rfl⟩, hle⟩ := h
  exact hle

/-- What an accepted block satisfies, unless it is the genesis block, which is skipped. -/
structure BlockAccepted (scripts : ScriptStage γ) (wait : List γ → Bool) (params : Params)
    (block : CBlock) (pindex : CBlockIndex) (view : CoinsMap) (st : ConnectState γ) : Prop where
  coinbaseRefs : ∀ tx ∈ block.vtx, checkCoinbaseRefs tx = .ok ()
  connected : connectTxs scripts params pindex block.vtx view = .ok st
  reward : checkBlockReward params pindex.nHeight st.nFees block.vtx = .ok ()
  scripts : wait st.vChecks = true

variable {tip : CoinsTip}

theorem connectBlock_eq_ok {options : BlockValidationOptions} {fJustCheck : Bool} {block : CBlock}
    {tip' : CoinsTip} {undo : List (List Coin)}
    (h : connectBlock scripts wait params options fJustCheck block pindex tip =
      .ok (tip', undo)) :
    checkBlock params { options with checkPoW := !fJustCheck, checkMerkleRoot := !fJustCheck }
      block = .ok () ∧
      (tip'.coins = tip.coins ∨
        ∃ st, BlockAccepted scripts wait params block pindex tip.coins st ∧
          tip'.coins = st.view ∧ undo = st.vtxundo) := by
  simp only [connectBlock, bind_eq_ok_iff, exists_unit_iff, require_eq_ok_iff] at h
  obtain ⟨-, hcheck, -, h⟩ := h
  refine ⟨hcheck, ?_⟩
  by_cases hgenesis : block.getHash = params.hashGenesisBlock
  · rw [if_pos hgenesis, pure_eq_ok_iff, Prod.mk.injEq] at h
    rw [← h.1]
    exact Or.inl rfl
  · simp only [if_neg hgenesis, bind_eq_ok_iff, exists_unit_iff, require_eq_ok_iff,
      forM_eq_ok_iff, pure_eq_ok_iff, Prod.mk.injEq] at h
    obtain ⟨-, hrefs, st, hst, hreward, hwait, htip, hundo⟩ := h
    exact Or.inr ⟨st, ⟨hrefs, hst, hreward, hwait⟩, congrArg CoinsTip.coins htip.symm, hundo.symm⟩

/-! ## Script checks only reject -/

/-- The state of the loop without the script checks. -/
def ConnectState.forget (st : ConnectState γ) : ConnectState Empty :=
  ⟨st.view, st.nFees, st.vtxundo, []⟩

variable {nTx : ℕ} {st st' : ConnectState γ}

theorem connectTx_forget {tx : CTransaction}
    (h : connectTx scripts params pindex nTx st tx = .ok st') :
    connectTx (fun _ _ => .ok []) params pindex nTx st.forget tx = .ok st'.forget := by
  cases hcb : tx.isCoinBase with
  | true =>
    simp only [connectTx, hcb, if_true, bind_eq_ok_iff, exists_unit_iff, require_eq_ok_iff,
      pure_eq_ok_iff] at h ⊢
    obtain ⟨fee, hfee, nFees, hadd, hrange, rfl⟩ := h
    exact ⟨fee, hfee, nFees, hadd, hrange, rfl⟩
  | false =>
    simp only [connectTx, hcb, Bool.false_eq_true, if_false, bind_eq_ok_iff, exists_unit_iff,
      require_eq_ok_iff, pure_eq_ok_iff] at h ⊢
    obtain ⟨fee, hfee, nFees, hadd, hrange, valid, hvalid, hv, final, hfinal, hf, vChecks, -, hroom,
      res, hspend, rfl⟩ := h
    exact ⟨fee, hfee, nFees, hadd, hrange, valid, hvalid, hv, final, hfinal, hf, [], rfl, hroom,
      res, hspend, rfl⟩

theorem connectLoop_forget (h : connectLoop scripts params pindex nTx vtx st = .ok st') :
    connectLoop (fun _ _ => .ok []) params pindex nTx vtx st.forget = .ok st'.forget := by
  induction vtx generalizing st with
  | nil =>
    rw [connectLoop, List.foldlM_nil, pure_eq_ok_iff] at h
    exact h ▸ rfl
  | cons tx vtx ih =>
    rw [connectLoop, List.foldlM_cons, bind_eq_ok_iff] at h ⊢
    obtain ⟨m, hm, hrest⟩ := h
    exact ⟨m.forget, connectTx_forget hm, ih hrest⟩

theorem utxoStage_of_connectTxs {view : CoinsMap}
    (h : connectTxs scripts params pindex vtx view = .ok st) :
    utxoStage params pindex vtx view = .ok st.forget := by
  rw [connectTxs, bind_eq_ok_iff] at h
  obtain ⟨coins, hcoins, hloop⟩ := h
  rw [utxoStage, connectTxs, bind_eq_ok_iff]
  exact ⟨coins, hcoins, connectLoop_forget hloop⟩

/-- The coins after a chain of blocks are those of a run of the stage without scripts. -/
theorem BlockRun.utxoRun {assume : CoinsMap → List CTransaction → Prop}
    {scripts : CBlockIndex → ScriptStage γ} (h : BlockRun assume scripts wait params pindex tip) :
    ∃ txs, UtxoRun params txs tip.coins := by
  induction h with
  | genesis => exact ⟨[], .empty⟩
  | block _ _ hconnect ih =>
    obtain ⟨txs, hrun⟩ := ih
    rcases (connectBlock_eq_ok hconnect).2 with hsame | ⟨st, hacc, hview, -⟩
    · exact ⟨txs, hsame ▸ hrun⟩
    · rw [hview]
      exact ⟨_, hrun.block hacc.coinbaseRefs (utxoStage_of_connectTxs hacc.connected)⟩

end RadiantCore
