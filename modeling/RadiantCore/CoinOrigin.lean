import RadiantCore.BlockRun

/-!
# Where the coins of a chain come from

`ChainRun` is a chain of connected blocks that remembers its blocks. Every coin is an output of
a transaction of one of them, with the height of that block (`ChainRun.origin`). No freshness of
the transaction ids is assumed : a coinbase may overwrite a coin, and the coin that is left is
then its own.
-/

namespace RadiantCore

open List

variable [Crypto] {γ : Type}

/-! ## One block -/

variable {vtx : List CTransaction} {view : CoinsMap} {o : COutPoint} {c : Coin}

/-- A coin after the outputs of a block are added was there or is one of them. -/
theorem lookup_of_addBlockCoins {nHeight : ℕ} {view' : CoinsMap} (h : addBlockCoins vtx nHeight view = .ok view')
    (hc : view'.lookup o = some c) : view.lookup o = some c ∨ (o, c) ∈ blockCoins vtx nHeight := by
  have hfold : vtx.foldlM (fun view tx => addCoins view tx nHeight false) view = .ok view' := by
    unfold addBlockCoins at h
    split at h
    · cases h
    · exact h
  clear h
  induction vtx generalizing view with
  | nil =>
    rw [foldlM_nil, pure_eq_ok_iff] at hfold
    exact .inl (hfold ▸ hc)
  | cons tx vtx ih =>
    rw [foldlM_cons, bind_eq_ok_iff] at hfold
    obtain ⟨mid, hmid, hrest⟩ := hfold
    obtain ⟨-, -, rfl⟩ := addCoins_eq_ok_iff.mp hmid
    rw [blockCoins, flatMap_cons, mem_append]
    rcases ih hrest with hlookup | hnew
    · rcases (lookup_insertAll (nodup_coinsOf tx nHeight)).mp hlookup with hnew | ⟨-, hold⟩
      · exact .inr (.inl hnew)
      · exact .inl hold
    · exact .inr (.inr hnew)

variable {scripts : ScriptStage γ} {params : Params} {pindex : CBlockIndex} {nTx : ℕ}
  {st st' : ConnectState γ} {tx : CTransaction}

/-- The loop over the transactions only removes coins. -/
theorem lookup_of_connectTx
    (h : connectTx scripts params pindex nTx st tx = .ok st') (hc : st'.view.lookup o = some c) :
    st.view.lookup o = some c := by
  cases hcb : tx.isCoinBase with
  | true =>
    simp only [connectTx, hcb, if_true, bind_eq_ok_iff, exists_unit_iff, require_eq_ok_iff,
      pure_eq_ok_iff] at h
    obtain ⟨_, _, _, _, _, rfl⟩ := h
    exact hc
  | false =>
    simp only [connectTx, hcb, Bool.false_eq_true, if_false, bind_eq_ok_iff, exists_unit_iff,
      require_eq_ok_iff, pure_eq_ok_iff, spendCoins, foldlM_spendInput_eq_ok_iff] at h
    obtain ⟨_, _, _, _, _, _, _, _, _, _, _, _, _, _, _, ⟨_, _, rfl⟩, rfl⟩ := h
    exact (lookup_eraseAll_eq_some.mp hc).2

theorem lookup_of_connectLoop (h : connectLoop scripts params pindex nTx vtx st = .ok st')
    (hc : st'.view.lookup o = some c) : st.view.lookup o = some c := by
  refine foldlM_inv (fun mid => mid.view.lookup o = some c → st.view.lookup o = some c) ?_ id h hc
  exact fun mid tx _ mid' hinv hmid hc => hinv (lookup_of_connectTx hmid hc)

variable {wait : List γ → Bool} {block : CBlock} {tip : CoinsTip}

/-- A coin after a block was there or is an output of the block. -/
theorem lookup_of_connectBlock {options : BlockValidationOptions} {fJustCheck : Bool}
    {tip' : CoinsTip} {undo : List (List Coin)}
    (h : connectBlock scripts wait params options fJustCheck block pindex tip = .ok (tip', undo))
    (hc : tip'.coins.lookup o = some c) :
    tip.coins.lookup o = some c ∨ (o, c) ∈ blockCoins block.vtx pindex.nHeight := by
  rcases (connectBlock_eq_ok h).2 with hsame | ⟨st, hacc, hview, -⟩
  · exact .inl (hsame ▸ hc)
  · have hconnected := hacc.connected
    rw [connectTxs, bind_eq_ok_iff] at hconnected
    obtain ⟨view, hadd, hloop⟩ := hconnected
    exact lookup_of_addBlockCoins hadd (lookup_of_connectLoop hloop (hview ▸ hc))

/-! ## Scripts that parse -/

theorem parses_of_connectTx
    (h : connectTx scripts params pindex nTx st tx = .ok st') (hcb : tx.isCoinBase = false) :
    ∀ out ∈ tx.vout, Parses out.scriptPubKey := by
  simp only [connectTx, hcb, Bool.false_eq_true, if_false, bind_eq_ok_iff, exists_unit_iff,
    require_eq_ok_iff] at h
  obtain ⟨_, _, _, _, _, _, hrefs, rfl, _⟩ := h
  exact (referenceConditions_of_eq_true hrefs).parses

theorem parses_of_checkCoinbaseRefs (h : checkCoinbaseRefs tx = .ok ())
    (hcb : tx.isCoinBase = true) : ∀ out ∈ tx.vout, Parses out.scriptPubKey := by
  intro out hout
  have hcheck := forM_eq_ok_iff.mp h out hout
  rw [if_pos hcb] at hcheck
  by_contra hparses
  rw [getPushRefs_eq_none_iff.mpr hparses] at hcheck
  cases hcheck

/-- Every output of an accepted block has a script that parses. -/
theorem BlockAccepted.parses (h : BlockAccepted scripts wait params block pindex view st)
    (htx : tx ∈ block.vtx) : ∀ out ∈ tx.vout, Parses out.scriptPubKey := by
  cases hcb : tx.isCoinBase with
  | true => exact parses_of_checkCoinbaseRefs (h.coinbaseRefs tx htx) hcb
  | false =>
    have hconnected := h.connected
    rw [connectTxs, bind_eq_ok_iff] at hconnected
    obtain ⟨view, -, hloop⟩ := hconnected
    obtain ⟨pre, post, hsplit⟩ := append_of_mem htx
    rw [connectLoop, hsplit, foldlM_append, bind_eq_ok_iff] at hloop
    obtain ⟨mid, -, hrest⟩ := hloop
    rw [foldlM_cons, bind_eq_ok_iff] at hrest
    obtain ⟨_, hstep, -⟩ := hrest
    exact parses_of_connectTx hstep hcb

/-- So do the coins after a chain of blocks. -/
theorem BlockRun.parses {assume : CoinsMap → List CTransaction → Prop}
    {scripts : CBlockIndex → ScriptStage γ} (h : BlockRun assume scripts wait params pindex tip) (hc : tip.coins.lookup o = some c) :
    Parses c.out.scriptPubKey := by
  induction h generalizing o c with
  | genesis hash nTime => simp at hc
  | block _ _ hblock ih =>
    rcases (connectBlock_eq_ok hblock).2 with hsame | ⟨st, hacc, hview, -⟩
    · exact ih (hsame ▸ hc)
    · rcases lookup_of_connectBlock hblock hc with hold | hnew
      · exact ih hold
      · obtain ⟨tx, htx, hmem⟩ := mem_blockCoins_iff.mp hnew
        obtain ⟨out, hout, -, rfl⟩ := mem_coinsOf_iff.mp hmem
        refine hacc.parses htx out ?_
        rw [← tx.map_snd_outputs]
        exact mem_map_of_mem hout

/-! ## Chains -/

/-- A run of `ConnectBlock` at consecutive heights, from no coins at the genesis block, with its
blocks, the last one first. `accept` holds of every block and the index of its parent. -/
inductive ChainRun (accept : CBlockIndex → CBlock → Prop) (scripts : CBlockIndex → ScriptStage γ)
    (wait : List γ → Bool) (params : Params) :
    CBlockIndex → List (CBlockIndex × CBlock) → CoinsTip → Prop
  | genesis (hash : Uint256) (nTime : UInt32) :
      ChainRun accept scripts wait params (.genesis hash nTime) [] ⟨∅, hash⟩
  | block {pprev : CBlockIndex} {blocks : List (CBlockIndex × CBlock)} {tip tip' : CoinsTip}
      {hash : Uint256} {nTime : UInt32} {options : BlockValidationOptions} {block : CBlock}
      {undo : List (List Coin)} :
      ChainRun accept scripts wait params pprev blocks tip → accept pprev block →
      connectBlock (scripts (.next pprev hash nTime)) wait params options false block
        (.next pprev hash nTime) tip = .ok (tip', undo) →
      ChainRun accept scripts wait params (.next pprev hash nTime)
        ((.next pprev hash nTime, block) :: blocks) tip'

namespace ChainRun

variable {accept : CBlockIndex → CBlock → Prop} {scripts : CBlockIndex → ScriptStage γ}
  {wait : List γ → Bool} {params : Params} {pindex : CBlockIndex}
  {blocks : List (CBlockIndex × CBlock)} {tip : CoinsTip}

variable {p : CBlockIndex × CBlock}

section

variable (h : ChainRun accept scripts wait params pindex blocks tip)

include h

/-- Every block of a chain was accepted after its parent and passed `CheckBlock`. -/
theorem accepted (hp : p ∈ blocks) :
    ∃ pprev options, p.1.pprev? = some pprev ∧ accept pprev p.2 ∧
      checkBlock params options p.2 = .ok () := by
  induction h with
  | genesis => cases hp
  | block _ haccept hconnect ih =>
    rcases mem_cons.mp hp with rfl | hold
    · exact ⟨_, _, rfl, haccept, (connectBlock_eq_ok hconnect).1⟩
    · exact ih hold

theorem nHeight_le (hp : p ∈ blocks) : p.1.nHeight ≤ pindex.nHeight := by
  induction h with
  | genesis => cases hp
  | block _ _ _ ih =>
    rcases mem_cons.mp hp with rfl | hold
    · exact le_rfl
    · exact (ih hold).trans (Nat.le_succ _)

/-- Every coin of a chain is an output of one of its transactions. -/
theorem origin {o : COutPoint} {c : Coin} (hc : tip.coins.lookup o = some c) :
    ∃ p ∈ blocks, ∃ tx ∈ p.2.vtx, (o, c) ∈ coinsOf tx p.1.nHeight := by
  induction h with
  | genesis => simp at hc
  | block _ _ hconnect ih =>
    rcases lookup_of_connectBlock hconnect hc with hold | hnew
    · obtain ⟨p, hp, hrest⟩ := ih hold
      exact ⟨p, mem_cons_of_mem _ hp, hrest⟩
    · exact ⟨_, mem_cons_self, mem_blockCoins_iff.mp hnew⟩

end

end ChainRun

end RadiantCore
