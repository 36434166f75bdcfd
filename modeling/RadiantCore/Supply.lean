import RadiantCore.AmountRange

/-!
# The supply of coins

No chain of blocks makes more coins than the subsidies allow. A block adds the outputs of
its transactions and removes what they spend, its fees are the difference for the
transactions other than the coinbase, and the coinbase pays at most the fees and the
subsidy (`coinsValue_utxoStage`). The subsidies of all heights together stay below
`MAX_MONEY` (`sum_getBlockSubsidy_le`).
-/

namespace RadiantCore

open List

/-- The value of all coins of a map. -/
def coinsValue (view : CoinsMap) : ℤ := mapSum (fun coin => coin.out.nValue.toInt) view

/-! ## The subsidies -/

theorem sum_range_div (f : ℕ → ℤ) {p : ℕ} (hp : 0 < p) (k : ℕ) :
    ∑ h ∈ Finset.range (p * k), f (h / p) = p * ∑ i ∈ Finset.range k, f i := by
  induction k with
  | zero => simp
  | succ k ih =>
    have hlast : ∑ x ∈ Finset.range p, f ((p * k + x) / p) = p * f k := by
      rw [Finset.sum_congr rfl fun x hx => by
        rw [Nat.mul_add_div hp, Nat.div_eq_of_lt (Finset.mem_range.mp hx), add_zero]]
      simp
    rw [Nat.mul_succ, Finset.sum_range_add, ih, hlast, Finset.sum_range_succ, mul_add]

/-- The subsidies of the blocks of a chain never exceed `MAX_MONEY`. -/
theorem sum_getBlockSubsidy_le {params : Params} (hparams : params.nSubsidyHalvingInterval = 210000)
    (n : ℕ) : ∑ h ∈ Finset.Icc 1 n, getBlockSubsidy h params ≤ maxMoney := by
  let f : ℕ → ℤ := fun k => if k ≥ 64 then 0 else 50000 * 100000000 / 2 ^ k
  have hf : ∀ h, getBlockSubsidy h params = f (h / 210000) := fun h => by
    rw [getBlockSubsidy, hparams]
  have hsub : Finset.Icc 1 n ⊆ Finset.range (210000 * (64 + n)) := fun h hh => by
    rw [Finset.mem_Icc] at hh
    exact Finset.mem_range.mpr (by omega)
  have htail : ∑ i ∈ Finset.range n, f (64 + i) = 0 :=
    Finset.sum_eq_zero fun i _ => if_pos (Nat.le_add_right 64 i)
  calc ∑ h ∈ Finset.Icc 1 n, getBlockSubsidy h params
      ≤ ∑ h ∈ Finset.range (210000 * (64 + n)), getBlockSubsidy h params :=
        Finset.sum_le_sum_of_subset_of_nonneg hsub fun h _ _ =>
          (moneyRange_iff.mp (moneyRange_getBlockSubsidy h params)).1
    _ = 210000 * ∑ i ∈ Finset.range 64, f i := by
        rw [Finset.sum_congr rfl fun h _ => hf h, sum_range_div f (by norm_num),
          Finset.sum_range_add, htail, add_zero]
        rfl
    _ ≤ maxMoney := by decide +kernel

/-! ## The value of the coins over a block -/

section Value

variable [Crypto] {γ : Type} {params : Params} {pindex : CBlockIndex} {view : CoinsMap}
  {vtx : List CTransaction}

/-- The coins of a transaction are worth at most its outputs. -/
theorem sum_coinsOf_le {tx : CTransaction} {nHeight : ℕ}
    (h : ∀ out ∈ tx.vout, 0 ≤ out.nValue.toInt) :
    ((coinsOf tx nHeight).map fun p => p.2.out.nValue.toInt).sum ≤ tx.valueOut := by
  have hout : tx.valueOut = (tx.outputs.map fun p => p.2.nValue.toInt).sum := by
    rw [CMutableTransaction.valueOut, ← tx.map_snd_outputs, map_map]
    rfl
  have hnonneg : ∀ p ∈ tx.outputs, 0 ≤ p.2.nValue.toInt := fun p hp => by
    refine h p.2 ?_
    rw [← tx.map_snd_outputs]
    exact mem_map_of_mem hp
  rw [hout, coinsOf, map_map]
  refine List.Sublist.sum_le_sum ((filter_sublist).map _) ?_
  exact forall_mem_map.mpr hnonneg

/-- Adding the coins of a new block adds at most its outputs. -/
theorem coinsValue_insertAll_le {nHeight : ℕ} (hfresh : FreshBlock view vtx)
    (hnonneg : ∀ tx ∈ vtx, ∀ out ∈ tx.vout, 0 ≤ out.nValue.toInt) :
    coinsValue (insertAll view (blockCoins vtx nHeight)) ≤
      coinsValue view + (vtx.map fun tx => tx.valueOut).sum := by
  have hsum : ((blockCoins vtx nHeight).map fun p => p.2.out.nValue.toInt).sum ≤
      (vtx.map fun tx => tx.valueOut).sum := by
    rw [blockCoins, map_flatMap, flatMap_def, sum_flatten, map_map]
    exact sum_le_sum fun tx htx => sum_coinsOf_le (hnonneg tx htx)
  rw [coinsValue, mapSum_insertAll (nodup_blockCoins hfresh.nodup) hfresh.notMem, ← coinsValue]
  omega

/-- Spending removes the inputs. -/
theorem coinsValue_eraseAll {txs : List CTransaction} (hnodup : (spentBy txs).Nodup)
    (hmem : ∀ o ∈ spentBy txs, o ∈ view) : coinsValue (eraseAll view (spentBy txs)) =
      coinsValue view - (txs.map fun tx => tx.valueIn view).sum := by
  have hsum : ((spentBy txs).map view.valueAt).sum = (txs.map fun tx => tx.valueIn view).sum := by
    rw [spentBy, map_flatMap, flatMap_def, sum_flatten, map_map]
    rfl
  rw [← hsum, coinsValue, mapSum_eraseAll hnodup hmem]
  rfl

theorem totalFees_eq (view : CoinsMap) (txs : List CTransaction) :
    totalFees view txs =
      (txs.map fun tx => tx.valueIn view).sum - (txs.map fun tx => tx.valueOut).sum := by
  induction txs with
  | nil => rfl
  | cons tx txs ih =>
    simp only [totalFees, map_cons, sum_cons, CTransaction.fee] at ih ⊢
    omega

/-- A block adds what its coinbase pays and removes its fees. -/
theorem coinsValue_utxoStage {coinbase : CTransaction} {txs : List CTransaction}
    {st : ConnectState Empty} (hcb : coinbase.isCoinBase = true)
    (htxs : ∀ tx ∈ txs, tx.isCoinBase = false) (hfresh : FreshBlock view (coinbase :: txs))
    (hnonneg : ∀ tx ∈ coinbase :: txs, ∀ out ∈ tx.vout, 0 ≤ out.nValue.toInt)
    (h : utxoStage params pindex (coinbase :: txs) view = .ok st) :
    coinsValue st.view ≤ coinsValue view + coinbase.valueOut - st.nFees := by
  have hlocal : ScriptStage.IsLocal (γ := Empty) fun _ _ => .ok [] := fun _ _ _ _ => rfl
  obtain ⟨-, hloop, checks, -, rfl⟩ := (connectTxs_eq_ok_iff hlocal hfresh).mp h
  rw [regularTxs_of_coinbaseFirst hcb htxs] at hloop ⊢
  have hadd : coinsValue (insertAll view (blockCoins (coinbase :: txs) pindex.nHeight)) ≤ _ :=
    coinsValue_insertAll_le hfresh hnonneg
  simp only [ConnectState.spendAll, totalFees_eq, coinsValue_eraseAll hloop.nodup fun _ => hloop.mem_view,
    map_cons, sum_cons] at hadd ⊢
  omega

/-- A connected block adds at most its subsidy. -/
theorem coinsValue_connectBlock {scripts : ScriptStage γ} {wait : List γ → Bool}
    {options : BlockValidationOptions} {fJustCheck : Bool} {block : CBlock} {tip tip' : CoinsTip}
    {undo : List (List Coin)} (hfresh : FreshBlock tip.coins block.vtx)
    (h : connectBlock scripts wait params options fJustCheck block pindex tip =
      .ok (tip', undo)) :
    coinsValue tip'.coins ≤ coinsValue tip.coins + getBlockSubsidy pindex.nHeight params := by
  have hsubsidy := moneyRange_iff.mp (moneyRange_getBlockSubsidy pindex.nHeight params)
  obtain ⟨hcheck, hsame | ⟨st, hacc, hview, -⟩⟩ := connectBlock_eq_ok h
  · rw [hsame]
    omega
  · have hrange := outputsInRange_of_checkBlock hcheck
    obtain ⟨coinbase, txs, hvtx, hcb, htxs⟩ := checkBlock_coinbaseFirst hcheck
    have hst := utxoStage_of_connectTxs hacc.connected
    have hreward := checkBlockReward_eq_ok hacc.reward
    rw [hvtx] at hfresh hrange hst hreward
    have hpays := hreward coinbase rfl
    have hvalue := coinsValue_utxoStage hcb htxs hfresh (fun tx htx => (hrange tx htx).1) hst
    simp only [ConnectState.forget] at hvalue
    rw [hview]
    omega

variable {scripts : CBlockIndex → ScriptStage γ} {wait : List γ → Bool} {tip : CoinsTip}

theorem BlockRun.coinsValue_le (h : BlockRun FreshBlock scripts wait params pindex tip) :
    coinsValue tip.coins ≤ ∑ n ∈ Finset.Icc 1 pindex.nHeight, getBlockSubsidy n params := by
  induction h with
  | genesis => exact le_rfl
  | block _ hfresh hconnect ih =>
    have hblock := coinsValue_connectBlock hfresh hconnect
    rw [CBlockIndex.nHeight, Finset.sum_Icc_succ_top (Nat.le_add_left 1 _)]
    rw [CBlockIndex.nHeight] at hblock
    omega

theorem BlockRun.valuesInRange
    (hscripts : ∀ pindex view tx, scripts pindex view tx ≠ .error .overflow)
    (h : BlockRun FreshBlock scripts wait params pindex tip) : ValuesInRange tip.coins := by
  induction h with
  | genesis =>
    intro o c hc
    simp at hc
  | block _ _ hconnect ih =>
    exact (noOverflow_connectBlock (fun view tx => .of_ne_error (hscripts _ view tx)) ih).post_of_eq_ok
      hconnect

/-- Over a chain of blocks the coins are worth at most the subsidies so far, the subsidies
never exceed `MAX_MONEY`, and no sum of amounts overflows, for the next block either. -/
theorem supply_bound (hparams : params.nSubsidyHalvingInterval = 210000)
    (hscripts : ∀ pindex view tx, scripts pindex view tx ≠ .error .overflow)
    (h : BlockRun FreshBlock scripts wait params pindex tip) :
    coinsValue tip.coins ≤ ∑ n ∈ Finset.Icc 1 pindex.nHeight, getBlockSubsidy n params ∧
      ∑ n ∈ Finset.Icc 1 pindex.nHeight, getBlockSubsidy n params ≤ maxMoney ∧
      ∀ options fJustCheck block hash nTime,
        connectBlock (scripts (.next pindex hash nTime)) wait params options fJustCheck block
          (.next pindex hash nTime) tip ≠ .error .overflow := by
  refine ⟨h.coinsValue_le, sum_getBlockSubsidy_le hparams _, fun options fJustCheck block _ _ => ?_⟩
  have hrange := h.valuesInRange hscripts
  exact (noOverflow_connectBlock (fun view tx => .of_ne_error (hscripts _ view tx)) hrange).ne_error
    fun hne => hne rfl

end Value

section Sample

attribute [local instance] Crypto.toy

/-- A block with the least difficulty. -/
def sampleBlock (vtx : List CTransaction) : CBlock where
  nVersion := 1
  hashPrevBlock := Blob.null
  hashMerkleRoot := (computeMerkleRoot (vtx.map CTransaction.getId)).1
  nTime := 0
  nBits := 0x2100ffff
  nNonce := 0
  vtx := vtx

/-- A chain of one block, whose coinbase is paid 50. -/
theorem supply_bound_sample : ∃ pindex tip,
    BlockRun FreshBlock (fun _ _ _ => .ok ([] : List Empty)) (fun _ => true) sampleParams pindex tip ∧
      pindex.nHeight = 1 ∧ coinsValue tip.coins = 50 ∧
      coinsValue tip.coins ≤ ∑ n ∈ Finset.Icc 1 pindex.nHeight, getBlockSubsidy n sampleParams := by
  let pindex : CBlockIndex :=
    .next (.genesis Blob.null 0) (sampleBlock [sampleReward]).getHash 0
  have hok : ∃ res ∈ (connectBlock (fun _ _ => .ok ([] : List Empty)) (fun _ => true) sampleParams
      ⟨2000000, true, true⟩ false (sampleBlock [sampleReward]) pindex ⟨∅, Blob.null⟩).toOption,
      coinsValue res.1.coins = 50 := by decide +kernel
  obtain ⟨⟨tip, undo⟩, hres, hvalue⟩ := hok
  have hrun : BlockRun FreshBlock (fun _ _ _ => .ok ([] : List Empty)) (fun _ => true) sampleParams
      pindex tip :=
    .block (.genesis Blob.null 0) ⟨by decide +kernel, by decide +kernel⟩
      (toOption_eq_some_iff.mp hres)
  exact ⟨pindex, tip, hrun, rfl, hvalue, (supply_bound rfl (by simp) hrun).1⟩

end Sample

end RadiantCore
