import RadiantCore.BlockRun

/-!
# Amounts in range

Validation adds amounts as signed 64-bit integers and checks each sum after it is
computed. No sum overflows : a value is in range when it is added to a sum in range,
because `CheckBlock` comes before the coins of a block are read
(`noOverflow_connectBlock`). Each function has one lemma that says how it ends, and the
lemmas compose by the rules of `Ends`.
-/

namespace RadiantCore

open List

/-- The computation does not overflow, and its value satisfies `post`. -/
abbrev NoOverflow {α : Type} (x : Except Failure α) (post : α → Prop) : Prop :=
  Ends x (· ≠ .overflow) post

/-- The failure is a verdict on a block or a transaction. -/
def Failure.isReject : Failure → Bool
  | .invalid _ _ _ => true
  | _ => false

/-- The computation accepts or rejects, and a value of it satisfies `post`. -/
abbrev Verdict {α : Type} (x : Except Failure α) (post : α → Prop) : Prop :=
  Ends x (fun e => e.isReject = true) post

theorem Verdict.noOverflow {α : Type} {x : Except Failure α} {post : α → Prop}
    (h : Verdict x post) : NoOverflow x post :=
  h.weaken fun e he => by
    rintro rfl
    cases he

/-- The values of all coins of a map are in range. -/
def ValuesInRange (view : CoinsMap) : Prop :=
  ∀ o c, view.lookup o = some c → moneyRange c.out.nValue.toInt = true

/-- The values of the outputs of a transaction and their sum are in range. -/
def OutputsInRange (tx : CMutableTransaction) : Prop :=
  (∀ out ∈ tx.vout, 0 ≤ out.nValue.toInt) ∧ tx.valueOut ≤ maxMoney

section NoOverflow

theorem noOverflow_addAmount {a b : ℤ} (ha : moneyRange a = true) (hb : moneyRange b = true) :
    NoOverflow (addAmount a b) (· = a + b) :=
  .of_eq_ok (addAmount_of_moneyRange ha hb) rfl

theorem moneyRange_getBlockSubsidy (nHeight : ℕ) (params : Params) :
    moneyRange (getBlockSubsidy nHeight params) = true := by
  rw [getBlockSubsidy]
  split_ifs with hlast
  · exact moneyRange_zero
  · have hle : (50000 * 100000000 : ℤ) / 2 ^ (nHeight / params.nSubsidyHalvingInterval) ≤
        50000 * 100000000 := Int.ediv_le_self _ (by norm_num)
    exact moneyRange_iff.mpr ⟨by positivity, hle.trans (by decide)⟩

theorem noOverflow_checkOutputValues (vout : List CTxOut) :
    NoOverflow (vout.foldlM checkOutputValue 0) (moneyRange · = true) := by
  refine .foldlM moneyRange_zero fun v out _ hv => ?_
  refine .bind (.require (by decide)) fun _ hneg => .bind (.require (by decide)) fun _ hlarge => ?_
  refine .bind (noOverflow_addAmount hv (moneyRange_iff.mpr ⟨hneg, hlarge⟩)) fun sum _ => ?_
  exact .bind (.require (by decide)) fun _ hsum => .pure hsum

theorem noOverflow_checkTransactionCommon (tx : CMutableTransaction) :
    NoOverflow (checkTransactionCommon tx) fun _ => True :=
  .bind (.require (by decide)) fun _ _ => .bind (.require (by decide)) fun _ _ =>
    .bind (.require (by decide)) fun _ _ =>
      .bind (noOverflow_checkOutputValues tx.vout) fun _ _ => .pure trivial

theorem noOverflow_checkInputPairs : ∀ vin : List CTxIn,
    NoOverflow (checkInputPairs vin) fun _ => True
  | [] => trivial
  | _ :: vin =>
    .bind (.require (by decide)) fun _ _ => .bind (.require (by decide)) fun _ _ =>
      noOverflow_checkInputPairs vin

theorem noOverflow_checkCoinbase (tx : CMutableTransaction) :
    NoOverflow (checkCoinbase tx) fun _ => True :=
  .bind (.require (by decide)) fun _ _ =>
    .bind (noOverflow_checkTransactionCommon tx) fun _ _ =>
      (Ends.require (by decide)).imp fun _ _ _ => trivial

theorem noOverflow_checkRegularTransaction (tx : CMutableTransaction) :
    NoOverflow (checkRegularTransaction tx) fun _ => True := by
  refine .bind (.require (by decide)) fun _ _ =>
    .bind (noOverflow_checkTransactionCommon tx) fun _ _ => ?_
  split_ifs
  · exact noOverflow_checkInputPairs tx.vin
  · exact .bind (.require (by decide)) fun _ _ =>
      (Ends.require (by decide)).imp fun _ _ _ => trivial

theorem OutputsInRange.moneyRange {tx : CMutableTransaction} (h : OutputsInRange tx) :
    ∀ out ∈ tx.vout, moneyRange out.nValue.toInt = true := by
  intro out hout
  have hle : out.nValue.toInt ≤ tx.valueOut :=
    single_le_sum (forall_mem_map.mpr h.1) _ (mem_map_of_mem hout)
  exact moneyRange_iff.mpr ⟨h.1 out hout, hle.trans h.2⟩

theorem ends_getValueOut {tx : CMutableTransaction} {err : Failure → Prop}
    (h : OutputsInRange tx) : Ends tx.getValueOut err (moneyRange · = true) := by
  refine .of_eq_ok (CMutableTransaction.getValueOut_eq_ok_iff.mpr ⟨h.1, h.2, rfl⟩) ?_
  exact moneyRange_iff.mpr ⟨sum_nonneg (forall_mem_map.mpr h.1), h.2⟩

variable {nSpendHeight : ℕ}

section

variable {view : CoinsMap}

theorem verdict_checkTxInput {nValueIn : ℤ} {prevout : COutPoint} (hview : ValuesInRange view)
    (hin : moneyRange nValueIn = true) :
    Verdict (checkTxInput view nSpendHeight nValueIn prevout) (moneyRange · = true) := by
  unfold checkTxInput
  split
  · exact (rfl : (rejectInvalid 100 "bad-txns-inputs-missingorspent").isReject = true)
  · rename_i coin hcoin
    refine .bind (.require rfl) fun _ _ => .bind (.require rfl) fun _ _ => ?_
    refine .bind (.of_eq_ok (addAmount_of_moneyRange hin (hview _ coin hcoin)) rfl)
      fun _ (_ : _ = _) => ?_
    exact .bind (.require rfl) fun _ hsum => .pure hsum.2

theorem ValuesInRange.erase (h : ValuesInRange view) (o : COutPoint) :
    ValuesInRange (view.erase o) := by
  intro a c hc
  refine h a c ?_
  have ha : a ≠ o := by
    rintro rfl
    simp at hc
  rwa [Finmap.lookup_erase_ne ha] at hc

theorem ValuesInRange.insert (h : ValuesInRange view) {o : COutPoint} {coin : Coin}
    (hcoin : moneyRange coin.out.nValue.toInt = true) : ValuesInRange (view.insert o coin) := by
  intro a c hc
  by_cases ha : a = o
  · rw [ha, Finmap.lookup_insert] at hc
    rwa [← Option.some.inj hc]
  · rw [Finmap.lookup_insert_of_ne _ ha] at hc
    exact h a c hc

theorem collectInputRefs_ends {err : Failure → Prop} :
    ∀ (prevouts : List COutPoint) (acc : InputRefs),
      (∀ o ∈ prevouts, view.lookup o = none → err (.abort "!coin.IsSpent()")) →
      Ends (collectInputRefs view prevouts acc) err fun _ => True
  | [], _, _ => trivial
  | prevout :: prevouts, acc, h => by
    rw [forall_mem_cons] at h
    have hadd : Ends (acc.add view prevout) err fun _ => True := by
      unfold InputRefs.add
      cases hcoin : view.lookup prevout with
      | none => exact h.1 hcoin
      | some coin => trivial
    refine .bind hadd fun res _ => ?_
    cases res with
    | none => trivial
    | some acc => exact collectInputRefs_ends prevouts acc h.2

end

variable [Crypto] {γ : Type} {params : Params} {pindex : CBlockIndex} {view : CoinsMap}

theorem outputsInRange_of_checkBlock {options : BlockValidationOptions} {block : CBlock} {u : Unit}
    (h : checkBlock params options block = .ok u) :
    ∀ tx ∈ block.vtx, OutputsInRange tx.toCMutableTransaction := by
  obtain ⟨coinbase, txs, hvtx, hcb, htxs⟩ := checkBlock_eq_ok h
  have hrange : ∀ {tx : CMutableTransaction}, checkTransactionCommon tx = .ok () →
      OutputsInRange tx := fun htx => (checkTransactionCommon_eq_ok_iff.mp htx).2.2.2
  rw [hvtx, forall_mem_cons]
  exact ⟨hrange (checkCoinbase_eq_ok hcb).2, fun tx htx =>
    hrange (checkRegularTransaction_eq_ok_iff.mp (htxs tx htx)).2.1⟩

theorem noOverflow_checkBlock (options : BlockValidationOptions) (block : CBlock) :
    NoOverflow (checkBlock params options block) fun _ =>
      ∀ tx ∈ block.vtx, OutputsInRange tx.toCMutableTransaction := by
  have hends : NoOverflow (checkBlock params options block) fun _ => True := by
    refine .bind (.require (by decide)) fun _ _ => .bind (.require (by decide)) fun _ _ =>
      .bind (.require (by decide)) fun _ _ => ?_
    split
    · exact (by decide : rejectInvalid 100 "bad-cb-missing" ≠ .overflow)
    · exact .bind (.require (by decide)) fun _ _ => .bind (.require (by decide)) fun _ _ =>
        .bind (noOverflow_checkCoinbase _) fun _ _ =>
          .forM fun tx _ => noOverflow_checkRegularTransaction _
  exact hends.imp fun _ hok _ => outputsInRange_of_checkBlock hok

variable {tx : CTransaction}

section

variable (hview : ValuesInRange view)

include hview

theorem verdict_checkTxInputs (hcb : tx.isCoinBase = false)
    (htx : OutputsInRange tx.toCMutableTransaction) :
    Verdict (checkTxInputs tx view nSpendHeight) (moneyRange · = true) := by
  rw [checkTxInputs, require_pos (by simp [hcb]), ok_bind]
  have hloop : Verdict (tx.prevouts.foldlM (checkTxInput view nSpendHeight) 0)
      (moneyRange · = true) :=
    .foldlM moneyRange_zero fun v o _ hv => verdict_checkTxInput hview hv
  refine .bind hloop fun nValueIn hin => .bind (ends_getValueOut htx) fun valueOut hout => ?_
  refine .bind (.require rfl) fun _ hle => ?_
  have hfee : addAmount nValueIn (-valueOut) = .ok (nValueIn + -valueOut) := by
    rw [moneyRange_iff, maxMoney] at hin hout
    exact if_pos (by constructor <;> omega)
  exact .bind (.of_eq_ok hfee rfl) fun _ (_ : _ = _) => .bind (.require rfl) fun _ h => .pure h

theorem noOverflow_spendCoins : NoOverflow (spendCoins view tx) fun res => ValuesInRange res.2 := by
  unfold spendCoins
  split_ifs
  · exact hview
  · refine .foldlM hview fun acc o _ (hacc : ValuesInRange acc.2) => ?_
    unfold spendInput spendCoin
    cases acc.2.lookup o with
    | none => exact (by decide : Failure.abort "is_spent" ≠ .overflow)
    | some coin => exact hacc.erase o

theorem noOverflow_addCoins {nHeight : ℕ} (htx : OutputsInRange tx.toCMutableTransaction) :
    NoOverflow (addCoins view tx nHeight false) ValuesInRange := by
  refine .foldlM hview fun view p hp hview => ?_
  have hrange : moneyRange p.2.nValue.toInt = true := by
    refine htx.moneyRange p.2 ?_
    rw [← tx.map_snd_outputs]
    exact mem_map_of_mem hp
  refine .bind (.require (by decide)) fun _ _ => ?_
  split_ifs
  · exact hview
  all_goals exact .bind (.require (by decide)) fun _ _ => .pure (hview.insert hrange)

end

variable {vtx : List CTransaction}

theorem noOverflow_addBlockCoins {nHeight : ℕ}
    (hview : ValuesInRange view) (hvtx : ∀ tx ∈ vtx, OutputsInRange tx.toCMutableTransaction) :
    NoOverflow (addBlockCoins vtx nHeight view) ValuesInRange := by
  have hloop : NoOverflow (vtx.foldlM (fun view tx => addCoins view tx nHeight false) view)
      ValuesInRange :=
    .foldlM hview fun view tx htx hview => noOverflow_addCoins hview (hvtx tx htx)
  unfold addBlockCoins
  split
  · exact (by decide : rejectInvalid 100 "tx-duplicate" ≠ .overflow)
  · exact hloop

/-- The check of the references fails only without a coin it spends. -/
theorem validateReferences_ends {err : Failure → Prop} {tx : CTransaction}
    (h : ∀ o ∈ tx.prevouts, view.lookup o = none → err (.abort "!coin.IsSpent()")) :
    Ends (validateTransactionReferenceOperations tx view) err fun _ => True := by
  unfold validateTransactionReferenceOperations
  split_ifs
  · trivial
  · cases collectOutputRefs tx.vout {} with
    | none => trivial
    | some outs =>
      dsimp only
      split_ifs
      · trivial
      · refine .bind (collectInputRefs_ends _ _ h) fun res _ => ?_
        cases res <;> trivial

theorem noOverflow_calculateSequenceLocks (tx : CTransaction) (flags : UInt32) (heights : List ℕ)
    (pindex : CBlockIndex) :
    NoOverflow (calculateSequenceLocks tx flags heights pindex) fun _ => True := by
  refine .bind (.require (by decide)) fun _ _ => ?_
  split_ifs
  · refine .foldlM trivial fun lockPair input _ _ => ?_
    unfold sequenceLock
    dsimp only
    split_ifs
    · trivial
    · cases pindex.getAncestor (input.2 - 1) with
      | none => exact (by decide : Failure.abort "GetAncestor returned a null pointer" ≠ .overflow)
      | some ancestor => trivial
    · trivial
  · trivial

theorem noOverflow_sequenceLocks (tx : CTransaction) (flags : UInt32) (heights : List ℕ)
    (pindex : CBlockIndex) : NoOverflow (sequenceLocks tx flags heights pindex) fun _ => True := by
  refine .bind (noOverflow_calculateSequenceLocks tx flags heights pindex) fun lockPair _ => ?_
  unfold evaluateSequenceLocks
  cases pindex.pprev? with
  | none => exact (by decide : Failure.abort "block.pprev" ≠ .overflow)
  | some pprev => trivial

/-! ## Connecting a block -/

/-- What the loop of `ConnectBlock` keeps : the values of the coins and the fees are in
range. -/
def ConnectState.InRange (st : ConnectState γ) : Prop :=
  ValuesInRange st.view ∧ moneyRange st.nFees = true

theorem noOverflow_checkBlockReward {nFees : ℤ} {nHeight : ℕ} (hfees : moneyRange nFees = true)
    (hvtx : ∀ tx ∈ vtx, OutputsInRange tx.toCMutableTransaction) :
    NoOverflow (checkBlockReward params nHeight nFees vtx) fun _ => True := by
  refine .bind (noOverflow_addAmount hfees (moneyRange_getBlockSubsidy nHeight params))
    fun _ _ => ?_
  cases vtx with
  | nil => exact (by decide : Failure.abort "block.vtx[0]" ≠ .overflow)
  | cons coinbase txs =>
    exact .bind (ends_getValueOut (hvtx coinbase mem_cons_self)) fun _ _ =>
      (Ends.require (by decide)).imp fun _ _ _ => trivial

theorem noOverflow_checkCoinbaseRefs (tx : CTransaction) :
    NoOverflow (checkCoinbaseRefs tx) fun _ => True := by
  refine .forM fun out _ => ?_
  split_ifs
  · split
    · exact (by decide : rejectInvalid 100 "bad-coinbase-txout-contains-induction-op-codes-fatal" ≠
        .overflow)
    · exact (Ends.require (by decide)).imp fun _ _ _ => trivial
  · trivial

section Block

variable {scripts : ScriptStage γ}
  (hscripts : ∀ view tx, NoOverflow (scripts view tx) fun _ => True)

include hscripts

theorem noOverflow_connectTx {nTx : ℕ} {st : ConnectState γ} {tx : CTransaction}
    (hst : st.InRange) (htx : OutputsInRange tx.toCMutableTransaction) :
    NoOverflow (connectTx scripts params pindex nTx st tx) ConnectState.InRange := by
  cases hcb : tx.isCoinBase with
  | true => exact .of_eq_ok (connectTx_of_coinbase hcb hst.2) hst
  | false =>
    simp only [connectTx, hcb, Bool.false_eq_true, if_false]
    refine .bind (verdict_checkTxInputs hst.1 hcb htx).noOverflow fun fee hfee => ?_
    refine .bind (noOverflow_addAmount hst.2 hfee) fun nFees _ => ?_
    refine .bind (.require (by decide)) fun _ hfees => ?_
    refine .bind (validateReferences_ends fun _ _ _ => by decide) fun _ _ =>
      .bind (.require (by decide)) fun _ _ => ?_
    refine .bind (noOverflow_sequenceLocks tx _ _ pindex) fun _ _ =>
      .bind (.require (by decide)) fun _ _ => ?_
    refine .bind (hscripts st.view tx) fun _ _ => .bind (.require (by decide)) fun _ _ => ?_
    exact .bind (noOverflow_spendCoins hst.1) fun _ hview => .pure ⟨hview, hfees⟩

theorem noOverflow_connectTxs {vtx : List CTransaction} (hview : ValuesInRange view)
    (hvtx : ∀ tx ∈ vtx, OutputsInRange tx.toCMutableTransaction) :
    NoOverflow (connectTxs scripts params pindex vtx view) ConnectState.InRange :=
  .bind (noOverflow_addBlockCoins hview hvtx) fun _ hview =>
    .foldlM ⟨hview, moneyRange_zero⟩ fun _ tx htx hst =>
      noOverflow_connectTx hscripts hst (hvtx tx htx)

/-- `ConnectBlock` never overflows on coins whose values are in range, and leaves such
coins. -/
theorem noOverflow_connectBlock {wait : List γ → Bool} {options : BlockValidationOptions}
    {fJustCheck : Bool} {block : CBlock} {tip : CoinsTip} (htip : ValuesInRange tip.coins) :
    NoOverflow (connectBlock scripts wait params options fJustCheck block pindex tip)
      fun res => ValuesInRange res.1.coins := by
  refine .bind (.require (by decide)) fun _ _ => ?_
  refine .bind (noOverflow_checkBlock _ block) fun _ hvtx => .bind (.require (by decide)) fun _ _ => ?_
  dsimp only
  by_cases hgenesis : block.getHash = params.hashGenesisBlock
  · rw [if_pos hgenesis]
    exact htip
  · rw [if_neg hgenesis]
    refine .bind (.require (by decide)) fun _ _ =>
      .bind (.forM fun tx _ => noOverflow_checkCoinbaseRefs tx) fun _ _ => ?_
    refine .bind (noOverflow_connectTxs hscripts htip hvtx) fun st hst => ?_
    exact .bind (noOverflow_checkBlockReward hst.2 hvtx) fun _ _ =>
      .bind (.require (by decide)) fun _ _ => .pure hst.1

end Block

end NoOverflow

end RadiantCore
