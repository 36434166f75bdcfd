import RadiantCore.References

/-!
# Connecting the transactions of a block

The part of `CChainState::ConnectBlock` that changes the coins : all outputs of the block
are added first, then each transaction that is not a coinbase is checked and its inputs
are spent, so that a transaction may spend an output of a later one. The script checks of
a transaction enter as a parameter of the loop (`ScriptStage`), which the stage without
scripts leaves out (`utxoStage`).

The loop changes the coins between the checks of one transaction and the next.
`connectLoop_eq_ok_iff` removes that dependence : the loop succeeds exactly when no
outpoint is spent twice, every transaction is acceptable against the coins as they are
before the loop (`TxAccepted`), and the fees stay in range ; it then removes the spent
coins. All later results about blocks rest on this characterisation.
-/

namespace RadiantCore

open List CTransaction

variable [Crypto] {γ : Type}

/-! ## Spending the inputs of a transaction -/

/-- One iteration of `SpendCoins`, on the undo data so far and the coins. -/
def spendInput (acc : List Coin × CoinsMap) (prevout : COutPoint) :
    Except Failure (List Coin × CoinsMap) :=
  match spendCoin acc.2 prevout with
  | none => .error (.abort "is_spent")
  | some (coin, view) => .ok (acc.1 ++ [coin], view)

/-- `SpendCoins` : the spent coins, which are the undo data of the transaction, and the coins
that remain. -/
def spendCoins (view : CoinsMap) (tx : CTransaction) : Except Failure (List Coin × CoinsMap) :=
  if tx.isCoinBase then .ok ([], view) else tx.prevouts.foldlM spendInput ([], view)

omit [Crypto] in
/-- Spending succeeds when the outpoints are distinct and all there. -/
theorem foldlM_spendInput_eq_ok_iff {prevouts : List COutPoint} {undo : List Coin}
    {view : CoinsMap} {res : List Coin × CoinsMap} :
    prevouts.foldlM spendInput (undo, view) = .ok res ↔
      prevouts.Nodup ∧ (∀ o ∈ prevouts, o ∈ view) ∧
        res = (undo ++ prevouts.filterMap view.lookup, eraseAll view prevouts) := by
  induction prevouts generalizing undo view with
  | nil =>
    rw [foldlM_nil, pure_eq_ok_iff, eq_comm]
    simp [eraseAll]
  | cons o prevouts ih =>
    rw [foldlM_cons, bind_eq_ok_iff, nodup_cons, forall_mem_cons]
    cases hcoin : view.lookup o with
    | none =>
      have hmem : o ∉ view := by simpa [Finmap.lookup_eq_none] using hcoin
      simp [spendInput, spendCoin, hcoin, hmem]
    | some coin =>
      have hmem : o ∈ view := Finmap.mem_of_lookup_eq_some hcoin
      have hfilter : o ∉ prevouts → prevouts.filterMap (view.erase o).lookup =
          prevouts.filterMap view.lookup := fun hnot =>
        filterMap_congr fun a ha => Finmap.lookup_erase_ne fun h => hnot (h ▸ ha)
      simp only [spendInput, spendCoin, hcoin, Option.map_some, Except.ok.injEq, exists_eq_left',
        ih, Finmap.mem_erase, eraseAll, filterMap_cons, append_assoc, cons_append,
        nil_append]
      constructor
      · rintro ⟨hnodup, hall, rfl⟩
        have hnot : o ∉ prevouts := fun h => (hall o h).1 rfl
        exact ⟨⟨hnot, hnodup⟩, ⟨hmem, fun a ha => (hall a ha).2⟩, by rw [hfilter hnot]⟩
      · rintro ⟨⟨hnot, hnodup⟩, ⟨-, hall⟩, rfl⟩
        exact ⟨hnodup, fun a ha => ⟨fun h => hnot (h ▸ ha), hall a ha⟩, by rw [hfilter hnot]⟩

/-! ## One transaction -/

/-- The script checks of a transaction against the coins : the checks left to do. -/
abbrev ScriptStage (γ : Type) := CoinsMap → CTransaction → Except Failure (List γ)

/-- The variables of the loop of `ConnectBlock` over the transactions. -/
structure ConnectState (γ : Type) where
  view : CoinsMap
  nFees : ℤ
  /-- `blockundo.vtxundo` : the spent coins of each transaction. -/
  vtxundo : List (List Coin)
  /-- The script checks handed to `control`. -/
  vChecks : List γ

/-- `nLockTimeFlags` of `ConnectBlock`. -/
def lockTimeFlags (params : Params) (pindex : CBlockIndex) : UInt32 :=
  if params.CSVHeight ≤ pindex.nHeight then locktimeVerifySequence else 0

/-- One iteration of the loop of `ConnectBlock` over the `nTx` transactions of a block. There is
undo data for all transactions but one. -/
def connectTx (scripts : ScriptStage γ) (params : Params) (pindex : CBlockIndex) (nTx : ℕ)
    (st : ConnectState γ) (tx : CTransaction) : Except Failure (ConnectState γ) := do
  let txfee ← if tx.isCoinBase then pure 0 else checkTxInputs tx st.view pindex.nHeight
  let nFees ← addAmount st.nFees txfee
  require (moneyRange nFees) (rejectInvalid 100 "bad-txns-accumulated-fee-outofrange")
  if tx.isCoinBase then return { st with nFees := nFees }
  else do
    let prevheights := prevHeights tx st.view
    let refsValid ← validateTransactionReferenceOperations tx st.view
    require refsValid
      (.invalid 0 .REJECT_INVALIDPUSHREFS "bad-txns-inputs-outputs-invalid-induction-rules")
    let final ← sequenceLocks tx (lockTimeFlags params pindex) prevheights pindex
    require final (rejectInvalid 100 "bad-txns-nonfinal")
    let vChecks ← scripts st.view tx
    require (st.vtxundo.length + 1 < nTx) (.exception "vector::at")
    let (txundo, view) ← spendCoins st.view tx
    return ⟨view, nFees, st.vtxundo ++ [txundo], st.vChecks ++ vChecks⟩

/-- The loop of `ConnectBlock` over the transactions. -/
def connectLoop (scripts : ScriptStage γ) (params : Params) (pindex : CBlockIndex) (nTx : ℕ)
    (vtx : List CTransaction) (st : ConnectState γ) : Except Failure (ConnectState γ) :=
  vtx.foldlM (connectTx scripts params pindex nTx) st

/-- The check of `ConnectBlock` that the outputs of a coinbase carry no reference. -/
def checkCoinbaseRefs (tx : CTransaction) : Except Failure Unit :=
  tx.vout.forM fun out =>
    if tx.isCoinBase then
      match getPushRefs out.scriptPubKey with
      | none =>
        .error (rejectInvalid 100 "bad-coinbase-txout-contains-induction-op-codes-fatal")
      | some refs =>
        require (refs.pushRefSet = ∅ ∧ refs.requireRefSet = ∅ ∧
            refs.disallowedSiblingsRefSet = ∅ ∧ refs.singletonRefSet = ∅)
          (rejectInvalid 100 "bad-coinbase-txout-contains-induction-op-codes-invalid")
    else .ok ()

/-- `ConnectBlock` adds the outputs of all transactions ; an overwritten coin is reported
as a duplicate transaction. -/
def addBlockCoins (vtx : List CTransaction) (nHeight : ℕ) (view : CoinsMap) :
    Except Failure CoinsMap :=
  match vtx.foldlM (fun view tx => addCoins view tx nHeight false) view with
  | .error (.exception _) => .error (rejectInvalid 100 "tx-duplicate")
  | result => result

/-- The part of `ConnectBlock` that changes the coins. -/
def connectTxs (scripts : ScriptStage γ) (params : Params) (pindex : CBlockIndex)
    (vtx : List CTransaction) (view : CoinsMap) : Except Failure (ConnectState γ) := do
  let view ← addBlockCoins vtx pindex.nHeight view
  connectLoop scripts params pindex vtx.length vtx ⟨view, 0, [], []⟩

/-- The part of `ConnectBlock` that changes the coins, without its script checks. -/
def utxoStage (params : Params) (pindex : CBlockIndex) (vtx : List CTransaction)
    (view : CoinsMap) : Except Failure (ConnectState Empty) :=
  connectTxs (fun _ _ => .ok []) params pindex vtx view

/-! ## What the loop accepts -/

/-- The fee of a transaction : what its inputs have more than its outputs. -/
def CTransaction.fee (tx : CTransaction) (view : CoinsMap) : ℤ := tx.valueIn view - tx.valueOut

/-- The transaction passes the checks of the loop against the coins `view`. -/
structure TxAccepted (params : Params) (pindex : CBlockIndex) (view : CoinsMap)
    (tx : CTransaction) : Prop where
  inputs : checkTxInputs tx view pindex.nHeight = .ok (tx.fee view)
  refs : validateTransactionReferenceOperations tx view = .ok true
  locks : sequenceLocks tx (lockTimeFlags params pindex) (prevHeights tx view) pindex = .ok true

section Accepted

variable {params : Params} {pindex : CBlockIndex} {view view' : CoinsMap} {tx : CTransaction}

theorem fee_of_checkTxInputs {nSpendHeight : ℕ} {fee : ℤ}
    (h : checkTxInputs tx view nSpendHeight = .ok fee) : fee = tx.fee view :=
  (checkTxInputs_eq_ok_iff.mp h).2.2.2.2.2

/-- The coins an accepted transaction spends are there. -/
theorem TxAccepted.mem_view (h : TxAccepted params pindex view tx) {o : COutPoint}
    (ho : o ∈ tx.prevouts) : o ∈ view := by
  obtain ⟨coin, hcoin, -⟩ := ((checkTxInputs_eq_ok_iff.mp h.inputs).2.1 o ho).1
  exact Finmap.mem_of_lookup_eq_some hcoin

theorem TxAccepted.fee_range (h : TxAccepted params pindex view tx) :
    0 ≤ tx.fee view ∧ tx.fee view ≤ maxMoney := by
  obtain ⟨-, -, hin, hout, hle, -⟩ := checkTxInputs_eq_ok_iff.mp h.inputs
  have hnonneg : 0 ≤ tx.valueOut := sum_nonneg (forall_mem_map.mpr hout)
  unfold fee
  omega

theorem CTransaction.fee_congr (h : ∀ o ∈ tx.prevouts, view.lookup o = view'.lookup o) :
    tx.fee view = tx.fee view' := by
  have hin : tx.valueIn view = tx.valueIn view' := by
    unfold valueIn
    rw [map_congr_left fun o ho => by rw [CoinsMap.valueAt, h o ho, ← CoinsMap.valueAt]]
  rw [fee, fee, hin]

/-- Acceptance reads the coins at the prevouts only. -/
theorem TxAccepted.congr (h : ∀ o ∈ tx.prevouts, view.lookup o = view'.lookup o) :
    TxAccepted params pindex view tx ↔ TxAccepted params pindex view' tx := by
  constructor
  · rintro ⟨hin, hrefs, hlocks⟩
    exact ⟨by rw [← checkTxInputs_congr h, hin, fee_congr h],
      by rw [← validateTransactionReferenceOperations_congr h, hrefs],
      by rw [← prevHeights_congr h, hlocks]⟩
  · rintro ⟨hin, hrefs, hlocks⟩
    exact ⟨by rw [checkTxInputs_congr h, hin, fee_congr h],
      by rw [validateTransactionReferenceOperations_congr h, hrefs],
      by rw [prevHeights_congr h, hlocks]⟩

variable {scripts : ScriptStage γ} {nTx : ℕ} {st st' : ConnectState γ}

/-- The state after an accepted transaction with the script checks `vChecks`. -/
def ConnectState.spend (st : ConnectState γ) (tx : CTransaction) (vChecks : List γ) :
    ConnectState γ :=
  ⟨eraseAll st.view tx.prevouts, st.nFees + tx.fee st.view,
    st.vtxundo ++ [tx.prevouts.filterMap st.view.lookup], st.vChecks ++ vChecks⟩

/-- The loop passes over a coinbase. -/
theorem connectTx_of_coinbase (hcb : tx.isCoinBase = true) (hfees : moneyRange st.nFees = true) :
    connectTx scripts params pindex nTx st tx = .ok st := by
  have hadd : addAmount st.nFees 0 = .ok st.nFees := by
    rw [addAmount_of_moneyRange hfees moneyRange_zero, add_zero]
  simp [connectTx, hcb, hadd, require_pos, hfees, pure, Except.pure]

/-- One iteration of the loop, for a transaction that is not a coinbase. -/
theorem connectTx_eq_ok_iff (hcb : tx.isCoinBase = false) (hfees : moneyRange st.nFees = true) :
    connectTx scripts params pindex nTx st tx = .ok st' ↔
      TxAccepted params pindex st.view tx ∧ st.nFees + tx.fee st.view ≤ maxMoney ∧
        st.vtxundo.length + 1 < nTx ∧ tx.prevouts.Nodup ∧
        ∃ vChecks, scripts st.view tx = .ok vChecks ∧ st' = st.spend tx vChecks := by
  have hrange := moneyRange_iff.mp hfees
  simp only [connectTx, hcb, Bool.false_eq_true, if_false, bind_eq_ok_iff, exists_unit_iff,
    require_eq_ok_iff, spendCoins, foldlM_spendInput_eq_ok_iff, nil_append]
  constructor
  · rintro ⟨fee, hin, nFees, hadd, hnFees, _, hrefs, rfl, _, hlocks, rfl, vChecks, hscripts, hroom,
      _, ⟨hnodup, -, rfl⟩, hst⟩
    obtain rfl := fee_of_checkTxInputs hin
    obtain rfl := addAmount_eq_ok hadd
    exact ⟨⟨hin, hrefs, hlocks⟩, (moneyRange_iff.mp hnFees).2, hroom, hnodup, vChecks, hscripts,
      (pure_eq_ok_iff.mp hst).symm⟩
  · rintro ⟨hacc, hle, hroom, hnodup, vChecks, hscripts, rfl⟩
    have hfee := hacc.fee_range
    exact ⟨_, hacc.inputs, _, addAmount_of_moneyRange hfees (moneyRange_iff.mpr hfee),
      moneyRange_iff.mpr ⟨by omega, hle⟩, _, hacc.refs, rfl, _, hacc.locks, rfl, vChecks, hscripts,
      hroom, _, ⟨hnodup, fun o ho => hacc.mem_view ho, rfl⟩, rfl⟩

/-- After the other checks only the scripts of a transaction decide. -/
theorem connectTx_of_accepted (hcb : tx.isCoinBase = false) (hfees : moneyRange st.nFees = true)
    (hacc : TxAccepted params pindex st.view tx) (hle : st.nFees + tx.fee st.view ≤ maxMoney)
    (hroom : st.vtxundo.length + 1 < nTx) (hnodup : tx.prevouts.Nodup) :
    connectTx scripts params pindex nTx st tx = (scripts st.view tx).map (st.spend tx) := by
  cases hscripts : scripts st.view tx with
  | ok vChecks =>
    exact (connectTx_eq_ok_iff hcb hfees).mpr ⟨hacc, hle, hroom, hnodup, vChecks, hscripts, rfl⟩
  | error e =>
    have hrange := moneyRange_iff.mp hfees
    have hfee := hacc.fee_range
    have hadd := addAmount_of_moneyRange hfees (moneyRange_iff.mpr hfee)
    have hsum : moneyRange (st.nFees + tx.fee st.view) = true :=
      moneyRange_iff.mpr ⟨by omega, hle⟩
    simp only [connectTx, hcb, Bool.false_eq_true, if_false, hacc.inputs, hacc.refs, hacc.locks,
      hadd, ok_bind, require_pos hsum, require_pos trivial, hscripts, error_bind, Except.map]

end Accepted

/-! ## The loop without its order -/

/-- The transactions that are not coinbases. -/
def regularTxs (vtx : List CTransaction) : List CTransaction :=
  vtx.filter fun tx => !tx.isCoinBase

theorem regularTxs_of_coinbaseFirst {coinbase : CTransaction} {txs : List CTransaction}
    (hcb : coinbase.isCoinBase = true) (htxs : ∀ tx ∈ txs, tx.isCoinBase = false) :
    regularTxs (coinbase :: txs) = txs := by
  rw [regularTxs, filter_cons_of_neg (by simp [hcb]), filter_eq_self]
  exact fun tx htx => by simp [htxs tx htx]

/-- The outpoints some transactions spend. -/
def spentBy (txs : List CTransaction) : List COutPoint := txs.flatMap prevouts

/-- The fees of some transactions. -/
def totalFees (view : CoinsMap) (txs : List CTransaction) : ℤ :=
  (txs.map fun tx => tx.fee view).sum

/-- The coins a transaction spends, its undo data. -/
def undoOf (view : CoinsMap) (tx : CTransaction) : List Coin := tx.prevouts.filterMap view.lookup

/-- The loop accepts the transactions `txs` : no outpoint is spent twice, each is accepted
against the coins before the loop, the fees stay in range and there is undo data for
each. -/
structure LoopAccepts (params : Params) (pindex : CBlockIndex) (nTx : ℕ) (view : CoinsMap)
    (nFees : ℤ) (nUndo : ℕ) (txs : List CTransaction) : Prop where
  nodup : (spentBy txs).Nodup
  accepted : ∀ tx ∈ txs, TxAccepted params pindex view tx
  fees : nFees + totalFees view txs ≤ maxMoney
  room : txs = [] ∨ nUndo + txs.length < nTx

/-- The script checks of a transaction read the coins at its prevouts only. -/
def ScriptStage.IsLocal (scripts : ScriptStage γ) : Prop :=
  ∀ (view view' : CoinsMap) (tx : CTransaction),
    (∀ o ∈ tx.prevouts, view.lookup o = view'.lookup o) → scripts view tx = scripts view' tx

section Loop

variable {params : Params} {pindex : CBlockIndex} {view : CoinsMap} {tx : CTransaction}
  {txs vtx : List CTransaction} {nTx nUndo : ℕ} {nFees : ℤ}

theorem LoopAccepts.fees_nonneg (h : ∀ tx ∈ txs, TxAccepted params pindex view tx) :
    0 ≤ totalFees view txs :=
  sum_nonneg (forall_mem_map.mpr fun tx htx => (h tx htx).fee_range.1)

/-- The coins that are spent are there. -/
theorem LoopAccepts.mem_view (h : LoopAccepts params pindex nTx view nFees nUndo txs)
    {o : COutPoint} (ho : o ∈ spentBy txs) : o ∈ view :=
  let ⟨tx, htx, hin⟩ := mem_flatMap.mp ho
  (h.accepted tx htx).mem_view hin

/-- A transaction accepted after others spends none of their inputs, so it sees the coins
from before them. -/
theorem TxAccepted.lookup_eraseAll {spent : List COutPoint}
    (h : TxAccepted params pindex (eraseAll view spent) tx) :
    ∀ o ∈ tx.prevouts, view.lookup o = (eraseAll view spent).lookup o := by
  intro o ho
  obtain ⟨coin, hcoin⟩ := Finmap.mem_iff.mp (h.mem_view ho)
  rw [RadiantCore.lookup_eraseAll, if_neg (lookup_eraseAll_eq_some.mp hcoin).1]

variable {view' : CoinsMap}

theorem totalFees_congr (h : ∀ tx ∈ txs, ∀ o ∈ tx.prevouts, view.lookup o = view'.lookup o) :
    totalFees view txs = totalFees view' txs := by
  unfold totalFees
  rw [map_congr_left fun tx htx => fee_congr (h tx htx)]

theorem map_undoOf_congr (h : ∀ tx ∈ txs, ∀ o ∈ tx.prevouts, view.lookup o = view'.lookup o) :
    txs.map (undoOf view) = txs.map (undoOf view') :=
  map_congr_left fun tx htx => filterMap_congr (h tx htx)

/-- Accepting a transaction and then the others, which see the coins it leaves. -/
theorem loopAccepts_cons_iff :
    LoopAccepts params pindex nTx view nFees nUndo (tx :: txs) ↔
      (TxAccepted params pindex view tx ∧ nFees + tx.fee view ≤ maxMoney ∧ nUndo + 1 < nTx ∧
        tx.prevouts.Nodup) ∧
      LoopAccepts params pindex nTx (eraseAll view tx.prevouts) (nFees + tx.fee view)
        (nUndo + 1) txs := by
  constructor
  · rintro ⟨hnodup, hacc, hle, hroom⟩
    rw [spentBy, flatMap_cons, nodup_append'] at hnodup
    obtain ⟨hnodupTx, hnodup, hdis⟩ := hnodup
    rw [forall_mem_cons] at hacc
    have hsame : ∀ tx' ∈ txs, ∀ o ∈ tx'.prevouts,
        view.lookup o = (eraseAll view tx.prevouts).lookup o := fun tx' htx' o ho => by
      rw [lookup_eraseAll, if_neg fun h => hdis h (mem_flatMap.mpr ⟨tx', htx', ho⟩)]
    have hrest := LoopAccepts.fees_nonneg hacc.2
    simp only [totalFees, map_cons, sum_cons, reduceCtorEq, false_or,
      length_cons] at hle hroom hrest
    refine ⟨⟨hacc.1, by omega, by omega, hnodupTx⟩, hnodup, fun tx' htx' =>
      (TxAccepted.congr (hsame tx' htx')).mp (hacc.2 tx' htx'), ?_, Or.inr (by omega)⟩
    rw [← totalFees_congr hsame, totalFees]
    omega
  · rintro ⟨⟨hacc, -, hone, hnodupTx⟩, hnodup, haccs, hle, hroom⟩
    have hsame := fun tx' htx' => (haccs tx' htx').lookup_eraseAll
    refine ⟨?_, ?_, ?_, Or.inr ?_⟩
    · rw [spentBy, flatMap_cons, nodup_append']
      refine ⟨hnodupTx, hnodup, fun o ho ho' => ?_⟩
      obtain ⟨tx', htx', ho''⟩ := mem_flatMap.mp ho'
      obtain ⟨coin, hcoin⟩ := Finmap.mem_iff.mp ((haccs tx' htx').mem_view ho'')
      exact (lookup_eraseAll_eq_some.mp hcoin).1 ho
    · rw [forall_mem_cons]
      exact ⟨hacc, fun tx' htx' => (TxAccepted.congr (hsame tx' htx')).mpr (haccs tx' htx')⟩
    · rw [← totalFees_congr hsame] at hle
      simpa [totalFees, add_assoc] using hle
    · rcases hroom with rfl | hroom
      · simpa using hone
      · simp only [length_cons]
        omega

/-- The state the loop ends in, from the coins before it and the script checks. -/
def ConnectState.spendAll (st : ConnectState γ) (txs : List CTransaction)
    (checks : List (List γ)) : ConnectState γ :=
  ⟨eraseAll st.view (spentBy txs), st.nFees + totalFees st.view txs,
    st.vtxundo ++ txs.map (undoOf st.view), st.vChecks ++ checks.flatten⟩

variable {st : ConnectState γ}

theorem ConnectState.spendAll_cons {vChecks : List γ} {checks : List (List γ)}
    (h : ∀ tx' ∈ txs, ∀ o ∈ tx'.prevouts,
      st.view.lookup o = (eraseAll st.view tx.prevouts).lookup o) :
    (st.spend tx vChecks).spendAll txs checks = st.spendAll (tx :: txs) (vChecks :: checks) := by
  simp only [spendAll, spend]
  rw [← totalFees_congr h, ← map_undoOf_congr h]
  simp only [spentBy, totalFees, undoOf, flatMap_cons, eraseAll_append, map_cons,
    sum_cons, append_assoc, flatten_cons, add_assoc, cons_append,
    nil_append]

variable {scripts : ScriptStage γ}

theorem TxAccepted.moneyRange_spend (h : TxAccepted params pindex st.view tx)
    (hfees : moneyRange st.nFees = true) (hle : st.nFees + tx.fee st.view ≤ maxMoney)
    (vChecks : List γ) : moneyRange (st.spend tx vChecks).nFees = true :=
  moneyRange_iff.mpr ⟨add_nonneg (moneyRange_iff.mp hfees).1 h.fee_range.1, hle⟩

/-- On transactions that the loop accepts, it ends as their script checks do. -/
theorem connectLoop_of_loopAccepts (hlocal : scripts.IsLocal) (hfees : moneyRange st.nFees = true)
    (h : LoopAccepts params pindex nTx st.view st.nFees st.vtxundo.length (regularTxs vtx)) :
    connectLoop scripts params pindex nTx vtx st =
      ((regularTxs vtx).mapM (scripts st.view)).map (st.spendAll (regularTxs vtx)) := by
  induction vtx generalizing st with
  | nil =>
    simp [connectLoop, regularTxs, ConnectState.spendAll, spentBy, eraseAll, totalFees, pure,
      Except.pure, Except.map]
  | cons tx vtx ih =>
    rw [connectLoop, foldlM_cons]
    cases hcb : tx.isCoinBase with
    | true =>
      have hreg : regularTxs (tx :: vtx) = regularTxs vtx := by simp [regularTxs, hcb]
      rw [hreg] at h ⊢
      rw [connectTx_of_coinbase hcb hfees, ok_bind]
      exact ih hfees h
    | false =>
      have hreg : regularTxs (tx :: vtx) = tx :: regularTxs vtx := by simp [regularTxs, hcb]
      rw [hreg, loopAccepts_cons_iff] at h
      obtain ⟨⟨hacc, hle, hroom, hnodup⟩, hrest⟩ := h
      rw [hreg, mapM_cons, connectTx_of_accepted hcb hfees hacc hle hroom hnodup]
      cases scripts st.view tx with
      | error e => rfl
      | ok vChecks =>
        -- the later transactions read the same coins before and after this one
        have hsame := fun tx' htx' => (hrest.accepted tx' htx').lookup_eraseAll
        have hmapM : (regularTxs vtx).mapM (scripts (st.spend tx vChecks).view) =
            (regularTxs vtx).mapM (scripts st.view) :=
          mapM_congr_left fun tx' htx' => (hlocal _ _ _ (hsame tx' htx')).symm
        have hloop := ih (hacc.moneyRange_spend hfees hle vChecks)
          (by simpa [ConnectState.spend] using hrest)
        rw [hmapM] at hloop
        refine hloop.trans ?_
        cases (regularTxs vtx).mapM (scripts st.view) with
        | error e => rfl
        | ok checks => exact congrArg Except.ok (ConnectState.spendAll_cons hsame)

theorem loopAccepts_of_connectLoop {st' : ConnectState γ} (hfees : moneyRange st.nFees = true)
    (h : connectLoop scripts params pindex nTx vtx st = .ok st') :
    LoopAccepts params pindex nTx st.view st.nFees st.vtxundo.length (regularTxs vtx) := by
  induction vtx generalizing st with
  | nil =>
    exact ⟨by simp [regularTxs, spentBy], by simp [regularTxs],
      by simpa [regularTxs, totalFees] using (moneyRange_iff.mp hfees).2, Or.inl rfl⟩
  | cons tx vtx ih =>
    rw [connectLoop, foldlM_cons, bind_eq_ok_iff] at h
    obtain ⟨mid, hmid, hrest⟩ := h
    cases hcb : tx.isCoinBase with
    | true =>
      have hreg : regularTxs (tx :: vtx) = regularTxs vtx := by simp [regularTxs, hcb]
      obtain rfl := Except.ok.inj ((connectTx_of_coinbase hcb hfees).symm.trans hmid)
      rw [hreg]
      exact ih hfees hrest
    | false =>
      have hreg : regularTxs (tx :: vtx) = tx :: regularTxs vtx := by simp [regularTxs, hcb]
      obtain ⟨hacc, hle, hone, hnodup, vChecks, -, rfl⟩ := (connectTx_eq_ok_iff hcb hfees).mp hmid
      rw [hreg, loopAccepts_cons_iff]
      refine ⟨⟨hacc, hle, hone, hnodup⟩, ?_⟩
      simpa [ConnectState.spend] using ih (hacc.moneyRange_spend hfees hle vChecks) hrest

/-- The loop, without its order : it succeeds when it accepts the transactions against the
coins before it and their script checks are collected there, and it then removes the
spent coins. -/
theorem connectLoop_eq_ok_iff (hlocal : scripts.IsLocal)
    {st' : ConnectState γ} (hfees : moneyRange st.nFees = true) :
    connectLoop scripts params pindex nTx vtx st = .ok st' ↔
      LoopAccepts params pindex nTx st.view st.nFees st.vtxundo.length (regularTxs vtx) ∧
        ∃ checks, (regularTxs vtx).mapM (scripts st.view) = .ok checks ∧
          st' = st.spendAll (regularTxs vtx) checks := by
  constructor
  · intro h
    have hloop := loopAccepts_of_connectLoop hfees h
    rw [connectLoop_of_loopAccepts hlocal hfees hloop] at h
    cases hchecks : (regularTxs vtx).mapM (scripts st.view) with
    | error e =>
      rw [hchecks] at h
      cases h
    | ok checks =>
      rw [hchecks] at h
      exact ⟨hloop, checks, rfl, (Except.ok.inj h).symm⟩
  · rintro ⟨hloop, checks, hchecks, rfl⟩
    rw [connectLoop_of_loopAccepts hlocal hfees hloop, hchecks]
    rfl

end Loop

end RadiantCore
