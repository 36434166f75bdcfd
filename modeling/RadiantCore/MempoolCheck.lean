import RadiantCore.MempoolFunding

/-!
# The self-check of the memory pool

`CTxMemPool::check` walks over the entries, compares what the pool keeps beside them with what it
computes from their transactions, and connects the transactions to a copy of the coins : those
without parents in the pool at once, the others in a loop over a queue, where a transaction whose
inputs are not there yet goes to the end. It asserts that the queue does not go round.

In a consistent pool with funded entries all these assertions hold. What may fail is what
`CheckInputsAndUpdateCoins` says about a single transaction all of whose inputs are there
(`check_spec`) : the check of its values and of the maturity of its coins.

The random choice whether to check at all is left out.
-/

namespace RadiantCore

open List IndexedTransactionSet CTxMemPoolEntry

section Check

variable [Crypto]

/-! ## The model -/

/-- The result `CheckInputsAndUpdateCoins` asserts. Only a verdict of `CheckTxInputs` on the
transaction is a result. -/
def checkResult (spendheight : ℕ) (view : CoinsMap) (tx : CTransaction) : Except Failure Unit :=
  if tx.isCoinBase then .ok ()
  else
    match checkTxInputs tx view spendheight with
    | .ok _ => .ok ()
    | .error (.invalid _ _ _) => .error (.abort "fCheckResult")
    | .error f => .error f

/-- `CheckInputsAndUpdateCoins`. -/
def checkInputsAndUpdateCoins (spendheight : ℕ) (view : CoinsMap) (tx : CTransaction) :
    Except Failure CoinsMap := do
  checkResult spendheight view tx
  let (_, view) ← spendCoins view tx
  addCoins view tx (2 ^ 31 - 1) false

/-- `HaveInputs`. -/
def haveInputs (view : CoinsMap) (tx : CTransaction) : Bool :=
  tx.isCoinBase || tx.prevouts.all (haveCoin view)

namespace TxMemPool

/-- `CalculateMemPoolAncestors`, where the parents are searched in `mapTx`. -/
def calculateMemPoolAncestors (pool : TxMemPool) (entry : CTxMemPoolEntry) :
    Except Failure (Finset TxIter) :=
  let parentHashes := entry.prevouts.filterMap fun o =>
    (pool.mapTx.find o.txid).map entryId
  explore pool.getMemPoolParents pool.mapLinks.keys.card parentHashes.toFinset ∅

/-- Where an input of `it` comes from : an entry of the pool, which becomes a parent, or a coin. The
state is `setParentCheck` and `fDependsWait`. -/
def checkOrigin (pool : TxMemPool) (coins : CoinsMap) (it : CTxMemPoolEntry)
    (st : Finset TxIter × Bool) (prevout : COutPoint) : Except Failure (Finset TxIter × Bool) :=
  match pool.mapTx.find prevout.txid with
  | some it2 => do
    require (∃ out ∈ it2.tx.tx.vout[prevout.n.toNat]?, out.isNull = false)
      (.abort "tx2.vout.size() > txin.prevout.GetN() && !tx2.vout[txin.prevout.GetN()].IsNull()")
    require (it2.entryId < it.entryId) (.abort "it2->GetEntryId() < it->GetEntryId()")
    return (insert it2.entryId st.1, true)
  | none => do
    require (haveCoin coins prevout) (.abort "pcoins->HaveCoin(txin.prevout)")
    return st

/-- The element of `mapNextTx` of an input : its key points at the input, and its value at the
transaction. -/
def checkNextTx (pool : TxMemPool) (it : CTxMemPoolEntry) (prevout : COutPoint) (i : ℕ) :
    Except Failure Unit :=
  match pool.mapNextTx.find? prevout with
  | none => .error (.abort "it3 != mapNextTx.end()")
  | some next => do
    require (next.tx.object = it.tx.object ∧ next.input = i) (.abort "it3->first == &txin.prevout")
    require (next.tx.object = it.tx.object) (.abort "it3->second == &tx")

/-- An iteration of the loop of `check` over the inputs of an entry. -/
def checkInput (pool : TxMemPool) (coins : CoinsMap) (it : CTxMemPoolEntry)
    (st : Finset TxIter × Bool) (input : COutPoint × ℕ) : Except Failure (Finset TxIter × Bool) := do
  let st ← pool.checkOrigin coins it st input.1
  pool.checkNextTx it input.1 input.2
  return st

/-- The ancestors of an entry are older. -/
def checkAncestor (pool : TxMemPool) (it : CTxMemPoolEntry) (ancestor : TxIter) :
    Except Failure Unit := do
  let ancestor ← pool.mapTx.deref ancestor
  require (ancestor.entryId < it.entryId) (.abort "ancestor->GetEntryId() < it->GetEntryId()")

/-- The element of `mapLinks` of an entry. -/
def findLinks (pool : TxMemPool) (it : CTxMemPoolEntry) : Except Failure (Links TxIter) :=
  match pool.mapLinks.lookup it.entryId with
  | none => .error (.abort "linksiter != mapLinks.end()")
  | some links => .ok links

/-- What `check` compares for one entry. Its links, and `fDependsWait`. -/
def checkLinks (pool : TxMemPool) (coins : CoinsMap) (it : CTxMemPoolEntry) :
    Except Failure (Links TxIter × Bool) := do
  let links ← pool.findLinks it
  let (setParentCheck, fDependsWait) ←
    it.prevouts.zipIdx.foldlM (pool.checkInput coins it) (∅, false)
  let parents ← pool.getMemPoolParents it.entryId
  require (setParentCheck = parents) (.abort "setParentCheck == GetMemPoolParents(it)")
  let setAncestors ← pool.calculateMemPoolAncestors it
  (setAncestors.sort (· ≤ ·)).forM (pool.checkAncestor it)
  let setChildrenCheck ←
    (pool.spendersOf it.txid).foldlM (pool.insertSpender "childit != mapTx.end()") ∅
  let children ← pool.getMemPoolChildren it.entryId
  require (setChildrenCheck = children) (.abort "setChildrenCheck == GetMemPoolChildren(it)")
  return (links, fDependsWait)

/-- The variables of `check`. -/
structure CheckState where
  checkTotal : UInt64
  innerUsage : UInt64
  mempoolDuplicate : CoinsMap
  waitingOnDependants : List CTxMemPoolEntry

/-- An iteration of the loop of `check` over the entries. -/
def checkEntry (env : MempoolEnv) (pool : TxMemPool) (coins : CoinsMap) (spendheight : ℕ)
    (st : CheckState) (it : CTxMemPoolEntry) : Except Failure CheckState := do
  let (links, fDependsWait) ← pool.checkLinks coins it
  let st := { st with
    checkTotal := st.checkTotal + it.nTxSize
    innerUsage := st.innerUsage + it.nUsageSize + setsUsage env links }
  if fDependsWait then return { st with waitingOnDependants := st.waitingOnDependants ++ [it] }
  else do
    let view ← checkInputsAndUpdateCoins spendheight st.mempoolDuplicate it.tx.tx
    return { st with mempoolDuplicate := view }

/-- The loop of `check` over the entries with parents, at most `fuel` times. -/
def checkWaiting (spendheight : ℕ) :
    ℕ → CoinsMap → List CTxMemPoolEntry → ℕ → Except Failure Unit
  | _, _, [], _ => .ok ()
  | 0, _, _ :: _, _ => .error (.abort "waitingOnDependants.empty()")
  | fuel + 1, view, entry :: waitingOnDependants, stepsSinceLastRemove =>
    if ¬ haveInputs view entry.tx.tx then do
      let stepsSinceLastRemove := (stepsSinceLastRemove + 1) % 2 ^ 32
      require (stepsSinceLastRemove < (waitingOnDependants ++ [entry]).length)
        (.abort "stepsSinceLastRemove < waitingOnDependants.size()")
      checkWaiting spendheight fuel view (waitingOnDependants ++ [entry]) stepsSinceLastRemove
    else do
      let view ← checkInputsAndUpdateCoins spendheight view entry.tx.tx
      checkWaiting spendheight fuel view waitingOnDependants 0

/-- An iteration of the loop of `check` over `mapNextTx`. -/
def checkSpender (pool : TxMemPool) (next : NextTx) : Except Failure Unit :=
  match pool.mapTx.find next.tx.tx.getId with
  | none => .error (.abort "it2 != mapTx.end()")
  | some it2 => require (it2.tx.object = next.tx.object) (.abort "&tx == it->second")

/-- `check` against the coins of the chain, where the hash index of the entries is in the order
`entries`. A queue of `n` entries that does not go round is empty after `n * n` steps at most. -/
def check (env : MempoolEnv) (pool : TxMemPool) (coins : CoinsMap) (spendheight : ℕ)
    (entries : List CTxMemPoolEntry) : Except Failure Unit := do
  let st ← entries.foldlM (checkEntry env pool coins spendheight) ⟨0, 0, coins, []⟩
  let n := st.waitingOnDependants.length
  checkWaiting spendheight (n * n) st.mempoolDuplicate st.waitingOnDependants 0
  (pool.mapNextTx.entries.map Prod.snd).forM pool.checkSpender
  require (pool.totalTxSize = st.checkTotal) (.abort "totalTxSize == checkTotal")
  require (st.innerUsage = pool.cachedInnerUsage) (.abort "innerUsage == cachedInnerUsage")

/-! ## One entry -/

section Entry

variable {env : MempoolEnv} {pool : TxMemPool} {coins : CoinsMap} {it : CTxMemPoolEntry}

/-- The parents of an entry. -/
def parentsOf (pool : TxMemPool) (it : TxIter) : Finset TxIter :=
  (linksAt pool.mapLinks it).parents

theorem Consistent.mem_parentsOf (h : Consistent env pool) {c : CTxMemPoolEntry}
    (hc : c ∈ pool.mapTx.entries) {it : TxIter} :
    it ∈ pool.parentsOf c.entryId ↔ ∃ p ∈ pool.mapTx.entries, c.Spends p ∧ p.entryId = it := by
  rw [parentsOf, h.links.parents _ (entryId_mem_ids hc), mem_ids]
  constructor
  · rintro ⟨⟨p, hp, rfl⟩, hspends⟩
    exact ⟨p, hp, (iterSpends_iff hc hp).mp hspends, rfl⟩
  · rintro ⟨p, hp, hspends, rfl⟩
    exact ⟨⟨p, hp, rfl⟩, (iterSpends_iff hc hp).mpr hspends⟩

/-- A funded input is an output of the entry it names. -/
theorem vout_of_inputFunded {avail : COutPoint → Prop} {o : COutPoint} {p : CTxMemPoolEntry}
    (hfunded : InputFunded avail pool.mapTx.entries o) (hp : p ∈ pool.mapTx.entries)
    (hid : p.txid = o.txid) : ∃ out ∈ p.tx.tx.vout[o.n.toNat]?, out.isNull = false := by
  rcases hfunded with ⟨p', hp', hcreates⟩ | ⟨-, hnone⟩
  · have heq : p' = p :=
      eq_of_txid hp' hp (hcreates.txid_eq.symm.trans hid.symm)
    rw [heq] at hcreates
    obtain ⟨out, hout, hnull, -⟩ := hcreates
    obtain ⟨i, hi, rfl⟩ := CTransaction.mem_outputs_iff.mp hout
    have hlt := (List.getElem?_eq_some_iff.mp hi).1
    have hvout := p.tx.tx.vout_lt
    have hn : (p.tx.tx.outpoint i).n.toNat = i := by
      change (UInt32.ofNat i).toNat = i
      rw [UInt32.toNat_ofNat', Nat.mod_eq_of_lt (by omega)]
    exact ⟨out, by rw [hn]; exact hi, hnull⟩
  · exact absurd hid (hnone p hp)

theorem checkOrigin_spec (h : Consistent env pool) (hit : it ∈ pool.mapTx.entries) {o : COutPoint}
    (ho : o ∈ it.prevouts) (hfunded : InputFunded (haveCoin coins · = true) pool.mapTx.entries o)
    (st : Finset TxIter × Bool) :
    ∃ st', pool.checkOrigin coins it st o = .ok st' ∧
      (∀ a, a ∈ st'.1 ↔ a ∈ st.1 ∨ ∃ p ∈ pool.mapTx.entries, p.txid = o.txid ∧ p.entryId = a) ∧
      (st'.2 = true ↔ st.2 = true ∨ ∃ p ∈ pool.mapTx.entries, p.txid = o.txid) := by
  unfold checkOrigin
  cases hfind : pool.mapTx.find o.txid with
  | some p =>
    obtain ⟨hp, hid⟩ := find_eq_some_iff.mp hfind
    have honly : ∀ p' ∈ pool.mapTx.entries, p'.txid = o.txid → p' = p := fun p' hp' hid' =>
      eq_of_txid hp' hp (hid'.trans hid.symm)
    have holder := h.older it hit p hp (mem_map.mpr ⟨o, ho, hid.symm⟩)
    refine ⟨(insert p.entryId st.1, true), ?_, fun a => ?_, ?_⟩
    · dsimp only
      rw [require_pos (vout_of_inputFunded hfunded hp hid), ok_bind, require_pos holder, ok_bind]
      rfl
    · rw [Finset.mem_insert]
      constructor
      · rintro (rfl | ha)
        · exact Or.inr ⟨p, hp, hid, rfl⟩
        · exact Or.inl ha
      · rintro (ha | ⟨p', hp', hid', rfl⟩)
        · exact Or.inr ha
        · exact Or.inl (by rw [honly p' hp' hid'])
    · exact ⟨fun _ => Or.inr ⟨p, hp, hid⟩, fun _ => rfl⟩
  | none =>
    have hnone := find_eq_none_iff.mp hfind
    have hcoin : haveCoin coins o = true := by
      rcases hfunded with ⟨p, hp, hcreates⟩ | ⟨hcoin, -⟩
      · exact absurd hcreates.txid_eq.symm (hnone p hp)
      · exact hcoin
    refine ⟨st, by dsimp only; rw [require_pos hcoin, ok_bind]; rfl, fun a => ?_, ?_⟩
    · exact ⟨Or.inl, fun ha => ha.resolve_right fun ⟨p, hp, hid, _⟩ => hnone p hp hid⟩
    · exact ⟨Or.inl, fun hflag => hflag.resolve_right fun ⟨p, hp, hid⟩ => hnone p hp hid⟩

theorem checkNextTx_spec (h : Indexed env pool) (hit : it ∈ pool.mapTx.entries) {o : COutPoint}
    {i : ℕ} (ho : it.prevouts[i]? = some o) : pool.checkNextTx it o i = .ok () := by
  have hfind := (h.nextTx o ⟨i, it.tx⟩).mpr ⟨it, hit, rfl, ho⟩
  rw [checkNextTx, hfind]
  dsimp only
  rw [require_pos ⟨rfl, rfl⟩, ok_bind, require_pos rfl]

section

variable (h : Consistent env pool)

include h

/-- The loop over the inputs collects the parents. -/
theorem foldlM_checkInput_spec (hfunded : Funded (haveCoin coins · = true) pool.mapTx.entries)
    (hit : it ∈ pool.mapTx.entries) (inputs : List (COutPoint × ℕ))
    (hinputs : ∀ input ∈ inputs, it.prevouts[input.2]? = some input.1) (st : Finset TxIter × Bool) :
    ∃ st', inputs.foldlM (pool.checkInput coins it) st = .ok st' ∧
      (∀ a, a ∈ st'.1 ↔ a ∈ st.1 ∨ ∃ p ∈ pool.mapTx.entries,
        p.txid ∈ inputs.map (·.1.txid) ∧ p.entryId = a) ∧
      (st'.2 = true ↔ st.2 = true ∨ ∃ p ∈ pool.mapTx.entries,
        p.txid ∈ inputs.map (·.1.txid)) := by
  induction inputs generalizing st with
  | nil => exact ⟨st, rfl, by simp, by simp⟩
  | cons input inputs ih =>
    rw [forall_mem_cons] at hinputs
    have ho := mem_of_getElem? hinputs.1
    obtain ⟨st₁, hok₁, hparents₁, hwait₁⟩ :=
      checkOrigin_spec h hit ho (hfunded it hit _ ho) st
    obtain ⟨st₂, hok₂, hparents₂, hwait₂⟩ := ih hinputs.2 st₁
    have hstep : pool.checkInput coins it st input = .ok st₁ := by
      rw [checkInput, hok₁, ok_bind, checkNextTx_spec h.toIndexed hit hinputs.1, ok_bind]
      rfl
    refine ⟨st₂, by rw [foldlM_cons, hstep, ok_bind, hok₂], fun a => ?_, ?_⟩
    · rw [hparents₂, hparents₁, or_assoc]
      simp only [map_cons, mem_cons, or_and_right, and_or_left, exists_or]
    · rw [hwait₂, hwait₁, or_assoc]
      simp only [map_cons, mem_cons, and_or_left, exists_or]

/-- Ancestors are older, along every path. -/
theorem Consistent.le_of_reaches {a b : TxIter} (ha : a ∈ pool.ids)
    (hab : Reaches pool.parentsOf a b) : b ∈ pool.ids ∧ b ≤ a := by
  induction hab with
  | refl => exact ⟨ha, le_rfl⟩
  | @tail b c _ hstep ih =>
    obtain ⟨hb, hle⟩ := ih
    obtain ⟨e, he, rfl⟩ := mem_ids.mp hb
    obtain ⟨p, hp, hspends, rfl⟩ := (h.mem_parentsOf he).mp hstep
    exact ⟨entryId_mem_ids hp, (h.older e he p hp hspends).le.trans hle⟩

theorem calculateMemPoolAncestors_spec (hit : it ∈ pool.mapTx.entries) :
    ∃ found, pool.calculateMemPoolAncestors it = .ok found ∧
      ∀ a ∈ found, a ∈ pool.ids ∧ a < it.entryId := by
  have hnext : ∀ a ∈ pool.ids, pool.getMemPoolParents a = .ok (pool.parentsOf a) :=
    fun a ha => getMemPoolLinks_of_mem ((h.links.keys a).mpr ha) .parents
  have hclosed : ClosedUnder pool.parentsOf pool.ids := fun a ha b hb =>
    (h.le_of_reaches ha (.single hb)).1
  have hstage : ∀ a, a ∈ (it.prevouts.filterMap fun o =>
      (pool.mapTx.find o.txid).map entryId).toFinset →
        a ∈ pool.ids ∧ a < it.entryId := by
    intro a ha
    obtain ⟨o, ho, hfind⟩ := mem_filterMap.mp (mem_toFinset.mp ha)
    obtain ⟨p, hp, rfl⟩ := Option.map_eq_some_iff.mp hfind
    obtain ⟨hp, hid⟩ := find_eq_some_iff.mp hp
    exact ⟨entryId_mem_ids hp, h.older it hit p hp (mem_map.mpr ⟨o, ho, hid.symm⟩)⟩
  have hfuel : (pool.ids \ ∅).card ≤ pool.mapLinks.keys.card := by
    rw [Finset.sdiff_empty]
    refine Finset.card_le_card fun a ha => ?_
    rw [Finmap.mem_keys]
    exact (h.links.keys a).mpr ha
  obtain ⟨found, hok, -, hmem⟩ := explore_eq_ok hnext hclosed (Finset.empty_subset _)
    (fun a ha => (hstage a ha).1) (Finset.disjoint_empty_right _) (by simp) hfuel
  refine ⟨found, hok, fun b hb => ?_⟩
  rcases (hmem b).mp hb with hb | ⟨a, ha, hab⟩
  · cases hb
  · obtain ⟨hin, hle⟩ := h.le_of_reaches (hstage a ha).1 hab
    exact ⟨hin, hle.trans_lt (hstage a ha).2⟩

end

theorem forM_checkAncestor {ancestors : List TxIter}
    (h : ∀ a ∈ ancestors, a ∈ pool.ids ∧ a < it.entryId) :
    ancestors.forM (pool.checkAncestor it) = .ok () := by
  refine forM_eq_ok_iff.mpr fun a ha => ?_
  obtain ⟨hmem, hlt⟩ := h a ha
  obtain ⟨e, he, rfl⟩ := mem_ids.mp hmem
  rw [checkAncestor, deref_eq_ok he, ok_bind, require_pos hlt]

/-- All that `check` compares for an entry agrees. The entry waits when it has a parent. -/
theorem checkLinks_spec (h : Consistent env pool)
    (hfunded : Funded (haveCoin coins · = true) pool.mapTx.entries)
    (hit : it ∈ pool.mapTx.entries) :
    ∃ fDependsWait, pool.checkLinks coins it =
        .ok (linksAt pool.mapLinks it.entryId, fDependsWait) ∧
      (fDependsWait = true ↔ ∃ p ∈ pool.mapTx.entries, it.Spends p) := by
  have hkey : it.entryId ∈ pool.mapLinks := (h.links.keys _).mpr (entryId_mem_ids hit)
  have hlinks : pool.findLinks it = .ok (linksAt pool.mapLinks it.entryId) := by
    rw [findLinks, lookup_of_mem hkey]
  obtain ⟨⟨setParentCheck, fDependsWait⟩, hinputs, hparents, hwait⟩ :=
    foldlM_checkInput_spec h hfunded hit it.prevouts.zipIdx
      (fun input hinput => mem_zipIdx_iff_getElem?.mp hinput) (∅, false)
  have hspends : it.prevouts.zipIdx.map (·.1.txid) = it.prevouts.map (·.txid) :=
    map_map.symm.trans (congrArg _ (zipIdx_map_fst 0 it.prevouts))
  have hparentsOf : setParentCheck = pool.parentsOf it.entryId := by
    ext a
    rw [hparents, hspends, h.mem_parentsOf hit]
    exact or_iff_right (Finset.notMem_empty a)
  obtain ⟨ancestors, hancestors, holder⟩ := calculateMemPoolAncestors_spec h hit
  obtain ⟨setChildrenCheck, hspenders, hchildren⟩ :=
    h.spendersOf_spec it.txid "childit != mapTx.end()"
  have hchildrenOf : setChildrenCheck = pool.childrenOf it.entryId := by
    ext a
    rw [hchildren, h.mem_childrenOf_iff hit]
    exact exists_congr fun e => and_congr_right fun _ => and_comm
  refine ⟨fDependsWait, ?_, ?_⟩
  · have hgetParents : pool.getMemPoolParents it.entryId = .ok (pool.parentsOf it.entryId) :=
      getMemPoolLinks_of_mem hkey .parents
    have hgetChildren : pool.getMemPoolChildren it.entryId = .ok (pool.childrenOf it.entryId) :=
      getMemPoolLinks_of_mem hkey .children
    have hforM := forM_checkAncestor fun a ha => holder a ((Finset.mem_sort (· ≤ ·)).mp ha)
    rw [checkLinks, hlinks, ok_bind, hinputs, ok_bind]
    dsimp only
    rw [hgetParents, ok_bind, require_pos hparentsOf, ok_bind, hancestors, ok_bind, hforM, ok_bind,
      hspenders, ok_bind, hgetChildren, ok_bind, require_pos hchildrenOf, ok_bind]
    rfl
  · rw [hwait, hspends]
    exact or_iff_right Bool.false_ne_true

end Entry

/-! ## Connecting the entries -/

section Connect

variable {env : MempoolEnv} {pool : TxMemPool} {spendheight : ℕ} {view view' : CoinsMap}

/-- The failures of `CheckInputsAndUpdateCoins` for an entry whose inputs are there. -/
def InputsFail (pool : TxMemPool) (spendheight : ℕ) (f : Failure) : Prop :=
  ∃ e ∈ pool.mapTx.entries, ∃ view, haveInputs view e.tx.tx = true ∧
    checkInputsAndUpdateCoins spendheight view e.tx.tx = .error f

theorem haveInputs_of_haveCoin {tx : CTransaction}
    (h : ∀ o ∈ tx.prevouts, haveCoin view o = true) : haveInputs view tx = true := by
  rw [haveInputs, Bool.or_eq_true, all_eq_true]
  exact Or.inr h

/-- The coins that are there after a transaction is connected. -/
theorem haveCoin_checkInputsAndUpdateCoins {tx : CTransaction}
    (h : checkInputsAndUpdateCoins spendheight view tx = .ok view') {o : COutPoint}
    (ho : haveCoin view o = true ∧ o ∉ tx.prevouts ∨ tx.Creates o) : haveCoin view' o = true := by
  simp only [checkInputsAndUpdateCoins, bind_eq_ok_iff] at h
  obtain ⟨-, -, ⟨undo, spent⟩, hspend, hadd⟩ := h
  refine haveCoin_addCoins hadd o (ho.imp (fun ⟨hcoin, hout⟩ => ?_) id)
  unfold spendCoins at hspend
  split_ifs at hspend
  · cases hspend
    exact hcoin
  · obtain ⟨-, -, heq⟩ := foldlM_spendInput_eq_ok_iff.mp hspend
    rw [Prod.mk.injEq] at heq
    rwa [heq.2, haveCoin, lookup_eraseAll, if_neg hout]

/-- The inputs of the entries that are still to be connected, `rest`, are there or created by
another of them. -/
def Supplied (entries : List CTxMemPoolEntry) (rest : CTxMemPoolEntry → Prop) (view : CoinsMap) :
    Prop :=
  ∀ e ∈ entries, rest e → ∀ o ∈ e.prevouts,
    (∃ p ∈ entries, rest p ∧ p.tx.tx.Creates o) ∨ haveCoin view o = true

theorem Supplied.congr {entries : List CTxMemPoolEntry} {rest rest' : CTxMemPoolEntry → Prop}
    (h : Supplied entries rest view) (hrest : ∀ e, rest' e ↔ rest e) :
    Supplied entries rest' view := by
  rwa [funext fun e => propext (hrest e)]

/-- Connecting an entry takes nothing from the others, and supplies those that spend it. -/
theorem Supplied.connect (h : Indexed env pool) {rest : CTxMemPoolEntry → Prop}
    (hsupplied : Supplied pool.mapTx.entries rest view) {e : CTxMemPoolEntry}
    (he : e ∈ pool.mapTx.entries)
    (hok : checkInputsAndUpdateCoins spendheight view e.tx.tx = .ok view') :
    Supplied pool.mapTx.entries (fun e' => rest e' ∧ e' ≠ e) view' := by
  intro e' he' hrest o ho
  rcases hsupplied e' he' hrest.1 o ho with ⟨p, hp, hprest, hcreates⟩ | hcoin
  · by_cases heq : p = e
    · rw [heq] at hcreates
      exact Or.inr (haveCoin_checkInputsAndUpdateCoins hok (Or.inr hcreates))
    · exact Or.inl ⟨p, hp, ⟨hprest, heq⟩, hcreates⟩
  · have hout : o ∉ e.tx.tx.prevouts := fun hin => hrest.2 (h.spender_unique he' he ho hin)
    exact Or.inr (haveCoin_checkInputsAndUpdateCoins hok (Or.inl ⟨hcoin, hout⟩))

/-- Distinct entries that are still to be connected. -/
structure Waiting (pool : TxMemPool) (rest : List CTxMemPoolEntry) (view : CoinsMap) : Prop where
  nodup : rest.Nodup
  mem : ∀ e ∈ rest, e ∈ pool.mapTx.entries
  supplied : Supplied pool.mapTx.entries (· ∈ rest) view

theorem Waiting.perm {rest rest' : List CTxMemPoolEntry} (h : Waiting pool rest view)
    (hperm : rest'.Perm rest) : Waiting pool rest' view :=
  ⟨hperm.nodup_iff.mpr h.nodup, fun e he => h.mem e (hperm.mem_iff.mp he),
    h.supplied.congr fun _ => hperm.mem_iff⟩

theorem Waiting.connect {e : CTxMemPoolEntry} {rest : List CTxMemPoolEntry}
    (h : Waiting pool (e :: rest) view) (hpool : Indexed env pool)
    (hok : checkInputsAndUpdateCoins spendheight view e.tx.tx = .ok view') :
    Waiting pool rest view' := by
  obtain ⟨hnew, hnodup⟩ := nodup_cons.mp h.nodup
  obtain ⟨he, hmem⟩ := forall_mem_cons.mp h.mem
  refine ⟨hnodup, hmem, (h.supplied.connect hpool he hok).congr fun e' => ?_⟩
  rw [mem_cons]
  exact ⟨fun hin => ⟨Or.inr hin, fun heq => hnew (heq ▸ hin)⟩, fun hin => hin.1.resolve_left hin.2⟩

/-- The oldest of the waiting entries has its inputs, so it is not one of `back`. -/
theorem exists_haveInputs (h : Consistent env pool) {front back : List CTxMemPoolEntry}
    (hwaiting : Waiting pool (front ++ back) view) (hne : front ++ back ≠ [])
    (hback : ∀ e ∈ back, haveInputs view e.tx.tx = false) :
    ∃ e ∈ front, haveInputs view e.tx.tx = true := by
  obtain ⟨e, he, hmin⟩ := (front ++ back).toFinset.exists_min_image entryId
    ((toFinset_nonempty_iff _).mpr hne)
  rw [mem_toFinset] at he
  have hready : haveInputs view e.tx.tx = true := haveInputs_of_haveCoin fun o ho => by
    refine (hwaiting.supplied e (hwaiting.mem e he) he o ho).resolve_left ?_
    rintro ⟨p, hp, hin, hcreates⟩
    have holder := h.older e (hwaiting.mem e he) p hp (mem_map.mpr ⟨o, ho, hcreates.txid_eq⟩)
    exact absurd (hmin p (mem_toFinset.mpr hin)) (not_le.mpr holder)
  refine ⟨e, (mem_append.mp he).resolve_right fun hin => ?_, hready⟩
  rw [hback e hin] at hready
  cases hready

theorem ends_checkInputsAndUpdateCoins {e : CTxMemPoolEntry} (he : e ∈ pool.mapTx.entries)
    (hin : haveInputs view e.tx.tx = true) :
    Ends (checkInputsAndUpdateCoins spendheight view e.tx.tx) (InputsFail pool spendheight)
      fun view' => checkInputsAndUpdateCoins spendheight view e.tx.tx = .ok view' := by
  cases hres : checkInputsAndUpdateCoins spendheight view e.tx.tx with
  | ok view' => exact rfl
  | error f => exact ⟨e, he, view, hin, hres⟩

/-- The loop over the waiting entries never goes round. Since the last entry left the queue, those of
`back` were tried and put back. -/
theorem checkWaiting_spec (h : Consistent env pool) {fuel steps : ℕ}
    {front back : List CTxMemPoolEntry} (hwaiting : Waiting pool (front ++ back) view)
    (hback : ∀ e ∈ back, haveInputs view e.tx.tx = false) (hsteps : steps ≤ back.length)
    (hfuel : (front ++ back).length * (front ++ back).length ≤ fuel + back.length) :
    Ends (checkWaiting spendheight fuel view (front ++ back) steps)
      (InputsFail pool spendheight) fun _ => True := by
  induction fuel generalizing view steps front back with
  | zero =>
    have hnil : front ++ back = [] := by
      by_contra hne
      obtain ⟨e, hfront, -⟩ := exists_haveInputs h hwaiting hne hback
      have hpos := length_pos_of_mem hfront
      have hsquare := Nat.le_mul_self (front ++ back).length
      rw [length_append] at hsquare hfuel
      omega
    rw [hnil]
    exact trivial
  | succ fuel ih =>
    by_cases hne : front ++ back = []
    · rw [hne]
      exact trivial
    obtain ⟨ready, hfront, hready⟩ := exists_haveInputs h hwaiting hne hback
    cases front with
    | nil => cases hfront
    | cons e front =>
      rw [cons_append] at *
      rw [checkWaiting]
      by_cases htry : haveInputs view e.tx.tx = true
      · rw [if_neg (by simp [htry])]
        refine (ends_checkInputsAndUpdateCoins (hwaiting.mem e mem_cons_self) htry).bind
          fun view' hok => ?_
        have hnext := @ih view' 0 (front ++ back) []
        rw [append_nil] at hnext
        refine hnext (hwaiting.connect h.toIndexed hok) (by simp) le_rfl ?_
        simp only [length_cons, length_append, length_nil] at hfuel ⊢
        have hsquare : (front.length + back.length + 1) * (front.length + back.length + 1) =
            (front.length + back.length) * (front.length + back.length) +
              2 * (front.length + back.length) + 1 := by ring
        omega
      · rw [if_pos (by simp [htry])]
        have hother : ready ∈ front := (mem_cons.mp hfront).resolve_left fun heq =>
          htry (heq ▸ hready)
        have hpos := length_pos_of_mem hother
        have hmod := Nat.mod_le (steps + 1) (2 ^ 32)
        have hbound : (steps + 1) % 2 ^ 32 < (front ++ back ++ [e]).length := by
          simp only [length_append, length_singleton]
          omega
        have hperm : (front ++ (back ++ [e])).Perm (e :: (front ++ back)) := by
          rw [← append_assoc]
          exact perm_append_singleton e (front ++ back)
        dsimp only
        rw [require_pos hbound, ok_bind, append_assoc]
        refine ih (hwaiting.perm hperm) (fun e' he' => ?_) ?_ ?_
        · rcases mem_append.mp he' with he' | he'
          · exact hback e' he'
          · rw [mem_singleton.mp he']
            simpa using htry
        · rw [length_append, length_singleton]
          omega
        · rw [hperm.length_eq, length_append, length_singleton]
          omega

end Connect

/-! ## The whole check -/

section Whole

variable {env : MempoolEnv} {pool : TxMemPool} {coins : CoinsMap} {spendheight : ℕ}

/-- What an entry adds to the sum of the memory. -/
def entryUsage (env : MempoolEnv) (pool : TxMemPool) (e : CTxMemPoolEntry) : UInt64 :=
  e.nUsageSize + setsUsage env (linksAt pool.mapLinks e.entryId)

/-- The loop over the entries : it sums up, and leaves the entries with parents waiting. -/
theorem foldlM_checkEntry_spec (h : Consistent env pool)
    (hfunded : Funded (haveCoin coins · = true) pool.mapTx.entries) {todo : List CTxMemPoolEntry}
    {st : CheckState}
    (hwaiting : Waiting pool (st.waitingOnDependants ++ todo) st.mempoolDuplicate) :
    Ends (todo.foldlM (checkEntry env pool coins spendheight) st) (InputsFail pool spendheight)
      fun st' =>
        st'.checkTotal = st.checkTotal + (todo.map nTxSize).sum ∧
        st'.innerUsage = st.innerUsage + (todo.map (entryUsage env pool)).sum ∧
        Waiting pool st'.waitingOnDependants st'.mempoolDuplicate := by
  induction todo generalizing st with
  | nil =>
    rw [append_nil] at hwaiting
    exact ⟨by simp, by simp, hwaiting⟩
  | cons e todo ih =>
    have he : e ∈ pool.mapTx.entries := hwaiting.mem e (by simp)
    obtain ⟨fDependsWait, hlinks, hwait⟩ := checkLinks_spec h hfunded he
    rw [foldlM_cons, checkEntry, hlinks, ok_bind]
    dsimp only
    have hsums : ∀ st' : CheckState,
        (st'.checkTotal = st.checkTotal + e.nTxSize + (todo.map nTxSize).sum ∧
          st'.innerUsage = st.innerUsage + e.nUsageSize +
            setsUsage env (linksAt pool.mapLinks e.entryId) + (todo.map (entryUsage env pool)).sum) →
        st'.checkTotal = st.checkTotal + ((e :: todo).map nTxSize).sum ∧
          st'.innerUsage = st.innerUsage + ((e :: todo).map (entryUsage env pool)).sum := by
      rintro st' ⟨htotal, husage⟩
      rw [htotal, husage, map_cons, sum_cons, map_cons, sum_cons, entryUsage]
      constructor <;> abel
    by_cases hparent : ∃ p ∈ pool.mapTx.entries, e.Spends p
    · rw [if_pos (hwait.mpr hparent)]
      rw [append_cons] at hwaiting
      have hrest := @ih ⟨st.checkTotal + e.nTxSize, st.innerUsage + e.nUsageSize +
        setsUsage env (linksAt pool.mapLinks e.entryId), st.mempoolDuplicate,
        st.waitingOnDependants ++ [e]⟩ hwaiting
      exact hrest.imp fun st' _ ⟨htotal, husage, hdone⟩ =>
        ⟨(hsums st' ⟨htotal, husage⟩).1, (hsums st' ⟨htotal, husage⟩).2, hdone⟩
    · rw [if_neg (mt hwait.mp hparent), bind_assoc]
      have hinputs : haveInputs st.mempoolDuplicate e.tx.tx = true := by
        refine haveInputs_of_haveCoin fun o ho => ?_
        refine (hwaiting.supplied e he (by simp) o ho).resolve_left ?_
        rintro ⟨p, hp, -, hcreates⟩
        exact hparent ⟨p, hp, mem_map.mpr ⟨o, ho, hcreates.txid_eq⟩⟩
      refine (ends_checkInputsAndUpdateCoins he hinputs).bind fun view hok => ?_
      have hrest := @ih ⟨st.checkTotal + e.nTxSize, st.innerUsage + e.nUsageSize +
        setsUsage env (linksAt pool.mapLinks e.entryId), view, st.waitingOnDependants⟩
        ((hwaiting.perm perm_middle.symm).connect h.toIndexed hok)
      exact hrest.imp fun st' _ ⟨htotal, husage, hdone⟩ =>
        ⟨(hsums st' ⟨htotal, husage⟩).1, (hsums st' ⟨htotal, husage⟩).2, hdone⟩

theorem checkSpender_spec (h : Indexed env pool) :
    (pool.mapNextTx.entries.map Prod.snd).forM pool.checkSpender = .ok () := by
  refine forM_eq_ok_iff.mpr fun next hnext => ?_
  obtain ⟨⟨o, next⟩, hmem, rfl⟩ := mem_map.mp hnext
  obtain ⟨e, he, htx, -⟩ := (h.nextTx o next).mp (OrderedStore.find?_eq_some_iff.mpr hmem)
  have hfind : pool.mapTx.find next.tx.tx.getId = some e :=
    find_eq_some_iff.mpr ⟨he, by rw [txid, htx]⟩
  rw [checkSpender, hfind]
  exact require_pos (congrArg CTransactionRef.object htx)

theorem Consistent.sum_entryUsage (h : Consistent env pool) :
    (pool.mapTx.entries.map (entryUsage env pool)).sum = pool.cachedInnerUsage := by
  have hcount := linkCount_eq_sum pool.mapTx.nodup_entryId fun a => by
    rw [h.links.keys, ids, mem_toFinset]
  have hsmul : ∀ l : List CTxMemPoolEntry,
      (l.map (entryUsage env pool)).sum = (l.map nUsageSize).sum +
        (l.map fun e => (linksAt pool.mapLinks e.entryId).count).sum • env.setUsage := by
    intro l
    induction l with
    | nil => simp
    | cons e l ih =>
      simp only [map_cons, sum_cons, ih, entryUsage, setsUsage_eq, add_zsmul]
      abel
  rw [hsmul, h.usage, hcount, map_map]
  rfl

/-- `check` of a consistent pool with funded entries, in any order of its hash index : no assertion
about the pool fails. -/
theorem check_spec (h : Consistent env pool)
    (hfunded : Funded (haveCoin coins · = true) pool.mapTx.entries)
    {entries : List CTxMemPoolEntry} (hperm : entries.Perm pool.mapTx.entries) :
    Ends (pool.check env coins spendheight entries) (InputsFail pool spendheight)
      fun _ => True := by
  have hstart : Waiting pool entries coins := by
    refine ⟨hperm.nodup_iff.mpr (.of_map _ pool.mapTx.unique), fun e => hperm.mem_iff.mp,
      fun e he _ o ho => ?_⟩
    refine (hfunded e he o ho).imp (fun ⟨p, hp, hcreates⟩ => ?_) And.left
    exact ⟨p, hp, hperm.mem_iff.mpr hp, hcreates⟩
  rw [check]
  refine (@foldlM_checkEntry_spec _ env pool coins spendheight h hfunded entries ⟨0, 0, coins, []⟩
    hstart).bind fun st ⟨htotal, husage, hdone⟩ => ?_
  have hwaiting := @checkWaiting_spec _ env pool spendheight st.mempoolDuplicate h
    (st.waitingOnDependants.length * st.waitingOnDependants.length) 0 st.waitingOnDependants []
  rw [append_nil] at hwaiting
  refine (hwaiting hdone (by simp) le_rfl (by simp)).bind fun _ _ => ?_
  have hsum : pool.totalTxSize = st.checkTotal := by
    rw [htotal, zero_add, h.total]
    exact (hperm.map _).sum_eq.symm
  have hinner : st.innerUsage = pool.cachedInnerUsage := by
    rw [husage, zero_add, ← h.sum_entryUsage]
    exact (hperm.map _).sum_eq
  rw [checkSpender_spec h.toIndexed, ok_bind, require_pos hsum, ok_bind, require_pos hinner]
  exact trivial

end Whole

end TxMemPool

end Check

end RadiantCore
