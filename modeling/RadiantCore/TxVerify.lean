import RadiantCore.BlockCheck

/-!
# Checks of a transaction against the coins it spends

`CheckTxInputs` and `SequenceLocks` of `consensus/tx_verify.cpp`, with the part of the
block index they read. `checkTxInputs_eq_ok_iff` says what acceptance means : every input
is there and mature, no value is negative, the sums are in range and the outputs do not
exceed the inputs. Both checks read the coins only at the prevouts of the transaction
(`checkTxInputs_congr`, `prevHeights_congr`).
-/

namespace RadiantCore

/-! ## The block index -/

/-- `CBlockIndex`, with its chain of predecessors. The height is the length of the chain. -/
inductive CBlockIndex
  | genesis (hash : Uint256) (nTime : UInt32)
  | next (pprev : CBlockIndex) (hash : Uint256) (nTime : UInt32)
deriving DecidableEq

namespace CBlockIndex

def nHeight : CBlockIndex → ℕ
  | genesis _ _ => 0
  | next pprev _ _ => pprev.nHeight + 1

def pprev? : CBlockIndex → Option CBlockIndex
  | genesis _ _ => none
  | next pprev _ _ => some pprev

def getBlockHash : CBlockIndex → Uint256
  | genesis hash _ => hash
  | next _ hash _ => hash

def nTime : CBlockIndex → UInt32
  | genesis _ nTime => nTime
  | next _ _ nTime => nTime

theorem nHeight_of_pprev? {index pprev : CBlockIndex} (h : index.pprev? = some pprev) :
    index.nHeight = pprev.nHeight + 1 := by
  cases index with
  | genesis => cases h
  | next => rw [nHeight, Option.some.inj h]

/-- `CBlockIndex::GetAncestor`, `none` above the height of the block. -/
def getAncestor : CBlockIndex → ℕ → Option CBlockIndex
  | index@(genesis _ _), height => if height = 0 then some index else none
  | index@(next pprev _ _), height =>
    if height = index.nHeight then some index else pprev.getAncestor height

/-- The times of the last `n` blocks. -/
def blockTimes : ℕ → CBlockIndex → List ℤ
  | 0, _ => []
  | _ + 1, genesis _ nTime => [nTime.toNat]
  | n + 1, next pprev _ nTime => nTime.toNat :: blockTimes n pprev

/-- `CBlockIndex::GetMedianTimePast`, the median time of the last 11 blocks. -/
def getMedianTimePast (index : CBlockIndex) : ℤ :=
  let times := (index.blockTimes 11).insertionSort (· ≤ ·)
  times.getD (times.length / 2) 0

end CBlockIndex

/-- `GetBlockSubsidy`. -/
def getBlockSubsidy (nHeight : ℕ) (params : Params) : ℤ :=
  let halvings := nHeight / params.nSubsidyHalvingInterval
  if halvings ≥ 64 then 0 else 50000 * 100000000 / 2 ^ halvings

/-! ## The inputs of a transaction -/

/-- `COINBASE_MATURITY`. -/
def coinbaseMaturity : UInt32 := 100

/-- A coinbase coin is not yet mature at a height. Heights are subtracted as unsigned 32-bit
integers. -/
def Coin.isPremature (coin : Coin) (nSpendHeight : ℕ) : Bool :=
  coin.fCoinBase && UInt32.ofNat nSpendHeight - UInt32.ofNat coin.nHeight < coinbaseMaturity

/-- The coin of an outpoint can be spent at a height. -/
def CoinsMap.Spendable (view : CoinsMap) (nSpendHeight : ℕ) (outpoint : COutPoint) : Prop :=
  ∃ coin, view.lookup outpoint = some coin ∧ coin.isSpent = false ∧
    coin.isPremature nSpendHeight = false

/-- The value of the coin of an outpoint, 0 when there is none. -/
def CoinsMap.valueAt (view : CoinsMap) (outpoint : COutPoint) : ℤ :=
  ((view.lookup outpoint).map fun coin => coin.out.nValue.toInt).getD 0

/-- One iteration of the loop of `CheckTxInputs`. -/
def checkTxInput (inputs : CoinsMap) (nSpendHeight : ℕ) (nValueIn : ℤ) (prevout : COutPoint) :
    Except Failure ℤ :=
  match inputs.lookup prevout with
  | none => .error (rejectInvalid 100 "bad-txns-inputs-missingorspent")
  | some coin => do
    require (¬ coin.isSpent) (rejectInvalid 100 "bad-txns-inputs-missingorspent")
    require (¬ coin.isPremature nSpendHeight)
      (rejectInvalid 0 "bad-txns-premature-spend-of-coinbase")
    let nValueIn ← addAmount nValueIn coin.out.nValue.toInt
    require (moneyRange coin.out.nValue.toInt ∧ moneyRange nValueIn)
      (rejectInvalid 100 "bad-txns-inputvalues-outofrange")
    return nValueIn

section Verify

variable [Crypto]

/-- `Consensus::CheckTxInputs` : the fee of a transaction. -/
def checkTxInputs (tx : CTransaction) (inputs : CoinsMap) (nSpendHeight : ℕ) :
    Except Failure ℤ := do
  require (¬ tx.isCoinBase) (.abort "!tx.IsCoinBase()")
  let nValueIn ← tx.prevouts.foldlM (checkTxInput inputs nSpendHeight) 0
  let valueOut ← tx.getValueOut
  require (valueOut ≤ nValueIn) (rejectInvalid 100 "bad-txns-in-belowout")
  let txfee ← addAmount nValueIn (-valueOut)
  require (moneyRange txfee) (rejectInvalid 100 "bad-txns-fee-outofrange")
  return txfee

/-- The sum of the values of the coins a transaction spends. -/
def CTransaction.valueIn (tx : CTransaction) (view : CoinsMap) : ℤ :=
  (tx.prevouts.map view.valueAt).sum

variable {inputs : CoinsMap} {nSpendHeight : ℕ}

omit [Crypto] in
theorem checkTxInput_eq_ok_iff {acc acc' : ℤ}
    {prevout : COutPoint} (hacc : 0 ≤ acc) (hbound : acc ≤ maxMoney) :
    checkTxInput inputs nSpendHeight acc prevout = .ok acc' ↔
      inputs.Spendable nSpendHeight prevout ∧ 0 ≤ inputs.valueAt prevout ∧
        acc + inputs.valueAt prevout ≤ maxMoney ∧ acc' = acc + inputs.valueAt prevout := by
  unfold checkTxInput CoinsMap.Spendable CoinsMap.valueAt
  cases inputs.lookup prevout with
  | none => simp
  | some coin =>
    simp only [bind_eq_ok_iff, exists_unit_iff, require_eq_ok_iff, pure_eq_ok_iff, moneyRange_iff,
      Bool.not_eq_true, Option.some.injEq, exists_eq_left', Option.map_some, Option.getD_some]
    constructor
    · rintro ⟨hspent, hmature, m, hm, ⟨⟨h₁, -⟩, -, h₂⟩, rfl⟩
      obtain rfl := addAmount_eq_ok hm
      exact ⟨⟨hspent, hmature⟩, h₁, h₂, rfl⟩
    · rintro ⟨⟨hspent, hmature⟩, h₁, h₂, rfl⟩
      refine ⟨hspent, hmature, _, addAmount_of_moneyRange ?_ ?_,
        ⟨⟨h₁, by omega⟩, by omega, h₂⟩, rfl⟩
      · exact moneyRange_iff.mpr ⟨hacc, hbound⟩
      · exact moneyRange_iff.mpr ⟨h₁, by omega⟩

variable {tx : CTransaction}

/-- What `CheckTxInputs` accepts, and the fee it returns. -/
theorem checkTxInputs_eq_ok_iff {txfee : ℤ} :
    checkTxInputs tx inputs nSpendHeight = .ok txfee ↔ tx.isCoinBase = false ∧
      (∀ o ∈ tx.prevouts, inputs.Spendable nSpendHeight o ∧ 0 ≤ inputs.valueAt o) ∧
      tx.valueIn inputs ≤ maxMoney ∧ (∀ out ∈ tx.vout, 0 ≤ out.nValue.toInt) ∧
      tx.valueOut ≤ tx.valueIn inputs ∧ txfee = tx.valueIn inputs - tx.valueOut := by
  have hloop : ∀ v, tx.prevouts.foldlM (checkTxInput inputs nSpendHeight) 0 = .ok v ↔
      (∀ o ∈ tx.prevouts, inputs.Spendable nSpendHeight o ∧ 0 ≤ inputs.valueAt o) ∧
        tx.valueIn inputs ≤ maxMoney ∧ v = tx.valueIn inputs := fun v => by
    rw [foldlM_boundedSum_eq_ok_iff (inputs.Spendable nSpendHeight) inputs.valueAt maxMoney
      (fun _ _ _ hacc hbound => checkTxInput_eq_ok_iff hacc hbound) le_rfl (by decide), zero_add,
      CTransaction.valueIn]
  simp only [checkTxInputs, bind_eq_ok_iff, exists_unit_iff, require_eq_ok_iff, pure_eq_ok_iff,
    Bool.not_eq_true, CMutableTransaction.getValueOut_eq_ok_iff, hloop]
  constructor
  · rintro ⟨hcb, _, ⟨hin, hinle, rfl⟩, _, ⟨hout, houtle, rfl⟩, hle, fee, hfee, hrange, rfl⟩
    obtain rfl := addAmount_eq_ok hfee
    exact ⟨hcb, hin, hinle, hout, hle, by ring⟩
  · rintro ⟨hcb, hin, hinle, hout, hle, rfl⟩
    have hnonneg : 0 ≤ tx.valueOut := List.sum_nonneg (List.forall_mem_map.mpr hout)
    refine ⟨hcb, _, ⟨hin, hinle, rfl⟩, _, ⟨hout, by omega, rfl⟩, hle, _, ?_, ?_, rfl⟩
    · rw [maxMoney] at hinle
      exact (if_pos (by constructor <;> omega)).trans (by rw [sub_eq_add_neg])
    · exact moneyRange_iff.mpr ⟨by omega, by omega⟩

variable {view view' : CoinsMap}

/-- `CheckTxInputs` reads the coins at the prevouts only. -/
theorem checkTxInputs_congr (h : ∀ o ∈ tx.prevouts, view.lookup o = view'.lookup o) :
    checkTxInputs tx view nSpendHeight = checkTxInputs tx view' nSpendHeight := by
  have hloop : ∀ (l : List COutPoint) (acc : ℤ), (∀ o ∈ l, view.lookup o = view'.lookup o) →
      l.foldlM (checkTxInput view nSpendHeight) acc =
        l.foldlM (checkTxInput view' nSpendHeight) acc := by
    intro l
    induction l with
    | nil => intro acc _; rfl
    | cons o l ih =>
      intro acc hl
      rw [List.forall_mem_cons] at hl
      rw [List.foldlM_cons, List.foldlM_cons, checkTxInput, checkTxInput, hl.1]
      simp only [ih _ hl.2]
  simp only [checkTxInputs, hloop _ _ h]

/-! ## Lock times -/

/-- `MIN_TX_SIZE`. -/
def minTxSize : ℕ := 32

/-- `CTxIn::SEQUENCE_FINAL`. -/
def sequenceFinal : UInt32 := 0xffffffff

/-- `IsFinalTx`. -/
def isFinalTx (tx : CTransaction) (nBlockHeight nBlockTime : ℤ) : Bool :=
  let lockTime : ℤ := tx.nLockTime.toNat
  let lockTimeLimit := if lockTime < locktimeThreshold then nBlockHeight else nBlockTime
  tx.nLockTime = 0 ∨ lockTime < lockTimeLimit ∨ ∀ txin ∈ tx.vin, txin.nSequence = sequenceFinal

/-- `ContextualCheckTransaction`. -/
def contextualCheckTransaction (tx : CTransaction) (nHeight nLockTimeCutoff : ℤ) :
    Except Failure Unit := do
  require (isFinalTx tx nHeight nLockTimeCutoff) (rejectInvalid 10 "bad-txns-nonfinal")
  require (minTxSize ≤ tx.getTotalSize) (rejectInvalid 100 "bad-txns-undersize")

/-! ## Sequence locks -/

/-- `LOCKTIME_VERIFY_SEQUENCE`. -/
def locktimeVerifySequence : UInt32 := 1

/-- `CTxIn::SEQUENCE_LOCKTIME_DISABLE_FLAG`. -/
def sequenceLocktimeDisableFlag : UInt32 := 0x80000000

/-- `CTxIn::SEQUENCE_LOCKTIME_TYPE_FLAG`. -/
def sequenceLocktimeTypeFlag : UInt32 := 0x00400000

/-- `CTxIn::SEQUENCE_LOCKTIME_MASK`. -/
def sequenceLocktimeMask : UInt32 := 0x0000ffff

/-- One iteration of the loop of `CalculateSequenceLocks` : the least height and time, after
an input whose coin has height `nCoinHeight`. -/
def sequenceLock (block : CBlockIndex) (lockPair : ℤ × ℤ) (input : CTxIn × ℕ) :
    Except Failure (ℤ × ℤ) :=
  let (nMinHeight, nMinTime) := lockPair
  let (txin, nCoinHeight) := input
  let lock : ℤ := (txin.nSequence &&& sequenceLocktimeMask).toNat
  if txin.nSequence &&& sequenceLocktimeDisableFlag ≠ 0 then .ok lockPair
  else if txin.nSequence &&& sequenceLocktimeTypeFlag ≠ 0 then
    match block.getAncestor (nCoinHeight - 1) with
    | none => .error (.abort "GetAncestor returned a null pointer")
    | some ancestor => .ok (nMinHeight, max nMinTime (ancestor.getMedianTimePast + lock * 2 ^ 9 - 1))
  else .ok (max nMinHeight (nCoinHeight + lock - 1), nMinTime)

/-- `CalculateSequenceLocks`. -/
def calculateSequenceLocks (tx : CTransaction) (flags : UInt32) (prevHeights : List ℕ)
    (block : CBlockIndex) : Except Failure (ℤ × ℤ) := do
  require (prevHeights.length = tx.vin.length) (.abort "prevHeights->size() == tx.vin.size()")
  if 2 ≤ tx.nVersion.toUInt32 ∧ flags &&& locktimeVerifySequence ≠ 0 then
    (tx.vin.zip prevHeights).foldlM (sequenceLock block) (-1, -1)
  else return (-1, -1)

/-- `EvaluateSequenceLocks`. -/
def evaluateSequenceLocks (block : CBlockIndex) (lockPair : ℤ × ℤ) : Except Failure Bool :=
  match block.pprev? with
  | none => .error (.abort "block.pprev")
  | some pprev =>
    .ok (lockPair.1 < block.nHeight && lockPair.2 < pprev.getMedianTimePast)

/-- `SequenceLocks`. -/
def sequenceLocks (tx : CTransaction) (flags : UInt32) (prevHeights : List ℕ)
    (block : CBlockIndex) : Except Failure Bool := do
  let lockPair ← calculateSequenceLocks tx flags prevHeights block
  evaluateSequenceLocks block lockPair

/-- The heights of the coins a transaction spends, 0 for a missing one. -/
def prevHeights (tx : CTransaction) (view : CoinsMap) : List ℕ :=
  tx.prevouts.map fun o => ((view.lookup o).map Coin.nHeight).getD 0

theorem prevHeights_congr (h : ∀ o ∈ tx.prevouts, view.lookup o = view'.lookup o) :
    prevHeights tx view = prevHeights tx view' :=
  List.map_congr_left fun o ho => by rw [h o ho]

end Verify

end RadiantCore
