import RadiantCore.Coins
import RadiantCore.ScriptNum

/-!
# The execution context of a script

`ScriptExecutionContext` : what the introspection opcodes see of the transaction, the coins it
spends and the references of both. The constructor scans the scripts of the coins and then
those of the outputs, and accumulates sums and counts by reference, by the hash of a set of
references and by the hash of the code part of a script (`RefSummary`, one for each side).
It throws when the scan of a script fails.

The maps are functions to `Option`, so that an insertion which keeps a present entry can be
told from an update. Amounts are exact integers.
-/

namespace RadiantCore

/-- `map.insert(std::pair(k, v))`, which keeps a present entry. -/
def insertNew {κ ν : Type} [DecidableEq κ] (m : κ → Option ν) (k : κ) (v : ν) : κ → Option ν :=
  Function.update m k (some ((m k).getD v))

/-- `map[k] += v`, from zero when there is no entry. -/
def addAt {κ ν : Type} [DecidableEq κ] [Zero ν] [Add ν] (m : κ → Option ν) (k : κ) (v : ν) :
    κ → Option ν :=
  Function.update m k (some ((m k).getD 0 + v))

/-- `PushRefScriptSummary`. -/
structure PushRefScriptSummary where
  nValue : Int64
  refs : PushRefs
  codeScriptHash : Uint256

/-- What a context holds about the references of the spent coins, or of the outputs. -/
structure RefSummary where
  pushRefSet : Finset Uint288 := ∅
  singletonRefSet : Finset Uint288 := ∅
  scriptSummaries : List PushRefScriptSummary := []
  indexToDataSummaryHash : List Uint256 := []
  refHashToAmountMap : Uint256 → Option ℤ := fun _ => none
  refAssetIdToAmountMap : Uint288 → Option ℤ := fun _ => none
  refAssetIdToOutputCountMap : Uint288 → Option ℕ := fun _ => none
  refAssetIdToZeroValueOutputCountMap : Uint288 → Option ℕ := fun _ => none
  codeScriptHashToAmountMap : Uint256 → Option ℤ := fun _ => none
  codeScriptHashToOutputCountMap : Uint256 → Option ℕ := fun _ => none
  codeScriptHashToZeroValueOutputCountMap : Uint256 → Option ℕ := fun _ => none
  indexToStateSeperatorIndex : ℕ → Option ℕ := fun _ => none

namespace RefSummary

/-! ## What the opcodes ask

Each of these is two functions of the source, one for the coins (`…Utxo`, `…Utxos`) and one
for the outputs (`…Output`, `…Outputs`). The indices are in range where they are called. -/

section Getters

variable (side : RefSummary)

/-- `getRefHashValueSumUtxos`, `getRefHashValueSumOutputs`. -/
def getRefHashValueSum (refHash : Uint256) : ℤ := (side.refHashToAmountMap refHash).getD 0

/-- `getRefHashDataSummaryUtxo`, `getRefHashDataSummaryOutput`. -/
def getRefHashDataSummary (index : ℕ) : Uint256 :=
  side.indexToDataSummaryHash[index]?.getD Blob.null

/-- `getRefTypeUtxo`, `getRefTypeOutput` : 2 for a singleton, 1 for another pushed
reference. -/
def getRefType (refAssetId : Uint288) : ℕ :=
  if refAssetId ∈ side.singletonRefSet then 2 else if refAssetId ∈ side.pushRefSet then 1 else 0

/-- `getStateSeperatorIndexUtxo`, `getStateSeperatorIndexOutput`. -/
def getStateSeperatorIndex (index : ℕ) : ℕ := (side.indexToStateSeperatorIndex index).getD 0

/-- `getRefValueSumUtxos`, `getRefValueSumOutputs`. -/
def getRefValueSum (refAssetId : Uint288) : ℤ := (side.refAssetIdToAmountMap refAssetId).getD 0

/-- `getRefOutputCountUtxos`, `getRefOutputCountOutputs`. -/
def getRefOutputCount (refAssetId : Uint288) : ℕ :=
  (side.refAssetIdToOutputCountMap refAssetId).getD 0

/-- `getRefOutputZeroValuedCountUtxos`, `getRefOutputZeroValuedCountOutputs`. -/
def getRefOutputZeroValuedCount (refAssetId : Uint288) : ℕ :=
  (side.refAssetIdToZeroValueOutputCountMap refAssetId).getD 0

/-- `getRefsPerUtxo`, `getRefsPerOutput` : the references in increasing order, `none` when
there is none. -/
def getRefsPer (index : ℕ) : Option (List UInt8) :=
  let pushRefSet := (side.scriptSummaries[index]?.map fun s => s.refs.pushRefSet).getD ∅
  if pushRefSet.card = 0 then none else some ((sortedRefs pushRefSet).flatMap Blob.data)

/-- `getCodeScriptHashValueSumUtxos`, `getCodeScriptHashValueSumOutputs`. -/
def getCodeScriptHashValueSum (codeScriptHash : Uint256) : ℤ :=
  (side.codeScriptHashToAmountMap codeScriptHash).getD 0

/-- `getCodeScriptHashOutputCountUtxos`, `getCodeScriptHashOutputCountOutputs`. -/
def getCodeScriptHashOutputCount (codeScriptHash : Uint256) : ℕ :=
  (side.codeScriptHashToOutputCountMap codeScriptHash).getD 0

/-- `getCodeScriptHashOutputZeroValuedCountUtxos`,
`getCodeScriptHashOutputZeroValuedCountOutputs`. -/
def getCodeScriptHashOutputZeroValuedCount (codeScriptHash : Uint256) : ℕ :=
  (side.codeScriptHashToZeroValueOutputCountMap codeScriptHash).getD 0

/-- `getStateSeparatorByteIndexUtxo`, `getStateSeparatorByteIndexOutput`. -/
def getStateSeparatorByteIndex (index : ℕ) : ℕ :=
  (side.scriptSummaries[index]?.map fun s => s.refs.stateSeperatorByteIndex).getD 0

end Getters

/-! ## The scan of the scripts -/

section Scan

variable [Crypto]

/-- The hash of the code part of a script, after its state separator. -/
def codeScriptHashOf (script : CScript) (stateSeperatorByteIndex : ℕ) : Uint256 :=
  if script.length ≤ stateSeperatorByteIndex then hash256 []
  else hash256 (script.drop stateSeperatorByteIndex)

/-- The bytes hashed for `indexToDataSummaryHash`. -/
def dataSummaryBytes (summary : RefHashDataSummary) : List UInt8 :=
  serializeAmount summary.nValue ++ summary.scriptPubKeyHash.data ++
    writeLE 4 summary.totalRefs ++ summary.refsHash.data

/-- The maps by reference, after an entry of value `nValue` that pushes `refAssetId`. -/
def addRefAsset (nValue : Int64) (side : RefSummary) (refAssetId : Uint288) : RefSummary :=
  { side with
    refAssetIdToAmountMap := addAt side.refAssetIdToAmountMap refAssetId nValue.toInt
    refAssetIdToOutputCountMap := addAt side.refAssetIdToOutputCountMap refAssetId 1
    refAssetIdToZeroValueOutputCountMap :=
      addAt side.refAssetIdToZeroValueOutputCountMap refAssetId (if nValue = 0 then 1 else 0) }

/-- The maps by reference, after an entry that pushes `pushRefSet`. An entry without references
is filed under the null reference, and only the first of them. -/
def addRefAssets (nValue : Int64) (pushRefSet : Finset Uint288) (side : RefSummary) :
    RefSummary :=
  if pushRefSet.card = 0 then
    { side with
      refAssetIdToAmountMap := insertNew side.refAssetIdToAmountMap Blob.null nValue.toInt }
  else (sortedRefs pushRefSet).foldl (addRefAsset nValue) side

/-- The maps by code script hash, after an entry of value `nValue`. -/
def addCodeScript (nValue : Int64) (codeScriptHash : Uint256) (side : RefSummary) : RefSummary :=
  { side with
    codeScriptHashToAmountMap :=
      addAt side.codeScriptHashToAmountMap codeScriptHash nValue.toInt
    codeScriptHashToOutputCountMap := addAt side.codeScriptHashToOutputCountMap codeScriptHash 1
    codeScriptHashToZeroValueOutputCountMap :=
      addAt side.codeScriptHashToZeroValueOutputCountMap codeScriptHash
        (if nValue = 0 then 1 else 0) }

/-- `calculatePrecomputedStateForScript`, for the entry of an index. -/
def calculatePrecomputedStateForScript (side : RefSummary) (entry : CTxOut × ℕ) :
    Except Failure RefSummary :=
  let script := entry.1.scriptPubKey
  let nValue := entry.1.nValue
  match getPushRefs script with
  | none => .error (.exception "Error: script-execution-context-init")
  | some refs =>
    let outputSummary := RadiantCore.getRefHashDataSummary refs.pushRefSet script nValue
    let codeScriptHash := codeScriptHashOf script refs.stateSeperatorByteIndex
    let side := { side with
      pushRefSet := side.pushRefSet ∪ refs.pushRefSet
      singletonRefSet := side.singletonRefSet ∪ refs.singletonRefSet
      indexToStateSeperatorIndex :=
        insertNew side.indexToStateSeperatorIndex entry.2 refs.stateSeperatorByteIndex
      refHashToAmountMap := addAt side.refHashToAmountMap outputSummary.refsHash nValue.toInt
      indexToDataSummaryHash :=
        side.indexToDataSummaryHash ++ [hash256 (dataSummaryBytes outputSummary)]
      scriptSummaries := side.scriptSummaries ++ [⟨nValue, refs, codeScriptHash⟩] }
    .ok (addCodeScript nValue codeScriptHash (addRefAssets nValue refs.pushRefSet side))

/-- `initializeInputSummary` and `initializeOutputSummary`. -/
def initializeSummary (entries : List CTxOut) : Except Failure RefSummary :=
  entries.zipIdx.foldlM calculatePrecomputedStateForScript {}

/-- The scan succeeds when `GetPushRefs` succeeds on all scripts, and throws otherwise. -/
theorem initializeSummary_ends (entries : List CTxOut) :
    ((∀ out ∈ entries, Parses out.scriptPubKey) ∧ ∃ side, initializeSummary entries = .ok side) ∨
      (∃ out ∈ entries, ¬ Parses out.scriptPubKey) ∧
        initializeSummary entries = .error (.exception "Error: script-execution-context-init") := by
  have hmem : ∀ out, out ∈ entries ↔ ∃ p ∈ entries.zipIdx, p.1 = out := fun out => by
    rw [← List.mem_map, List.zipIdx_map_fst]
  have hgood : ∀ (side : RefSummary) (entry : CTxOut × ℕ), Parses entry.1.scriptPubKey →
      ∃ side', calculatePrecomputedStateForScript side entry = .ok side' := by
    rintro side entry ⟨refs, hrefs⟩
    simp [calculatePrecomputedStateForScript, hrefs]
  have hbad : ∀ (side : RefSummary) (entry : CTxOut × ℕ), ¬ Parses entry.1.scriptPubKey →
      calculatePrecomputedStateForScript side entry =
        .error (.exception "Error: script-execution-context-init") := by
    intro side entry hnot
    simp [calculatePrecomputedStateForScript, getPushRefs_eq_none_iff.mpr hnot]
  simpa only [hmem, forall_exists_index, and_imp, forall_apply_eq_imp_iff₂,
    exists_exists_and_eq_and, initializeSummary] using foldlM_of_uniform hgood hbad entries.zipIdx {}

end Scan

end RefSummary

/-! ## Contexts -/

section Context

variable [Crypto]

/-- `CCoinsViewCache::AccessCoin`, on the map a cache represents. -/
def accessCoin (view : CoinsMap) (outpoint : COutPoint) : Coin :=
  (view.lookup outpoint).getD Coin.empty

namespace ScriptExecutionContext

/-- `ScriptExecutionContext::Shared`, as its constructor leaves it : there is a coin for every
input, and the summaries are those of the coins and of the outputs. -/
structure Shared (tx : CTransaction) where
  inputCoins : List Coin
  inputs : RefSummary
  outputs : RefSummary
  size_inputCoins : inputCoins.length = tx.vin.length
  inputs_eq : RefSummary.initializeSummary (inputCoins.map Coin.out) = .ok inputs
  outputs_eq : RefSummary.initializeSummary tx.vout = .ok outputs

/-- The constructor of `Shared`. -/
def Shared.make (tx : CTransaction) (coins : List Coin) (hsize : coins.length = tx.vin.length) :
    Except Failure (Shared tx) :=
  match hin : RefSummary.initializeSummary (coins.map Coin.out) with
  | .error e => .error e
  | .ok inputs =>
    match hout : RefSummary.initializeSummary tx.vout with
    | .error e => .error e
    | .ok outputs => .ok ⟨coins, inputs, outputs, hsize, hin, hout⟩

end ScriptExecutionContext

/-- `ScriptExecutionContext` : the context of an input of a transaction. A limited context knows
the coin of that input only. -/
structure ScriptExecutionContext where
  tx : CTransaction
  shared : ScriptExecutionContext.Shared tx
  nIn : Fin tx.vin.length
  limited : Bool

namespace ScriptExecutionContext

variable (context : ScriptExecutionContext)

/-- `coin`. -/
def coin (inputIdx : ℕ) : Except ScriptFailure Coin :=
  match context.shared.inputCoins[inputIdx]? with
  | some coin => .ok coin
  | none => .error (.exception "vector::_M_range_check")

/-- `coinScriptPubKey`. -/
def coinScriptPubKey (inputIdx : ℕ) : Except ScriptFailure CScript := do
  let coin ← context.coin inputIdx
  return coin.out.scriptPubKey

/-- `coinAmount`. -/
def coinAmount (inputIdx : ℕ) : Except ScriptFailure Int64 := do
  let coin ← context.coin inputIdx
  return coin.out.nValue

/-- `scriptSig`. -/
def scriptSig (inputIdx : ℕ) : Except ScriptFailure CScript :=
  match context.tx.vin[inputIdx]? with
  | some txin => .ok txin.scriptSig
  | none => .error (.exception "vector::_M_range_check")

end ScriptExecutionContext

end Context

end RadiantCore
