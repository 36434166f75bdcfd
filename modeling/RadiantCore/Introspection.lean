import RadiantCore.ScriptContext
import RadiantCore.StackOps

/-!
# The introspection opcodes

The cases of the switch of `EvalScript` that ask the execution context about the transaction,
the coins it spends and their references. Most of them pop an index or a hash and push a
number or a byte string ; the families are given by what they pop and what they check
(`inputQuery`, `utxoQuery`, `outputQuery`, `blobQuery`), and each opcode by what it pushes.
-/

namespace RadiantCore

open Opcode

variable [Crypto]

namespace ScriptExecutionContext

/-- `CScriptNum::fromInt(x).value().getvch()`. -/
def number (x : ℤ) : Except ScriptFailure Valtype := do
  let bn ← CScriptNum.fromInt x
  return CScriptNum.serialize bn

/-- A script as an element of the stack. -/
def bytecode (script : CScript) : Except ScriptFailure Valtype :=
  if script.length > maxScriptElementSize then scriptError .PUSH_SIZE else .ok script

/-- The part of a script after its state separator. -/
def codeBytecode (script : CScript) (stateSeperatorIndex : ℕ) : Except ScriptFailure Valtype := do
  let script ← bytecode script
  return script.drop stateSeperatorIndex

/-- The part of a script before its state separator. -/
def stateBytecode (script : CScript) (stateSeperatorIndex : ℕ) :
    Except ScriptFailure Valtype := do
  let script ← bytecode script
  if stateSeperatorIndex > 0 then return script.take (stateSeperatorIndex - 1)
  else return CScriptNum.serialize 0

section Queries

variable (context : ScriptExecutionContext) (flags : UInt32)

/-- Pop the index of an input, push what `f` gives. -/
def inputQuery (f : Fin context.tx.vin.length → Except ScriptFailure Valtype) :
    Stack → Except ScriptFailure Stack
  | x :: s => do
    let index ← scriptNum flags x
    if h : 0 ≤ index ∧ index.toNat < context.tx.vin.length then do
      let vch ← f ⟨index.toNat, h.2⟩
      return vch :: s
    else scriptError .INVALID_TX_INPUT_INDEX
  | [] => invalidStackOperation

/-- The same for what depends on the coin of the input, which a limited context may lack. -/
def utxoQuery (f : Fin context.tx.vin.length → Except ScriptFailure Valtype) :
    Stack → Except ScriptFailure Stack :=
  context.inputQuery flags fun index =>
    if context.limited ∧ index ≠ context.nIn then scriptError .LIMITED_CONTEXT_NO_SIBLING_INFO
    else f index

/-- Pop the index of an output, push what `f` gives. -/
def outputQuery (f : Fin context.tx.vout.length → Except ScriptFailure Valtype) :
    Stack → Except ScriptFailure Stack
  | x :: s => do
    let index ← scriptNum flags x
    if h : 0 ≤ index ∧ index.toNat < context.tx.vout.length then do
      let vch ← f ⟨index.toNat, h.2⟩
      return vch :: s
    else scriptError .INVALID_TX_OUTPUT_INDEX
  | [] => invalidStackOperation

omit [Crypto] in
/-- Pop a hash or a reference, push a number. -/
def blobQuery {w : ℕ} (e : ScriptError) (f : Blob w → ℤ) : Stack → Except ScriptFailure Stack
  | x :: s =>
    match Blob.ofVch x with
    | none => scriptError e
    | some b => do
      let vch ← number (f b)
      return vch :: s
  | [] => invalidStackOperation

end Queries

/-! ## Native introspection -/

/-- The nullary opcodes `OP_INPUTINDEX` to `OP_TXLOCKTIME`, with the script from the last code
separator on. -/
def nullary (context : ScriptExecutionContext) (code : CScript) (opcode : Opcode) :
    Except ScriptFailure Valtype :=
  match opcode with
  | OP_INPUTINDEX => number context.nIn
  | OP_ACTIVEBYTECODE => bytecode code
  | OP_TXVERSION => number context.tx.nVersion.toInt
  | OP_TXINPUTCOUNT => number context.tx.vin.length
  | OP_TXOUTPUTCOUNT => number context.tx.vout.length
  | OP_TXLOCKTIME => number context.tx.nLockTime.toNat
  | _ => .error (.abort "invalid opcode")

/-- The unary opcodes `OP_UTXOVALUE` to `OP_OUTPUTBYTECODE`. -/
def unary (context : ScriptExecutionContext) (flags : UInt32) (opcode : Opcode) :
    Stack → Except ScriptFailure Stack :=
  match opcode with
  | OP_UTXOVALUE => context.utxoQuery flags fun index => do
    let amount ← context.coinAmount index
    number amount.toInt
  | OP_UTXOBYTECODE => context.utxoQuery flags fun index => do
    let script ← context.coinScriptPubKey index
    bytecode script
  | OP_OUTPOINTTXHASH => context.inputQuery flags fun index =>
    .ok (context.tx.vin.get index).prevout.txid.data
  | OP_OUTPOINTINDEX => context.inputQuery flags fun index =>
    number (context.tx.vin.get index).prevout.n.toNat
  | OP_INPUTBYTECODE => context.inputQuery flags fun index => do
    let script ← context.scriptSig index
    bytecode script
  | OP_INPUTSEQUENCENUMBER => context.inputQuery flags fun index =>
    number (context.tx.vin.get index).nSequence.toNat
  | OP_OUTPUTVALUE => context.outputQuery flags fun index =>
    number (context.tx.vout.get index).nValue.toInt
  | OP_OUTPUTBYTECODE => context.outputQuery flags fun index =>
    bytecode (context.tx.vout.get index).scriptPubKey
  | _ => fun _ => .error (.abort "invalid opcode")

/-! ## References -/

/-- `OP_PUSH_TX_STATE` : the transaction id, the total of the inputs or that of the outputs. -/
def txState (context : ScriptExecutionContext) (flags : UInt32) :
    Stack → Except ScriptFailure Stack
  | x :: s => do
    let fieldItem ← scriptNum flags x
    if fieldItem = 0 then return context.tx.hash.data :: s
    else if fieldItem = 1 then do
      let amounts ← (List.range context.tx.vin.length).mapM context.coinAmount
      let vch ← number (amounts.map Int64.toInt).sum
      return vch :: s
    else if fieldItem = 2 then do
      let vch ← number context.tx.valueOut
      return vch :: s
    else scriptError .INVALID_TX_STATE_ITEM
  | [] => invalidStackOperation

/-- `OP_STATESEPARATORINDEX_OUTPUT`, which in a limited context compares the index of the output
with that of the input. -/
def stateSeparatorIndexOutput (context : ScriptExecutionContext) (flags : UInt32) :
    Stack → Except ScriptFailure Stack :=
  context.outputQuery flags fun index =>
    if context.limited ∧ index.val ≠ context.nIn then scriptError .LIMITED_CONTEXT_NO_SIBLING_INFO
    else number (context.shared.outputs.getStateSeperatorIndex index)

/-- The opcodes about the references and code scripts of the inputs and outputs. -/
def references (context : ScriptExecutionContext) (flags : UInt32) (opcode : Opcode) :
    Stack → Except ScriptFailure Stack :=
  let inputs := context.shared.inputs
  let outputs := context.shared.outputs
  match opcode with
  | OP_PUSH_TX_STATE => context.txState flags
  | OP_REFHASHDATASUMMARY_UTXO => context.utxoQuery flags fun index =>
    .ok (inputs.getRefHashDataSummary index).data
  | OP_REFHASHDATASUMMARY_OUTPUT => context.outputQuery flags fun index =>
    .ok (outputs.getRefHashDataSummary index).data
  | OP_REFHASHVALUESUM_UTXOS => blobQuery .INVALID_TX_REFHASH_SIZE inputs.getRefHashValueSum
  | OP_REFHASHVALUESUM_OUTPUTS => blobQuery .INVALID_TX_REFHASH_SIZE outputs.getRefHashValueSum
  | OP_REFVALUESUM_UTXOS => blobQuery .INVALID_TX_REF_SIZE inputs.getRefValueSum
  | OP_REFVALUESUM_OUTPUTS => blobQuery .INVALID_TX_REF_SIZE outputs.getRefValueSum
  | OP_REFTYPE_UTXO => blobQuery .INVALID_TX_REF_SIZE fun r => inputs.getRefType r
  | OP_REFTYPE_OUTPUT => blobQuery .INVALID_TX_REF_SIZE fun r => outputs.getRefType r
  | OP_STATESEPARATORINDEX_UTXO => context.utxoQuery flags fun index =>
    number (inputs.getStateSeperatorIndex index)
  | OP_STATESEPARATORINDEX_OUTPUT => context.stateSeparatorIndexOutput flags
  | OP_REFOUTPUTCOUNT_UTXOS => blobQuery .INVALID_TX_REF_SIZE fun r => inputs.getRefOutputCount r
  | OP_REFOUTPUTCOUNT_OUTPUTS =>
    blobQuery .INVALID_TX_REF_SIZE fun r => outputs.getRefOutputCount r
  | OP_REFOUTPUTCOUNTZEROVALUED_UTXOS =>
    blobQuery .INVALID_TX_REF_SIZE fun r => inputs.getRefOutputZeroValuedCount r
  | OP_REFOUTPUTCOUNTZEROVALUED_OUTPUTS =>
    blobQuery .INVALID_TX_REF_SIZE fun r => outputs.getRefOutputZeroValuedCount r
  | OP_REFDATASUMMARY_UTXO => context.utxoQuery flags fun index =>
    .ok ((inputs.getRefsPer index).getD (CScriptNum.serialize 0))
  | OP_REFDATASUMMARY_OUTPUT => context.outputQuery flags fun index =>
    .ok ((outputs.getRefsPer index).getD (CScriptNum.serialize 0))
  | OP_CODESCRIPTHASHVALUESUM_UTXOS =>
    blobQuery .INVALID_TX_HASH_SIZE inputs.getCodeScriptHashValueSum
  | OP_CODESCRIPTHASHVALUESUM_OUTPUTS =>
    blobQuery .INVALID_TX_HASH_SIZE outputs.getCodeScriptHashValueSum
  | OP_CODESCRIPTHASHOUTPUTCOUNT_UTXOS =>
    blobQuery .INVALID_TX_HASH_SIZE fun h => inputs.getCodeScriptHashOutputCount h
  | OP_CODESCRIPTHASHOUTPUTCOUNT_OUTPUTS =>
    blobQuery .INVALID_TX_HASH_SIZE fun h => outputs.getCodeScriptHashOutputCount h
  | OP_CODESCRIPTHASHZEROVALUEDOUTPUTCOUNT_UTXOS =>
    blobQuery .INVALID_TX_HASH_SIZE fun h => inputs.getCodeScriptHashOutputZeroValuedCount h
  | OP_CODESCRIPTHASHZEROVALUEDOUTPUTCOUNT_OUTPUTS =>
    blobQuery .INVALID_TX_HASH_SIZE fun h => outputs.getCodeScriptHashOutputZeroValuedCount h
  | OP_CODESCRIPTBYTECODE_UTXO => context.utxoQuery flags fun index => do
    let script ← context.coinScriptPubKey index
    codeBytecode script (inputs.getStateSeparatorByteIndex index)
  | OP_CODESCRIPTBYTECODE_OUTPUT => context.outputQuery flags fun index =>
    codeBytecode (context.tx.vout.get index).scriptPubKey (outputs.getStateSeparatorByteIndex index)
  | OP_STATESCRIPTBYTECODE_UTXO => context.utxoQuery flags fun index => do
    let script ← context.coinScriptPubKey index
    stateBytecode script (inputs.getStateSeparatorByteIndex index)
  | OP_STATESCRIPTBYTECODE_OUTPUT => context.outputQuery flags fun index =>
    stateBytecode (context.tx.vout.get index).scriptPubKey
      (outputs.getStateSeparatorByteIndex index)
  | _ => fun _ => .error (.abort "invalid push opcode")

end ScriptExecutionContext

/-! ## The checks before a query -/

/-- The flag an opcode about references asks for, beyond the check for disabled opcodes. -/
def requiredFlag (opcode : Opcode) : Option ScriptFlag :=
  match opcode with
  | OP_PUSH_TX_STATE => some .SCRIPT_PUSH_TX_STATE
  | OP_REFHASHVALUESUM_OUTPUTS | OP_STATESEPARATORINDEX_UTXO | OP_STATESEPARATORINDEX_OUTPUT =>
    some .SCRIPT_ENHANCED_REFERENCES
  | OP_STATESCRIPTBYTECODE_UTXO | OP_STATESCRIPTBYTECODE_OUTPUT =>
    some .SCRIPT_NATIVE_INTROSPECTION
  | _ => none

/-- The context, when the flag is set and there is one. -/
def queryContext (flags : UInt32) (flag? : Option ScriptFlag)
    (context? : Option ScriptExecutionContext) : Except ScriptFailure ScriptExecutionContext := do
  require (∀ flag ∈ flag?, hasFlag flags flag) (.error .BAD_OPCODE)
  match context? with
  | some context => return context
  | none => scriptError .CONTEXT_NOT_PRESENT

end RadiantCore
