import RadiantCore.Introspection
import RadiantCore.SignatureHash

/-!
# The script interpreter

`EvalScript` and `VerifyScript` of `script/interpreter.cpp`. One iteration of the loop reads
an operation and changes the variables of the loop (`evalOp`), the loop runs over the reads
of the script (`evalLoop`), and `evalScript` adds the checks before and after the loop.
The opcodes that only change the stack are gathered in `stackOp`, so that what they leave
alone is clear from its type.

Next to the count of signature checks the metrics have a log of the references that an
executed `OP_PUSHINPUTREF` or `OP_PUSHINPUTREFSINGLETON` put on the stack. The source has
no such log, and no definition reads it.
-/

namespace RadiantCore

open Opcode StackOp

/-! ## The condition stack -/

/-- `ConditionStack` : the size of a stack of conditions and the position of the first false
one. -/
structure ConditionStack where
  m_stack_size : UInt32 := 0
  /-- The highest value is `NO_FALSE`. -/
  m_first_false_pos : UInt32 := 0xffffffff
deriving DecidableEq

namespace ConditionStack

/-- `NO_FALSE`. -/
def noFalse : UInt32 := 0xffffffff

/-- `empty`. -/
def empty (s : ConditionStack) : Bool := s.m_stack_size = 0

/-- `all_true`. -/
def allTrue (s : ConditionStack) : Bool := s.m_first_false_pos = noFalse

/-- `push_back`. -/
def pushBack (s : ConditionStack) (f : Bool) : ConditionStack where
  m_stack_size := s.m_stack_size + 1
  m_first_false_pos :=
    if s.m_first_false_pos = noFalse ∧ ¬ f then s.m_stack_size else s.m_first_false_pos

/-- `pop_back`. -/
def popBack (s : ConditionStack) : ConditionStack where
  m_stack_size := s.m_stack_size - 1
  m_first_false_pos :=
    if s.m_first_false_pos = s.m_stack_size - 1 then noFalse else s.m_first_false_pos

/-- `toggle_top`. -/
def toggleTop (s : ConditionStack) : ConditionStack where
  m_stack_size := s.m_stack_size
  m_first_false_pos :=
    if s.m_first_false_pos = noFalse then s.m_stack_size - 1
    else if s.m_first_false_pos = s.m_stack_size - 1 then noFalse else s.m_first_false_pos

/-- A call of an operation. -/
inductive Op
  | pushBack (f : Bool)
  | popBack
  | toggleTop

/-- The operation on the words. -/
def run (s : ConditionStack) : Op → ConditionStack
  | .pushBack f => s.pushBack f
  | .popBack => s.popBack
  | .toggleTop => s.toggleTop

/-- The operation on a stack of booleans, the top first. Only a push may meet an empty one. -/
def Op.onValues : List Bool → Op → Option (List Bool)
  | values, pushBack f => some (f :: values)
  | _ :: values, popBack => some values
  | f :: values, toggleTop => some ((!f) :: values)
  | [], _ => none

variable {s : ConditionStack} {f : Bool}

section

variable (hsize : s.m_stack_size ≠ noFalse)

include hsize

theorem allTrue_pushBack : (s.pushBack f).allTrue = (f && s.allTrue) := by
  by_cases hall : s.m_first_false_pos = noFalse <;> cases f <;>
    simp [allTrue, pushBack, hall, hsize]

variable (hpos : s.m_first_false_pos ≠ s.m_stack_size)

include hpos

theorem popBack_pushBack : (s.pushBack f).popBack = s := by
  obtain ⟨size, pos⟩ := s
  by_cases hall : pos = noFalse <;> cases f <;> simp_all [popBack, pushBack, hsize.symm]

theorem toggleTop_pushBack : (s.pushBack f).toggleTop = s.pushBack !f := by
  by_cases hall : s.m_first_false_pos = noFalse <;> cases f <;>
    simp [toggleTop, pushBack, hall, hpos, hsize]

end

/-- What is kept of a stack of booleans. -/
def ofValues (values : List Bool) : ConditionStack := values.foldr (fun f s => s.pushBack f) {}

variable {values values' : List Bool} {op : Op}

theorem ofValues_bounds (h : values.length < 2 ^ 32) :
    (ofValues values).m_stack_size.toNat = values.length ∧
      ((ofValues values).m_first_false_pos = noFalse ∨
        (ofValues values).m_first_false_pos.toNat < values.length) := by
  induction values with
  | nil => simp [ofValues, noFalse]
  | cons f values ih =>
    rw [List.length_cons] at h
    obtain ⟨hsize, hpos⟩ := ih (by omega)
    constructor
    · rw [show (ofValues (f :: values)).m_stack_size = (ofValues values).m_stack_size + 1 from rfl,
        UInt32.toNat_add, hsize]
      exact Nat.mod_eq_of_lt h
    · rw [show (ofValues (f :: values)).m_first_false_pos = if _ then _ else _ from rfl]
      split_ifs
      · exact .inr (hsize ▸ Nat.lt_succ_self _)
      · exact hpos.imp_right Nat.lt_succ_of_lt

theorem ofValues_ne (h : values.length < 2 ^ 32 - 1) :
    (ofValues values).m_stack_size ≠ noFalse ∧
      (ofValues values).m_first_false_pos ≠ (ofValues values).m_stack_size := by
  obtain ⟨hsize, hpos⟩ := ofValues_bounds (h.trans (by decide))
  have hne : (ofValues values).m_stack_size ≠ noFalse := by
    intro heq
    rw [heq] at hsize
    exact h.ne' hsize
  refine ⟨hne, fun heq => ?_⟩
  rcases hpos with hpos | hpos
  · exact hne (heq ▸ hpos)
  · exact hpos.ne (heq ▸ hsize)

/-- An operation on the words is the one on the values. Those above the first false value leave no
trace, whether pushed, toggled or popped. -/
theorem run_ofValues (h : op.onValues values = some values') (hlen : values.length < 2 ^ 32 - 1) :
    (ofValues values).run op = ofValues values' := by
  unfold Op.onValues at h
  split at h <;> cases h
  case h_1 => rfl
  case h_2 =>
    obtain ⟨hsize, hpos⟩ := ofValues_ne (Nat.lt_of_succ_lt hlen)
    exact popBack_pushBack hsize hpos
  case h_3 =>
    obtain ⟨hsize, hpos⟩ := ofValues_ne (Nat.lt_of_succ_lt hlen)
    exact toggleTop_pushBack hsize hpos

theorem length_onValues_le (h : op.onValues values = some values') :
    values'.length ≤ values.length + 1 := by
  unfold Op.onValues at h
  split at h <;> cases h <;> simp [Nat.le_succ_of_le]

theorem foldl_run_ofValues {ops : List Op} (h : ops.foldlM Op.onValues values = some values')
    (hlen : values.length + ops.length < 2 ^ 32 - 1) :
    ops.foldl run (ofValues values) = ofValues values' ∧ values'.length < 2 ^ 32 - 1 := by
  induction ops generalizing values with
  | nil =>
    cases h
    exact ⟨rfl, hlen⟩
  | cons op ops ih =>
    obtain ⟨values₁, hop, hops⟩ := Option.bind_eq_some_iff.mp h
    have hle := length_onValues_le hop
    rw [List.length_cons] at hlen
    rw [List.foldl_cons, run_ofValues hop (by omega)]
    exact ih hops (by omega)

theorem empty_ofValues (h : values.length < 2 ^ 32) : (ofValues values).empty = values.isEmpty := by
  have hsize := (ofValues_bounds h).1
  cases values with
  | nil => rfl
  | cons f values =>
    refine decide_eq_false fun hzero => ?_
    rw [hzero] at hsize
    cases hsize

theorem allTrue_ofValues (h : values.length < 2 ^ 32 - 1) :
    (ofValues values).allTrue = values.all id := by
  induction values with
  | nil => rfl
  | cons f values ih =>
    have hlen := Nat.lt_of_succ_lt h
    exact (allTrue_pushBack (ofValues_ne hlen).1).trans (congrArg (f && ·) (ih hlen))

/-- The stack agrees with a list of booleans after every sequence of less than `2 ^ 32 - 1` calls
that pop or toggle no empty stack, and so at every point of it. -/
theorem condition_stack_refines (ops : List Op) (hlen : ops.length < 2 ^ 32 - 1)
    {values : List Bool} (h : ops.foldlM Op.onValues [] = some values) :
    (ops.foldl run {}).empty = values.isEmpty ∧ (ops.foldl run {}).allTrue = values.all id := by
  obtain ⟨hrun, hvalues⟩ := foldl_run_ofValues h (by simpa using hlen)
  rw [show ({} : ConditionStack) = ofValues [] from rfl, hrun]
  exact ⟨empty_ofValues (hvalues.trans (by decide)), allTrue_ofValues hvalues⟩

/-- A false value is pushed on a true one, toggled and popped. -/
theorem condition_stack_refines_nested :
    let ops := [Op.pushBack true, .pushBack false, .toggleTop, .popBack]
    ops.foldlM Op.onValues [] = some [true] ∧
      (ops.foldl run {}).empty = false ∧ (ops.foldl run {}).allTrue = true :=
  let ops := [Op.pushBack true, .pushBack false, .toggleTop, .popBack]
  ⟨rfl, condition_stack_refines ops (by decide) rfl⟩

end ConditionStack

/-! ## The variables of the loop -/

/-- `ScriptExecutionMetrics`, with the log of pushed references. -/
structure ScriptExecutionMetrics where
  nSigChecks : ℕ := 0
  pushedRefs : List Uint288 := []
deriving DecidableEq

instance : Add ScriptExecutionMetrics :=
  ⟨fun a b => ⟨a.nSigChecks + b.nSigChecks, a.pushedRefs ++ b.pushedRefs⟩⟩

@[simp] theorem ScriptExecutionMetrics.pushedRefs_add (a b : ScriptExecutionMetrics) :
    (a + b).pushedRefs = a.pushedRefs ++ b.pushedRefs := rfl

/-- The variables of the loop of `EvalScript`. -/
structure EvalState where
  stack : Stack
  altstack : Stack := []
  vfExec : ConditionStack := {}
  nOpCount : ℕ := 0
  /-- The script after the last executed `OP_CODESEPARATOR`. -/
  pbegincodehash : CScript
  metrics : ScriptExecutionMetrics := {}
  foundPushRefs : Finset Uint288 := ∅
  disallowedRefs : Finset Uint288 := ∅

/-- How an iteration of the loop ends : the loop goes on, or `EvalScript` returns at once. -/
inductive Progress
  | next (st : EvalState)
  | done (st : EvalState)

/-- The state at the end of an iteration. -/
def Progress.state : Progress → EvalState
  | next st => st
  | done st => st

/-- The state after an opcode that changes the stack only, from what it computes. -/
def EvalState.onStack (st : EvalState) (result : Except ScriptFailure Stack) :
    Except ScriptFailure Progress := do
  let stack ← result
  return .next { st with stack := stack }

theorem EvalState.onStack_eq_ok_iff {st : EvalState} {result : Except ScriptFailure Stack}
    {progress : Progress} :
    st.onStack result = .ok progress ↔
      ∃ stack, result = .ok stack ∧ progress = .next { st with stack := stack } := by
  simp only [onStack, bind_eq_ok_iff, pure_eq_ok_iff, @eq_comm _ progress]

/-- `MAX_SCRIPT_SIZE`. -/
def maxScriptSize : ℕ := 32000000

/-- `MAX_OPS_PER_SCRIPT`. -/
def maxOpsPerScript : ℕ := 32000000

/-- `MAX_STACK_SIZE`. -/
def maxStackSize : ℕ := 32000000

/-- `MAX_PUBKEYS_PER_MULTISIG`. -/
def maxPubkeysPerMultisig : ℕ := 20

section Interpreter

variable [Crypto]

/-- The arguments of `EvalScript` that stay the same during a call. -/
structure EvalEnv where
  flags : UInt32
  checker : BaseSignatureChecker
  context : Option ScriptExecutionContext

/-! ## Opcodes that change the stack only -/

section StackOp

variable (env : EvalEnv)

/-- `OP_CHECKLOCKTIMEVERIFY`. -/
def checkLockTimeVerify (stack : Stack) : Except ScriptFailure Stack :=
  if ¬ hasFlag env.flags .SCRIPT_VERIFY_CHECKLOCKTIMEVERIFY then .ok stack
  else match stack with
    | [] => invalidStackOperation
    | x :: s => do
      let nLockTime ←
        CScriptNum.fromBytes x (hasFlag env.flags .SCRIPT_VERIFY_MINIMALDATA) 5
      require (0 ≤ nLockTime) (.error .NEGATIVE_LOCKTIME)
      require (env.checker.checkLockTime nLockTime) (.error .UNSATISFIED_LOCKTIME)
      return x :: s

/-- `OP_CHECKSEQUENCEVERIFY`. -/
def checkSequenceVerify (stack : Stack) : Except ScriptFailure Stack :=
  if ¬ hasFlag env.flags .SCRIPT_VERIFY_CHECKSEQUENCEVERIFY then .ok stack
  else match stack with
    | [] => invalidStackOperation
    | x :: s => do
      let nSequence ←
        CScriptNum.fromBytes x (hasFlag env.flags .SCRIPT_VERIFY_MINIMALDATA) 5
      require (0 ≤ nSequence) (.error .NEGATIVE_LOCKTIME)
      require (nSequence.toNat &&& 0x80000000 ≠ 0 ∨ env.checker.checkSequence nSequence)
        (.error .UNSATISFIED_LOCKTIME)
      return x :: s

/-- `OP_REQUIREINPUTREF`, `OP_DISALLOWPUSHINPUTREFSIBLING` : the reference goes to the stack. -/
def pushRef (vchPushValue : Valtype) (stack : Stack) : Except ScriptFailure Stack := do
  require (vchPushValue.length = 36) (.error .INVALID_TX_REF_SIZE)
  return vchPushValue :: stack

/-- The cases of the switch that change the stack only. `code` is the script from the last
code separator on. -/
def stackOp (code : CScript) (opcode : Opcode) (vchPushValue : Valtype) (stack : Stack) :
    Except ScriptFailure Stack :=
  match opcode with
  | OP_1NEGATE | OP_1 | OP_2 | OP_3 | OP_4 | OP_5 | OP_6 | OP_7 | OP_8 | OP_9 | OP_10 | OP_11
  | OP_12 | OP_13 | OP_14 | OP_15 | OP_16 =>
    .ok (CScriptNum.serialize (opcode.toByte.toNat - 0x50) :: stack)
  | OP_NOP => .ok stack
  | OP_CHECKLOCKTIMEVERIFY => checkLockTimeVerify env stack
  | OP_CHECKSEQUENCEVERIFY => checkSequenceVerify env stack
  | OP_NOP1 | OP_NOP4 | OP_NOP5 | OP_NOP6 | OP_NOP7 | OP_NOP8 | OP_NOP9 | OP_NOP10 =>
    if hasFlag env.flags .SCRIPT_VERIFY_DISCOURAGE_UPGRADABLE_NOPS then
      scriptError .DISCOURAGE_UPGRADABLE_NOPS
    else .ok stack
  | OP_VERIFY => verify stack
  | OP_2DROP | OP_2DUP | OP_3DUP | OP_2OVER | OP_2ROT | OP_2SWAP | OP_IFDUP | OP_DROP | OP_DUP
  | OP_NIP | OP_OVER | OP_ROT | OP_SWAP | OP_TUCK => shuffle opcode stack
  | OP_DEPTH => .ok (CScriptNum.serialize stack.length :: stack)
  | OP_PICK | OP_ROLL => pickOrRoll env.flags opcode stack
  | OP_SIZE => size stack
  | OP_AND => bitwise (· &&& ·) stack
  | OP_OR => bitwise (· ||| ·) stack
  | OP_XOR => bitwise (· ^^^ ·) stack
  | OP_INVERT => invert stack
  | OP_LSHIFT => shift env.flags lShift stack
  | OP_RSHIFT => shift env.flags rShift stack
  | OP_EQUAL => equal false stack
  | OP_EQUALVERIFY => equal true stack
  | OP_1ADD | OP_1SUB | OP_2MUL | OP_2DIV | OP_NEGATE | OP_ABS | OP_NOT | OP_0NOTEQUAL =>
    unaryNumeric env.flags opcode stack
  | OP_ADD | OP_SUB | OP_MUL | OP_DIV | OP_MOD | OP_BOOLAND | OP_BOOLOR | OP_NUMEQUAL
  | OP_NUMEQUALVERIFY | OP_NUMNOTEQUAL | OP_LESSTHAN | OP_GREATERTHAN | OP_LESSTHANOREQUAL
  | OP_GREATERTHANOREQUAL | OP_MIN | OP_MAX => binaryNumeric env.flags opcode stack
  | OP_WITHIN => within env.flags stack
  | OP_RIPEMD160 | OP_SHA1 | OP_SHA256 | OP_HASH160 | OP_HASH256 | OP_SHA512_256
  | OP_HASH512_256 | OP_BLAKE3 | OP_K12 => hash opcode stack
  | OP_CAT => cat stack
  | OP_SPLIT => split env.flags stack
  | OP_REVERSEBYTES => reverseBytes stack
  | OP_NUM2BIN => num2bin env.flags stack
  | OP_BIN2NUM => bin2num env.flags stack
  | OP_INPUTINDEX | OP_ACTIVEBYTECODE | OP_TXVERSION | OP_TXINPUTCOUNT | OP_TXOUTPUTCOUNT
  | OP_TXLOCKTIME => do
    let context ← queryContext env.flags (some .SCRIPT_NATIVE_INTROSPECTION) env.context
    let vch ← context.nullary code opcode
    return vch :: stack
  | OP_UTXOVALUE | OP_UTXOBYTECODE | OP_OUTPOINTTXHASH | OP_OUTPOINTINDEX | OP_INPUTBYTECODE
  | OP_INPUTSEQUENCENUMBER | OP_OUTPUTVALUE | OP_OUTPUTBYTECODE => do
    let context ← queryContext env.flags (some .SCRIPT_NATIVE_INTROSPECTION) env.context
    context.unary env.flags opcode stack
  | OP_REQUIREINPUTREF | OP_DISALLOWPUSHINPUTREFSIBLING => pushRef vchPushValue stack
  | OP_STATESEPARATOR => do
    require (hasFlag env.flags .SCRIPT_ENHANCED_REFERENCES) (.error .BAD_OPCODE)
    return stack
  | OP_PUSH_TX_STATE | OP_REFHASHDATASUMMARY_UTXO | OP_REFHASHDATASUMMARY_OUTPUT
  | OP_REFHASHVALUESUM_UTXOS | OP_REFHASHVALUESUM_OUTPUTS | OP_REFVALUESUM_UTXOS
  | OP_REFVALUESUM_OUTPUTS | OP_REFTYPE_UTXO | OP_REFTYPE_OUTPUT | OP_STATESEPARATORINDEX_UTXO
  | OP_STATESEPARATORINDEX_OUTPUT | OP_REFOUTPUTCOUNT_UTXOS | OP_REFOUTPUTCOUNT_OUTPUTS
  | OP_REFOUTPUTCOUNTZEROVALUED_UTXOS | OP_REFOUTPUTCOUNTZEROVALUED_OUTPUTS
  | OP_REFDATASUMMARY_UTXO | OP_REFDATASUMMARY_OUTPUT | OP_CODESCRIPTHASHVALUESUM_UTXOS
  | OP_CODESCRIPTHASHVALUESUM_OUTPUTS | OP_CODESCRIPTHASHOUTPUTCOUNT_UTXOS
  | OP_CODESCRIPTHASHOUTPUTCOUNT_OUTPUTS | OP_CODESCRIPTHASHZEROVALUEDOUTPUTCOUNT_UTXOS
  | OP_CODESCRIPTHASHZEROVALUEDOUTPUTCOUNT_OUTPUTS | OP_CODESCRIPTBYTECODE_UTXO
  | OP_CODESCRIPTBYTECODE_OUTPUT | OP_STATESCRIPTBYTECODE_UTXO
  | OP_STATESCRIPTBYTECODE_OUTPUT => do
    let context ← queryContext env.flags (requiredFlag opcode) env.context
    context.references env.flags opcode stack
  | _ => scriptError .BAD_OPCODE

end StackOp

/-! ## Signatures -/

section Signatures

variable (env : EvalEnv)

/-- What a signature opcode computes : its verdict, the signature checks it counts and the
stack below its arguments. -/
structure SigResult where
  fSuccess : Bool
  nSigChecks : ℕ
  rest : Stack

/-- The end of a signature opcode. One that verifies fails with the error `verify?`, the others
push the verdict. -/
def SigResult.finish (res : SigResult) (verify? : Option ScriptError) :
    Except ScriptFailure Stack :=
  match verify? with
  | none => .ok (vchOfBool res.fSuccess :: res.rest)
  | some e => if res.fSuccess then .ok res.rest else scriptError e

/-- The common part of the opcodes for one signature : an empty signature is not checked. -/
def checkOneSig (vchSig : Valtype) (rest : Stack) (check : Except ScriptFailure Bool) :
    Except ScriptFailure SigResult :=
  if vchSig = [] then .ok ⟨false, 0, rest⟩
  else do
    let fSuccess ← check
    require (fSuccess ∨ ¬ hasFlag env.flags .SCRIPT_VERIFY_NULLFAIL) (.error .SIG_NULLFAIL)
    return ⟨fSuccess, 1, rest⟩

/-- `OP_CHECKSIG`, before its end. -/
def checkSigOp (scriptCode : CScript) : Stack → Except ScriptFailure SigResult
  | vchPubKey :: vchSig :: s => do
    checkTransactionSignatureEncoding env.flags vchSig
    checkPubKeyEncoding env.flags vchPubKey
    checkOneSig env vchSig s (env.checker.checkSig vchSig vchPubKey scriptCode env.flags)
  | _ => invalidStackOperation

/-- `OP_CHECKDATASIG`, before its end. -/
def checkDataSigOp : Stack → Except ScriptFailure SigResult
  | vchPubKey :: vchMessage :: vchSig :: s => do
    checkDataSignatureEncoding env.flags vchSig
    checkPubKeyEncoding env.flags vchPubKey
    checkOneSig env vchSig s
      (.ok (env.checker.verifySignature vchSig vchPubKey (Crypto.sha256 vchMessage)))
  | _ => invalidStackOperation

/-- The arguments of `OP_CHECKMULTISIG`, keys and signatures from the top of the stack down. -/
structure MultiSigArgs where
  keys : List Valtype
  sigs : List Valtype
  dummy : Valtype
  rest : Stack

/-- The arguments of `OP_CHECKMULTISIG` on the stack. The keys count as operations. -/
def multiSigArgs (nOpCount : ℕ) : Stack → Except ScriptFailure MultiSigArgs
  | [] => invalidStackOperation
  | x :: s => do
    let nKeysCount ← scriptNum env.flags x
    require (0 ≤ nKeysCount ∧ nKeysCount ≤ maxPubkeysPerMultisig) (.error .PUBKEY_COUNT)
    require (nOpCount + nKeysCount.toNat ≤ maxOpsPerScript) (.error .OP_COUNT)
    match s.drop nKeysCount.toNat with
    | [] => invalidStackOperation
    | y :: s' => do
      let nSigsCount ← scriptNum env.flags y
      require (0 ≤ nSigsCount ∧ nSigsCount ≤ nKeysCount) (.error .SIG_COUNT)
      match s'.drop nSigsCount.toNat with
      | [] => invalidStackOperation
      | dummy :: rest =>
        return ⟨s.take nKeysCount.toNat, s'.take nSigsCount.toNat, dummy, rest⟩

/-- The loop `while (((checkBits >> iKey) & 0x01) == 0) iKey++`, on a word of 32 bits. -/
def nextKey (checkBits : ℕ) : ℕ → ℕ → ℕ
  | 0, iKey => iKey
  | fuel + 1, iKey => if checkBits.testBit iKey then iKey else nextKey checkBits fuel (iKey + 1)

/-- The loop over the signatures of a Schnorr multisignature. Keys and signatures are taken from
the bottom of the stack up. -/
def schnorrLoop (scriptCode : CScript) (keys : List Valtype) (checkBits : ℕ) :
    List Valtype → ℕ → Except ScriptFailure ℕ
  | [], iKey => .ok iKey
  | vchSig :: sigs, iKey => do
    require (checkBits >>> iKey ≠ 0) (.error .INVALID_BIT_RANGE)
    let iKey := nextKey checkBits 32 iKey
    match keys[iKey]? with
    | none => scriptError .PUBKEY_COUNT
    | some vchPubKey => do
      checkTransactionSchnorrSignatureEncoding env.flags vchSig
      checkPubKeyEncoding env.flags vchPubKey
      let fOk ← env.checker.checkSig vchSig vchPubKey scriptCode env.flags
      require fOk (.error .SIG_NULLFAIL)
      schnorrLoop scriptCode keys checkBits sigs (iKey + 1)

/-- The Schnorr branch of `OP_CHECKMULTISIG`. -/
def schnorrMultiSig (scriptCode : CScript) (args : MultiSigArgs) :
    Except ScriptFailure SigResult := do
  let checkBits ← decodeBitfield args.dummy args.keys.length
  require (countBits checkBits = args.sigs.length) (.error .INVALID_BIT_COUNT)
  let iKey ← schnorrLoop env scriptCode args.keys.reverse checkBits args.sigs.reverse 0
  require (checkBits >>> iKey = 0) (.error .INVALID_BIT_COUNT)
  return ⟨true, args.sigs.length, args.rest⟩

/-- The loop of the legacy branch of `OP_CHECKMULTISIG`, over the keys and signatures that
remain. It ends when there are fewer keys than signatures. -/
def legacyLoop (scriptCode : CScript) :
    (sigs keys : List Valtype) → Except ScriptFailure Bool
  | [], _ => .ok true
  | _ :: _, [] => .ok false
  | vchSig :: sigs, vchPubKey :: keys => do
    checkTransactionECDSASignatureEncoding env.flags vchSig
    checkPubKeyEncoding env.flags vchPubKey
    let fOk ← env.checker.checkSig vchSig vchPubKey scriptCode env.flags
    let sigs := if fOk then sigs else vchSig :: sigs
    if keys.length < sigs.length then return false
    else legacyLoop scriptCode sigs keys
termination_by structural _ keys => keys

/-- The legacy branch of `OP_CHECKMULTISIG`. -/
def legacyMultiSig (scriptCode : CScript) (args : MultiSigArgs) :
    Except ScriptFailure SigResult := do
  let fSuccess ← legacyLoop env scriptCode args.sigs args.keys
  let areAllSignaturesNull := args.sigs.all (· = [])
  require (fSuccess ∨ ¬ hasFlag env.flags .SCRIPT_VERIFY_NULLFAIL ∨ areAllSignaturesNull)
    (.error .SIG_NULLFAIL)
  return ⟨fSuccess, if areAllSignaturesNull then 0 else args.keys.length, args.rest⟩

/-- `OP_CHECKMULTISIG`, before its end : what it computes and the number of keys. -/
def checkMultiSigOp (nOpCount : ℕ) (scriptCode : CScript) (stack : Stack) :
    Except ScriptFailure (SigResult × ℕ) := do
  let args ← multiSigArgs env nOpCount stack
  let res ←
    if hasFlag env.flags .SCRIPT_ENABLE_SCHNORR_MULTISIG ∧ args.dummy ≠ [] then
      schnorrMultiSig env scriptCode args
    else legacyMultiSig env scriptCode args
  return (res, args.keys.length)

end Signatures

/-! ## One operation -/

section Operation

variable (env : EvalEnv)

/-- The condition `OP_IF` or `OP_NOTIF` pops. -/
def popCondition (opcode : Opcode) : Stack → Except ScriptFailure (Bool × Stack)
  | [] => scriptError .UNBALANCED_CONDITIONAL
  | vch :: s => do
    require (hasFlag env.flags .SCRIPT_VERIFY_MINIMALIF → vch = [] ∨ vch = [1]) (.error .MINIMALIF)
    return (if opcode = OP_NOTIF then !castToBool vch else castToBool vch, s)

/-- The reference an executed operation puts in a set of the loop. Before the activation of
`OP_PUSH_TX_STATE` its bytes are read as hexadecimal digits. -/
def setRef (ref : Uint288) : Uint288 :=
  if hasFlag env.flags .SCRIPT_PUSH_TX_STATE then ref else Blob.setHex ref.data

/-- The operand of an operation with a reference. -/
def refOperand (vchPushValue : Valtype) : Except ScriptFailure Uint288 :=
  match Blob.ofVch vchPushValue with
  | some ref => .ok ref
  | none => scriptError .INVALID_TX_REF_SIZE

/-- The state after a signature opcode. -/
def EvalState.withSig (st : EvalState) (res : SigResult) (verify? : Option ScriptError) :
    Except ScriptFailure EvalState := do
  let stack ← res.finish verify?
  return { st with stack := stack, metrics := st.metrics + ⟨res.nSigChecks, []⟩ }

/-- The state after a reference is put on the stack, and in the log. -/
def EvalState.withRef (st : EvalState) (ref : Uint288) : EvalState :=
  { st with stack := ref.data :: st.stack, metrics := st.metrics + ⟨0, [ref]⟩ }

/-- The switch of `EvalScript`. -/
def execOp (fExec : Bool) (op : ScriptOp) (opcode : Opcode) (st : EvalState) :
    Except ScriptFailure Progress :=
  match opcode with
  | OP_IF | OP_NOTIF => do
    let (fValue, stack) ←
      if fExec then popCondition env opcode st.stack else pure (false, st.stack)
    return .next { st with stack := stack, vfExec := st.vfExec.pushBack fValue }
  | OP_ELSE => do
    require (¬ st.vfExec.empty) (.error .UNBALANCED_CONDITIONAL)
    return .next { st with vfExec := st.vfExec.toggleTop }
  | OP_ENDIF => do
    require (¬ st.vfExec.empty) (.error .UNBALANCED_CONDITIONAL)
    return .next { st with vfExec := st.vfExec.popBack }
  | OP_RETURN => if st.stack = [] then .ok (.done st) else scriptError .OP_RETURN
  | OP_TOALTSTACK =>
    match st.stack with
    | x :: s => .ok (.next { st with stack := s, altstack := x :: st.altstack })
    | [] => invalidStackOperation
  | OP_FROMALTSTACK =>
    match st.altstack with
    | x :: s => .ok (.next { st with stack := x :: st.stack, altstack := s })
    | [] => scriptError .INVALID_ALTSTACK_OPERATION
  | OP_CODESEPARATOR => .ok (.next { st with pbegincodehash := op.pc })
  | OP_CHECKSIG | OP_CHECKSIGVERIFY => do
    let res ← checkSigOp env st.pbegincodehash st.stack
    let st ← st.withSig res (if opcode = OP_CHECKSIGVERIFY then some .CHECKSIGVERIFY else none)
    return .next st
  | OP_CHECKDATASIG | OP_CHECKDATASIGVERIFY => do
    let res ← checkDataSigOp env st.stack
    let st ← st.withSig res
      (if opcode = OP_CHECKDATASIGVERIFY then some .CHECKDATASIGVERIFY else none)
    return .next st
  | OP_CHECKMULTISIG | OP_CHECKMULTISIGVERIFY => do
    let (res, nKeysCount) ← checkMultiSigOp env st.nOpCount st.pbegincodehash st.stack
    let st ← { st with nOpCount := st.nOpCount + nKeysCount }.withSig res
      (if opcode = OP_CHECKMULTISIGVERIFY then some .CHECKMULTISIGVERIFY else none)
    return .next st
  | OP_PUSHINPUTREF => do
    let ref ← refOperand op.vch
    return .next { st.withRef ref with foundPushRefs := insert (setRef env ref) st.foundPushRefs }
  | OP_PUSHINPUTREFSINGLETON => do
    require (hasFlag env.flags .SCRIPT_ENHANCED_REFERENCES) (.error .BAD_OPCODE)
    let ref ← refOperand op.vch
    return .next (st.withRef ref)
  | OP_DISALLOWPUSHINPUTREF => do
    let ref ← refOperand op.vch
    return .next { st with
      stack := op.vch :: st.stack
      disallowedRefs := insert (setRef env ref) st.disallowedRefs }
  | _ => do
    let stack ← stackOp env st.pbegincodehash opcode op.vch st.stack
    return .next { st with stack := stack }

/-- `IsOpcodeDisabled`. -/
def isOpcodeDisabled (opcode : UInt8) (flags : UInt32) : Bool :=
  match Opcode.ofByte? opcode with
  | some OP_2MUL | some OP_2DIV | some OP_LSHIFT | some OP_RSHIFT | some OP_BLAKE3 | some OP_K12
  | some OP_REFHASHDATASUMMARY_OUTPUT | some OP_REFHASHVALUESUM_OUTPUTS
  | some OP_PUSHINPUTREFSINGLETON | some OP_REFTYPE_UTXO | some OP_REFTYPE_OUTPUT
  | some OP_STATESEPARATOR | some OP_STATESEPARATORINDEX_UTXO
  | some OP_STATESEPARATORINDEX_OUTPUT | some OP_REFVALUESUM_UTXOS | some OP_REFVALUESUM_OUTPUTS
  | some OP_REFOUTPUTCOUNT_UTXOS | some OP_REFOUTPUTCOUNT_OUTPUTS
  | some OP_REFOUTPUTCOUNTZEROVALUED_UTXOS | some OP_REFOUTPUTCOUNTZEROVALUED_OUTPUTS
  | some OP_REFDATASUMMARY_UTXO | some OP_REFDATASUMMARY_OUTPUT
  | some OP_CODESCRIPTHASHVALUESUM_UTXOS | some OP_CODESCRIPTHASHVALUESUM_OUTPUTS
  | some OP_CODESCRIPTHASHOUTPUTCOUNT_UTXOS | some OP_CODESCRIPTHASHOUTPUTCOUNT_OUTPUTS
  | some OP_CODESCRIPTHASHZEROVALUEDOUTPUTCOUNT_UTXOS
  | some OP_CODESCRIPTHASHZEROVALUEDOUTPUTCOUNT_OUTPUTS | some OP_CODESCRIPTBYTECODE_UTXO
  | some OP_CODESCRIPTBYTECODE_OUTPUT | some OP_STATESCRIPTBYTECODE_UTXO
  | some OP_STATESCRIPTBYTECODE_OUTPUT => !hasFlag flags .SCRIPT_ENHANCED_REFERENCES
  | some OP_PUSH_TX_STATE => !hasFlag flags .SCRIPT_PUSH_TX_STATE
  | _ => false

/-- `CheckMinimalPush`. -/
def checkMinimalPush (data : Valtype) (opcode : UInt8) : Bool :=
  if data.length = 0 then opcode = OP_0
  else if data.length = 1 ∧ 1 ≤ data.headD 0 ∧ data.headD 0 ≤ 16 then false
  else if data.length = 1 ∧ data.headD 0 = 0x81 then false
  else if data.length ≤ 75 then opcode.toNat = data.length
  else if data.length ≤ 255 then opcode = OP_PUSHDATA1
  else if data.length ≤ 65535 then opcode = OP_PUSHDATA2
  else true

/-- The part of an iteration that executes the operation : a push, the switch, or nothing in an
inactive branch. -/
def dispatch (op : ScriptOp) (st : EvalState) : Except ScriptFailure Progress :=
  let fExec := st.vfExec.allTrue
  if fExec ∧ op.opcode ≤ OP_PUSHDATA4 then do
    require (hasFlag env.flags .SCRIPT_VERIFY_MINIMALDATA → checkMinimalPush op.vch op.opcode)
      (.error .MINIMALDATA)
    return .next { st with stack := op.vch :: st.stack }
  else if fExec ∨ OP_IF ≤ op.opcode ∧ op.opcode ≤ OP_ENDIF then
    match Opcode.ofByte? op.opcode with
    | some opcode => execOp env fExec op opcode st
    | none => scriptError .BAD_OPCODE
  else .ok (.next st)

/-- One iteration of the loop of `EvalScript`, after the operation is read. -/
def evalOp (op : ScriptOp) (st : EvalState) : Except ScriptFailure Progress := do
  require (op.vch.length ≤ maxScriptElementSize) (.error .PUSH_SIZE)
  let counted : ℕ := if op.opcode > OP_16 then 1 else 0
  require (op.opcode > OP_16 → st.nOpCount + counted ≤ maxOpsPerScript) (.error .OP_COUNT)
  require (¬ isOpcodeDisabled op.opcode env.flags) (.error .DISABLED_OPCODE)
  let progress ← dispatch env op { st with nOpCount := st.nOpCount + counted }
  match progress with
  | .done st => return .done st
  | .next st => do
    require (st.stack.length + st.altstack.length ≤ maxStackSize) (.error .STACK_SIZE)
    return .next st

end Operation

/-! ## The loop -/

section Loop

variable (env : EvalEnv)

/-- The loop of `EvalScript`, over the reads of the script. -/
def evalLoop : List (Option ScriptOp) → EvalState → Except ScriptFailure Progress
  | [], st => .ok (.next st)
  | none :: _, _ => scriptError .BAD_OPCODE
  | some op :: ops, st => do
    let progress ← evalOp env op st
    match progress with
    | .done st => return .done st
    | .next st => evalLoop ops st

/-- The end of `EvalScript`, after its loop : nothing that was thrown inside escapes. -/
def evalEnd (result : Except ScriptFailure Progress) :
    Except ScriptFailure (Stack × ScriptExecutionMetrics) :=
  match result with
  | .error (.exception _) => scriptError .UNKNOWN
  | .error e => .error e
  | .ok (.done st) => .ok (st.stack, st.metrics)
  | .ok (.next st) => do
    require st.vfExec.empty (.error .UNBALANCED_CONDITIONAL)
    require (st.disallowedRefs ∩ st.foundPushRefs = ∅)
      (.error .INVALID_TX_OUTPUT_CONTAINS_DISALLOWED_PUSHREF)
    return (st.stack, st.metrics)

/-- `EvalScript` : the stack it leaves and what it adds to the metrics. -/
def evalScript (stack : Stack) (script : CScript) :
    Except ScriptFailure (Stack × ScriptExecutionMetrics) :=
  if script.length > maxScriptSize then scriptError .SCRIPT_SIZE
  else evalEnd (evalLoop env (scriptOps script) { stack := stack, pbegincodehash := script })

end Loop

/-! ## Verification of an input -/

section Verify

/-- A script has to leave a true element on top of the stack. -/
def requireTrue (stack : Stack) : Except ScriptFailure Unit :=
  require (∃ x ∈ stack.head?, castToBool x = true) (.error .EVAL_FALSE)

/-- The check of the flag `CLEANSTACK`. -/
def requireClean (flags : UInt32) (stack : Stack) : Except ScriptFailure Unit :=
  require (hasFlag flags .SCRIPT_VERIFY_CLEANSTACK → stack.length = 1) (.error .CLEANSTACK)

/-- The environment of the evaluations in `VerifyScript` : with `FORKID` the encodings are
strict. -/
def EvalEnv.strict (env : EvalEnv) : EvalEnv :=
  { env with
    flags := setFlag env.flags .SCRIPT_VERIFY_STRICTENC
      (hasFlag env.flags .SCRIPT_ENABLE_SIGHASH_FORKID) }

/-- The part of `VerifyScript` for a pay-to-script-hash output, from the stack the `scriptSig`
left : its top is the redeem script. -/
def verifyRedeemScript (env : EvalEnv) (scriptSig : CScript) (stackCopy : Stack) :
    Except ScriptFailure ScriptExecutionMetrics := do
  require (isPushOnly scriptSig) (.error .SIG_PUSHONLY)
  match stackCopy with
  | [] => .error (.abort "!stack.empty()")
  | pubKey2 :: stack =>
    if ¬ hasFlag env.flags .SCRIPT_DISALLOW_SEGWIT_RECOVERY ∧ stack = [] ∧
        isWitnessProgram pubKey2 then return {}
    else do
      let (stack, metrics) ← evalScript env stack pubKey2
      requireTrue stack
      requireClean env.flags stack
      return metrics

/-- `VerifyScript` : the metrics of a successful run. -/
def verifyScript (env : EvalEnv) (scriptSig scriptPubKey : CScript) :
    Except ScriptFailure ScriptExecutionMetrics := do
  let env := env.strict
  require (hasFlag env.flags .SCRIPT_VERIFY_SIGPUSHONLY → isPushOnly scriptSig)
    (.error .SIG_PUSHONLY)
  let (stackCopy, sigMetrics) ← evalScript env [] scriptSig
  let (stack, keyMetrics) ← evalScript env stackCopy scriptPubKey
  requireTrue stack
  if hasFlag env.flags .SCRIPT_VERIFY_P2SH ∧ isPayToScriptHash scriptPubKey then do
    let redeemMetrics ← verifyRedeemScript env scriptSig stackCopy
    return sigMetrics + keyMetrics + redeemMetrics
  else do
    requireClean env.flags stack
    return sigMetrics + keyMetrics

end Verify

end Interpreter

end RadiantCore
