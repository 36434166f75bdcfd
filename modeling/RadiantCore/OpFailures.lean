import RadiantCore.Interpreter

/-!
# What an operation can fail with

An operation of `EvalScript` that does not succeed returns a script error or throws, but it never
returns the error of the check after the loop, that a pushed reference is disallowed. The lemmas
follow the definitions of the opcodes and compose by the rules of `FailsOnly`.

They are stated for any class of failures that permits those of the opcodes (`Permits`). What an
opcode throws beyond a malformed number is the answer of the context when an amount is no script
number (`AmountsPermitted`).
-/

namespace RadiantCore

open Opcode List StackOp ScriptExecutionContext

/-- The class has the failures of the opcodes that compute on the stack : the script errors, but for
that of the last check, and what a malformed number throws. -/
structure Permits (err : ScriptFailure → Prop) : Prop where
  error : ∀ e, e ≠ .INVALID_TX_OUTPUT_CONTAINS_DISALLOWED_PUSHREF → err (.error e)
  overflow : err (.exception "script number overflow")
  minimal : err (.exception "non-minimally encoded script number")

theorem permits_ne :
    Permits (· ≠ .error .INVALID_TX_OUTPUT_CONTAINS_DISALLOWED_PUSHREF) where
  error e he h := he (ScriptFailure.error.inj h)
  overflow h := by cases h
  minimal h := by cases h

theorem permits_true : Permits fun _ => True := ⟨fun _ _ => trivial, trivial, trivial⟩

variable {err : ScriptFailure → Prop}

namespace Permits

variable (h : Permits err) {flags : UInt32} {opcode : Opcode} {stack : Stack}

include h

section Stack

variable {α : Type} {e : ScriptError}

theorem scriptError (he : e ≠ .INVALID_TX_OUTPUT_CONTAINS_DISALLOWED_PUSHREF) :
    FailsOnly err (RadiantCore.scriptError e : Except ScriptFailure α) :=
  .error (h.error e he)

theorem invalidStackOperation :
    FailsOnly err (RadiantCore.invalidStackOperation : Except ScriptFailure α) :=
  h.scriptError (by decide)

theorem require {p : Prop} [Decidable p] (he : e ≠ .INVALID_TX_OUTPUT_CONTAINS_DISALLOWED_PUSHREF) :
    FailsOnly err (RadiantCore.require p (ScriptFailure.error e)) :=
  .require (h.error e he)

theorem require_bind {p : Prop} [Decidable p] {next : Except ScriptFailure α}
    (he : e ≠ .INVALID_TX_OUTPUT_CONTAINS_DISALLOWED_PUSHREF) (hnext : FailsOnly err next) :
    FailsOnly err (RadiantCore.require p (ScriptFailure.error e) >>= fun _ => next) :=
  (h.require he).bind fun _ => hnext

theorem fromBytes {n : ℕ} (hn : n ≤ 8) (vch : List UInt8) (b : Bool) :
    FailsOnly err (CScriptNum.fromBytes vch b n) := by
  unfold CScriptNum.fromBytes
  rw [require_pos hn, ok_bind]
  exact (FailsOnly.require h.overflow).bind fun _ => (FailsOnly.require h.minimal).bind fun _ => .ok

theorem scriptNum {vch : Valtype} : FailsOnly err (RadiantCore.scriptNum flags vch) := by
  refine h.fromBytes ?_ _ _
  unfold maxIntegerSize
  split_ifs <;> decide

/-! ## The stack -/

theorem shuffle : FailsOnly err (shuffle opcode stack) := by
  unfold StackOp.shuffle
  split
  case h_15 => exact h.invalidStackOperation
  all_goals exact .ok

theorem pickOrRoll : FailsOnly err (pickOrRoll flags opcode stack) := by
  unfold StackOp.pickOrRoll
  split
  · refine h.scriptNum.bind fun n => ?_
    dsimp only
    split
    · exact h.invalidStackOperation
    · split
      · exact h.invalidStackOperation
      · exact .ok
  · exact h.invalidStackOperation

theorem verify : FailsOnly err (verify stack) := by
  unfold StackOp.verify
  split
  · exact .ite .ok (h.scriptError (by decide))
  · exact h.invalidStackOperation

theorem size : FailsOnly err (size stack) := by
  unfold StackOp.size
  split
  · exact .ok
  · exact h.invalidStackOperation

theorem bitwise {f : UInt8 → UInt8 → UInt8} : FailsOnly err (bitwise f stack) := by
  unfold StackOp.bitwise
  split
  · exact .ite (h.scriptError (by decide)) .ok
  · exact h.invalidStackOperation

theorem invert : FailsOnly err (invert stack) := by
  unfold StackOp.invert
  split
  · exact .ok
  · exact h.invalidStackOperation

theorem shift {f : Valtype → ℕ → Valtype} : FailsOnly err (shift flags f stack) := by
  unfold StackOp.shift
  split
  · exact h.scriptNum.bind fun _ => h.require_bind (by decide) .ok
  · exact h.invalidStackOperation

theorem equal {fVerify : Bool} : FailsOnly err (equal fVerify stack) := by
  unfold StackOp.equal
  split
  · split_ifs
    · exact .ok
    · exact h.scriptError (by decide)
    · exact .ok
  · exact h.invalidStackOperation

/-! ## Numbers -/

theorem inRange (res : Option ℤ) : FailsOnly err (inRange res) := by
  unfold StackOp.inRange
  split
  · exact .ok
  · exact h.scriptError (by decide)

theorem unaryNumeric (hnumber : ∀ bn, FailsOnly err (unaryNumber opcode bn)) :
    FailsOnly err (unaryNumeric flags opcode stack) := by
  unfold StackOp.unaryNumeric
  split
  · exact h.scriptNum.bind fun bn => (hnumber bn).bind fun _ => .ok
  · exact h.invalidStackOperation

theorem binaryNumeric (hnumber : ∀ bn1 bn2, FailsOnly err (binaryNumber opcode bn1 bn2)) :
    FailsOnly err (binaryNumeric flags opcode stack) := by
  unfold StackOp.binaryNumeric
  split
  · exact h.scriptNum.bind fun bn1 => h.scriptNum.bind fun bn2 => (hnumber bn1 bn2).bind fun _ =>
      .ite (.ite .ok (h.scriptError (by decide))) .ok
  · exact h.invalidStackOperation

theorem within : FailsOnly err (within flags stack) := by
  unfold StackOp.within
  split
  · exact h.scriptNum.bind fun _ => h.scriptNum.bind fun _ => h.scriptNum.bind fun _ => .ok
  · exact h.invalidStackOperation

/-! ## Byte strings -/

theorem cat : FailsOnly err (cat stack) := by
  unfold StackOp.cat
  split
  · exact .ite (h.scriptError (by decide)) .ok
  · exact h.invalidStackOperation

theorem split : FailsOnly err (split flags stack) := by
  unfold StackOp.split
  split
  · exact h.scriptNum.bind fun _ => h.require_bind (by decide) .ok
  · exact h.invalidStackOperation

theorem reverseBytes : FailsOnly err (reverseBytes stack) := by
  unfold StackOp.reverseBytes
  split
  · exact .ok
  · exact h.invalidStackOperation

theorem num2bin : FailsOnly err (num2bin flags stack) := by
  unfold StackOp.num2bin
  split
  · exact h.scriptNum.bind fun _ => h.require_bind (by decide) <| h.require_bind (by decide) .ok
  · exact h.invalidStackOperation

theorem bin2num : FailsOnly err (bin2num flags stack) := by
  unfold StackOp.bin2num
  split
  · exact (h.require (by split_ifs <;> decide)).bind fun _ => .ok
  · exact h.invalidStackOperation

theorem pushRef {vch : Valtype} : FailsOnly err (RadiantCore.pushRef vch stack) :=
  h.require_bind (by decide) .ok

/-! ## Encodings of signatures -/

variable {sig vchSig vchPubKey : List UInt8}

theorem checkSighashEncoding : FailsOnly err (RadiantCore.checkSighashEncoding flags vchSig) :=
  .ite (h.require_bind (by decide) <| h.require_bind (by decide) <| h.require (by decide)) .ok

theorem checkTransactionSignatureEncodingImpl {checkRaw : List UInt8 → Except ScriptFailure Unit}
    (hraw : ∀ sig, FailsOnly err (checkRaw sig)) :
    FailsOnly err (RadiantCore.checkTransactionSignatureEncodingImpl checkRaw flags vchSig) :=
  .ite .ok ((hraw _).bind fun _ => h.checkSighashEncoding)

theorem checkPubKeyEncoding : FailsOnly err (RadiantCore.checkPubKeyEncoding flags vchPubKey) :=
  h.require (by decide)

theorem decodeBitfield {vch : List UInt8} {n : ℕ} :
    FailsOnly err (RadiantCore.decodeBitfield vch n) :=
  h.require_bind (by decide) <| h.require_bind (by decide) <| h.require_bind (by decide) .ok

variable [Crypto]

theorem digest {vch : Valtype} : FailsOnly err (digest opcode vch) := by
  unfold StackOp.digest
  split
  case h_8 =>
    split
    · exact .ok
    · exact h.invalidStackOperation
  all_goals exact .ok

theorem hash : FailsOnly err (hash opcode stack) := by
  unfold StackOp.hash
  split
  · exact h.digest.bind fun _ => .ok
  · exact h.invalidStackOperation

theorem checkRawECDSASignatureEncoding :
    FailsOnly err (RadiantCore.checkRawECDSASignatureEncoding flags sig) :=
  h.require_bind (by decide) <| h.require_bind (by decide) <| h.require (by decide)

theorem checkRawSignatureEncoding :
    FailsOnly err (RadiantCore.checkRawSignatureEncoding flags sig) :=
  .ite .ok h.checkRawECDSASignatureEncoding

theorem checkDataSignatureEncoding :
    FailsOnly err (RadiantCore.checkDataSignatureEncoding flags vchSig) :=
  .ite .ok h.checkRawSignatureEncoding

end Stack

end Permits

/-! ## Queries of the context -/

section Context

variable [Crypto]

namespace ScriptExecutionContext

omit [Crypto] in
theorem number_failsOnly_of_throw (h : err (.exception "bad optional access")) (x : ℤ) :
    FailsOnly err (number x) :=
  ((FailsOnly.require h).bind fun _ => .ok).bind fun _ => .ok

omit [Crypto] in
/-- Only one value has no script number. -/
theorem number_failsOnly {x : ℤ} (h : x ≠ -2 ^ 63) : FailsOnly err (number x) := by
  have hvalid : CScriptNum.valid64BitRange x = true := by
    simpa [CScriptNum.valid64BitRange] using h
  unfold number CScriptNum.fromInt
  rw [require_pos hvalid]
  exact .ok

omit [Crypto] in
theorem number_failsOnly_nat (n : ℕ) : FailsOnly err (number n) := number_failsOnly (by omega)

/-- The class has what the context throws when an amount is no script number. -/
structure AmountsPermitted (context : ScriptExecutionContext) (err : ScriptFailure → Prop) :
    Prop where
  coin : ∀ c ∈ context.shared.inputCoins, FailsOnly err (number c.out.nValue.toInt)
  output : ∀ out ∈ context.tx.vout, FailsOnly err (number out.nValue.toInt)
  valueIn : FailsOnly err
    (number (context.shared.inputCoins.map fun c => c.out.nValue.toInt).sum)
  valueOut : FailsOnly err (number context.tx.valueOut)
  refHashValueSum : ∀ side ∈ [context.shared.inputs, context.shared.outputs], ∀ h,
    FailsOnly err (number (side.getRefHashValueSum h))
  refValueSum : ∀ side ∈ [context.shared.inputs, context.shared.outputs], ∀ r,
    FailsOnly err (number (side.getRefValueSum r))
  codeScriptHashValueSum : ∀ side ∈ [context.shared.inputs, context.shared.outputs], ∀ h,
    FailsOnly err (number (side.getCodeScriptHashValueSum h))

theorem amountsPermitted_of_throw
    (context : ScriptExecutionContext) (h : err (.exception "bad optional access")) :
    context.AmountsPermitted err where
  coin _ _ := number_failsOnly_of_throw h _
  output _ _ := number_failsOnly_of_throw h _
  valueIn := number_failsOnly_of_throw h _
  valueOut := number_failsOnly_of_throw h _
  refHashValueSum _ _ _ := number_failsOnly_of_throw h _
  refValueSum _ _ _ := number_failsOnly_of_throw h _
  codeScriptHashValueSum _ _ _ := number_failsOnly_of_throw h _

section Coins

variable (context : ScriptExecutionContext)

variable {i : ℕ}

section

variable (hi : i < context.tx.vin.length)

include hi

/-- There is a coin for every input. -/
theorem coin_of_lt : ∃ c ∈ context.shared.inputCoins, context.coin i = .ok c := by
  have hlt : i < context.shared.inputCoins.length := by rwa [context.shared.size_inputCoins]
  refine ⟨context.shared.inputCoins[i], getElem_mem hlt, ?_⟩
  rw [coin, getElem?_eq_getElem hlt]

theorem scriptSig_of_lt : ∃ script, context.scriptSig i = .ok script :=
  ⟨context.tx.vin[i].scriptSig, by rw [scriptSig, getElem?_eq_getElem hi]⟩

theorem coinScriptPubKey_failsOnly : FailsOnly err (context.coinScriptPubKey i) := by
  obtain ⟨c, -, hc⟩ := context.coin_of_lt hi
  rw [coinScriptPubKey, hc]
  exact .ok

end

theorem mapM_coinAmount : (range context.tx.vin.length).mapM context.coinAmount =
    .ok (context.shared.inputCoins.map fun c => c.out.nValue) := by
  let amounts := context.shared.inputCoins.map fun c => c.out.nValue
  have hamount : ∀ i ∈ range context.tx.vin.length,
      context.coinAmount i = .ok (amounts[i]?.getD 0) := by
    intro i hi
    rw [mem_range, ← context.shared.size_inputCoins] at hi
    rw [coinAmount, coin, getElem?_map, getElem?_eq_getElem hi]
    rfl
  rw [mapM_eq_ok_map hamount]
  refine congrArg Except.ok (ext_getElem ?_ fun i _ hi => ?_)
  · rw [length_map, length_map, length_range, context.shared.size_inputCoins]
  · rw [getElem_map, getElem_range, getElem?_eq_getElem hi, Option.getD_some]

end Coins

end ScriptExecutionContext

namespace Permits

variable (h : Permits err) {flags : UInt32} {stack : Stack}

include h

section Scripts

omit [Crypto]

variable (script : CScript) (n : ℕ)

theorem bytecode : FailsOnly err (bytecode script) :=
  .ite (h.scriptError (by decide)) .ok

theorem codeBytecode : FailsOnly err (codeBytecode script n) :=
  (h.bytecode script).bind fun _ => .ok

theorem stateBytecode : FailsOnly err (stateBytecode script n) :=
  (h.bytecode script).bind fun _ => .ite .ok .ok

theorem blobQuery {w : ℕ} {e : ScriptError} {f : Blob w → ℤ}
    (hf : ∀ b, FailsOnly err (number (f b)))
    (he : e ≠ .INVALID_TX_OUTPUT_CONTAINS_DISALLOWED_PUSHREF) :
    FailsOnly err (blobQuery e f stack) := by
  unfold ScriptExecutionContext.blobQuery
  split
  · split
    · exact h.scriptError he
    · exact (hf _).bind fun _ => .ok
  · exact h.invalidStackOperation

end Scripts

variable {context : ScriptExecutionContext}

theorem inputQuery {f : Fin context.tx.vin.length → Except ScriptFailure Valtype}
    (hf : ∀ i, FailsOnly err (f i)) : FailsOnly err (context.inputQuery flags f stack) := by
  unfold ScriptExecutionContext.inputQuery
  split
  · refine h.scriptNum.bind fun _ => ?_
    split_ifs
    · exact (hf _).bind fun _ => .ok
    · exact h.scriptError (by decide)
  · exact h.invalidStackOperation

theorem utxoQuery {f : Fin context.tx.vin.length → Except ScriptFailure Valtype}
    (hf : ∀ i, FailsOnly err (f i)) : FailsOnly err (context.utxoQuery flags f stack) :=
  h.inputQuery fun i => .ite (h.scriptError (by decide)) (hf i)

theorem outputQuery {f : Fin context.tx.vout.length → Except ScriptFailure Valtype}
    (hf : ∀ i, FailsOnly err (f i)) : FailsOnly err (context.outputQuery flags f stack) := by
  unfold ScriptExecutionContext.outputQuery
  split
  · refine h.scriptNum.bind fun _ => ?_
    split_ifs
    · exact (hf _).bind fun _ => .ok
    · exact h.scriptError (by decide)
  · exact h.invalidStackOperation

theorem txState (hamounts : context.AmountsPermitted err) :
    FailsOnly err (context.txState flags stack) := by
  unfold ScriptExecutionContext.txState
  split
  · refine h.scriptNum.bind fun _ => ?_
    split_ifs
    · exact .ok
    · rw [context.mapM_coinAmount, ok_bind, map_map]
      exact hamounts.valueIn.bind fun _ => .ok
    · exact hamounts.valueOut.bind fun _ => .ok
    · exact h.scriptError (by decide)
  · exact h.invalidStackOperation

section Opcodes

variable {opcode : Opcode}

theorem nullary (code : CScript)
    (hop : opcode ∈ [OP_INPUTINDEX, OP_ACTIVEBYTECODE, OP_TXVERSION, OP_TXINPUTCOUNT,
      OP_TXOUTPUTCOUNT, OP_TXLOCKTIME]) : FailsOnly err (context.nullary code opcode) := by
  unfold ScriptExecutionContext.nullary
  split
  case h_2 => exact h.bytecode code
  case h_3 =>
    have := context.tx.nVersion.le_toInt
    exact number_failsOnly (by omega)
  case h_7 => simp_all
  all_goals exact number_failsOnly_nat _

variable (hamounts : context.AmountsPermitted err)

include hamounts

theorem unary (hop : opcode ∈ [OP_UTXOVALUE, OP_UTXOBYTECODE, OP_OUTPOINTTXHASH, OP_OUTPOINTINDEX,
      OP_INPUTBYTECODE, OP_INPUTSEQUENCENUMBER, OP_OUTPUTVALUE, OP_OUTPUTBYTECODE]) :
    FailsOnly err (context.unary flags opcode stack) := by
  unfold ScriptExecutionContext.unary
  split
  · refine h.utxoQuery fun i => ?_
    obtain ⟨c, hc, hcoin⟩ := context.coin_of_lt i.isLt
    rw [coinAmount, hcoin]
    exact hamounts.coin c hc
  · exact h.utxoQuery fun i => (context.coinScriptPubKey_failsOnly i.isLt).bind
      fun _ => h.bytecode _
  · exact h.inputQuery fun _ => .ok
  · exact h.inputQuery fun _ => number_failsOnly_nat _
  · refine h.inputQuery fun i => ?_
    obtain ⟨script, hscript⟩ := context.scriptSig_of_lt i.isLt
    rw [hscript]
    exact h.bytecode _
  · exact h.inputQuery fun _ => number_failsOnly_nat _
  · exact h.outputQuery fun i => hamounts.output _ (get_mem _ i)
  · exact h.outputQuery fun _ => h.bytecode _
  · simp_all

theorem references (hop : 0xd4 ≤ opcode.toByte ∧ opcode.toByte ≤ 0xed ∧
      opcode ≠ OP_PUSHINPUTREFSINGLETON ∨ opcode.toByte ∈ [0xbe, 0xbf]) :
    FailsOnly err (context.references flags opcode stack) := by
  have hnat : ∀ n : ℕ, FailsOnly err (number n) :=
    number_failsOnly_nat
  have hscript : ∀ i : Fin context.tx.vin.length, FailsOnly err (context.coinScriptPubKey i) :=
    fun i => context.coinScriptPubKey_failsOnly i.isLt
  have hinputs : context.shared.inputs ∈ [context.shared.inputs, context.shared.outputs] :=
    mem_cons_self
  have houtputs : context.shared.outputs ∈ [context.shared.inputs, context.shared.outputs] :=
    mem_cons_of_mem _ mem_cons_self
  unfold ScriptExecutionContext.references
  split
  case h_1 => exact h.txState hamounts
  case h_2 | h_16 => exact h.utxoQuery fun _ => .ok
  case h_3 | h_17 => exact h.outputQuery fun _ => .ok
  case h_4 => exact h.blobQuery (hamounts.refHashValueSum _ hinputs) (by decide)
  case h_5 => exact h.blobQuery (hamounts.refHashValueSum _ houtputs) (by decide)
  case h_6 => exact h.blobQuery (hamounts.refValueSum _ hinputs) (by decide)
  case h_7 => exact h.blobQuery (hamounts.refValueSum _ houtputs) (by decide)
  case h_10 => exact h.utxoQuery fun _ => hnat _
  case h_11 => exact h.outputQuery fun i => .ite (h.scriptError (by decide)) (hnat _)
  case h_18 => exact h.blobQuery (hamounts.codeScriptHashValueSum _ hinputs) (by decide)
  case h_19 => exact h.blobQuery (hamounts.codeScriptHashValueSum _ houtputs) (by decide)
  case h_24 => exact h.utxoQuery fun i => (hscript i).bind fun _ => h.codeBytecode _ _
  case h_25 => exact h.outputQuery fun _ => h.codeBytecode _ _
  case h_26 => exact h.utxoQuery fun i => (hscript i).bind fun _ => h.stateBytecode _ _
  case h_27 => exact h.outputQuery fun _ => h.stateBytecode _ _
  case h_28 => cases opcode <;> contradiction
  all_goals exact h.blobQuery (fun _ => hnat _) (by decide)

end Opcodes

theorem queryContext (flag? : Option ScriptFlag) (context? : Option ScriptExecutionContext) :
    Ends (RadiantCore.queryContext flags flag? context?) err fun c => context? = some c := by
  unfold RadiantCore.queryContext
  refine (h.require (by decide)).bind_ends fun _ => ?_
  split
  · rfl
  · exact h.error _ (by decide)

end Permits

end Context

/-! ## The switch -/

namespace Permits

section Switch

variable (h : Permits err) [Crypto] {env : EvalEnv} {stack : Stack}

include h

theorem checkLockTimeVerify : FailsOnly err (RadiantCore.checkLockTimeVerify env stack) := by
  unfold RadiantCore.checkLockTimeVerify
  split_ifs
  · split
    · exact h.invalidStackOperation
    · exact (h.fromBytes (by decide) _ _).bind fun _ => h.require_bind (by decide) <|
        h.require_bind (by decide) .ok
  · exact .ok

theorem checkSequenceVerify : FailsOnly err (RadiantCore.checkSequenceVerify env stack) := by
  unfold RadiantCore.checkSequenceVerify
  split_ifs
  · split
    · exact h.invalidStackOperation
    · exact (h.fromBytes (by decide) _ _).bind fun _ => h.require_bind (by decide) <|
        h.require_bind (by decide) .ok
  · exact .ok

theorem stackOp (hcontext : ∀ c ∈ env.context, c.AmountsPermitted err) (code : CScript)
    (opcode : Opcode) (vch : Valtype) :
    FailsOnly err (RadiantCore.stackOp env code opcode vch stack) := by
  have hquery : ∀ {flag? : Option ScriptFlag} {f : ScriptExecutionContext → _},
      (∀ c, c.AmountsPermitted err → FailsOnly err (f c)) →
      FailsOnly err (RadiantCore.queryContext env.flags flag? env.context >>= f :
        Except ScriptFailure Stack) := fun hf =>
    (h.queryContext _ _).bind fun c hc => hf c (hcontext c hc)
  cases opcode
  case OP_1NEGATE | OP_1 | OP_2 | OP_3 | OP_4 | OP_5 | OP_6 | OP_7 | OP_8 | OP_9 | OP_10 | OP_11
      | OP_12 | OP_13 | OP_14 | OP_15 | OP_16 | OP_NOP | OP_DEPTH => exact .ok
  case OP_CHECKLOCKTIMEVERIFY => exact h.checkLockTimeVerify
  case OP_CHECKSEQUENCEVERIFY => exact h.checkSequenceVerify
  case OP_NOP1 | OP_NOP4 | OP_NOP5 | OP_NOP6 | OP_NOP7 | OP_NOP8 | OP_NOP9 | OP_NOP10 =>
    exact .ite (h.scriptError (by decide)) .ok
  case OP_VERIFY => exact h.verify
  case OP_2DROP | OP_2DUP | OP_3DUP | OP_2OVER | OP_2ROT | OP_2SWAP | OP_IFDUP | OP_DROP
      | OP_DUP | OP_NIP | OP_OVER | OP_ROT | OP_SWAP | OP_TUCK => exact h.shuffle
  case OP_PICK | OP_ROLL => exact h.pickOrRoll
  case OP_SIZE => exact h.size
  case OP_AND | OP_OR | OP_XOR => exact h.bitwise
  case OP_INVERT => exact h.invert
  case OP_LSHIFT | OP_RSHIFT => exact h.shift
  case OP_EQUAL | OP_EQUALVERIFY => exact h.equal
  case OP_1ADD | OP_1SUB | OP_2MUL => exact h.unaryNumeric fun _ => h.inRange _
  case OP_2DIV | OP_NEGATE | OP_ABS | OP_NOT | OP_0NOTEQUAL => exact h.unaryNumeric fun _ => .ok
  case OP_ADD | OP_SUB | OP_MUL => exact h.binaryNumeric fun _ _ => h.inRange _
  case OP_DIV | OP_MOD => exact h.binaryNumeric fun _ _ => .ite (h.scriptError (by decide)) .ok
  case OP_BOOLAND | OP_BOOLOR | OP_NUMEQUAL | OP_NUMEQUALVERIFY | OP_NUMNOTEQUAL | OP_LESSTHAN
      | OP_GREATERTHAN | OP_LESSTHANOREQUAL | OP_GREATERTHANOREQUAL | OP_MIN | OP_MAX =>
    exact h.binaryNumeric fun _ _ => .ok
  case OP_WITHIN => exact h.within
  case OP_RIPEMD160 | OP_SHA1 | OP_SHA256 | OP_HASH160 | OP_HASH256 | OP_SHA512_256
      | OP_HASH512_256 | OP_BLAKE3 | OP_K12 => exact h.hash
  case OP_CAT => exact h.cat
  case OP_SPLIT => exact h.split
  case OP_REVERSEBYTES => exact h.reverseBytes
  case OP_NUM2BIN => exact h.num2bin
  case OP_BIN2NUM => exact h.bin2num
  case OP_INPUTINDEX | OP_ACTIVEBYTECODE | OP_TXVERSION | OP_TXINPUTCOUNT | OP_TXOUTPUTCOUNT
      | OP_TXLOCKTIME =>
    exact hquery fun _ _ => (h.nullary code (by decide)).bind fun _ => .pure
  case OP_UTXOVALUE | OP_UTXOBYTECODE | OP_OUTPOINTTXHASH | OP_OUTPOINTINDEX | OP_INPUTBYTECODE
      | OP_INPUTSEQUENCENUMBER | OP_OUTPUTVALUE | OP_OUTPUTBYTECODE =>
    exact hquery fun _ hc => h.unary hc (by decide)
  case OP_REQUIREINPUTREF | OP_DISALLOWPUSHINPUTREFSIBLING => exact h.pushRef
  case OP_STATESEPARATOR => exact h.require_bind (by decide) .pure
  all_goals first
    | exact h.scriptError (by decide)
    | exact hquery fun _ hc => h.references hc (by decide)

/-! ## Signatures -/

theorem checkOneSig (vchSig : Valtype) (rest : Stack) {check : Except ScriptFailure Bool}
    (hcheck : FailsOnly err check) : FailsOnly err (RadiantCore.checkOneSig env vchSig rest check) :=
  .ite .ok (hcheck.bind fun _ => h.require_bind (by decide) .ok)

theorem checkDataSigOp : FailsOnly err (RadiantCore.checkDataSigOp env stack) := by
  unfold RadiantCore.checkDataSigOp
  split
  · exact h.checkDataSignatureEncoding.bind fun _ => h.checkPubKeyEncoding.bind fun _ =>
      h.checkOneSig _ _ .ok
  · exact h.invalidStackOperation

theorem multiSigArgs (nOpCount : ℕ) :
    FailsOnly err (RadiantCore.multiSigArgs env nOpCount stack) := by
  unfold RadiantCore.multiSigArgs
  split
  · exact h.invalidStackOperation
  · refine h.scriptNum.bind fun _ => h.require_bind (by decide) <| h.require_bind (by decide) <| ?_
    split
    · exact h.invalidStackOperation
    · refine h.scriptNum.bind fun _ => h.require_bind (by decide) <| ?_
      split
      · exact h.invalidStackOperation
      · exact .ok

theorem popCondition (opcode : Opcode) :
    FailsOnly err (RadiantCore.popCondition env opcode stack) := by
  unfold RadiantCore.popCondition
  split
  · exact h.scriptError (by decide)
  · exact h.require_bind (by decide) .ok

omit [Crypto] in
theorem finish (res : SigResult) {verify? : Option ScriptError}
    (hverify : ∀ e ∈ verify?, e ≠ .INVALID_TX_OUTPUT_CONTAINS_DISALLOWED_PUSHREF) :
    FailsOnly err (res.finish verify?) := by
  unfold SigResult.finish
  split
  · exact .ok
  · exact .ite .ok (h.scriptError (hverify _ rfl))

variable (hchecker : ∀ vchSig vchPubKey scriptCode flags,
  FailsOnly err (env.checker.checkSig vchSig vchPubKey scriptCode flags)) (scriptCode : CScript)

include hchecker

theorem checkSigOp : FailsOnly err (RadiantCore.checkSigOp env scriptCode stack) := by
  unfold RadiantCore.checkSigOp
  split
  · exact (h.checkTransactionSignatureEncodingImpl fun _ => h.checkRawSignatureEncoding).bind
      fun _ => h.checkPubKeyEncoding.bind fun _ => h.checkOneSig _ _ (hchecker _ _ _ _)
  · exact h.invalidStackOperation

theorem schnorrLoop (keys : List Valtype) (checkBits : ℕ) (sigs : List Valtype) (iKey : ℕ) :
    FailsOnly err (RadiantCore.schnorrLoop env scriptCode keys checkBits sigs iKey) := by
  induction sigs generalizing iKey with
  | nil => exact .ok
  | cons vchSig sigs ih =>
    unfold RadiantCore.schnorrLoop
    refine h.require_bind (by decide) <| ?_
    dsimp only
    split
    · exact h.scriptError (by decide)
    · exact (h.checkTransactionSignatureEncodingImpl fun _ => h.require (by decide)).bind fun _ =>
        h.checkPubKeyEncoding.bind fun _ => (hchecker _ _ _ _).bind fun _ =>
          h.require_bind (by decide) <| ih _

theorem legacyLoop (sigs keys : List Valtype) :
    FailsOnly err (RadiantCore.legacyLoop env scriptCode sigs keys) := by
  induction keys generalizing sigs with
  | nil =>
    cases sigs with
    | nil => exact .ok
    | cons => exact .ok
  | cons vchPubKey keys ih =>
    cases sigs with
    | nil => exact .ok
    | cons vchSig sigs =>
      exact (h.checkTransactionSignatureEncodingImpl fun _ => h.checkRawECDSASignatureEncoding).bind
        fun _ => h.checkPubKeyEncoding.bind fun _ => (hchecker _ _ _ _).bind fun _ =>
          .ite .pure (ih _)

theorem checkMultiSigOp (nOpCount : ℕ) :
    FailsOnly err (RadiantCore.checkMultiSigOp env nOpCount scriptCode stack) := by
  refine (h.multiSigArgs _).bind fun args => ?_
  have hschnorr : FailsOnly err (schnorrMultiSig env scriptCode args) :=
    h.decodeBitfield.bind fun _ => h.require_bind (by decide) <|
      (h.schnorrLoop hchecker _ _ _ _ _).bind fun _ => h.require_bind (by decide) .ok
  have hlegacy : FailsOnly err (legacyMultiSig env scriptCode args) :=
    (h.legacyLoop hchecker _ _ _).bind fun _ => h.require_bind (by decide) .ok
  split_ifs
  · exact hschnorr.bind fun _ => .ok
  · exact hlegacy.bind fun _ => .ok

end Switch

end Permits

end RadiantCore
