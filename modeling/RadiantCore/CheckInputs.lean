import RadiantCore.ConnectBlock
import RadiantCore.Interpreter

/-!
# The script checks of a block

The flags under which the scripts of a block run (`getNextBlockScriptFlags`), and the stage
of `ConnectBlock` that collects the script checks of a transaction (`inputScripts`) : a check for
every input, unless the transaction is in the script cache. Both the hashes of the transaction and
the contexts of its inputs scan scripts for references, and throw on one that does not parse
(`inputScripts_ends`).
-/

namespace RadiantCore

/-! ## Flags -/

/-- `IsUAHFenabled`. -/
def isUAHFenabled (params : Params) (pindexPrev : CBlockIndex) : Bool :=
  params.uahfHeight ≤ pindexPrev.nHeight

/-- `GetNextBlockScriptFlags`, for the block after `pindex`. -/
def getNextBlockScriptFlags (params : Params) (pindex : CBlockIndex) : UInt32 :=
  let flags : UInt32 := 0
  let flags := setFlag flags .SCRIPT_VERIFY_P2SH (params.BIP16Height ≤ pindex.nHeight + 1)
  let flags := setFlag flags .SCRIPT_VERIFY_DERSIG (params.BIP66Height ≤ pindex.nHeight + 1)
  let flags := setFlag flags .SCRIPT_VERIFY_CHECKLOCKTIMEVERIFY
    (params.BIP65Height ≤ pindex.nHeight + 1)
  let flags := setFlag flags .SCRIPT_VERIFY_CHECKSEQUENCEVERIFY
    (params.CSVHeight ≤ pindex.nHeight + 1)
  let flags := setFlag flags .SCRIPT_VERIFY_STRICTENC (isUAHFenabled params pindex)
  let flags := setFlag flags .SCRIPT_ENABLE_SIGHASH_FORKID (isUAHFenabled params pindex)
  let flags := setFlag flags .SCRIPT_VERIFY_LOW_S true
  let flags := setFlag flags .SCRIPT_VERIFY_NULLFAIL true
  let flags := setFlag flags .SCRIPT_VERIFY_SIGPUSHONLY true
  let flags := setFlag flags .SCRIPT_VERIFY_CLEANSTACK true
  let flags := setFlag flags .SCRIPT_ENABLE_SCHNORR_MULTISIG true
  let flags := setFlag flags .SCRIPT_VERIFY_MINIMALDATA true
  let flags := setFlag flags .SCRIPT_ENFORCE_SIGCHECKS true
  let flags := setFlag flags .SCRIPT_64_BIT_INTEGERS true
  let flags := setFlag flags .SCRIPT_NATIVE_INTROSPECTION true
  let flags := setFlag flags .SCRIPT_ENHANCED_REFERENCES (params.ERHeight ≤ pindex.nHeight + 1)
  setFlag flags .SCRIPT_PUSH_TX_STATE (params.PushTXStateHeight ≤ pindex.nHeight + 1)

theorem hasFlag_zero (flag : ScriptFlag) : hasFlag 0 flag = false := by
  simp [hasFlag]

theorem hasFlag_sigPushOnly (params : Params) (pindex : CBlockIndex) :
    hasFlag (getNextBlockScriptFlags params pindex) .SCRIPT_VERIFY_SIGPUSHONLY = true := by
  simp [getNextBlockScriptFlags, hasFlag_setFlag]

/-- The flags of the references and of `OP_PUSH_TX_STATE` depend on their heights. -/
theorem hasFlag_getNextBlockScriptFlags (params : Params) (pindex : CBlockIndex) :
    hasFlag (getNextBlockScriptFlags params pindex) .SCRIPT_ENHANCED_REFERENCES =
        decide (params.ERHeight ≤ pindex.nHeight + 1) ∧
      hasFlag (getNextBlockScriptFlags params pindex) .SCRIPT_PUSH_TX_STATE =
        decide (params.PushTXStateHeight ≤ pindex.nHeight + 1) := by
  simp [getNextBlockScriptFlags, hasFlag_setFlag, hasFlag_zero]

/-! ## Checks -/

section Checks

variable [Crypto]

/-- `CScriptCheck` : the context of an input, the flags and the hashes of its transaction. -/
structure CScriptCheck where
  context : ScriptExecutionContext
  nFlags : UInt32
  txdata : PrecomputedTransactionData

/-- `CScriptCheck::operator()`, with the metrics of a successful check. -/
def CScriptCheck.run (check : CScriptCheck) : Except ScriptFailure ScriptExecutionMetrics := do
  let context := check.context
  let scriptSig ← context.scriptSig context.nIn
  let scriptPubKey ← context.coinScriptPubKey context.nIn
  let amount ← context.coinAmount context.nIn
  let checker := transactionSignatureChecker context.tx.toCMutableTransaction context.nIn amount
    (some check.txdata)
  verifyScript ⟨check.nFlags, checker, some context⟩ scriptSig scriptPubKey

end Checks

end RadiantCore
