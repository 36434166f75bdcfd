import RadiantCore.CheckInputs
import RadiantCore.ExecutedRefs

/-!
# The check for disallowed references at run time

`GetPushRefs` refuses a script that pushes a reference it disallows, and `EvalScript` checks the same
of the references it executes. From the activation of `OP_PUSH_TX_STATE` on, a run collects a part of
what the scan finds, so that its check never fails on an accepted script. Before, it collects the
bytes of the references read as hexadecimal digits, where different references meet.
-/

namespace RadiantCore

open Opcode List

section Check

variable [Crypto]

/-- The failure of the check after the loop. -/
def disallowedPushRef {α : Type} : Except ScriptFailure α :=
  scriptError .INVALID_TX_OUTPUT_CONTAINS_DISALLOWED_PUSHREF

/-- The checker gives a verdict or throws : what `CheckSig` returns is not an error of a script. -/
def BaseSignatureChecker.Decides (checker : BaseSignatureChecker) : Prop :=
  ∀ vchSig vchPubKey scriptCode flags e,
    checker.checkSig vchSig vchPubKey scriptCode flags ≠ .error (.error e)

section Run

variable {env : EvalEnv}

omit [Crypto] in
theorem BaseSignatureChecker.Decides.failsOnly {checker : BaseSignatureChecker}
    (h : checker.Decides) (vchSig vchPubKey : List UInt8) (scriptCode : CScript) (flags : UInt32) :
    FailsOnly (· ≠ .error .INVALID_TX_OUTPUT_CONTAINS_DISALLOWED_PUSHREF)
      (checker.checkSig vchSig vchPubKey scriptCode flags) :=
  Ends.of_ne_error (h vchSig vchPubKey scriptCode flags _)

omit [Crypto] in
/-- The check fails only when the sets of references at the end of the loop meet. -/
theorem evalEnd_ne_disallowed {x : Except ScriptFailure Progress}
    (h : Ends x (· ≠ .error .INVALID_TX_OUTPUT_CONTAINS_DISALLOWED_PUSHREF)
      fun p => p.state.disallowedRefs ∩ p.state.foundPushRefs = ∅) :
    evalEnd x ≠ disallowedPushRef := by
  intro heq
  match x, h with
  | .error (.error e), he => exact he (Except.error.inj heq)
  | .error (.exception _), _ => cases heq
  | .error (.abort _), _ => cases heq
  | .ok (.done _), _ => cases heq
  | .ok (.next st), h =>
    have hdisjoint : st.disallowedRefs ∩ st.foundPushRefs = ∅ := h
    rw [evalEnd, require_pos hdisjoint] at heq
    by_cases hempty : st.vfExec.empty = true
    · rw [require_pos hempty] at heq
      cases heq
    · rw [require_neg hempty] at heq
      cases heq

variable {st : EvalState}

omit [Crypto] in
theorem evalEnd_of_clash (hempty : st.vfExec.empty = true)
    (hclash : st.disallowedRefs ∩ st.foundPushRefs ≠ ∅) :
    evalEnd (.ok (.next st)) = disallowedPushRef := by
  rw [evalEnd, require_pos hempty, ok_bind, require_neg hclash]
  rfl

variable {stack : Stack} {script : CScript}

theorem evalScript_ne_disallowed
    (h : Ends (evalLoop env (scriptOps script) { stack := stack, pbegincodehash := script })
      (· ≠ .error .INVALID_TX_OUTPUT_CONTAINS_DISALLOWED_PUSHREF)
      fun p => p.state.disallowedRefs ∩ p.state.foundPushRefs = ∅) :
    evalScript env stack script ≠ disallowedPushRef := by
  unfold evalScript
  split_ifs
  · exact fun heq => by cases heq
  · exact evalEnd_ne_disallowed h

/-! ## References kept apart -/

/-- The operation, when it is executed, adds no reference to a set of the loop that is in the
other set. -/
def RefsApart (env : EvalEnv) (op : ScriptOp) (st : EvalState) : Prop :=
  st.vfExec.allTrue = true → ∀ r,
    (op.Names [OP_PUSHINPUTREF] r → setRef env r ∉ st.disallowedRefs) ∧
      (op.Names [OP_DISALLOWPUSHINPUTREF] r → setRef env r ∉ st.foundPushRefs)

variable {op : ScriptOp} {r : Uint288}

omit [Crypto] in
/-- An operation has one opcode. -/
theorem ScriptOp.Names.opcode_eq {c c' : Opcode} {r' : Uint288}
    (h : op.Names [c] r) (h' : op.Names [c'] r') : c = c' := by
  obtain ⟨-, _, hc, heq⟩ := h
  obtain ⟨-, _, hc', heq'⟩ := h'
  rw [mem_singleton] at hc hc'
  subst hc hc'
  exact Opcode.toByte_inj.mp (heq.symm.trans heq')

/-- A step that keeps the references apart keeps the sets disjoint. -/
theorem Records.disjoint {st' : EvalState}
    (h : Records env op st.vfExec.allTrue st st') (hapart : RefsApart env op st)
    (hst : st.disallowedRefs ∩ st.foundPushRefs = ∅) :
    st'.disallowedRefs ∩ st'.foundPushRefs = ∅ := by
  rw [← Finset.disjoint_iff_inter_eq_empty, Finset.disjoint_left] at hst ⊢
  intro x hd hf
  rcases (h.disallowed x).mp hd with hd | ⟨hexec, r, hr, rfl⟩
  · rcases (h.found x).mp hf with hf | ⟨hexec, r, hr, rfl⟩
    · exact hst hd hf
    · exact (hapart hexec r).1 hr hd
  · rcases (h.found _).mp hf with hf | ⟨-, r', hr', -⟩
    · exact (hapart hexec r).2 hr hf
    · cases hr.opcode_eq hr'

/-- A run whose steps keep the references apart does not fail at the check. -/
theorem evalScript_of_refsApart (hchecker : env.checker.Decides)
    (hapart : EveryStep env (RefsApart env) (scriptOps script)
      { stack := stack, pbegincodehash := script }) :
    evalScript env stack script ≠ disallowedPushRef := by
  refine evalScript_ne_disallowed
    (evalLoop_ends (fun st => st.disallowedRefs ∩ st.foundPushRefs = ∅) (by decide)
      (fun op st hop hst => ?_) hapart rfl)
  exact (evalOp_records permits_ne (fun c _ => c.amountsPermitted_of_throw (by decide))
    hchecker.failsOnly st).imp fun _ _ hrec => hrec.disjoint hop hst

/-! ## What an accepted script executes -/

omit [Crypto] in
/-- No reference of an accepted script is pushed and disallowed. -/
theorem Parses.not_disallowed {s : CScript} (h : Parses s) {op' : ScriptOp}
    (hop : some op ∈ scriptOps s) (hr : op.Names [OP_PUSHINPUTREF] r)
    (hop' : some op' ∈ scriptOps s) : ¬ op'.Names [OP_DISALLOWPUSHINPUTREF] r := by
  intro hr'
  obtain ⟨refs, hrefs⟩ := h
  obtain ⟨scan, hrun, hdisjoint, -⟩ := getPushRefs_eq_some hrefs
  have hpush : r ∈ scan.foundPushRefs :=
    (PushRefScan.mem_run_iff PushRefScan.fedBy.1 hrun r).mpr
      (Or.inr ⟨op, hop, hr.mono (by simp)⟩)
  have hdisallowed : r ∈ scan.foundDisallowedRefs :=
    (PushRefScan.mem_run_iff PushRefScan.fedBy.2.2.1 hrun r).mpr (Or.inr ⟨op', hop', hr'⟩)
  have : r ∈ scan.foundDisallowedRefs ∩ scan.foundPushRefs :=
    Finset.mem_inter.mpr ⟨hdisallowed, hpush⟩
  simp [hdisjoint] at this

/-- Once references are taken by their bytes, the sets of a run hold references of the script. -/
theorem evalScript_of_parses (hchecker : env.checker.Decides)
    (hflag : hasFlag env.flags .SCRIPT_PUSH_TX_STATE = true)
    (h : Parses script) : evalScript env stack script ≠ disallowedPushRef := by
  have hset : ∀ r, setRef env r = r := fun r => if_pos hflag
  let inv : EvalState → Prop := fun st =>
    (∀ r ∈ st.foundPushRefs, ∃ op, some op ∈ scriptOps script ∧ op.Names [OP_PUSHINPUTREF] r) ∧
      ∀ r ∈ st.disallowedRefs, ∃ op, some op ∈ scriptOps script ∧
        op.Names [OP_DISALLOWPUSHINPUTREF] r
  have hloop : Ends (evalLoop env (scriptOps script) { stack := stack, pbegincodehash := script })
      (· ≠ .error .INVALID_TX_OUTPUT_CONTAINS_DISALLOWED_PUSHREF) fun p => inv p.state := by
    refine evalLoop_ends inv (P := fun op _ => some op ∈ scriptOps script) (by decide)
      (fun op st hop hst => ?_) (everyStep_of_mem fun op hop _ => hop) (by simp [inv])
    refine (evalOp_records permits_ne (fun c _ => c.amountsPermitted_of_throw (by decide))
      hchecker.failsOnly st).imp fun p _ hrec => ?_
    refine ⟨fun x hx => ?_, fun x hx => ?_⟩
    · rcases (hrec.found x).mp hx with hx | ⟨-, r, hr, rfl⟩
      · exact hst.1 x hx
      · exact ⟨op, hop, by rwa [hset]⟩
    · rcases (hrec.disallowed x).mp hx with hx | ⟨-, r, hr, rfl⟩
      · exact hst.2 x hx
      · exact ⟨op, hop, by rwa [hset]⟩
  refine evalScript_ne_disallowed (hloop.imp fun p _ hinv => ?_)
  rw [← Finset.disjoint_iff_inter_eq_empty, Finset.disjoint_left]
  intro r hd hf
  obtain ⟨op', hop', hr'⟩ := hinv.2 r hd
  obtain ⟨op, hop, hr⟩ := hinv.1 r hf
  exact h.not_disallowed hop hr hop' hr'

end Run

/-! ## The check before and after the activation -/

/-- Disallows a reference of zeroes and pushes one of ones. -/
def clashingScript : CScript :=
  OP_DISALLOWPUSHINPUTREF.toByte :: replicate 36 0x00 ++
    OP_PUSHINPUTREF.toByte :: replicate 36 0x01

omit [Crypto] in
/-- The references of the script are different, but neither begins with a hexadecimal digit. -/
theorem parses_clashingScript : Parses clashingScript := by decide +kernel

/-- The script fails at the check when references are read as digits. -/
theorem evalScript_clashingScript {env : EvalEnv}
    (hflag : hasFlag env.flags .SCRIPT_PUSH_TX_STATE = false) :
    evalScript env [] clashingScript = disallowedPushRef := by
  have hset : ∀ r, setRef env r = Blob.setHex r.data := fun r => if_neg (by simp [hflag])
  have hloop : evalLoop env (scriptOps clashingScript) ⟨[], [], {}, 0, clashingScript, {}, ∅, ∅⟩ =
      .ok (.next ⟨[replicate 36 0x01, replicate 36 0x00], [], {}, 2, clashingScript,
        ⟨0, [⟨replicate 36 0x01, rfl⟩]⟩, {setRef env ⟨replicate 36 0x01, rfl⟩},
        {setRef env ⟨replicate 36 0x00, rfl⟩}⟩) := rfl
  rw [evalScript, if_neg (by decide), hloop]
  refine evalEnd_of_clash rfl ?_
  simp only [hset]
  decide

theorem exists_fullContext : ∃ context : ScriptExecutionContext, context.limited = false := by
  let tx : CTransaction := .ofLegacy ⟨[⟨⟨Blob.null, 0⟩, [], 0⟩], [], 1, 0⟩
    version_one zero_lt_word
  obtain ⟨shared, -⟩ := ScriptExecutionContext.Shared.make_of_parses
    (show [Coin.empty].length = tx.vin.length from rfl) (by simp [Coin.empty, parses_nil])
    fun out hout => by cases hout
  exact ⟨⟨tx, shared, ⟨0, Nat.one_pos⟩, false⟩, rfl⟩

/-- Under the flags of a block, no accepted script fails at the check exactly when the block is at
or after the activation of `OP_PUSH_TX_STATE`. Before, a run does not fail there when no step adds a
reference to one of the sets that reads as the same number as one in the other. -/
theorem disallow_check_iff (params : Params) (pindex : CBlockIndex) :
    ((∀ (script : CScript) (stack : Stack) (checker : BaseSignatureChecker)
        (context : ScriptExecutionContext), Parses script → checker.Decides →
        context.limited = false →
        evalScript ⟨getNextBlockScriptFlags params pindex, checker, some context⟩ stack script ≠
          disallowedPushRef) ↔ params.PushTXStateHeight ≤ pindex.nHeight + 1) ∧
      ∀ (script : CScript) (stack : Stack) (checker : BaseSignatureChecker)
        (context : ScriptExecutionContext), checker.Decides →
        EveryStep ⟨getNextBlockScriptFlags params pindex, checker, some context⟩
          (RefsApart ⟨getNextBlockScriptFlags params pindex, checker, some context⟩)
          (scriptOps script) { stack := stack, pbegincodehash := script } →
        evalScript ⟨getNextBlockScriptFlags params pindex, checker, some context⟩ stack script ≠
          disallowedPushRef := by
  obtain ⟨-, hflag⟩ := hasFlag_getNextBlockScriptFlags params pindex
  refine ⟨⟨fun h => ?_, fun h script stack checker context hparses hchecker _ => ?_⟩,
    fun script stack checker context hchecker hapart => evalScript_of_refsApart hchecker hapart⟩
  · by_contra hbelow
    obtain ⟨context, hfull⟩ := exists_fullContext
    refine h clashingScript [] sampleChecker context parses_clashingScript (fun _ _ _ _ _ => ?_)
      hfull (evalScript_clashingScript ?_)
    · exact fun heq => by cases heq
    · rw [hflag, decide_eq_false hbelow]
  · exact evalScript_of_parses hchecker (by rw [hflag, decide_eq_true h]) hparses

end Check

section Sample

attribute [local instance] Crypto.toy

/-- In the first block of the main network the script is accepted as an output and fails at the check
when it is spent. -/
theorem clashing_output_unspendable :
    Parses clashingScript ∧ sampleChecker.Decides ∧ ∃ context : ScriptExecutionContext,
      context.limited = false ∧
      evalScript ⟨getNextBlockScriptFlags mainParams (.genesis mainParams.hashGenesisBlock 0),
        sampleChecker, some context⟩ [] clashingScript = disallowedPushRef := by
  obtain ⟨context, hfull⟩ := exists_fullContext
  refine ⟨parses_clashingScript, fun _ _ _ _ _ heq => ?_, context, hfull,
    evalScript_clashingScript ?_⟩
  · cases heq
  · exact (hasFlag_getNextBlockScriptFlags mainParams _).2.trans (by decide)

end Sample

end RadiantCore
