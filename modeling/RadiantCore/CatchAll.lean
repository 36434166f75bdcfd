import RadiantCore.ExecutedRefs
import RadiantCore.StackSwitch

/-!
# What the handler of the interpreter catches

The loop of `EvalScript` stands in a `try` whose handler turns whatever is thrown into the error
`UNKNOWN`. With the coins and outputs of a transaction in range and a checker that does not throw,
the handler sees only what `CScriptNum` throws for a number on the stack that is too long or not
minimal (`throws_only_numbers`) : the accesses to the stack, to the coins of the context and to
optional numbers are all guarded.

The range of the outputs is needed. `OP_OUTPUTVALUE` takes the value of
`CScriptNum::fromInt(output.nValue)`, and the least 64-bit integer has no script number.
-/

namespace RadiantCore

open Opcode List

section Handler

variable [Crypto]

/-! ## The amounts of a context -/

namespace RefSummary

/-- An entry that is not negative leaves the value sums of the references non-negative. -/
theorem getRefValueSum_nonneg_of_calculate {side side' : RefSummary} {entry : CTxOut × ℕ}
    (hvalue : 0 ≤ entry.1.amount) (h : calculatePrecomputedStateForScript side entry = .ok side')
    {r : Uint288} (hside : 0 ≤ side.getRefValueSum r) : 0 ≤ side'.getRefValueSum r := by
  by_cases hr : r = Blob.null
  swap
  · rw [(adds_of_calculate h).refValueSum r hr]
    split_ifs
    · exact add_nonneg hside hvalue
    · rwa [add_zero]
  obtain ⟨out, index⟩ := entry
  obtain ⟨refs, hrefs, -⟩ := refs_of_calculate h
  simp only [calculatePrecomputedStateForScript, hrefs] at h
  obtain rfl := Except.ok.inj h
  change 0 ≤ (addRefAssets _ _ _).getRefValueSum r
  unfold addRefAssets
  split_ifs
  · -- The first entry without references is filed, and a later one changes nothing.
    subst hr
    simp only [getRefValueSum, insertNew, Function.update_self, Option.getD_some] at hside ⊢
    cases hmap : side.refAssetIdToAmountMap Blob.null with
    | none => exact hvalue
    | some v => simpa [hmap] using hside
  · rw [(foldl_addRefAsset _ (refs.pushRefSet.sort_nodup (· ≤ ·)) _ r).1]
    split_ifs
    · exact add_nonneg hside hvalue
    · rwa [add_zero]

theorem getRefValueSum_nonneg {entries : List CTxOut} {side : RefSummary}
    (hvalues : ∀ out ∈ entries, 0 ≤ out.amount) (h : initializeSummary entries = .ok side)
    (r : Uint288) : 0 ≤ side.getRefValueSum r := by
  refine foldlM_inv (fun side => 0 ≤ side.getRefValueSum r) (fun s e he s' hs hstep => ?_)
    (Int.le_refl 0) h
  exact getRefValueSum_nonneg_of_calculate (hvalues e.1 (fst_mem_of_mem_zipIdx he)) hstep hs

end RefSummary

namespace ScriptExecutionContext

/-- No coin and no output of the context is negative, and their totals are at most `MAX_MONEY`. -/
def AmountsInRange (context : ScriptExecutionContext) : Prop :=
  RefSummary.MoneyTotal (context.shared.inputCoins.map Coin.out) ∧
    RefSummary.MoneyTotal context.tx.vout

omit [Crypto] in
theorem number_failsOnly_of_nonneg {err : ScriptFailure → Prop} {x : ℤ} (h : 0 ≤ x) :
    FailsOnly err (number x) := number_failsOnly (by omega)

/-- A context with its amounts in range has a number for each of them. -/
theorem AmountsInRange.permitted {context : ScriptExecutionContext} (h : context.AmountsInRange)
    (err : ScriptFailure → Prop) : context.AmountsPermitted err := by
  obtain ⟨hcoins, houts⟩ := h
  have hsides : ∀ side ∈ [context.shared.inputs, context.shared.outputs],
      ∃ entries, RefSummary.MoneyTotal entries ∧ RefSummary.initializeSummary entries = .ok side := by
    simp only [forall_mem_cons, not_mem_nil, false_implies, implies_true, and_true]
    exact ⟨⟨_, hcoins, context.shared.inputs_eq⟩, _, houts, context.shared.outputs_eq⟩
  refine ⟨fun c hc => ?_, fun out hout => ?_, ?_, ?_, fun side hside x => ?_, fun side hside r => ?_,
    fun side hside x => ?_⟩
  · exact number_failsOnly_of_nonneg (hcoins.1 c.out (mem_map_of_mem hc))
  · exact number_failsOnly_of_nonneg (houts.1 out hout)
  · refine number_failsOnly_of_nonneg (sum_nonneg (forall_mem_map.mpr fun c hc => ?_))
    exact hcoins.1 c.out (mem_map_of_mem hc)
  · exact number_failsOnly_of_nonneg (sum_nonneg (forall_mem_map.mpr houts.1))
  all_goals
    obtain ⟨entries, hmoney, hinit⟩ := hsides side hside
    have hrange := (RefSummary.exact_of_initializeSummary hinit).inRange hmoney
  · exact number_failsOnly_of_nonneg (moneyRange_iff.mp (hrange.refHashValueSum x)).1
  · exact number_failsOnly_of_nonneg (RefSummary.getRefValueSum_nonneg hmoney.1 hinit r)
  · exact number_failsOnly_of_nonneg (moneyRange_iff.mp (hrange.codeScriptHashValueSum x)).1

end ScriptExecutionContext

/-! ## What is thrown -/

/-- A script error, or what `CScriptNum` throws for a malformed number. -/
def ScriptFailure.FromNumber : ScriptFailure → Prop
  | .error _ => True
  | .exception what =>
    what = "script number overflow" ∨ what = "non-minimally encoded script number"
  | .abort _ => False

omit [Crypto] in
theorem permits_fromNumber : Permits ScriptFailure.FromNumber :=
  ⟨fun _ _ => trivial, Or.inl rfl, Or.inr rfl⟩

/-- The handler of `EvalScript` is entered only because a number on the stack is too long or not
minimal : no access to the stack, the context or an optional number throws. -/
theorem throws_only_numbers (flags : UInt32) (checker : BaseSignatureChecker)
    (context : ScriptExecutionContext) (stack : Stack) (script : CScript)
    (hchecker : ∀ vchSig vchPubKey scriptCode flags,
      ∃ fOk, checker.checkSig vchSig vchPubKey scriptCode flags = .ok fOk)
    (hamounts : context.AmountsInRange) (e : ScriptFailure)
    (he : EvalScript.evalLoop ⟨flags, checker, some context⟩ (scriptOps script)
      { stack := stack, pbegincodehash := script } = .error e) : e.FromNumber := by
  have hsig : ∀ vchSig vchPubKey scriptCode flags,
      FailsOnly ScriptFailure.FromNumber
        (checker.checkSig vchSig vchPubKey scriptCode flags) := by
    intro vchSig vchPubKey scriptCode flags
    obtain ⟨fOk, hok⟩ := hchecker vchSig vchPubKey scriptCode flags
    rw [hok]
    exact .ok
  have hcontext : ∀ c ∈ some context, c.AmountsPermitted ScriptFailure.FromNumber := by
    rintro c ⟨⟩
    exact hamounts.permitted _
  have hloop : Ends (evalLoop ⟨flags, checker, some context⟩ (scriptOps script)
      { stack := stack, pbegincodehash := script }) ScriptFailure.FromNumber fun _ => True := by
    refine evalLoop_ends (fun _ => True) trivial (fun op st _ _ => ?_)
      (everyStep_of_mem fun _ _ _ => trivial) trivial
    exact (evalOp_records permits_fromNumber hcontext hsig st).imp fun _ _ _ => trivial
  rw [EvalScript.evalLoop_eq] at he
  rw [he] at hloop
  exact hloop

end Handler

section Sample

attribute [local instance] Crypto.toy

/-- The state at the begin of a script, with an empty stack. -/
def initialState (script : CScript) : EvalState := { stack := [], pbegincodehash := script }

theorem throws_only_numbers_sample :
    ∃ context : ScriptExecutionContext, context.limited = false ∧ context.AmountsInRange ∧
      ∃ e, EvalScript.evalLoop ⟨0, sampleChecker, some context⟩
        (scriptOps [0x05, 1, 2, 3, 4, 5, OP_1ADD.toByte])
        (initialState [0x05, 1, 2, 3, 4, 5, OP_1ADD.toByte]) = .error e ∧ e.FromNumber := by
  have hok : ∃ shared ∈ (ScriptExecutionContext.Shared.make (sampleContextTx 1 2)
      sampleContextCoins rfl).toOption,
      RefSummary.MoneyTotal (shared.inputCoins.map Coin.out) ∧
      Ends (EvalScript.evalLoop ⟨0, sampleChecker,
          some ⟨sampleContextTx 1 2, shared, ⟨0, by decide⟩, false⟩⟩
        (scriptOps [0x05, 1, 2, 3, 4, 5, OP_1ADD.toByte])
        (initialState [0x05, 1, 2, 3, 4, 5, OP_1ADD.toByte]))
        (· = .exception "script number overflow") fun _ => False := by
    decide +kernel
  obtain ⟨shared, -, hcoins, hloop⟩ := hok
  have hamounts : ScriptExecutionContext.AmountsInRange
      ⟨sampleContextTx 1 2, shared, ⟨0, by decide⟩, false⟩ :=
    ⟨hcoins, show RefSummary.MoneyTotal (sampleContextTx 1 2).vout by decide +kernel⟩
  exact ⟨_, rfl, hamounts, _, hloop.eq_error, throws_only_numbers 0 sampleChecker _ [] _
    (fun _ _ _ _ => ⟨false, rfl⟩) hamounts _ hloop.eq_error⟩

/-- An output of the least 64-bit value makes `OP_OUTPUTVALUE` throw. -/
theorem outputValue_throws :
    ∃ context : ScriptExecutionContext, context.limited = false ∧
      RefSummary.MoneyTotal (context.shared.inputCoins.map Coin.out) ∧
      EvalScript.evalLoop
        ⟨setFlag 0 .SCRIPT_NATIVE_INTROSPECTION true, sampleChecker, some context⟩
        (scriptOps [OP_0.toByte, OP_OUTPUTVALUE.toByte])
        (initialState [OP_0.toByte, OP_OUTPUTVALUE.toByte]) =
          .error (.exception "bad optional access") := by
  have hok : ∃ shared ∈ (ScriptExecutionContext.Shared.make (sampleContextTx Int64.minValue 0)
      sampleContextCoins rfl).toOption,
      RefSummary.MoneyTotal (shared.inputCoins.map Coin.out) ∧
      Ends (EvalScript.evalLoop ⟨setFlag 0 .SCRIPT_NATIVE_INTROSPECTION true, sampleChecker,
          some ⟨sampleContextTx Int64.minValue 0, shared, ⟨0, by decide⟩, false⟩⟩
        (scriptOps [OP_0.toByte, OP_OUTPUTVALUE.toByte])
        (initialState [OP_0.toByte, OP_OUTPUTVALUE.toByte]))
        (· = .exception "bad optional access") fun _ => False := by
    decide +kernel
  obtain ⟨shared, -, hcoins, hloop⟩ := hok
  exact ⟨_, rfl, hcoins, hloop.eq_error⟩

end Sample

end RadiantCore
