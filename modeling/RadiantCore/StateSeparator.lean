import Mathlib.Data.List.TakeWhile
import RadiantCore.LimitedContext

/-!
# State separators

An `OP_STATESEPARATOR` splits a script into a state part and a code part. `GetPushRefs` accepts
at most one of them, and only when no `OP_RETURN` stands before it (`Parses.separator`). What a read
consumes does not depend on what follows (`getScriptOp_consumed`), so the state part is
read as the same operations on its own, and a byte of an operand is never taken for the separator
(`scriptOps_state`).

The scan does not look at an `OP_RETURN` after the separator, and not at what else stands before
it (`return_separator_iff`, `state_data_iff`).
-/

namespace RadiantCore

open List Opcode PushRefScan

/-! ## Reading a part of a script -/

/-- A read with another rest of the script. -/
def ScriptOp.withRest (op : ScriptOp) (pc : CScript) : ScriptOp := { op with pc := pc }

theorem pushSize_consumed {opcode : UInt8} {pc rest : CScript} {n : ℕ}
    (h : pushSize opcode pc = some (n, rest)) :
    ∃ c, pc = c ++ rest ∧ ∀ t, pushSize opcode (c ++ t) = some (n, t) := by
  unfold pushSize at h
  by_cases hshort : pc.length < sizeWidth opcode
  · rw [if_pos hshort] at h
    cases h
  · rw [if_neg hshort] at h
    obtain ⟨rfl, rfl⟩ := Prod.mk.inj (Option.some.inj h)
    have hlen : (pc.take (sizeWidth opcode)).length = sizeWidth opcode := by
      rw [length_take]
      omega
    refine ⟨pc.take (sizeWidth opcode), (take_append_drop _ _).symm, fun t => ?_⟩
    rw [pushSize, if_neg (by rw [length_append]; omega), take_left' hlen,
      drop_left' hlen]

variable {s : CScript} {op : ScriptOp}

/-- What a read consumes, and that it reads the same whatever follows. -/
theorem getScriptOp_consumed (h : getScriptOp s = some op) :
    ∃ c, s = c ++ op.pc ∧ ∀ t, getScriptOp (c ++ t) = some (op.withRest t) := by
  cases s with
  | nil => cases h
  | cons opcode pc =>
    obtain ⟨n, rest, hoperand, hle, hop, hvch, hpc⟩ := getScriptOp_cons_iff.mp h
    obtain ⟨c, rfl, hc⟩ : ∃ c, pc = c ++ rest ∧ ∀ t, operandAt opcode (c ++ t) = some (n, t) := by
      unfold operandAt at hoperand ⊢
      by_cases hpush : opcode ≤ OP_PUSHDATA4
      · simp only [if_pos hpush] at hoperand ⊢
        exact pushSize_consumed hoperand
      · simp only [if_neg hpush] at hoperand ⊢
        obtain ⟨rfl, rfl⟩ := Prod.mk.inj (Option.some.inj hoperand)
        exact ⟨[], rfl, fun t => rfl⟩
    have htake : (rest.take n).length = n := length_take_of_le hle
    refine ⟨opcode :: (c ++ rest.take n), by simp [← hpc], fun t => ?_⟩
    rw [cons_append, append_assoc, getScriptOp_cons_iff]
    refine ⟨n, _, hc _, by simp [htake], hop, ?_, drop_left' htake⟩
    rw [take_left' htake, hvch]
    rfl

/-- A separator is a byte of its own. -/
theorem eq_cons_of_separator (h : getScriptOp s = some op)
    (hop : op.opcode = OP_STATESEPARATOR) : s = OP_STATESEPARATOR.toByte :: op.pc := by
  cases s with
  | nil => cases h
  | cons opcode pc =>
    obtain ⟨n, rest, hoperand, -, rfl, -, hpc⟩ := getScriptOp_cons_iff.mp h
    rw [hop] at hoperand ⊢
    obtain ⟨rfl, rfl⟩ : 0 = n ∧ pc = rest := Prod.mk.inj (Option.some.inj hoperand)
    rw [← hpc, drop_zero]

/-- The opcode of a read, if it succeeds. -/
def readOpcode (read : Option ScriptOp) : Option UInt8 := read.map ScriptOp.opcode

variable {pre post : List (Option ScriptOp)} {sep : ScriptOp}

/-- The part of a script before a separator is read as the operations before it. -/
theorem scriptOps_state
    (h : scriptOps s = pre ++ some sep :: post) (hsep : sep.opcode = OP_STATESEPARATOR) :
    ∃ state, s = state ++ OP_STATESEPARATOR.toByte :: sep.pc ∧
      (scriptOps state).map readOpcode = pre.map readOpcode := by
  induction pre generalizing s with
  | nil =>
    cases s with
    | nil => simp at h
    | cons b s =>
      cases hread : getScriptOp (b :: s) with
      | none => simp [scriptOps_of_none hread] at h
      | some op =>
        rw [scriptOps_of_some hread, nil_append] at h
        obtain ⟨hop, -⟩ := cons.inj h
        obtain rfl := Option.some.inj hop
        exact ⟨[], eq_cons_of_separator hread hsep, rfl⟩
  | cons o pre ih =>
    cases s with
    | nil => simp at h
    | cons b s =>
      cases hread : getScriptOp (b :: s) with
      | none => simp [scriptOps_of_none hread] at h
      | some op =>
        rw [scriptOps_of_some hread, cons_append] at h
        obtain ⟨rfl, hrest⟩ := cons.inj h
        obtain ⟨c, hc, hconsumed⟩ := getScriptOp_consumed hread
        obtain ⟨state, hstate, hops⟩ := ih hrest
        refine ⟨c ++ state, by rw [hc, hstate, append_assoc], ?_⟩
        rw [scriptOps_of_some (hconsumed state), map_cons, map_cons, ← hops]
        rfl

/-! ## What the scan rejects -/

/-- The reads have an operation with the opcode. -/
def HasOp (ops : List (Option ScriptOp)) (opcode : Opcode) : Prop :=
  ∃ op, some op ∈ ops ∧ op.opcode = opcode.toByte

@[simp] theorem hasOp_nil (opcode : Opcode) : ¬ HasOp [] opcode := by simp [HasOp]

variable {ops : List (Option ScriptOp)} {opcode : Opcode}

@[simp] theorem hasOp_cons :
    HasOp (some op :: ops) opcode ↔ op.opcode = opcode.toByte ∨ HasOp ops opcode := by
  simp [HasOp, or_and_right, exists_or]

theorem hasOp_append {ops' : List (Option ScriptOp)} :
    HasOp (ops ++ ops') opcode ↔ HasOp ops opcode ∨ HasOp ops' opcode := by
  simp [HasOp, or_and_right, exists_or]

namespace PushRefScan

variable {scan scan' : PushRefScan}

/-- What an iteration does to the flags, and which separators it rejects. -/
theorem step_flags {op : ScriptOp} (h : scan.step op = some scan') :
    (scan'.isExistingOpReturn ↔ scan.isExistingOpReturn ∨ op.opcode = OP_RETURN) ∧
      (scan'.isExistingStateSeperator ↔
        scan.isExistingStateSeperator ∨ op.opcode = OP_STATESEPARATOR) ∧
      (op.opcode = OP_STATESEPARATOR →
        ¬ scan.isExistingStateSeperator ∧ ¬ scan.isExistingOpReturn) := by
  obtain ⟨hret, hexists, -⟩ := addRefs_flags { scan with
    isExistingOpReturn := scan.isExistingOpReturn || op.opcode = OP_RETURN } op
  simp only [step] at h
  generalize addRefs _ op = mid at h hret hexists
  split_ifs at h with hop hbad
  · simp only [Bool.or_eq_true, not_or, Bool.not_eq_true] at hbad
    rw [hexists, hret] at hbad
    simp only [Bool.or_eq_false_iff, decide_eq_false_iff_not] at hbad
    obtain rfl := Option.some.inj h
    simp [hret, hop, hbad]
  · obtain rfl := Option.some.inj h
    simp [hret, hexists, hop]

variable {ops : List (Option ScriptOp)}

theorem run_append {ops' : List (Option ScriptOp)} :
    run (ops ++ ops') scan = (run ops scan).bind (run ops') := by
  induction ops generalizing scan with
  | nil => rfl
  | cons read ops ih =>
    cases read with
    | none => rfl
    | some op =>
      rw [cons_append, run, run]
      cases scan.step op with
      | none => rfl
      | some mid => exact ih

theorem run_flags (h : run ops scan = some scan') :
    (scan'.isExistingOpReturn ↔ scan.isExistingOpReturn ∨ HasOp ops OP_RETURN) ∧
      (scan'.isExistingStateSeperator ↔
        scan.isExistingStateSeperator ∨ HasOp ops OP_STATESEPARATOR) ∧
      (scan.isExistingStateSeperator → ¬ HasOp ops OP_STATESEPARATOR) := by
  induction ops generalizing scan with
  | nil =>
    obtain rfl := Option.some.inj h
    simp
  | cons read ops ih =>
    cases read with
    | none => cases h
    | some op =>
      obtain ⟨mid, hmid, hrest⟩ := Option.bind_eq_some_iff.mp h
      obtain ⟨hret, hsep, honly⟩ := step_flags hmid
      obtain ⟨ihret, ihsep, ihonly⟩ := ih hrest
      refine ⟨by rw [ihret, hret, hasOp_cons, or_assoc], by rw [ihsep, hsep, hasOp_cons, or_assoc],
        fun hexists => ?_⟩
      rw [hasOp_cons, not_or]
      exact ⟨fun hop => (honly hop).1 hexists, ihonly (hsep.mpr (Or.inl hexists))⟩

end PushRefScan

theorem Parses.run (h : Parses s) :
    ∃ scan, run (scriptOps s) {} = some scan := by
  obtain ⟨refs, hrefs⟩ := h
  obtain ⟨scan, hrun, -⟩ := getPushRefs_eq_some hrefs
  exact ⟨scan, hrun⟩

/-- An accepted script has no second separator, and no `OP_RETURN` before its separator. -/
theorem Parses.separator (h : Parses s) (hops : scriptOps s = pre ++ some sep :: post)
    (hsep : sep.opcode = OP_STATESEPARATOR) :
    ¬ HasOp pre OP_STATESEPARATOR ∧ ¬ HasOp post OP_STATESEPARATOR ∧ ¬ HasOp pre OP_RETURN := by
  obtain ⟨scan, hrun⟩ := h.run
  rw [hops, run_append] at hrun
  obtain ⟨before, hbefore, hrest⟩ := Option.bind_eq_some_iff.mp hrun
  obtain ⟨after, hstep, hafter⟩ := Option.bind_eq_some_iff.mp hrest
  obtain ⟨hret, hexists, -⟩ := run_flags hbefore
  obtain ⟨-, hfound, honly⟩ := step_flags hstep
  have hpost := (run_flags hafter).2.2 (hfound.mpr (Or.inr hsep))
  refine ⟨fun hpre => (honly hsep).1 (hexists.mpr (Or.inr hpre)), hpost,
    fun hpre => (honly hsep).2 (hret.mpr (Or.inr hpre))⟩

theorem hasOp_iff_split :
    HasOp ops opcode ↔
      ∃ (pre : List (Option ScriptOp)) (op : ScriptOp) (post : List (Option ScriptOp)),
        ops = pre ++ some op :: post ∧ op.opcode = opcode.toByte := by
  constructor
  · rintro ⟨op, hmem, hop⟩
    obtain ⟨pre, post, hops⟩ := append_of_mem hmem
    exact ⟨pre, op, post, hops, hop⟩
  · rintro ⟨pre, op, post, rfl, hop⟩
    exact ⟨op, by simp, hop⟩

/-- A read that is not a separator. -/
def notSeparator (read : Option ScriptOp) : Bool := readOpcode read ≠ some OP_STATESEPARATOR.toByte

theorem not_hasOp_separator_iff :
    ¬ HasOp ops OP_STATESEPARATOR ↔ ∀ read ∈ ops, notSeparator read = true := by
  simp [HasOp, notSeparator, readOpcode, Option.forall]

/-- The reads before and after the only separator. -/
theorem Parses.span (h : Parses s) (hops : scriptOps s = pre ++ some sep :: post)
    (hsep : sep.opcode = OP_STATESEPARATOR) :
    (scriptOps s).takeWhile notSeparator = pre ∧
      (scriptOps s).dropWhile notSeparator = some sep :: post := by
  have hpre := not_hasOp_separator_iff.mp (h.separator hops hsep).1
  have hnot : notSeparator (some sep) = false := by simp [notSeparator, readOpcode, hsep]
  rw [hops, takeWhile_append_of_pos hpre, dropWhile_append_of_pos hpre]
  simp [hnot]

/-! ## `OP_RETURN` and the separator -/

/-- An `OP_RETURN` stands after the first separator. -/
def returnAfterSeparator (s : CScript) : Bool :=
  ((scriptOps s).dropWhile notSeparator).any fun read => readOpcode read = some OP_RETURN.toByte

theorem hasOp_iff_any :
    HasOp ops opcode ↔ (ops.any fun read => readOpcode read = some opcode.toByte) = true := by
  simp [HasOp, readOpcode]

/-- An accepted script has not both an `OP_RETURN` and a separator, unless the `OP_RETURN` comes
after the separator. -/
theorem return_separator_iff (s : CScript) (h : Parses s) :
    ¬ (HasOp (scriptOps s) OP_RETURN ∧ HasOp (scriptOps s) OP_STATESEPARATOR) ↔
      returnAfterSeparator s = false := by
  rw [← Bool.not_eq_true, not_iff_not, returnAfterSeparator, ← hasOp_iff_any]
  constructor
  · rintro ⟨hret, hsep⟩
    obtain ⟨pre, sep, post, hops, hop⟩ := hasOp_iff_split.mp hsep
    rw [(h.span hops hop).2]
    rw [hops, hasOp_append] at hret
    exact hret.resolve_left (h.separator hops hop).2.2
  · intro hret
    have hdrop : (scriptOps s).takeWhile notSeparator ++ (scriptOps s).dropWhile notSeparator =
        scriptOps s := takeWhile_append_dropWhile
    refine ⟨?_, ?_⟩
    · rw [← hdrop, hasOp_append]
      exact Or.inr hret
    · by_contra hnone
      rw [dropWhile_eq_nil_iff.mpr (not_hasOp_separator_iff.mp hnone)] at hret
      exact hasOp_nil _ hret

/-- `OP_STATESEPARATOR OP_RETURN` is accepted. -/
theorem return_after_separator_accepted :
    Parses [0xbd, 0x6a] ∧ HasOp (scriptOps [0xbd, 0x6a]) OP_RETURN ∧
      HasOp (scriptOps [0xbd, 0x6a]) OP_STATESEPARATOR := by
  refine ⟨by decide, ⟨⟨0x6a, [], [], by decide⟩, by decide, rfl⟩,
    ⟨⟨0xbd, [], [0x6a], by decide⟩, by decide, rfl⟩⟩

/-- A push and a separator. -/
theorem return_separator_iff_push :
    ¬ (HasOp (scriptOps [0x51, 0xbd]) OP_RETURN ∧
      HasOp (scriptOps [0x51, 0xbd]) OP_STATESEPARATOR) :=
  (return_separator_iff [0x51, 0xbd] (by decide)).mpr (by decide)

/-! ## The operations before the separator -/

variable {read : Option ScriptOp}

/-- A script is its state part, a separator and its code part, with the offset of the code part; a
script without a separator is all code. -/
structure Decomposes (s state code : CScript) (index : ℕ) : Prop where
  separated : HasOp (scriptOps s) OP_STATESEPARATOR →
    state ++ [OP_STATESEPARATOR.toByte] ++ code = s ∧
      ¬ HasOp (scriptOps state) OP_STATESEPARATOR ∧ index = state.length + 1
  whole : ¬ HasOp (scriptOps s) OP_STATESEPARATOR → state = [] ∧ code = s ∧ index = 0

variable {refs : PushRefs}

theorem afterSeparator_of_notSeparator (h : notSeparator read = true) :
    afterSeparator read = none := by
  cases read with
  | none => rfl
  | some op =>
    have hop : ¬ op.opcode = OP_STATESEPARATOR := by simpa [notSeparator, readOpcode] using h
    simp [afterSeparator, hop]

theorem hasOp_iff_mem_map :
    HasOp ops opcode ↔ some opcode.toByte ∈ ops.map readOpcode := by
  simp [HasOp, readOpcode]

/-- The offset of an accepted script splits it. -/
theorem decomposes_of_getPushRefs (h : getPushRefs s = some refs) :
    Decomposes s (s.take (refs.stateSeperatorByteIndex - 1))
      (s.drop refs.stateSeperatorByteIndex) refs.stateSeperatorByteIndex := by
  have hparses : Parses s := ⟨refs, h⟩
  rw [stateSeperatorByteIndex_eq h]
  constructor
  · intro hsep
    obtain ⟨pre, sep, post, hops, hop⟩ := hasOp_iff_split.mp hsep
    obtain ⟨state, hstate, hread⟩ := scriptOps_state hops hop
    have hpre := (hparses.separator hops hop).1
    have hfind : (scriptOps s).findSome? afterSeparator = some sep.pc := by
      have hnone : pre.findSome? afterSeparator = none := findSome?_eq_none_iff.mpr
        fun read hmem => afterSeparator_of_notSeparator (not_hasOp_separator_iff.mp hpre read hmem)
      rw [hops, findSome?_append, hnone]
      simp [afterSeparator, hop]
    have hindex : s.length - sep.pc.length = state.length + 1 := by
      rw [hstate, length_append, length_cons]
      omega
    have hnot : ¬ HasOp (scriptOps state) OP_STATESEPARATOR := by
      rw [hasOp_iff_mem_map, hread, ← hasOp_iff_mem_map]
      exact hpre
    rw [hfind, Option.map_some, Option.getD_some, hindex, Nat.add_sub_cancel]
    have htake : s.take state.length = state := by rw [hstate, take_left]
    have hdrop : s.drop (state.length + 1) = sep.pc := by
      rw [hstate, ← drop_drop, drop_left]
      rfl
    rw [htake, hdrop]
    exact ⟨by rw [hstate]; simp, hnot, rfl⟩
  · intro hsep
    have hfind : (scriptOps s).findSome? afterSeparator = none := findSome?_eq_none_iff.mpr
      fun read hmem => afterSeparator_of_notSeparator (not_hasOp_separator_iff.mp hsep read hmem)
    rw [hfind]
    exact ⟨rfl, rfl, rfl⟩

section Context

variable [Crypto]

namespace RefSummary

/-- What a summary knows of the parts of a script : the three offsets agree and split it, and the
hash is that of the code part. -/
theorem Indexed.decomposes {side : RefSummary} {entries : List CTxOut} (h : side.Indexed entries)
    {i : ℕ} {out : CTxOut} (hi : entries[i]? = some out) :
    Decomposes out.scriptPubKey
        (out.scriptPubKey.take (side.getStateSeparatorByteIndex i - 1))
        (out.scriptPubKey.drop (side.getStateSeparatorByteIndex i))
        (side.getStateSeparatorByteIndex i) ∧
      side.getStateSeperatorIndex i = side.getStateSeparatorByteIndex i ∧
      side.scriptSummaries[i]?.map PushRefScriptSummary.codeScriptHash =
        some (hash256 (out.scriptPubKey.drop (side.getStateSeparatorByteIndex i))) := by
  obtain ⟨refs, hentry⟩ := h.entry i out hi
  have hbyte : side.getStateSeparatorByteIndex i = refs.stateSeperatorByteIndex := by
    rw [getStateSeparatorByteIndex, hentry.scriptSummary]
    rfl
  have hindex : side.getStateSeperatorIndex i = refs.stateSeperatorByteIndex := by
    rw [getStateSeperatorIndex, hentry.stateSeperatorIndex]
    rfl
  rw [hbyte, hindex, hentry.scriptSummary]
  refine ⟨decomposes_of_getPushRefs hentry.getPushRefs_eq, rfl, ?_⟩
  rw [Option.map_some, codeScriptHashOf_eq hentry.getPushRefs_eq, CTxOut.codeScriptHash,
    drop_stateSeperatorByteIndex hentry.getPushRefs_eq]

end RefSummary

namespace ScriptExecutionContext

variable {context : ScriptExecutionContext} {flags : UInt32} {x : Valtype} {s : Stack}

variable {i : Fin context.tx.vin.length}

theorem inputQuery_of_scriptNum (hx : scriptNum flags x = .ok (i.val : ℤ))
    (f : Fin context.tx.vin.length → Except ScriptFailure Valtype) :
    context.inputQuery flags f (x :: s) = (do let vch ← f i; return vch :: s) := by
  have hrange : (0 : ℤ) ≤ i.val ∧ i.val < context.tx.vin.length := ⟨by omega, i.isLt⟩
  simp only [inputQuery, hx, ok_bind, Int.toNat_natCast, dif_pos hrange]

theorem utxoQuery_of_scriptNum (hfull : context.limited = false)
    (hx : scriptNum flags x = .ok (i.val : ℤ))
    (f : Fin context.tx.vin.length → Except ScriptFailure Valtype) :
    context.utxoQuery flags f (x :: s) = (do let vch ← f i; return vch :: s) := by
  rw [utxoQuery, inputQuery_of_scriptNum hx]
  simp [hfull]

theorem outputQuery_of_scriptNum {i : Fin context.tx.vout.length}
    (hx : scriptNum flags x = .ok (i.val : ℤ))
    (f : Fin context.tx.vout.length → Except ScriptFailure Valtype) :
    context.outputQuery flags f (x :: s) = (do let vch ← f i; return vch :: s) := by
  have hrange : (0 : ℤ) ≤ i.val ∧ i.val < context.tx.vout.length := ⟨by omega, i.isLt⟩
  simp only [outputQuery, hx, ok_bind, Int.toNat_natCast, dif_pos hrange]

variable {script : CScript}

omit [Crypto] in
theorem stateBytecode_eq (h : script.length ≤ maxScriptElementSize) (index : ℕ) :
    stateBytecode script index = .ok (script.take (index - 1)) := by
  rw [stateBytecode, bytecode, if_neg (not_lt.mpr h), ok_bind]
  split_ifs with hpos
  · rfl
  · obtain rfl : index = 0 := by omega
    rfl

omit [Crypto] in
theorem codeBytecode_eq (h : script.length ≤ maxScriptElementSize) (index : ℕ) :
    codeBytecode script index = .ok (script.drop index) := by
  rw [codeBytecode, bytecode, if_neg (not_lt.mpr h), ok_bind]
  rfl

omit [Crypto] in
theorem number_natCast (n : ℕ) : number n = .ok (CScriptNum.serialize n) := by
  have hvalid : CScriptNum.valid64BitRange n = true := by
    rw [CScriptNum.valid64BitRange, decide_eq_true_iff]
    omega
  rw [number, CScriptNum.fromInt, require_pos hvalid]
  rfl

theorem coinScriptPubKey_eq {i : ℕ} {coin : Coin} (h : context.shared.inputCoins[i]? = some coin) :
    context.coinScriptPubKey i = .ok coin.out.scriptPubKey := by
  simp only [coinScriptPubKey, ScriptExecutionContext.coin, h, ok_bind]
  rfl

end ScriptExecutionContext

/-- The cases of the switch that ask the context about references. -/
theorem execOp_references (env : EvalEnv) (fExec : Bool) (op : ScriptOp) (st : EvalState)
    {context : ScriptExecutionContext} (hcontext : env.context = some context)
    (hflag : hasFlag env.flags .SCRIPT_NATIVE_INTROSPECTION = true ∧
      hasFlag env.flags .SCRIPT_ENHANCED_REFERENCES = true) {opcode : Opcode}
    (hop : opcode ∈ [OP_STATESCRIPTBYTECODE_UTXO, OP_STATESCRIPTBYTECODE_OUTPUT,
      OP_CODESCRIPTBYTECODE_UTXO, OP_CODESCRIPTBYTECODE_OUTPUT, OP_STATESEPARATORINDEX_UTXO,
      OP_STATESEPARATORINDEX_OUTPUT]) :
    execOp env fExec op opcode st =
      st.onStack (context.references env.flags opcode st.stack) := by
  have hquery : queryContext env.flags (requiredFlag opcode) env.context = .ok context := by
    have hset : ∀ flag ∈ requiredFlag opcode, hasFlag env.flags flag = true := by
      simp only [mem_cons, not_mem_nil, or_false] at hop
      rcases hop with rfl | rfl | rfl | rfl | rfl | rfl <;> simp [requiredFlag, hflag]
    rw [hcontext]
    unfold queryContext
    rw [require_pos hset]
    rfl
  have hexec : execOp env fExec op opcode st = st.onStack (do
      let context ← queryContext env.flags (requiredFlag opcode) env.context
      context.references env.flags opcode st.stack) := by
    simp only [mem_cons, not_mem_nil, or_false] at hop
    rcases hop with rfl | rfl | rfl | rfl | rfl | rfl <;> rfl
  rw [hexec, hquery, ok_bind]

open ScriptExecutionContext in
/-- The opcodes that return the parts of a spent script or of an output, and the offset of the code
part, decompose the script; the hash in the metrics is that of the code part. -/
theorem state_code_decomposition (env : EvalEnv) (fExec : Bool) (op : ScriptOp) (st : EvalState)
    (context : ScriptExecutionContext) (hcontext : env.context = some context)
    (hfull : context.limited = false)
    (hflag : hasFlag env.flags .SCRIPT_NATIVE_INTROSPECTION = true ∧
      hasFlag env.flags .SCRIPT_ENHANCED_REFERENCES = true) (x : Valtype) (s : Stack) :
    (∀ (i : Fin context.tx.vin.length) (coin : Coin), scriptNum env.flags x = .ok (i.val : ℤ) →
      context.shared.inputCoins[i.val]? = some coin →
      coin.out.scriptPubKey.length ≤ maxScriptElementSize →
      ∃ state code index, Decomposes coin.out.scriptPubKey state code index ∧
        execOp env fExec op OP_STATESCRIPTBYTECODE_UTXO { st with stack := x :: s } =
          .ok (.next { st with stack := state :: s }) ∧
        execOp env fExec op OP_CODESCRIPTBYTECODE_UTXO { st with stack := x :: s } =
          .ok (.next { st with stack := code :: s }) ∧
        execOp env fExec op OP_STATESEPARATORINDEX_UTXO { st with stack := x :: s } =
          .ok (.next { st with stack := CScriptNum.serialize index :: s }) ∧
        context.shared.inputs.scriptSummaries[i.val]?.map PushRefScriptSummary.codeScriptHash =
          some (hash256 code)) ∧
    (∀ i : Fin context.tx.vout.length, scriptNum env.flags x = .ok (i.val : ℤ) →
      (context.tx.vout.get i).scriptPubKey.length ≤ maxScriptElementSize →
      ∃ state code index, Decomposes (context.tx.vout.get i).scriptPubKey state code index ∧
        execOp env fExec op OP_STATESCRIPTBYTECODE_OUTPUT { st with stack := x :: s } =
          .ok (.next { st with stack := state :: s }) ∧
        execOp env fExec op OP_CODESCRIPTBYTECODE_OUTPUT { st with stack := x :: s } =
          .ok (.next { st with stack := code :: s }) ∧
        execOp env fExec op OP_STATESEPARATORINDEX_OUTPUT { st with stack := x :: s } =
          .ok (.next { st with stack := CScriptNum.serialize index :: s }) ∧
        context.shared.outputs.scriptSummaries[i.val]?.map PushRefScriptSummary.codeScriptHash =
          some (hash256 code)) := by
  refine ⟨fun i coin hx hcoin hsize => ?_, fun i hx hsize => ?_⟩
  · have hentry : (context.shared.inputCoins.map Coin.out)[i.val]? = some coin.out := by
      rw [getElem?_map, hcoin]
      rfl
    obtain ⟨hdec, hindex, hhash⟩ :=
      (RefSummary.indexed_of_initializeSummary context.shared.inputs_eq).decomposes hentry
    refine ⟨_, _, _, hdec, ?_, ?_, ?_, hhash⟩
    all_goals rw [execOp_references env fExec op _ hcontext hflag (by simp)]
    all_goals simp only [references, utxoQuery_of_scriptNum hfull hx, coinScriptPubKey_eq hcoin,
      ok_bind]
    · rw [stateBytecode_eq hsize]
      rfl
    · rw [codeBytecode_eq hsize]
      rfl
    · rw [number_natCast, hindex]
      rfl
  · have hentry : context.tx.vout[i.val]? = some (context.tx.vout.get i) := by simp
    obtain ⟨hdec, hindex, hhash⟩ :=
      (RefSummary.indexed_of_initializeSummary context.shared.outputs_eq).decomposes hentry
    refine ⟨_, _, _, hdec, ?_, ?_, ?_, hhash⟩
    all_goals rw [execOp_references env fExec op _ hcontext hflag (by simp)]
    all_goals simp only [references, stateSeparatorIndexOutput, outputQuery_of_scriptNum hx, hfull,
      Bool.false_eq_true, false_and, if_false]
    · rw [stateBytecode_eq hsize]
      rfl
    · rw [codeBytecode_eq hsize]
      rfl
    · rw [number_natCast, hindex]
      rfl

end Context

section Sample

attribute [local instance] Crypto.toy

/-- A transaction whose output has the state `OP_1` and the code `OP_2`. -/
def sampleStateTx : CTransaction :=
  .ofLegacy ⟨[⟨⟨Blob.null, 0⟩, [], 0⟩], [⟨1, [0x51, 0xbd, 0x52]⟩], 2, 0⟩
    version_two one_lt_word

/-- The flags of the opcodes. -/
def sampleStateFlags : UInt32 :=
  setFlag (setFlag 0 .SCRIPT_ENHANCED_REFERENCES true) .SCRIPT_NATIVE_INTROSPECTION true

/-- The environment of its input. -/
def sampleStateEnv (shared : ScriptExecutionContext.Shared sampleStateTx) : EvalEnv where
  flags := sampleStateFlags
  checker := ⟨verifySignature, fun _ _ _ _ => .ok false, fun _ => false, fun _ => false⟩
  context := some ⟨sampleStateTx, shared, ⟨0, by decide⟩, false⟩

theorem state_code_decomposition_output : ∃ shared : ScriptExecutionContext.Shared sampleStateTx,
    ∃ state code index, Decomposes [0x51, 0xbd, 0x52] state code index ∧
      execOp (sampleStateEnv shared) true ⟨OP_STATESCRIPTBYTECODE_OUTPUT, [], [], by decide⟩
          OP_STATESCRIPTBYTECODE_OUTPUT { stack := [[]], pbegincodehash := [] } =
        .ok (.next { stack := [state], pbegincodehash := [] }) := by
  obtain ⟨shared, -, -⟩ := ScriptExecutionContext.Shared.make_of_parses
    (show sampleContextCoins.length = sampleStateTx.vin.length by decide)
    (by decide) (by decide)
  have hx : scriptNum sampleStateFlags [] = .ok ((0 : ℕ) : ℤ) := by
    have hsize : maxIntegerSize sampleStateFlags = 4 := by decide +kernel
    rw [scriptNum, hsize]
    rfl
  have hflag : hasFlag sampleStateFlags .SCRIPT_NATIVE_INTROSPECTION = true ∧
      hasFlag sampleStateFlags .SCRIPT_ENHANCED_REFERENCES = true := by decide +kernel
  obtain ⟨state, code, index, hdec, hstate, -⟩ := (state_code_decomposition (sampleStateEnv shared)
    true ⟨OP_STATESCRIPTBYTECODE_OUTPUT, [], [], by decide⟩ { stack := [], pbegincodehash := [] } _
    rfl rfl hflag [] []).2 ⟨0, show 0 < sampleStateTx.vout.length by decide⟩ hx
      (show 3 ≤ maxScriptElementSize by decide)
  exact ⟨shared, state, code, index, hdec, hstate⟩

end Sample

end RadiantCore
