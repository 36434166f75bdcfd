import RadiantCore.LimitedContext
import RadiantCore.OpFailures

/-!
# The references that a run executes

`EvalScript` puts the references of the executed operations in two sets, for the check after its
loop, and on the stack. What one operation adds is `Records`. The other lemmas are the rules for the
loop : what every iteration keeps holds where it ends (`evalLoop_ends`).
-/

namespace RadiantCore

open Opcode

variable [Crypto]

/-! ## One operation -/

/-- What an operation adds to the sets and to the log of references, when it is executed. -/
structure Records (env : EvalEnv) (op : ScriptOp) (executed : Bool) (st st' : EvalState) :
    Prop where
  found : ∀ x, x ∈ st'.foundPushRefs ↔ x ∈ st.foundPushRefs ∨
    executed = true ∧ ∃ r, op.Names [OP_PUSHINPUTREF] r ∧ setRef env r = x
  disallowed : ∀ x, x ∈ st'.disallowedRefs ↔ x ∈ st.disallowedRefs ∨
    executed = true ∧ ∃ r, op.Names [OP_DISALLOWPUSHINPUTREF] r ∧ setRef env r = x
  pushed : ∀ r, r ∈ st'.metrics.pushedRefs ↔ r ∈ st.metrics.pushedRefs ∨
    executed = true ∧ op.Names [OP_PUSHINPUTREF, OP_PUSHINPUTREFSINGLETON] r

/-- The opcodes after which an executed operation records its reference. -/
def recordingOps : List Opcode :=
  [OP_PUSHINPUTREF, OP_DISALLOWPUSHINPUTREF, OP_PUSHINPUTREFSINGLETON]

section Operation

variable {env : EvalEnv} {op : ScriptOp} {st st' : EvalState}

variable {codes : List Opcode}

omit [Crypto] in
theorem ScriptOp.not_names (hop : ∀ c ∈ recordingOps, op.opcode ≠ c.toByte)
    (hsub : codes ⊆ recordingOps) (r : Uint288) : ¬ op.Names codes r :=
  fun ⟨_, c, hc, heq⟩ => hop c (hsub hc) heq

/-- An operation that records nothing. -/
theorem Records.of_eq {executed : Bool}
    (hop : executed = true → ∀ c ∈ recordingOps, op.opcode ≠ c.toByte)
    (hfound : st'.foundPushRefs = st.foundPushRefs)
    (hdisallowed : st'.disallowedRefs = st.disallowedRefs)
    (hpushed : st'.metrics.pushedRefs = st.metrics.pushedRefs) :
    Records env op executed st st' := by
  refine ⟨fun x => ?_, fun x => ?_, fun r => ?_⟩
  · rw [hfound, or_iff_left]
    rintro ⟨hexec, r, hr, -⟩
    exact ScriptOp.not_names (hop hexec) (by simp [recordingOps]) r hr
  · rw [hdisallowed, or_iff_left]
    rintro ⟨hexec, r, hr, -⟩
    exact ScriptOp.not_names (hop hexec) (by simp [recordingOps]) r hr
  · rw [hpushed, or_iff_left]
    rintro ⟨hexec, hr⟩
    exact ScriptOp.not_names (hop hexec) (by simp [recordingOps]) r hr

/-- For an operation that names no such reference it does not matter whether it is executed. -/
theorem Records.congr {a b : Bool} (h : Records env op a st st')
    (hop : ∀ c ∈ recordingOps, op.opcode ≠ c.toByte) : Records env op b st st' := by
  refine ⟨fun x => (h.found x).trans (or_congr_right ?_),
    fun x => (h.disallowed x).trans (or_congr_right ?_),
    fun r => (h.pushed r).trans (or_congr_right ?_)⟩
  · simp [ScriptOp.not_names hop (show [OP_PUSHINPUTREF] ⊆ recordingOps by simp [recordingOps])]
  · simp [ScriptOp.not_names hop
      (show [OP_DISALLOWPUSHINPUTREF] ⊆ recordingOps by simp [recordingOps])]
  · simp [ScriptOp.not_names hop
      (show [OP_PUSHINPUTREF, OP_PUSHINPUTREFSINGLETON] ⊆ recordingOps by simp [recordingOps])]

omit [Crypto] in
/-- An operation names its operand after its own opcode. -/
theorem ScriptOp.names_iff {c : Opcode} {ref r : Uint288}
    (hop : op.opcode = c.toByte) (hc : isRefOp c.toByte = true)
    (href : Blob.ofVch op.vch = some ref) : op.Names codes r ↔ r = ref ∧ c ∈ codes := by
  have hoperand : op.ref? = some ref := by
    rw [ScriptOp.ref?, dif_pos (by rwa [hop])]
    exact congrArg some (Blob.ext (Blob.ofVch_eq_some_iff.mp href))
  simp only [ScriptOp.Names, hoperand, Option.some.injEq, hop, Opcode.toByte_inj]
  constructor
  · rintro ⟨h, c', hc', heq⟩
    exact ⟨h.symm, heq ▸ hc'⟩
  · rintro ⟨h, hmem⟩
    exact ⟨h.symm, c, hmem, rfl⟩

variable {b : UInt8} {opcode : Opcode}

omit [Crypto] in
theorem toByte_of_ofByte? (h : Opcode.ofByte? b = some opcode) :
    b = opcode.toByte := by
  have hall : ∀ n < 256, ∀ opcode ∈ Opcode.ofByte? (UInt8.ofNat n),
      UInt8.ofNat n = opcode.toByte := by decide +kernel
  have hbyte : UInt8.ofNat b.toNat = b := UInt8.ofNat_toNat
  have := hall b.toNat b.toNat_lt opcode (by rwa [hbyte])
  rwa [hbyte] at this

omit [Crypto] in
/-- The conditionals, which are executed in an inactive branch too, and the pushes of data record
nothing. -/
theorem not_recording (hb : b ≤ OP_PUSHDATA4 ∨ OP_IF ≤ b ∧ b ≤ OP_ENDIF) :
    ∀ c ∈ recordingOps, b ≠ c.toByte := by
  rintro c hc rfl
  revert c
  decide

variable {err : ScriptFailure → Prop} (h : Permits err)
  (hcontext : ∀ c ∈ env.context, c.AmountsPermitted err)
  (hchecker : ∀ vchSig vchPubKey scriptCode flags,
    FailsOnly err (env.checker.checkSig vchSig vchPubKey scriptCode flags))

include h hcontext hchecker

/-- The references an executed operation records, beside what it fails with. -/
theorem execOp_records (fExec : Bool) (hop : op.opcode = opcode.toByte) (st : EvalState) :
    Ends (execOp env fExec op opcode st) err fun p => Records env op true st p.state := by
  have hsame : ∀ {st'}, opcode ∉ recordingOps → st'.foundPushRefs = st.foundPushRefs →
      st'.disallowedRefs = st.disallowedRefs →
      st'.metrics.pushedRefs = st.metrics.pushedRefs → Records env op true st st' := by
    intro st' hnot hfound hdisallowed hpushed
    refine .of_eq (fun _ c hc heq => hnot ?_) hfound hdisallowed hpushed
    rwa [← Opcode.toByte_inj.mp (hop.symm.trans heq)] at hc
  have hstack : opcode ∉ recordingOps → Ends (do
      let stack ← stackOp env st.pbegincodehash opcode op.vch st.stack
      return Progress.next { st with stack := stack }) err
        fun p => Records env op true st p.state := fun hnot =>
    (h.stackOp hcontext _ _ _).bind_ends fun _ => hsame hnot rfl rfl rfl
  have hsig : ∀ {res : SigResult} {verify? : Option ScriptError}, opcode ∉ recordingOps →
      (∀ e ∈ verify?, e ≠ .INVALID_TX_OUTPUT_CONTAINS_DISALLOWED_PUSHREF) → ∀ n, Ends (do
        let st ← { st with nOpCount := n }.withSig res verify?
        return Progress.next st) err fun p => Records env op true st p.state := by
    intro res verify? hnot hverify n
    have hwith : Ends ({ st with nOpCount := n }.withSig res verify?) err
        fun st' => Records env op true st st' :=
      (h.finish res hverify).bind_ends fun _ => hsame hnot rfl rfl (List.append_nil _)
    exact hwith.bind fun _ hst' => hst'
  have hoperand : Ends (refOperand op.vch) err fun ref => Blob.ofVch op.vch = some ref := by
    unfold refOperand
    split
    · assumption
    · exact h.error _ (by decide)
  have hnames : ∀ {ref}, Blob.ofVch op.vch = some ref → isRefOp opcode.toByte = true →
      ∀ codes r, op.Names codes r ↔ r = ref ∧ opcode ∈ codes :=
    fun href hc _ _ => ScriptOp.names_iff hop hc href
  cases opcode
  case OP_IF | OP_NOTIF =>
    simp only [execOp]
    split_ifs
    · exact (h.popCondition _).bind_ends fun _ => hsame (by decide) rfl rfl rfl
    · exact hsame (by decide) rfl rfl rfl
  case OP_ELSE | OP_ENDIF =>
    exact (h.require (by decide)).bind_ends fun _ => hsame (by decide) rfl rfl rfl
  case OP_RETURN =>
    simp only [execOp]
    split_ifs
    · exact hsame (by decide) rfl rfl rfl
    · exact h.error _ (by decide)
  case OP_TOALTSTACK | OP_FROMALTSTACK =>
    simp only [execOp]
    split
    · exact hsame (by decide) rfl rfl rfl
    · exact h.error _ (by decide)
  case OP_CODESEPARATOR => exact hsame (by decide) rfl rfl rfl
  case OP_CHECKSIG | OP_CHECKSIGVERIFY =>
    exact (h.checkSigOp hchecker _).bind_ends fun _ => hsig (by decide) (by decide) _
  case OP_CHECKDATASIG | OP_CHECKDATASIGVERIFY =>
    exact h.checkDataSigOp.bind_ends fun _ => hsig (by decide) (by decide) _
  case OP_CHECKMULTISIG | OP_CHECKMULTISIGVERIFY =>
    exact (h.checkMultiSigOp hchecker _ _).bind_ends fun _ => hsig (by decide) (by decide) _
  case OP_PUSHINPUTREF | OP_DISALLOWPUSHINPUTREF =>
    refine hoperand.bind fun ref href => ⟨fun x => ?_, fun x => ?_, fun r => ?_⟩
    all_goals simp [Progress.state, hnames href (by decide), EvalState.withRef, or_comm, eq_comm]
  case OP_PUSHINPUTREFSINGLETON =>
    refine (h.require (by decide)).bind_ends fun _ =>
      hoperand.bind fun ref href => ⟨fun x => ?_, fun x => ?_, fun r => ?_⟩
    all_goals simp [Progress.state, hnames href (by decide), EvalState.withRef]
  all_goals exact hstack (by decide)

theorem dispatch_records (st : EvalState) :
    Ends (dispatch env op st) err fun p => Records env op st.vfExec.allTrue st p.state := by
  unfold dispatch
  simp only
  split_ifs with hpush hexec
  · exact (h.require (by decide)).bind_ends fun _ =>
      .of_eq (fun _ => not_recording (Or.inl hpush.2)) rfl rfl rfl
  · cases hopcode : Opcode.ofByte? op.opcode with
    | none => exact h.error _ (by decide)
    | some opcode =>
      refine (execOp_records h hcontext hchecker _ (toByte_of_ofByte? hopcode) st).imp fun p _ hrec => ?_
      rcases hexec with hall | hcond
      · rwa [hall]
      · exact hrec.congr (not_recording (Or.inr hcond))
  · exact .of_eq (fun hall => absurd (Or.inl hall) hexec) rfl rfl rfl

/-- What an iteration of the loop records. -/
theorem evalOp_records (st : EvalState) :
    Ends (evalOp env op st) err fun p => Records env op st.vfExec.allTrue st p.state := by
  refine (h.require (by decide)).bind_ends fun _ => (h.require (by decide)).bind_ends fun _ =>
    (h.require (by decide)).bind_ends fun _ => ?_
  refine (dispatch_records h hcontext hchecker _).bind fun progress hrec => ?_
  cases progress with
  | done st' => exact ⟨hrec.found, hrec.disallowed, hrec.pushed⟩
  | next st' =>
    exact (h.require (by decide)).bind_ends fun _ => ⟨hrec.found, hrec.disallowed, hrec.pushed⟩

end Operation

/-! ## The loop -/

section Loop

variable {env : EvalEnv} {err : ScriptFailure → Prop} {P : ScriptOp → EvalState → Prop}

variable {ops : List (Option ScriptOp)} {st : EvalState}

/-- What every iteration keeps holds where the loop ends. -/
theorem evalLoop_ends (inv : EvalState → Prop) (hbad : err (.error .BAD_OPCODE))
    (hstep : ∀ op st, P op st → inv st → Ends (evalOp env op st) err fun p => inv p.state) (hP : EveryStep env P ops st) (hinv : inv st) :
    Ends (evalLoop env ops st) err fun p => inv p.state := by
  induction ops generalizing st with
  | nil => exact hinv
  | cons read ops ih =>
    cases read with
    | none => exact hbad
    | some op =>
      refine (hstep op st hP.1 hinv).eq_ok.bind fun progress hprogress => ?_
      cases progress with
      | done st' => exact hprogress.2
      | next st' => exact ih (hP.2 st' hprogress.1) hprogress.2

theorem everyStep_of_mem (h : ∀ op, some op ∈ ops → ∀ st, P op st) : EveryStep env P ops st := by
  induction ops generalizing st with
  | nil => trivial
  | cons read ops ih =>
    cases read with
    | none => trivial
    | some op =>
      exact ⟨h op List.mem_cons_self st, fun _ _ => ih fun op hop => h op (List.mem_cons_of_mem _ hop)⟩

end Loop

/-! ## Successful runs -/

section Success

variable {env : EvalEnv}

variable {st : EvalState} {p : Progress}

theorem records_of_evalOp {op : ScriptOp}
    (h : evalOp env op st = .ok p) : Records env op st.vfExec.allTrue st p.state :=
  (evalOp_records permits_true (fun c _ => c.amountsPermitted_of_throw trivial)
    (fun _ _ _ _ => .true) st).post_of_eq_ok h

/-- The operation puts no reference on the stack. -/
def NoPush (op : ScriptOp) (st : EvalState) : Prop :=
  st.vfExec.allTrue = true → ∀ r, ¬ op.Names [OP_PUSHINPUTREF, OP_PUSHINPUTREFSINGLETON] r

/-- The log of a run is empty when no step adds to it. -/
theorem pushedRefs_eq_nil_iff {ops : List (Option ScriptOp)} (h : evalLoop env ops st = .ok p) :
    p.state.metrics.pushedRefs = [] ↔ st.metrics.pushedRefs = [] ∧ EveryStep env NoPush ops st := by
  induction ops generalizing st with
  | nil =>
    obtain rfl := Except.ok.inj h
    simp [Progress.state, EveryStep]
  | cons read ops ih =>
    cases read with
    | none => cases h
    | some op =>
      obtain ⟨mid, hmid, hrest⟩ := bind_eq_ok_iff.mp h
      -- One step leaves the log empty exactly when it was empty and the step adds nothing.
      have hstep : mid.state.metrics.pushedRefs = [] ↔
          st.metrics.pushedRefs = [] ∧ NoPush op st := by
        simp only [List.eq_nil_iff_forall_not_mem, (records_of_evalOp hmid).pushed, not_or,
          forall_and, NoPush, not_and]
        exact and_congr_right fun _ => ⟨fun hno hexec r => hno r hexec, fun hno r hexec => hno hexec r⟩
      cases mid with
      | done st' =>
        obtain rfl := Except.ok.inj hrest
        rw [hstep]
        exact and_congr_right fun _ => ⟨fun hno => ⟨hno, fun _ hnext => by
          cases Except.ok.inj (hmid.symm.trans hnext)⟩, And.left⟩
      | next st' =>
        rw [ih hrest, show st'.metrics.pushedRefs = [] ↔ _ from hstep, and_assoc]
        refine and_congr_right fun _ => and_congr_right fun _ => ⟨fun hrun st'' hnext => ?_,
          fun hrun => hrun st' hmid⟩
        obtain rfl := Progress.next.inj (Except.ok.inj (hmid.symm.trans hnext))
        exact hrun

variable {stack : Stack} {metrics : ScriptExecutionMetrics}

omit [Crypto] in
theorem evalEnd_eq_ok {x : Except ScriptFailure Progress} (h : evalEnd x = .ok (stack, metrics)) :
    ∃ p, x = .ok p ∧ stack = p.state.stack ∧ metrics = p.state.metrics := by
  match x with
  | .error (.error _) => cases h
  | .error (.exception _) => cases h
  | .error (.abort _) => cases h
  | .ok (.done st) =>
    obtain ⟨rfl, rfl⟩ := Prod.mk.inj (Except.ok.inj h)
    exact ⟨_, rfl, rfl, rfl⟩
  | .ok (.next st) =>
    simp only [evalEnd, bind_eq_ok_iff, exists_unit_iff, pure_eq_ok_iff, Prod.mk.injEq] at h
    obtain ⟨-, -, rfl, rfl⟩ := h
    exact ⟨_, rfl, rfl, rfl⟩

variable {script : CScript} {stack' : Stack}

theorem evalScript_eq_ok (h : evalScript env stack script = .ok (stack', metrics)) :
    ∃ p, evalLoop env (scriptOps script) { stack := stack, pbegincodehash := script } = .ok p ∧
      stack' = p.state.stack ∧ metrics = p.state.metrics := by
  unfold evalScript at h
  split_ifs at h
  · cases h
  · exact evalEnd_eq_ok h

/-- The references in the log are named by operations of the script. -/
theorem names_of_mem_pushedRefs (h : evalScript env stack script = .ok (stack', metrics))
    {r : Uint288} (hr : r ∈ metrics.pushedRefs) : ∃ op, some op ∈ scriptOps script ∧
      op.Names [OP_PUSHINPUTREF, OP_PUSHINPUTREFSINGLETON] r := by
  obtain ⟨p, hloop, -, rfl⟩ := evalScript_eq_ok h
  let inv : EvalState → Prop := fun st => ∀ r ∈ st.metrics.pushedRefs,
    ∃ op, some op ∈ scriptOps script ∧ op.Names [OP_PUSHINPUTREF, OP_PUSHINPUTREFSINGLETON] r
  have hinv : Ends (evalLoop env (scriptOps script) { stack := stack, pbegincodehash := script })
      (fun _ => True) fun p => inv p.state := by
    refine evalLoop_ends inv (P := fun op _ => some op ∈ scriptOps script) trivial
      (fun op st hop hst => FailsOnly.true.ends fun p hp r hr => ?_)
      (everyStep_of_mem fun op hop _ => hop) (by simp [inv])
    rcases ((records_of_evalOp hp).pushed r).mp hr with hold | ⟨-, hnames⟩
    · exact hst r hold
    · exact ⟨op, hop, hnames⟩
  exact hinv.post_of_eq_ok hloop r hr

end Success

end RadiantCore
