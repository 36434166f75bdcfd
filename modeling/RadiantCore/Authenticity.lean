import RadiantCore.CheckInputs
import RadiantCore.CoinOrigin
import RadiantCore.ExecutedRefs
import RadiantCore.Supply

/-!
# Executed references and the spent output

The references that a spend puts on the stack belong to the output it spends, when they are pushed by
that output's script : the scan of `GetPushRefs` has found them there. A `scriptSig` has pushes of
data only. The redeem script of a pay-to-script-hash output is not scanned, so what it pushes need
not belong to the output.
-/

namespace RadiantCore

open Opcode List

section Spend

variable [Crypto]

/-! ## Scripts that only push -/

/-- The element a push leaves : its operand, or the number of its opcode. -/
def ScriptOp.element (op : ScriptOp) : Valtype :=
  if op.opcode ≤ OP_PUSHDATA4 then op.vch else CScriptNum.serialize (op.opcode.toNat - 0x50)

/-- The stack after some pushes. -/
def pushedElements : List (Option ScriptOp) → Stack → Stack
  | some op :: ops, stack => pushedElements ops (op.element :: stack)
  | _, stack => stack

section PushOnly

variable {env : EvalEnv}

variable {op : ScriptOp} {st : EvalState} {p : Progress}

/-- The opcodes of small numbers push their number. -/
theorem execOp_number {fExec : Bool} {opcode : Opcode} (hop : OP_PUSHDATA4 < opcode.toByte ∧ opcode.toByte ≤ OP_16)
    (h : execOp env fExec op opcode st = .ok p) :
    p = .next { st with stack := CScriptNum.serialize (opcode.toByte.toNat - 0x50) :: st.stack } := by
  cases opcode
  case OP_RESERVED => cases h
  case OP_1NEGATE | OP_1 | OP_2 | OP_3 | OP_4 | OP_5 | OP_6 | OP_7 | OP_8 | OP_9 | OP_10 | OP_11
      | OP_12 | OP_13 | OP_14 | OP_15 | OP_16 => exact (Except.ok.inj h).symm
  all_goals exact absurd hop (by decide)

theorem dispatch_push (hop : op.opcode ≤ OP_16)
    (hexec : st.vfExec.allTrue = true) (h : dispatch env op st = .ok p) :
    p = .next { st with stack := op.element :: st.stack } := by
  unfold dispatch at h
  by_cases hdata : op.opcode ≤ OP_PUSHDATA4
  · simp only [hexec, hdata, and_self, if_true, bind_eq_ok_iff, pure_eq_ok_iff] at h
    obtain ⟨-, -, rfl⟩ := h
    rw [ScriptOp.element, if_pos hdata]
  · simp only [hexec, hdata, and_false, if_false, true_or, if_true] at h
    cases hopcode : Opcode.ofByte? op.opcode with
    | none =>
      rw [hopcode] at h
      cases h
    | some opcode =>
      rw [hopcode] at h
      have hbyte := toByte_of_ofByte? hopcode
      rw [execOp_number (by rw [← hbyte]; exact ⟨UInt8.not_le.mp hdata, hop⟩) h, ScriptOp.element,
        if_neg hdata, hbyte]

theorem evalOp_push (hop : op.opcode ≤ OP_16)
    (hexec : st.vfExec.allTrue = true) (h : evalOp env op st = .ok p) :
    ∃ st', p = .next st' ∧ st'.stack = op.element :: st.stack ∧ st'.vfExec = st.vfExec := by
  simp only [evalOp, bind_eq_ok_iff, exists_unit_iff, require_eq_ok_iff] at h
  obtain ⟨-, -, -, p', hp', h⟩ := h
  obtain rfl := dispatch_push hop (by exact hexec) hp'
  simp only [bind_eq_ok_iff, exists_unit_iff, require_eq_ok_iff, pure_eq_ok_iff] at h
  exact ⟨_, h.2.symm, rfl, rfl⟩

/-- A script of pushes leaves its elements. -/
theorem evalLoop_pushOnly {ops : List (Option ScriptOp)}
    (hops : ∀ op, some op ∈ ops → op.opcode ≤ OP_16) (hexec : st.vfExec.allTrue = true)
    (h : evalLoop env ops st = .ok p) : p.state.stack = pushedElements ops st.stack := by
  induction ops generalizing st with
  | nil => exact (Except.ok.inj h) ▸ rfl
  | cons read ops ih =>
    cases read with
    | none => cases h
    | some op =>
      obtain ⟨mid, hmid, hrest⟩ := bind_eq_ok_iff.mp h
      obtain ⟨st', rfl, hstack, hvf⟩ := evalOp_push (hops op mem_cons_self) hexec hmid
      rw [ih (fun op hop => hops op (mem_cons_of_mem _ hop)) (by rwa [hvf]) hrest, hstack]
      rfl

variable {s : CScript}

omit [Crypto] in
theorem opcode_le_of_isPushOnly (h : isPushOnly s = true)
    (hop : some op ∈ scriptOps s) : op.opcode ≤ OP_16 := by
  simpa using all_eq_true.mp h _ hop

/-- It puts no reference on the stack. -/
theorem evalScript_pushOnly {stack : Stack} {metrics : ScriptExecutionMetrics}
    (hpush : isPushOnly s = true) (h : evalScript env [] s = .ok (stack, metrics)) :
    stack = pushedElements (scriptOps s) [] ∧ metrics.pushedRefs = [] := by
  constructor
  · obtain ⟨p, hloop, rfl, -⟩ := evalScript_eq_ok h
    exact evalLoop_pushOnly (fun op hop => opcode_le_of_isPushOnly hpush hop) rfl hloop
  · rw [eq_nil_iff_forall_not_mem]
    intro r hr
    obtain ⟨op, hop, -, c, hc, hcode⟩ := names_of_mem_pushedRefs h hr
    have hnot : ∀ c ∈ [OP_PUSHINPUTREF, OP_PUSHINPUTREFSINGLETON], ¬ c.toByte ≤ OP_16.toByte := by
      decide
    exact hnot c hc (hcode ▸ opcode_le_of_isPushOnly hpush hop)

end PushOnly

/-! ## Pay-to-script-hash -/

omit [Crypto] in
/-- A pay-to-script-hash output pushes no reference. -/
theorem not_pushes_of_isPayToScriptHash {s : CScript} (h : isPayToScriptHash s = true)
    (r : Uint288) : ¬ Pushes s r := by
  simp only [isPayToScriptHash, decide_eq_true_eq] at h
  obtain ⟨hlen, hhash, hsize, hequal⟩ := h
  obtain ⟨rest, rfl⟩ : ∃ rest, s = 0xa9 :: 0x14 :: rest := by
    match s, hhash, hsize with
    | a :: b :: rest, ha, hb =>
      obtain rfl := Option.some.inj ha
      obtain rfl := Option.some.inj hb
      exact ⟨rest, rfl⟩
  have hrest : rest.length = 21 := by simpa using hlen
  have hlast : rest.drop 20 = [0x87] := by
    have hat : rest[20]? = some 0x87 := hequal
    obtain ⟨hlt, hget⟩ := List.getElem?_eq_some_iff.mp hat
    rw [drop_eq_getElem_cons hlt, hget, drop_of_length_le (by omega)]
  obtain ⟨op, hpush, hcode, hpc⟩ : ∃ op, getScriptOp (0x14 :: rest) = some op ∧
      op.opcode = 0x14 ∧ op.pc = [0x87] := by
    have hsize : pushSize 0x14 rest = some (20, rest) := rfl
    refine ⟨⟨0x14, rest.take 20, rest.drop 20, fun href => absurd href (by decide)⟩, ?_, rfl, hlast⟩
    simp only [getScriptOp, hsize, hrest]
    rfl
  have hops : scriptOps (0xa9 :: 0x14 :: rest) =
      [some ⟨0xa9, [], 0x14 :: rest, by decide⟩, some op, some ⟨0x87, [], [], by decide⟩] := by
    have hfirst : getScriptOp (0xa9 :: 0x14 :: rest) =
        some ⟨0xa9, [], 0x14 :: rest, by decide⟩ := rfl
    rw [scriptOps_of_some hfirst, scriptOps_of_some hpush, hpc]
    rfl
  rintro ⟨refs, hrefs, hr⟩
  obtain ⟨read, hop, -, c, hc, hread⟩ := (mem_pushRefSet_iff hrefs).mp hr
  rw [hops] at hop
  have hnot : ∀ c ∈ [OP_PUSHINPUTREF, OP_PUSHINPUTREFSINGLETON],
      c.toByte ∉ [(0xa9 : UInt8), 0x14, 0x87] := by decide
  refine hnot c hc (hread ▸ ?_)
  simp only [mem_cons, Option.some.injEq, not_mem_nil, or_false] at hop
  rcases hop with rfl | rfl | rfl
  · simp
  · simp [hcode]
  · simp

/-! ## Verification of an input -/

section Verify

variable {env : EvalEnv} {scriptSig scriptPubKey : CScript} {metrics : ScriptExecutionMetrics}

/-- No executed operation of the redeem script, if there is one, puts a reference on the stack. -/
def RedeemQuiet (env : EvalEnv) (scriptSig scriptPubKey : CScript) : Prop :=
  hasFlag env.flags .SCRIPT_VERIFY_P2SH = true → isPayToScriptHash scriptPubKey = true →
    ∀ redeemScript stack, pushedElements (scriptOps scriptSig) [] = redeemScript :: stack →
      (¬ hasFlag env.flags .SCRIPT_DISALLOW_SEGWIT_RECOVERY ∧ stack = [] ∧
        isWitnessProgram redeemScript) ∨
      EveryStep env.strict NoPush (scriptOps redeemScript)
        { stack := stack, pbegincodehash := redeemScript }

variable {stack : Stack}

/-- The script of the output pushes its own references only. -/
theorem pushes_of_mem_pushedRefs {stack' : Stack} (hparses : Parses scriptPubKey)
    (h : evalScript env stack scriptPubKey = .ok (stack', metrics)) :
    ∀ r ∈ metrics.pushedRefs, Pushes scriptPubKey r := by
  intro r hr
  obtain ⟨refs, hrefs⟩ := hparses
  exact ⟨refs, hrefs, (mem_pushRefSet_iff hrefs).mpr (names_of_mem_pushedRefs h hr)⟩

/-- A redeem script puts no reference on the stack when none of its steps does. -/
theorem redeem_pushedRefs_eq_nil_iff {redeemScript : CScript}
    (h : verifyRedeemScript env scriptSig (redeemScript :: stack) = .ok metrics) :
    metrics.pushedRefs = [] ↔
      (¬ hasFlag env.flags .SCRIPT_DISALLOW_SEGWIT_RECOVERY ∧ stack = [] ∧
        isWitnessProgram redeemScript) ∨
      EveryStep env NoPush (scriptOps redeemScript)
        { stack := stack, pbegincodehash := redeemScript } := by
  rw [verifyRedeemScript, require_bind_eq_ok_iff] at h
  obtain ⟨-, h⟩ := h
  split_ifs at h with hrecovery
  · obtain rfl := pure_eq_ok_iff.mp h
    exact iff_of_true rfl (Or.inl hrecovery)
  · simp only [bind_eq_ok_iff, exists_unit_iff, pure_eq_ok_iff] at h
    obtain ⟨⟨stack', m⟩, heval, -, -, rfl⟩ := h
    obtain ⟨p, hloop, -, rfl⟩ := evalScript_eq_ok heval
    rw [pushedRefs_eq_nil_iff hloop, or_iff_right hrecovery, and_iff_right rfl]

/-- The references a successful run puts on the stack belong to the output exactly when its redeem
script puts none there. -/
theorem pushedRefs_pushes_iff (hsig : hasFlag env.flags .SCRIPT_VERIFY_SIGPUSHONLY = true)
    (hparses : Parses scriptPubKey) (h : verifyScript env scriptSig scriptPubKey = .ok metrics) :
    (∀ r ∈ metrics.pushedRefs, Pushes scriptPubKey r) ↔ RedeemQuiet env scriptSig scriptPubKey := by
  have hflag : ∀ {flag}, flag ≠ .SCRIPT_VERIFY_STRICTENC →
      hasFlag env.strict.flags flag = hasFlag env.flags flag := by
    intro flag hne
    simp [EvalEnv.strict, hasFlag_setFlag, hne.symm]
  rw [verifyScript, require_bind_eq_ok_iff] at h
  obtain ⟨hpush, h⟩ := h
  simp only [bind_eq_ok_iff, exists_unit_iff] at h
  obtain ⟨⟨stackCopy, sigMetrics⟩, hsigEval, ⟨stack, keyMetrics⟩, hkeyEval, -, h⟩ := h
  obtain ⟨rfl, hsigRefs⟩ :=
    evalScript_pushOnly (hpush (by rw [hflag (by decide), hsig])) hsigEval
  have hkeyRefs := pushes_of_mem_pushedRefs hparses hkeyEval
  simp only [hflag (show ScriptFlag.SCRIPT_VERIFY_P2SH ≠ .SCRIPT_VERIFY_STRICTENC by decide)] at h
  split_ifs at h with hp2sh
  · simp only [bind_eq_ok_iff, pure_eq_ok_iff] at h
    obtain ⟨redeemMetrics, hredeem, rfl⟩ := h
    have hnone := not_pushes_of_isPayToScriptHash hp2sh.2
    have hkeyNil : keyMetrics.pushedRefs = [] :=
      eq_nil_iff_forall_not_mem.mpr fun r hr => hnone r (hkeyRefs r hr)
    have hall : (∀ r ∈ (sigMetrics + keyMetrics + redeemMetrics).pushedRefs,
        Pushes scriptPubKey r) ↔ redeemMetrics.pushedRefs = [] := by
      simp [hsigRefs, hkeyNil, hnone, eq_nil_iff_forall_not_mem]
    cases hstack : pushedElements (scriptOps scriptSig) [] with
    | nil =>
      rw [hstack, verifyRedeemScript, require_bind_eq_ok_iff] at hredeem
      cases hredeem.2
    | cons redeemScript stack =>
      rw [hstack] at hredeem
      rw [hall, redeem_pushedRefs_eq_nil_iff hredeem, hflag (by decide)]
      constructor
      · intro hquiet _ _ redeemScript' stack' hstack'
        obtain ⟨rfl, rfl⟩ := cons.inj (hstack.symm.trans hstack')
        exact hquiet
      · intro hquiet
        exact hquiet hp2sh.1 hp2sh.2 redeemScript stack hstack
  · simp only [bind_eq_ok_iff, exists_unit_iff, pure_eq_ok_iff] at h
    obtain ⟨-, rfl⟩ := h
    refine iff_of_true (fun r hr => hkeyRefs r ?_) fun hflag hscript => absurd ⟨hflag, hscript⟩ hp2sh
    simpa [hsigRefs] using hr

end Verify

/-- The references a spend of a coin of a chain puts on the stack are references of its script
exactly when its redeem script, if there is one, puts none there. -/
theorem executed_refs_iff {γ : Type} {assume : CoinsMap → List CTransaction → Prop}
    {scripts : CBlockIndex → ScriptStage γ} {wait : List γ → Bool} {params : Params}
    {pindex : CBlockIndex} {tip : CoinsTip} (hrun : BlockRun assume scripts wait params pindex tip)
    {o : COutPoint} {coin : Coin} (hcoin : tip.coins.lookup o = some coin)
    (pindexPrev : CBlockIndex) (checker : BaseSignatureChecker) (context : ScriptExecutionContext)
    (scriptSig : CScript) {metrics : ScriptExecutionMetrics}
    (h : verifyScript ⟨getNextBlockScriptFlags params pindexPrev, checker, some context⟩ scriptSig
      coin.out.scriptPubKey = .ok metrics) :
    (∀ r ∈ metrics.pushedRefs, Pushes coin.out.scriptPubKey r) ↔
      RedeemQuiet ⟨getNextBlockScriptFlags params pindexPrev, checker, some context⟩ scriptSig
        coin.out.scriptPubKey :=
  pushedRefs_pushes_iff (hasFlag_sigPushOnly params pindexPrev) (hrun.parses hcoin) h

end Spend

section Sample

attribute [local instance] Crypto.toy

/-- A redeem script that pushes a reference. -/
def sampleRedeemScript : CScript := OP_PUSHINPUTREF.toByte :: replicate 36 0x01

/-- Pays to the hash of the redeem script and to anyone. -/
def sampleHashReward : CTransaction :=
  .ofLegacy ⟨[⟨⟨Blob.null, 0xffffffff⟩, [0x51], 0xffffffff⟩],
      [⟨30, [0xa9, 0x14] ++ (hash160 sampleRedeemScript).data ++ [0x87]⟩, ⟨20, [0x51]⟩], 1, 0⟩
    version_one two_lt_word

/-- The index of a block with only this transaction. -/
def sampleHashIndex : CBlockIndex :=
  .next (.genesis Blob.null 0) (sampleBlock [sampleHashReward]).getHash 0

/-- The flags of the block after it. -/
def sampleHashFlags : UInt32 := getNextBlockScriptFlags sampleParams sampleHashIndex

theorem exists_hashRun : ∃ tip,
    BlockRun (fun _ _ => True) (fun _ _ _ => .ok ([] : List Empty)) (fun _ => true) sampleParams
      sampleHashIndex tip ∧
    (∃ coin, tip.coins.lookup (sampleHashReward.outpoint 0) = some coin ∧
      coin.out.scriptPubKey = [0xa9, 0x14] ++ (hash160 sampleRedeemScript).data ++ [0x87]) ∧
    ∃ coin, tip.coins.lookup (sampleHashReward.outpoint 1) = some coin ∧
      coin.out.scriptPubKey = [0x51] := by
  have hok : ∃ res ∈ (connectBlock (fun _ _ => .ok ([] : List Empty)) (fun _ => true) sampleParams
      ⟨2000000, true, true⟩ false (sampleBlock [sampleHashReward]) sampleHashIndex
      ⟨∅, Blob.null⟩).toOption,
      (∃ coin ∈ res.1.coins.lookup (sampleHashReward.outpoint 0),
        coin.out.scriptPubKey = [0xa9, 0x14] ++ (hash160 sampleRedeemScript).data ++ [0x87]) ∧
      ∃ coin ∈ res.1.coins.lookup (sampleHashReward.outpoint 1),
        coin.out.scriptPubKey = [0x51] := by decide +kernel
  obtain ⟨⟨tip, undo⟩, hres, hhash, htrue⟩ := hok
  exact ⟨tip, .block (.genesis Blob.null 0) trivial (toOption_eq_some_iff.mp hres), hhash, htrue⟩

/-- The spend of an output that anyone can take puts no reference on the stack. -/
theorem executed_refs_iff_true : ∃ tip coin context metrics,
    BlockRun (fun _ _ => True) (fun _ _ _ => .ok ([] : List Empty)) (fun _ => true) sampleParams
      sampleHashIndex tip ∧
    tip.coins.lookup (sampleHashReward.outpoint 1) = some coin ∧ context.limited = false ∧
    verifyScript ⟨sampleHashFlags, sampleChecker, some context⟩ [] coin.out.scriptPubKey =
      .ok metrics ∧
    ((∀ r ∈ metrics.pushedRefs, Pushes coin.out.scriptPubKey r) ↔
      RedeemQuiet ⟨sampleHashFlags, sampleChecker, some context⟩ [] coin.out.scriptPubKey) := by
  obtain ⟨tip, hrun, -, coin, hcoin, hscript⟩ := exists_hashRun
  have hok : ∃ shared ∈
      (ScriptExecutionContext.Shared.make sampleTwoInputs sampleTwoCoins rfl).toOption,
      ∃ metrics ∈ (verifyScript ⟨sampleHashFlags, sampleChecker,
        some ⟨sampleTwoInputs, shared, ⟨0, by decide⟩, false⟩⟩ [] [0x51]).toOption, True := by
    decide +kernel
  obtain ⟨shared, -, metrics, hverify, -⟩ := hok
  rw [← hscript] at hverify
  have h := toOption_eq_some_iff.mp hverify
  exact ⟨tip, coin, _, metrics, hrun, hcoin, rfl, h,
    executed_refs_iff hrun hcoin sampleHashIndex sampleChecker _ [] h⟩

/-- A spend whose redeem script pushes a reference that the output does not have. -/
theorem redeem_pushes_foreign_reference : ∃ tip coin context metrics r,
    BlockRun (fun _ _ => True) (fun _ _ _ => .ok ([] : List Empty)) (fun _ => true) sampleParams
      sampleHashIndex tip ∧
    tip.coins.lookup (sampleHashReward.outpoint 0) = some coin ∧
    sampleParams.ERHeight ≤ sampleHashIndex.nHeight + 1 ∧ context.limited = false ∧
    verifyScript ⟨sampleHashFlags, sampleChecker, some context⟩ (0x25 :: sampleRedeemScript)
      coin.out.scriptPubKey = .ok metrics ∧
    r ∈ metrics.pushedRefs ∧ ¬ Pushes coin.out.scriptPubKey r := by
  obtain ⟨tip, hrun, ⟨coin, hcoin, hscript⟩, -⟩ := exists_hashRun
  have hok : ∃ shared ∈
      (ScriptExecutionContext.Shared.make sampleTwoInputs sampleTwoCoins rfl).toOption,
      ∃ metrics ∈ (verifyScript ⟨sampleHashFlags, sampleChecker,
        some ⟨sampleTwoInputs, shared, ⟨0, by decide⟩, false⟩⟩ (0x25 :: sampleRedeemScript)
        ([0xa9, 0x14] ++ (hash160 sampleRedeemScript).data ++ [0x87])).toOption,
      ∃ r ∈ metrics.pushedRefs.head?, True := by
    decide +kernel
  obtain ⟨shared, -, metrics, hverify, r, hr, -⟩ := hok
  rw [← hscript] at hverify
  refine ⟨tip, coin, _, metrics, r, hrun, hcoin, by decide, rfl, toOption_eq_some_iff.mp hverify,
    mem_of_head? hr, not_pushes_of_isPayToScriptHash ?_ r⟩
  rw [hscript]
  decide +kernel

end Sample

end RadiantCore
