import RadiantCore.StackAccess

/-!
# The switch with the accesses of the source

The opcodes of the signatures, the queries of the context and the switch of `EvalScript`, with
`stacktop` and `popstack` as in the source. `EvalScript.evalLoop` is the loop of the source, and it
is `RadiantCore.evalLoop` (`evalLoop_eq`).
-/

namespace RadiantCore

open List Opcode

namespace EvalScript

section Switch

variable [Crypto] (env : EvalEnv)

/-! ## Time locks and queries -/

/-- `OP_CHECKLOCKTIMEVERIFY`. -/
def checkLockTimeVerify : StackM Unit :=
  if ¬ hasFlag env.flags .SCRIPT_VERIFY_CHECKLOCKTIMEVERIFY then pure ()
  else do
    requireSize 1
    let nLockTime ←
      CScriptNum.fromBytes (← stacktop 1) (hasFlag env.flags .SCRIPT_VERIFY_MINIMALDATA) 5
    check (0 ≤ nLockTime) .NEGATIVE_LOCKTIME
    check (env.checker.checkLockTime nLockTime) .UNSATISFIED_LOCKTIME

theorem run_checkLockTimeVerify (stack : Stack) :
    run (checkLockTimeVerify env) stack =
      onlyStack (RadiantCore.checkLockTimeVerify env stack) := by
  unfold checkLockTimeVerify RadiantCore.checkLockTimeVerify
  split_ifs
  · cases stack with
    | nil => rfl
    | cons => simp
  · rfl

/-- `OP_CHECKSEQUENCEVERIFY`. -/
def checkSequenceVerify : StackM Unit :=
  if ¬ hasFlag env.flags .SCRIPT_VERIFY_CHECKSEQUENCEVERIFY then pure ()
  else do
    requireSize 1
    let nSequence ←
      CScriptNum.fromBytes (← stacktop 1) (hasFlag env.flags .SCRIPT_VERIFY_MINIMALDATA) 5
    check (0 ≤ nSequence) .NEGATIVE_LOCKTIME
    check (nSequence.toNat &&& 0x80000000 ≠ 0 ∨ env.checker.checkSequence nSequence)
      .UNSATISFIED_LOCKTIME

theorem run_checkSequenceVerify (stack : Stack) :
    run (checkSequenceVerify env) stack =
      onlyStack (RadiantCore.checkSequenceVerify env stack) := by
  unfold checkSequenceVerify RadiantCore.checkSequenceVerify
  split_ifs
  · cases stack with
    | nil => rfl
    | cons => simp
  · rfl

/-- An opcode that asks the context about the element on top of the stack. -/
def query (answer : Stack → Except ScriptFailure Stack) : StackM Unit := do
  requireSize 1
  let vch ← stacktop 1
  popstack
  let stack ← answer (vch :: (← get))
  set stack

omit [Crypto] in
theorem run_query {answer : Stack → Except ScriptFailure Stack}
    (hnil : answer [] = invalidStackOperation) (stack : Stack) :
    run (query answer) stack = onlyStack (answer stack) := by
  match stack with
  | [] => rw [hnil]; rfl
  | x :: s =>
    simp only [query, run_requireSize_one, run_stacktop_one, run_popstack_bind, run_get_bind,
      run_lift_bind]
    rfl

/-! ## One signature -/

/-- The end of an opcode with a verdict : it is pushed, and removed again by an opcode that
verifies. -/
def pushVerdict (fSuccess : Bool) (verify? : Option ScriptError) : StackM Unit := do
  pushBack (vchOfBool fSuccess)
  match verify? with
  | none => pure ()
  | some e => if fSuccess then popstack else throw (.error e)

omit [Crypto] in
theorem run_pushVerdict (res : SigResult) (verify? : Option ScriptError) :
    run (pushVerdict res.fSuccess verify?) res.rest = onlyStack (res.finish verify?) := by
  obtain ⟨fSuccess, nSigChecks, rest⟩ := res
  cases verify? with
  | none => rfl
  | some e =>
    cases fSuccess with
    | false => rfl
    | true => rfl

/-- The check of a signature that is not empty : the verdict and the number of checks. -/
def checkOneSig (vchSig : Valtype) (verdict : Except ScriptFailure Bool) : StackM (Bool × ℕ) :=
  if vchSig = [] then pure (false, 0)
  else do
    let fSuccess ← verdict
    check (fSuccess ∨ ¬ hasFlag env.flags .SCRIPT_VERIFY_NULLFAIL) .SIG_NULLFAIL
    return (fSuccess, 1)

/-- The result of a signature opcode, with the number of signature checks. -/
def withChecks (result : Except ScriptFailure SigResult) (verify? : Option ScriptError) :
    Except ScriptFailure (ℕ × Stack) := do
  let res ← result
  let stack ← res.finish verify?
  return (res.nSigChecks, stack)

omit [Crypto] in
theorem withChecks_bind {α : Type} (e : Except ScriptFailure α)
    (h : α → Except ScriptFailure SigResult) (verify? : Option ScriptError) :
    withChecks (e >>= h) verify? = e >>= fun a => withChecks (h a) verify? :=
  bind_assoc e h _

/-- The end of a signature opcode with `n` arguments. -/
def endSig (n : ℕ) (verify? : Option ScriptError) (verdict : Bool × ℕ) : StackM ℕ := do
  popMany n
  pushVerdict verdict.1 verify?
  return verdict.2

omit [Crypto] in
theorem run_endSig {n : ℕ} {stack : Stack} (hn : n ≤ stack.length) (verify? : Option ScriptError)
    (fSuccess : Bool) (nSigChecks : ℕ) :
    run (endSig n verify? (fSuccess, nSigChecks)) stack =
      withChecks (.ok ⟨fSuccess, nSigChecks, stack.drop n⟩) verify? := by
  rw [endSig, run_bind_ok (run_popMany hn), run_bind,
    run_pushVerdict ⟨fSuccess, nSigChecks, stack.drop n⟩, withChecks, ok_bind]
  cases SigResult.finish ⟨fSuccess, nSigChecks, stack.drop n⟩ verify? with
  | error => rfl
  | ok => rfl

theorem run_checkOneSig {n : ℕ} {stack : Stack} (hn : n ≤ stack.length) (vchSig : Valtype)
    (verdict : Except ScriptFailure Bool) (verify? : Option ScriptError) :
    run (checkOneSig env vchSig verdict >>= endSig n verify?) stack =
      withChecks (RadiantCore.checkOneSig env vchSig (stack.drop n) verdict) verify? := by
  unfold checkOneSig RadiantCore.checkOneSig
  split_ifs
  · exact run_endSig hn verify? false 0
  · simp only [bind_assoc, run_lift_bind, run_check_bind, pure_bind, run_endSig hn, withChecks_bind]
    rfl

/-- `OP_CHECKSIG` and `OP_CHECKSIGVERIFY`. -/
def checkSigOp (scriptCode : CScript) (verify? : Option ScriptError) : StackM ℕ := do
  requireSize 2
  let vchSig ← stacktop 2
  let vchPubKey ← stacktop 1
  checkTransactionSignatureEncoding env.flags vchSig
  checkPubKeyEncoding env.flags vchPubKey
  let verdict ←
    checkOneSig env vchSig (env.checker.checkSig vchSig vchPubKey scriptCode env.flags)
  endSig 2 verify? verdict

theorem run_checkSigOp (scriptCode : CScript) (verify? : Option ScriptError) (stack : Stack) :
    run (checkSigOp env scriptCode verify?) stack =
      withChecks (RadiantCore.checkSigOp env scriptCode stack) verify? := by
  match stack with
  | [] | [_] => rfl
  | vchPubKey :: vchSig :: s =>
    simp only [checkSigOp, RadiantCore.checkSigOp, run_requireSize_two, run_stacktop_two,
      run_stacktop_one, run_lift_bind, withChecks_bind,
      run_checkOneSig env (show 2 ≤ (vchPubKey :: vchSig :: s).length by simp)]
    rfl

/-- `OP_CHECKDATASIG` and `OP_CHECKDATASIGVERIFY`. -/
def checkDataSigOp (verify? : Option ScriptError) : StackM ℕ := do
  requireSize 3
  let vchSig ← stacktop 3
  let vchMessage ← stacktop 2
  let vchPubKey ← stacktop 1
  checkDataSignatureEncoding env.flags vchSig
  checkPubKeyEncoding env.flags vchPubKey
  let verdict ← checkOneSig env vchSig
    (.ok (env.checker.verifySignature vchSig vchPubKey (Crypto.sha256 vchMessage)))
  endSig 3 verify? verdict

theorem run_checkDataSigOp (verify? : Option ScriptError) (stack : Stack) :
    run (checkDataSigOp env verify?) stack =
      withChecks (RadiantCore.checkDataSigOp env stack) verify? := by
  match stack with
  | [] | [_] | [_, _] => rfl
  | vchPubKey :: vchMessage :: vchSig :: s =>
    rw [checkDataSigOp, run_requireSize (Nat.le_add_left 3 s.length), run_stacktop rfl]
    simp only [RadiantCore.checkDataSigOp, run_stacktop_two, run_stacktop_one, run_lift_bind,
      withChecks_bind,
      run_checkOneSig env (show 3 ≤ (vchPubKey :: vchMessage :: vchSig :: s).length by simp)]
    rfl

/-! ## Multisignatures -/

section Multisig

variable (scriptCode : CScript)

/-- The loop of the legacy branch, with the numbers of signatures and keys that remain. It ends
with a fuel of the number of keys. -/
def legacyLoop (idxTopSig idxTopKey nSigsCount nKeysCount : ℕ) :
    ℕ → Bool → (nSigsRemaining nKeysRemaining : ℤ) → StackM Bool
  | 0, fSuccess, nSigsRemaining, _ =>
    if fSuccess ∧ 0 < nSigsRemaining then throw (.abort "out of fuel") else pure fSuccess
  | fuel + 1, fSuccess, nSigsRemaining, nKeysRemaining =>
    if fSuccess ∧ 0 < nSigsRemaining then do
      let vchSig ← stacktop (idxTopSig + (nSigsCount - nSigsRemaining).toNat)
      let vchPubKey ← stacktop (idxTopKey + (nKeysCount - nKeysRemaining).toNat)
      checkTransactionECDSASignatureEncoding env.flags vchSig
      checkPubKeyEncoding env.flags vchPubKey
      let fOk ← env.checker.checkSig vchSig vchPubKey scriptCode env.flags
      let nSigsRemaining := if fOk then nSigsRemaining - 1 else nSigsRemaining
      let nKeysRemaining := nKeysRemaining - 1
      legacyLoop idxTopSig idxTopKey nSigsCount nKeysCount fuel
        (nSigsRemaining ≤ nKeysRemaining) nSigsRemaining nKeysRemaining
    else pure fSuccess

/-- The loop for `areAllSignaturesNull`, from signature `i` on. -/
def allSignaturesNull (idxTopSig : ℕ) : ℕ → ℕ → StackM Bool
  | 0, _ => pure true
  | n + 1, i => do
    let vchSig ← stacktop (idxTopSig + i)
    if vchSig ≠ [] then pure false else allSignaturesNull idxTopSig n (i + 1)

/-- The loop of the Schnorr branch, from signature `iSig` on. -/
def schnorrLoop (checkBits idxBottomSig idxBottomKey nKeysCount : ℕ) : ℕ → ℕ → ℕ → StackM ℕ
  | 0, _, iKey => pure iKey
  | n + 1, iSig, iKey => do
    check (checkBits >>> iKey ≠ 0) .INVALID_BIT_RANGE
    let iKey := nextKey checkBits 32 iKey
    check (iKey < nKeysCount) .PUBKEY_COUNT
    let vchSig ← stacktop (idxBottomSig - iSig)
    let vchPubKey ← stacktop (idxBottomKey - iKey)
    checkTransactionSchnorrSignatureEncoding env.flags vchSig
    checkPubKeyEncoding env.flags vchPubKey
    let fOk ← env.checker.checkSig vchSig vchPubKey scriptCode env.flags
    check fOk .SIG_NULLFAIL
    schnorrLoop checkBits idxBottomSig idxBottomKey nKeysCount n (iSig + 1) (iKey + 1)

/-- The legacy branch. -/
def legacyMultiSig (idxTopSig idxTopKey nSigsCount nKeysCount : ℕ) : StackM (Bool × ℕ) := do
  let fSuccess ← legacyLoop env scriptCode idxTopSig idxTopKey nSigsCount nKeysCount nKeysCount
    true nSigsCount nKeysCount
  let areAllSignaturesNull ← allSignaturesNull idxTopSig nSigsCount 0
  check (fSuccess ∨ ¬ hasFlag env.flags .SCRIPT_VERIFY_NULLFAIL ∨ areAllSignaturesNull)
    .SIG_NULLFAIL
  return (fSuccess, if areAllSignaturesNull then 0 else nKeysCount)

/-- The Schnorr branch. -/
def schnorrMultiSig (idxDummy idxTopSig idxTopKey nSigsCount nKeysCount : ℕ) :
    StackM (Bool × ℕ) := do
  let vchDummy ← stacktop idxDummy
  let checkBits ← decodeBitfield vchDummy nKeysCount
  check (countBits checkBits = nSigsCount) .INVALID_BIT_COUNT
  let idxBottomKey := idxTopKey + nKeysCount - 1
  let idxBottomSig := idxTopSig + nSigsCount - 1
  let iKey ← schnorrLoop env scriptCode checkBits idxBottomSig idxBottomKey nKeysCount nSigsCount
    0 0
  check (checkBits >>> iKey = 0) .INVALID_BIT_COUNT
  return (true, nSigsCount)

/-- `OP_CHECKMULTISIG` and `OP_CHECKMULTISIGVERIFY` : the number of signature checks and that of
the keys. -/
def checkMultiSigOp (nOpCount : ℕ) (verify? : Option ScriptError) : StackM (ℕ × ℕ) := do
  let idxKeyCount := 1
  requireSize idxKeyCount
  let nKeysCount ← scriptNum env.flags (← stacktop idxKeyCount)
  check (0 ≤ nKeysCount ∧ nKeysCount ≤ maxPubkeysPerMultisig) .PUBKEY_COUNT
  check (nOpCount + nKeysCount.toNat ≤ maxOpsPerScript) .OP_COUNT
  let idxTopKey := idxKeyCount + 1
  let idxSigCount := idxTopKey + nKeysCount.toNat
  requireSize idxSigCount
  let nSigsCount ← scriptNum env.flags (← stacktop idxSigCount)
  check (0 ≤ nSigsCount ∧ nSigsCount ≤ nKeysCount) .SIG_COUNT
  let idxTopSig := idxSigCount + 1
  let idxDummy := idxTopSig + nSigsCount.toNat
  requireSize idxDummy
  let vchDummy ← stacktop idxDummy
  let verdict ←
    if hasFlag env.flags .SCRIPT_ENABLE_SCHNORR_MULTISIG ∧ vchDummy ≠ [] then
      schnorrMultiSig env scriptCode idxDummy idxTopSig idxTopKey nSigsCount.toNat nKeysCount.toNat
    else legacyMultiSig env scriptCode idxTopSig idxTopKey nSigsCount.toNat nKeysCount.toNat
  let nSigChecks ← endSig idxDummy verify? verdict
  return (nSigChecks, nKeysCount.toNat)

/-- The list stands on the stack from the depth `idxTop` down. -/
def At (stack : Stack) (idxTop : ℕ) (xs : List Valtype) : Prop :=
  ∀ i < xs.length, ∃ d, idxTop + i = d + 1 ∧ stack[d]? = xs[i]?

variable {env scriptCode} {stack : Stack} {idxTopSig idxTopKey : ℕ} {sigs keys : List Valtype}

omit [Crypto] in
theorem run_stacktop_at {β : Type} {idxTop i depth : ℕ} {xs : List Valtype}
    (h : At stack idxTop xs) (hi : i < xs.length) (hdepth : depth = idxTop + i)
    {f : Valtype → StackM β} : run (stacktop depth >>= f) stack = run (f xs[i]) stack := by
  obtain ⟨d, hd, hget⟩ := h i hi
  rw [hdepth, hd]
  exact run_stacktop (hget.trans (getElem?_eq_getElem hi))

theorem run_legacyLoop_of_not {idxTopSig idxTopKey nSigsCount nKeysCount fuel : ℕ} {fSuccess : Bool}
    {nSigsRemaining nKeysRemaining : ℤ} (h : ¬ (fSuccess = true ∧ 0 < nSigsRemaining)) :
    run (legacyLoop env scriptCode idxTopSig idxTopKey nSigsCount nKeysCount fuel fSuccess
      nSigsRemaining nKeysRemaining) stack = .ok (fSuccess, stack) := by
  cases fuel with
  | zero => rw [legacyLoop, if_neg h, run_pure]
  | succ => rw [legacyLoop, if_neg h, run_pure]

theorem legacyLoop_nil (keys : List Valtype) :
    RadiantCore.legacyLoop env scriptCode [] keys = .ok true := by
  cases keys with
  | nil => rfl
  | cons => rfl

omit [Crypto] in
theorem drop_sub_eq_cons {xs : List Valtype} {j : ℕ} (hpos : 0 < j) (hj : j ≤ xs.length)
    (hlt : xs.length - j < xs.length) :
    xs.drop (xs.length - j) = xs[xs.length - j] :: xs.drop (xs.length - (j - 1)) := by
  rw [drop_eq_getElem_cons hlt, show xs.length - j + 1 = xs.length - (j - 1) by omega]

section

variable (hsigs : At stack idxTopSig sigs)

include hsigs

/-- With `j` signatures and `k` keys left the loop of the source is that over the two lists. -/
theorem run_legacyLoop (hkeys : At stack idxTopKey keys) {fuel j k : ℕ} (hj : j ≤ sigs.length)
    (hk : k ≤ keys.length) (hjk : j ≤ k) (hfuel : k ≤ fuel) :
    run (legacyLoop env scriptCode idxTopSig idxTopKey sigs.length keys.length fuel true j k)
        stack =
      RadiantCore.legacyLoop env scriptCode (sigs.drop (sigs.length - j))
          (keys.drop (keys.length - k)) >>= fun fSuccess => .ok (fSuccess, stack) := by
  induction fuel generalizing j k with
  | zero =>
    obtain rfl : j = 0 := by omega
    rw [run_legacyLoop_of_not (by simp), Nat.sub_zero, drop_length, legacyLoop_nil, ok_bind]
  | succ fuel ih =>
    rcases Nat.eq_zero_or_pos j with rfl | hpos
    · rw [run_legacyLoop_of_not (by simp), Nat.sub_zero, drop_length, legacyLoop_nil, ok_bind]
    · have hsig : sigs.length - j < sigs.length := by omega
      have hkey : keys.length - k < keys.length := by omega
      -- what remains after this key, with or without this signature
      have hrest : ∀ i ≤ j, j ≤ i + 1 → run (legacyLoop env scriptCode idxTopSig idxTopKey
            sigs.length keys.length fuel ((i : ℤ) ≤ (k : ℤ) - 1) i ((k : ℤ) - 1)) stack =
          (if (keys.drop (keys.length - (k - 1))).length < (sigs.drop (sigs.length - i)).length
            then pure false
            else RadiantCore.legacyLoop env scriptCode (sigs.drop (sigs.length - i))
              (keys.drop (keys.length - (k - 1)))) >>= fun fSuccess => .ok (fSuccess, stack) := by
        intro i hi _
        have hcast : (k : ℤ) - 1 = (k - 1 : ℕ) := by omega
        rw [length_drop, length_drop, hcast]
        by_cases hle : i ≤ k - 1
        · rw [if_neg (by omega), decide_eq_true (by exact_mod_cast hle)]
          exact ih (by omega) (by omega) hle (by omega)
        · rw [if_pos (by omega), decide_eq_false (by exact_mod_cast hle),
            run_legacyLoop_of_not (by simp)]
          rfl
      rw [legacyLoop, if_pos ⟨rfl, by exact_mod_cast hpos⟩, run_stacktop_at hsigs hsig (by omega),
        run_stacktop_at hkeys hkey (by omega), drop_sub_eq_cons hpos hj hsig,
        drop_sub_eq_cons (by omega) hk hkey]
      simp only [RadiantCore.legacyLoop, run_lift_bind, bind_assoc]
      congr! 6 with _ fOk
      cases fOk with
      | false =>
        have h := hrest j (by omega) (by omega)
        rw [drop_sub_eq_cons hpos hj hsig] at h
        exact h
      | true =>
        have h := hrest (j - 1) (by omega) (by omega)
        rw [show ((j - 1 : ℕ) : ℤ) = (j : ℤ) - 1 by omega] at h
        exact h

omit [Crypto] in
theorem run_allSignaturesNull {n i : ℕ} (hn : i + n = sigs.length) :
    run (allSignaturesNull idxTopSig n i) stack =
      .ok ((sigs.drop i).all (· = []), stack) := by
  induction n generalizing i with
  | zero =>
    rw [drop_eq_nil_of_le (by omega)]
    rfl
  | succ n ih =>
    have hi : i < sigs.length := by omega
    rw [allSignaturesNull, run_stacktop_at hsigs hi rfl, drop_eq_getElem_cons hi,
      all_cons]
    by_cases hnull : sigs[i] = []
    · rw [if_neg (not_not.mpr hnull), ih (by omega)]
      simp [hnull]
    · rw [if_pos hnull]
      simp [hnull]

theorem run_schnorrLoop (hkeys : At stack idxTopKey keys) (hidxSig : 0 < idxTopSig)
    (hidxKey : 0 < idxTopKey) {checkBits n iSig iKey : ℕ} (hn : iSig + n = sigs.length) :
    run (schnorrLoop env scriptCode checkBits (idxTopSig + sigs.length - 1)
        (idxTopKey + keys.length - 1) keys.length n iSig iKey) stack =
      RadiantCore.schnorrLoop env scriptCode keys.reverse checkBits (sigs.reverse.drop iSig) iKey >>=
        fun iKey => .ok (iKey, stack) := by
  induction n generalizing iSig iKey with
  | zero =>
    rw [drop_eq_nil_of_le (by simp; omega)]
    rfl
  | succ n ih =>
    have hlt : iSig < sigs.reverse.length := by simp; omega
    rw [schnorrLoop, drop_eq_getElem_cons hlt, RadiantCore.schnorrLoop]
    simp only [run_check_bind, bind_assoc]
    congr! 1
    funext _
    by_cases hkey : nextKey checkBits 32 iKey < keys.length
    · have hkey' : keys.length - 1 - nextKey checkBits 32 iKey < keys.length := by omega
      have hsig' : sigs.length - 1 - iSig < sigs.length := by omega
      rw [require_pos hkey, ok_bind, run_stacktop_at hsigs hsig' (by omega),
        run_stacktop_at hkeys hkey' (by omega), getElem?_reverse hkey,
        getElem?_eq_getElem hkey', getElem_reverse]
      simp only [run_lift_bind, run_check_bind, bind_assoc]
      congr! 7
      exact funext fun _ => @ih (iSig + 1) _ (by omega)
    · rw [require_neg hkey, getElem?_eq_none (by simpa using hkey)]
      rfl

end

variable {n : ℕ} {dummy : Valtype} {verify? : Option ScriptError}

theorem run_legacyMultiSig (hsigs : At stack idxTopSig sigs) (hkeys : At stack idxTopKey keys)
    (hle : sigs.length ≤ keys.length) (hn : n ≤ stack.length) (dummy : Valtype) :
    run (legacyMultiSig env scriptCode idxTopSig idxTopKey sigs.length keys.length >>=
        endSig n verify?) stack =
      withChecks (RadiantCore.legacyMultiSig env scriptCode ⟨keys, sigs, dummy, stack.drop n⟩)
        verify? := by
  rw [legacyMultiSig, RadiantCore.legacyMultiSig, withChecks_bind]
  simp only [bind_assoc]
  rw [run_bind, run_legacyLoop hsigs hkeys (Nat.le_refl _) (Nat.le_refl _) hle (Nat.le_refl _),
    Nat.sub_self, Nat.sub_self, drop_zero, drop_zero, bind_assoc]
  congr! 1
  funext fSuccess
  rw [ok_bind, run_bind_ok (run_allSignaturesNull hsigs (Nat.zero_add _)), drop_zero]
  simp only [run_check_bind, pure_bind, run_endSig hn, withChecks_bind]
  rfl

theorem run_schnorrMultiSig {idxDummy d : ℕ} (hdummy : idxDummy = d + 1)
    (hget : stack[d]? = some dummy) (hsigs : At stack idxTopSig sigs)
    (hkeys : At stack idxTopKey keys) (hidxSig : 0 < idxTopSig) (hidxKey : 0 < idxTopKey)
    (hn : n ≤ stack.length) :
    run (schnorrMultiSig env scriptCode idxDummy idxTopSig idxTopKey sigs.length keys.length >>=
        endSig n verify?) stack =
      withChecks (RadiantCore.schnorrMultiSig env scriptCode ⟨keys, sigs, dummy, stack.drop n⟩)
        verify? := by
  rw [schnorrMultiSig, RadiantCore.schnorrMultiSig, withChecks_bind, hdummy]
  simp only [bind_assoc, withChecks_bind]
  rw [run_stacktop hget, run_lift_bind]
  congr! 1
  funext checkBits
  rw [run_check_bind]
  congr! 1
  funext _
  rw [run_bind, run_schnorrLoop hsigs hkeys hidxSig hidxKey (Nat.zero_add _), drop_zero,
    bind_assoc]
  congr! 1
  funext iKey
  rw [ok_bind, run_check_bind]
  congr! 1
  funext _
  exact run_endSig hn verify? true sigs.length

/-- The result of `OP_CHECKMULTISIG`, with the number of signature checks and that of the keys. -/
def withCounts (result : Except ScriptFailure (SigResult × ℕ)) (verify? : Option ScriptError) :
    Except ScriptFailure ((ℕ × ℕ) × Stack) := do
  let (res, nKeysCount) ← result
  let stack ← res.finish verify?
  return ((res.nSigChecks, nKeysCount), stack)

omit [Crypto] in
theorem at_append (front xs back : List Valtype) {idxTop : ℕ} (h : idxTop = front.length + 1) :
    At (front ++ (xs ++ back)) idxTop xs := by
  intro i hi
  refine ⟨front.length + i, by omega, ?_⟩
  rw [getElem?_append_right (Nat.le_add_right _ _), Nat.add_sub_cancel_left,
    getElem?_append_left hi]

omit [Crypto] in
theorem exists_front_of_drop {xs s : List Valtype} {y : Valtype} {n : ℕ}
    (h : xs.drop n = y :: s) : ∃ front, xs = front ++ y :: s ∧ n = front.length := by
  refine ⟨xs.take n, by rw [← h, take_append_drop], ?_⟩
  have hlen := congrArg length h
  rw [length_drop, length_cons] at hlen
  rw [length_take]
  omega

omit [Crypto] in
theorem getElem?_append_cons (front s : List Valtype) (y : Valtype) :
    (front ++ y :: s)[front.length]? = some y := by
  rw [getElem?_append_right (Nat.le_refl _), Nat.sub_self, getElem?_cons_zero]

omit [Crypto] in
/-- The arguments on the stack : the number of keys `x`, the keys, the number of signatures `y`,
the signatures and the dummy. -/
theorem multiSig_layout (x y dummy : Valtype) (keys sigs rest : List Valtype) :
    At (x :: (keys ++ y :: (sigs ++ dummy :: rest))) (1 + 1) keys ∧
      At (x :: (keys ++ y :: (sigs ++ dummy :: rest))) (1 + 1 + keys.length + 1) sigs ∧
      (x :: (keys ++ y :: (sigs ++ dummy :: rest)))[keys.length + sigs.length + 2]? =
        some dummy ∧
      (x :: (keys ++ y :: (sigs ++ dummy :: rest))).drop (1 + 1 + keys.length + 1 + sigs.length) =
        rest := by
  have happ : x :: (keys ++ y :: (sigs ++ dummy :: rest)) =
      (x :: keys ++ [y]) ++ (sigs ++ dummy :: rest) := by simp
  have hlen : (x :: keys ++ [y]).length = keys.length + 2 := by simp
  refine ⟨at_append [x] keys _ rfl, ?_, ?_, ?_⟩
  · rw [happ]
    exact at_append _ sigs _ (by omega)
  · rw [happ, getElem?_append_right (by omega), getElem?_append_right (by omega),
      getElem?_cons, if_pos (by omega)]
  · rw [show x :: (keys ++ y :: (sigs ++ dummy :: rest)) =
      (x :: keys ++ y :: sigs ++ [dummy]) ++ rest by simp]
    refine drop_left' ?_
    simp only [length_append, length_cons, length_nil]
    omega

theorem run_checkMultiSigOp (nOpCount : ℕ) (stack : Stack) :
    run (checkMultiSigOp env scriptCode nOpCount verify?) stack =
      withCounts (RadiantCore.checkMultiSigOp env nOpCount scriptCode stack) verify? := by
  match stack with
  | [] => rfl
  | x :: s =>
    simp only [checkMultiSigOp, RadiantCore.checkMultiSigOp, multiSigArgs, run_requireSize_one,
      run_stacktop_one, run_lift_bind, run_check_bind, withCounts, bind_assoc]
    congr! 1
    funext nKeysCount
    congr! 3
    funext _
    cases hdrop : s.drop nKeysCount.toNat with
    | nil =>
      have hlen := drop_eq_nil_iff.mp hdrop
      exact run_requireSize_of_lt (by rw [length_cons]; omega)
    | cons y s' =>
      obtain ⟨keys, rfl, hkeys⟩ := exists_front_of_drop hdrop
      rw [hkeys, run_requireSize (by simp only [length_cons, length_append]; omega),
        run_stacktop_of_eq (Nat.add_comm _ _) (getElem?_append_cons keys s' y),
        run_lift_bind, take_left]
      simp only [bind_assoc]
      congr! 1
      funext nSigsCount
      rw [run_check_bind]
      by_cases hcount : 0 ≤ nSigsCount ∧ nSigsCount ≤ nKeysCount
      swap
      · rw [require_neg hcount, error_bind, error_bind]
      rw [require_pos hcount, ok_bind, ok_bind]
      cases hdrop' : s'.drop nSigsCount.toNat with
      | nil =>
        have hlen := drop_eq_nil_iff.mp hdrop'
        exact run_requireSize_of_lt
          (by simp only [length_cons, length_append]; omega)
      | cons dummy rest =>
        obtain ⟨sigs, rfl, hsigs⟩ := exists_front_of_drop hdrop'
        obtain ⟨hkeysAt, hsigsAt, hdummy, hrest⟩ := multiSig_layout x y dummy keys sigs rest
        have hn : 1 + 1 + keys.length + 1 + sigs.length ≤
            (x :: (keys ++ y :: (sigs ++ dummy :: rest))).length := by
          simp only [length_cons, length_append]
          omega
        have hidx : 1 + 1 + keys.length + 1 + sigs.length = keys.length + sigs.length + 2 + 1 := by
          omega
        rw [hsigs, run_requireSize hn, take_left, hidx, run_stacktop hdummy, ← hidx]
        simp only [pure_bind]
        split_ifs
        · rw [← bind_assoc, run_bind, run_schnorrMultiSig hidx hdummy hsigsAt hkeysAt (by omega)
            (by omega) hn, hrest, withChecks]
          simp only [bind_assoc]
          rfl
        · rw [← bind_assoc, run_bind, run_legacyMultiSig hsigsAt hkeysAt (by omega) hn dummy, hrest,
            withChecks]
          simp only [bind_assoc]
          rfl

end Multisig

/-! ## The switch -/

/-- The condition `OP_IF` or `OP_NOTIF` pops. -/
def popCondition (opcode : Opcode) : StackM Bool := do
  check ((← get).length ≥ 1) .UNBALANCED_CONDITIONAL
  let vch ← stacktop 1
  check (hasFlag env.flags .SCRIPT_VERIFY_MINIMALIF → vch = [] ∨ vch = [1]) .MINIMALIF
  popstack
  return if opcode = OP_NOTIF then !castToBool vch else castToBool vch

theorem run_popCondition (opcode : Opcode) (stack : Stack) :
    run (popCondition env opcode) stack = RadiantCore.popCondition env opcode stack := by
  match stack with
  | [] => rfl
  | x :: s =>
    simp only [popCondition, RadiantCore.popCondition, run_get_bind, run_check_bind,
      run_stacktop_one, run_popstack_bind]
    rw [require_pos (by simp), ok_bind]
    rfl

/-- The cases of the switch that change the stack only. -/
def stackOp (code : CScript) (opcode : Opcode) (vchPushValue : Valtype) : StackM Unit :=
  match opcode with
  | OP_1NEGATE | OP_1 | OP_2 | OP_3 | OP_4 | OP_5 | OP_6 | OP_7 | OP_8 | OP_9 | OP_10 | OP_11
  | OP_12 | OP_13 | OP_14 | OP_15 | OP_16 =>
    pushBack (CScriptNum.serialize (opcode.toByte.toNat - 0x50))
  | OP_NOP => pure ()
  | OP_CHECKLOCKTIMEVERIFY => checkLockTimeVerify env
  | OP_CHECKSEQUENCEVERIFY => checkSequenceVerify env
  | OP_NOP1 | OP_NOP4 | OP_NOP5 | OP_NOP6 | OP_NOP7 | OP_NOP8 | OP_NOP9 | OP_NOP10 =>
    if hasFlag env.flags .SCRIPT_VERIFY_DISCOURAGE_UPGRADABLE_NOPS then
      throw (.error .DISCOURAGE_UPGRADABLE_NOPS)
    else pure ()
  | OP_VERIFY => verify
  | OP_2DROP | OP_2DUP | OP_3DUP | OP_2OVER | OP_2ROT | OP_2SWAP | OP_IFDUP | OP_DROP | OP_DUP
  | OP_NIP | OP_OVER | OP_ROT | OP_SWAP | OP_TUCK => shuffle opcode
  | OP_DEPTH => do pushBack (CScriptNum.serialize (← get).length)
  | OP_PICK | OP_ROLL => pickOrRoll env.flags opcode
  | OP_SIZE => size
  | OP_AND => bitwise (· &&& ·)
  | OP_OR => bitwise (· ||| ·)
  | OP_XOR => bitwise (· ^^^ ·)
  | OP_INVERT => invert
  | OP_LSHIFT => shift env.flags StackOp.lShift
  | OP_RSHIFT => shift env.flags StackOp.rShift
  | OP_EQUAL => equal false
  | OP_EQUALVERIFY => equal true
  | OP_1ADD | OP_1SUB | OP_2MUL | OP_2DIV | OP_NEGATE | OP_ABS | OP_NOT | OP_0NOTEQUAL =>
    unaryNumeric env.flags opcode
  | OP_ADD | OP_SUB | OP_MUL | OP_DIV | OP_MOD | OP_BOOLAND | OP_BOOLOR | OP_NUMEQUAL
  | OP_NUMEQUALVERIFY | OP_NUMNOTEQUAL | OP_LESSTHAN | OP_GREATERTHAN | OP_LESSTHANOREQUAL
  | OP_GREATERTHANOREQUAL | OP_MIN | OP_MAX => binaryNumeric env.flags opcode
  | OP_WITHIN => within env.flags
  | OP_RIPEMD160 | OP_SHA1 | OP_SHA256 | OP_HASH160 | OP_HASH256 | OP_SHA512_256
  | OP_HASH512_256 | OP_BLAKE3 | OP_K12 => hash opcode
  | OP_CAT => cat
  | OP_SPLIT => split env.flags
  | OP_REVERSEBYTES => reverseBytes
  | OP_NUM2BIN => num2bin env.flags
  | OP_BIN2NUM => bin2num env.flags
  | OP_INPUTINDEX | OP_ACTIVEBYTECODE | OP_TXVERSION | OP_TXINPUTCOUNT | OP_TXOUTPUTCOUNT
  | OP_TXLOCKTIME => do
    let context ← queryContext env.flags (some .SCRIPT_NATIVE_INTROSPECTION) env.context
    let vch ← context.nullary code opcode
    pushBack vch
  | OP_UTXOVALUE | OP_UTXOBYTECODE | OP_OUTPOINTTXHASH | OP_OUTPOINTINDEX | OP_INPUTBYTECODE
  | OP_INPUTSEQUENCENUMBER | OP_OUTPUTVALUE | OP_OUTPUTBYTECODE => do
    let context ← queryContext env.flags (some .SCRIPT_NATIVE_INTROSPECTION) env.context
    query (context.unary env.flags opcode)
  | OP_REQUIREINPUTREF | OP_DISALLOWPUSHINPUTREFSIBLING => do
    check (vchPushValue.length = 36) .INVALID_TX_REF_SIZE
    pushBack vchPushValue
  | OP_STATESEPARATOR => check (hasFlag env.flags .SCRIPT_ENHANCED_REFERENCES) .BAD_OPCODE
  | OP_PUSH_TX_STATE | OP_REFHASHDATASUMMARY_UTXO | OP_REFHASHDATASUMMARY_OUTPUT
  | OP_REFHASHVALUESUM_UTXOS | OP_REFHASHVALUESUM_OUTPUTS | OP_REFVALUESUM_UTXOS
  | OP_REFVALUESUM_OUTPUTS | OP_REFTYPE_UTXO | OP_REFTYPE_OUTPUT | OP_STATESEPARATORINDEX_UTXO
  | OP_STATESEPARATORINDEX_OUTPUT | OP_REFOUTPUTCOUNT_UTXOS | OP_REFOUTPUTCOUNT_OUTPUTS
  | OP_REFOUTPUTCOUNTZEROVALUED_UTXOS | OP_REFOUTPUTCOUNTZEROVALUED_OUTPUTS
  | OP_REFDATASUMMARY_UTXO | OP_REFDATASUMMARY_OUTPUT | OP_CODESCRIPTHASHVALUESUM_UTXOS
  | OP_CODESCRIPTHASHVALUESUM_OUTPUTS | OP_CODESCRIPTHASHOUTPUTCOUNT_UTXOS
  | OP_CODESCRIPTHASHOUTPUTCOUNT_OUTPUTS | OP_CODESCRIPTHASHZEROVALUEDOUTPUTCOUNT_UTXOS
  | OP_CODESCRIPTHASHZEROVALUEDOUTPUTCOUNT_OUTPUTS | OP_CODESCRIPTBYTECODE_UTXO
  | OP_CODESCRIPTBYTECODE_OUTPUT | OP_STATESCRIPTBYTECODE_UTXO
  | OP_STATESCRIPTBYTECODE_OUTPUT => do
    let context ← queryContext env.flags (requiredFlag opcode) env.context
    query (context.references env.flags opcode)
  | _ => throw (.error .BAD_OPCODE)

theorem run_stackOp (code : CScript) (opcode : Opcode) (vch : Valtype) (stack : Stack) :
    run (stackOp env code opcode vch) stack =
      onlyStack (RadiantCore.stackOp env code opcode vch stack) := by
  have hnullary : run (do
        let context ← queryContext env.flags (some .SCRIPT_NATIVE_INTROSPECTION) env.context
        let vch ← context.nullary code opcode
        pushBack vch) stack = onlyStack (do
      let context ← queryContext env.flags (some .SCRIPT_NATIVE_INTROSPECTION) env.context
      let vch ← context.nullary code opcode
      return vch :: stack) := by
    simp
  have hquery : ∀ {flag? : Option ScriptFlag}
      {answer : ScriptExecutionContext → Stack → Except ScriptFailure Stack},
      (∀ c, answer c [] = invalidStackOperation) → run (do
        let context ← queryContext env.flags flag? env.context
        query (answer context)) stack = onlyStack (do
      let context ← queryContext env.flags flag? env.context
      answer context stack) := by
    intro flag? answer hnil
    rw [run_lift_bind, onlyStack_bind]
    exact congrArg _ (funext fun c => run_query (hnil c) stack)
  have hnop : run (if hasFlag env.flags .SCRIPT_VERIFY_DISCOURAGE_UPGRADABLE_NOPS then
        throw (.error .DISCOURAGE_UPGRADABLE_NOPS) else pure ()) stack = onlyStack
      (if hasFlag env.flags .SCRIPT_VERIFY_DISCOURAGE_UPGRADABLE_NOPS then
        scriptError .DISCOURAGE_UPGRADABLE_NOPS else .ok stack) := by
    split_ifs
    · rfl
    · rfl
  have hshuffle := run_shuffle stack opcode
  have hpushRef : run (do
        check (vch.length = 36) .INVALID_TX_REF_SIZE
        pushBack vch) stack = onlyStack (pushRef vch stack) := by
    simp [pushRef]
  have hseparator : run (check (hasFlag env.flags .SCRIPT_ENHANCED_REFERENCES) .BAD_OPCODE)
      stack = onlyStack (do
        require (hasFlag env.flags .SCRIPT_ENHANCED_REFERENCES) (.error .BAD_OPCODE)
        return stack) := by
    simp
  cases opcode
  case OP_CHECKLOCKTIMEVERIFY => exact run_checkLockTimeVerify env stack
  case OP_CHECKSEQUENCEVERIFY => exact run_checkSequenceVerify env stack
  case OP_NOP1 | OP_NOP4 | OP_NOP5 | OP_NOP6 | OP_NOP7 | OP_NOP8 | OP_NOP9 | OP_NOP10 =>
    exact hnop
  case OP_VERIFY => exact run_verify stack
  case OP_2DROP | OP_2DUP | OP_3DUP | OP_2OVER | OP_2ROT | OP_2SWAP | OP_IFDUP | OP_DROP
      | OP_DUP | OP_NIP | OP_OVER | OP_ROT | OP_SWAP | OP_TUCK => exact hshuffle
  case OP_PICK | OP_ROLL => exact run_pickOrRoll stack _ _
  case OP_SIZE => exact run_size stack
  case OP_AND | OP_OR | OP_XOR => exact run_bitwise stack _
  case OP_INVERT => exact run_invert stack
  case OP_LSHIFT | OP_RSHIFT => exact run_shift stack _ _
  case OP_EQUAL | OP_EQUALVERIFY => exact run_equal stack _
  case OP_1ADD | OP_1SUB | OP_2MUL | OP_2DIV | OP_NEGATE | OP_ABS | OP_NOT | OP_0NOTEQUAL =>
    exact run_unaryNumeric stack _ _
  case OP_ADD | OP_SUB | OP_MUL | OP_DIV | OP_MOD | OP_BOOLAND | OP_BOOLOR | OP_NUMEQUAL
      | OP_NUMEQUALVERIFY | OP_NUMNOTEQUAL | OP_LESSTHAN | OP_GREATERTHAN | OP_LESSTHANOREQUAL
      | OP_GREATERTHANOREQUAL | OP_MIN | OP_MAX => exact run_binaryNumeric stack _ _
  case OP_WITHIN => exact run_within stack _
  case OP_RIPEMD160 | OP_SHA1 | OP_SHA256 | OP_HASH160 | OP_HASH256 | OP_SHA512_256
      | OP_HASH512_256 | OP_BLAKE3 | OP_K12 => exact run_hash stack _
  case OP_CAT => exact run_cat stack
  case OP_SPLIT => exact run_split stack _
  case OP_REVERSEBYTES => exact run_reverseBytes stack
  case OP_NUM2BIN => exact run_num2bin stack _
  case OP_BIN2NUM => exact run_bin2num stack _
  case OP_INPUTINDEX | OP_ACTIVEBYTECODE | OP_TXVERSION | OP_TXINPUTCOUNT | OP_TXOUTPUTCOUNT
      | OP_TXLOCKTIME => exact hnullary
  case OP_REQUIREINPUTREF | OP_DISALLOWPUSHINPUTREFSIBLING => exact hpushRef
  case OP_STATESEPARATOR => exact hseparator
  -- The other queries, and what neither side looks into.
  all_goals first
    | exact hquery fun _ => rfl
    | rfl

/-- Take the element on top of a stack. -/
def takeTop : StackM Valtype := do
  let vch ← stacktop 1
  popstack
  return vch

/-- The switch of `EvalScript`. -/
def execOp (fExec : Bool) (op : ScriptOp) (opcode : Opcode) (st : EvalState) :
    Except ScriptFailure Progress :=
  match opcode with
  | OP_IF | OP_NOTIF => do
    let (fValue, stack) ←
      if fExec then run (popCondition env opcode) st.stack else pure (false, st.stack)
    return .next { st with stack := stack, vfExec := st.vfExec.pushBack fValue }
  | OP_TOALTSTACK => do
    let (vch, stack) ← run (do requireSize 1; takeTop) st.stack
    return .next { st with stack := stack, altstack := vch :: st.altstack }
  | OP_FROMALTSTACK => do
    require (st.altstack.length ≥ 1) (.error .INVALID_ALTSTACK_OPERATION)
    let (vch, altstack) ← run takeTop st.altstack
    return .next { st with stack := vch :: st.stack, altstack := altstack }
  | OP_CHECKSIG | OP_CHECKSIGVERIFY => do
    let (nSigChecks, stack) ← run (checkSigOp env st.pbegincodehash
      (if opcode = OP_CHECKSIGVERIFY then some .CHECKSIGVERIFY else none)) st.stack
    return .next { st with stack := stack, metrics := st.metrics + ⟨nSigChecks, []⟩ }
  | OP_CHECKDATASIG | OP_CHECKDATASIGVERIFY => do
    let (nSigChecks, stack) ← run (checkDataSigOp env
      (if opcode = OP_CHECKDATASIGVERIFY then some .CHECKDATASIGVERIFY else none)) st.stack
    return .next { st with stack := stack, metrics := st.metrics + ⟨nSigChecks, []⟩ }
  | OP_CHECKMULTISIG | OP_CHECKMULTISIGVERIFY => do
    let ((nSigChecks, nKeysCount), stack) ← run (checkMultiSigOp env st.pbegincodehash st.nOpCount
      (if opcode = OP_CHECKMULTISIGVERIFY then some .CHECKMULTISIGVERIFY else none)) st.stack
    return .next { st with
      stack := stack
      nOpCount := st.nOpCount + nKeysCount
      metrics := st.metrics + ⟨nSigChecks, []⟩ }
  -- These push, or look at whether a stack is empty, but do not reach into it.
  | OP_ELSE | OP_ENDIF | OP_RETURN | OP_CODESEPARATOR | OP_PUSHINPUTREF
  | OP_PUSHINPUTREFSINGLETON | OP_DISALLOWPUSHINPUTREF => RadiantCore.execOp env fExec op opcode st
  | _ => do
    let (_, stack) ← run (stackOp env st.pbegincodehash opcode op.vch) st.stack
    return .next { st with stack := stack }

theorem execOp_eq (fExec : Bool) (op : ScriptOp) (opcode : Opcode) (st : EvalState) :
    execOp env fExec op opcode st = RadiantCore.execOp env fExec op opcode st := by
  have hstack : (do
      let (_, stack) ← run (stackOp env st.pbegincodehash opcode op.vch) st.stack
      return Progress.next { st with stack := stack }) = (do
      let stack ← RadiantCore.stackOp env st.pbegincodehash opcode op.vch st.stack
      return Progress.next { st with stack := stack }) := by
    rw [run_stackOp, onlyStack, bind_assoc]
    rfl
  have hcond : (do
      let (fValue, stack) ←
        if fExec then run (popCondition env opcode) st.stack else pure (false, st.stack)
      return Progress.next { st with stack := stack, vfExec := st.vfExec.pushBack fValue }) = (do
      let (fValue, stack) ←
        if fExec then RadiantCore.popCondition env opcode st.stack else pure (false, st.stack)
      return Progress.next { st with stack := stack, vfExec := st.vfExec.pushBack fValue }) := by
    rw [run_popCondition]
  cases opcode
  case OP_IF | OP_NOTIF => exact hcond
  case OP_TOALTSTACK =>
    simp only [execOp, RadiantCore.execOp]
    cases st.stack with
    | nil => rfl
    | cons => rfl
  case OP_FROMALTSTACK =>
    simp only [execOp, RadiantCore.execOp]
    cases st.altstack with
    | nil => rfl
    | cons => rfl
  case OP_CHECKSIG | OP_CHECKSIGVERIFY =>
    simp only [execOp, RadiantCore.execOp, run_checkSigOp, withChecks, EvalState.withSig, bind_assoc]
    rfl
  case OP_CHECKDATASIG | OP_CHECKDATASIGVERIFY =>
    simp only [execOp, RadiantCore.execOp, run_checkDataSigOp, withChecks, EvalState.withSig,
      bind_assoc]
    rfl
  case OP_CHECKMULTISIG | OP_CHECKMULTISIGVERIFY =>
    simp only [execOp, RadiantCore.execOp, run_checkMultiSigOp, withCounts, EvalState.withSig,
      bind_assoc]
    rfl
  case OP_ELSE | OP_ENDIF | OP_RETURN | OP_CODESEPARATOR | OP_PUSHINPUTREF
      | OP_PUSHINPUTREFSINGLETON | OP_DISALLOWPUSHINPUTREF => rfl
  all_goals exact hstack

/-! ## The loop -/

/-- The part of an iteration that executes the operation. -/
def dispatch (op : ScriptOp) (st : EvalState) : Except ScriptFailure Progress :=
  let fExec := st.vfExec.allTrue
  if fExec ∧ op.opcode ≤ OP_PUSHDATA4 then do
    require (hasFlag env.flags .SCRIPT_VERIFY_MINIMALDATA → checkMinimalPush op.vch op.opcode)
      (.error .MINIMALDATA)
    return .next { st with stack := op.vch :: st.stack }
  else if fExec ∨ OP_IF ≤ op.opcode ∧ op.opcode ≤ OP_ENDIF then
    match Opcode.ofByte? op.opcode with
    | some opcode => execOp env fExec op opcode st
    | none => scriptError .BAD_OPCODE
  else .ok (.next st)

/-- One iteration of the loop, after the operation is read. -/
def evalOp (op : ScriptOp) (st : EvalState) : Except ScriptFailure Progress := do
  require (op.vch.length ≤ maxScriptElementSize) (.error .PUSH_SIZE)
  let counted : ℕ := if op.opcode > OP_16 then 1 else 0
  require (op.opcode > OP_16 → st.nOpCount + counted ≤ maxOpsPerScript) (.error .OP_COUNT)
  require (¬ isOpcodeDisabled op.opcode env.flags) (.error .DISABLED_OPCODE)
  let progress ← dispatch env op { st with nOpCount := st.nOpCount + counted }
  match progress with
  | .done st => return .done st
  | .next st => do
    require (st.stack.length + st.altstack.length ≤ maxStackSize) (.error .STACK_SIZE)
    return .next st

/-- The loop of `EvalScript`. -/
def evalLoop : List (Option ScriptOp) → EvalState → Except ScriptFailure Progress
  | [], st => .ok (.next st)
  | none :: _, _ => scriptError .BAD_OPCODE
  | some op :: ops, st => do
    let progress ← evalOp env op st
    match progress with
    | .done st => return .done st
    | .next st => evalLoop ops st

theorem evalOp_eq (op : ScriptOp) (st : EvalState) :
    evalOp env op st = RadiantCore.evalOp env op st := by
  have hdispatch : ∀ st, dispatch env op st = RadiantCore.dispatch env op st := by
    intro st
    simp only [dispatch, execOp_eq]
    rfl
  simp only [evalOp, hdispatch]
  rfl

/-- The loop with the accesses of the source is the loop of the interpreter. -/
theorem evalLoop_eq (ops : List (Option ScriptOp)) (st : EvalState) :
    evalLoop env ops st = RadiantCore.evalLoop env ops st := by
  induction ops generalizing st with
  | nil => rfl
  | cons read ops ih =>
    cases read with
    | none => rfl
    | some op =>
      simp only [evalLoop, evalOp_eq, ih]
      rfl

end Switch

end EvalScript

end RadiantCore
