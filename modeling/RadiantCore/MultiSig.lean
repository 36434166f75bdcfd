import RadiantCore.CallLog
import RadiantCore.Interpreter
import Mathlib.Data.Nat.Nth

/-!
# Multisignatures

`OP_CHECKMULTISIG` checks `m` signatures against `n` keys in one of two ways. The legacy branch
walks down both lists and gives up when fewer keys than signatures remain. This greedy walk misses
no solution : it succeeds exactly when the signatures can be assigned to keys in order
(`legacy_multisig_iff`). The Schnorr branch is told by a bit field which keys to use, so it checks
each signature once (`schnorr_multisig_bits`).

What a branch does on the way is the log of the calls of `CheckSig` and of the checks of the source
that should never fail. The two loops are repeated with this log, and without it they are the loops
of the interpreter (`result_legacyMultiSigTrace`, `result_schnorrMultiSigTrace`).
-/

namespace RadiantCore

open List

/-! ## Assignments in order -/

section Assignment

variable {α β : Type} {r : α → β → Prop} {a : α} {b : β} {as : List α} {bs : List β}

/-- What the first candidate is used for can be left out. -/
theorem sublistForall₂_tail (h : List.SublistForall₂ r (a :: as) (b :: bs)) :
    List.SublistForall₂ r as bs := by
  rw [sublistForall₂_iff] at h ⊢
  obtain ⟨cs, hmatch, hsub⟩ := h
  cases hmatch with
  | cons _ htail => exact ⟨_, htail, hsub.tail⟩

/-- The exchange argument : if the first item fits the first candidate, nothing is lost by matching
them. -/
theorem sublistForall₂_cons_iff_of_rel (hr : r a b) :
    List.SublistForall₂ r (a :: as) (b :: bs) ↔ List.SublistForall₂ r as bs :=
  ⟨sublistForall₂_tail, .cons hr⟩

theorem sublistForall₂_cons_iff_of_not_rel (hr : ¬ r a b) :
    List.SublistForall₂ r (a :: as) (b :: bs) ↔ List.SublistForall₂ r (a :: as) bs := by
  refine ⟨fun h => ?_, .cons_right⟩
  cases h with
  | cons hab _ => exact absurd hab hr
  | cons_right h => exact h

theorem SublistForall₂.length_le (h : List.SublistForall₂ r as bs) : as.length ≤ bs.length := by
  obtain ⟨cs, hmatch, hsub⟩ := sublistForall₂_iff.mp h
  exact hmatch.length_eq ▸ hsub.length_le

/-- A match in order is a strictly increasing map of positions. -/
theorem sublistForall₂_iff_strictMono : List.SublistForall₂ r as bs ↔
    ∃ f : Fin as.length → Fin bs.length, StrictMono f ∧ ∀ i, r (as.get i) (bs.get (f i)) := by
  rw [sublistForall₂_iff]
  constructor
  · rintro ⟨cs, hmatch, hsub⟩
    obtain ⟨f, hf⟩ := sublist_iff_exists_fin_orderEmbedding_get_eq.mp hsub
    refine ⟨fun i => f (i.cast hmatch.length_eq), fun i j hij => f.strictMono hij, fun i => ?_⟩
    rw [← hf]
    exact hmatch.get i.isLt (hmatch.length_eq ▸ i.isLt)
  · rintro ⟨f, hmono, hr⟩
    refine ⟨ofFn fun i => bs.get (f i), ?_, ?_⟩
    · refine forall₂_iff_get.mpr ⟨by simp, fun i h₁ h₂ => ?_⟩
      simpa using hr ⟨i, h₁⟩
    · have hcast : (ofFn fun i => bs.get (f i)).length = as.length := by simp
      refine sublist_iff_exists_fin_orderEmbedding_get_eq.mpr
        ⟨.ofStrictMono (fun i => f (i.cast hcast)) fun i j hij => hmono hij, fun i => ?_⟩
      rw [get_ofFn]
      rfl

end Assignment

/-! ## The branches with their log -/

/-- What a branch of `OP_CHECKMULTISIG` does on the way. -/
inductive MultiSigEvent
  /-- A call of `CheckSig`. -/
  | checkSig (vchSig vchPubKey : Valtype)
  /-- A branch the source marks as unreachable, with its error. -/
  | unreachable (e : ScriptError)
deriving DecidableEq

namespace MultiSigEvent

/-- The event is a call of `CheckSig`. -/
def isCheckSig : MultiSigEvent → Bool
  | checkSig _ _ => true
  | unreachable _ => false

end MultiSigEvent

/-- A computation of `OP_CHECKMULTISIG` with its log. -/
abbrev MultiSigTrace := Logged MultiSigEvent ScriptFailure

section Trace

variable [Crypto] (env : EvalEnv) (scriptCode : CScript)

/-- A call of `CheckSig`. -/
def callCheckSig (vchSig vchPubKey : Valtype) : MultiSigTrace Bool :=
  ⟨[.checkSig vchSig vchPubKey], env.checker.checkSig vchSig vchPubKey scriptCode env.flags⟩

/-- `legacyLoop`, with its log. -/
def legacyTrace : (sigs keys : List Valtype) → MultiSigTrace Bool
  | [], _ => pure true
  | _ :: _, [] => pure false
  | vchSig :: sigs, vchPubKey :: keys => do
    .silent (checkTransactionECDSASignatureEncoding env.flags vchSig)
    .silent (checkPubKeyEncoding env.flags vchPubKey)
    let fOk ← callCheckSig env scriptCode vchSig vchPubKey
    let sigs := if fOk then sigs else vchSig :: sigs
    if keys.length < sigs.length then return false
    else legacyTrace sigs keys
termination_by structural _ keys => keys

/-- `legacyMultiSig`, with its log. -/
def legacyMultiSigTrace (args : MultiSigArgs) : MultiSigTrace SigResult := do
  let fSuccess ← legacyTrace env scriptCode args.sigs args.keys
  let areAllSignaturesNull := args.sigs.all (· = [])
  .silent (require
    (fSuccess ∨ ¬ hasFlag env.flags .SCRIPT_VERIFY_NULLFAIL ∨ areAllSignaturesNull)
    (.error .SIG_NULLFAIL))
  return ⟨fSuccess, if areAllSignaturesNull then 0 else args.keys.length, args.rest⟩

/-- `schnorrLoop`, with its log. -/
def schnorrTrace (keys : List Valtype) (checkBits : ℕ) : List Valtype → ℕ → MultiSigTrace ℕ
  | [], iKey => pure iKey
  | vchSig :: sigs, iKey =>
    if checkBits >>> iKey = 0 then
      .fail (.unreachable .INVALID_BIT_RANGE) (.error .INVALID_BIT_RANGE)
    else
      let iKey := nextKey checkBits 32 iKey
      match keys[iKey]? with
      | none => .fail (.unreachable .PUBKEY_COUNT) (.error .PUBKEY_COUNT)
      | some vchPubKey => do
        .silent (checkTransactionSchnorrSignatureEncoding env.flags vchSig)
        .silent (checkPubKeyEncoding env.flags vchPubKey)
        let fOk ← callCheckSig env scriptCode vchSig vchPubKey
        .silent (require fOk (.error .SIG_NULLFAIL))
        schnorrTrace keys checkBits sigs (iKey + 1)

/-- `schnorrMultiSig`, with its log. -/
def schnorrMultiSigTrace (args : MultiSigArgs) : MultiSigTrace SigResult := do
  let checkBits ← .silent (decodeBitfield args.dummy args.keys.length)
  .silent (require (countBits checkBits = args.sigs.length) (.error .INVALID_BIT_COUNT))
  let iKey ← schnorrTrace env scriptCode args.keys.reverse checkBits args.sigs.reverse 0
  if checkBits >>> iKey = 0 then return ⟨true, args.sigs.length, args.rest⟩
  else .fail (.unreachable .INVALID_BIT_COUNT) (.error .INVALID_BIT_COUNT)

/-! Without the log they are the definitions of the interpreter. -/

theorem result_legacyTrace (sigs keys : List Valtype) :
    (legacyTrace env scriptCode sigs keys).result = legacyLoop env scriptCode sigs keys := by
  induction keys generalizing sigs with
  | nil =>
    cases sigs with
    | nil => rfl
    | cons => rfl
  | cons vchPubKey keys ih =>
    cases sigs with
    | nil => rfl
    | cons vchSig sigs =>
      simp only [legacyTrace, legacyLoop, Logged.result_bind, Logged.result_silent, callCheckSig]
      congr! 6 with _ _ fOk
      split_ifs
      · rfl
      · exact ih _
      · rfl
      · exact ih _

theorem result_legacyMultiSigTrace (args : MultiSigArgs) :
    (legacyMultiSigTrace env scriptCode args).result = legacyMultiSig env scriptCode args := by
  simp only [legacyMultiSigTrace, legacyMultiSig, Logged.result_bind, Logged.result_silent,
    result_legacyTrace]
  rfl

theorem result_schnorrTrace (keys : List Valtype) (checkBits : ℕ) (sigs : List Valtype)
    (iKey : ℕ) : (schnorrTrace env scriptCode keys checkBits sigs iKey).result =
      schnorrLoop env scriptCode keys checkBits sigs iKey := by
  induction sigs generalizing iKey with
  | nil => rfl
  | cons vchSig sigs ih =>
    unfold schnorrTrace schnorrLoop
    by_cases hbits : checkBits >>> iKey = 0
    · rw [if_pos hbits, require_neg (not_not.mpr hbits)]
      rfl
    · rw [if_neg hbits, require_pos hbits, ok_bind]
      dsimp only
      cases keys[nextKey checkBits 32 iKey]? with
      | none => rfl
      | some vchPubKey => simp only [Logged.result_bind, Logged.result_silent, callCheckSig, ih]

theorem result_schnorrMultiSigTrace (args : MultiSigArgs) :
    (schnorrMultiSigTrace env scriptCode args).result = schnorrMultiSig env scriptCode args := by
  simp only [schnorrMultiSigTrace, schnorrMultiSig, Logged.result_bind, Logged.result_silent,
    result_schnorrTrace]
  congr! 6 with checkBits _ iKey
  by_cases hbits : checkBits >>> iKey = 0
  · rw [if_pos hbits, require_pos hbits]
    rfl
  · rw [if_neg hbits, require_neg hbits]
    rfl

end Trace

/-! ## The legacy branch -/

section Legacy

variable [Crypto] {env : EvalEnv} {scriptCode : CScript}

/-- The encodings of all signatures and keys are acceptable. -/
structure EncodingsAccepted (flags : UInt32) (sigs keys : List Valtype) : Prop where
  sigs : ∀ vchSig ∈ sigs, checkTransactionECDSASignatureEncoding flags vchSig = .ok ()
  keys : ∀ vchPubKey ∈ keys, checkPubKeyEncoding flags vchPubKey = .ok ()

/-- The checker decides by the predicate `verifies`. -/
def ChecksBy (env : EvalEnv) (scriptCode : CScript) (verifies : Valtype → Valtype → Bool)
    (sigs keys : List Valtype) : Prop :=
  ∀ vchSig ∈ sigs, ∀ vchPubKey ∈ keys,
    env.checker.checkSig vchSig vchPubKey scriptCode env.flags = .ok (verifies vchSig vchPubKey)

variable {verifies : Valtype → Valtype → Bool} {sigs keys : List Valtype}

/-- The loop succeeds exactly when the remaining signatures match keys in order. -/
theorem legacyLoop_iff (henc : EncodingsAccepted env.flags sigs keys)
    (hcheck : ChecksBy env scriptCode verifies sigs keys) :
    ∃ fSuccess, legacyLoop env scriptCode sigs keys = .ok fSuccess ∧
      (fSuccess = true ↔ List.SublistForall₂ (verifies · ·) sigs keys) := by
  induction keys generalizing sigs with
  | nil =>
    cases sigs with
    | nil => exact ⟨true, rfl, by simpa using .nil⟩
    | cons vchSig sigs =>
      refine ⟨false, rfl, by simp, fun h => ?_⟩
      simpa using SublistForall₂.length_le h
  | cons vchPubKey keys ih =>
    cases sigs with
    | nil => exact ⟨true, rfl, by simpa using .nil⟩
    | cons vchSig sigs =>
      -- what remains after this key, with or without this signature
      have hrest : ∀ rest, rest ⊆ vchSig :: sigs → ∃ fSuccess,
          (if keys.length < rest.length then pure false else legacyLoop env scriptCode rest keys) =
            Except.ok fSuccess ∧
          (fSuccess = true ↔ List.SublistForall₂ (verifies · ·) rest keys) := by
        intro rest hrest
        split_ifs with hlt
        · refine ⟨false, rfl, by simp, fun h => ?_⟩
          exact absurd (SublistForall₂.length_le h) (Nat.not_le.mpr hlt)
        · exact ih ⟨fun s hs => henc.sigs s (hrest hs), (forall_mem_cons.mp henc.keys).2⟩
            fun s hs k hk => hcheck s (hrest hs) k (mem_cons_of_mem _ hk)
      rw [legacyLoop, henc.sigs _ mem_cons_self, ok_bind, henc.keys _ mem_cons_self,
        ok_bind, hcheck _ mem_cons_self _ mem_cons_self, ok_bind]
      cases hv : verifies vchSig vchPubKey with
      | true =>
        rw [sublistForall₂_cons_iff_of_rel (r := (verifies · ·)) hv]
        exact hrest sigs (subset_cons_self vchSig sigs)
      | false =>
        rw [sublistForall₂_cons_iff_of_not_rel (by simp [hv])]
        exact hrest (vchSig :: sigs) (List.Subset.refl _)

/-- The loop calls `CheckSig` at most once for a key. -/
theorem length_log_legacyTrace_le (sigs keys : List Valtype) :
    (legacyTrace env scriptCode sigs keys).log.length ≤ keys.length := by
  induction keys generalizing sigs with
  | nil =>
    cases sigs with
    | nil => exact Nat.le_refl 0
    | cons => exact Nat.le_refl 0
  | cons vchPubKey keys ih =>
    cases sigs with
    | nil => exact Nat.zero_le _
    | cons vchSig sigs =>
      have hrest : ∀ rest, ((if keys.length < rest.length then pure false
          else legacyTrace env scriptCode rest keys) : MultiSigTrace Bool).log.length ≤
            keys.length := by
        intro rest
        split_ifs
        · exact Nat.zero_le _
        · exact ih rest
      have hcall : ∀ x y : Except ScriptFailure Unit, (.silent x >>= fun _ => .silent y >>= fun _ =>
          callCheckSig env scriptCode vchSig vchPubKey >>= fun fOk =>
            if keys.length < (if fOk then sigs else vchSig :: sigs).length then pure false
            else legacyTrace env scriptCode (if fOk then sigs else vchSig :: sigs) keys :
          MultiSigTrace Bool).log.length ≤ 0 + (0 + (1 + keys.length)) := fun x y =>
        Logged.length_log_bind_le fun _ => Logged.length_log_bind_le fun _ =>
          Logged.length_log_bind_le fun _ => hrest _
      rw [legacyTrace, length_cons]
      refine (hcall _ _).trans ?_
      omega

/-- With acceptable encodings, and whatever `CheckSig` decides, the legacy branch sets success
exactly when there is a strictly increasing assignment of the signatures to keys under which they
verify, and it calls `CheckSig` at most once for a key. -/
theorem legacy_multisig_iff (env : EvalEnv) (scriptCode : CScript)
    (verifies : Valtype → Valtype → Bool) (args : MultiSigArgs)
    (henc : EncodingsAccepted env.flags args.sigs args.keys)
    (hcheck : ChecksBy env scriptCode verifies args.sigs args.keys) :
    ((∃ res, legacyMultiSig env scriptCode args = .ok res ∧ res.fSuccess = true) ↔
      ∃ f : Fin args.sigs.length → Fin args.keys.length, StrictMono f ∧
        ∀ i, verifies (args.sigs.get i) (args.keys.get (f i)) = true) ∧
    (legacyMultiSigTrace env scriptCode args).log.countP MultiSigEvent.isCheckSig ≤
      args.keys.length := by
  obtain ⟨fSuccess, hloop, hiff⟩ := legacyLoop_iff henc hcheck
  rw [sublistForall₂_iff_strictMono] at hiff
  constructor
  · rw [← hiff]
    constructor
    · rintro ⟨res, hres, hsuccess⟩
      rw [legacyMultiSig, hloop, ok_bind, require_bind_eq_ok_iff, pure_eq_ok_iff] at hres
      rw [← hres.2] at hsuccess
      exact hsuccess
    · rintro rfl
      rw [legacyMultiSig, hloop, ok_bind]
      dsimp only
      rw [require_pos (Or.inl rfl), ok_bind]
      exact ⟨_, rfl, rfl⟩
  · refine countP_le_length.trans ?_
    have hloop : ∀ (x : Bool → Except ScriptFailure Unit) (y : Bool → SigResult),
        (legacyTrace env scriptCode args.sigs args.keys >>= fun fSuccess =>
          .silent (x fSuccess) >>= fun _ => pure (y fSuccess) : MultiSigTrace SigResult).log.length ≤
          (legacyTrace env scriptCode args.sigs args.keys).log.length + (0 + 0) := fun x y =>
      Logged.length_log_bind_le fun _ => Logged.length_log_bind_le fun _ => Nat.le_refl 0
    exact (hloop _ _).trans (length_log_legacyTrace_le _ _)

end Legacy

/-! ## The Schnorr branch -/

section Bits

/-- The bit of the field for a key. -/
abbrev keyBit (checkBits : ℕ) (iKey : ℕ) : Prop := checkBits.testBit iKey = true

variable {keys : List Valtype} {checkBits : ℕ}

theorem countBits_eq_count : countBits checkBits = Nat.count (keyBit checkBits) 32 := by
  simp [countBits, Nat.count, keyBit]

theorem decodeBitfield_lt {vch : List UInt8} {size : ℕ}
    (h : decodeBitfield vch size = .ok checkBits) : checkBits < 2 ^ size ∧ size ≤ 32 := by
  simp only [decodeBitfield, bind_eq_ok_iff, exists_unit_iff, require_eq_ok_iff,
    pure_eq_ok_iff] at h
  obtain ⟨hsize, -, hmask, rfl⟩ := h
  rw [Nat.and_two_pow_sub_one_eq_mod] at hmask
  exact ⟨hmask ▸ Nat.mod_lt _ (Nat.two_pow_pos size), hsize⟩

/-- Without a key in between, no more keys are counted. -/
theorem count_eq_of_none {p : ℕ → Prop} [DecidablePred p] {a b : ℕ} (hab : a ≤ b)
    (h : ∀ k, a ≤ k → k < b → ¬ p k) : Nat.count p b = Nat.count p a := by
  obtain ⟨d, rfl⟩ := Nat.exists_eq_add_of_le hab
  rw [Nat.count_add, Nat.add_eq_left, Nat.count_iff_forall_not]
  exact fun m hm => h (a + m) (Nat.le_add_right a m) (Nat.add_lt_add_left hm a)

/-- The inner loop stops at the first key from `iKey` on. -/
theorem nextKey_spec {fuel iKey : ℕ} (h : ∃ k, iKey ≤ k ∧ k < iKey + fuel ∧ keyBit checkBits k) :
    iKey ≤ nextKey checkBits fuel iKey ∧ keyBit checkBits (nextKey checkBits fuel iKey) ∧
      ∀ k, iKey ≤ k → k < nextKey checkBits fuel iKey → ¬ keyBit checkBits k := by
  induction fuel generalizing iKey with
  | zero =>
    obtain ⟨k, hle, hlt, -⟩ := h
    omega
  | succ fuel ih =>
    rw [nextKey]
    split_ifs with hbit
    · exact ⟨Nat.le_refl iKey, hbit, fun k hle hlt => absurd hle (Nat.not_le.mpr hlt)⟩
    · obtain ⟨k, hle, hlt, hk⟩ := h
      have hne : k ≠ iKey := fun heq => hbit (heq ▸ hk)
      obtain ⟨hle', hbit', hnone⟩ := @ih (iKey + 1) ⟨k, by omega, by omega, hk⟩
      refine ⟨by omega, hbit', fun i hi hlt => ?_⟩
      rcases Nat.eq_or_lt_of_le hi with rfl | hi
      · exact hbit
      · exact hnone i hi hlt

/-- With `j` keys below `iKey` and more of them above, the inner loop stops at the key number
`j`, counted from zero. -/
theorem nextKey_eq_nth {iKey j : ℕ} (hcount : Nat.count (keyBit checkBits) iKey = j)
    (hj : j < Nat.count (keyBit checkBits) 32) :
    nextKey checkBits 32 iKey = Nat.nth (keyBit checkBits) j ∧
      keyBit checkBits (Nat.nth (keyBit checkBits) j) ∧ iKey ≤ Nat.nth (keyBit checkBits) j ∧
      Nat.count (keyBit checkBits) (Nat.nth (keyBit checkBits) j + 1) = j + 1 := by
  have hlt : iKey < 32 := Nat.lt_of_not_le fun hge =>
    Nat.not_lt.mpr (Nat.count_monotone (keyBit checkBits) hge) (hcount ▸ hj)
  have hex : ∃ k, iKey ≤ k ∧ k < iKey + 32 ∧ keyBit checkBits k := by
    by_contra hnone
    push Not at hnone
    have heq : Nat.count (keyBit checkBits) 32 = Nat.count (keyBit checkBits) iKey :=
      count_eq_of_none hlt.le fun k hle hk => hnone k hle (by omega)
    omega
  obtain ⟨hle, hbit, hbelow⟩ := nextKey_spec hex
  have hnext : Nat.count (keyBit checkBits) (nextKey checkBits 32 iKey) = j :=
    (count_eq_of_none hle hbelow).trans hcount
  have hnth : Nat.nth (keyBit checkBits) j = nextKey checkBits 32 iKey :=
    hnext ▸ Nat.nth_count hbit
  rw [hnth]
  exact ⟨rfl, hbit, hle, by rw [Nat.count_succ, hnext, if_pos hbit]⟩

theorem shiftRight_ne_zero {iKey k : ℕ} (hle : iKey ≤ k) (hk : keyBit checkBits k) :
    checkBits >>> iKey ≠ 0 := by
  intro hzero
  have hbit : (checkBits >>> iKey).testBit (k - iKey) = true := by
    rwa [Nat.testBit_shiftRight, Nat.add_sub_cancel' hle]
  rw [hzero, Nat.zero_testBit] at hbit
  cases hbit

/-- After the last key the rest of the field is empty. -/
theorem shiftRight_eq_zero {iKey : ℕ} (hlt : checkBits < 2 ^ 32)
    (hcount : Nat.count (keyBit checkBits) iKey = Nat.count (keyBit checkBits) 32) :
    checkBits >>> iKey = 0 := by
  refine Nat.eq_of_testBit_eq fun k => ?_
  rw [Nat.testBit_shiftRight, Nat.zero_testBit, ← Bool.not_eq_true]
  intro hbit
  have hk : iKey + k < 32 := by
    by_contra hge
    have hbig : checkBits < 2 ^ (iKey + k) :=
      hlt.trans_le (Nat.pow_le_pow_right Nat.two_pos (Nat.not_lt.mp hge))
    rw [Nat.testBit_lt_two_pow hbig] at hbit
    cases hbit
  have hstrict := Nat.count_strict_mono (p := keyBit checkBits) hbit hk
  have hmono := Nat.count_monotone (keyBit checkBits) (Nat.le_add_right iKey k)
  omega

/-- The calls of the loop for the signatures from number `j` on : each with the key of its bit. -/
def CallsKeys (keys : List Valtype) (checkBits j : ℕ) (sigs : List Valtype)
    (log : List MultiSigEvent) : Prop :=
  ∀ i event, log[i]? = some event → ∃ vchSig vchPubKey, sigs[i]? = some vchSig ∧
    keys[Nat.nth (keyBit checkBits) (j + i)]? = some vchPubKey ∧
    event = .checkSig vchSig vchPubKey

theorem CallsKeys.nil {j : ℕ} {sigs : List Valtype} : CallsKeys keys checkBits j sigs [] := by
  rintro i event h
  cases h

theorem CallsKeys.cons {j : ℕ} {vchSig vchPubKey : Valtype} {sigs : List Valtype}
    {log : List MultiSigEvent} (hkey : keys[Nat.nth (keyBit checkBits) j]? = some vchPubKey)
    (h : CallsKeys keys checkBits (j + 1) sigs log) :
    CallsKeys keys checkBits j (vchSig :: sigs) (.checkSig vchSig vchPubKey :: log) := by
  intro i event hevent
  cases i with
  | zero => exact ⟨vchSig, vchPubKey, rfl, hkey, (Option.some.inj hevent).symm⟩
  | succ i =>
    obtain ⟨s, k, hs, hk, rfl⟩ := h i event hevent
    exact ⟨s, k, hs, by rwa [Nat.add_assoc, Nat.add_comm 1] at hk, rfl⟩

end Bits

section Schnorr

variable [Crypto] {env : EvalEnv} {scriptCode : CScript} {keys : List Valtype} {checkBits : ℕ}

/-- An iteration of the loop fails before or at its call of `CheckSig`, or the call succeeds and the
loop goes on. -/
theorem schnorrStep_cases (vchSig vchPubKey : Valtype) (checks keyChecks : Except ScriptFailure Unit)
    (rest : MultiSigTrace ℕ) {step : MultiSigTrace ℕ}
    (hstep : step = .silent checks >>= fun _ => .silent keyChecks >>= fun _ =>
      callCheckSig env scriptCode vchSig vchPubKey >>= fun fOk =>
        .silent (require fOk (.error .SIG_NULLFAIL)) >>= fun _ => rest) :
    (∃ e, step.result = .error e ∧
      (step.log = [] ∨ step.log = [.checkSig vchSig vchPubKey])) ∨
    env.checker.checkSig vchSig vchPubKey scriptCode env.flags = .ok true ∧
      step.result = rest.result ∧ step.log = .checkSig vchSig vchPubKey :: rest.log := by
  subst hstep
  cases hsig : checks with
  | error e =>
    rw [Logged.silent_bind_error rfl]
    exact Or.inl ⟨e, rfl, Or.inl rfl⟩
  | ok =>
    rw [Logged.silent_bind_ok rfl]
    cases hkey : keyChecks with
    | error e =>
      rw [Logged.silent_bind_error rfl]
      exact Or.inl ⟨e, rfl, Or.inl rfl⟩
    | ok =>
      rw [Logged.silent_bind_ok rfl]
      cases hcheck : env.checker.checkSig vchSig vchPubKey scriptCode env.flags with
      | error e =>
        refine Or.inl ⟨e, ?_, Or.inr (Logged.log_bind_error hcheck _)⟩
        rw [Logged.result_bind, callCheckSig, hcheck, error_bind]
      | ok fOk =>
        rw [Logged.result_bind, Logged.log_bind_ok hcheck, callCheckSig, hcheck, ok_bind]
        cases fOk with
        | false => exact Or.inl ⟨_, rfl, Or.inr rfl⟩
        | true => exact Or.inr ⟨rfl, rfl, rfl⟩

/-- From the key after the first `j` ones the loop makes the calls for its signatures. When it
succeeds it made all of them, they all succeeded, and it stands after the last key. -/
theorem schnorrTrace_spec (hkeys : checkBits < 2 ^ keys.length) {sigs : List Valtype}
    {iKey j : ℕ} (hcount : Nat.count (keyBit checkBits) iKey = j)
    (htotal : j + sigs.length = Nat.count (keyBit checkBits) 32) :
    CallsKeys keys checkBits j sigs (schnorrTrace env scriptCode keys checkBits sigs iKey).log ∧
    ∀ iEnd, (schnorrTrace env scriptCode keys checkBits sigs iKey).result = .ok iEnd →
      (schnorrTrace env scriptCode keys checkBits sigs iKey).log.length = sigs.length ∧
      (∀ vchSig vchPubKey, .checkSig vchSig vchPubKey ∈
        (schnorrTrace env scriptCode keys checkBits sigs iKey).log →
        env.checker.checkSig vchSig vchPubKey scriptCode env.flags = .ok true) ∧
      Nat.count (keyBit checkBits) iEnd = Nat.count (keyBit checkBits) 32 := by
  induction sigs generalizing iKey j with
  | nil =>
    refine ⟨.nil, fun iEnd hend => ⟨rfl, fun _ _ h => absurd h not_mem_nil, ?_⟩⟩
    rw [← htotal, ← hcount]
    cases hend
    rfl
  | cons vchSig sigs ih =>
    rw [length_cons] at htotal
    obtain ⟨hnext, hbit, hle, hsucc⟩ := nextKey_eq_nth hcount (by omega)
    -- the key of the bit is there
    have hlt : Nat.nth (keyBit checkBits) j < keys.length := by
      by_contra hge
      have hbig : checkBits < 2 ^ Nat.nth (keyBit checkBits) j :=
        hkeys.trans_le (Nat.pow_le_pow_right Nat.two_pos (Nat.not_lt.mp hge))
      rw [keyBit, Nat.testBit_lt_two_pow hbig] at hbit
      cases hbit
    have hkey := getElem?_eq_getElem hlt
    rw [schnorrTrace, if_neg (shiftRight_ne_zero hle hbit), hnext]
    dsimp only
    rw [hkey]
    obtain ⟨hcalls, hdone⟩ := ih hsucc (by omega)
    obtain ⟨e, hresult, hlog⟩ | ⟨hok, hresult, hlog⟩ := schnorrStep_cases vchSig _ _ _ _ rfl
    · refine ⟨?_, fun iEnd hend => by rw [hresult] at hend; cases hend⟩
      rcases hlog with hlog | hlog
      · exact hlog ▸ .nil
      · exact hlog ▸ .cons hkey .nil
    · refine ⟨hlog ▸ .cons hkey hcalls, fun iEnd hend => ?_⟩
      obtain ⟨hlength, hall, hcountEnd⟩ := hdone iEnd (hresult ▸ hend)
      refine ⟨by rw [hlog, length_cons, hlength, length_cons], fun s k hmem => ?_, hcountEnd⟩
      rw [hlog] at hmem
      rcases mem_cons.mp hmem with heq | hmem
      · cases heq
        exact hok
      · exact hall s k hmem

/-- Once the bit field is decoded and sets as many bits as there are signatures, none of the
branches marked as unreachable is taken, call number `i` is for signature `i` and the key at the
position of set bit `i`, both counted from the bottom of the stack, and a branch that succeeds made
one call for each signature, all of which returned true. -/
theorem schnorr_multisig_bits (env : EvalEnv) (scriptCode : CScript) (args : MultiSigArgs)
    (checkBits : ℕ) (hdecode : decodeBitfield args.dummy args.keys.length = .ok checkBits)
    (hbits : countBits checkBits = args.sigs.length) :
    (∀ e, .unreachable e ∉ (schnorrMultiSigTrace env scriptCode args).log) ∧
    (∀ i event, (schnorrMultiSigTrace env scriptCode args).log[i]? = some event →
      ∃ vchSig vchPubKey, args.sigs.reverse[i]? = some vchSig ∧
        args.keys.reverse[Nat.nth (keyBit checkBits) i]? = some vchPubKey ∧
        event = .checkSig vchSig vchPubKey) ∧
    ∀ res, schnorrMultiSig env scriptCode args = .ok res →
      (schnorrMultiSigTrace env scriptCode args).log.length = args.sigs.length ∧
      ∀ vchSig vchPubKey,
        .checkSig vchSig vchPubKey ∈ (schnorrMultiSigTrace env scriptCode args).log →
        env.checker.checkSig vchSig vchPubKey scriptCode env.flags = .ok true := by
  obtain ⟨hlt, hsize⟩ := decodeBitfield_lt hdecode
  rw [countBits_eq_count] at hbits
  rw [← length_reverse] at hlt hbits
  obtain ⟨hcalls, hdone⟩ := @schnorrTrace_spec _ env scriptCode _ _ hlt args.sigs.reverse 0 0
    (Nat.count_zero _) (by rw [Nat.zero_add, hbits])
  simp only [CallsKeys, Nat.zero_add] at hcalls
  -- the last check is not one of the events
  have hlog : (schnorrMultiSigTrace env scriptCode args).log =
      (schnorrTrace env scriptCode args.keys.reverse checkBits args.sigs.reverse 0).log := by
    rw [schnorrMultiSigTrace, Logged.silent_bind_ok hdecode,
      Logged.silent_bind_ok (require_pos (by rw [countBits_eq_count, hbits, length_reverse]))]
    cases hend : (schnorrTrace env scriptCode args.keys.reverse checkBits args.sigs.reverse 0).result
    with
    | error e => rw [Logged.log_bind_error hend]
    | ok iEnd =>
      have hzero := shiftRight_eq_zero (hlt.trans_le (Nat.pow_le_pow_right Nat.two_pos
        (by rwa [length_reverse]))) (hdone iEnd hend).2.2
      rw [Logged.log_bind_ok hend, if_pos hzero, Logged.log_pure, append_nil]
  rw [hlog]
  refine ⟨fun e hmem => ?_, hcalls, fun res hres => ?_⟩
  · obtain ⟨i, hi⟩ := mem_iff_getElem?.mp hmem
    obtain ⟨s, k, -, -, hevent⟩ := hcalls i _ hi
    cases hevent
  · simp only [schnorrMultiSig, bind_eq_ok_iff, ← result_schnorrTrace] at hres
    obtain ⟨bits, hbits', -, -, iEnd, hend, -⟩ := hres
    cases hdecode.symm.trans hbits'
    obtain ⟨hlength, hall, -⟩ := hdone iEnd hend
    exact ⟨by rw [hlength, length_reverse], hall⟩

end Schnorr

section Sample

attribute [local instance] Crypto.toy

/-- A signature of the sample verifies under the key that starts with the same byte. -/
def sampleMultiSigEnv : EvalEnv where
  flags := 0
  checker := ⟨verifySignature, fun vchSig vchPubKey _ _ => .ok (vchSig.head? = vchPubKey.head?),
    fun _ => false, fun _ => false⟩
  context := none

/-- Two signatures for the first and the last of three keys. -/
def sampleLegacyArgs : MultiSigArgs := ⟨[[1], [2], [3]], [[1], [3]], [], []⟩

theorem legacy_multisig_sample :
    (∃ res, legacyMultiSig sampleMultiSigEnv [] sampleLegacyArgs = .ok res ∧
      res.fSuccess = true) ∧
    (legacyMultiSigTrace sampleMultiSigEnv [] sampleLegacyArgs).log.countP
      MultiSigEvent.isCheckSig ≤ 3 := by
  obtain ⟨hiff, hcalls⟩ := legacy_multisig_iff sampleMultiSigEnv []
    (fun vchSig vchPubKey => vchSig.head? = vchPubKey.head?) sampleLegacyArgs
    ⟨by decide, by decide⟩ (fun _ _ _ _ => rfl)
  have hmono : StrictMono (![0, 2] : Fin 2 → Fin 3) := by
    intro i j
    revert i j
    decide
  exact ⟨hiff.mpr ⟨(![0, 2] : Fin 2 → Fin 3), hmono, (by decide : ∀ i : Fin 2, _)⟩, hcalls⟩

/-- Two Schnorr signatures of 64 bytes and a hash type, and the field `101` of their keys. -/
def sampleSchnorrArgs : MultiSigArgs :=
  ⟨[[3], [2], [1]], [3 :: replicate 64 0x41, 1 :: replicate 64 0x41], [5], []⟩

theorem schnorr_multisig_sample :
    (∃ res, schnorrMultiSig sampleMultiSigEnv [] sampleSchnorrArgs = .ok res) ∧
    (schnorrMultiSigTrace sampleMultiSigEnv [] sampleSchnorrArgs).log.length = 2 := by
  have hok : ∃ res, schnorrMultiSig sampleMultiSigEnv [] sampleSchnorrArgs = .ok res :=
    ⟨⟨true, 2, []⟩, rfl⟩
  obtain ⟨-, -, hdone⟩ := schnorr_multisig_bits sampleMultiSigEnv [] sampleSchnorrArgs 5 rfl
    (by decide)
  obtain ⟨res, hres⟩ := hok
  exact ⟨⟨res, hres⟩, (hdone res hres).1⟩

end Sample

end RadiantCore
