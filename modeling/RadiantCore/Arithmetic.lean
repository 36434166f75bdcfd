import RadiantCore.Interpreter
import RadiantCore.ScriptNumCodec

/-!
# The arithmetic opcodes

With 64-bit integers an operand of a numeric opcode is a number of the symmetric range
`InRange`. The results of the arithmetic opcodes are the exact ones (`exactUnary` and
`exactBinary`), or the opcode fails because the result leaves the range or the divisor is zero
(`arithmetic_exact`). A result is pushed in its minimal encoding, which the next opcode reads
back.

The conversions `OP_NUM2BIN` and `OP_BIN2NUM` keep the number, so that the second one undoes the
first up to the minimal form (`script_number_codec`).
-/

namespace RadiantCore

open Opcode CScriptNum List Option StackOp

/-! ## Exact results -/

/-- The numbers a string of 8 bytes can denote. -/
def InRange (r : ℤ) : Prop := -(2 ^ 63 - 1) ≤ r ∧ r ≤ 2 ^ 63 - 1

/-- The opcodes that compute a number from one number. -/
def unaryArithmetic : List Opcode := [OP_1ADD, OP_1SUB, OP_2MUL, OP_2DIV, OP_NEGATE, OP_ABS]

/-- The opcodes that compute a number from two numbers. -/
def binaryArithmetic : List Opcode := [OP_ADD, OP_SUB, OP_MUL, OP_DIV, OP_MOD]

/-- The exact result of an opcode of `unaryArithmetic`. -/
def exactUnary (opcode : Opcode) (a : ℤ) : Option ℤ :=
  match opcode with
  | OP_1ADD => some (a + 1)
  | OP_1SUB => some (a - 1)
  | OP_2MUL => some (a * 2)
  | OP_2DIV => some (a.tdiv 2)
  | OP_NEGATE => some (-a)
  | OP_ABS => some |a|
  | _ => none

/-- The exact result of an opcode of `binaryArithmetic`, if the divisor is not zero. -/
def exactBinary (opcode : Opcode) (a b : ℤ) : Option ℤ :=
  match opcode with
  | OP_ADD => some (a + b)
  | OP_SUB => some (a - b)
  | OP_MUL => some (a * b)
  | OP_DIV => if b = 0 then none else some (a.tdiv b)
  | OP_MOD => if b = 0 then none else some (a.tmod b)
  | _ => none

variable {r : ℤ}

theorem inRange_iff_natAbs : InRange r ↔ r.natAbs < 2 ^ 63 := by
  unfold InRange
  omega

variable {a : ℤ}

theorem InRange.tdiv (ha : InRange a) (b : ℤ) : InRange (a.tdiv b) := by
  rw [inRange_iff_natAbs] at ha ⊢
  rw [Int.natAbs_tdiv]
  exact (Nat.div_le_self _ _).trans_lt ha

theorem InRange.tmod (ha : InRange a) (b : ℤ) : InRange (a.tmod b) := by
  rw [inRange_iff_natAbs] at ha ⊢
  rw [Int.natAbs_tmod]
  exact (Nat.mod_le _ _).trans_lt ha

theorem InRange.valid64BitRange (ha : InRange a) : valid64BitRange a = true := by
  unfold InRange at ha
  simp only [CScriptNum.valid64BitRange, decide_eq_true_iff]
  omega

/-- A checked operation returns the exact result when it is in range. -/
theorem inRange_checkRange_iff {x : ℤ} :
    inRange (checkRange x) = .ok r ↔ x = r ∧ InRange r := by
  unfold checkRange
  split_ifs with h
  · rw [inRange, Except.ok.injEq, iff_self_and]
    rintro rfl
    unfold InRange
    omega
  · refine iff_of_false (by simp [inRange, scriptError]) ?_
    rintro ⟨rfl, hr⟩
    unfold InRange at hr
    omega

variable {opcode : Opcode}

theorem unaryNumber_eq_ok_iff (hop : opcode ∈ unaryArithmetic) (ha : InRange a) :
    unaryNumber opcode a = .ok r ↔ exactUnary opcode a = some r ∧ InRange r := by
  have hneg : CScriptNum.neg a = -a := if_pos ha.valid64BitRange
  simp only [unaryArithmetic, mem_cons, not_mem_nil, or_false] at hop
  rcases hop with rfl | rfl | rfl | rfl | rfl | rfl
  · exact inRange_checkRange_iff.trans (by rw [exactUnary, some.injEq])
  · exact inRange_checkRange_iff.trans (by rw [exactUnary, some.injEq])
  · exact inRange_checkRange_iff.trans (by rw [exactUnary, some.injEq])
  -- The last three are not checked : the range is closed under them.
  · rw [unaryNumber, exactUnary, Except.ok.injEq, some.injEq, iff_self_and]
    rintro rfl
    exact ha.tdiv 2
  · rw [unaryNumber, exactUnary, hneg, Except.ok.injEq, some.injEq, iff_self_and]
    rintro rfl
    unfold InRange at ha ⊢
    omega
  · have habs : (if a < 0 then CScriptNum.neg a else a) = |a| := by
      rw [hneg]
      split_ifs with hlt
      · rw [abs_of_neg hlt]
      · rw [abs_of_nonneg (not_lt.mp hlt)]
    rw [unaryNumber, exactUnary, habs, Except.ok.injEq, some.injEq, iff_self_and]
    rintro rfl
    unfold InRange at ha ⊢
    omega

theorem binaryNumber_eq_ok_iff (hop : opcode ∈ binaryArithmetic) {b : ℤ} (ha : InRange a) :
    binaryNumber opcode a b = .ok r ↔ exactBinary opcode a b = some r ∧ InRange r := by
  have hvalid : ¬ (b = -1 ∧ ¬ valid64BitRange a) := by simp [ha.valid64BitRange]
  have hdiv : CScriptNum.div a b = a.tdiv b := if_neg hvalid
  have hmod : CScriptNum.mod a b = a.tmod b := if_neg hvalid
  simp only [binaryArithmetic, mem_cons, not_mem_nil, or_false] at hop
  rcases hop with rfl | rfl | rfl | rfl | rfl
  · exact inRange_checkRange_iff.trans (by rw [exactBinary, some.injEq])
  · exact inRange_checkRange_iff.trans (by rw [exactBinary, some.injEq])
  · exact inRange_checkRange_iff.trans (by rw [exactBinary, some.injEq])
  · rw [binaryNumber, exactBinary, hdiv]
    split_ifs
    · simp [scriptError]
    · rw [Except.ok.injEq, some.injEq, iff_self_and]
      rintro rfl
      exact ha.tdiv b
  · rw [binaryNumber, exactBinary, hmod]
    split_ifs
    · simp [scriptError]
    · rw [Except.ok.injEq, some.injEq, iff_self_and]
      rintro rfl
      exact ha.tmod b

/-! ## The opcodes -/

section

variable {flags : UInt32}

theorem maxIntegerSize_of_hasFlag (h64 : hasFlag flags .SCRIPT_64_BIT_INTEGERS = true) :
    maxIntegerSize flags = 8 := if_pos h64

variable {x : Valtype} {a : ℤ}

theorem inRange_of_scriptNum (h : scriptNum flags x = .ok a) : InRange a := by
  simp only [scriptNum, fromBytes, bind_eq_ok_iff, exists_unit_iff, require_eq_ok_iff,
    pure_eq_ok_iff] at h
  obtain ⟨hmax, hlen, -, rfl⟩ := h
  rw [inRange_iff_natAbs, setVch_eq_signMagnitude]
  exact natAbs_signMagnitude_lt (hlen.trans hmax)

theorem scriptNum_serialize (h64 : hasFlag flags .SCRIPT_64_BIT_INTEGERS = true) {r : ℤ}
    (hr : InRange r) : scriptNum flags (serialize r) = .ok r := by
  rw [scriptNum, maxIntegerSize_of_hasFlag h64]
  exact fromBytes_serialize (inRange_iff_natAbs.mp hr) _

variable {opcode : Opcode} {s stack' : Stack}

theorem unaryNumeric_eq_ok_iff (hop : opcode ∈ unaryArithmetic) (hx : scriptNum flags x = .ok a) :
    unaryNumeric flags opcode (x :: s) = .ok stack' ↔
      ∃ r, exactUnary opcode a = some r ∧ InRange r ∧ stack' = serialize r :: s := by
  simp only [unaryNumeric, hx, bind_eq_ok_iff, Except.ok.injEq, exists_eq_left',
    unaryNumber_eq_ok_iff hop (inRange_of_scriptNum hx), pure_eq_ok_iff, and_assoc,
    @eq_comm _ stack']

theorem binaryNumeric_eq_ok_iff (hop : opcode ∈ binaryArithmetic)
    {x1 x2 : Valtype} {b : ℤ} (hx1 : scriptNum flags x1 = .ok a)
    (hx2 : scriptNum flags x2 = .ok b) :
    binaryNumeric flags opcode (x2 :: x1 :: s) = .ok stack' ↔
      ∃ r, exactBinary opcode a b = some r ∧ InRange r ∧ stack' = serialize r :: s := by
  have hverify : opcode ≠ OP_NUMEQUALVERIFY := by
    rintro rfl
    exact absurd hop (by decide)
  simp only [binaryNumeric, hx1, hx2, bind_eq_ok_iff, Except.ok.injEq, exists_eq_left',
    binaryNumber_eq_ok_iff hop (inRange_of_scriptNum hx1), hverify, if_false, pure_eq_ok_iff,
    and_assoc, @eq_comm _ stack']

variable [Crypto] (env : EvalEnv) (fExec : Bool) (op : ScriptOp) (st : EvalState)

theorem execOp_unary (hop : opcode ∈ unaryArithmetic) :
    execOp env fExec op opcode st =
      st.onStack (unaryNumeric env.flags opcode st.stack) := by
  simp only [unaryArithmetic, mem_cons, not_mem_nil, or_false] at hop
  rcases hop with rfl | rfl | rfl | rfl | rfl | rfl <;> rfl

theorem execOp_binary (hop : opcode ∈ binaryArithmetic) :
    execOp env fExec op opcode st =
      st.onStack (binaryNumeric env.flags opcode st.stack) := by
  simp only [binaryArithmetic, mem_cons, not_mem_nil, or_false] at hop
  rcases hop with rfl | rfl | rfl | rfl | rfl <;> rfl

/-- With 64-bit integers an arithmetic opcode succeeds exactly when there is an exact result and it
is in range. It then pushes the minimal encoding of the result, which is accepted as an operand. -/
theorem arithmetic_exact (h64 : hasFlag env.flags .SCRIPT_64_BIT_INTEGERS = true) (s : Stack) :
    (∀ opcode ∈ unaryArithmetic, ∀ x a, scriptNum env.flags x = .ok a → ∀ progress,
      execOp env fExec op opcode { st with stack := x :: s } = .ok progress ↔
        ∃ r, exactUnary opcode a = some r ∧ InRange r ∧
          progress = .next { st with stack := serialize r :: s }) ∧
    (∀ opcode ∈ binaryArithmetic, ∀ x1 x2 a b, scriptNum env.flags x1 = .ok a →
      scriptNum env.flags x2 = .ok b → ∀ progress,
        execOp env fExec op opcode { st with stack := x2 :: x1 :: s } = .ok progress ↔
          ∃ r, exactBinary opcode a b = some r ∧ InRange r ∧
            progress = .next { st with stack := serialize r :: s }) ∧
    ∀ r, InRange r → isMinimallyEncoded (serialize r) 8 = true ∧
      scriptNum env.flags (serialize r) = .ok r := by
  refine ⟨fun opcode hop x a hx progress => ?_, fun opcode hop x1 x2 a b hx1 hx2 progress => ?_,
    fun r hr => ?_⟩
  · rw [execOp_unary env fExec op _ hop, EvalState.onStack_eq_ok_iff]
    simp only [unaryNumeric_eq_ok_iff hop hx]
    constructor
    · rintro ⟨_, ⟨r, hexact, hr, rfl⟩, rfl⟩
      exact ⟨r, hexact, hr, rfl⟩
    · rintro ⟨r, hexact, hr, rfl⟩
      exact ⟨_, ⟨r, hexact, hr, rfl⟩, rfl⟩
  · rw [execOp_binary env fExec op _ hop, EvalState.onStack_eq_ok_iff]
    simp only [binaryNumeric_eq_ok_iff hop hx1 hx2]
    constructor
    · rintro ⟨_, ⟨r, hexact, hr, rfl⟩, rfl⟩
      exact ⟨r, hexact, hr, rfl⟩
    · rintro ⟨r, hexact, hr, rfl⟩
      exact ⟨_, ⟨r, hexact, hr, rfl⟩, rfl⟩
  · have hlt := inRange_iff_natAbs.mp hr
    have hspec := serialize_spec (show r.natAbs < 2 ^ 64 by omega)
    exact ⟨(isMinimallyEncoded_iff _ 8).mpr ⟨length_serialize_le hlt, hspec.1⟩,
      scriptNum_serialize h64 hr⟩

end

section Sample

attribute [local instance] Crypto.toy

/-- An environment with 64-bit integers. -/
def sampleArithmeticEnv : EvalEnv where
  flags := setFlag 0 .SCRIPT_64_BIT_INTEGERS true
  checker := ⟨verifySignature, fun _ _ _ _ => .ok false, fun _ => false, fun _ => false⟩
  context := none

/-- A sum that needs a byte more than its operands. -/
theorem arithmetic_exact_add :
    execOp sampleArithmeticEnv true ⟨OP_ADD, [], [], by decide⟩ OP_ADD
        { stack := [[0x7f], [0x7f]], pbegincodehash := [] } =
      .ok (.next { stack := [[0xfe, 0x00]], pbegincodehash := [] }) :=
  ((arithmetic_exact sampleArithmeticEnv true ⟨OP_ADD, [], [], by decide⟩
    { stack := [], pbegincodehash := [] } (by decide) []).2.1 OP_ADD (by decide) [0x7f] [0x7f] 127
    127 rfl rfl _).mpr ⟨254, rfl, ⟨by decide, by decide⟩, rfl⟩

end Sample

/-! ## Conversions -/

theorem readLE_replicate_zero (k : ℕ) : readLE (replicate k 0) = 0 := by
  induction k with
  | zero => rfl
  | succ k ih => simp [replicate_succ, readLE, ih]

variable {rawnum : Valtype}

theorem length_extendNumber {size : ℕ} (h : rawnum.length < size) :
    (extendNumber rawnum size).length = size := by
  rcases rawnum.eq_nil_or_concat' with rfl | ⟨bs, last, rfl⟩
  · simp [extendNumber]
  · rw [length_append, length_singleton] at h
    simp only [extendNumber, getLast?_concat, dropLast_concat, length_append,
      length_singleton, length_replicate]
    omega

/-- Filling up a number keeps it : the sign moves to the last byte. -/
theorem signMagnitude_extendNumber {size : ℕ} (h : rawnum.length < size) :
    signMagnitude (extendNumber rawnum size) = signMagnitude rawnum := by
  rcases rawnum.eq_nil_or_concat' with rfl | ⟨bs, last, rfl⟩
  · obtain ⟨k, rfl⟩ := Nat.exists_eq_add_of_lt h
    have hzero : extendNumber [] (0 + k + 1) = replicate k 0 ++ [signByte false] := by
      rw [zero_add]
      exact replicate_succ'
    rw [length_nil, hzero, signMagnitude_concat_signByte, readLE_replicate_zero]
    rfl
  · have hsign : last &&& 0x80 = signByte (128 ≤ last.toNat) := by
      rw [(sign_mask last).2.2.1]
      simp [signByte]
    simp only [extendNumber, getLast?_concat, dropLast_concat, hsign]
    rw [signMagnitude_concat_signByte, readLE_append, readLE_replicate_zero, readLE_concat,
      (sign_mask last).2.2.2, signMagnitude, negative_concat, magnitude_concat]
    rfl

section

variable {flags : UInt32}

/-- The string `OP_NUM2BIN` leaves. -/
def num2binResult (x : Valtype) (size : ℕ) : Valtype :=
  if (minimallyEncode x).length = size then minimallyEncode x
  else extendNumber (minimallyEncode x) size

variable {x : Valtype}

theorem num2binResult_spec {size : ℕ} (h : (minimallyEncode x).length ≤ size) :
    (num2binResult x size).length = size ∧
      signMagnitude (num2binResult x size) = signMagnitude x := by
  rw [← (minimallyEncode_spec x).2]
  unfold num2binResult
  split_ifs with heq
  · exact ⟨heq, rfl⟩
  · have hlt := lt_of_le_of_ne h heq
    exact ⟨length_extendNumber hlt, signMagnitude_extendNumber hlt⟩

variable {s : Stack}

theorem num2bin_eq {vch : Valtype} {size : ℕ} (hvch : scriptNum flags vch = .ok size)
    (hmax : size ≤ maxScriptElementSize) (hsize : (minimallyEncode x).length ≤ size) :
    num2bin flags (vch :: x :: s) = .ok (num2binResult x size :: s) := by
  have hrange : (0 : ℤ) ≤ size ∧ (size : ℤ) ≤ maxScriptElementSize :=
    ⟨by omega, by exact_mod_cast hmax⟩
  simp only [num2bin, hvch]
  change (do
    require _ _
    require _ _
    return _) = _
  rw [require_pos hrange, Int.toNat_natCast, require_pos hsize]
  rfl

theorem bin2num_eq_ok_iff {stack' : Stack} :
    bin2num flags (x :: s) = .ok stack' ↔
      (minimallyEncode x).length ≤ maxIntegerSize flags ∧ stack' = minimallyEncode x :: s := by
  simp only [bin2num, bind_eq_ok_iff, exists_unit_iff, require_eq_ok_iff, pure_eq_ok_iff,
    isMinimallyEncoded_iff, (minimallyEncode_spec x).1, and_true, @eq_comm _ stack']

theorem length_minimallyEncode_le_iff (x : Valtype) :
    (minimallyEncode x).length ≤ 8 ↔ InRange (signMagnitude x) := by
  rw [inRange_iff_natAbs, ← (minimallyEncode_spec x).2]
  refine ⟨natAbs_signMagnitude_lt, fun h => (minimallyEncode_spec x).1.length_le ?_⟩
  rw [natAbs_signMagnitude] at h
  omega

theorem minimallyEncode_eq_serialize (h : InRange (signMagnitude x)) :
    minimallyEncode x = serialize (signMagnitude x) := by
  have hlt := inRange_iff_natAbs.mp h
  obtain ⟨hmin, hval⟩ := serialize_spec (show (signMagnitude x).natAbs < 2 ^ 64 by omega)
  exact (minimallyEncode_spec x).1.unique hmin (by rw [(minimallyEncode_spec x).2, hval])

variable [Crypto] (env : EvalEnv) (fExec : Bool) (op : ScriptOp) (st : EvalState)

theorem execOp_num2bin : execOp env fExec op OP_NUM2BIN st =
    st.onStack (num2bin env.flags st.stack) := rfl

theorem execOp_bin2num : execOp env fExec op OP_BIN2NUM st =
    st.onStack (bin2num env.flags st.stack) := rfl

/-- The encoding of script numbers : serialization and decoding are inverse to each other on the
minimal strings, `MinimallyEncode` leaves the minimal string of the same number and says whether it
changed anything, and a conversion to a string of a sufficient size and back gives the minimal
form, if that is short enough to be an operand. -/
theorem script_number_codec (s : Stack) :
    (∀ v, InRange v → isMinimallyEncoded (serialize v) 8 = true ∧ setVch (serialize v) = v) ∧
    (∀ b : List UInt8, b.length ≤ 8 → ∀ maxIntegerSize,
      isMinimallyEncoded b maxIntegerSize = true → serialize (setVch b) = b) ∧
    (∀ b, signMagnitude (minimallyEncodeCall b).2 = signMagnitude b ∧
      isMinimallyEncoded (minimallyEncodeCall b).2 (minimallyEncodeCall b).2.length = true ∧
      ((minimallyEncodeCall b).1 = false ↔ isMinimallyEncoded b b.length = true)) ∧
    (∀ (x vch : Valtype) (size : ℕ), scriptNum env.flags vch = .ok size →
      (minimallyEncodeCall x).2.length ≤ size → size ≤ maxScriptElementSize →
      ∃ y, execOp env fExec op OP_NUM2BIN { st with stack := vch :: x :: s } =
          .ok (.next { st with stack := y :: s }) ∧ y.length = size ∧
        ∀ progress, execOp env fExec op OP_BIN2NUM { st with stack := y :: s } = .ok progress ↔
          (minimallyEncodeCall x).2.length ≤ maxIntegerSize env.flags ∧
            progress = .next { st with stack := (minimallyEncodeCall x).2 :: s }) ∧
    ∀ x, ((minimallyEncodeCall x).2.length ≤ 8 ↔ InRange (signMagnitude x)) ∧
      (InRange (signMagnitude x) → (minimallyEncodeCall x).2 = serialize (signMagnitude x)) := by
  simp only [minimallyEncodeCall_snd, minimallyEncodeCall_fst]
  refine ⟨fun v hv => ?_, fun b hlen k hb => ?_, fun b => ?_, fun x vch size hvch hsize hmax => ?_,
    fun x => ⟨length_minimallyEncode_le_iff x, minimallyEncode_eq_serialize⟩⟩
  · have hlt := inRange_iff_natAbs.mp hv
    obtain ⟨hmin, hval⟩ := serialize_spec (show v.natAbs < 2 ^ 64 by omega)
    exact ⟨(isMinimallyEncoded_iff _ 8).mpr ⟨length_serialize_le hlt, hmin⟩,
      by rw [setVch_eq_signMagnitude, hval]⟩
  · exact serialize_setVch hlen ((isMinimallyEncoded_iff b k).mp hb).2
  · obtain ⟨hmin, hval⟩ := minimallyEncode_spec b
    refine ⟨hval, (isMinimallyEncoded_iff _ _).mpr ⟨le_rfl, hmin⟩, ?_⟩
    rw [isMinimallyEncoded_iff, and_iff_right le_rfl]
  · obtain ⟨hlen, hval⟩ := num2binResult_spec hsize
    refine ⟨num2binResult x size, ?_, hlen, fun progress => ?_⟩
    · rw [execOp_num2bin, EvalState.onStack_eq_ok_iff]
      exact ⟨_, num2bin_eq hvch hmax hsize, rfl⟩
    · rw [execOp_bin2num, EvalState.onStack_eq_ok_iff]
      simp only [bin2num_eq_ok_iff, minimallyEncode_congr hval]
      constructor
      · rintro ⟨_, ⟨hle, rfl⟩, rfl⟩
        exact ⟨hle, rfl⟩
      · rintro ⟨hle, rfl⟩
        exact ⟨_, ⟨hle, rfl⟩, rfl⟩

end

end RadiantCore
