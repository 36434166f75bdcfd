import Mathlib.Data.List.TakeWhile
import RadiantCore.JsonNumber
import RadiantCore.MachineInt

/-!
# Fixed-point numbers

`ParseFixedPoint` of `util/strencodings.cpp` reads a decimal number with an optional exponent into an
integer of 64 bits, the number in units of `10 ^ -decimals`. The digits are collected in a mantissa.
Zeros are counted first, and multiplied in when another digit follows, so the mantissa has no zeros
at its end and a number with many of them does not overflow it.

The function reads the numbers of JSON, with their exact values, and all of them whose values are
integers of at most 18 digits and not zero (`fixed_point_exact`).
-/

namespace RadiantCore

open List

/-- How a parser ends without a value. -/
inductive ParseEnd
  /-- It returns false. -/
  | reject
  /-- A signed operation overflows. -/
  | overflow
deriving DecidableEq, Repr

/-- `UPPER_BOUND`. -/
def upperBound : ℤ := 1000000000000000000 - 1

/-! ## The parser -/

/-- The mantissa, and the zeros after it that are not multiplied in. -/
structure Mantissa where
  mantissa : ℤ
  tzeros : ℤ

/-- The loop of `ProcessMantissaDigit`. -/
def scaleMantissa : ℕ → ℤ → Except ParseEnd ℤ
  | 0, mantissa => .ok mantissa
  | k + 1, mantissa => do
    require (mantissa ≤ upperBound / 10) .reject
    let mantissa ← signed 63 .overflow (mantissa * 10)
    scaleMantissa k mantissa

/-- `ProcessMantissaDigit`. -/
def processMantissaDigit (st : Mantissa) (ch : UInt8) : Except ParseEnd Mantissa :=
  if ch = '0'.toUInt8 then do
    let tzeros ← signed 31 .overflow (st.tzeros + 1)
    return { st with tzeros := tzeros }
  else do
    let mantissa ← scaleMantissa (st.tzeros + 1).toNat st.mantissa
    let mantissa ← signed 63 .overflow (mantissa + digitValue ch)
    return ⟨mantissa, 0⟩

/-- The loop over the digits of a mantissa, which stops at the first other character. -/
def mantissaDigits (st : Mantissa) (val : List UInt8) : Except ParseEnd (Mantissa × List UInt8) := do
  let st ← (val.takeWhile isDigit).foldlM processMantissaDigit st
  return (st, val.dropWhile isDigit)

/-- The integer part. A zero stands alone. -/
def parseInteger : List UInt8 → Except ParseEnd (Mantissa × List UInt8)
  | [] => .error .reject
  | c :: val =>
    if c = '0'.toUInt8 then .ok (⟨0, 0⟩, val)
    else if '1'.toUInt8 ≤ c ∧ c ≤ '9'.toUInt8 then mantissaDigits ⟨0, 0⟩ (c :: val)
    else .error .reject

/-- Some digits, at least one. -/
def requireDigit (val : List UInt8) : Except ParseEnd Unit :=
  require (val.head?.any isDigit = true) .reject

/-- The fraction, and the number of its digits. -/
def parseFraction (st : Mantissa) (val : List UInt8) :
    Except ParseEnd (Mantissa × ℤ × List UInt8) :=
  if val.head? = some '.'.toUInt8 then do
    let val := val.tail
    requireDigit val
    let (st, rest) ← mantissaDigits st val
    let pointOfs ← signed 31 .overflow (val.takeWhile isDigit).length
    return (st, pointOfs, rest)
  else .ok (st, 0, val)

/-- One iteration of the loop over the digits of an exponent. -/
def exponentDigit (exponent : ℤ) (c : UInt8) : Except ParseEnd ℤ := do
  require (exponent ≤ upperBound / 10) .reject
  signed 63 .overflow (exponent * 10 + digitValue c)

/-- The sign of an exponent. -/
def parseExponentSign (val : List UInt8) : Bool × List UInt8 :=
  if val.head? = some '+'.toUInt8 then (false, val.tail)
  else if val.head? = some '-'.toUInt8 then (true, val.tail)
  else (false, val)

/-- The exponent. -/
def parseExponent (val : List UInt8) : Except ParseEnd (ℤ × List UInt8) :=
  if val.head? = some 'e'.toUInt8 ∨ val.head? = some 'E'.toUInt8 then do
    let (exponentSign, val) := parseExponentSign val.tail
    requireDigit val
    let exponent ← (val.takeWhile isDigit).foldlM exponentDigit 0
    return (if exponentSign then -exponent else exponent, val.dropWhile isDigit)
  else .ok (0, val)

/-- The loop that multiplies by the power of ten. -/
def scaleFixed : ℕ → ℤ → Except ParseEnd ℤ
  | 0, mantissa => .ok mantissa
  | k + 1, mantissa => do
    require (mantissa ≤ upperBound / 10 ∧ -(upperBound / 10) ≤ mantissa) .reject
    let mantissa ← signed 63 .overflow (mantissa * 10)
    scaleFixed k mantissa

/-- The value of the parts of a number. -/
def fixedPoint (mantissaSign : Bool) (st : Mantissa) (pointOfs exponent decimals : ℤ) :
    Except ParseEnd ℤ := do
  let exponent ← signed 63 .overflow (exponent - pointOfs)
  let exponent ← signed 63 .overflow (exponent + st.tzeros)
  let mantissa := if mantissaSign then -st.mantissa else st.mantissa
  let exponent ← signed 63 .overflow (exponent + decimals)
  require (0 ≤ exponent) .reject
  require (exponent < 18) .reject
  let mantissa ← scaleFixed exponent.toNat mantissa
  require (mantissa ≤ upperBound ∧ -upperBound ≤ mantissa) .reject
  return mantissa

/-- The sign of a number. -/
def parseSign (val : List UInt8) : Bool × List UInt8 :=
  if val.head? = some '-'.toUInt8 then (true, val.tail) else (false, val)

/-- `ParseFixedPoint`, of a string whose size is an `int`. -/
def parseFixedPoint (val : List UInt8) (decimals : ℤ) : Except ParseEnd ℤ := do
  let (mantissaSign, val) := parseSign val
  let (st, val) ← parseInteger val
  let (st, pointOfs, val) ← parseFraction st val
  let (exponent, val) ← parseExponent val
  require (val = []) .reject
  fixedPoint mantissaSign st pointOfs exponent decimals

/-! ## The mantissa -/

theorem upperBound_div : upperBound / 10 = 99999999999999999 := by decide

variable {k : ℕ} {m r : ℤ}

theorem scaleMantissa_eq_ok (h : scaleMantissa k m = .ok r) :
    m * 10 ^ k = r ∧ (1 ≤ k → r ≤ 10 ^ 18 - 10) := by
  induction k generalizing m with
  | zero =>
    obtain rfl := Except.ok.inj h
    simp
  | succ k ih =>
    simp only [scaleMantissa, bind_eq_ok_iff, exists_unit_iff, require_eq_ok_iff, signed_eq_ok_iff,
      upperBound_div] at h
    obtain ⟨hle, _, ⟨-, rfl⟩, hrest⟩ := h
    obtain ⟨rfl, hbound⟩ := ih hrest
    refine ⟨by ring, fun _ => ?_⟩
    cases k with
    | zero => omega
    | succ k => exact hbound (by omega)

theorem scaleMantissa_of_lt (hm : 0 ≤ m) (hlt : m * 10 ^ k < 10 ^ 18) :
    scaleMantissa k m = .ok (m * 10 ^ k) := by
  induction k generalizing m with
  | zero => simp [scaleMantissa]
  | succ k ih =>
    have hstep : m * 10 ^ (k + 1) = m * 10 * 10 ^ k := by ring
    rw [hstep] at hlt ⊢
    have hten : m * 10 ≤ m * 10 * 10 ^ k :=
      le_mul_of_one_le_right (by omega) (one_le_pow₀ (by norm_num))
    rw [scaleMantissa, upperBound_div, require_pos (by omega), ok_bind,
      signed_of_range ⟨by omega, by omega⟩, ok_bind]
    exact ih (by omega) hlt

/-- The mantissa and its zeros stand for a number. The mantissa has no zeros at its end. -/
structure Mantissa.Denotes (st : Mantissa) (D : ℕ) : Prop where
  mantissa_nonneg : 0 ≤ st.mantissa
  mantissa_lt : st.mantissa < 10 ^ 18
  tzeros_nonneg : 0 ≤ st.tzeros
  value : st.mantissa * 10 ^ st.tzeros.toNat = D
  stripped : st.mantissa = 0 ∨ st.mantissa % 10 ≠ 0

theorem Mantissa.denotes_zero : (⟨0, 0⟩ : Mantissa).Denotes 0 :=
  ⟨le_rfl, by norm_num, le_rfl, by simp, Or.inl rfl⟩

section Mantissa

variable {st st' : Mantissa} {D : ℕ} {c : UInt8} {ds : List UInt8}

theorem Mantissa.Denotes.step (h : st.Denotes D) (hc : isDigit c = true)
    (hstep : processMantissaDigit st c = .ok st') : st'.Denotes (10 * D + digitValue c) := by
  have hexp : (st.tzeros + 1).toNat = st.tzeros.toNat + 1 := by
    have := h.tzeros_nonneg
    omega
  have hvalue := h.value
  unfold processMantissaDigit at hstep
  split_ifs at hstep with hzero
  · simp only [bind_eq_ok_iff, signed_eq_ok_iff, pure_eq_ok_iff] at hstep
    obtain ⟨_, ⟨-, rfl⟩, rfl⟩ := hstep
    refine ⟨h.mantissa_nonneg, h.mantissa_lt, ?_, ?_, h.stripped⟩
    · exact add_nonneg h.tzeros_nonneg zero_le_one
    · change st.mantissa * 10 ^ (st.tzeros + 1).toNat = _
      rw [(digitValue_eq_zero_iff hc).mpr hzero, hexp, pow_succ, ← mul_assoc, hvalue]
      push_cast
      ring
  · simp only [bind_eq_ok_iff, signed_eq_ok_iff, pure_eq_ok_iff] at hstep
    obtain ⟨m, hm, _, ⟨-, rfl⟩, rfl⟩ := hstep
    obtain ⟨rfl, hbound⟩ := scaleMantissa_eq_ok hm
    have hd : digitValue c ≠ 0 := fun h => hzero ((digitValue_eq_zero_iff hc).mp h)
    have hd' := digitValue_lt hc
    have hle := hbound (by omega)
    have hprod : st.mantissa * 10 ^ (st.tzeros + 1).toNat = 10 * D := by
      rw [hexp, pow_succ, ← mul_assoc, hvalue]
      ring
    rw [hprod] at hle ⊢
    exact ⟨by dsimp only; omega, by dsimp only; omega, le_rfl, by simp, Or.inr (by dsimp only; omega)⟩

variable {r v M Z : ℕ}

/-- If digits after the last one that is not zero leave a small number, the number up to that one is
small. -/
theorem stripped_lt {X : ℕ} (hX : X % 10 ≠ 0) (hv : v < 10 ^ r)
    (h : X * 10 ^ r + v = M * 10 ^ Z) (hM : M < 10 ^ 18) : X < 10 ^ 18 := by
  by_contra hlarge
  have hZ : r < Z := by
    by_contra hle
    have hpow : M * 10 ^ Z ≤ M * 10 ^ r :=
      Nat.mul_le_mul_left M (Nat.pow_le_pow_right (by norm_num) (not_lt.mp hle))
    have hlt : M * 10 ^ r < X * 10 ^ r :=
      Nat.mul_lt_mul_of_pos_right (by omega) (by positivity)
    omega
  have hdvd : 10 ^ (r + 1) ∣ X * 10 ^ r + v :=
    h ▸ Dvd.dvd.mul_left (pow_dvd_pow 10 hZ) M
  -- the digit that is not zero is left when the number is divided
  have hsplit : X * 10 ^ r + v = 10 ^ (r + 1) * (X / 10) + (X % 10 * 10 ^ r + v) := by
    conv_lhs => rw [← Nat.div_add_mod X 10]
    ring
  have hrest : 10 ^ (r + 1) ∣ X % 10 * 10 ^ r + v := by
    rw [hsplit] at hdvd
    exact (Nat.dvd_add_right (Dvd.intro _ rfl)).mp hdvd
  have hpos : 0 < X % 10 * 10 ^ r := Nat.mul_pos (Nat.pos_of_ne_zero hX) (by positivity)
  have hsmall : X % 10 * 10 ^ r + v < 10 ^ (r + 1) := by
    have hnine : X % 10 * 10 ^ r ≤ 9 * 10 ^ r := Nat.mul_le_mul_right _ (by omega)
    rw [pow_succ]
    omega
  exact absurd (Nat.le_of_dvd (by omega) hrest) (by omega)

theorem Mantissa.Denotes.exists_step (h : st.Denotes D) (hc : isDigit c = true)
    (hzeros : st.tzeros + 1 < 2 ^ 31) (hv : v < 10 ^ r)
    (hvalue : (10 * D + digitValue c) * 10 ^ r + v = M * 10 ^ Z) (hM : M < 10 ^ 18) :
    ∃ st', processMantissaDigit st c = .ok st' ∧ st'.tzeros ≤ st.tzeros + 1 := by
  have hnonneg := h.tzeros_nonneg
  unfold processMantissaDigit
  split_ifs with hzero
  · rw [signed_of_range ⟨by omega, hzeros⟩, ok_bind]
    exact ⟨_, rfl, le_rfl⟩
  · have hd : digitValue c ≠ 0 := fun h => hzero ((digitValue_eq_zero_iff hc).mp h)
    have hd' := digitValue_lt hc
    have hlt := stripped_lt (show (10 * D + digitValue c) % 10 ≠ 0 by omega) hv hvalue hM
    have hprod : st.mantissa * 10 ^ (st.tzeros + 1).toNat = 10 * D := by
      rw [show (st.tzeros + 1).toNat = st.tzeros.toNat + 1 by omega, pow_succ, ← mul_assoc, h.value]
      ring
    rw [scaleMantissa_of_lt h.mantissa_nonneg (by omega), ok_bind, hprod,
      signed_of_range ⟨by omega, by omega⟩, ok_bind]
    exact ⟨_, rfl, by dsimp only; omega⟩

/-- A digit read moves from the digits to the number before them. -/
theorem digit_shift {R : Type} [CommSemiring R] (D : R) (c : UInt8) (ds : List UInt8) :
    (10 * D + digitValue c) * 10 ^ ds.length + decimalValue ds =
      D * 10 ^ (c :: ds).length + decimalValue (c :: ds) := by
  rw [decimalValue_cons, length_cons, pow_succ]
  push_cast
  ring

theorem Mantissa.Denotes.run (h : st.Denotes D) (hds : ∀ c ∈ ds, isDigit c = true)
    (hrun : ds.foldlM processMantissaDigit st = .ok st') :
    st'.Denotes (D * 10 ^ ds.length + decimalValue ds) := by
  induction ds generalizing st D with
  | nil =>
    obtain rfl := pure_eq_ok_iff.mp hrun
    simpa using h
  | cons c ds ih =>
    obtain ⟨hc, hds⟩ := forall_mem_cons.mp hds
    rw [foldlM_cons, bind_eq_ok_iff] at hrun
    obtain ⟨mid, hmid, hrun⟩ := hrun
    rw [← Nat.cast_id (decimalValue (c :: ds)), ← digit_shift]
    exact ih (h.step hc hmid) hds hrun

/-- The loop reads digits that leave a small number when the zeros at the end are taken off. -/
theorem Mantissa.Denotes.exists_run (h : st.Denotes D) (hds : ∀ c ∈ ds, isDigit c = true)
    (hzeros : st.tzeros + ds.length < 2 ^ 31)
    (hvalue : D * 10 ^ ds.length + decimalValue ds = M * 10 ^ Z) (hM : M < 10 ^ 18) :
    ∃ st', ds.foldlM processMantissaDigit st = .ok st' ∧
      st'.tzeros ≤ st.tzeros + ds.length := by
  induction ds generalizing st D with
  | nil => exact ⟨st, rfl, by simp⟩
  | cons c ds ih =>
    obtain ⟨hc, hds⟩ := forall_mem_cons.mp hds
    rw [← Nat.cast_id (decimalValue (c :: ds)), ← digit_shift] at hvalue
    rw [length_cons] at hzeros ⊢
    obtain ⟨mid, hmid, hmidzeros⟩ := h.exists_step hc (by omega) (decimalValue_lt hds) hvalue hM
    obtain ⟨st', hrun, hle⟩ := ih (h.step hc hmid) hds (by omega) hvalue
    refine ⟨st', ?_, by push_cast at hle ⊢; omega⟩
    rw [foldlM_cons, hmid, ok_bind, hrun]

end Mantissa

/-! ## The exponent -/

variable {ds : List UInt8} {e : ℤ}

theorem exponent_eq_ok (h : ds.foldlM exponentDigit e = .ok r) :
    r = e * 10 ^ ds.length + decimalValue ds := by
  induction ds generalizing e with
  | nil =>
    obtain rfl := pure_eq_ok_iff.mp h
    simp
  | cons c ds ih =>
    rw [foldlM_cons, bind_eq_ok_iff] at h
    obtain ⟨mid, hmid, h⟩ := h
    simp only [exponentDigit, bind_eq_ok_iff, exists_unit_iff, require_eq_ok_iff,
      signed_eq_ok_iff] at hmid
    obtain ⟨-, -, rfl⟩ := hmid
    rw [ih h, ← digit_shift, mul_comm 10 e]

theorem exponent_of_lt (hds : ∀ c ∈ ds, isDigit c = true) (he : 0 ≤ e)
    (hlt : e * 10 ^ ds.length + decimalValue ds < 10 ^ 18) :
    ∃ r, ds.foldlM exponentDigit e = .ok r := by
  induction ds generalizing e with
  | nil => exact ⟨e, rfl⟩
  | cons c ds ih =>
    obtain ⟨hc, hds⟩ := forall_mem_cons.mp hds
    have hd := digitValue_lt hc
    rw [← digit_shift, mul_comm 10 e] at hlt
    have hle : e * 10 + digitValue c ≤ (e * 10 + digitValue c) * 10 ^ ds.length :=
      le_mul_of_one_le_right (by omega) (one_le_pow₀ (by norm_num))
    have hstep : exponentDigit e c = .ok (e * 10 + digitValue c) := by
      rw [exponentDigit, upperBound_div, require_pos (by omega), ok_bind,
        signed_of_range ⟨by omega, by omega⟩]
    obtain ⟨r, hr⟩ := ih hds (by omega) hlt
    exact ⟨r, by rw [foldlM_cons, hstep, ok_bind, hr]⟩

/-! ## The value -/

theorem scaleFixed_eq_ok (h : scaleFixed k m = .ok r) : m * 10 ^ k = r := by
  induction k generalizing m with
  | zero =>
    obtain rfl := Except.ok.inj h
    simp
  | succ k ih =>
    simp only [scaleFixed, bind_eq_ok_iff, exists_unit_iff, require_eq_ok_iff,
      signed_eq_ok_iff] at h
    obtain ⟨-, _, ⟨-, rfl⟩, hrest⟩ := h
    rw [← ih hrest]
    ring

theorem scaleFixed_of_lt (hlt : |m| * 10 ^ k < 10 ^ 18) :
    scaleFixed k m = .ok (m * 10 ^ k) := by
  induction k generalizing m with
  | zero => simp [scaleFixed]
  | succ k ih =>
    have hstep : |m| * 10 ^ (k + 1) = |m * 10| * 10 ^ k := by
      rw [abs_mul, abs_of_nonneg (by norm_num : (0 : ℤ) ≤ 10)]
      ring
    rw [hstep] at hlt
    have hten : |m * 10| ≤ |m * 10| * 10 ^ k :=
      le_mul_of_one_le_right (abs_nonneg _) (one_le_pow₀ (by norm_num))
    obtain ⟨hlow, hhigh⟩ := abs_lt.mp (hten.trans_lt hlt)
    rw [scaleFixed, upperBound_div, require_pos ⟨by omega, by omega⟩, ok_bind,
      signed_of_range ⟨by omega, by omega⟩, ok_bind, ih hlt]
    exact congrArg Except.ok (by ring)

/-! ## The parts of a number -/

/-- The mantissa of an integer part. -/
def wholeMantissa (whole : List UInt8) : Except ParseEnd Mantissa :=
  if whole = ['0'.toUInt8] then .ok ⟨0, 0⟩ else whole.foldlM processMantissaDigit ⟨0, 0⟩

/-- The exponent, as the parser computes it. -/
def JsonExponent.parsed (e : JsonExponent) : Except ParseEnd ℤ := do
  let exponent ← e.digits.chars.foldlM exponentDigit 0
  return match e.sign with
    | .minus => -exponent
    | _ => exponent

/-- The value of a number, as the parser computes it. -/
def JsonNumber.parsed (n : JsonNumber) (decimals : ℤ) : Except ParseEnd ℤ := do
  let st ← wholeMantissa n.whole.chars
  let st ← n.fractionChars.foldlM processMantissaDigit st
  let pointOfs ← signed 31 .overflow n.fractionChars.length
  let exponent ← (n.exponent.map JsonExponent.parsed).getD (.ok 0)
  fixedPoint n.minus st pointOfs exponent decimals

section Parts

variable {ds rest val : List UInt8}

theorem requireDigit_eq_ok_iff {u : Unit} :
    requireDigit val = .ok u ↔ val.head?.any isDigit = true := require_eq_ok_iff

theorem requireDigit_pos (h : val.head?.any isDigit = true) : requireDigit val = .ok () :=
  require_pos h

theorem takeWhile_isDigit (hds : ∀ c ∈ ds, isDigit c = true)
    (hrest : rest.head?.any isDigit = false) :
    (ds ++ rest).takeWhile isDigit = ds ∧ (ds ++ rest).dropWhile isDigit = rest := by
  rw [takeWhile_append_of_pos hds, dropWhile_append_of_pos hds]
  cases rest with
  | nil => simp
  | cons c rest =>
    have hc : ¬isDigit c = true := by simpa using hrest
    rw [takeWhile_cons_of_neg hc, dropWhile_cons_of_neg hc, append_nil]
    exact ⟨rfl, rfl⟩

/-- The digits at the start of a string. -/
theorem exists_digits (h : val.head?.any isDigit = true) :
    ∃ ds : Digits, val = ds.chars ++ val.dropWhile isDigit := by
  obtain ⟨c, val, rfl⟩ : ∃ c val', val = c :: val' := by
    cases val with
    | nil => cases h
    | cons c val => exact ⟨c, val, rfl⟩
  have hc : isDigit c = true := h
  refine ⟨⟨(c :: val).takeWhile isDigit, ?_, fun d hd => mem_takeWhile_imp hd⟩,
    takeWhile_append_dropWhile.symm⟩
  rw [takeWhile_cons_of_pos hc]
  exact cons_ne_nil _ _

theorem Digits.head_isDigit (ds : Digits) (rest : List UInt8) :
    (ds.chars ++ rest).head?.any isDigit = true := by
  obtain ⟨c, cs, hcs⟩ := exists_cons_of_ne_nil ds.ne_nil
  rw [hcs]
  exact ds.digit c (by rw [hcs]; exact mem_cons_self)

/-! ### The sign -/

theorem parseSign_eq (val : List UInt8) :
    val = (if (parseSign val).1 then ['-'.toUInt8] else []) ++ (parseSign val).2 := by
  unfold parseSign
  by_cases h : val.head? = some '-'.toUInt8
  · rw [if_pos h]
    obtain ⟨rest, rfl⟩ := head?_eq_some_iff.mp h
    rfl
  · rw [if_neg h]
    rfl

theorem parseSign_render {minus : Bool} (h : val.head?.any isDigit = true) :
    parseSign ((if minus then ['-'.toUInt8] else []) ++ val) = (minus, val) := by
  cases minus with
  | true => rfl
  | false =>
    refine if_neg fun hminus => ?_
    rw [if_neg Bool.false_ne_true, nil_append] at hminus
    rw [hminus] at h
    cases h

/-! ### The integer part -/

variable {st : Mantissa}

theorem exists_whole (h : parseInteger val = .ok (st, rest)) :
    ∃ whole : Digits, val = whole.chars ++ rest ∧
      (whole.chars = ['0'.toUInt8] ∨ whole.chars.head? ≠ some '0'.toUInt8) := by
  cases val with
  | nil => cases h
  | cons c val =>
    rw [parseInteger] at h
    split_ifs at h with hzero hdigit
    · obtain ⟨-, rfl⟩ := Prod.mk.inj (Except.ok.inj h)
      have hdigit : ∀ d ∈ ['0'.toUInt8], isDigit d = true := fun d hd => by
        rw [mem_singleton.mp hd]
        rfl
      exact ⟨⟨['0'.toUInt8], cons_ne_nil _ _, hdigit⟩, by rw [hzero]; rfl, Or.inl rfl⟩
    · have hone : '0'.toUInt8 ≤ '1'.toUInt8 := by decide
      have hc : isDigit c = true := decide_eq_true ⟨UInt8.le_trans hone hdigit.1, hdigit.2⟩
      simp only [mantissaDigits, bind_eq_ok_iff, pure_eq_ok_iff, Prod.mk.injEq] at h
      obtain ⟨_, -, -, rfl⟩ := h
      obtain ⟨whole, hwhole⟩ := @exists_digits (c :: val) hc
      refine ⟨whole, hwhole, Or.inr fun hhead => hzero ?_⟩
      obtain ⟨cs, hcs⟩ := head?_eq_some_iff.mp hhead
      rw [hcs, cons_append] at hwhole
      exact (cons.inj hwhole).1

theorem parseInteger_render (whole : Digits)
    (hcanonical : whole.chars = ['0'.toUInt8] ∨ whole.chars.head? ≠ some '0'.toUInt8)
    (hrest : rest.head?.any isDigit = false) :
    parseInteger (whole.chars ++ rest) = wholeMantissa whole.chars >>= fun st => .ok (st, rest) := by
  obtain ⟨htake, hdrop⟩ := takeWhile_isDigit whole.digit hrest
  obtain ⟨c, cs, hcs⟩ := exists_cons_of_ne_nil whole.ne_nil
  have hc := whole.digit c (by rw [hcs]; exact mem_cons_self)
  rw [hcs] at hcanonical htake hdrop ⊢
  rw [cons_append] at htake hdrop ⊢
  rw [parseInteger, wholeMantissa]
  by_cases hzero : c = '0'.toUInt8
  · obtain hsingle | hhead := hcanonical
    · obtain ⟨-, rfl⟩ := cons.inj hsingle
      rw [if_pos hzero, if_pos hsingle]
      rfl
    · refine absurd ?_ hhead
      rw [hzero]
      rfl
  · have hdigit : '1'.toUInt8 ≤ c ∧ c ≤ '9'.toUInt8 := by
      rw [isDigit_iff] at hc
      have hne : c.toNat ≠ 48 := fun h => hzero (UInt8.toNat_inj.mp h)
      rw [UInt8.le_iff_toNat_le, UInt8.le_iff_toNat_le]
      have hchars : '1'.toUInt8.toNat = 49 ∧ '9'.toUInt8.toNat = 57 := ⟨rfl, rfl⟩
      omega
    rw [if_neg hzero, if_pos hdigit, if_neg fun h => hzero (cons.inj h).1, mantissaDigits,
      htake, hdrop]
    rfl

/-! ### The fraction -/

theorem exists_fraction {st' : Mantissa} {pointOfs : ℤ}
    (h : parseFraction st val = .ok (st', pointOfs, rest)) : ∃ fraction : Option Digits,
      val = (fraction.map fun f => '.'.toUInt8 :: f.chars).getD [] ++ rest := by
  unfold parseFraction at h
  split_ifs at h with hpoint
  · obtain ⟨val, rfl⟩ := head?_eq_some_iff.mp hpoint
    simp only [requireDigit_eq_ok_iff, mantissaDigits, bind_eq_ok_iff, exists_unit_iff,
      pure_eq_ok_iff, Prod.mk.injEq, Prod.exists, tail_cons] at h
    obtain ⟨hdigit, _, _, ⟨_, -, -, rfl⟩, _, -, -, -, rfl⟩ := h
    obtain ⟨fraction, hfraction⟩ := exists_digits hdigit
    exact ⟨some fraction, congrArg ('.'.toUInt8 :: ·) hfraction⟩
  · obtain ⟨-, -, rfl⟩ := Prod.mk.inj (Except.ok.inj h) |>.imp id Prod.mk.inj
    exact ⟨none, rfl⟩

theorem parseFraction_render (st : Mantissa) (fraction : Option Digits)
    (hrest : rest.head?.any isDigit = false) (hpoint : rest.head? ≠ some '.'.toUInt8) :
    parseFraction st ((fraction.map fun f => '.'.toUInt8 :: f.chars).getD [] ++ rest) = (do
      let st ← ((fraction.map Digits.chars).getD []).foldlM processMantissaDigit st
      let pointOfs ← signed 31 .overflow (((fraction.map Digits.chars).getD []).length : ℤ)
      return (st, pointOfs, rest)) := by
  cases fraction with
  | none =>
    rw [Option.map_none, Option.getD_none, nil_append, parseFraction, if_neg hpoint]
    rfl
  | some f =>
    obtain ⟨htake, hdrop⟩ := takeWhile_isDigit f.digit hrest
    simp only [Option.map_some, Option.getD_some, cons_append]
    rw [parseFraction, if_pos head?_cons]
    simp only [tail_cons, requireDigit_pos (f.head_isDigit rest), ok_bind, mantissaDigits, htake,
      hdrop, bind_assoc, pure_bind]

/-! ### The exponent -/

theorem exists_exponent {exponent : ℤ} (h : parseExponent val = .ok (exponent, rest)) :
    ∃ e : Option JsonExponent, val = (e.map JsonExponent.render).getD [] ++ rest := by
  unfold parseExponent at h
  split_ifs at h with hletter
  · obtain ⟨c, val, rfl, hc⟩ : ∃ c val', val = c :: val' ∧
        (c = 'e'.toUInt8 ∨ c = 'E'.toUInt8) := by
      rcases hletter with hletter | hletter
      · obtain ⟨val, rfl⟩ := head?_eq_some_iff.mp hletter
        exact ⟨_, val, rfl, Or.inl rfl⟩
      · obtain ⟨val, rfl⟩ := head?_eq_some_iff.mp hletter
        exact ⟨_, val, rfl, Or.inr rfl⟩
    have hsign : ∃ sign : ExponentSign, val = sign.render ++ (parseExponentSign val).2 := by
      unfold parseExponentSign
      split_ifs with hplus hminus
      · obtain ⟨val, rfl⟩ := head?_eq_some_iff.mp hplus
        exact ⟨.plus, rfl⟩
      · obtain ⟨val, rfl⟩ := head?_eq_some_iff.mp hminus
        exact ⟨.minus, rfl⟩
      · exact ⟨.none, rfl⟩
    obtain ⟨sign, hsign⟩ := hsign
    simp only [requireDigit_eq_ok_iff, bind_eq_ok_iff, exists_unit_iff, pure_eq_ok_iff,
      Prod.mk.injEq, tail_cons] at h
    obtain ⟨hdigit, _, -, -, rfl⟩ := h
    obtain ⟨digits, hdigits⟩ := exists_digits hdigit
    refine ⟨some ⟨c, sign, digits, hc⟩, ?_⟩
    rw [Option.map_some, Option.getD_some, JsonExponent.render, cons_append,
      append_assoc, ← hdigits, ← hsign]
  · obtain ⟨-, rfl⟩ := Prod.mk.inj (Except.ok.inj h)
    exact ⟨none, rfl⟩

theorem parseExponent_render (e : Option JsonExponent) :
    parseExponent ((e.map JsonExponent.render).getD []) =
      (e.map JsonExponent.parsed).getD (.ok 0) >>= fun exponent => .ok (exponent, []) := by
  cases e with
  | none => rfl
  | some e =>
    obtain ⟨htake, hdrop⟩ := @takeWhile_isDigit e.digits.chars [] e.digits.digit rfl
    rw [append_nil] at htake hdrop
    have hletter : (e.render).head? = some 'e'.toUInt8 ∨ (e.render).head? = some 'E'.toUInt8 :=
      e.letter_eq.imp (congrArg some) (congrArg some)
    have hdigit := e.digits.head_isDigit []
    rw [append_nil] at hdigit
    have hsign : parseExponentSign (e.sign.render ++ e.digits.chars) =
        (match e.sign with | .minus => true | _ => false, e.digits.chars) := by
      cases e.sign with
      | plus => rfl
      | minus => rfl
      | none =>
        rw [ExponentSign.render, nil_append, parseExponentSign, if_neg, if_neg]
        · intro h
          rw [h] at hdigit
          cases hdigit
        · intro h
          rw [h] at hdigit
          cases hdigit
    rw [Option.map_some, Option.getD_some, parseExponent, if_pos hletter, JsonExponent.render,
      tail_cons, hsign, Option.map_some, Option.getD_some, JsonExponent.parsed]
    simp only [requireDigit_pos hdigit, ok_bind, htake, hdrop, bind_assoc, pure_bind]
    cases e.sign <;> rfl

/-! ### The number -/

theorem JsonNumber.parse_render (n : JsonNumber) (decimals : ℤ) :
    parseFixedPoint n.render decimals = n.parsed decimals := by
  have he : 'e'.toUInt8 ≠ '.'.toUInt8 := by decide
  have hE : 'E'.toUInt8 ≠ '.'.toUInt8 := by decide
  have hexponent : ∀ e : Option JsonExponent,
      ((e.map JsonExponent.render).getD []).head?.any isDigit = false ∧
      ((e.map JsonExponent.render).getD []).head? ≠ some '.'.toUInt8 := by
    rintro (_ | ⟨letter, sign, digits, rfl | rfl⟩)
    · exact ⟨rfl, by simp⟩
    · exact ⟨rfl, fun h => absurd (Option.some.inj h) he⟩
    · exact ⟨rfl, fun h => absurd (Option.some.inj h) hE⟩
  obtain ⟨hdigit, hpoint⟩ := hexponent n.exponent
  have hfraction : ((n.fraction.map fun f => '.'.toUInt8 :: f.chars).getD [] ++
      (n.exponent.map JsonExponent.render).getD []).head?.any isDigit = false := by
    cases n.fraction with
    | none => exact hdigit
    | some f => rfl
  rw [parseFixedPoint, JsonNumber.render, append_assoc, append_assoc,
    parseSign_render (n.whole.head_isDigit _)]
  simp only [parseInteger_render n.whole n.canonical hfraction, bind_assoc, ok_bind,
    parseFraction_render _ n.fraction hdigit hpoint, parseExponent_render, pure_bind,
    require_pos trivial]
  rfl

theorem JsonNumber.exists_render {s : List UInt8} {decimals v : ℤ}
    (h : parseFixedPoint s decimals = .ok v) : ∃ n : JsonNumber, n.render = s := by
  simp only [parseFixedPoint, bind_eq_ok_iff, Prod.exists, exists_unit_iff, require_eq_ok_iff] at h
  obtain ⟨_, _, hinteger, _, _, _, hfraction, _, _, hexponent, rfl, -⟩ := h
  obtain ⟨whole, hwhole, hcanonical⟩ := exists_whole hinteger
  obtain ⟨fraction, rfl⟩ := exists_fraction hfraction
  obtain ⟨exponent, rfl⟩ := exists_exponent hexponent
  refine ⟨⟨(parseSign s).1, whole, fraction, exponent, hcanonical⟩, ?_⟩
  conv_rhs => rw [parseSign_eq s, hwhole]
  simp [JsonNumber.render]

end Parts

/-! ## The value of a number -/

/-- A sign. -/
def signOf (minus : Bool) : ℤ := if minus then -1 else 1

theorem signOf_mul (minus : Bool) (m : ℤ) : (if minus then -m else m) = signOf minus * m := by
  cases minus <;> simp [signOf]

theorem upperBound_eq : upperBound = 10 ^ 18 - 1 := rfl

section Value

variable {minus : Bool} {st : Mantissa} {pointOfs exponent decimals v : ℤ}

theorem fixedPoint_eq_ok (h : fixedPoint minus st pointOfs exponent decimals = .ok v) :
    0 ≤ exponent - pointOfs + st.tzeros + decimals ∧ |v| < 10 ^ 18 ∧
      v = signOf minus * st.mantissa * 10 ^ (exponent - pointOfs + st.tzeros + decimals).toNat := by
  simp only [fixedPoint, bind_eq_ok_iff, exists_unit_iff, require_eq_ok_iff, pure_eq_ok_iff,
    signed_eq_ok_iff, signOf_mul] at h
  obtain ⟨_, ⟨-, rfl⟩, _, ⟨-, rfl⟩, _, ⟨-, rfl⟩, hnonneg, -, r, hr, hbound, rfl⟩ := h
  rw [upperBound_eq] at hbound
  exact ⟨hnonneg, abs_lt.mpr ⟨by omega, by omega⟩, (scaleFixed_eq_ok hr).symm⟩

theorem fixedPoint_of_lt (hzeros : 0 ≤ st.tzeros ∧ st.tzeros < 2 ^ 31)
    (hexponent : |exponent| < 10 ^ 18) (hdecimals : 0 ≤ decimals ∧ decimals ≤ 18)
    (hscale : 0 ≤ exponent - pointOfs + st.tzeros + decimals ∧
      exponent - pointOfs + st.tzeros + decimals < 18)
    (hv : v = signOf minus * st.mantissa * 10 ^ (exponent - pointOfs + st.tzeros + decimals).toNat)
    (hlt : |v| < 10 ^ 18) : fixedPoint minus st pointOfs exponent decimals = .ok v := by
  obtain ⟨hlow, hhigh⟩ := abs_lt.mp hexponent
  obtain ⟨hneg, hpos⟩ := abs_lt.mp hlt
  have hpower : |signOf minus * st.mantissa| *
      10 ^ (exponent - pointOfs + st.tzeros + decimals).toNat < 10 ^ 18 := by
    rwa [hv, abs_mul, abs_of_nonneg (by positivity : (0 : ℤ) ≤ 10 ^ _)] at hlt
  rw [fixedPoint, signed_of_range ⟨by omega, by omega⟩, ok_bind,
    signed_of_range ⟨by omega, by omega⟩, ok_bind, signOf_mul]
  dsimp only
  rw [signed_of_range ⟨by omega, by omega⟩, ok_bind, require_pos hscale.1, ok_bind,
    require_pos hscale.2, ok_bind, scaleFixed_of_lt hpower, ok_bind, ← hv,
    require_pos ⟨by rw [upperBound_eq]; omega, by rw [upperBound_eq]; omega⟩]
  rfl

end Value

namespace JsonNumber

variable {n : JsonNumber} {decimals : ℕ}

theorem value_eq (n : JsonNumber) :
    n.value = signOf n.minus * n.digitsValue * 10 ^ n.scale := by
  unfold value signOf
  cases n.minus <;> simp

theorem fraction_digit (n : JsonNumber) : ∀ c ∈ n.fractionChars, isDigit c = true := by
  unfold fractionChars
  cases n.fraction with
  | none => simp
  | some f => exact f.digit

variable {st : Mantissa}

/-- The mantissa of a number stands for its digits. -/
theorem denotes_digitsValue {st' : Mantissa} (hwhole : wholeMantissa n.whole.chars = .ok st)
    (hfraction : n.fractionChars.foldlM processMantissaDigit st = .ok st') :
    st'.Denotes n.digitsValue := by
  have hst : st.Denotes (decimalValue n.whole.chars) := by
    unfold wholeMantissa at hwhole
    split_ifs at hwhole with hzero
    · obtain rfl := Except.ok.inj hwhole
      rw [hzero]
      exact Mantissa.denotes_zero
    · simpa using Mantissa.denotes_zero.run n.whole.digit hwhole
  rw [digitsValue, decimalValue_append]
  exact hst.run n.fraction_digit hfraction

theorem parsed_exponent {e : ℤ} (h : (n.exponent.map JsonExponent.parsed).getD (.ok 0) = .ok e) :
    e = (n.exponent.map JsonExponent.value).getD 0 := by
  cases hn : n.exponent with
  | none =>
    rw [hn] at h
    exact (Except.ok.inj h).symm
  | some exponent =>
    rw [hn] at h
    simp only [Option.map_some, Option.getD_some, JsonExponent.parsed, bind_eq_ok_iff,
      pure_eq_ok_iff] at h ⊢
    obtain ⟨r, hr, rfl⟩ := h
    have hvalue := exponent_eq_ok hr
    rw [zero_mul, zero_add] at hvalue
    unfold JsonExponent.value
    cases exponent.sign <;> simp only [hvalue]

/-- The value of a number, computed from its mantissa. -/
theorem value_mul_eq (hdenotes : st.Denotes n.digitsValue)
    (hnonneg : 0 ≤ n.scale + st.tzeros + decimals) :
    n.value * 10 ^ decimals =
      (signOf n.minus * st.mantissa * 10 ^ (n.scale + st.tzeros + decimals).toNat : ℤ) := by
  have hdigits : (n.digitsValue : ℚ) = st.mantissa * 10 ^ st.tzeros := by
    rw [← Int.toNat_of_nonneg hdenotes.tzeros_nonneg, zpow_natCast]
    exact_mod_cast hdenotes.value.symm
  have hpower : (10 : ℚ) ^ (n.scale + st.tzeros + decimals).toNat =
      10 ^ n.scale * 10 ^ st.tzeros * 10 ^ decimals := by
    rw [← zpow_natCast, Int.toNat_of_nonneg hnonneg, zpow_add₀ (by norm_num),
      zpow_add₀ (by norm_num), zpow_natCast]
  push_cast
  rw [hpower, value_eq, hdigits]
  ring

variable {v : ℤ}

/-- A value that the parser computes is exact, and has at most 18 digits. -/
theorem parsed_exact (h : n.parsed decimals = .ok v) :
    n.value * 10 ^ decimals = v ∧ |v| < 10 ^ 18 := by
  simp only [parsed, bind_eq_ok_iff, signed_eq_ok_iff] at h
  obtain ⟨st, hwhole, st', hfraction, _, ⟨-, rfl⟩, e, he, h⟩ := h
  obtain ⟨hnonneg, hlt, rfl⟩ := fixedPoint_eq_ok h
  obtain rfl := parsed_exponent he
  exact ⟨value_mul_eq (denotes_digitsValue hwhole hfraction) hnonneg, hlt⟩

/-! ### Which values are read -/

theorem length_le_render (n : JsonNumber) :
    n.whole.chars.length + n.fractionChars.length ≤ n.render.length := by
  unfold render fractionChars
  cases n.fraction <;> simp <;> omega

theorem digitsValue_lt (n : JsonNumber) :
    n.digitsValue < 10 ^ (n.whole.chars.length + n.fractionChars.length) := by
  rw [digitsValue, ← length_append]
  exact decimalValue_lt fun c hc =>
    (mem_append.mp hc).elim (n.whole.digit c) (n.fraction_digit c)

/-- The digits of a number fit the mantissa when they are a short number and zeros. -/
theorem exists_mantissa (hlength : n.whole.chars.length + n.fractionChars.length < 2 ^ 31) {M Z : ℕ}
    (hvalue : n.digitsValue = M * 10 ^ Z) (hM : M < 10 ^ 18) :
    ∃ st st', wholeMantissa n.whole.chars = .ok st ∧
      n.fractionChars.foldlM processMantissaDigit st = .ok st' ∧ st'.tzeros < 2 ^ 31 := by
  by_cases hzero : n.whole.chars = ['0'.toUInt8]
  · have hfraction : 0 * 10 ^ n.fractionChars.length + decimalValue n.fractionChars =
        M * 10 ^ Z := by
      rw [← hvalue, digitsValue, decimalValue_append, hzero]
      rfl
    obtain ⟨st', hst', hzeros⟩ := Mantissa.denotes_zero.exists_run n.fraction_digit
      (by dsimp only; omega) hfraction hM
    exact ⟨⟨0, 0⟩, st', if_pos hzero, hst', by dsimp only at hzeros; omega⟩
  · have hdigits : ∀ c ∈ n.whole.chars ++ n.fractionChars, isDigit c = true := fun c hc =>
      (mem_append.mp hc).elim (n.whole.digit c) (n.fraction_digit c)
    obtain ⟨st', hst', hzeros⟩ := Mantissa.denotes_zero.exists_run hdigits
      (by rw [length_append]; push_cast; omega)
      (by rw [zero_mul, zero_add]; exact hvalue) hM
    rw [foldlM_append, bind_eq_ok_iff] at hst'
    obtain ⟨st, hst, hst'⟩ := hst'
    rw [length_append] at hzeros
    push_cast at hzeros
    exact ⟨st, st', (if_neg hzero).trans hst, hst', by omega⟩

theorem exponent_parsed (h : |(n.exponent.map JsonExponent.value).getD 0| < 10 ^ 18) :
    (n.exponent.map JsonExponent.parsed).getD (.ok 0) =
      .ok ((n.exponent.map JsonExponent.value).getD 0) := by
  cases hn : n.exponent with
  | none => rfl
  | some e =>
    rw [hn, Option.map_some, Option.getD_some] at h
    have hlt : (0 : ℤ) * 10 ^ e.digits.chars.length + decimalValue e.digits.chars < 10 ^ 18 := by
      rw [zero_mul, zero_add]
      unfold JsonExponent.value at h
      cases hsign : e.sign <;> rw [hsign] at h <;> simpa using h
    obtain ⟨r, hr⟩ := exponent_of_lt e.digits.digit le_rfl hlt
    have hparsed : (n.exponent.map JsonExponent.parsed).getD (.ok 0) =
        .ok (match e.sign with | .minus => -r | _ => r) := by
      rw [hn, Option.map_some, Option.getD_some, JsonExponent.parsed, hr]
      rfl
    have hvalue := parsed_exponent hparsed
    rw [hn] at hparsed hvalue
    rw [hparsed, hvalue]

/-- The digits and the value of a number that is an integer in the units asked for. -/
theorem digits_cases (h : n.value * 10 ^ decimals = v) :
    (0 ≤ n.scale + decimals ∧ v.natAbs = n.digitsValue * 10 ^ (n.scale + decimals).toNat) ∨
    (n.scale + decimals < 0 ∧ n.digitsValue = v.natAbs * 10 ^ (-(n.scale + decimals)).toNat) := by
  have habs : (v.natAbs : ℚ) = n.digitsValue * 10 ^ (n.scale + decimals) := by
    have hsign : |(signOf n.minus : ℚ)| = 1 := by
      unfold signOf
      cases n.minus <;> simp
    rw [Nat.cast_natAbs, Int.cast_abs, ← h, value_eq, mul_assoc, ← zpow_natCast (10 : ℚ) decimals,
      ← zpow_add₀ (by norm_num), abs_mul, abs_mul, hsign, one_mul, Nat.abs_cast,
      abs_of_nonneg (by positivity)]
  rcases le_or_gt 0 (n.scale + decimals) with hnonneg | hneg
  · refine Or.inl ⟨hnonneg, ?_⟩
    rw [← Int.toNat_of_nonneg hnonneg, zpow_natCast] at habs
    exact_mod_cast habs
  · refine Or.inr ⟨hneg, ?_⟩
    have hpower : (10 : ℚ) ^ (n.scale + decimals) * 10 ^ (-(n.scale + decimals)).toNat = 1 := by
      rw [← zpow_natCast, Int.toNat_of_nonneg (by omega), ← zpow_add₀ (by norm_num), add_neg_cancel,
        zpow_zero]
    have hdigits : (n.digitsValue : ℚ) = v.natAbs * 10 ^ (-(n.scale + decimals)).toNat := by
      rw [habs, mul_assoc, hpower, mul_one]
    exact_mod_cast hdigits

theorem digitsValue_pos (h : n.value * 10 ^ decimals = v) (hv : v ≠ 0) :
    0 < n.digitsValue := by
  rw [Nat.pos_iff_ne_zero]
  intro hzero
  rw [value_eq, hzero] at h
  norm_num at h
  exact hv (by exact_mod_cast h.symm)

theorem natAbs_lt (hlt : |v| < 10 ^ 18) : v.natAbs < 10 ^ 18 := by
  rw [← Int.ofNat_lt, Int.natCast_natAbs]
  exact_mod_cast hlt

/-- The exponent of a number that is an integer of at most 18 digits, not zero, is small. -/
theorem exponent_lt (hlength : n.whole.chars.length + n.fractionChars.length < 2 ^ 31)
    (hdecimals : decimals ≤ 18) (h : n.value * 10 ^ decimals = v) (hv : v ≠ 0)
    (hlt : |v| < 10 ^ 18) : |(n.exponent.map JsonExponent.value).getD 0| < 10 ^ 18 := by
  have habs := natAbs_lt hlt
  have hscale : n.scale =
      (n.exponent.map JsonExponent.value).getD 0 - n.fractionChars.length := rfl
  rw [abs_lt]
  rcases digits_cases h with ⟨hnonneg, hN⟩ | ⟨hneg, hD⟩
  · have hk : (n.scale + decimals).toNat < 18 := by
      refine (Nat.pow_lt_pow_iff_right (by norm_num : 1 < 10)).mp (lt_of_le_of_lt ?_ habs)
      rw [hN]
      exact Nat.le_mul_of_pos_left _ (digitsValue_pos h hv)
    constructor <;> omega
  · have hk : (-(n.scale + decimals)).toNat < n.whole.chars.length + n.fractionChars.length := by
      refine (Nat.pow_lt_pow_iff_right (by norm_num : 1 < 10)).mp
        (lt_of_le_of_lt ?_ n.digitsValue_lt)
      rw [hD]
      exact Nat.le_mul_of_pos_left _ (Int.natAbs_pos.mpr hv)
    constructor <;> omega

/-- The zeros of the mantissa make up for a negative scale. -/
theorem scale_nonneg (hdenotes : st.Denotes n.digitsValue)
    (h : n.value * 10 ^ decimals = v) (hv : v ≠ 0) : 0 ≤ n.scale + st.tzeros + decimals := by
  have hzeros := hdenotes.tzeros_nonneg
  rcases digits_cases h with ⟨hnonneg, -⟩ | ⟨hneg, hD⟩
  · omega
  · by_contra hlt
    -- the mantissa would end in a zero
    obtain ⟨j, hj⟩ : ∃ j, (-(n.scale + decimals)).toNat = j + 1 + st.tzeros.toNat :=
      ⟨(-(n.scale + decimals)).toNat - 1 - st.tzeros.toNat, by omega⟩
    have hmantissa : st.mantissa = v.natAbs * 10 ^ j * 10 := by
      have hvalue := hdenotes.value
      rw [hD, hj, pow_add, pow_succ] at hvalue
      push_cast at hvalue
      rw [← mul_assoc] at hvalue
      rw [mul_right_cancel₀ (by positivity) hvalue, mul_assoc, Int.natCast_natAbs]
    rcases hdenotes.stripped with hzero | hlast
    · have hvalue := hdenotes.value
      rw [hzero, zero_mul] at hvalue
      have hpos := digitsValue_pos h hv
      omega
    · exact hlast (by rw [hmantissa]; exact Int.mul_emod_left _ _)

/-- A number that is an integer of at most 18 digits, not zero, is read. -/
theorem parsed_of_lt (hlength : n.whole.chars.length + n.fractionChars.length < 2 ^ 31)
    (hdecimals : decimals ≤ 18) (h : n.value * 10 ^ decimals = v) (hv : v ≠ 0)
    (hlt : |v| < 10 ^ 18) : n.parsed decimals = .ok v := by
  have habs := natAbs_lt hlt
  have hexponent := exponent_lt hlength hdecimals h hv hlt
  obtain ⟨M, Z, hMZ, hM⟩ : ∃ M Z, n.digitsValue = M * 10 ^ Z ∧ M < 10 ^ 18 := by
    rcases digits_cases h with ⟨-, hN⟩ | ⟨-, hD⟩
    · refine ⟨n.digitsValue, 0, by simp, lt_of_le_of_lt ?_ habs⟩
      rw [hN]
      exact Nat.le_mul_of_pos_right _ (by positivity)
    · exact ⟨v.natAbs, _, hD, habs⟩
  obtain ⟨st, st', hwhole, hfraction, hzeros⟩ := exists_mantissa hlength hMZ hM
  have hdenotes := denotes_digitsValue hwhole hfraction
  have hscale := scale_nonneg hdenotes h hv
  have hvalue : v = signOf n.minus * st'.mantissa *
      10 ^ (n.scale + st'.tzeros + decimals).toNat := by
    have := h.symm.trans (value_mul_eq hdenotes hscale)
    exact_mod_cast this
  have hsmall : n.scale + st'.tzeros + decimals < 18 := by
    have hm : signOf n.minus * st'.mantissa ≠ 0 := by
      intro hzero
      rw [hzero, zero_mul] at hvalue
      exact hv hvalue
    rw [hvalue, abs_mul, abs_of_nonneg (by positivity : (0 : ℤ) ≤ 10 ^ _)] at hlt
    have hpower : (10 : ℤ) ^ (n.scale + st'.tzeros + decimals).toNat < 10 ^ 18 :=
      lt_of_le_of_lt (le_mul_of_one_le_left (by positivity) (Int.one_le_abs hm)) hlt
    have := (pow_lt_pow_iff_right₀ (by norm_num : (1 : ℤ) < 10)).mp hpower
    omega
  rw [parsed, hwhole, ok_bind, hfraction, ok_bind, signed_of_range ⟨by omega, by omega⟩, ok_bind,
    exponent_parsed hexponent, ok_bind]
  exact fixedPoint_of_lt ⟨hdenotes.tzeros_nonneg, hzeros⟩ hexponent ⟨by omega, by omega⟩
    ⟨hscale, hsmall⟩ hvalue hlt

end JsonNumber

/-- What the parser reads is a number, and the value is exact. A number whose value is an integer of
at most 18 digits is read, unless it is zero. -/
theorem fixed_point_exact (s : List UInt8) (hs : s.length < 2 ^ 31) (decimals : ℕ)
    (hdecimals : decimals ≤ 18) :
    (∀ v : ℤ, parseFixedPoint s decimals = .ok v →
      ∃ n : JsonNumber, n.render = s ∧ n.value * 10 ^ decimals = v) ∧
    (∀ n : JsonNumber, n.render = s → n.value ≠ 0 → ∀ v : ℤ, n.value * 10 ^ decimals = v →
      |v| < 10 ^ 18 → parseFixedPoint s decimals = .ok v) := by
  constructor
  · intro v hparse
    obtain ⟨n, rfl⟩ := JsonNumber.exists_render hparse
    rw [JsonNumber.parse_render] at hparse
    exact ⟨n, rfl, (JsonNumber.parsed_exact hparse).1⟩
  · rintro n rfl hne v hvalue hlt
    rw [JsonNumber.parse_render]
    have hv : v ≠ 0 := by
      rintro rfl
      rw [Int.cast_zero] at hvalue
      exact (mul_ne_zero hne (by positivity)) hvalue
    exact JsonNumber.parsed_of_lt (lt_of_le_of_lt n.length_le_render hs) hdecimals hvalue hv hlt

/-- The string `-1.50e2` with two decimals. -/
theorem fixed_point_exact_sample :
    "-1.50e2".toUTF8.data.toList.length < 2 ^ 31 ∧
    parseFixedPoint "-1.50e2".toUTF8.data.toList 2 = .ok (-15000) ∧
    ∃ n : JsonNumber, n.render = "-1.50e2".toUTF8.data.toList ∧
      n.value * 10 ^ 2 = ((-15000 : ℤ) : ℚ) := by
  have hlength : "-1.50e2".toUTF8.data.toList.length < 2 ^ 31 := by decide +kernel
  have hparse : parseFixedPoint "-1.50e2".toUTF8.data.toList (2 : ℕ) = .ok (-15000) := by
    decide +kernel
  exact ⟨hlength, hparse, (fixed_point_exact _ hlength 2 (by norm_num)).1 _ hparse⟩

end RadiantCore
