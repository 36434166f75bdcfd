import Mathlib.Data.List.TakeWhile
import RadiantCore.Decimal
import RadiantCore.FeeRate

/-!
# Amounts as strings

`FormatMoney` of `util/moneystr.cpp` writes an amount in coins, with zeros at its end left out down to
two digits after the point. `ParseMoney` reads such a string. To keep its arithmetic in 64 bits it
takes at most ten digits before the point, so amounts of ten billion coins and more, which have
eleven, are written but not read (`money_string_iff`).
-/

namespace RadiantCore

open List

/-- `COIN`, in satoshis. -/
def coinValue : ℤ := 100000000

/-- `IsSpace`. -/
def isSpace (c : UInt8) : Bool :=
  c = ' '.toUInt8 ∨ c = 0x0c ∨ c = '\n'.toUInt8 ∨ c = '\r'.toUInt8 ∨ c = '\t'.toUInt8 ∨ c = 0x0b

/-! ## Writing -/

/-- The string `%d.%08d` of the coins and satoshis of an amount. -/
def coinString (amt : ℤ) : List UInt8 :=
  decimal (amt / coinValue).toNat ++ '.'.toUInt8 :: paddedDecimal 8 (amt % coinValue).toNat

/-- The loop of `FormatMoney` that trims zeros, on the reversed string. -/
def trimZeros : List UInt8 → List UInt8
  | c :: b :: a :: str =>
    if c = '0'.toUInt8 ∧ isDigit a then trimZeros (b :: a :: str) else c :: b :: a :: str
  | str => str

/-- The absolute value of an amount. -/
def absAmount (amt : ℤ) : Except Failure ℤ :=
  if amt > 0 then .ok amt else signed 63 .overflow (-amt)

/-- `FormatMoney`. -/
def formatMoney (amt : ℤ) : Except Failure (List UInt8) := do
  let amtAbs ← absAmount amt
  let str := (trimZeros (coinString amtAbs).reverse).reverse
  return if amt < 0 then '-'.toUInt8 :: str else str

/-! ## Reading -/

/-- The loop of `ParseMoney` after the point : the satoshis, and what is left. -/
def parseUnits : List UInt8 → ℤ → ℤ → ℤ × List UInt8
  | [], _, nUnits => (nUnits, [])
  | c :: p, nMult, nUnits =>
    if isDigit c ∧ nMult > 0 then parseUnits p (nMult / 10) (nUnits + digitValue c * nMult)
    else (nUnits, c :: p)

/-- The loop of `ParseMoney` : the digits before the point, the satoshis, and what is left. -/
def parseWhole : List UInt8 → List UInt8 → Option (List UInt8 × ℤ × List UInt8)
  | [], strWhole => some (strWhole, 0, [])
  | c :: p, strWhole =>
    if c = '.'.toUInt8 then some (strWhole, parseUnits p (coinValue / 10) 0)
    else if isSpace c then some (strWhole, 0, c :: p)
    else if ¬isDigit c then none
    else parseWhole p (strWhole ++ [c])

/-- `ParseMoney`. A string ends at its first zero byte. The digits before the point are few enough
for `atoi64`. -/
def parseMoney (str : List UInt8) : Except Failure (Option ℤ) :=
  match parseWhole ((str.takeWhile (· ≠ 0)).dropWhile isSpace) [] with
  | none => .ok none
  | some (strWhole, nUnits, p) =>
    if ¬p.all isSpace then .ok none
    else if strWhole.length > 10 then .ok none
    else if nUnits < 0 ∨ nUnits > coinValue then .ok none
    else do
      let nWhole ← mulAmount (decimalValue strWhole) coinValue
      let amt ← addAmount nWhole nUnits
      return some amt

/-- The string of an amount is read as the amount. -/
def MoneyRoundTrips (a : ℤ) : Prop := ∃ str, formatMoney a = .ok str ∧ parseMoney str = .ok (some a)

/-! ## Trimming -/

section Trim

variable {f w : List UInt8} {c : UInt8}

theorem isDigit_ne_point (h : isDigit c = true) : c ≠ '.'.toUInt8 := by
  rintro rfl
  cases h

theorem isSpace_of_isDigit (h : isDigit c = true) : isSpace c = false := by
  rw [isDigit_iff] at h
  refine decide_eq_false ?_
  rintro (rfl | rfl | rfl | rfl | rfl | rfl) <;> exact absurd h (by decide)

/-- Only zeros after the point are trimmed, and two digits stay. -/
theorem trimZeros_fraction (hf : ∀ c ∈ f, isDigit c = true) (hlen : 2 ≤ f.length) :
    ∃ f' j, f = f' ++ replicate j '0'.toUInt8 ∧
      trimZeros (f.reverse ++ '.'.toUInt8 :: w) = f'.reverse ++ '.'.toUInt8 :: w := by
  induction f using reverseRecOn with
  | nil => simp at hlen
  | append_singleton f c ih =>
    have hkeep : ∃ f' j, f ++ [c] = f' ++ replicate j '0'.toUInt8 ∧
        (f ++ [c]).reverse ++ '.'.toUInt8 :: w = f'.reverse ++ '.'.toUInt8 :: w :=
      ⟨f ++ [c], 0, by simp, rfl⟩
    rw [reverse_append, reverse_singleton, singleton_append, cons_append] at hkeep ⊢
    rcases hrev : f.reverse with _ | ⟨b, _ | ⟨a, rest⟩⟩
    · rw [reverse_eq_nil_iff.mp hrev] at hlen
      simp at hlen
    · rw [hrev] at hkeep
      rw [singleton_append, trimZeros, if_neg (fun h => absurd h.2 (by decide))]
      exact hkeep
    · have ha : a ∈ f := mem_reverse.mp (by rw [hrev]; simp)
      have hdigit := hf a (mem_append_left _ ha)
      rw [cons_append, cons_append, trimZeros]
      split_ifs with hc
      · have hlen' : 2 ≤ f.length := by
          rw [← length_reverse, hrev, length_cons, length_cons]
          omega
        obtain ⟨f', j, hsplit, htrim⟩ := ih (fun c hc => hf c (mem_append_left _ hc)) hlen'
        refine ⟨f', j + 1, ?_, ?_⟩
        · rw [replicate_succ', ← append_assoc, ← hsplit, hc.1]
        · rwa [hrev] at htrim
      · rwa [hrev] at hkeep

end Trim

/-! ## Parsing -/

section Parse

variable {f w : List UInt8}

theorem parseUnits_fraction (hf : ∀ c ∈ f, isDigit c = true) {k : ℕ} (hlen : f.length ≤ k + 1)
    (u : ℤ) : parseUnits f (10 ^ k) u = (u + decimalValue f * 10 ^ (k + 1 - f.length), []) := by
  induction f generalizing k u with
  | nil => simp [parseUnits]
  | cons c f ih =>
    obtain ⟨hc, hf⟩ := forall_mem_cons.mp hf
    rw [parseUnits, if_pos ⟨hc, by positivity⟩]
    rw [length_cons] at hlen ⊢
    cases k with
    | zero =>
      obtain rfl : f = [] := length_eq_zero_iff.mp (by omega)
      simp [parseUnits, decimalValue]
    | succ k =>
      have hmult : (10 : ℤ) ^ (k + 1) / 10 = 10 ^ k := by
        rw [pow_succ]
        exact Int.mul_ediv_cancel _ (by norm_num)
      have hsum : 10 ^ (k + 1) = (10 : ℤ) ^ f.length * 10 ^ (k + 1 - f.length) := by
        rw [← pow_add]
        congr 1
        omega
      rw [hmult, ih hf (by omega), decimalValue_cons, show k + 1 + 1 - (f.length + 1) =
        k + 1 - f.length by omega]
      refine Prod.ext ?_ rfl
      push_cast
      rw [hsum]
      ring

theorem parseWhole_digits (hw : ∀ c ∈ w, isDigit c = true) (p strWhole : List UInt8) :
    parseWhole (w ++ '.'.toUInt8 :: p) strWhole =
      some (strWhole ++ w, parseUnits p (coinValue / 10) 0) := by
  induction w generalizing strWhole with
  | nil => simp [parseWhole]
  | cons c w ih =>
    obtain ⟨hc, hw⟩ := forall_mem_cons.mp hw
    rw [cons_append, parseWhole, if_neg (isDigit_ne_point hc), isSpace_of_isDigit hc,
      if_neg Bool.false_ne_true, if_neg (not_not.mpr hc), ih hw, append_assoc,
      singleton_append]

theorem ne_zero_of_isDigit {c : UInt8} (h : isDigit c = true) : c ≠ 0 := by
  rintro rfl
  cases h

/-- A string of digits with a point is read as coins and satoshis. -/
theorem parseMoney_digits (hw : ∀ c ∈ w, isDigit c = true) (hne : w ≠ [])
    (hf : ∀ c ∈ f, isDigit c = true) (hlen : f.length ≤ 8) :
    parseMoney (w ++ '.'.toUInt8 :: f) =
      if w.length > 10 then .ok none
      else .ok (some (decimalValue w * coinValue + decimalValue f * 10 ^ (8 - f.length))) := by
  have hstr : (w ++ '.'.toUInt8 :: f).takeWhile (· ≠ 0) = w ++ '.'.toUInt8 :: f := by
    refine takeWhile_eq_self_iff.mpr fun c hc => decide_eq_true ?_
    rcases mem_append.mp hc with hc | hc
    · exact ne_zero_of_isDigit (hw c hc)
    rcases mem_cons.mp hc with rfl | hc
    · decide
    · exact ne_zero_of_isDigit (hf c hc)
  have hspace : (w ++ '.'.toUInt8 :: f).dropWhile isSpace = w ++ '.'.toUInt8 :: f := by
    obtain ⟨c, w', rfl⟩ := exists_cons_of_ne_nil hne
    rw [cons_append, dropWhile_cons_of_neg]
    rw [isSpace_of_isDigit (hw c mem_cons_self)]
    exact Bool.false_ne_true
  have hunits : parseUnits f (coinValue / 10) 0 =
      ((decimalValue f : ℤ) * 10 ^ (8 - f.length), []) := by
    have h := parseUnits_fraction hf (show f.length ≤ 7 + 1 by omega) 0
    rwa [zero_add] at h
  have hfrac : (decimalValue f : ℤ) * 10 ^ (8 - f.length) < coinValue := by
    have hlt := decimalValue_lt hf
    have hmul : decimalValue f * 10 ^ (8 - f.length) < 10 ^ f.length * 10 ^ (8 - f.length) :=
      Nat.mul_lt_mul_of_pos_right hlt (by positivity)
    rw [← pow_add, show f.length + (8 - f.length) = 8 by omega] at hmul
    have hcast : (decimalValue f : ℤ) * 10 ^ (8 - f.length) < 10 ^ 8 := by exact_mod_cast hmul
    exact hcast
  have hnonneg : (0 : ℤ) ≤ (decimalValue f : ℤ) * 10 ^ (8 - f.length) := by positivity
  rw [parseMoney, hstr, hspace, parseWhole_digits hw, hunits]
  simp only [nil_append, all_nil, not_true_eq_false, if_false]
  split_ifs with hlong hunit
  · rfl
  · omega
  · have hten : decimalValue w < 10 ^ 10 :=
      (decimalValue_lt hw).trans_le (Nat.pow_le_pow_right (by norm_num) (by omega))
    have hcoins : 0 ≤ (decimalValue w : ℤ) * coinValue ∧
        (decimalValue w : ℤ) * coinValue ≤ (10 ^ 10 - 1) * 10 ^ 8 := by
      rw [show coinValue = 10 ^ 8 from rfl]
      omega
    have hcoin : coinValue = 10 ^ 8 := rfl
    have hwhole : mulAmount (decimalValue w) coinValue = .ok (decimalValue w * coinValue) :=
      signed_of_range ⟨by omega, by omega⟩
    have hsum : addAmount (decimalValue w * coinValue) (decimalValue f * 10 ^ (8 - f.length)) =
        .ok (decimalValue w * coinValue + decimalValue f * 10 ^ (8 - f.length)) :=
      if_pos ⟨by omega, by omega⟩
    rw [hwhole, ok_bind, hsum, ok_bind]
    rfl

end Parse

/-- The amounts of the money range whose strings are read back. -/
theorem money_string_iff {a : ℤ} (ha : moneyRange a = true) : MoneyRoundTrips a ↔ a < 10 ^ 18 := by
  rw [moneyRange_iff, maxMoney] at ha
  have hcoin : coinValue = 100000000 := rfl
  have habs : absAmount a = .ok a := by
    unfold absAmount
    split_ifs with hpos
    · rfl
    · obtain rfl : a = 0 := by omega
      rfl
  have hlen : (paddedDecimal 8 (a % coinValue).toNat).length = 8 :=
    length_paddedDecimal (by norm_num) (by rw [hcoin]; omega)
  obtain ⟨f, j, hfrac, htrim⟩ := @trimZeros_fraction (paddedDecimal 8 (a % coinValue).toNat)
    (decimal (a / coinValue).toNat).reverse (fun c hc => isDigit_of_mem_paddedDecimal hc)
    (by omega)
  have hformat : formatMoney a =
      .ok (decimal (a / coinValue).toNat ++ '.'.toUInt8 :: f) := by
    rw [formatMoney, habs, ok_bind, coinString, reverse_append, reverse_cons,
      append_assoc, singleton_append, htrim]
    simp [not_lt.mpr ha.1, pure, Except.pure]
  have hvalue : ((a / coinValue).toNat * coinValue + decimalValue f * 10 ^ (8 - f.length) : ℤ) = a := by
    have hsplit := congrArg decimalValue hfrac
    have hlength := congrArg length hfrac
    rw [hlen, length_append, length_replicate] at hlength
    rw [decimalValue_paddedDecimal, decimalValue_append, decimalValue_replicate_zero,
      length_replicate, add_zero] at hsplit
    rw [show 8 - f.length = j by omega]
    have hcast : ((a % coinValue).toNat : ℤ) = decimalValue f * 10 ^ j := by exact_mod_cast hsplit
    rw [← hcast, hcoin]
    omega
  have hparse := @parseMoney_digits f (decimal (a / coinValue).toNat)
    (fun c hc => isDigit_of_mem_decimal hc) (decimal_ne_nil _)
    (fun c hc => isDigit_of_mem_paddedDecimal (hfrac ▸ mem_append_left _ hc))
    (by have := congrArg length hfrac; rw [hlen, length_append] at this; omega)
  rw [decimalValue_decimal, hvalue] at hparse
  have hdigits : ¬(decimal (a / coinValue).toNat).length > 10 ↔ a < 10 ^ 18 := by
    rw [not_lt, length_decimal_le_iff (by norm_num), hcoin]
    omega
  rw [← hdigits]
  constructor
  · rintro ⟨str, hstr, hread⟩ hlong
    obtain rfl := Except.ok.inj (hformat.symm.trans hstr)
    rw [hparse, if_pos hlong] at hread
    cases hread
  · intro hshort
    refine ⟨_, hformat, ?_⟩
    rw [hparse, if_neg hshort]

/-- A coin and a half. -/
theorem money_string_coin : moneyRange 150000000 = true ∧ MoneyRoundTrips 150000000 :=
  ⟨by decide, (money_string_iff (by decide)).mpr (by decide)⟩

/-- The string of the largest amount is not read. -/
theorem money_string_max : moneyRange maxMoney = true ∧
    formatMoney maxMoney = .ok ("21000000000.00".toList.map Char.toUInt8) ∧
    parseMoney ("21000000000.00".toList.map Char.toUInt8) = .ok none ∧
    ¬MoneyRoundTrips maxMoney := by
  have hformat : formatMoney maxMoney = .ok ("21000000000.00".toList.map Char.toUInt8) := by
    decide +kernel
  have hparse : parseMoney ("21000000000.00".toList.map Char.toUInt8) = .ok none := by
    decide +kernel
  refine ⟨by decide, hformat, hparse, ?_⟩
  rintro ⟨str, hstr, hread⟩
  obtain rfl := Except.ok.inj (hformat.symm.trans hstr)
  cases hparse.symm.trans hread

end RadiantCore
