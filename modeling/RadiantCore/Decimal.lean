import Mathlib.Data.Nat.Digits.Lemmas
import Mathlib.Data.UInt
import Mathlib.Tactic

/-!
# Decimal numbers

The decimal digits of a number as ASCII characters, and the number that a string of digits denotes.
What is written is read back (`decimalValue_decimal`), a number has at most `k` digits exactly when
it is below `10 ^ k` (`length_decimal_le_iff`), and it does not start with a zero, unless it is zero.
-/

namespace RadiantCore

open List

/-- The character is a decimal digit. -/
def isDigit (c : UInt8) : Bool := '0'.toUInt8 ≤ c ∧ c ≤ '9'.toUInt8

/-- The value of a digit. -/
def digitValue (c : UInt8) : ℕ := c.toNat - '0'.toUInt8.toNat

/-- The digit with a value. -/
def digitChar (d : ℕ) : UInt8 := UInt8.ofNat ('0'.toUInt8.toNat + d)

/-- The number a string of digits denotes. -/
def decimalValue (s : List UInt8) : ℕ := s.foldl (fun v c => 10 * v + digitValue c) 0

/-- The decimal digits of a number. -/
def decimal (n : ℕ) : List UInt8 :=
  if n = 0 then ['0'.toUInt8] else (Nat.digits 10 n).reverse.map digitChar

/-- The decimal digits of a number, with zeros in front up to a width. -/
def paddedDecimal (width n : ℕ) : List UInt8 :=
  replicate (width - (decimal n).length) '0'.toUInt8 ++ decimal n

/-! ## Digits -/

section Digits

variable {c : UInt8} {s t : List UInt8} {d k n : ℕ}

theorem isDigit_iff : isDigit c = true ↔ 48 ≤ c.toNat ∧ c.toNat ≤ 57 := by
  simp only [isDigit, decide_eq_true_eq, UInt8.le_iff_toNat_le]
  rfl

theorem digitValue_eq : digitValue c = c.toNat - 48 := rfl

theorem digitValue_lt (h : isDigit c = true) : digitValue c < 10 := by
  rw [isDigit_iff] at h
  rw [digitValue_eq]
  omega

theorem toNat_digitChar (h : d < 10) : (digitChar d).toNat = 48 + d := by
  have hzero : '0'.toUInt8.toNat = 48 := rfl
  rw [digitChar, hzero, UInt8.toNat_ofNat', Nat.mod_eq_of_lt (by omega)]

theorem isDigit_digitChar (h : d < 10) : isDigit (digitChar d) = true := by
  rw [isDigit_iff, toNat_digitChar h]
  omega

theorem digitValue_digitChar (h : d < 10) : digitValue (digitChar d) = d := by
  rw [digitValue_eq, toNat_digitChar h]
  omega

/-- The digit zero is the one with the value zero. -/
theorem digitValue_eq_zero_iff (h : isDigit c = true) : digitValue c = 0 ↔ c = '0'.toUInt8 := by
  rw [isDigit_iff] at h
  rw [digitValue_eq, ← UInt8.toNat_inj]
  have hzero : '0'.toUInt8.toNat = 48 := rfl
  omega

/-! ## Strings of digits -/

@[simp] theorem decimalValue_nil : decimalValue [] = 0 := rfl

theorem decimalValue_concat (s : List UInt8) (c : UInt8) :
    decimalValue (s ++ [c]) = 10 * decimalValue s + digitValue c := by
  rw [decimalValue, foldl_append]
  rfl

theorem decimalValue_append (s t : List UInt8) :
    decimalValue (s ++ t) = decimalValue s * 10 ^ t.length + decimalValue t := by
  induction t using reverseRecOn with
  | nil => simp
  | append_singleton t c ih =>
    rw [← append_assoc, decimalValue_concat, decimalValue_concat, ih, length_append,
      length_singleton, pow_succ]
    ring

theorem decimalValue_cons (c : UInt8) (s : List UInt8) :
    decimalValue (c :: s) = digitValue c * 10 ^ s.length + decimalValue s := by
  rw [← singleton_append, decimalValue_append]
  simp [decimalValue]

theorem decimalValue_lt (h : ∀ c ∈ s, isDigit c = true) : decimalValue s < 10 ^ s.length := by
  induction s using reverseRecOn with
  | nil => simp
  | append_singleton s c ih =>
    have hs := ih fun c hc => h c (mem_append_left _ hc)
    have hc := digitValue_lt (h c (by simp))
    rw [decimalValue_concat, length_append, length_singleton, pow_succ]
    omega

@[simp] theorem decimalValue_replicate_zero (k : ℕ) :
    decimalValue (replicate k '0'.toUInt8) = 0 := by
  induction k with
  | zero => rfl
  | succ k ih =>
    rw [replicate_succ, decimalValue_cons, ih, show digitValue '0'.toUInt8 = 0 from rfl,
      zero_mul]

/-! ## The digits of a number -/

theorem decimalValue_map_digitChar {l : List ℕ} (h : ∀ d ∈ l, d < 10) :
    decimalValue (l.reverse.map digitChar) = Nat.ofDigits 10 l := by
  induction l with
  | nil => rfl
  | cons d l ih =>
    obtain ⟨hd, hl⟩ := forall_mem_cons.mp h
    rw [reverse_cons, map_append, map_singleton, decimalValue_concat, ih hl,
      digitValue_digitChar hd, Nat.ofDigits_cons]
    ring

theorem decimalValue_decimal (n : ℕ) : decimalValue (decimal n) = n := by
  rw [decimal]
  split_ifs with hn
  · rw [hn]
    rfl
  · rw [decimalValue_map_digitChar fun d hd => Nat.digits_lt_base (by norm_num) hd,
      Nat.ofDigits_digits]

theorem isDigit_of_mem_decimal (h : c ∈ decimal n) : isDigit c = true := by
  rw [decimal] at h
  split_ifs at h with hn
  · rw [mem_singleton.mp h]
    rfl
  · obtain ⟨d, hd, rfl⟩ := mem_map.mp h
    exact isDigit_digitChar (Nat.digits_lt_base (by norm_num) (mem_reverse.mp hd))

theorem length_decimal_le_iff (hk : 1 ≤ k) : (decimal n).length ≤ k ↔ n < 10 ^ k := by
  rw [decimal]
  split_ifs with hn
  · subst hn
    exact iff_of_true hk (by positivity)
  · rw [length_map, length_reverse, Nat.digits_length_le_iff (by norm_num)]

theorem decimal_ne_nil (n : ℕ) : decimal n ≠ [] := by
  rw [decimal]
  split_ifs with hn
  · exact cons_ne_nil _ _
  · simpa [Nat.digits_eq_nil_iff_eq_zero] using hn

/-- A number that is not zero starts with another digit. -/
theorem exists_decimal_eq_cons (hn : n ≠ 0) : ∃ c s, decimal n = c :: s ∧ isDigit c = true ∧
    c ≠ '0'.toUInt8 := by
  obtain ⟨c, s, hcons⟩ := exists_cons_of_ne_nil (decimal_ne_nil n)
  have hdigit : isDigit c = true := isDigit_of_mem_decimal (by rw [hcons]; exact mem_cons_self)
  refine ⟨c, s, hcons, hdigit, fun hzero => ?_⟩
  have hhead := congrArg head? hcons
  rw [decimal, if_neg hn, head?_map, head?_reverse,
    getLast?_eq_some_getLast (Nat.digits_ne_nil_iff_ne_zero.mpr hn), Option.map_some,
    head?_cons, Option.some_inj] at hhead
  have hlast := Nat.getLast_digit_ne_zero 10 hn
  have hlt := Nat.digits_lt_base (by norm_num : 1 < 10)
    (getLast_mem (Nat.digits_ne_nil_iff_ne_zero.mpr hn))
  rw [← digitValue_eq_zero_iff hdigit, ← hhead, digitValue_digitChar hlt] at hzero
  exact hlast hzero

/-! ## Padding -/

theorem decimalValue_paddedDecimal (width n : ℕ) : decimalValue (paddedDecimal width n) = n := by
  rw [paddedDecimal, decimalValue_append, decimalValue_replicate_zero, zero_mul, zero_add,
    decimalValue_decimal]

theorem isDigit_of_mem_paddedDecimal {width : ℕ} (h : c ∈ paddedDecimal width n) :
    isDigit c = true := by
  rcases mem_append.mp h with h | h
  · rw [eq_of_mem_replicate h]
    rfl
  · exact isDigit_of_mem_decimal h

theorem length_paddedDecimal {width : ℕ} (hwidth : 1 ≤ width) (h : n < 10 ^ width) :
    (paddedDecimal width n).length = width := by
  have hle := (length_decimal_le_iff hwidth).mpr h
  rw [paddedDecimal, length_append, length_replicate]
  omega

end Digits

end RadiantCore
