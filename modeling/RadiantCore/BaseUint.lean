import Mathlib.Data.Nat.Bitwise
import Mathlib.Tactic.Linarith
import Mathlib.Tactic.NormNum
import Mathlib.Tactic.Ring

/-!
# Unsigned integers of several words

`base_uint` of `arith_uint256.cpp` keeps a large unsigned integer as words of 32 bits, lowest first.
Its shifts, its product with a word and its comparison are loops over the words. Here they are
translated loop by loop, and shown to be the operations on the number the words stand for : a shift
to the left is a product with a power of two, cut off at the width (`toNat_shiftLeft`), a shift to the
right a quotient (`toNat_shiftRight`).
-/

namespace RadiantCore

open List

/-- `base_uint`, of so many words. -/
structure BaseUint (width : ℕ) where
  pn : List UInt32
  length_pn : pn.length = width
deriving DecidableEq

namespace BaseUint

/-- The number that words stand for. -/
def wordsValue : List UInt32 → ℕ
  | [] => 0
  | p :: pn => 2 ^ 32 * wordsValue pn + p.toNat

variable {width : ℕ}

/-- The number. -/
def toNat (a : BaseUint width) : ℕ := wordsValue a.pn

/-- The words of a number, cut off at the width. -/
def wordsOf : ℕ → ℕ → List UInt32
  | 0, _ => []
  | width + 1, n => UInt32.ofNat n :: wordsOf width (n / 2 ^ 32)

theorem length_wordsOf (width n : ℕ) : (wordsOf width n).length = width := by
  induction width generalizing n with
  | zero => rfl
  | succ width ih => rw [wordsOf, length_cons, ih]

/-- The words of a number. -/
def ofNat (width n : ℕ) : BaseUint width := ⟨wordsOf width n, length_wordsOf width n⟩

/-! ## The loops -/

/-- `pn[i] |= v`, under a condition. -/
def orAt (pn : List UInt32) (c : Prop) [Decidable c] (i : ℕ) (v : UInt32) : List UInt32 :=
  if c then pn.modify i (· ||| v) else pn

/-- A step of the loop of `operator<<=`, for the word `i`. -/
def shiftLeftStep (a : List UInt32) (k shift : ℕ) (pn : List UInt32) (i : ℕ) : List UInt32 :=
  let pn := orAt pn (i + k + 1 < a.length ∧ shift ≠ 0) (i + k + 1)
    (a.getD i 0 >>> UInt32.ofNat (32 - shift))
  orAt pn (i + k < a.length) (i + k) (a.getD i 0 <<< UInt32.ofNat shift)

/-- A step of the loop of `operator>>=`, for the word `i`. -/
def shiftRightStep (a : List UInt32) (k shift : ℕ) (pn : List UInt32) (i : ℕ) : List UInt32 :=
  let pn := orAt pn (k + 1 ≤ i ∧ shift ≠ 0) (i - k - 1)
    (a.getD i 0 <<< UInt32.ofNat (32 - shift))
  orAt pn (k ≤ i) (i - k) (a.getD i 0 >>> UInt32.ofNat shift)

theorem length_orAt (pn : List UInt32) (c : Prop) [Decidable c] (i : ℕ) (v : UInt32) :
    (orAt pn c i v).length = pn.length := by
  unfold orAt
  split_ifs <;> simp

theorem length_shiftLeftStep (a : List UInt32) (k shift : ℕ) (pn : List UInt32) (i : ℕ) :
    (shiftLeftStep a k shift pn i).length = pn.length := by
  rw [shiftLeftStep, length_orAt, length_orAt]

theorem length_shiftRightStep (a : List UInt32) (k shift : ℕ) (pn : List UInt32) (i : ℕ) :
    (shiftRightStep a k shift pn i).length = pn.length := by
  rw [shiftRightStep, length_orAt, length_orAt]

theorem length_foldl {f : List UInt32 → ℕ → List UInt32} (hf : ∀ pn i, (f pn i).length = pn.length)
    (l : List ℕ) (pn : List UInt32) : (l.foldl f pn).length = pn.length := by
  induction l generalizing pn with
  | nil => rfl
  | cons i l ih => rw [foldl_cons, ih, hf]

/-- `operator<<=`. -/
def shiftLeft (a : BaseUint width) (shift : ℕ) : BaseUint width where
  pn := (range width).foldl (shiftLeftStep a.pn (shift / 32) (shift % 32))
    (replicate width 0)
  length_pn := by rw [length_foldl (length_shiftLeftStep _ _ _), length_replicate]

/-- `operator>>=`. -/
def shiftRight (a : BaseUint width) (shift : ℕ) : BaseUint width where
  pn := (range width).foldl (shiftRightStep a.pn (shift / 32) (shift % 32))
    (replicate width 0)
  length_pn := by rw [length_foldl (length_shiftRightStep _ _ _), length_replicate]

/-- The loop of `operator*=` with a word. -/
def mulWords (b32 : UInt32) : ℕ → List UInt32 → List UInt32
  | _, [] => []
  | carry, p :: pn =>
    let n := carry + b32.toNat * p.toNat
    UInt32.ofNat n :: mulWords b32 (n / 2 ^ 32) pn

theorem length_mulWords (b32 : UInt32) (carry : ℕ) (pn : List UInt32) :
    (mulWords b32 carry pn).length = pn.length := by
  induction pn generalizing carry with
  | nil => rfl
  | cons p pn ih => rw [mulWords, length_cons, ih, length_cons]

/-- `operator*=`, with a word. -/
def mulWord (a : BaseUint width) (b32 : UInt32) : BaseUint width where
  pn := mulWords b32 0 a.pn
  length_pn := (length_mulWords b32 0 a.pn).trans a.length_pn

/-- The loop of `CompareTo`, which starts at the highest word. -/
def compareWords : List UInt32 → List UInt32 → Ordering
  | p :: pn, q :: qn => (compareWords pn qn).then (compare p.toNat q.toNat)
  | _, _ => .eq

/-- `CompareTo`. -/
def compareTo (a b : BaseUint width) : Ordering := compareWords a.pn b.pn

/-! ## Bits -/

/-- A bit of a word. -/
def WordBit (pn : List UInt32) (j r : ℕ) : Prop := (pn.getD j 0).toNat.testBit r = true

theorem testBit_wordsValue (pn : List UInt32) (m : ℕ) :
    (wordsValue pn).testBit m = true ↔ WordBit pn (m / 32) (m % 32) := by
  induction pn generalizing m with
  | nil => simp [wordsValue, WordBit]
  | cons p pn ih =>
    rw [wordsValue, Nat.testBit_two_pow_mul_add _ p.toNat_lt]
    split_ifs with hlt
    · rw [WordBit, Nat.div_eq_of_lt hlt, Nat.mod_eq_of_lt hlt, getD_cons_zero]
    · obtain ⟨j, rfl⟩ := Nat.exists_eq_add_of_le (not_lt.mp hlt)
      rw [Nat.add_sub_cancel_left, ih, WordBit, WordBit, Nat.add_div_left _ (by norm_num),
        Nat.add_mod_left, getD_cons_succ]

theorem wordsValue_lt (pn : List UInt32) : wordsValue pn < 2 ^ (32 * pn.length) := by
  induction pn with
  | nil => simp [wordsValue]
  | cons p pn ih =>
    have hp := p.toNat_lt
    have hstep : 2 ^ 32 * (wordsValue pn + 1) ≤ 2 ^ 32 * 2 ^ (32 * pn.length) :=
      Nat.mul_le_mul_left _ ih
    rw [wordsValue, length_cons, Nat.mul_succ, pow_add]
    omega

theorem toNat_lt (a : BaseUint width) : a.toNat < 2 ^ (32 * width) := by
  have h := wordsValue_lt a.pn
  rwa [a.length_pn] at h

/-! ## Shifts -/

section Shifts

variable {a pn : List UInt32} {k shift n : ℕ}

variable {i j r : ℕ}

theorem wordBit_orAt {c : Prop} [Decidable c] {v : UInt32} :
    WordBit (orAt pn c i v) j r ↔
      WordBit pn j r ∨ c ∧ i = j ∧ j < pn.length ∧ v.toNat.testBit r = true := by
  unfold WordBit orAt
  split_ifs with hc
  · rw [getD_eq_getElem?_getD, getElem?_modify, getD_eq_getElem?_getD]
    by_cases hj : j < pn.length
    · rw [getElem?_eq_getElem hj]
      by_cases hij : i = j <;> simp [hij, hj, hc]
    · rw [getElem?_eq_none (not_lt.mp hj)]
      simp [hj]
  · simp [hc]

/-- The bits of the words after a loop are those that its steps set. -/
theorem wordBit_foldl {step : List UInt32 → ℕ → List UInt32} {sets : ℕ → ℕ → ℕ → Prop} {width : ℕ}
    (hlen : ∀ pn i, (step pn i).length = pn.length) {l : List ℕ}
    (hstep : ∀ i ∈ l, ∀ pn j r, pn.length = width →
      (WordBit (step pn i) j r ↔ WordBit pn j r ∨ sets i j r))
    (hpn : pn.length = width) (j r : ℕ) :
    WordBit (l.foldl step pn) j r ↔ WordBit pn j r ∨ ∃ i ∈ l, sets i j r := by
  induction l generalizing pn with
  | nil => simp
  | cons i l ih =>
    obtain ⟨hi, hl⟩ := forall_mem_cons.mp hstep
    rw [foldl_cons, ih hl ((hlen pn i).trans hpn), hi pn j r hpn]
    simp [or_assoc]

variable {x : UInt32} {t : ℕ}

theorem testBit_shiftLeft_word (ht : t < 32) (r : ℕ) :
    (x <<< UInt32.ofNat t).toNat.testBit r = true ↔
      r < 32 ∧ t ≤ r ∧ x.toNat.testBit (r - t) = true := by
  rw [UInt32.toNat_shiftLeft, UInt32.toNat_ofNat_of_lt' (ht.trans (by decide)), Nat.mod_eq_of_lt ht,
    Nat.testBit_mod_two_pow, Nat.testBit_shiftLeft]
  simp

theorem testBit_shiftRight_word (ht : t < 32) (r : ℕ) :
    (x >>> UInt32.ofNat t).toNat.testBit r = true ↔ x.toNat.testBit (t + r) = true := by
  rw [UInt32.toNat_shiftRight, UInt32.toNat_ofNat_of_lt' (ht.trans (by decide)), Nat.mod_eq_of_lt ht,
    Nat.testBit_shiftRight]

theorem lt_of_testBit (h : x.toNat.testBit r = true) : r < 32 := by
  by_contra hr
  have hpow : 2 ^ 32 ≤ 2 ^ r := Nat.pow_le_pow_right (by norm_num) (by omega)
  rw [Nat.testBit_lt_two_pow (x.toNat_lt.trans_le hpow)] at h
  cases h

theorem wordBit_shiftLeftStep (hshift : shift < 32) (hlen : pn.length = a.length) (i j r : ℕ) :
    WordBit (shiftLeftStep a k shift pn i) j r ↔ WordBit pn j r ∨ j < a.length ∧
      (i + k = j ∧ r < 32 ∧ shift ≤ r ∧ WordBit a i (r - shift) ∨
        i + k + 1 = j ∧ shift ≠ 0 ∧ WordBit a i (32 - shift + r)) := by
  rw [shiftLeftStep, wordBit_orAt, wordBit_orAt, length_orAt, testBit_shiftLeft_word hshift, hlen]
  by_cases hzero : shift = 0
  · simp only [hzero, WordBit]
    grind
  · rw [testBit_shiftRight_word (by omega)]
    simp only [WordBit]
    grind

theorem wordBit_shiftRightStep (hshift : shift < 32) (hlen : pn.length = a.length)
    (hi : i < a.length) (j r : ℕ) :
    WordBit (shiftRightStep a k shift pn i) j r ↔ WordBit pn j r ∨
      (i = j + k ∧ WordBit a i (shift + r) ∨
        i = j + k + 1 ∧ shift ≠ 0 ∧ r < 32 ∧ 32 - shift ≤ r ∧ WordBit a i (r - (32 - shift))) := by
  rw [shiftRightStep, wordBit_orAt, wordBit_orAt, length_orAt, testBit_shiftRight_word hshift, hlen]
  by_cases hzero : shift = 0
  · simp only [hzero, WordBit]
    grind
  · rw [testBit_shiftLeft_word (by omega)]
    simp only [WordBit]
    grind

theorem not_wordBit_replicate {width : ℕ} : ¬WordBit (replicate width 0) j r := by
  simp [WordBit, getD_eq_getElem?_getD, getElem?_replicate]
  split_ifs <;> simp

theorem WordBit.lt (h : WordBit pn j r) : r < 32 := lt_of_testBit h

theorem WordBit.index_lt (h : WordBit pn j r) : j < pn.length := by
  by_contra hj
  rw [WordBit, getD_eq_default _ _ (not_lt.mp hj)] at h
  simp at h

/-- A shift to the left is a product, cut off at the width. -/
theorem toNat_shiftLeft (a : BaseUint width) (n : ℕ) :
    (a.shiftLeft n).toNat = a.toNat * 2 ^ n % 2 ^ (32 * width) := by
  have hlen := a.length_pn
  refine Nat.eq_of_testBit_eq fun m => ?_
  rw [Bool.eq_iff_iff, Nat.testBit_mod_two_pow, ← Nat.shiftLeft_eq, Nat.testBit_shiftLeft]
  simp only [Bool.and_eq_true, decide_eq_true_eq]
  rw [toNat, toNat, testBit_wordsValue, testBit_wordsValue, shiftLeft,
    wordBit_foldl (length_shiftLeftStep _ _ _)
      (fun i _ pn j r hpn => wordBit_shiftLeftStep (Nat.mod_lt n (by norm_num))
        (hpn.trans hlen.symm) i j r) length_replicate]
  simp only [not_wordBit_replicate, false_or, mem_range, hlen]
  constructor
  · rintro ⟨i, hi, hm, ⟨hj, hr, hle, hbit⟩ | ⟨hj, hzero, hbit⟩⟩
    · refine ⟨by omega, by omega, ?_⟩
      rwa [show (m - n) / 32 = i by omega, show (m - n) % 32 = m % 32 - n % 32 by omega]
    · have hlt := hbit.lt
      refine ⟨by omega, by omega, ?_⟩
      rwa [show (m - n) / 32 = i by omega, show (m - n) % 32 = 32 - n % 32 + m % 32 by omega]
  · rintro ⟨hm, hle, hbit⟩
    refine ⟨(m - n) / 32, by omega, by omega, ?_⟩
    by_cases hr : n % 32 ≤ m % 32
    · refine Or.inl ⟨by omega, by omega, hr, ?_⟩
      rwa [show m % 32 - n % 32 = (m - n) % 32 by omega]
    · refine Or.inr ⟨by omega, by omega, ?_⟩
      rwa [show 32 - n % 32 + m % 32 = (m - n) % 32 by omega]

/-- A shift to the right is a quotient. -/
theorem toNat_shiftRight (a : BaseUint width) (n : ℕ) :
    (a.shiftRight n).toNat = a.toNat / 2 ^ n := by
  have hlen := a.length_pn
  refine Nat.eq_of_testBit_eq fun m => ?_
  rw [Bool.eq_iff_iff, ← Nat.shiftRight_eq_div_pow, Nat.testBit_shiftRight, toNat, toNat,
    testBit_wordsValue, testBit_wordsValue, shiftRight,
    wordBit_foldl (length_shiftRightStep _ _ _)
      (fun i hi pn j r hpn => wordBit_shiftRightStep (Nat.mod_lt n (by norm_num))
        (hpn.trans hlen.symm) ((mem_range.mp hi).trans_eq hlen.symm) j r) length_replicate]
  simp only [not_wordBit_replicate, false_or, mem_range]
  constructor
  · rintro ⟨i, hi, ⟨hj, hbit⟩ | ⟨hj, hzero, hr, hle, hbit⟩⟩
    · have hlt := hbit.lt
      rwa [show (n + m) / 32 = i by omega, show (n + m) % 32 = n % 32 + m % 32 by omega]
    · rwa [show (n + m) / 32 = i by omega, show (n + m) % 32 = m % 32 - (32 - n % 32) by omega]
  · intro hbit
    have hi := hbit.index_lt
    refine ⟨(n + m) / 32, by omega, ?_⟩
    by_cases hr : n % 32 + m % 32 < 32
    · refine Or.inl ⟨by omega, ?_⟩
      rwa [show n % 32 + m % 32 = (n + m) % 32 by omega]
    · refine Or.inr ⟨by omega, by omega, by omega, by omega, ?_⟩
      rwa [show m % 32 - (32 - n % 32) = (n + m) % 32 by omega]

end Shifts

/-! ## Products and comparison -/

theorem wordsValue_mulWords (b32 : UInt32) (carry : ℕ) (pn : List UInt32) :
    wordsValue (mulWords b32 carry pn) =
      (carry + b32.toNat * wordsValue pn) % 2 ^ (32 * pn.length) := by
  induction pn generalizing carry with
  | nil => simp [mulWords, wordsValue, Nat.mod_one]
  | cons p pn ih =>
    have hsum : carry + b32.toNat * (2 ^ 32 * wordsValue pn + p.toNat) =
        carry + b32.toNat * p.toNat + 2 ^ 32 * (b32.toNat * wordsValue pn) := by ring
    rw [mulWords, wordsValue, ih, wordsValue, length_cons, Nat.mul_succ, pow_add,
      UInt32.toNat_ofNat', hsum, mul_comm (2 ^ (32 * pn.length)), Nat.mod_mul,
      Nat.add_mul_mod_self_left, Nat.add_mul_div_left _ _ (by norm_num), add_comm]

/-- The product with a word, cut off at the width. -/
theorem toNat_mulWord (a : BaseUint width) (b32 : UInt32) :
    (a.mulWord b32).toNat = b32.toNat * a.toNat % 2 ^ (32 * width) := by
  rw [toNat, mulWord, wordsValue_mulWords, zero_add, a.length_pn, toNat]

variable {pn qn : List UInt32}

theorem compareWords_eq (hlen : pn.length = qn.length) :
    compareWords pn qn = compare (wordsValue pn) (wordsValue qn) := by
  induction pn generalizing qn with
  | nil =>
    obtain rfl := eq_nil_of_length_eq_zero hlen.symm
    rfl
  | cons p pn ih =>
    obtain ⟨q, qn, rfl⟩ := exists_cons_of_length_eq_add_one hlen.symm
    have hp := p.toNat_lt
    have hq := q.toNat_lt
    rw [compareWords, ih (Nat.succ.inj hlen), wordsValue, wordsValue]
    rcases lt_trichotomy (wordsValue pn) (wordsValue qn) with hlt | heq | hgt
    · have hsum : 2 ^ 32 * wordsValue pn + p.toNat < 2 ^ 32 * wordsValue qn + q.toNat := by omega
      rw [Nat.compare_eq_lt.mpr hlt, Nat.compare_eq_lt.mpr hsum]
      rfl
    · rw [heq, Nat.compare_eq_eq.mpr rfl, Ordering.eq_then]
      simp only [Nat.compare_eq_ite_lt]
      split_ifs <;> first | rfl | omega
    · have hsum : 2 ^ 32 * wordsValue qn + q.toNat < 2 ^ 32 * wordsValue pn + p.toNat := by omega
      rw [Nat.compare_eq_gt.mpr hgt, Nat.compare_eq_gt.mpr hsum]
      rfl

theorem compareTo_eq (a b : BaseUint width) : a.compareTo b = compare a.toNat b.toNat :=
  compareWords_eq (a.length_pn.trans b.length_pn.symm)

theorem wordsValue_wordsOf (width n : ℕ) : wordsValue (wordsOf width n) = n % 2 ^ (32 * width) := by
  induction width generalizing n with
  | zero => simp [wordsOf, wordsValue, Nat.mod_one]
  | succ width ih =>
    rw [wordsOf, wordsValue, ih, Nat.mul_succ, pow_add, UInt32.toNat_ofNat',
      mul_comm (2 ^ (32 * width)), Nat.mod_mul, add_comm]

theorem wordsValue_inj (hlen : pn.length = qn.length)
    (h : wordsValue pn = wordsValue qn) : pn = qn := by
  induction pn generalizing qn with
  | nil => exact (eq_nil_of_length_eq_zero hlen.symm).symm
  | cons p pn ih =>
    obtain ⟨q, qn, rfl⟩ := exists_cons_of_length_eq_add_one hlen.symm
    have hp := p.toNat_lt
    have hq := q.toNat_lt
    rw [wordsValue, wordsValue] at h
    rw [ih (Nat.succ.inj hlen) (by omega), UInt32.toNat_inj.mp (by omega : p.toNat = q.toNat)]

theorem toNat_injective : Function.Injective (toNat : BaseUint width → ℕ) := by
  rintro ⟨pn, hpn⟩ ⟨qn, hqn⟩ h
  obtain rfl := wordsValue_inj (hpn.trans hqn.symm) h
  rfl

theorem toNat_ofNat (width n : ℕ) : (ofNat width n).toNat = n % 2 ^ (32 * width) :=
  wordsValue_wordsOf width n

end BaseUint

end RadiantCore
