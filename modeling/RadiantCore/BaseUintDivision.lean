import Mathlib.Data.Nat.Size
import RadiantCore.BaseUint
import RadiantCore.ExceptLoop

/-!
# Division of integers of several words

`operator/=` of `base_uint` is long division : the divisor is shifted so that its highest bit is that
of the dividend, and subtracted wherever it fits while it is shifted back. The difference is a sum
with the negative, which is the complement plus one. The loops give the quotient of the numbers the
words stand for (`toNat_div`).
-/

namespace RadiantCore

open List

namespace BaseUint

/-! ## The loops -/

/-- The inner loop of `bits` : the position of the highest bit of a word, plus one. -/
def wordBits (p : UInt32) : ℕ → ℕ
  | 0 => 1
  | nbits + 1 => if p.toNat.testBit (nbits + 1) then nbits + 2 else wordBits p nbits

/-- The loop of `bits`, over the words below a position. -/
def bitsLoop (pn : List UInt32) : ℕ → ℕ
  | 0 => 0
  | pos + 1 =>
    if pn.getD pos 0 ≠ 0 then 32 * pos + wordBits (pn.getD pos 0) 31 else bitsLoop pn pos

/-- The loop of `operator+=`. -/
def addWords : ℕ → List UInt32 → List UInt32 → List UInt32
  | carry, p :: pn, q :: qn =>
    let n := carry + p.toNat + q.toNat
    UInt32.ofNat n :: addWords (n / 2 ^ 32) pn qn
  | _, _, _ => []

/-- The loop of `operator++`. -/
def incrementWords : List UInt32 → List UInt32
  | [] => []
  | p :: pn => if p + 1 = 0 then 0 :: incrementWords pn else (p + 1) :: pn

variable {width : ℕ}

/-- `bits`. -/
def bits (a : BaseUint width) : ℕ := bitsLoop a.pn width

theorem length_incrementWords (pn : List UInt32) : (incrementWords pn).length = pn.length := by
  induction pn with
  | nil => rfl
  | cons p pn ih =>
    rw [incrementWords]
    split_ifs
    · rw [length_cons, ih, length_cons]
    · rfl

variable {pn qn : List UInt32}

theorem length_addWords (carry : ℕ) (h : pn.length = qn.length) :
    (addWords carry pn qn).length = pn.length := by
  induction pn generalizing qn carry with
  | nil => rfl
  | cons p pn ih =>
    obtain ⟨q, qn, rfl⟩ := exists_cons_of_length_eq_add_one h.symm
    rw [addWords, length_cons, ih _ (Nat.succ.inj h), length_cons]

/-- `operator+=`. -/
def add (a b : BaseUint width) : BaseUint width where
  pn := addWords 0 a.pn b.pn
  length_pn := (length_addWords 0 (a.length_pn.trans b.length_pn.symm)).trans a.length_pn

/-- `operator-` of one number : the complement, and `operator++`. -/
def neg (a : BaseUint width) : BaseUint width where
  pn := incrementWords (a.pn.map (~~~ ·))
  length_pn := by rw [length_incrementWords, length_map, a.length_pn]

/-- `operator-=`. -/
def sub (a b : BaseUint width) : BaseUint width := a.add b.neg

/-- `pn[shift / 32] |= (1 << (shift & 31))`. -/
def setBit (a : BaseUint width) (shift : ℕ) : BaseUint width where
  pn := orAt a.pn True (shift / 32) (1 <<< UInt32.ofNat (shift % 32))
  length_pn := (length_orAt _ _ _ _).trans a.length_pn

/-- The loop of `operator/=`, from a shift down to zero : the quotient. -/
def divLoop : ℕ → BaseUint width → BaseUint width → BaseUint width → BaseUint width
  | 0, _, _, quotient => quotient
  | shift + 1, num, div, quotient =>
    if num.compareTo div ≠ .lt then
      divLoop shift (num.sub div) (div.shiftRight 1) (quotient.setBit shift)
    else divLoop shift num (div.shiftRight 1) quotient

/-- `operator/=`, `none` when it throws. -/
def div (num b : BaseUint width) : Option (BaseUint width) :=
  if b.bits = 0 then none
  else if b.bits > num.bits then some (ofNat width 0)
  else
    let shift := num.bits - b.bits
    some (divLoop (shift + 1) num (b.shiftLeft shift) (ofNat width 0))

/-! ## Sums and differences -/

theorem wordsValue_addWords (carry : ℕ) (h : pn.length = qn.length) :
    wordsValue (addWords carry pn qn) =
      (carry + wordsValue pn + wordsValue qn) % 2 ^ (32 * pn.length) := by
  induction pn generalizing qn carry with
  | nil =>
    obtain rfl := eq_nil_of_length_eq_zero h.symm
    simp [addWords, wordsValue, Nat.mod_one]
  | cons p pn ih =>
    obtain ⟨q, qn, rfl⟩ := exists_cons_of_length_eq_add_one h.symm
    have hsum : carry + (2 ^ 32 * wordsValue pn + p.toNat) + (2 ^ 32 * wordsValue qn + q.toNat) =
        carry + p.toNat + q.toNat + 2 ^ 32 * (wordsValue pn + wordsValue qn) := by ring
    rw [addWords, wordsValue, ih _ (Nat.succ.inj h), wordsValue, wordsValue, length_cons,
      Nat.mul_succ, pow_add, UInt32.toNat_ofNat', hsum, mul_comm (2 ^ (32 * pn.length)),
      Nat.mod_mul, Nat.add_mul_mod_self_left, Nat.add_mul_div_left _ _ (by norm_num), add_assoc,
      add_comm (2 ^ 32 * _)]

theorem toNat_add (a b : BaseUint width) :
    (a.add b).toNat = (a.toNat + b.toNat) % 2 ^ (32 * width) := by
  rw [toNat, add, wordsValue_addWords 0 (a.length_pn.trans b.length_pn.symm), zero_add, a.length_pn,
    toNat, toNat]

theorem wordsValue_complement (pn : List UInt32) :
    wordsValue (pn.map (~~~ ·)) + wordsValue pn + 1 = 2 ^ (32 * pn.length) := by
  induction pn with
  | nil => rfl
  | cons p pn ih =>
    have hp := p.toNat_lt
    rw [map_cons, wordsValue, wordsValue, length_cons, Nat.mul_succ, pow_add, ← ih,
      UInt32.toNat_not]
    have hsize : UInt32.size = 2 ^ 32 := rfl
    omega

theorem wordsValue_incrementWords (pn : List UInt32) :
    wordsValue (incrementWords pn) = (wordsValue pn + 1) % 2 ^ (32 * pn.length) := by
  induction pn with
  | nil => simp [incrementWords, wordsValue]
  | cons p pn ih =>
    have hp := p.toNat_lt
    have hv := wordsValue_lt pn
    have hsucc : (p + 1).toNat = (p.toNat + 1) % 2 ^ 32 := UInt32.toNat_add p 1
    rw [incrementWords, length_cons, Nat.mul_succ, pow_add, mul_comm (2 ^ (32 * pn.length)),
      wordsValue]
    split_ifs with hcarry
    · -- the word was the largest one
      have hzero : (p.toNat + 1) % 2 ^ 32 = 0 := by rw [← hsucc, hcarry]; rfl
      have hmax : 2 ^ 32 * wordsValue pn + p.toNat + 1 = 2 ^ 32 * (wordsValue pn + 1) := by omega
      rw [wordsValue, ih, hmax, Nat.mul_mod_mul_left]
      rfl
    · have hne : (p.toNat + 1) % 2 ^ 32 ≠ 0 := fun h =>
        hcarry (UInt32.toNat_inj.mp (hsucc.trans h))
      have hle : 2 ^ 32 * (wordsValue pn + 1) ≤ 2 ^ 32 * 2 ^ (32 * pn.length) :=
        Nat.mul_le_mul_left _ hv
      rw [wordsValue, hsucc, Nat.mod_eq_of_lt (by omega : p.toNat + 1 < 2 ^ 32),
        Nat.mod_eq_of_lt (by omega)]
      ring

variable {a b : BaseUint width}

theorem toNat_sub (h : b.toNat ≤ a.toNat) :
    (a.sub b).toNat = a.toNat - b.toNat := by
  have ha := a.toNat_lt
  have hcomplement := wordsValue_complement b.pn
  have hneg : b.neg.toNat = (wordsValue (b.pn.map (~~~ ·)) + 1) % 2 ^ (32 * width) := by
    rw [toNat, neg, wordsValue_incrementWords, length_map, b.length_pn]
  rw [b.length_pn, ← toNat] at hcomplement
  rw [sub, toNat_add, hneg, Nat.add_mod_mod,
    show a.toNat + (wordsValue (b.pn.map (~~~ ·)) + 1) = a.toNat - b.toNat + 2 ^ (32 * width) by
      omega, Nat.add_mod_right, Nat.mod_eq_of_lt (by omega)]

/-! ## The number of bits -/

variable {n : ℕ}

theorem wordBits_eq {p : UInt32} (hp : p ≠ 0) (hlt : p.toNat < 2 ^ (n + 1)) :
    wordBits p n = p.toNat.size := by
  have hpos : p.toNat ≠ 0 := fun h => hp (UInt32.toNat_inj.mp h)
  induction n with
  | zero =>
    have hone : p.toNat = 1 := by omega
    rw [wordBits, hone, Nat.size_one]
  | succ n ih =>
    rw [wordBits]
    have hdiv : p.toNat / 2 ^ (n + 1) < 2 := by
      rw [Nat.div_lt_iff_lt_mul (by positivity)]
      rwa [pow_succ, mul_comm] at hlt
    have htest : p.toNat.testBit (n + 1) = true ↔ p.toNat / 2 ^ (n + 1) = 1 := by
      rw [Nat.testBit_eq_decide_div_mod_eq, Nat.mod_eq_of_lt hdiv, decide_eq_true_eq]
    split_ifs with hbit
    · have hge : 2 ^ (n + 1) ≤ p.toNat := by
        by_contra hlow
        rw [htest, Nat.div_eq_of_lt (not_le.mp hlow)] at hbit
        cases hbit
      exact le_antisymm (Nat.lt_size.mpr hge) (Nat.size_le.mpr hlt)
    · refine ih ?_
      by_contra hge
      have := Nat.div_pos (not_lt.mp hge) (by positivity)
      rw [htest] at hbit
      omega

theorem size_add_two_pow_mul {a b k : ℕ} (ha : a < 2 ^ k) (hb : b ≠ 0) :
    (a + 2 ^ k * b).size = k + b.size := by
  apply le_antisymm
  · rw [Nat.size_le, pow_add]
    have hlt : 2 ^ k * (b + 1) ≤ 2 ^ k * 2 ^ b.size := Nat.mul_le_mul_left _ (Nat.lt_size_self b)
    rw [Nat.mul_succ] at hlt
    omega
  · obtain ⟨s, hs⟩ := Nat.exists_eq_succ_of_ne_zero (fun h => hb (Nat.size_eq_zero.mp h))
    rw [hs, Nat.add_succ, Nat.succ_le_iff, Nat.lt_size, pow_add]
    have hle : 2 ^ k * 2 ^ s ≤ 2 ^ k * b :=
      Nat.mul_le_mul_left _ (Nat.lt_size.mp (by omega : s < b.size))
    omega

theorem wordsValue_append (xs ys : List UInt32) :
    wordsValue (xs ++ ys) = wordsValue xs + 2 ^ (32 * xs.length) * wordsValue ys := by
  induction xs with
  | nil => simp [wordsValue]
  | cons x xs ih =>
    rw [cons_append, wordsValue, wordsValue, ih, length_cons, Nat.mul_succ, pow_add]
    ring

theorem bitsLoop_eq (hn : n ≤ pn.length) :
    bitsLoop pn n = (wordsValue (pn.take n)).size := by
  induction n with
  | zero => simp [bitsLoop, wordsValue]
  | succ n ih =>
    have hword : pn.take (n + 1) = pn.take n ++ [pn.getD n 0] := by
      rw [take_add_one, getD_eq_getElem?_getD, getElem?_eq_getElem (by omega)]
      rfl
    have hlen : (pn.take n).length = n := length_take_of_le (by omega)
    have hlt := wordsValue_lt (pn.take n)
    have hvalue : wordsValue [pn.getD n 0] = (pn.getD n 0).toNat := by simp [wordsValue]
    rw [hlen] at hlt
    rw [bitsLoop, hword, wordsValue_append, hlen, hvalue]
    split_ifs with hzero
    · rw [size_add_two_pow_mul hlt fun h => hzero (UInt32.toNat_inj.mp h),
        wordBits_eq hzero (UInt32.toNat_lt _)]
    · rw [not_not.mp hzero, ih (by omega)]
      simp

theorem bits_eq (a : BaseUint width) : a.bits = a.toNat.size := by
  rw [bits, bitsLoop_eq a.length_pn.ge, take_of_length_le a.length_pn.le, toNat]

/-! ## Long division -/

variable {c : ℕ}

theorem toNat_setBit {shift : ℕ} (hshift : shift < 32 * width)
    (hc : a.toNat = 2 ^ (shift + 1) * c) : (a.setBit shift).toNat = a.toNat + 2 ^ shift := by
  have hor : (a.setBit shift).toNat = a.toNat ||| 2 ^ shift := by
    refine Nat.eq_of_testBit_eq fun m => ?_
    rw [Bool.eq_iff_iff, Nat.testBit_or, Bool.or_eq_true, toNat, toNat, testBit_wordsValue,
      testBit_wordsValue, setBit, wordBit_orAt, a.length_pn,
      testBit_shiftLeft_word (Nat.mod_lt _ (by norm_num)), Nat.testBit_two_pow]
    have hone : ∀ r, (1 : UInt32).toNat.testBit r = true ↔ r = 0 := by
      intro r
      rw [show (1 : UInt32).toNat = 2 ^ 0 from rfl, Nat.testBit_two_pow]
      simp [eq_comm]
    rw [hone, decide_eq_true_eq]
    refine or_congr_right ⟨?_, ?_⟩
    · rintro ⟨-, hword, -, -, hle, hzero⟩
      omega
    · rintro rfl
      exact ⟨trivial, rfl, by omega, Nat.mod_lt _ (by norm_num), le_rfl, Nat.sub_self _⟩
  rw [hor, hc, ← Nat.two_pow_add_eq_or_of_lt (Nat.pow_lt_pow_right (by norm_num) (by omega))]

/-- The loop adds the quotient of what is left, by a divisor that is shifted as far as the loop has
still to go. -/
theorem toNat_divLoop {d : ℕ} (hd : 0 < d) {s : ℕ} {num div q : BaseUint width}
    (hs : s ≤ 32 * width) (hdiv : ∀ t, s = t + 1 → div.toNat = d * 2 ^ t)
    (hnum : num.toNat < d * 2 ^ s) (hq : q.toNat = 2 ^ s * c) :
    (divLoop s num div q).toNat = q.toNat + num.toNat / d := by
  induction s generalizing num div q c with
  | zero =>
    rw [pow_zero, mul_one] at hnum
    rw [divLoop, Nat.div_eq_of_lt hnum, add_zero]
  | succ s ih =>
    have hvalue := hdiv s rfl
    have hhalf : ∀ t, s = t + 1 → (div.shiftRight 1).toNat = d * 2 ^ t := by
      rintro t rfl
      rw [toNat_shiftRight, hvalue, pow_one, pow_succ, ← mul_assoc, Nat.mul_div_cancel _ (by norm_num)]
    rw [pow_succ, ← mul_assoc] at hnum
    have hcompare : num.compareTo div ≠ .lt ↔ div.toNat ≤ num.toNat := by
      rw [compareTo_eq, ne_eq, Nat.compare_eq_lt, not_lt]
    rw [divLoop]
    split_ifs with hge
    · rw [hcompare] at hge
      have hsub := toNat_sub hge
      have hbit := toNat_setBit (by omega : s < 32 * width) hq
      have hq' : (q.setBit s).toNat = 2 ^ s * (2 * c + 1) := by
        rw [hbit, hq, pow_succ]
        ring
      have hdivide : num.toNat / d = (num.toNat - d * 2 ^ s) / d + 2 ^ s := by
        rw [← Nat.add_mul_div_left _ _ hd, Nat.sub_add_cancel (by omega)]
      rw [ih (by omega) hhalf (by rw [hsub]; omega) hq', hbit, hsub, hdivide, hvalue]
      omega
    · rw [hcompare] at hge
      have hq' : q.toNat = 2 ^ s * (2 * c) := by
        rw [hq, pow_succ]
        ring
      exact ih (by omega) hhalf (by omega) hq'

/-- The quotient, of a divisor that is not zero. -/
theorem toNat_div (hb : b.toNat ≠ 0) :
    ∃ q, a.div b = some q ∧ q.toNat = a.toNat / b.toNat := by
  have hzero : (ofNat width 0).toNat = 0 := by rw [toNat_ofNat, Nat.zero_mod]
  have hsize : b.toNat.size ≠ 0 := fun h => hb (Nat.size_eq_zero.mp h)
  have hlow : 2 ^ (b.toNat.size - 1) ≤ b.toNat := Nat.lt_size.mp (by omega)
  have ha := Nat.lt_size_self a.toNat
  rw [div, bits_eq, bits_eq, if_neg hsize]
  split_ifs with hlarge
  · refine ⟨_, rfl, ?_⟩
    have hpow : 2 ^ a.toNat.size ≤ 2 ^ (b.toNat.size - 1) :=
      Nat.pow_le_pow_right (by norm_num) (by omega)
    rw [hzero, Nat.div_eq_of_lt (by omega)]
  · refine ⟨_, rfl, ?_⟩
    have hwidth : a.toNat.size ≤ 32 * width := Nat.size_le.mpr a.toNat_lt
    have hfits : b.toNat * 2 ^ (a.toNat.size - b.toNat.size) < 2 ^ (32 * width) := by
      calc b.toNat * 2 ^ (a.toNat.size - b.toNat.size)
          < 2 ^ b.toNat.size * 2 ^ (a.toNat.size - b.toNat.size) :=
            Nat.mul_lt_mul_of_pos_right (Nat.lt_size_self _) (by positivity)
        _ = 2 ^ a.toNat.size := by rw [← pow_add, Nat.add_sub_cancel' (by omega)]
        _ ≤ 2 ^ (32 * width) := Nat.pow_le_pow_right (by norm_num) hwidth
    have hnum : a.toNat < b.toNat * 2 ^ (a.toNat.size - b.toNat.size + 1) := by
      calc a.toNat < 2 ^ a.toNat.size := ha
        _ = 2 ^ (b.toNat.size - 1) * 2 ^ (a.toNat.size - b.toNat.size + 1) := by
          rw [← pow_add]
          congr 1
          omega
        _ ≤ b.toNat * 2 ^ (a.toNat.size - b.toNat.size + 1) := Nat.mul_le_mul_right _ hlow
    have hshift : ∀ t, a.toNat.size - b.toNat.size + 1 = t + 1 →
        (b.shiftLeft (a.toNat.size - b.toNat.size)).toNat = b.toNat * 2 ^ t := by
      intro t ht
      rw [toNat_shiftLeft, Nat.mod_eq_of_lt hfits, Nat.succ.inj ht]
    have hresult := toNat_divLoop (Nat.pos_of_ne_zero hb) (by omega) hshift hnum
      (hzero.trans (Nat.mul_zero _).symm)
    rw [hresult, hzero, zero_add]

end BaseUint

end RadiantCore
