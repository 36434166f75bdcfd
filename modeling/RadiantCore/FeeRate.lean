import RadiantCore.BlockCheck
import RadiantCore.MachineInt

/-!
# Fee rates

`CFeeRate` of `feerate.cpp` holds satoshis per 1000 bytes. Its constructor multiplies the fee by 1000
before it divides by the size. The product is a signed 64-bit integer, and the fees of the money
range are too large for it : the rate is exact for fees up to a 1000th of that range only
(`fee_rate_exact_iff`).
-/

namespace RadiantCore

/-- A product of amounts, which are signed 64-bit integers. -/
def mulAmount (a b : ℤ) : Except Failure ℤ := signed 63 .overflow (a * b)

/-- `CFeeRate::CFeeRate`, of a fee and a size : the satoshis per kilobyte. -/
def CFeeRate (nFeePaid : ℤ) (nBytes : ℕ) : Except Failure ℤ := do
  require (nBytes < 2 ^ 63) (.abort "nBytes_ <= uint64_t(std::numeric_limits<int64_t>::max())")
  if nBytes > 0 then
    let product ← mulAmount 1000 nFeePaid
    return product.tdiv nBytes
  else return 0

/-- The rate is the exact quotient, and no fee below gives a larger rate. -/
structure ExactFeeRate (fee : ℤ) (size : ℕ) : Prop where
  exact : CFeeRate fee size = .ok (1000 * fee / size)
  monotone : ∀ fee', 0 ≤ fee' → fee' ≤ fee → ∃ rate' rate, CFeeRate fee' size = .ok rate' ∧
    CFeeRate fee size = .ok rate ∧ rate' ≤ rate

section Rate

variable {fee : ℤ} {size : ℕ}

theorem feeRate_of_le (hfee : 0 ≤ fee) (hle : fee ≤ 9223372036854775) (hsize : 1 ≤ size)
    (hbytes : size < 2 ^ 63) : CFeeRate fee size = .ok (1000 * fee / size) := by
  have hproduct : mulAmount 1000 fee = .ok (1000 * fee) :=
    signed_of_range ⟨by omega, by omega⟩
  rw [CFeeRate, require_pos hbytes, ok_bind, if_pos (show size > 0 from hsize), hproduct, ok_bind,
    Int.tdiv_eq_ediv_of_nonneg (by omega)]
  rfl

theorem feeRate_of_lt (hlt : 9223372036854775 < fee) (hsize : 1 ≤ size) (hbytes : size < 2 ^ 63) :
    CFeeRate fee size = .error .overflow := by
  have hproduct : mulAmount 1000 fee = .error .overflow :=
    signed_eq_error fun h => by omega
  rw [CFeeRate, require_pos hbytes, ok_bind, if_pos (show size > 0 from hsize), hproduct, error_bind]

end Rate

/-- The rates of the fees of the money range are exact as long as the product fits. -/
theorem fee_rate_exact_iff {fee : ℤ} {size : ℕ} (hfee : moneyRange fee = true) (hsize : 1 ≤ size)
    (hmax : size ≤ maxTxSize) : ExactFeeRate fee size ↔ fee ≤ 9223372036854775 := by
  have hnonneg := (moneyRange_iff.mp hfee).1
  have hbytes : size < 2 ^ 63 := hmax.trans_lt (by decide)
  constructor
  · intro h
    by_contra hlt
    cases (feeRate_of_lt (not_le.mp hlt) hsize hbytes).symm.trans h.exact
  · intro hle
    refine ⟨feeRate_of_le hnonneg hle hsize hbytes, fun fee' hfee' hbelow => ?_⟩
    refine ⟨_, _, feeRate_of_le hfee' (hbelow.trans hle) hsize hbytes,
      feeRate_of_le hnonneg hle hsize hbytes, ?_⟩
    exact Int.ediv_le_ediv (by omega) (by omega)

/-- A fee of a coin for 250 bytes. -/
theorem fee_rate_exact_coin : moneyRange 100000000 = true ∧ ExactFeeRate 100000000 250 :=
  ⟨by decide, (fee_rate_exact_iff (by decide) (by decide) (by decide)).mpr (by decide)⟩

/-- The rate of the largest amount overflows. -/
theorem fee_rate_overflow : moneyRange maxMoney = true ∧ CFeeRate maxMoney 1 = .error .overflow ∧
    ¬ExactFeeRate maxMoney 1 := by
  have hrate : CFeeRate maxMoney 1 = .error .overflow := by decide
  exact ⟨by decide, hrate, fun h => by cases hrate.symm.trans h.exact⟩

end RadiantCore
