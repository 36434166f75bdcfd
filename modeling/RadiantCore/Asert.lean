import Mathlib.Algebra.Order.Floor.Semifield
import Mathlib.Data.Rat.Floor
import RadiantCore.BaseUint
import RadiantCore.MachineInt
import RadiantCore.Transaction

/-!
# The target of a block under ASERT

`CalculateASERT` of `pow.cpp` gives the target of a block from the target of an anchor block, the
time that has passed since the anchor and the number of blocks. Every half-life that the chain is
behind its schedule doubles the target. The exponent has 16 bits after the point. Its integer part is
a shift, and a cubic polynomial approximates the power of two of the rest.

The target is the anchor's times an exact rational power (`asertScale`), rounded down and clamped to
the range from 1 to the limit (`calculateASERT_eq`). The powers increase with the exponent
(`asertScale_mono`), also where the integer part changes. So the target grows with the time and falls
with the height (`asert_bounded_monotone`).
-/

namespace RadiantCore

open BaseUint

/-! ## The computation -/

/-- A result of type `int64_t`. -/
def int64 : ℤ → Except Failure ℤ := signed 63 .overflow

/-- The conversion of an integer to `unsigned int`. -/
def toUnsignedInt (n : ℤ) : ℕ := (n % 2 ^ 32).toNat

/-- The exponent in `CalculateASERT`, with 16 bits after the point. -/
def asertExponent (nPowTargetSpacing nTimeDiff nHeightDiff nHalfLife : ℤ) : Except Failure ℤ := do
  let schedule ← int64 (nPowTargetSpacing * nHeightDiff)
  let ahead ← int64 (nTimeDiff - schedule)
  let distance ← int64 |ahead|
  require (distance < 2 ^ (63 - 16))
    (.abort "llabs(nTimeDiff - nPowTargetSpacing * nHeightDiff) < (1ll << (63 - 16))")
  let blocks ← int64 (nHeightDiff + 1)
  let schedule ← int64 (nPowTargetSpacing * blocks)
  let ahead ← int64 (nTimeDiff - schedule)
  let numerator ← int64 (ahead * 65536)
  require (nHalfLife ≠ 0) (.abort "division by zero")
  int64 (numerator.tdiv nHalfLife)

/-- The factor in `CalculateASERT` : the power of two of a fraction of 16 bits, with 16 bits after the
point. -/
def asertFactor (frac : ℕ) : UInt32 :=
  UInt32.ofNat (65536 + (195766423245049 * frac + 971821376 * frac * frac +
    5127 * frac * frac * frac + 2 ^ 47) % 2 ^ 64 / 2 ^ 48)

/-- The shift in `CalculateASERT`, to the right or to the left. A shift to the left that loses bits
gives the limit. -/
def asertShift (nextTarget powLimit : BaseUint 8) (shifts : ℤ) : BaseUint 8 :=
  if shifts ≤ 0 then nextTarget.shiftRight (toUnsignedInt (-shifts))
  else
    let nextTargetShifted := nextTarget.shiftLeft (toUnsignedInt shifts)
    if nextTargetShifted.shiftRight (toUnsignedInt shifts) ≠ nextTarget then powLimit
    else nextTargetShifted

/-- `CalculateASERT`. -/
def calculateASERT (refTarget : BaseUint 8) (nPowTargetSpacing nTimeDiff nHeightDiff : ℤ)
    (powLimit : BaseUint 8) (nHalfLife : ℤ) : Except Failure (BaseUint 8) := do
  require (refTarget.compareTo (.ofNat 8 0) = .gt ∧ refTarget.compareTo powLimit ≠ .gt)
    (.abort "refTarget > 0 && refTarget <= powLimit")
  require (powLimit.shiftRight 224 = .ofNat 8 0) (.abort "(powLimit >> 224) == 0")
  require (nHeightDiff ≥ 0) (.abort "nHeightDiff >= 0")
  let exponent ← asertExponent nPowTargetSpacing nTimeDiff nHeightDiff nHalfLife
  let shifts := exponent / 65536
  let frac := exponent % 65536
  let whole ← int64 (shifts * 65536)
  let sum ← int64 (whole + frac)
  require (exponent = sum) (.abort "exponent == (shifts * 65536) + frac")
  let nextTarget := refTarget.mulWord (asertFactor frac.toNat)
  let shifts ← int64 (shifts - 16)
  let nextTarget := asertShift nextTarget powLimit shifts
  return if nextTarget = .ofNat 8 0 then .ofNat 8 1
    else if nextTarget.compareTo powLimit = .gt then powLimit
    else nextTarget

/-! ## The power of two -/

/-- The factor, as a number. -/
def asertPower (frac : ℕ) : ℕ :=
  65536 + (195766423245049 * frac + 971821376 * frac * frac + 5127 * frac * frac * frac + 2 ^ 47) /
    2 ^ 48

theorem asertPower_mono {f f' : ℕ} (h : f ≤ f') : asertPower f ≤ asertPower f' := by
  unfold asertPower
  gcongr

theorem asertPower_ge (f : ℕ) : 65536 ≤ asertPower f := Nat.le_add_right _ _

/-- The approximation does not reach the next power of two. -/
theorem asertPower_lt {f : ℕ} (hf : f < 65536) : asertPower f < 131072 :=
  (asertPower_mono (Nat.le_of_lt_succ hf)).trans_lt (by decide)

theorem asertFactor_toNat {f : ℕ} (hf : f < 65536) : (asertFactor f).toNat = asertPower f := by
  have hsum : 195766423245049 * f + 971821376 * f * f + 5127 * f * f * f + 2 ^ 47 < 2 ^ 64 := by
    have hle : f ≤ 65535 := Nat.le_of_lt_succ hf
    calc 195766423245049 * f + 971821376 * f * f + 5127 * f * f * f + 2 ^ 47
        ≤ 195766423245049 * 65535 + 971821376 * 65535 * 65535 + 5127 * 65535 * 65535 * 65535 +
          2 ^ 47 := by gcongr
      _ < 2 ^ 64 := by norm_num
  have hlt := asertPower_lt hf
  rw [asertFactor, Nat.mod_eq_of_lt hsum]
  exact UInt32.toNat_ofNat_of_lt' (hlt.trans (by decide))

/-- The power of two of an exponent with 16 bits after the point, as it is approximated. -/
def asertScale (e : ℤ) : ℚ := asertPower (e % 65536).toNat * 2 ^ (e / 65536 - 16)

theorem asertScale_mono : Monotone asertScale := by
  intro e e' h
  unfold asertScale
  obtain heq | hlt : e / 65536 = e' / 65536 ∨ e / 65536 + 1 ≤ e' / 65536 := by omega
  · rw [heq]
    have hfrac : asertPower (e % 65536).toNat ≤ asertPower (e' % 65536).toNat :=
      asertPower_mono (by omega)
    gcongr
  · have hlow : (asertPower (e % 65536).toNat : ℚ) ≤ 131072 := by
      exact_mod_cast (asertPower_lt (by omega : (e % 65536).toNat < 65536)).le
    have hhigh : (65536 : ℚ) ≤ asertPower (e' % 65536).toNat := by
      exact_mod_cast asertPower_ge _
    calc (asertPower (e % 65536).toNat : ℚ) * 2 ^ (e / 65536 - 16)
        ≤ 131072 * 2 ^ (e / 65536 - 16) := by gcongr
      _ = 65536 * 2 ^ (e / 65536 + 1 - 16) := by
        rw [show e / 65536 + 1 - 16 = (e / 65536 - 16) + 1 by ring, zpow_add_one₀ (by norm_num)]
        ring
      _ ≤ 65536 * 2 ^ (e' / 65536 - 16) := by
        gcongr
        · norm_num
      _ ≤ asertPower (e' % 65536).toNat * 2 ^ (e' / 65536 - 16) := by gcongr

/-- The target that is meant : the anchor's times the power, rounded down and clamped. -/
def asertTarget (refTarget powLimit : ℕ) (e : ℤ) : ℕ :=
  max 1 (min powLimit ⌊refTarget * asertScale e⌋₊)

theorem asertTarget_mono (refTarget powLimit : ℕ) : Monotone (asertTarget refTarget powLimit) := by
  intro e e' h
  have hscale := asertScale_mono h
  unfold asertTarget
  gcongr

/-! ## The computed target -/

theorem floor_mul_zpow_neg (N k : ℕ) : ⌊(N : ℚ) * 2 ^ (-(k : ℤ))⌋₊ = N / 2 ^ k := by
  rw [zpow_neg, zpow_natCast, ← div_eq_mul_inv]
  exact_mod_cast Nat.floor_div_eq_div (K := ℚ) N (2 ^ k)

theorem floor_mul_zpow (N k : ℕ) : ⌊(N : ℚ) * 2 ^ (k : ℤ)⌋₊ = N * 2 ^ k := by
  rw [zpow_natCast]
  exact_mod_cast Nat.floor_natCast (R := ℚ) (N * 2 ^ k)

theorem toUnsignedInt_of_range {n : ℤ} (hnonneg : 0 ≤ n) (hlt : n < 2 ^ 32) :
    toUnsignedInt n = n.toNat := by
  rw [toUnsignedInt, Int.emod_eq_of_lt hnonneg hlt]

/-- The shift is a product with a power of two, or gives the limit when that is larger. -/
theorem toNat_asertShift {nextTarget powLimit : BaseUint 8} {shifts : ℤ}
    (hlimit : powLimit.toNat < 2 ^ 224) (hlow : -2 ^ 32 < shifts) (hhigh : shifts < 2 ^ 32) :
    (asertShift nextTarget powLimit shifts).toNat = ⌊(nextTarget.toNat : ℚ) * 2 ^ shifts⌋₊ ∨
      (asertShift nextTarget powLimit shifts).toNat = powLimit.toNat ∧
        powLimit.toNat ≤ ⌊(nextTarget.toNat : ℚ) * 2 ^ shifts⌋₊ := by
  unfold asertShift
  by_cases hneg : shifts ≤ 0
  · rw [if_pos hneg, toNat_shiftRight, toUnsignedInt_of_range (by omega) (by omega),
      ← floor_mul_zpow_neg, Int.toNat_of_nonneg (by omega), neg_neg]
    exact Or.inl rfl
  · rw [if_neg hneg, toUnsignedInt_of_range (by omega) hhigh]
    obtain ⟨k, rfl⟩ : ∃ k : ℕ, shifts = k := ⟨shifts.toNat, by omega⟩
    rw [Int.toNat_natCast, floor_mul_zpow]
    dsimp only
    split_ifs with hback
    · -- bits are lost
      refine Or.inr ⟨rfl, ?_⟩
      by_contra hlt
      have hfits : nextTarget.toNat * 2 ^ k < 2 ^ (32 * 8) := by omega
      apply hback
      apply toNat_injective
      rw [toNat_shiftRight, toNat_shiftLeft, Nat.mod_eq_of_lt hfits,
        Nat.mul_div_cancel _ (by positivity)]
    · refine Or.inl ?_
      have hvalue := congrArg toNat (not_not.mp hback)
      rw [toNat_shiftRight, toNat_shiftLeft] at hvalue
      rw [toNat_shiftLeft]
      refine le_antisymm (Nat.mod_le _ _) ?_
      calc nextTarget.toNat * 2 ^ k
          = nextTarget.toNat * 2 ^ k % 2 ^ (32 * 8) / 2 ^ k * 2 ^ k := by rw [hvalue]
        _ ≤ nextTarget.toNat * 2 ^ k % 2 ^ (32 * 8) := Nat.div_mul_le_self _ _

/-- The clamping at the end of `CalculateASERT`. -/
theorem toNat_clamp {target powLimit : BaseUint 8} (hlimit : 1 ≤ powLimit.toNat) :
    (if target = .ofNat 8 0 then ofNat 8 1
      else if target.compareTo powLimit = .gt then powLimit else target).toNat =
      max 1 (min powLimit.toNat target.toNat) := by
  have hzero : (ofNat 8 0).toNat = 0 := by rw [toNat_ofNat, Nat.zero_mod]
  have hone : (ofNat 8 1).toNat = 1 := by
    rw [toNat_ofNat, Nat.mod_eq_of_lt (by norm_num)]
  split_ifs with htarget hgt
  · rw [htarget, hzero, hone]
    omega
  · rw [compareTo_eq, Nat.compare_eq_gt] at hgt
    omega
  · have hpos : target.toNat ≠ 0 := fun h =>
      htarget (toNat_injective (h.trans hzero.symm))
    rw [compareTo_eq, Nat.compare_eq_gt] at hgt
    omega

section Target

variable {t h halfLife : ℤ}

/-- The exponent that is meant, which is rounded towards zero. -/
def exponentOf (t h halfLife : ℤ) : ℤ := ((t - 300 * (h + 1)) * 65536).tdiv halfLife

theorem exponentOf_range (ht : |t| < 2 ^ 33) (hnonneg : 0 ≤ h) (hh : h < 2 ^ 31)
    (hhalf : halfLife = 3600 ∨ halfLife = 43200 ∨ halfLife = 172800) :
    -2 ^ 47 < exponentOf t h halfLife ∧ exponentOf t h halfLife < 2 ^ 47 := by
  obtain ⟨hlow, hhigh⟩ := abs_lt.mp ht
  unfold exponentOf
  generalize hx : (t - 300 * (h + 1)) * 65536 = x
  rcases le_or_gt 0 x with hpos | hneg
  · rw [Int.tdiv_eq_ediv_of_nonneg hpos]
    rcases hhalf with rfl | rfl | rfl <;> omega
  · rw [← neg_neg x, Int.neg_tdiv, Int.tdiv_eq_ediv_of_nonneg (by omega)]
    rcases hhalf with rfl | rfl | rfl <;> omega

theorem asertExponent_eq (ht : |t| < 2 ^ 33) (hnonneg : 0 ≤ h) (hh : h < 2 ^ 31)
    (hhalf : halfLife = 3600 ∨ halfLife = 43200 ∨ halfLife = 172800) :
    asertExponent 300 t h halfLife = .ok (exponentOf t h halfLife) := by
  obtain ⟨hlow, hhigh⟩ := abs_lt.mp ht
  obtain ⟨helow, hehigh⟩ := exponentOf_range ht hnonneg hh hhalf
  have hahead : |t - 300 * h| < 2 ^ 47 := abs_lt.mpr ⟨by omega, by omega⟩
  have hdistance := abs_nonneg (t - 300 * h)
  have hne : halfLife ≠ 0 := by omega
  unfold asertExponent int64
  rw [signed_of_range ⟨by omega, by omega⟩, ok_bind, signed_of_range ⟨by omega, by omega⟩, ok_bind,
    signed_of_range ⟨by omega, by omega⟩, ok_bind, require_pos hahead, ok_bind,
    signed_of_range ⟨by omega, by omega⟩, ok_bind, signed_of_range ⟨by omega, by omega⟩, ok_bind,
    signed_of_range ⟨by omega, by omega⟩, ok_bind, signed_of_range ⟨by omega, by omega⟩, ok_bind,
    require_pos hne, ok_bind]
  exact signed_of_range ⟨by unfold exponentOf at helow; omega, by unfold exponentOf at hehigh; omega⟩

variable {refTarget powLimit : BaseUint 8}

/-- All assertions hold, and the target is the one that is meant. -/
theorem calculateASERT_eq (hlimit : powLimit.toNat < 2 ^ 224) (href : 1 ≤ refTarget.toNat)
    (hle : refTarget.toNat ≤ powLimit.toNat) (ht : |t| < 2 ^ 33) (hnonneg : 0 ≤ h) (hh : h < 2 ^ 31)
    (hhalf : halfLife = 3600 ∨ halfLife = 43200 ∨ halfLife = 172800) :
    ∃ target, calculateASERT refTarget 300 t h powLimit halfLife = .ok target ∧
      target.toNat = asertTarget refTarget.toNat powLimit.toNat (exponentOf t h halfLife) := by
  obtain ⟨helow, hehigh⟩ := exponentOf_range ht hnonneg hh hhalf
  have hzero : (ofNat 8 0).toNat = 0 := by rw [toNat_ofNat, Nat.zero_mod]
  have hrange : refTarget.compareTo (.ofNat 8 0) = .gt ∧ refTarget.compareTo powLimit ≠ .gt := by
    rw [compareTo_eq, compareTo_eq, hzero, ne_eq, Nat.compare_eq_gt,
      Nat.compare_eq_gt]
    omega
  have hbits : powLimit.shiftRight 224 = .ofNat 8 0 := by
    apply toNat_injective
    rw [toNat_shiftRight, Nat.div_eq_of_lt hlimit, hzero]
  rw [calculateASERT, require_pos hrange, ok_bind, require_pos hbits, ok_bind,
    require_pos (show h ≥ 0 from hnonneg), ok_bind, asertExponent_eq ht hnonneg hh hhalf, ok_bind]
  generalize exponentOf t h halfLife = e at helow hehigh ⊢
  unfold int64
  dsimp only
  rw [signed_of_range ⟨by omega, by omega⟩, ok_bind, signed_of_range ⟨by omega, by omega⟩, ok_bind,
    require_pos (by omega : e = e / 65536 * 65536 + e % 65536), ok_bind,
    signed_of_range ⟨by omega, by omega⟩, ok_bind]
  refine ⟨_, rfl, ?_⟩
  have hfactor := asertFactor_toNat (by omega : (e % 65536).toNat < 65536)
  have hpower := asertPower_lt (by omega : (e % 65536).toNat < 65536)
  have hproduct : (refTarget.mulWord (asertFactor (e % 65536).toNat)).toNat =
      asertPower (e % 65536).toNat * refTarget.toNat := by
    rw [toNat_mulWord, hfactor, Nat.mod_eq_of_lt]
    calc asertPower (e % 65536).toNat * refTarget.toNat
        ≤ 131072 * 2 ^ 224 := Nat.mul_le_mul hpower.le (by omega)
      _ < 2 ^ (32 * 8) := by norm_num
  have hscale : ⌊((refTarget.mulWord (asertFactor (e % 65536).toNat)).toNat : ℚ) *
      2 ^ (e / 65536 - 16)⌋₊ = ⌊refTarget.toNat * asertScale e⌋₊ := by
    rw [hproduct, asertScale]
    push_cast
    ring_nf
  rw [toNat_clamp (href.trans hle), asertTarget, ← hscale]
  rcases toNat_asertShift hlimit (by omega : -2 ^ 32 < e / 65536 - 16) (by omega) with
    heq | ⟨heq, hlarge⟩
  · rw [heq]
  · rw [heq]
    omega

end Target

/-- The targets are in the range from 1 to the limit, grow with the time and fall with the height. -/
theorem asert_bounded_monotone (powLimit refTarget : BaseUint 8) (hlimit : powLimit.toNat < 2 ^ 224)
    (href : 1 ≤ refTarget.toNat) (hle : refTarget.toNat ≤ powLimit.toNat) (halfLife : ℤ)
    (hhalf : halfLife = 3600 ∨ halfLife = 43200 ∨ halfLife = 172800) :
    (∀ t h : ℤ, |t| < 2 ^ 33 → 0 ≤ h → h < 2 ^ 31 →
      ∃ target, calculateASERT refTarget 300 t h powLimit halfLife = .ok target ∧
        1 ≤ target.toNat ∧ target.toNat ≤ powLimit.toNat) ∧
    (∀ t t' h : ℤ, |t| < 2 ^ 33 → |t'| < 2 ^ 33 → 0 ≤ h → h < 2 ^ 31 → t ≤ t' →
      ∃ target target', calculateASERT refTarget 300 t h powLimit halfLife = .ok target ∧
        calculateASERT refTarget 300 t' h powLimit halfLife = .ok target' ∧
        target.toNat ≤ target'.toNat) ∧
    (∀ t h h' : ℤ, |t| < 2 ^ 33 → 0 ≤ h → h' < 2 ^ 31 → h ≤ h' →
      ∃ target target', calculateASERT refTarget 300 t h powLimit halfLife = .ok target ∧
        calculateASERT refTarget 300 t h' powLimit halfLife = .ok target' ∧
        target'.toNat ≤ target.toNat) := by
  have hpos : 0 < halfLife := by omega
  refine ⟨fun t h ht hnonneg hh => ?_, fun t t' h ht ht' hnonneg hh hlate => ?_,
    fun t h h' ht hnonneg hh hhigh => ?_⟩
  · obtain ⟨target, htarget, hvalue⟩ := calculateASERT_eq hlimit href hle ht hnonneg hh hhalf
    refine ⟨target, htarget, ?_⟩
    rw [hvalue, asertTarget]
    omega
  · obtain ⟨target, htarget, hvalue⟩ := calculateASERT_eq hlimit href hle ht hnonneg hh hhalf
    obtain ⟨target', htarget', hvalue'⟩ := calculateASERT_eq hlimit href hle ht' hnonneg hh hhalf
    refine ⟨target, target', htarget, htarget', ?_⟩
    rw [hvalue, hvalue']
    exact asertTarget_mono _ _ (Int.tdiv_le_tdiv hpos (by omega))
  · obtain ⟨target, htarget, hvalue⟩ :=
      calculateASERT_eq hlimit href hle ht hnonneg (by omega) hhalf
    obtain ⟨target', htarget', hvalue'⟩ :=
      calculateASERT_eq hlimit href hle ht (by omega) hh hhalf
    refine ⟨target, target', htarget, htarget', ?_⟩
    rw [hvalue, hvalue']
    exact asertTarget_mono _ _ (Int.tdiv_le_tdiv hpos (by omega))

/-- A day late at the anchor's difficulty, with a half-life of two days. -/
theorem asert_bounded_monotone_day : ∃ target,
    calculateASERT (.ofNat 8 1000000) 300 86700 0 (.ofNat 8 (2 ^ 224 - 1)) 172800 = .ok target ∧
      1 ≤ target.toNat ∧ target.toNat ≤ (ofNat 8 (2 ^ 224 - 1)).toNat :=
  (asert_bounded_monotone (.ofNat 8 (2 ^ 224 - 1)) (.ofNat 8 1000000) (by decide +kernel)
    (by decide +kernel) (by decide +kernel) 172800 (Or.inr (Or.inr rfl))).1 86700 0 (by decide)
    le_rfl (by decide)

end RadiantCore
