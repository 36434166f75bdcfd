import RadiantCore.MachineInt
import RadiantCore.Transaction

/-!
# Compressed amounts

Coins are stored with their values in the form `CompressAmount` of `compressor.cpp` gives them. The
decimal zeros at the end of an amount, up to nine, are divided out. Their number and the last digit
that is left, which is not zero, are packed with the other digits into an unsigned number of 64 bits.

The packed number of an amount without zeros at its end is about nine times as large. This does not
fit 64 bits for the largest amounts of the money range, and the value of such a coin is lost
(`lossless_amount_iff`).
-/

namespace RadiantCore

/-- An unsigned result of 64 bits, as the machine computes it. -/
def wrap64 : ℤ → Except Failure ℤ := wrapped 64

/-- An unsigned result of 64 bits, reported if it does not fit. -/
def fit64 : ℤ → Except Failure ℤ := unsigned 64 .overflow

/-- The loop of `CompressAmount` that divides by ten, at most so many times : what is left, and the
number of divisions. -/
def divideOut : ℕ → ℤ → ℤ × ℤ
  | 0, n => (n, 0)
  | k + 1, n =>
    if n % 10 = 0 then
      let (m, e) := divideOut k (n / 10)
      (m, e + 1)
    else (n, 0)

section Amount

variable (u64 : ℤ → Except Failure ℤ)

/-- `CompressAmount`. -/
def compressAmount (amt : ℤ) : Except Failure ℤ := do
  let n := amt % 2 ^ 64
  if n = 0 then return 0
  let (n, e) := divideOut 9 n
  if e < 9 then
    let d := n % 10
    require (d ≥ 1 ∧ d ≤ 9) (.abort "d >= 1 && d <= 9")
    let n := n / 10
    let x ← u64 (n * 9)
    let x ← u64 (x + d)
    let x ← u64 (x - 1)
    let x ← u64 (x * 10)
    let x ← u64 (1 + x)
    u64 (x + e)
  else
    let x ← u64 (n - 1)
    let x ← u64 (x * 10)
    let x ← u64 (1 + x)
    u64 (x + 9)

/-- The loop of `DecompressAmount` that multiplies by ten. -/
def multiplyOut : ℕ → ℤ → Except Failure ℤ
  | 0, n => .ok n
  | e + 1, n => do
    let n ← u64 (n * 10)
    multiplyOut e n

/-- The mantissa in `DecompressAmount`, of the number without its exponent. -/
def decompressMantissa (x e : ℤ) : Except Failure ℤ :=
  if e < 9 then do
    let d := x % 9 + 1
    let n ← u64 (x / 9 * 10)
    u64 (n + d)
  else u64 (x + 1)

/-- The conversion of an unsigned number of 64 bits to a signed one. -/
def toInt64 (n : ℤ) : ℤ := if n < 2 ^ 63 then n else n - 2 ^ 64

/-- `DecompressAmount`. -/
def decompressAmount (x : ℤ) : Except Failure ℤ := do
  if x = 0 then return 0
  let x ← u64 (x - 1)
  let e := x % 10
  let n ← decompressMantissa u64 (x / 10) e
  let n ← multiplyOut u64 e.toNat n
  return toInt64 n

end Amount

/-- The amount is read back, and no value on the way is too large for 64 bits. -/
def LosslessAmount (a : ℤ) : Prop :=
  ∃ x, (compressAmount wrap64 a = .ok x ∧ decompressAmount wrap64 x = .ok a) ∧
    compressAmount fit64 a = .ok x ∧ decompressAmount fit64 x = .ok a

/-! ## Packing -/

theorem divideOut_spec {k : ℕ} {n m e : ℤ} (h : divideOut k n = (m, e)) :
    0 ≤ e ∧ e ≤ k ∧ n = m * 10 ^ e.toNat ∧ (e < k → m % 10 ≠ 0) ∧ (1 ≤ k → n % 10 = 0 → 1 ≤ e) := by
  induction k generalizing n m e with
  | zero =>
    obtain ⟨rfl, rfl⟩ := Prod.mk.inj h
    simp
  | succ k ih =>
    rw [divideOut] at h
    split_ifs at h with hzero
    · generalize hrec : divideOut k (n / 10) = rest at h
      obtain ⟨m', e'⟩ := rest
      obtain ⟨rfl, rfl⟩ := Prod.mk.inj h
      obtain ⟨hnonneg, hle, hn, hlast, -⟩ := ih hrec
      have hexp : (e' + 1).toNat = e'.toNat + 1 := by omega
      refine ⟨by omega, by push_cast; omega, ?_, fun hlt => hlast (by push_cast at hlt; omega),
        fun _ _ => by omega⟩
      rw [hexp, pow_succ, ← mul_assoc, ← hn]
      omega
    · obtain ⟨rfl, rfl⟩ := Prod.mk.inj h
      exact ⟨le_rfl, by omega, by simp, fun _ => hzero, fun _ h => absurd h hzero⟩

/-- The number an amount is packed into. -/
def packed (m e : ℤ) : ℤ := if e < 9 then 1 + (m / 10 * 9 + m % 10 - 1) * 10 + e else 1 + (m - 1) * 10 + 9

section Packed

variable {a m e x : ℤ}

theorem pos_of_divideOut (hpos : 0 < a) (hdiv : divideOut 9 a = (m, e)) : 0 < m := by
  obtain ⟨-, -, hm, -⟩ := divideOut_spec hdiv
  by_contra hneg
  have hprod : m * 10 ^ e.toNat ≤ 0 :=
    mul_nonpos_of_nonpos_of_nonneg (not_lt.mp hneg) (by positivity)
  omega

theorem compressAmount_fit_iff (hpos : 0 < a) (hlt : a < 2 ^ 64) (hdiv : divideOut 9 a = (m, e)) :
    compressAmount fit64 a = .ok x ↔ packed m e < 2 ^ 64 ∧ packed m e = x := by
  obtain ⟨hnonneg, hle, hm, hlast, -⟩ := divideOut_spec hdiv
  have hmpos := pos_of_divideOut hpos hdiv
  rw [compressAmount, Int.emod_eq_of_lt hpos.le hlt]
  simp only [if_neg hpos.ne', hdiv, fit64, packed]
  split_ifs with he
  · have hd := hlast (by push_cast; exact he)
    simp only [bind_eq_ok_iff, exists_unit_iff, require_eq_ok_iff, unsigned_eq_ok_iff]
    constructor
    · rintro ⟨-, _, ⟨-, rfl⟩, _, ⟨-, rfl⟩, _, ⟨-, rfl⟩, _, ⟨-, rfl⟩, _, ⟨-, rfl⟩, hfit, hx⟩
      exact ⟨hfit.2, hx⟩
    · rintro ⟨hfit, hx⟩
      refine ⟨by omega, _, ⟨by omega, rfl⟩, _, ⟨by omega, rfl⟩, _, ⟨by omega, rfl⟩, _,
        ⟨by omega, rfl⟩, _, ⟨by omega, rfl⟩, by omega, hx⟩
  · simp only [bind_eq_ok_iff, unsigned_eq_ok_iff]
    constructor
    · rintro ⟨_, ⟨-, rfl⟩, _, ⟨-, rfl⟩, _, ⟨-, rfl⟩, hfit, hx⟩
      exact ⟨hfit.2, hx⟩
    · rintro ⟨hfit, hx⟩
      exact ⟨_, ⟨by omega, rfl⟩, _, ⟨by omega, rfl⟩, _, ⟨by omega, rfl⟩, by omega, hx⟩

/-- Multiplying gives back what was divided out. -/
theorem multiplyOut_fit {k : ℕ} {n : ℤ} (hn : 0 ≤ n) (hfit : n * 10 ^ k < 2 ^ 64) :
    multiplyOut fit64 k n = .ok (n * 10 ^ k) := by
  induction k generalizing n with
  | zero => simp [multiplyOut]
  | succ k ih =>
    have hstep : n * 10 ^ (k + 1) = n * 10 * 10 ^ k := by ring
    have hten : n * 10 ≤ n * 10 * 10 ^ k := le_mul_of_one_le_right (by omega) (one_le_pow₀ (by norm_num))
    rw [multiplyOut, fit64, unsigned_of_range ⟨by omega, by omega⟩, ok_bind, hstep]
    exact ih (by omega) (hstep ▸ hfit)

theorem decompressMantissa_fit (hm : 0 < m) (hlt : m < 2 ^ 63) (hlast : e < 9 → m % 10 ≠ 0)
    (hnonneg : 0 ≤ e) (hle : e ≤ 9) :
    decompressMantissa fit64 ((packed m e - 1) / 10) e = .ok m := by
  rw [decompressMantissa, packed]
  split_ifs with he
  · have hd := hlast he
    have hx : (1 + (m / 10 * 9 + m % 10 - 1) * 10 + e - 1) / 10 = m / 10 * 9 + m % 10 - 1 := by omega
    have hdigit : (m / 10 * 9 + m % 10 - 1) % 9 + 1 = m % 10 := by omega
    have hrest : (m / 10 * 9 + m % 10 - 1) / 9 = m / 10 := by omega
    rw [hx, hdigit, hrest, fit64, unsigned_of_range ⟨by omega, by omega⟩, ok_bind,
      unsigned_of_range ⟨by omega, by omega⟩]
    exact congrArg Except.ok (by omega)
  · have hx : (1 + (m - 1) * 10 + 9 - 1) / 10 + 1 = m := by omega
    rw [hx, fit64, unsigned_of_range ⟨by omega, by omega⟩]

theorem decompressAmount_fit (hpos : 0 < a) (hlt : a < 2 ^ 63) (hdiv : divideOut 9 a = (m, e))
    (hfit : packed m e < 2 ^ 64) : decompressAmount fit64 (packed m e) = .ok a := by
  obtain ⟨hnonneg, hle, hm, hlast, -⟩ := divideOut_spec hdiv
  have hmpos : 0 < m := pos_of_divideOut hpos hdiv
  have hma : m ≤ m * 10 ^ e.toNat := le_mul_of_one_le_right hmpos.le (one_le_pow₀ (by norm_num))
  have hpacked : 1 ≤ packed m e ∧ (packed m e - 1) % 10 = e := by
    unfold packed
    split_ifs with he
    · have hd := hlast (by push_cast; exact he)
      omega
    · omega
  rw [decompressAmount, if_neg (by omega), fit64, unsigned_of_range ⟨by omega, by omega⟩, ok_bind,
    hpacked.2]
  change (decompressMantissa fit64 _ e >>= fun n => multiplyOut fit64 e.toNat n >>= fun n => _) = _
  rw [decompressMantissa_fit hmpos (by omega) (fun he => hlast (by push_cast; exact he)) hnonneg hle,
    ok_bind, multiplyOut_fit hmpos.le (by omega), ok_bind, ← hm, toInt64, if_pos hlt]
  rfl

/-! ## The machine -/

theorem wrap64_of_fit64 {v u : ℤ} (h : fit64 v = .ok u) : wrap64 v = .ok u := wrapped_of_unsigned h

theorem compressAmount_wrap_of_fit (h : compressAmount fit64 a = .ok x) :
    compressAmount wrap64 a = .ok x := by
  unfold compressAmount at h ⊢
  dsimp only at h ⊢
  split_ifs at h ⊢ with hzero he
  · exact h
  · simp only [bind_eq_ok_iff, exists_unit_iff, require_eq_ok_iff] at h ⊢
    obtain ⟨hd, x₁, h₁, x₂, h₂, x₃, h₃, x₄, h₄, x₅, h₅, h₆⟩ := h
    exact ⟨hd, x₁, wrap64_of_fit64 h₁, x₂, wrap64_of_fit64 h₂, x₃, wrap64_of_fit64 h₃, x₄,
      wrap64_of_fit64 h₄, x₅, wrap64_of_fit64 h₅, wrap64_of_fit64 h₆⟩
  · simp only [bind_eq_ok_iff] at h ⊢
    obtain ⟨x₁, h₁, x₂, h₂, x₃, h₃, h₄⟩ := h
    exact ⟨x₁, wrap64_of_fit64 h₁, x₂, wrap64_of_fit64 h₂, x₃, wrap64_of_fit64 h₃,
      wrap64_of_fit64 h₄⟩

theorem multiplyOut_wrap_of_fit {k : ℕ} {n : ℤ} (h : multiplyOut fit64 k n = .ok x) :
    multiplyOut wrap64 k n = .ok x := by
  induction k generalizing n with
  | zero => exact h
  | succ k ih =>
    simp only [multiplyOut, bind_eq_ok_iff] at h ⊢
    obtain ⟨y, hy, hrest⟩ := h
    exact ⟨y, wrap64_of_fit64 hy, ih hrest⟩

theorem decompressMantissa_wrap_of_fit {n : ℤ} (h : decompressMantissa fit64 x e = .ok n) :
    decompressMantissa wrap64 x e = .ok n := by
  unfold decompressMantissa at h ⊢
  split_ifs at h ⊢ with he
  · simp only [bind_eq_ok_iff] at h ⊢
    obtain ⟨y, hy, hn⟩ := h
    exact ⟨y, wrap64_of_fit64 hy, wrap64_of_fit64 hn⟩
  · exact wrap64_of_fit64 h

theorem decompressAmount_wrap_of_fit (h : decompressAmount fit64 x = .ok a) :
    decompressAmount wrap64 x = .ok a := by
  unfold decompressAmount at h ⊢
  split_ifs at h ⊢ with hzero
  · exact h
  · simp only [bind_eq_ok_iff] at h ⊢
    obtain ⟨y, hy, n, hn, n', hn', hret⟩ := h
    exact ⟨y, wrap64_of_fit64 hy, n, decompressMantissa_wrap_of_fit hn, n',
      multiplyOut_wrap_of_fit hn', hret⟩

end Packed

theorem losslessAmount_iff_fit {a : ℤ} : LosslessAmount a ↔
    ∃ x, compressAmount fit64 a = .ok x ∧ decompressAmount fit64 x = .ok a := by
  constructor
  · rintro ⟨x, -, hx⟩
    exact ⟨x, hx⟩
  · rintro ⟨x, hx, ha⟩
    exact ⟨x, ⟨compressAmount_wrap_of_fit hx, decompressAmount_wrap_of_fit ha⟩, hx, ha⟩

/-- The amounts of the money range that are not lost. -/
theorem lossless_amount_iff {a : ℤ} (ha : moneyRange a = true) :
    LosslessAmount a ↔ a % 10 = 0 ∨ a < 2049638230412172403 := by
  rw [moneyRange_iff, maxMoney] at ha
  rw [losslessAmount_iff_fit]
  obtain rfl | hpos : a = 0 ∨ 0 < a := by omega
  · exact iff_of_true ⟨0, rfl, rfl⟩ (Or.inl rfl)
  generalize hdiv : divideOut 9 a = p
  obtain ⟨m, e⟩ := p
  obtain ⟨hnonneg, hle, hm, hlast, hzeros⟩ := divideOut_spec hdiv
  have hmpos := pos_of_divideOut hpos hdiv
  have hfits : packed m e < 2 ^ 64 ↔ a % 10 = 0 ∨ a < 2049638230412172403 := by
    by_cases hten : a % 10 = 0
    · refine iff_of_true ?_ (Or.inl hten)
      -- a zero at the end makes the number ten times smaller, which leaves room
      have hsmall : m * 10 ≤ a := by
        have hone := hzeros (by norm_num) hten
        rw [hm]
        exact mul_le_mul_of_nonneg_left (le_self_pow₀ (by norm_num) (by omega)) hmpos.le
      unfold packed
      split_ifs with he <;> omega
    · obtain rfl : e = 0 := by
        by_contra hne
        refine hten ?_
        rw [hm, show e.toNat = e.toNat - 1 + 1 by omega, pow_succ, ← mul_assoc]
        exact Int.mul_emod_left _ _
      obtain rfl : a = m := by simpa using hm
      rw [packed, if_pos (by norm_num)]
      omega
  rw [← hfits]
  constructor
  · rintro ⟨x, hx, -⟩
    exact ((compressAmount_fit_iff hpos (by omega) hdiv).mp hx).1
  · intro hfit
    exact ⟨packed m e, (compressAmount_fit_iff hpos (by omega) hdiv).mpr ⟨hfit, rfl⟩,
      decompressAmount_fit hpos (by omega) hdiv hfit⟩

/-- Two billion coins and a satoshi. -/
theorem lossless_amount_large : moneyRange 200000000000000001 = true ∧
    LosslessAmount 200000000000000001 :=
  ⟨by decide, (lossless_amount_iff (by decide)).mpr (by decide)⟩

/-- The largest amount but one is read back as more than there are coins. -/
theorem amount_lost : moneyRange (maxMoney - 1) = true ∧
    compressAmount wrap64 (maxMoney - 1) = .ok 453255926290448375 ∧
    decompressAmount wrap64 453255926290448375 = .ok 5555605888118076368 ∧
    ¬LosslessAmount (maxMoney - 1) := by
  have hpack : compressAmount wrap64 (maxMoney - 1) = .ok 453255926290448375 := by decide +kernel
  have hread : decompressAmount wrap64 453255926290448375 = .ok 5555605888118076368 := by
    decide +kernel
  refine ⟨by decide, hpack, hread, ?_⟩
  rintro ⟨x, ⟨hx, ha⟩, -⟩
  obtain rfl := Except.ok.inj (hpack.symm.trans hx)
  exact absurd (Except.ok.inj (hread.symm.trans ha)) (by decide)

end RadiantCore
