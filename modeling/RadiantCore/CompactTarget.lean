import RadiantCore.BaseUintDivision
import RadiantCore.BlockCheck

/-!
# Compact targets

`arith_uint256::GetCompact` encodes a target in 32 bits : its size in bytes and its three leading
bytes, or two where the highest bit is set, because this bit stands for a sign. Decoding gives the
target with the other bytes cleared (`setCompact_getCompact`), so it is at most the target, not zero,
and not below any power of two that the target reaches, and keeps the order of targets
(`compactTruncate_mono`).
-/

namespace RadiantCore

open BaseUint

namespace BaseUint

/-- `GetLow64`. -/
def getLow64 {width : ℕ} (a : BaseUint width) : ℕ :=
  (a.pn.getD 0 0).toNat + 2 ^ 32 * (a.pn.getD 1 0).toNat

/-- The size and the leading bytes in `GetCompact`, before the sign bit is looked at. -/
def compactWord (a : BaseUint 8) (nSize : ℕ) : ℕ :=
  if nSize ≤ 3 then a.getLow64 * 2 ^ (8 * (3 - nSize)) % 2 ^ 32
  else (a.shiftRight (8 * (nSize - 3))).getLow64 % 2 ^ 32

/-- The word and the size in `GetCompact`, with the sign bit free. -/
def compactParts (a : BaseUint 8) : ℕ × ℕ :=
  let nSize := (a.bits + 7) / 8
  let nCompact := a.compactWord nSize
  if nCompact.testBit 23 then (nCompact / 2 ^ 8, nSize + 1) else (nCompact, nSize)

/-- `arith_uint256::GetCompact`. -/
def getCompact (a : BaseUint 8) (fNegative : Bool) : Except Failure UInt32 := do
  let (nCompact, nSize) := a.compactParts
  require (nCompact < 2 ^ 23) (.abort "(nCompact & ~0x007fffff) == 0")
  require (nSize < 256) (.abort "nSize < 256")
  let sign := if fNegative ∧ nCompact ≠ 0 then 0x00800000 else 0
  return UInt32.ofNat (nCompact + nSize * 2 ^ 24 + sign)

theorem getLow64_eq {width : ℕ} (hwidth : 2 ≤ width) (a : BaseUint width) :
    a.getLow64 = a.toNat % 2 ^ 64 := by
  obtain ⟨pn, hpn⟩ := a
  obtain ⟨p, qn, rfl⟩ := List.exists_cons_of_length_pos (by omega : 0 < pn.length)
  obtain ⟨q, rn, rfl⟩ := List.exists_cons_of_length_pos (by
    rw [List.length_cons] at hpn
    omega : 0 < qn.length)
  have hp := p.toNat_lt
  have hq := q.toNat_lt
  change p.toNat + 2 ^ 32 * q.toNat =
    (2 ^ 32 * (2 ^ 32 * wordsValue rn + q.toNat) + p.toNat) % 2 ^ 64
  omega

end BaseUint

/-- The number of bytes that a compact target leaves out. -/
def compactDrop (x : ℕ) : ℕ :=
  let size := (x.size + 7) / 8
  if 2 ^ (8 * size - 1) ≤ x then size - 2 else size - 3

/-- A number with the bytes cleared that a compact target leaves out. -/
def compactTruncate (x : ℕ) : ℕ := x / 2 ^ (8 * compactDrop x) * 2 ^ (8 * compactDrop x)

/-- The number that `SetCompact` makes, in words. -/
def setCompactWords (nCompact : UInt32) : BaseUint 8 :=
  let nSize := (nCompact >>> 24).toNat
  let nWord := nCompact &&& 0x007fffff
  if nSize ≤ 3 then .ofNat 8 (nWord >>> UInt32.ofNat (8 * (3 - nSize))).toNat
  else (ofNat 8 nWord.toNat).shiftLeft (8 * (nSize - 3))

/-! ## Truncation -/

section Truncate

variable {x y : ℕ}

theorem compactTruncate_le (x : ℕ) : compactTruncate x ≤ x := Nat.div_mul_le_self _ _

theorem two_pow_le_compactTruncate {m : ℕ} (h : 2 ^ m ≤ x) : 2 ^ m ≤ compactTruncate x := by
  have hdrop : 8 * compactDrop x < x.size := by
    have hsize := Nat.lt_size.mpr h
    unfold compactDrop
    dsimp only
    split_ifs <;> omega
  unfold compactTruncate
  generalize compactDrop x = k at hdrop
  rcases le_total (8 * k) m with hle | hle
  · obtain ⟨j, rfl⟩ := Nat.exists_eq_add_of_le hle
    rw [pow_add, mul_comm]
    refine Nat.mul_le_mul_right _ ?_
    rw [Nat.le_div_iff_mul_le (by positivity), ← pow_add, add_comm]
    exact h
  · exact (Nat.pow_le_pow_right (by norm_num) hle).trans
      (Nat.le_mul_of_pos_left _ (Nat.div_pos (Nat.lt_size.mp hdrop) (by positivity)))

theorem compactDrop_congr (h : x.size = y.size) : compactDrop x = compactDrop y := by
  simp only [compactDrop, ← Nat.lt_size, h]

theorem size_compactTruncate (x : ℕ) : (compactTruncate x).size = x.size := by
  refine le_antisymm (Nat.size_le_size (compactTruncate_le x)) ?_
  by_contra hlt
  have hpow : 2 ^ (compactTruncate x).size ≤ x := Nat.lt_size.mp (not_le.mp hlt)
  exact absurd (Nat.lt_size_self _) (not_lt.mpr (two_pow_le_compactTruncate hpow))

theorem compactTruncate_idem (x : ℕ) :
    compactTruncate x / 2 ^ (8 * compactDrop x) = x / 2 ^ (8 * compactDrop x) :=
  Nat.mul_div_cancel _ (by positivity)

/-- Truncation keeps the order : numbers of one size lose the same bytes, and a longer number stays
above the power of two that the shorter one is below. -/
theorem compactTruncate_mono (h : x ≤ y) : compactTruncate x ≤ compactTruncate y := by
  rcases (Nat.size_le_size h).eq_or_lt with hsize | hsize
  · rw [compactTruncate, compactTruncate, compactDrop_congr hsize]
    exact Nat.mul_le_mul_right _ (Nat.div_le_div_right h)
  · calc compactTruncate x ≤ x := compactTruncate_le x
      _ ≤ 2 ^ x.size := (Nat.lt_size_self x).le
      _ ≤ compactTruncate y := two_pow_le_compactTruncate (Nat.lt_size.mp hsize)

end Truncate

/-! ## Decoding -/

theorem toNat_setCompactWords (nCompact : UInt32) :
    (setCompactWords nCompact).toNat = (setCompact nCompact).1 := by
  have hsize : (nCompact >>> 24).toNat = nCompact.toNat / 2 ^ 24 := by
    rw [UInt32.toNat_shiftRight, Nat.shiftRight_eq_div_pow]
    rfl
  have hword : (nCompact &&& 0x007fffff).toNat = nCompact.toNat % 2 ^ 23 := by
    rw [UInt32.toNat_and, ← Nat.and_two_pow_sub_one_eq_mod]
    rfl
  have hlt : nCompact.toNat % 2 ^ 23 < 2 ^ (32 * 8) :=
    (Nat.mod_lt _ (by norm_num)).trans (by norm_num)
  unfold setCompactWords setCompact
  dsimp only
  rw [hsize]
  split_ifs with hsmall
  · have hshift : (UInt32.ofNat (8 * (3 - nCompact.toNat / 2 ^ 24))).toNat % 32 =
        8 * (3 - nCompact.toNat / 2 ^ 24) := by
      rw [UInt32.toNat_ofNat_of_lt' (by show _ < 2 ^ 32; omega)]
      omega
    rw [toNat_ofNat, UInt32.toNat_shiftRight, hword, Nat.shiftRight_eq_div_pow, hshift]
    exact Nat.mod_eq_of_lt ((Nat.div_le_self _ _).trans_lt hlt)
  · rw [toNat_shiftLeft, toNat_ofNat, hword, Nat.mod_eq_of_lt hlt]

section Decode

variable {w n : ℕ}

section

variable (hw : w < 2 ^ 23)

include hw

theorem toNat_compact (hn : n < 256) : (UInt32.ofNat (w + n * 2 ^ 24)).toNat = w + n * 2 ^ 24 :=
  UInt32.toNat_ofNat_of_lt' (by show _ < 2 ^ 32; omega)

theorem compact_sign (hn : n < 256) : UInt32.ofNat (w + n * 2 ^ 24) &&& 0x00800000 = 0 := by
  have hbit : (w + n * 2 ^ 24).testBit 23 = false := by
    rw [Nat.testBit_eq_decide_div_mod_eq, decide_eq_false_iff_not]
    omega
  apply UInt32.toNat_inj.mp
  rw [UInt32.toNat_and, toNat_compact hw hn, show (0x00800000 : UInt32).toNat = 2 ^ 23 from rfl,
    Nat.and_two_pow, hbit]
  rfl

/-- A word of at most 23 bits with a size that fits 32 bytes. -/
theorem setCompact_eq (hfits : n ≤ 32 ∨ n = 33 ∧ w ≤ 0xffff) :
    setCompact (UInt32.ofNat (w + n * 2 ^ 24)) =
      (if n ≤ 3 then w / 2 ^ (8 * (3 - n)) else w * 2 ^ (8 * (n - 3)) % 2 ^ 256, false, false) := by
  have hsize : (w + n * 2 ^ 24) / 2 ^ 24 = n := by omega
  have hword : (w + n * 2 ^ 24) % 2 ^ 23 = w := by omega
  unfold setCompact
  rw [toNat_compact hw (by omega), hsize, hword, compact_sign hw (by omega)]
  dsimp only
  split_ifs
  all_goals refine Prod.ext rfl (Prod.ext ?_ (decide_eq_false ?_))
  · simp
  · omega
  · simp
  · omega

end

end Decode

/-! ## Encoding -/

section Encode

variable {a : BaseUint 8}

section

variable {nSize : ℕ} (hsize : nSize = (a.toNat.size + 7) / 8)

include hsize

/-- The word is made of the leading bytes, and has 24 bits. -/
theorem compactWord_spec :
    (a.compactWord nSize =
      if nSize ≤ 3 then a.toNat * 2 ^ (8 * (3 - nSize)) else a.toNat / 2 ^ (8 * (nSize - 3))) ∧
    a.compactWord nSize < 2 ^ 24 := by
  have hlt : a.toNat < 2 ^ (8 * nSize) :=
    (Nat.lt_size_self _).trans_le (Nat.pow_le_pow_right (by norm_num) (by omega))
  unfold compactWord
  split_ifs with hsmall
  · have hprod : a.toNat * 2 ^ (8 * (3 - nSize)) < 2 ^ 24 := by
      calc a.toNat * 2 ^ (8 * (3 - nSize)) < 2 ^ (8 * nSize) * 2 ^ (8 * (3 - nSize)) :=
            Nat.mul_lt_mul_of_pos_right hlt (by positivity)
        _ = 2 ^ 24 := by
          rw [← pow_add]
          congr 1
          omega
    have hlow : a.toNat < 2 ^ 64 := hlt.trans_le (Nat.pow_le_pow_right (by norm_num) (by omega))
    rw [getLow64_eq (by norm_num), Nat.mod_eq_of_lt hlow, Nat.mod_eq_of_lt (by omega)]
    exact ⟨rfl, hprod⟩
  · have hquot : a.toNat / 2 ^ (8 * (nSize - 3)) < 2 ^ 24 := by
      rw [Nat.div_lt_iff_lt_mul (by positivity), ← pow_add]
      exact hlt.trans_eq (by congr 1; omega)
    rw [getLow64_eq (by norm_num), toNat_shiftRight,
      Nat.mod_eq_of_lt (hquot.trans (by norm_num)), Nat.mod_eq_of_lt (hquot.trans (by norm_num))]
    exact ⟨rfl, hquot⟩

/-- The sign bit of the word is the highest bit of the leading byte. -/
theorem testBit_compactWord (hpos : 1 ≤ nSize) :
    (a.compactWord nSize).testBit 23 = true ↔ 2 ^ (8 * nSize - 1) ≤ a.toNat := by
  obtain ⟨hword, hlt⟩ := compactWord_spec hsize
  have hge : (a.compactWord nSize).testBit 23 = true ↔ 2 ^ 23 ≤ a.compactWord nSize := by
    rw [Nat.testBit_eq_decide_div_mod_eq, decide_eq_true_eq]
    omega
  rw [hge, hword]
  split_ifs with hsmall
  · have hpow : 2 ^ 23 = 2 ^ (8 * nSize - 1) * 2 ^ (8 * (3 - nSize)) := by
      rw [← pow_add]
      congr 1
      omega
    rw [hpow, Nat.mul_le_mul_right_iff (by positivity)]
  · rw [Nat.le_div_iff_mul_le (by positivity), ← pow_add,
      show 23 + 8 * (nSize - 3) = 8 * nSize - 1 by omega]

end

section

variable (ha : 1 ≤ a.toNat)

include ha

/-- The parts of a compact target : the whole number, scaled to three bytes, or its leading bytes. -/
theorem compactParts_spec :
    ∃ w n, a.compactParts = (w, n) ∧ w < 2 ^ 23 ∧
      (n ≤ 3 ∧ compactDrop a.toNat = 0 ∧ w = a.toNat * 2 ^ (8 * (3 - n)) ∨
        3 < n ∧ compactDrop a.toNat = n - 3 ∧ w = a.toNat / 2 ^ (8 * (n - 3))) ∧
      (n ≤ 32 ∨ n = 33 ∧ w ≤ 0xffff) := by
  generalize hsize : (a.toNat.size + 7) / 8 = nSize
  have hbits : a.toNat.size ≤ 256 := Nat.size_le.mpr a.toNat_lt
  have hpos : 1 ≤ nSize := by
    have : a.toNat.size ≠ 0 := fun h => by
      have := Nat.size_eq_zero.mp h
      omega
    omega
  obtain ⟨hword, hlt⟩ := compactWord_spec hsize.symm
  have htest := testBit_compactWord hsize.symm hpos
  unfold compactParts compactDrop
  rw [bits_eq, hsize]
  dsimp only
  by_cases hhigh : 2 ^ (8 * nSize - 1) ≤ a.toNat
  · rw [if_pos (htest.mpr hhigh), if_pos hhigh]
    refine ⟨_, _, rfl, by omega, ?_, by omega⟩
    rcases Nat.lt_or_ge nSize 3 with hsmall | hlarge
    · refine Or.inl ⟨by omega, by omega, ?_⟩
      rw [hword, if_pos hsmall.le, show 8 * (3 - nSize) = 8 * (3 - (nSize + 1)) + 8 by omega, pow_add,
        ← mul_assoc, Nat.mul_div_cancel _ (by norm_num)]
    · refine Or.inr ⟨by omega, by omega, ?_⟩
      rw [hword]
      split_ifs with hthree
      · obtain rfl : nSize = 3 := le_antisymm hthree hlarge
        norm_num
      · rw [Nat.div_div_eq_div_mul, ← pow_add]
        congr 2
        omega
  · have hbit : ¬(a.compactWord nSize).testBit 23 = true := fun h => hhigh (htest.mp h)
    rw [if_neg hbit, if_neg hhigh]
    refine ⟨_, _, rfl, ?_, ?_, by omega⟩
    · rw [Nat.testBit_eq_decide_div_mod_eq, decide_eq_true_eq] at hbit
      omega
    · rw [hword]
      split_ifs with hsmall
      · exact Or.inl ⟨hsmall, by omega, rfl⟩
      · exact Or.inr ⟨by omega, rfl, rfl⟩

/-- A target is decoded with all but its leading bytes cleared. -/
theorem setCompact_getCompact :
    ∃ nBits, a.getCompact false = .ok nBits ∧
      setCompact nBits = (compactTruncate a.toNat, false, false) := by
  obtain ⟨w, n, hparts, hw, hcases, hfits⟩ := compactParts_spec ha
  have hn : n < 256 := by omega
  rw [getCompact, hparts]
  dsimp only
  rw [require_pos hw, ok_bind, require_pos hn, ok_bind]
  refine ⟨_, rfl, ?_⟩
  rw [if_neg (by simp), add_zero, compactTruncate, setCompact_eq hw hfits]
  rcases hcases with ⟨hsmall, hdrop, hvalue⟩ | ⟨hlarge, hdrop, hvalue⟩
  · rw [if_pos hsmall, hdrop, hvalue, Nat.mul_div_cancel _ (by positivity)]
    simp
  · rw [if_neg (by omega), hdrop, hvalue,
      Nat.mod_eq_of_lt ((Nat.div_mul_le_self _ _).trans_lt a.toNat_lt)]

/-- The decoded target is at most the target, and reaches the same powers of two. -/
theorem compact_target_range :
    ∃ nBits target, a.getCompact false = .ok nBits ∧ setCompact nBits = (target, false, false) ∧
      target ≤ a.toNat ∧ ∀ m, 2 ^ m ≤ a.toNat → 2 ^ m ≤ target := by
  obtain ⟨nBits, hnBits, hdecode⟩ := setCompact_getCompact ha
  exact ⟨nBits, _, hnBits, hdecode, compactTruncate_le _, fun _ => two_pow_le_compactTruncate⟩

/-- The parts of a truncated number are those of the number. -/
theorem compactParts_congr {b : BaseUint 8} (hb : b.toNat = compactTruncate a.toNat) :
    b.compactParts = a.compactParts := by
  have hpos : 1 ≤ b.toNat := hb ▸ two_pow_le_compactTruncate (m := 0) ha
  have hdrop : compactDrop b.toNat = compactDrop a.toNat := by
    rw [hb, compactDrop_congr (size_compactTruncate _)]
  obtain ⟨w, n, hparts, -, hcases, -⟩ := compactParts_spec ha
  obtain ⟨w', n', hparts', -, hcases', -⟩ := compactParts_spec hpos
  by_cases hzero : compactDrop a.toNat = 0
  · have heq : b.toNat = a.toNat := by rw [hb, compactTruncate, hzero]; simp
    rw [toNat_injective heq]
  · obtain ⟨-, hn, hw⟩ := hcases.resolve_left fun h => hzero h.2.1
    obtain ⟨-, hn', hw'⟩ := hcases'.resolve_left fun h => hzero (hdrop ▸ h.2.1)
    obtain rfl : n = n' := by omega
    have hquot := compactTruncate_idem a.toNat
    rw [hparts, hparts', hw, hw', ← hn, ← hquot, hb]

end

/-- Compact targets truncate monotonically. -/
theorem compact_target_truncates (a : BaseUint 8) (ha : 1 ≤ a.toNat) :
    ∃ nBits, a.getCompact false = .ok nBits ∧ (setCompact nBits).2 = (false, false) ∧
      (setCompactWords nBits).toNat = compactTruncate a.toNat ∧
      1 ≤ (setCompactWords nBits).toNat ∧ (setCompactWords nBits).toNat ≤ a.toNat ∧
      (setCompactWords nBits).getCompact false = .ok nBits ∧
      ∀ b : BaseUint 8, a.toNat ≤ b.toNat → ∃ nBits', b.getCompact false = .ok nBits' ∧
        (setCompactWords nBits).toNat ≤ (setCompactWords nBits').toNat := by
  obtain ⟨nBits, hnBits, hdecode⟩ := setCompact_getCompact ha
  have hvalue : (setCompactWords nBits).toNat = compactTruncate a.toNat := by
    rw [toNat_setCompactWords, hdecode]
  refine ⟨nBits, hnBits, by rw [hdecode], hvalue, ?_, ?_, ?_, fun b hab => ?_⟩
  · rw [hvalue]
    exact two_pow_le_compactTruncate (m := 0) ha
  · rw [hvalue]
    exact compactTruncate_le _
  · rw [← hnBits, getCompact, compactParts_congr ha hvalue, getCompact]
  · obtain ⟨nBits', hnBits', hdecode'⟩ := setCompact_getCompact (ha.trans hab)
    refine ⟨nBits', hnBits', ?_⟩
    rw [hvalue, toNat_setCompactWords, hdecode']
    exact compactTruncate_mono hab

/-- The number of four bytes `0x12345678`, decoded from its three leading bytes. -/
theorem compact_target_truncates_four_bytes : ∃ nBits,
    (ofNat 8 0x12345678).getCompact false = .ok nBits ∧
      (setCompactWords nBits).toNat = 0x12345600 := by
  obtain ⟨nBits, hnBits, -, hvalue, -⟩ :=
    compact_target_truncates (.ofNat 8 0x12345678) (by decide)
  exact ⟨nBits, hnBits, hvalue.trans (by decide +kernel)⟩

end Encode

end RadiantCore
