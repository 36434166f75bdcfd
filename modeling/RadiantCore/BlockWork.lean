import RadiantCore.ChainState
import RadiantCore.CompactTarget

/-!
# The work of blocks

`GetBlockProof` decodes the target of a block into words and divides by it. The quotient it wants is
that of `2 ^ 256`, which has no words, so it divides the complement of the target instead. No decoded
target is `2 ^ 256 - 1` (`setCompact_lt`), so the divisor is not zero, and the result is the quotient
all the same (`getBlockProofWords_eq`).
-/

namespace RadiantCore

/-- `operator~` of `base_uint`. -/
def BaseUint.complement {width : ℕ} (a : BaseUint width) : BaseUint width where
  pn := a.pn.map (~~~ ·)
  length_pn := by rw [List.length_map, a.length_pn]

theorem BaseUint.toNat_complement {width : ℕ} (a : BaseUint width) :
    a.complement.toNat = 2 ^ (32 * width) - 1 - a.toNat := by
  have h := wordsValue_complement a.pn
  rw [a.length_pn] at h
  change wordsValue (a.pn.map (~~~ ·)) = 2 ^ (32 * width) - 1 - wordsValue a.pn
  omega

/-- `GetBlockProof` in words, where a division by zero has no result. -/
def getBlockProofWords (nBits : UInt32) : Option (BaseUint 8) :=
  let bnTarget := setCompactWords nBits
  let (_, fNegative, fOverflow) := setCompact nBits
  if fNegative || fOverflow || bnTarget = .ofNat 8 0 then some (.ofNat 8 0)
  else (bnTarget.complement.div (bnTarget.add (.ofNat 8 1))).map fun q => q.add (.ofNat 8 1)

variable {nBits : UInt32} {t : ℕ}

/-- A decoded target is a short word, or a multiple of 256. -/
theorem setCompact_lt (nBits : UInt32) : (setCompact nBits).1 + 1 < 2 ^ 256 := by
  unfold setCompact
  dsimp only
  split_ifs with hsmall
  · have hle := Nat.div_le_self (nBits.toNat % 2 ^ 23) (2 ^ (8 * (3 - nBits.toNat / 2 ^ 24)))
    have hlt := Nat.mod_lt nBits.toNat (by norm_num : 0 < 2 ^ 23)
    generalize nBits.toNat % 2 ^ 23 / 2 ^ (8 * (3 - nBits.toNat / 2 ^ 24)) = x at *
    omega
  · have heven : 2 ∣ nBits.toNat % 2 ^ 23 * 2 ^ (8 * (nBits.toNat / 2 ^ 24 - 3)) :=
      (dvd_pow_self 2 (by omega)).mul_left _
    generalize nBits.toNat % 2 ^ 23 * 2 ^ (8 * (nBits.toNat / 2 ^ 24 - 3)) = x at heven ⊢
    omega

/-- The quotient that avoids `2 ^ 256`. -/
theorem complement_div_add_one (ht : t < 2 ^ 256) :
    (2 ^ 256 - 1 - t) / (t + 1) + 1 = 2 ^ 256 / (t + 1) := by
  rw [← Nat.add_div_right _ (Nat.succ_pos t)]
  congr 1
  omega

theorem getBlockProofWords_eq (h : setCompact nBits = (t, false, false)) (ht : t ≠ 0) :
    ∃ work, getBlockProofWords nBits = some work ∧ work.toNat = 2 ^ 256 / (t + 1) := by
  have hlt : t + 1 < 2 ^ 256 := by simpa [h] using setCompact_lt nBits
  have hvalue : (setCompactWords nBits).toNat = t := by rw [toNat_setCompactWords, h]
  have hne : setCompactWords nBits ≠ .ofNat 8 0 := fun heq => ht (by
    rw [← hvalue, heq, BaseUint.toNat_ofNat, Nat.zero_mod])
  have hsucc : ((setCompactWords nBits).add (.ofNat 8 1)).toNat = t + 1 := by
    rw [BaseUint.toNat_add, BaseUint.toNat_ofNat, hvalue]
    exact Nat.mod_eq_of_lt hlt
  obtain ⟨q, hdiv, hq⟩ := BaseUint.toNat_div (a := (setCompactWords nBits).complement)
    (b := (setCompactWords nBits).add (.ofNat 8 1)) (by omega)
  rw [BaseUint.toNat_complement, hvalue, hsucc] at hq
  have hquot : q.toNat + 1 = 2 ^ 256 / (t + 1) := hq ▸ complement_div_add_one (by omega)
  have hhalf : 2 ^ 256 / (t + 1) ≤ 2 ^ 256 / 2 := Nat.div_le_div_left (by omega) (by norm_num)
  refine ⟨q.add (.ofNat 8 1), ?_, ?_⟩
  · simp only [getBlockProofWords, h, Bool.or_self, Bool.false_or, decide_eq_true_eq, if_neg hne,
      hdiv, Option.map_some]
  · rw [BaseUint.toNat_add, BaseUint.toNat_ofNat, ← hquot]
    exact Nat.mod_eq_of_lt (by omega)

/-- The work of a block is the exact quotient, and a lower target has at least as much. -/
theorem block_work_exact {nBits : UInt32} {t : ℕ} (h : setCompact nBits = (t, false, false))
    (ht : t ≠ 0) :
    (∃ work, getBlockProofWords nBits = some work ∧ work.toNat = 2 ^ 256 / (t + 1)) ∧
    getBlockProof nBits = 2 ^ 256 / (t + 1) ∧
    ∀ nBits' t', setCompact nBits' = (t', false, false) → t' ≠ 0 → t' ≤ t →
      getBlockProof nBits ≤ getBlockProof nBits' := by
  have hvalue : ∀ {nBits t}, setCompact nBits = (t, false, false) → t ≠ 0 →
      getBlockProof nBits = 2 ^ 256 / (t + 1) := fun {nBits t} h ht => by
    have hlt : t + 1 < 2 ^ 256 := by simpa [h] using setCompact_lt nBits
    simp only [getBlockProof, h, Bool.or_self, Bool.false_or, decide_eq_true_eq, if_neg ht]
    exact complement_div_add_one (by omega)
  refine ⟨getBlockProofWords_eq h ht, hvalue h ht, fun nBits' t' h' ht' hle => ?_⟩
  rw [hvalue h ht, hvalue h' ht']
  exact Nat.div_le_div_left (by omega) (Nat.succ_pos t')

/-- The lowest difficulty of the main chain is about `2 ^ 32` hashes. -/
theorem block_work_exact_limit : getBlockProof 0x1d00ffff = 4295032833 :=
  (@block_work_exact 0x1d00ffff (0xffff * 2 ^ 208) (by decide +kernel) (by norm_num)).2.1.trans
    (by norm_num)

end RadiantCore
