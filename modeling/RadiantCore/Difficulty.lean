import RadiantCore.Asert
import RadiantCore.AsertAnchor
import RadiantCore.CompactTarget

/-!
# The difficulty rule

`GetNextWorkRequired` of `pow.cpp` gives the compact target that the block after a block must have.
On the main network the first blocks are retargeted every 2016 blocks by the time these took
(`CalculateNextClassicWorkRequired`). From the block at height 18206 on, the target is that of
ASERT : with this block as a fixed anchor and a half-life of two days, and from height 410000 on with
the block before it as the anchor and a half-life of twelve hours.

The function never aborts on a chain of accepted headers of the main network, and the target that it
asks for is between 1 and the limit (`next_work_mineable`). The anchors are in this range because
their headers passed `CheckProofOfWork`. For the first blocks the reason is that every retarget
divides the target by at most four, and that there are only nine of them (`ClassicBound`).
-/

namespace RadiantCore

/-! ## The rule -/

/-- `UintToArith256`. -/
def uintToArith256 (n : Uint256) : BaseUint 8 := .ofNat 8 n.toNat

/-- The target of `SetCompact`. -/
def compactTarget (nBits : UInt32) : BaseUint 8 := .ofNat 8 (setCompact nBits).1

section Rule

variable (params : PowParams) (nBits : CBlockIndex → UInt32)

/-- `DifficultyAdjustmentInterval`. -/
def PowParams.difficultyAdjustmentInterval : ℤ :=
  params.nPowTargetTimespan.tdiv params.nPowTargetSpacing

/-- The block has a time more than two spacings after the previous one. -/
def isLate (pindexPrev : CBlockIndex) (pblock : CBlockHeader) : Bool :=
  pblock.nTime.toNat > pindexPrev.nTime.toNat + 2 * params.nPowTargetSpacing

/-- `CalculateNextClassicWorkRequired`. -/
def calculateNextClassicWorkRequired (pindexLast : CBlockIndex) (nFirstBlockTime : ℤ) :
    Except Failure UInt32 := do
  if params.fPowNoRetargeting then return nBits pindexLast
  let nActualTimespan ← int64 (pindexLast.nTime.toNat - nFirstBlockTime)
  let nActualTimespan :=
    if nActualTimespan < params.nPowTargetTimespan.tdiv 4 then params.nPowTargetTimespan.tdiv 4
    else if nActualTimespan > params.nPowTargetTimespan * 4 then params.nPowTargetTimespan * 4
    else nActualTimespan
  let bnPowLimit := uintToArith256 params.powLimit
  let bnNew := (compactTarget (nBits pindexLast)).mulWord
    (UInt32.ofNat (toUnsignedInt nActualTimespan))
  match bnNew.div (.ofNat 8 (params.nPowTargetTimespan % 2 ^ 64).toNat) with
  | none => .error (.exception "Division by zero")
  | some bnNew =>
    (if bnNew.compareTo bnPowLimit = .gt then bnPowLimit else bnNew).getCompact false

/-- The loop of `GetNextClassicWorkRequired` on networks with blocks of minimal difficulty : the last
block that is not one of them. -/
def lastNonSpecial (nProofOfWorkLimit : UInt32) : CBlockIndex → CBlockIndex
  | pindex@(.genesis _ _) => pindex
  | pindex@(.next pprev _ _) =>
    if (pindex.nHeight : ℤ).tmod params.difficultyAdjustmentInterval ≠ 0 ∧
      nBits pindex = nProofOfWorkLimit then lastNonSpecial nProofOfWorkLimit pprev
    else pindex

/-- `GetNextClassicWorkRequired`. -/
def getNextClassicWorkRequired (pindexLast : CBlockIndex) (pblock : CBlockHeader) :
    Except Failure UInt32 := do
  let nProofOfWorkLimit ← (uintToArith256 params.powLimit).getCompact false
  let nextHeight ← signed 31 .overflow (pindexLast.nHeight + 1)
  if nextHeight.tmod params.difficultyAdjustmentInterval ≠ 0 then
    if params.fPowAllowMinDifficultyBlocks then
      if isLate params pindexLast pblock then return nProofOfWorkLimit
      else return nBits (lastNonSpecial params nBits nProofOfWorkLimit pindexLast)
    else return nBits pindexLast
  else
    let nHeightFirst := pindexLast.nHeight - (params.difficultyAdjustmentInterval - 1)
    require (nHeightFirst ≥ 0) (.abort "nHeightFirst >= 0")
    match ← pindexLast.getAncestorWalk nHeightFirst with
    | none => .error (.abort "pindexFirst")
    | some pindexFirst =>
      calculateNextClassicWorkRequired params nBits pindexLast pindexFirst.nTime.toNat

/-- A block as an anchor. The time is that of the previous block, or its own if it is the first. -/
def anchorOf (pindex : CBlockIndex) : ASERTAnchor :=
  ⟨pindex.nHeight, nBits pindex, ((pindex.pprev?.getD pindex).nTime.toNat : ℤ)⟩

/-- The anchor and the half-life in `GetNextASERTWorkRequired`. -/
def effectiveAnchor (pindexPrev : CBlockIndex) (anchorParams : ASERTAnchor) :
    Except Failure (ASERTAnchor × ℤ) := do
  let nextHeight ← signed 31 .overflow (pindexPrev.nHeight + 1)
  if params.asertHalfLifeUpgradeHeight > 0 ∧ nextHeight ≥ params.asertHalfLifeUpgradeHeight then
    match ← pindexPrev.getAncestorWalk (params.asertHalfLifeUpgradeHeight - 1) with
    | some pindexAnchor =>
      if pindexAnchor.nHeight = params.asertHalfLifeUpgradeHeight - 1 then
        return (anchorOf nBits pindexAnchor, 12 * 60 * 60)
      else return (anchorParams, 12 * 60 * 60)
    | none => return (anchorParams, 12 * 60 * 60)
  else return (anchorParams, params.nASERTHalfLife)

/-- `GetNextASERTWorkRequired`, with an anchor. -/
def getNextASERTWorkRequired (pindexPrev : CBlockIndex) (pblock : CBlockHeader)
    (anchorParams : ASERTAnchor) : Except Failure UInt32 := do
  require (pindexPrev.nHeight ≥ anchorParams.nHeight)
    (.abort "pindexPrev->nHeight >= anchorParams.nHeight")
  if params.fPowAllowMinDifficultyBlocks ∧ isLate params pindexPrev pblock then
    (uintToArith256 params.powLimit).getCompact false
  else
    let (anchor, halfLife) ← effectiveAnchor params nBits pindexPrev anchorParams
    require pindexPrev.pprev?.isSome (.abort "pindexPrev->pprev != nullptr")
    let nTimeDiff ← int64 (pindexPrev.nTime.toNat - anchor.nPrevBlockTime)
    let nHeightDiff ← signed 31 .overflow (pindexPrev.nHeight - anchor.nHeight)
    let nextTarget ← calculateASERT (compactTarget anchor.nBits) params.nPowTargetSpacing nTimeDiff
      nHeightDiff (uintToArith256 params.powLimit) halfLife
    nextTarget.getCompact false

/-- `GetNextWorkRequired`, with the cached anchor. -/
def getNextWorkRequired (cachedAnchor : Option CBlockIndex) (pindexPrev : CBlockIndex)
    (pblock : CBlockHeader) : Except Failure (UInt32 × Option CBlockIndex) :=
  if params.fPowNoRetargeting then .ok (nBits pindexPrev, cachedAnchor)
  else if isASERTEnabled params pindexPrev then
    match params.asertAnchorParams with
    | some anchorParams => do
      let bits ← getNextASERTWorkRequired params nBits pindexPrev pblock anchorParams
      return (bits, cachedAnchor)
    | none => do
      let (panchorBlock, cachedAnchor) ← getASERTAnchorBlock params cachedAnchor pindexPrev
      let bits ← getNextASERTWorkRequired params nBits pindexPrev pblock
        (anchorOf nBits panchorBlock)
      return (bits, cachedAnchor)
  else do
    let bits ← getNextClassicWorkRequired params nBits pindexPrev pblock
    return (bits, cachedAnchor)

end Rule

/-- The parameters of the main network. -/
def mainPow : PowParams where
  powLimit := mainParams.powLimit
  nPowTargetTimespan := 7 * 24 * 60 * 60
  nPowTargetSpacing := 5 * 60
  fPowAllowMinDifficultyBlocks := false
  fPowNoRetargeting := false
  nASERTHalfLife := 2 * 24 * 60 * 60
  asertHalfLifeUpgradeHeight := 410000
  asertActivationTime := 1657404000
  asertAnchorParams := some ⟨18206, 0x1b03a760, 1657404650⟩

/-! ## Chains of headers -/

section Chain

variable [Crypto]

/-- The checks on the bits, the times and the work of a header that is added to a block. -/
structure HeaderAccepted (nBits : CBlockIndex → UInt32) (pindexPrev : CBlockIndex)
    (header : CBlockHeader) : Prop where
  bits : ∃ cached cached',
    getNextWorkRequired mainPow nBits cached pindexPrev header = .ok (header.nBits, cached')
  old : pindexPrev.getMedianTimePast < header.nTime.toNat
  new : ∃ nAdjustedTime : ℤ, header.nTime.toNat ≤ nAdjustedTime + 2 * 60 * 60
  work : checkProofOfWork header.getHash header.nBits mainParams = true

/-- The chains of accepted headers of the main network, where `nBits` gives the member of each
block. -/
inductive HeaderChain (nBits : CBlockIndex → UInt32) : CBlockIndex → Prop
  | genesis :
      nBits (.genesis mainParams.hashGenesisBlock 1655692970) = 0x1d00ffff →
      HeaderChain nBits (.genesis mainParams.hashGenesisBlock 1655692970)
  | next {pprev : CBlockIndex} (header : CBlockHeader) : HeaderChain nBits pprev →
      nBits (.next pprev header.getHash header.nTime) = header.nBits →
      HeaderAccepted nBits pprev header →
      HeaderChain nBits (.next pprev header.getHash header.nTime)

end Chain

/-! ## Targets in range -/

theorem powLimit_toNat : mainParams.powLimit.toNat = 2 ^ 224 - 1 := by decide +kernel

theorem uintToArith256_powLimit : (uintToArith256 mainPow.powLimit).toNat = 2 ^ 224 - 1 := by
  change (BaseUint.ofNat 8 mainParams.powLimit.toNat).toNat = _
  rw [powLimit_toNat, BaseUint.toNat_ofNat, Nat.mod_eq_of_lt (by norm_num)]

/-- The bits are decoded without sign or overflow, to a target of at least `least` and at most the
limit. -/
def TargetFrom (least : ℕ) (bits : UInt32) : Prop :=
  ∃ target, setCompact bits = (target, false, false) ∧ least ≤ target ∧
    target ≤ mainParams.powLimit.toNat

theorem TargetFrom.compactTarget {least : ℕ} {bits : UInt32} (h : TargetFrom least bits) :
    least ≤ (compactTarget bits).toNat ∧ (compactTarget bits).toNat ≤ 2 ^ 224 - 1 := by
  obtain ⟨target, hdecode, hleast, hlimit⟩ := h
  rw [powLimit_toNat] at hlimit
  rw [RadiantCore.compactTarget, hdecode, BaseUint.toNat_ofNat,
    Nat.mod_eq_of_lt (lt_of_le_of_lt hlimit (by norm_num))]
  exact ⟨hleast, hlimit⟩

/-- Encoding keeps a target in range, above a power of two. -/
theorem getCompact_targetFrom {a : BaseUint 8} {m : ℕ} (hleast : 2 ^ m ≤ a.toNat)
    (hlimit : a.toNat ≤ 2 ^ 224 - 1) :
    ∃ bits, a.getCompact false = .ok bits ∧ TargetFrom (2 ^ m) bits := by
  obtain ⟨bits, target, hbits, hdecode, hle, hpow⟩ :=
    compact_target_range (le_trans Nat.one_le_two_pow hleast)
  refine ⟨bits, hbits, target, hdecode, hpow m hleast, ?_⟩
  rw [powLimit_toNat]
  exact hle.trans hlimit

theorem targetFrom_of_checkProofOfWork {hash : Uint256} {bits : UInt32}
    (h : checkProofOfWork hash bits mainParams = true) : TargetFrom 1 bits := by
  unfold checkProofOfWork at h
  generalize hdecode : setCompact bits = decoded at h
  obtain ⟨target, fNegative, fOverflow⟩ := decoded
  simp only [Bool.and_eq_true, Bool.not_eq_true', decide_eq_true_eq] at h
  obtain ⟨⟨⟨⟨rfl, hne⟩, rfl⟩, hlimit⟩, -⟩ := h
  exact ⟨target, hdecode, Nat.one_le_iff_ne_zero.mpr hne, hlimit⟩

/-! ## The first blocks -/

theorem genesis_targetFrom : TargetFrom (2 ^ 223) 0x1d00ffff :=
  ⟨_, rfl, by decide +kernel, by decide +kernel⟩

section Classic

variable {nBits : CBlockIndex → UInt32} {tip : CBlockIndex}

/-- The least target that blocks at a height can have before ASERT. -/
def classicLeast (nHeight : ℕ) : ℕ := 2 ^ (223 - 2 * (nHeight / 2016))

/-- A retarget divides the target by at most four. -/
theorem retarget_targetFrom {m : ℕ} (hm : m ≤ 221) {target : BaseUint 8}
    (hleast : 2 ^ (m + 2) ≤ target.toNat) (hlimit : target.toNat ≤ 2 ^ 224 - 1) {timespan : ℤ}
    (hlow : 151200 ≤ timespan) (hhigh : timespan ≤ 2419200) :
    ∃ q, (target.mulWord (UInt32.ofNat (toUnsignedInt timespan))).div (.ofNat 8 604800) = some q ∧
      ∃ bits, (if q.compareTo (uintToArith256 mainPow.powLimit) = .gt
        then uintToArith256 mainPow.powLimit else q).getCompact false = .ok bits ∧
        TargetFrom (2 ^ m) bits := by
  have hword : (UInt32.ofNat (toUnsignedInt timespan)).toNat = timespan.toNat := by
    rw [toUnsignedInt_of_range (by omega) (by omega)]
    exact UInt32.toNat_ofNat_of_lt' (by show _ < 2 ^ 32; omega)
  have hproduct : (target.mulWord (UInt32.ofNat (toUnsignedInt timespan))).toNat =
      timespan.toNat * target.toNat := by
    rw [BaseUint.toNat_mulWord, hword, Nat.mod_eq_of_lt]
    calc timespan.toNat * target.toNat ≤ 2419200 * (2 ^ 224 - 1) :=
          Nat.mul_le_mul (by omega) hlimit
      _ < 2 ^ (32 * 8) := by norm_num
  have hdivisor : (BaseUint.ofNat 8 604800).toNat = 604800 := by
    rw [BaseUint.toNat_ofNat, Nat.mod_eq_of_lt (by norm_num)]
  obtain ⟨q, hq, hvalue⟩ := @BaseUint.toNat_div 8
    (target.mulWord (UInt32.ofNat (toUnsignedInt timespan))) (.ofNat 8 604800)
    (by rw [hdivisor]; norm_num)
  have hge : 2 ^ m ≤ q.toNat := by
    rw [hvalue, hproduct, hdivisor, Nat.le_div_iff_mul_le (by norm_num)]
    calc 2 ^ m * 604800 = 151200 * 2 ^ (m + 2) := by ring
      _ ≤ timespan.toNat * target.toNat := Nat.mul_le_mul (by omega) hleast
  have hpow : 2 ^ m ≤ 2 ^ 224 - 1 := by
    have : 2 ^ m ≤ 2 ^ 221 := Nat.pow_le_pow_right (by norm_num) hm
    omega
  refine ⟨q, hq, getCompact_targetFrom ?_ ?_⟩
  · split_ifs
    · rw [uintToArith256_powLimit]
      exact hpow
    · exact hge
  · split_ifs with hgt
    · rw [uintToArith256_powLimit]
    · rw [BaseUint.compareTo_eq, Nat.compare_eq_gt, uintToArith256_powLimit] at hgt
      omega

theorem calculateNextClassicWorkRequired_targetFrom {nFirstBlockTime : ℕ}
    (htime : nFirstBlockTime < 2 ^ 32) {m : ℕ} (hm : m ≤ 221)
    (h : TargetFrom (2 ^ (m + 2)) (nBits tip)) :
    ∃ bits, calculateNextClassicWorkRequired mainPow nBits tip nFirstBlockTime = .ok bits ∧
      TargetFrom (2 ^ m) bits := by
  have hlast := tip.nTime.toNat_lt
  have htimespan : mainPow.nPowTargetTimespan = 604800 := by decide
  obtain ⟨hleast, hlimit⟩ := h.compactTarget
  rw [calculateNextClassicWorkRequired, if_neg (by decide), htimespan, int64,
    signed_of_range ⟨by omega, by omega⟩, ok_bind]
  dsimp only
  generalize hclamp : (if (tip.nTime.toNat : ℤ) - nFirstBlockTime < Int.tdiv 604800 4 then
    Int.tdiv 604800 4 else if (tip.nTime.toNat : ℤ) - nFirstBlockTime > 604800 * 4 then 604800 * 4
    else (tip.nTime.toNat : ℤ) - nFirstBlockTime) = timespan
  have hquarter : Int.tdiv 604800 4 = 151200 := by decide
  rw [hquarter] at hclamp
  obtain ⟨q, hq, hbits⟩ := @retarget_targetFrom m hm _ hleast hlimit timespan
    (by split_ifs at hclamp <;> omega) (by split_ifs at hclamp <;> omega)
  have hdivisor : (604800 % 2 ^ 64 : ℤ).toNat = 604800 := by decide
  rw [hdivisor, hq]
  exact hbits

theorem getNextClassicWorkRequired_targetFrom (hheight : tip.nHeight < 18206)
    (h : TargetFrom (classicLeast tip.nHeight) (nBits tip)) (pblock : CBlockHeader) :
    ∃ bits, getNextClassicWorkRequired mainPow nBits tip pblock = .ok bits ∧
      TargetFrom (classicLeast (tip.nHeight + 1)) bits := by
  obtain ⟨limit, hlimit, -⟩ := @getCompact_targetFrom (uintToArith256 mainPow.powLimit) 223
    (by rw [uintToArith256_powLimit]; norm_num) uintToArith256_powLimit.le
  have hinterval : mainPow.difficultyAdjustmentInterval = 2016 := by decide
  rw [getNextClassicWorkRequired, hlimit, ok_bind, signed_of_range ⟨by omega, by omega⟩, ok_bind,
    hinterval, Int.tmod_eq_emod_of_nonneg (by omega)]
  split_ifs with hretarget hmin
  · cases hmin
  · cases hmin
  · refine ⟨_, rfl, ?_⟩
    rwa [classicLeast, show (tip.nHeight + 1) / 2016 = tip.nHeight / 2016 by omega]
  · obtain ⟨pindexFirst, hfirst, -, -⟩ := @CBlockIndex.getAncestor_eq tip (tip.nHeight - 2015)
      (by omega)
    have hwalk : tip.getAncestorWalk (tip.nHeight - (2016 - 1) : ℤ) = .ok (some pindexFirst) := by
      rw [CBlockIndex.getAncestorWalk_eq, CBlockIndex.getAncestorAt, if_neg (by omega),
        show ((tip.nHeight - (2016 - 1) : ℤ)).toNat = tip.nHeight - 2015 by omega, hfirst]
    dsimp only
    rw [require_pos (by omega), ok_bind, hwalk, ok_bind]
    have hdivide : tip.nHeight / 2016 + 1 = (tip.nHeight + 1) / 2016 := by omega
    rw [classicLeast, show 223 - 2 * (tip.nHeight / 2016) =
      223 - 2 * ((tip.nHeight + 1) / 2016) + 2 by omega] at h
    exact calculateNextClassicWorkRequired_targetFrom pindexFirst.nTime.toNat_lt (by omega) h

theorem getNextWorkRequired_classic (hheight : tip.nHeight < 18206) (cached : Option CBlockIndex)
    (pblock : CBlockHeader) : getNextWorkRequired mainPow nBits cached tip pblock = (do
      let bits ← getNextClassicWorkRequired mainPow nBits tip pblock
      return (bits, cached)) := by
  have hdisabled : ¬isASERTEnabled mainPow tip = true := by
    change ¬decide ((tip.nHeight : ℤ) ≥ 18206) = true
    rw [decide_eq_true_eq]
    omega
  rw [getNextWorkRequired, if_neg (by decide), if_neg hdisabled]

end Classic

/-! ## The blocks under ASERT -/

section ASERT

variable {nBits : CBlockIndex → UInt32} {tip : CBlockIndex}

/-- The fixed anchor, or the block before the upgrade with the new half-life. -/
theorem effectiveAnchor_spec (hstart : 18206 ≤ tip.nHeight) (hheight : tip.nHeight < 2 ^ 31 - 1)
    (hbits : ∀ pa : CBlockIndex, pa.IsAncestor tip → TargetFrom 1 (nBits pa)) :
    ∃ anchor halfLife, effectiveAnchor mainPow nBits tip ⟨18206, 0x1b03a760, 1657404650⟩ =
        .ok (anchor, halfLife) ∧
      TargetFrom 1 anchor.nBits ∧ (0 ≤ anchor.nHeight ∧ anchor.nHeight ≤ tip.nHeight) ∧
      (0 ≤ anchor.nPrevBlockTime ∧ anchor.nPrevBlockTime < 2 ^ 32) ∧
      (halfLife = 3600 ∨ halfLife = 43200 ∨ halfLife = 172800) := by
  have hfixed : TargetFrom 1 0x1b03a760 := ⟨_, rfl, by decide +kernel, by decide +kernel⟩
  have hupgrade : mainPow.asertHalfLifeUpgradeHeight = 410000 := rfl
  have hcast : (18206 : ℤ) ≤ tip.nHeight := by exact_mod_cast hstart
  rw [effectiveAnchor, signed_of_range ⟨by omega, by omega⟩, ok_bind, hupgrade]
  split_ifs with hnew
  · obtain ⟨pa, hpa, hanc, hpaHeight⟩ := @CBlockIndex.getAncestor_eq tip 409999 (by omega)
    have hwalk : tip.getAncestorWalk (410000 - 1) = .ok (some pa) := by
      rw [CBlockIndex.getAncestorWalk_eq, CBlockIndex.getAncestorAt, if_neg (by norm_num)]
      exact congrArg Except.ok hpa
    have htime := ((pa.pprev?.getD pa).nTime).toNat_lt
    rw [hwalk, ok_bind]
    dsimp only
    rw [if_pos (by omega)]
    refine ⟨_, _, rfl, hbits pa hanc, ?_, ?_, Or.inr (Or.inl rfl)⟩
    · exact ⟨by dsimp only [anchorOf]; omega, by dsimp only [anchorOf]; omega⟩
    · exact ⟨by dsimp only [anchorOf]; omega, by dsimp only [anchorOf]; omega⟩
  · exact ⟨_, _, rfl, hfixed, ⟨by norm_num, hcast⟩, ⟨by norm_num, by norm_num⟩, Or.inr (Or.inr rfl)⟩

theorem getNextASERTWorkRequired_targetFrom (hstart : 18206 ≤ tip.nHeight)
    (hheight : tip.nHeight < 2 ^ 31 - 1)
    (hbits : ∀ pa : CBlockIndex, pa.IsAncestor tip → TargetFrom 1 (nBits pa))
    (pblock : CBlockHeader) :
    ∃ bits, getNextASERTWorkRequired mainPow nBits tip pblock ⟨18206, 0x1b03a760, 1657404650⟩ =
      .ok bits ∧ TargetFrom 1 bits := by
  obtain ⟨anchor, halfLife, heffective, htarget, hanchor, htime, hhalf⟩ :=
    effectiveAnchor_spec hstart hheight hbits
  obtain ⟨hleast, hlimit⟩ := htarget.compactTarget
  have htip := tip.nTime.toNat_lt
  have hprev : tip.pprev?.isSome = true := by
    cases tip with
    | genesis => simp [CBlockIndex.nHeight] at hstart
    | next => rfl
  have hspacing : mainPow.nPowTargetSpacing = 300 := by decide
  have hcast : (18206 : ℤ) ≤ tip.nHeight := by exact_mod_cast hstart
  obtain ⟨target, hasert, hvalue⟩ := @calculateASERT_eq (tip.nTime.toNat - anchor.nPrevBlockTime)
    (tip.nHeight - anchor.nHeight) halfLife (compactTarget anchor.nBits)
    (uintToArith256 mainPow.powLimit) (by rw [uintToArith256_powLimit]; norm_num) hleast
    (by rw [uintToArith256_powLimit]; exact hlimit) (abs_lt.mpr ⟨by omega, by omega⟩) (by omega)
    (by omega) hhalf
  have hrange : 1 ≤ target.toNat ∧ target.toNat ≤ 2 ^ 224 - 1 := by
    rw [hvalue, asertTarget, uintToArith256_powLimit]
    omega
  obtain ⟨bits, hcompact, hfrom⟩ := @getCompact_targetFrom target 0 hrange.1 hrange.2
  refine ⟨bits, ?_, hfrom⟩
  have hmin : ¬(mainPow.fPowAllowMinDifficultyBlocks = true ∧ isLate mainPow tip pblock = true) :=
    fun h => absurd h.1 (by decide)
  rw [getNextASERTWorkRequired, require_pos hcast, ok_bind, if_neg hmin, heffective, ok_bind]
  dsimp only
  rw [require_pos hprev, ok_bind, int64, signed_of_range ⟨by omega, by omega⟩, ok_bind,
    signed_of_range ⟨by omega, by omega⟩, ok_bind, hspacing, hasert, ok_bind, hcompact]

end ASERT

/-! ## Chains -/

section Chain

variable [Crypto] {nBits : CBlockIndex → UInt32} {tip pa : CBlockIndex}

/-- The targets of all blocks of a chain are in range. -/
theorem HeaderChain.targetFrom_one (h : HeaderChain nBits tip) (hanc : pa.IsAncestor tip) :
    TargetFrom 1 (nBits pa) := by
  induction h with
  | genesis hbits =>
    cases hanc
    obtain ⟨target, hdecode, hleast, hlimit⟩ := genesis_targetFrom
    rw [hbits]
    exact ⟨target, hdecode, le_trans Nat.one_le_two_pow hleast, hlimit⟩
  | next header _ hbits haccepted ih =>
    cases hanc with
    | refl =>
      rw [hbits]
      exact targetFrom_of_checkProofOfWork haccepted.work
    | step hanc => exact ih hanc

/-- Before ASERT the targets do not fall below the bound. -/
theorem HeaderChain.classicBound (h : HeaderChain nBits tip) (hheight : tip.nHeight ≤ 18206) :
    TargetFrom (classicLeast tip.nHeight) (nBits tip) := by
  induction h with
  | genesis hbits =>
    rw [hbits]
    exact genesis_targetFrom
  | @next pprev header _ hbits haccepted ih =>
    rw [CBlockIndex.nHeight] at hheight ⊢
    obtain ⟨cached, cached', hrequired⟩ := haccepted.bits
    obtain ⟨bits, hclassic, hfrom⟩ :=
      getNextClassicWorkRequired_targetFrom (by omega) (ih (by omega)) header
    rw [getNextWorkRequired_classic (by omega), hclassic, ok_bind] at hrequired
    rw [hbits, ← (Prod.mk.inj (Except.ok.inj hrequired)).1]
    exact hfrom

end Chain

/-- On a chain of accepted headers of the main network the rule does not abort, and asks for a target
between 1 and the limit. -/
theorem next_work_mineable [Crypto] (nBits : CBlockIndex → UInt32) (tip : CBlockIndex)
    (h : HeaderChain nBits tip) (hheight : tip.nHeight < 2 ^ 31 - 1) (cached : Option CBlockIndex)
    (pblock : CBlockHeader) :
    ∃ bits target, getNextWorkRequired mainPow nBits cached tip pblock = .ok (bits, cached) ∧
      setCompact bits = (target, false, false) ∧ 1 ≤ target ∧
      target ≤ mainParams.powLimit.toNat := by
  rcases Nat.lt_or_ge tip.nHeight 18206 with hclassic | hasert
  · obtain ⟨bits, hbits, target, hdecode, hleast, hlimit⟩ :=
      getNextClassicWorkRequired_targetFrom hclassic (h.classicBound hclassic.le) pblock
    refine ⟨bits, target, ?_, hdecode, le_trans Nat.one_le_two_pow hleast, hlimit⟩
    rw [getNextWorkRequired_classic hclassic, hbits]
    rfl
  · obtain ⟨bits, hbits, target, hdecode, hleast, hlimit⟩ :=
      getNextASERTWorkRequired_targetFrom hasert hheight (fun pa => h.targetFrom_one) pblock
    have henabled : isASERTEnabled mainPow tip = true := by
      change decide ((tip.nHeight : ℤ) ≥ 18206) = true
      exact decide_eq_true (by exact_mod_cast hasert)
    refine ⟨bits, target, ?_, hdecode, hleast, hlimit⟩
    rw [getNextWorkRequired, if_neg (by decide), if_pos henabled]
    change (do
      let bits ← getNextASERTWorkRequired mainPow nBits tip pblock ⟨18206, 0x1b03a760, 1657404650⟩
      return (bits, cached)) = _
    rw [hbits]
    rfl

section Sample

attribute [local instance] Crypto.toy

/-- The genesis block of the main network. -/
def mainGenesis : CBlockIndex := .genesis mainParams.hashGenesisBlock 1655692970

/-- A header on the genesis block. -/
def firstHeader : CBlockHeader :=
  ⟨1, mainParams.hashGenesisBlock, Blob.null, 1655693270, 0x1d00ffff, 0⟩

theorem firstHeader_accepted : HeaderAccepted (fun _ => 0x1d00ffff) mainGenesis firstHeader where
  bits := ⟨none, none, by decide +kernel⟩
  old := by decide +kernel
  new := ⟨1655693270, by decide⟩
  work := by decide +kernel

/-- The chain of the genesis block and one header. -/
theorem next_work_mineable_first :
    HeaderAccepted (fun _ => 0x1d00ffff) mainGenesis firstHeader ∧
    ∃ bits target, getNextWorkRequired mainPow (fun _ => 0x1d00ffff) none
        (.next mainGenesis firstHeader.getHash firstHeader.nTime) firstHeader = .ok (bits, none) ∧
      setCompact bits = (target, false, false) ∧ 1 ≤ target ∧
      target ≤ mainParams.powLimit.toNat :=
  ⟨firstHeader_accepted, next_work_mineable _ _
    (.next firstHeader (.genesis rfl) rfl firstHeader_accepted) (by decide) none firstHeader⟩

end Sample

end RadiantCore
