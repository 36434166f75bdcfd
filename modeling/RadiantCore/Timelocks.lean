import Mathlib.Data.Nat.Bitwise
import RadiantCore.SignatureHash
import RadiantCore.TxVerify

/-!
# Time locks of scripts bind the chain

A script asks for a lock time or a sequence number of its input with `CheckLockTime` and
`CheckSequence` ; the block that holds the transaction was accepted by
`ContextualCheckTransaction` and `SequenceLocks`. Together they bind the height and the median
time of the chain (`timelocks_bind`).

The consensus checks keep the last height and time at which the transaction is not valid yet,
so what a script asks for is one more.
-/

namespace RadiantCore

section Timelocks

variable [Crypto]

/-! ## Absolute locks -/

variable {tx : CTransaction} {nLockTimeCutoff : ℤ} {nIn : Fin tx.vin.length}

/-- A final transaction whose input `nIn` is not final has an expired lock time, if it has one. -/
theorem lockTime_lt_of_isFinalTx
    {nHeight : ℤ} (hfinal : isFinalTx tx nHeight nLockTimeCutoff = true)
    (hsequence : (tx.vin.get nIn).nSequence ≠ sequenceFinal) :
    tx.nLockTime = 0 ∨ (tx.nLockTime.toNat : ℤ) <
      if (tx.nLockTime.toNat : ℤ) < locktimeThreshold then nHeight else nLockTimeCutoff := by
  simp only [isFinalTx, decide_eq_true_eq] at hfinal
  rcases hfinal with hzero | hlt | hall
  · exact .inl hzero
  · exact .inr hlt
  · exact absurd (hall _ (List.get_mem _ _)) hsequence

variable {n : ℤ}

/-- `CheckLockTime` in a transaction that is final at a height and time. -/
theorem lt_of_checkLockTime {nHeight : ℤ} (hheight : 1 ≤ nHeight) (hn : 0 ≤ n)
    (hfinal : isFinalTx tx nHeight nLockTimeCutoff = true)
    (hcheck : checkLockTime tx.toCMutableTransaction nIn n = true) :
    (n < locktimeThreshold → n < nHeight) ∧ (locktimeThreshold ≤ n → n < nLockTimeCutoff) := by
  simp only [checkLockTime, decide_eq_true_eq] at hcheck
  obtain ⟨htype, hle, hsequence⟩ := hcheck
  rcases lockTime_lt_of_isFinalTx hfinal hsequence with hzero | hlt
  · -- Without a lock time only the operand 0 passes.
    rw [hzero] at hle
    simp only [UInt32.toNat_zero, Nat.cast_zero] at hle
    unfold locktimeThreshold
    exact ⟨by omega, by omega⟩
  · split_ifs at hlt with hsmall
    · exact ⟨fun _ => by omega, fun hlarge => by omega⟩
    · exact ⟨fun hn' => by omega, fun _ => by omega⟩

/-! ## Sequence numbers

A sequence number with bit 31 clear holds a relative lock in its low 16 bits, a number of
blocks or, with bit 22, a time in units of 512 seconds. -/

omit [Crypto] in
/-- The mask of `CheckSequence` keeps bit 22 and the low 16 bits. -/
theorem and_lockTimeMask (a : ℕ) :
    a &&& 0x0040ffff = (a.testBit 22).toNat * 2 ^ 22 + a % 2 ^ 16 := by
  have hmask : (0x0040ffff : ℕ) = 2 ^ 22 ||| (2 ^ 16 - 1) := by decide
  have hlow : a % 2 ^ 16 < 2 ^ 22 := (Nat.mod_lt a (by decide)).trans (by decide)
  rw [hmask, Nat.and_or_distrib_left, Nat.and_two_pow_sub_one_eq_mod, Nat.and_two_pow]
  cases a.testBit 22 with
  | false => simp
  | true =>
    have hor := Nat.two_pow_add_eq_or_of_lt hlow 1
    rw [mul_one] at hor
    rw [Bool.toNat_true, one_mul, hor]

omit [Crypto] in
/-- Masked numbers of one type compare as their locks do. -/
theorem lock_le_of_masked {a b : ℕ}
    (htype : a &&& 0x0040ffff < 0x00400000 ∧ b &&& 0x0040ffff < 0x00400000 ∨
      0x00400000 ≤ a &&& 0x0040ffff ∧ 0x00400000 ≤ b &&& 0x0040ffff)
    (hle : b &&& 0x0040ffff ≤ a &&& 0x0040ffff) :
    a.testBit 22 = b.testBit 22 ∧ b % 2 ^ 16 ≤ a % 2 ^ 16 := by
  rw [and_lockTimeMask, and_lockTimeMask] at htype hle
  have ha := Nat.mod_lt a (show 0 < 2 ^ 16 by decide)
  have hb := Nat.mod_lt b (show 0 < 2 ^ 16 by decide)
  cases hbit : a.testBit 22 <;> cases hbit' : b.testBit 22 <;>
    simp only [hbit, hbit', Bool.toNat_false, Bool.toNat_true] at htype hle
  · exact ⟨rfl, by omega⟩
  · omega
  · omega
  · exact ⟨rfl, by omega⟩

omit [Crypto] in
theorem and_typeFlag_ne_zero_iff (x : UInt32) :
    x &&& sequenceLocktimeTypeFlag ≠ 0 ↔ x.toNat.testBit 22 = true := by
  rw [← UInt32.toNat_inj.ne, UInt32.toNat_and]
  change x.toNat &&& 2 ^ 22 ≠ 0 ↔ _
  rw [Nat.and_two_pow]
  cases x.toNat.testBit 22 <;> simp

omit [Crypto] in
theorem and_locktimeMask (x : UInt32) :
    (x &&& sequenceLocktimeMask).toNat = x.toNat % 2 ^ 16 := by
  rw [UInt32.toNat_and]
  exact Nat.and_two_pow_sub_one_eq_mod _ 16

/-- `CheckSequence` compares locks of one type. -/
theorem checkSequence_lock (hcheck : checkSequence tx.toCMutableTransaction nIn n = true) :
    2 ≤ tx.nVersion.toUInt32 ∧ (tx.vin.get nIn).nSequence &&& sequenceLocktimeDisableFlag = 0 ∧
      ((tx.vin.get nIn).nSequence &&& sequenceLocktimeTypeFlag ≠ 0 ↔ n.toNat.testBit 22 = true) ∧
      n.toNat % 2 ^ 16 ≤ ((tx.vin.get nIn).nSequence &&& sequenceLocktimeMask).toNat := by
  simp only [checkSequence, decide_eq_true_eq] at hcheck
  obtain ⟨hversion, hdisable, htype, hle⟩ := hcheck
  obtain ⟨hbit, hlock⟩ := lock_le_of_masked htype hle
  rw [and_typeFlag_ne_zero_iff, and_locktimeMask, hbit]
  exact ⟨hversion, hdisable, Iff.rfl, hlock⟩

/-- What an input asks of the pair of the last height and time that are not valid yet. -/
def InputLocked (block : CBlockIndex) (lockPair : ℤ × ℤ) (input : CTxIn × ℕ) : Prop :=
  let lock : ℤ := (input.1.nSequence &&& sequenceLocktimeMask).toNat
  input.1.nSequence &&& sequenceLocktimeDisableFlag = 0 →
    (¬ input.1.nSequence &&& sequenceLocktimeTypeFlag ≠ 0 → input.2 + lock - 1 ≤ lockPair.1) ∧
    (input.1.nSequence &&& sequenceLocktimeTypeFlag ≠ 0 →
      ∃ ancestor, block.getAncestor (input.2 - 1) = some ancestor ∧
        ancestor.getMedianTimePast + 512 * lock - 1 ≤ lockPair.2)

variable {block : CBlockIndex} {lockPair lockPair' : ℤ × ℤ} {input : CTxIn × ℕ}

omit [Crypto] in
/-- An input raises the pair to what it asks for. -/
theorem inputLocked_of_sequenceLock (h : sequenceLock block lockPair input = .ok lockPair') :
    lockPair ≤ lockPair' ∧ InputLocked block lockPair' input := by
  obtain ⟨nMinHeight, nMinTime⟩ := lockPair
  obtain ⟨txin, nCoinHeight⟩ := input
  simp only [sequenceLock] at h
  split_ifs at h with hdisable htype
  · cases h
    exact ⟨le_rfl, fun henabled => absurd henabled hdisable⟩
  · cases hancestor : block.getAncestor (nCoinHeight - 1) with
    | none => simp [hancestor] at h
    | some ancestor =>
      simp only [hancestor] at h
      cases h
      refine ⟨⟨le_rfl, le_max_left _ _⟩, fun _ => ⟨fun hheight => absurd htype hheight,
        fun _ => ⟨ancestor, hancestor, ?_⟩⟩⟩
      rw [show (512 : ℤ) = 2 ^ 9 by norm_num, mul_comm]
      exact le_max_right _ _
  · cases h
    exact ⟨⟨le_max_left _ _, le_rfl⟩, fun _ => ⟨fun _ => le_max_right _ _,
      fun htime => absurd htime htype⟩⟩

omit [Crypto] in
theorem InputLocked.mono (h : InputLocked block lockPair input) (hle : lockPair ≤ lockPair') :
    InputLocked block lockPair' input := by
  intro henabled
  obtain ⟨hheight, htime⟩ := h henabled
  refine ⟨fun htype => (hheight htype).trans hle.1, fun htype => ?_⟩
  obtain ⟨ancestor, hancestor, hle'⟩ := htime htype
  exact ⟨ancestor, hancestor, hle'.trans hle.2⟩

omit [Crypto] in
/-- The loop raises the pair to what all inputs ask for. -/
theorem inputLocked_of_foldlM {inputs : List (CTxIn × ℕ)}
    (h : inputs.foldlM (sequenceLock block) lockPair = .ok lockPair') :
    lockPair ≤ lockPair' ∧ ∀ input ∈ inputs, InputLocked block lockPair' input := by
  induction inputs generalizing lockPair with
  | nil =>
    rw [List.foldlM_nil, pure_eq_ok_iff] at h
    exact ⟨h.le, by simp⟩
  | cons input inputs ih =>
    rw [List.foldlM_cons, bind_eq_ok_iff] at h
    obtain ⟨mid, hmid, hrest⟩ := h
    obtain ⟨hle, hlocked⟩ := inputLocked_of_sequenceLock hmid
    obtain ⟨hle', hall⟩ := ih hrest
    exact ⟨hle.trans hle', List.forall_mem_cons.mpr ⟨hlocked.mono hle', hall⟩⟩

variable {flags : UInt32}

/-- `SequenceLocks` with `LOCKTIME_VERIFY_SEQUENCE` accepts what every input asks for. -/
theorem inputLocked_of_sequenceLocks {prevHeights : List ℕ} (hversion : 2 ≤ tx.nVersion.toUInt32)
    (hflags : flags &&& locktimeVerifySequence ≠ 0)
    (h : sequenceLocks tx flags prevHeights block = .ok true) :
    ∃ (pprev : CBlockIndex) (lockPair : ℤ × ℤ), block.pprev? = some pprev ∧
      lockPair.1 < block.nHeight ∧
      lockPair.2 < pprev.getMedianTimePast ∧
      ∀ input ∈ tx.vin.zip prevHeights, InputLocked block lockPair input := by
  simp only [sequenceLocks, calculateSequenceLocks, bind_eq_ok_iff, exists_unit_iff,
    require_eq_ok_iff, if_pos (And.intro hversion hflags)] at h
  obtain ⟨lockPair, ⟨-, hloop⟩, heval⟩ := h
  unfold evaluateSequenceLocks at heval
  cases hpprev : block.pprev? with
  | none => simp [hpprev] at heval
  | some pprev =>
    simp only [hpprev, Except.ok.injEq, Bool.and_eq_true, decide_eq_true_eq] at heval
    exact ⟨pprev, lockPair, rfl, heval.1, heval.2, (inputLocked_of_foldlM hloop).2⟩

/-- For a transaction accepted in a block, a lock time that a script checks has passed, and a
relative lock that it checks has passed since the block of the coin. The parent of that block is
at the height below the coin's. -/
theorem timelocks_bind (tx : CTransaction) (nIn : Fin tx.vin.length) (block : CBlockIndex)
    (nLockTimeCutoff : ℤ) (flags : UInt32) (prevHeights : List ℕ) (nCoinHeight : ℕ) (n : ℤ)
    (hheight : 1 ≤ block.nHeight) (hn : 0 ≤ n)
    (hcontextual : contextualCheckTransaction tx block.nHeight nLockTimeCutoff = .ok ())
    (hflags : flags &&& locktimeVerifySequence ≠ 0)
    (hlocks : sequenceLocks tx flags prevHeights block = .ok true)
    (hcoin : prevHeights[nIn.val]? = some nCoinHeight) :
    (checkLockTime tx.toCMutableTransaction nIn n = true →
      (n < locktimeThreshold → n < block.nHeight) ∧
        (locktimeThreshold ≤ n → n < nLockTimeCutoff)) ∧
    (checkSequence tx.toCMutableTransaction nIn n = true →
      (n.toNat.testBit 22 = false → nCoinHeight + n.toNat % 2 ^ 16 ≤ block.nHeight) ∧
        (n.toNat.testBit 22 = true → ∃ pprev ancestor, block.pprev? = some pprev ∧
          block.getAncestor (nCoinHeight - 1) = some ancestor ∧
          ancestor.getMedianTimePast + 512 * (n.toNat % 2 ^ 16 : ℕ) ≤ pprev.getMedianTimePast)) := by
  simp only [contextualCheckTransaction, bind_eq_ok_iff, exists_unit_iff, require_eq_ok_iff]
    at hcontextual
  constructor
  · exact lt_of_checkLockTime (by exact_mod_cast hheight) hn hcontextual.1
  · intro hcheck
    obtain ⟨hversion, hdisable, htype, hlock⟩ := checkSequence_lock hcheck
    obtain ⟨pprev, lockPair, hpprev, hbelow, htime, hall⟩ :=
      inputLocked_of_sequenceLocks hversion hflags hlocks
    have hmem : (tx.vin.get nIn, nCoinHeight) ∈ tx.vin.zip prevHeights := by
      refine List.mem_of_getElem? (i := nIn.val) ?_
      rw [List.getElem?_zip_eq_some]
      exact ⟨by simp, hcoin⟩
    obtain ⟨hblocks, htimes⟩ := hall _ hmem hdisable
    simp only at hblocks htimes
    constructor
    · intro hbit
      have hle := hblocks (by rw [htype, hbit]; decide)
      omega
    · intro hbit
      obtain ⟨ancestor, hancestor, hle⟩ := htimes (htype.mpr hbit)
      exact ⟨pprev, ancestor, hpprev, hancestor, by omega⟩

end Timelocks

section Sample

attribute [local instance] Crypto.toy

/-- A transaction that spends a coin after ten blocks and height 100. -/
def sampleLockedTx : CTransaction :=
  .ofLegacy ⟨[⟨⟨Blob.null, 0⟩, [], 10⟩], [⟨1, [0x51]⟩], 2, 100⟩ version_two
    one_lt_word

/-- A chain of `n` blocks after the genesis block. -/
def sampleChain : ℕ → CBlockIndex
  | 0 => .genesis Blob.null 0
  | n + 1 => .next (sampleChain n) Blob.null 0

theorem timelocks_bind_sample :
    100 < (sampleChain 105).nHeight ∧ 95 + 10 ≤ (sampleChain 105).nHeight := by
  have hbind := fun n hn => timelocks_bind sampleLockedTx ⟨0, by decide⟩ (sampleChain 105) 0 1 [95]
    95 n (by decide) hn (by decide +kernel) (by decide) (by decide +kernel) rfl
  have habsolute := ((hbind 100 (by decide)).1 (by decide +kernel)).1 (by decide)
  have hrelative := ((hbind 10 (by decide)).2 (by decide +kernel)).1 (by decide)
  exact ⟨by exact_mod_cast habsolute, hrelative⟩

end Sample

end RadiantCore
