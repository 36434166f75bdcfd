import RadiantCore.Interpreter

/-!
# The shift opcodes

`LShift` and `RShift` of `script/interpreter.cpp` walk over the bytes of a string and write
each one into two bytes of the result. `lShiftLoop` and `rShiftLoop` are those loops; the
opcodes are modelled with what the loops leave in each byte (`lShift` and `rShift`).

Read as a number with its first byte most significant, bit `j` of a byte string is the bit
`j % 8` of a byte (`testBit_readBE`). The bits of a shifted string are therefore found byte by
byte, from what the two masks keep of a byte.
-/

namespace RadiantCore

open Opcode List Option

/-! ## The bits of a byte string -/

theorem readBE_lt_two_pow (x : List UInt8) : readBE x < 2 ^ (8 * x.length) := by
  have h := readBE_lt x
  rwa [show 256 = 2 ^ 8 by rfl, ← pow_mul] at h

theorem readBE_writeBE_two_pow {k v : ℕ} (h : v < 2 ^ (8 * k)) : readBE (writeBE k v) = v :=
  readBE_writeBE (by rwa [show 256 = 2 ^ 8 by rfl, ← pow_mul])

theorem testBit_readLE (bs : List UInt8) (j : ℕ) :
    (readLE bs).testBit j = (bs.getD (j / 8) 0).toNat.testBit (j % 8) := by
  induction bs generalizing j with
  | nil => simp [readLE]
  | cons b bs ih =>
    rw [readLE, add_comm, show 256 = 2 ^ 8 by rfl, Nat.testBit_two_pow_mul_add _ b.toNat_lt]
    split_ifs with hj
    · rw [Nat.div_eq_of_lt hj, Nat.mod_eq_of_lt hj, getD_cons_zero]
    · obtain ⟨i, rfl⟩ := Nat.exists_eq_add_of_le (not_lt.mp hj)
      rw [ih, show 8 + i - 8 = i by omega, show (8 + i) / 8 = i / 8 + 1 by omega,
        show (8 + i) % 8 = i % 8 by omega, getD_cons_succ]

variable {x : List UInt8} {j : ℕ}

/-- A bit of a byte string is a bit of one of its bytes. -/
theorem testBit_readBE (hj : j / 8 < x.length) :
    (readBE x).testBit j = (x.getD (x.length - 1 - j / 8) 0).toNat.testBit (j % 8) := by
  rw [readBE, testBit_readLE]
  congr 2
  simp only [getD_eq_getElem?_getD]
  rw [getElem?_reverse hj]

theorem testBit_readBE_of_le (hj : x.length ≤ j / 8) :
    (readBE x).testBit j = false :=
  Nat.testBit_lt_two_pow
    ((readBE_lt_two_pow x).trans_le (Nat.pow_le_pow_right (by decide) (by omega)))

namespace StackOp

/-! ## The masks -/

/-- The distance a shift of a byte uses. -/
theorem shift_distance (k : ℕ) : (UInt8.ofNat k).toNat % 8 = k % 8 := by
  rw [UInt8.toNat_ofNat', Nat.mod_mod_of_dvd _ (by decide)]

variable {s i : ℕ}

theorem testBit_makeLShiftMask (hs : s < 8) (hi : i < 8) :
    (makeLShiftMask s).toNat.testBit i = decide (i + s < 8) ∧
      (~~~makeLShiftMask s).toNat.testBit i = decide (8 ≤ i + s) := by
  have h : ∀ s i : Fin 8, (makeLShiftMask s).toNat.testBit i = decide (i.val + s.val < 8) ∧
      (~~~makeLShiftMask s).toNat.testBit i = decide (8 ≤ i.val + s.val) := by decide
  exact h ⟨s, hs⟩ ⟨i, hi⟩

theorem testBit_makeRShiftMask (hs : s < 8) (hi : i < 8) :
    (makeRShiftMask s).toNat.testBit i = decide (s ≤ i) ∧
      (~~~makeRShiftMask s).toNat.testBit i = decide (i < s) := by
  have h : ∀ s i : Fin 8, (makeRShiftMask s).toNat.testBit i = decide (s.val ≤ i.val) ∧
      (~~~makeRShiftMask s).toNat.testBit i = decide (i.val < s.val) := by decide
  exact h ⟨s, hs⟩ ⟨i, hi⟩

variable {r : ℕ}

/-- The bits of a byte that stay in the byte they are shifted into, to the left. -/
theorem testBit_lShift_val (a : UInt8) (hs : s < 8) (hr : r < 8) :
    ((a &&& makeLShiftMask s) <<< UInt8.ofNat s).toNat.testBit r =
      (decide (s ≤ r) && a.toNat.testBit (r - s)) := by
  rw [UInt8.toNat_shiftLeft, shift_distance, Nat.mod_eq_of_lt hs,
    Nat.testBit_mod_two_pow, Nat.testBit_shiftLeft, UInt8.toNat_and, Nat.testBit_and,
    (testBit_makeLShiftMask hs (by omega : r - s < 8)).1]
  by_cases hle : s ≤ r
  · simp [hle, hr]
  · simp [hle]

/-- The bits of a byte that are carried into the byte before. -/
theorem testBit_lShift_carryval (a : UInt8) (hs : s < 8) (hr : r < 8) :
    ((a &&& ~~~makeLShiftMask s) >>> UInt8.ofNat (8 - s)).toNat.testBit r =
      (decide (r < s) && a.toNat.testBit (r + 8 - s)) := by
  rw [UInt8.toNat_shiftRight, shift_distance, Nat.testBit_shiftRight,
    UInt8.toNat_and, Nat.testBit_and]
  by_cases hlt : r < s
  · rw [Nat.mod_eq_of_lt (by omega), (testBit_makeLShiftMask hs (by omega)).2,
      show 8 - s + r = r + 8 - s by omega]
    simp [hlt, show 8 ≤ r + 8 - s + s by omega]
  · -- The bit is not in the byte, or, with no shift, not in the mask.
    rw [decide_eq_false hlt, Bool.false_and, Bool.and_eq_false_iff]
    rcases Nat.eq_zero_or_pos s with rfl | hpos
    · right
      rw [show (8 - 0) % 8 + r = r by omega, (testBit_makeLShiftMask hs hr).2]
      simpa using hr
    · left
      refine Nat.testBit_lt_two_pow (a.toNat_lt.trans_le ?_)
      exact Nat.pow_le_pow_right (by decide) (by omega : 8 ≤ (8 - s) % 8 + r)

/-- The bits of a byte that stay in the byte they are shifted into, to the right. -/
theorem testBit_rShift_val (a : UInt8) (hs : s < 8) :
    ((a &&& makeRShiftMask s) >>> UInt8.ofNat s).toNat.testBit r =
      (decide (r + s < 8) && a.toNat.testBit (r + s)) := by
  rw [UInt8.toNat_shiftRight, shift_distance, Nat.mod_eq_of_lt hs,
    Nat.testBit_shiftRight, UInt8.toNat_and, Nat.testBit_and, add_comm s r]
  by_cases hlt : r + s < 8
  · rw [(testBit_makeRShiftMask hs hlt).1]
    simp [hlt]
  · rw [Nat.testBit_lt_two_pow
      (a.toNat_lt.trans_le (Nat.pow_le_pow_right (by decide) (not_lt.mp hlt)))]
    simp

/-- The bits of a byte that are carried into the byte after. -/
theorem testBit_rShift_carryval (a : UInt8) (hs : s < 8) (hr : r < 8) :
    ((a &&& ~~~makeRShiftMask s) <<< UInt8.ofNat (8 - s)).toNat.testBit r =
      (decide (8 ≤ r + s) && a.toNat.testBit (r + s - 8)) := by
  rw [UInt8.toNat_shiftLeft, shift_distance, Nat.testBit_mod_two_pow,
    Nat.testBit_shiftLeft, UInt8.toNat_and, Nat.testBit_and,
    (testBit_makeRShiftMask hs (by omega : r - (8 - s) % 8 < 8)).2]
  by_cases hle : 8 ≤ r + s
  · rw [Nat.mod_eq_of_lt (by omega : 8 - s < 8), show r - (8 - s) = r + s - 8 by omega]
    simp [hle, hr, show 8 - s ≤ r by omega, show r + s - 8 < s by omega]
  · rcases Nat.eq_zero_or_pos s with rfl | hpos
    · simp [hr]
    · simp [hle, Nat.mod_eq_of_lt (by omega : 8 - s < 8), show ¬ 8 - s ≤ r by omega]

/-! ## The loops -/

/-- One iteration of the loop of `LShift`. -/
def lShiftByte (x : Valtype) (n : ℕ) (result : Valtype) (i : ℕ) : Valtype :=
  let bit_shift := n % 8
  let byte_shift := n / 8
  let mask := makeLShiftMask bit_shift
  let overflow_mask := ~~~mask
  let val := (x.getD i 0 &&& mask) <<< UInt8.ofNat bit_shift
  -- Without a shift of bits the source shifts by 8; the masked byte is zero then.
  let carryval := (x.getD i 0 &&& overflow_mask) >>> UInt8.ofNat (8 - bit_shift)
  let result := if byte_shift ≤ i then result.modify (i - byte_shift) (· ||| val) else result
  if byte_shift + 1 ≤ i then result.modify (i - byte_shift - 1) (· ||| carryval) else result

/-- The loop of `LShift` over the bytes below `i`, the last one first. -/
def lShiftFrom (x : Valtype) (n : ℕ) : ℕ → Valtype → Valtype
  | 0, result => result
  | i + 1, result => lShiftFrom x n i (lShiftByte x n result i)

/-- `LShift`. -/
def lShiftLoop (x : Valtype) (n : ℕ) : Valtype :=
  lShiftFrom x n x.length (replicate x.length 0)

/-- One iteration of the loop of `RShift`. -/
def rShiftByte (x : Valtype) (n : ℕ) (result : Valtype) (i : ℕ) : Valtype :=
  let bit_shift := n % 8
  let byte_shift := n / 8
  let mask := makeRShiftMask bit_shift
  let overflow_mask := ~~~mask
  let val := (x.getD i 0 &&& mask) >>> UInt8.ofNat bit_shift
  let carryval := (x.getD i 0 &&& overflow_mask) <<< UInt8.ofNat (8 - bit_shift)
  let k := i + byte_shift
  let result := if k < x.length then result.modify k (· ||| val) else result
  if k + 1 < x.length then result.modify (k + 1) (· ||| carryval) else result

/-- `RShift`. -/
def rShiftLoop (x : Valtype) (n : ℕ) : Valtype :=
  (range x.length).foldl (rShiftByte x n) (replicate x.length 0)

@[simp] theorem length_lShift (x : Valtype) (n : ℕ) : (lShift x n).length = x.length := by
  simp [lShift]

@[simp] theorem length_rShift (x : Valtype) (n : ℕ) : (rShift x n).length = x.length := by
  simp [rShift]

/-- A guarded write of a loop, seen from one byte. -/
theorem getElem?_guarded_or (c : Prop) [Decidable c] (result : Valtype) (m k : ℕ) (v : UInt8) :
    (if c then result.modify m (· ||| v) else result)[k]? =
      result[k]?.map fun b => b ||| if c ∧ m = k then v else 0 := by
  split_ifs with hc hk hk
  · simp [hk.2]
  · have hne : ¬ m = k := fun h => hk ⟨hc, h⟩
    simp [hne]
  · exact absurd hk.1 hc
  · simp

theorem getElem?_lShiftByte (x : Valtype) (n : ℕ) (result : Valtype) (i k : ℕ) :
    (lShiftByte x n result i)[k]? = result[k]?.map fun b =>
      b ||| (if k + n / 8 = i then
          (x.getD i 0 &&& makeLShiftMask (n % 8)) <<< UInt8.ofNat (n % 8) else 0) |||
        (if k + 1 + n / 8 = i then
          (x.getD i 0 &&& ~~~makeLShiftMask (n % 8)) >>> UInt8.ofNat (8 - n % 8) else 0) := by
  have hval : n / 8 ≤ i ∧ i - n / 8 = k ↔ k + n / 8 = i := by omega
  have hcarry : n / 8 + 1 ≤ i ∧ i - n / 8 - 1 = k ↔ k + 1 + n / 8 = i := by omega
  simp only [lShiftByte, getElem?_guarded_or, Option.map_map, hval, hcarry]
  rfl

variable {x : Valtype} {k : ℕ}

theorem getElem?_rShiftByte {n : ℕ} {result : Valtype} (hk : k < x.length) :
    (rShiftByte x n result i)[k]? = result[k]?.map fun b =>
      b ||| (if i + n / 8 = k then
          (x.getD i 0 &&& makeRShiftMask (n % 8)) >>> UInt8.ofNat (n % 8) else 0) |||
        (if i + 1 + n / 8 = k then
          (x.getD i 0 &&& ~~~makeRShiftMask (n % 8)) <<< UInt8.ofNat (8 - n % 8) else 0) := by
  have hval : i + n / 8 < x.length ∧ i + n / 8 = k ↔ i + n / 8 = k := by omega
  have hcarry : i + n / 8 + 1 < x.length ∧ i + n / 8 + 1 = k ↔ i + 1 + n / 8 = k := by omega
  simp only [rShiftByte, getElem?_guarded_or, Option.map_map, hval, hcarry]
  rfl

theorem or_interleave (b p q p' q' : UInt8) :
    b ||| p ||| q ||| (p' ||| q') = b ||| (p ||| p' ||| (q ||| q')) := by
  ac_rfl

theorem or_interleave_right (p q p' q' : UInt8) :
    p' ||| q' ||| p ||| q = p ||| p' ||| (q ||| q') := by
  ac_rfl

/-- The iteration `i` of a loop that meets the index `c` once. -/
theorem or_lt_succ (f : ℕ → UInt8) (c i : ℕ) :
    (if c = i then f i else 0) ||| (if c < i then f c else 0) = if c < i + 1 then f c else 0 := by
  rcases lt_trichotomy c i with hlt | rfl | hgt
  · simp [hlt, hlt.ne, show c < i + 1 by omega]
  · simp
  · simp [hgt.ne', hgt.not_gt, show ¬ c < i + 1 by omega]

/-- What the iterations below `i` add to a byte. -/
theorem getElem?_lShiftFrom (x : Valtype) (n i : ℕ) (result : Valtype) (k : ℕ) :
    (lShiftFrom x n i result)[k]? = result[k]?.map fun b =>
      b ||| ((if k + n / 8 < i then
          (x.getD (k + n / 8) 0 &&& makeLShiftMask (n % 8)) <<< UInt8.ofNat (n % 8) else 0) |||
        (if k + 1 + n / 8 < i then
          (x.getD (k + 1 + n / 8) 0 &&& ~~~makeLShiftMask (n % 8)) >>> UInt8.ofNat (8 - n % 8)
        else 0)) := by
  induction i generalizing result with
  | zero => simp [lShiftFrom]
  | succ i ih =>
    rw [lShiftFrom, ih, getElem?_lShiftByte, Option.map_map,
      ← or_lt_succ (fun i => (x.getD i 0 &&& makeLShiftMask (n % 8)) <<< UInt8.ofNat (n % 8)),
      ← or_lt_succ (fun i => (x.getD i 0 &&& ~~~makeLShiftMask (n % 8)) >>>
        UInt8.ofNat (8 - n % 8))]
    congr 1
    funext b
    exact or_interleave b _ _ _ _

theorem or_offset_lt_succ (f : ℕ → UInt8) (d k i : ℕ) :
    (if i + d = k then f i else 0) ||| (if d ≤ k ∧ k - d < i then f (k - d) else 0) =
      if d ≤ k ∧ k - d < i + 1 then f (k - d) else 0 := by
  by_cases hd : d ≤ k
  · have h := or_lt_succ f (k - d) i
    simpa only [hd, true_and, show k - d = i ↔ i + d = k by omega] using h
  · simp [hd, show ¬ i + d = k by omega]

/-- What the first `i` iterations leave in a byte. -/
theorem getElem?_foldl_rShiftByte (n i : ℕ) (hk : k < x.length) :
    ((range i).foldl (rShiftByte x n) (replicate x.length 0))[k]? = some
      ((if n / 8 ≤ k ∧ k - n / 8 < i then
          (x.getD (k - n / 8) 0 &&& makeRShiftMask (n % 8)) >>> UInt8.ofNat (n % 8) else 0) |||
        (if 1 + n / 8 ≤ k ∧ k - (1 + n / 8) < i then
          (x.getD (k - (1 + n / 8)) 0 &&& ~~~makeRShiftMask (n % 8)) <<< UInt8.ofNat (8 - n % 8)
        else 0)) := by
  induction i with
  | zero => simp [hk]
  | succ i ih =>
    rw [range_succ, foldl_append, foldl_cons, foldl_nil,
      getElem?_rShiftByte hk, ih, map_some, add_assoc i,
      ← or_offset_lt_succ
        (fun i => (x.getD i 0 &&& makeRShiftMask (n % 8)) >>> UInt8.ofNat (n % 8)),
      ← or_offset_lt_succ (fun i => (x.getD i 0 &&& ~~~makeRShiftMask (n % 8)) <<<
        UInt8.ofNat (8 - n % 8))]
    exact congrArg some (or_interleave_right _ _ _ _)

/-- The loop of `LShift` leaves in each byte what `lShift` says. -/
theorem lShiftLoop_eq (x : Valtype) (n : ℕ) : lShiftLoop x n = lShift x n := by
  refine ext_getElem? fun k => ?_
  rw [lShiftLoop, getElem?_lShiftFrom, lShift, getElem?_map]
  by_cases hk : k < x.length
  · simp [hk]
  · simp [hk]

theorem length_rShiftByte (x : Valtype) (n : ℕ) (result : Valtype) (i : ℕ) :
    (rShiftByte x n result i).length = result.length := by
  simp only [rShiftByte]
  split_ifs <;> simp

theorem length_rShiftLoop (x : Valtype) (n : ℕ) : (rShiftLoop x n).length = x.length := by
  exact foldlRecOn (motive := fun result => result.length = x.length) _ _ length_replicate
    fun result h i _ => (length_rShiftByte x n result i).trans h

/-- The loop of `RShift` leaves in each byte what `rShift` says. -/
theorem rShiftLoop_eq (x : Valtype) (n : ℕ) : rShiftLoop x n = rShift x n := by
  refine ext_getElem? fun k => ?_
  by_cases hk : k < x.length
  · have hval : n / 8 ≤ k ∧ k - n / 8 < x.length ↔ n / 8 ≤ k := by omega
    have hcarry : 1 + n / 8 ≤ k ∧ k - (1 + n / 8) < x.length ↔ n / 8 + 1 ≤ k := by omega
    rw [rShiftLoop, getElem?_foldl_rShiftByte n x.length hk, rShift, getElem?_map,
      getElem?_range hk, map_some]
    simp only [hval, hcarry, Nat.sub_sub]
  · rw [getElem?_eq_none (by rw [length_rShiftLoop]; omega),
      getElem?_eq_none (by simpa using hk)]

/-! ## Shifts as arithmetic -/

theorem testBit_guarded (c : Prop) [Decidable c] (v : UInt8) (r : ℕ) :
    (if c then v else 0).toNat.testBit r = (decide c && v.toNat.testBit r) := by
  split_ifs with hc <;> simp [hc]

/-- A bit of a byte string, by the distance of its byte from the last one. -/
theorem testBit_readBE_eq {q : ℕ} (hr : r < 8) (hq : q < x.length) :
    (readBE x).testBit (8 * q + r) = (x.getD (x.length - 1 - q) 0).toNat.testBit r := by
  have hdiv : (8 * q + r) / 8 = q := by omega
  rw [testBit_readBE (by omega), hdiv, Nat.mul_add_mod, Nat.mod_eq_of_lt hr]

section

variable (x : Valtype)

/-- A shift to the left multiplies by a power of two and drops what does not fit. -/
theorem readBE_lShift (n : ℕ) : readBE (lShift x n) = readBE x * 2 ^ n % 2 ^ (8 * x.length) := by
  refine Nat.eq_of_testBit_eq fun j => ?_
  rw [Nat.testBit_mod_two_pow, Nat.testBit_mul_two_pow]
  by_cases hj : j / 8 < x.length
  swap
  · rw [testBit_readBE_of_le (by simpa using hj), decide_eq_false (by omega), Bool.false_and]
  have hs : n % 8 < 8 := Nat.mod_lt _ (by decide)
  have hr : j % 8 < 8 := Nat.mod_lt _ (by decide)
  have hk : x.length - 1 - j / 8 < x.length := by omega
  rw [testBit_readBE (by simpa using hj), length_lShift, decide_eq_true (by omega), Bool.true_and]
  simp only [lShift, getD_eq_getElem?_getD, getElem?_map, getElem?_range hk,
    map_some, getD_some, UInt8.toNat_or, Nat.testBit_or, testBit_guarded]
  simp only [← getD_eq_getElem?_getD, testBit_lShift_val _ hs hr,
    testBit_lShift_carryval _ hs hr]
  by_cases hle : n % 8 ≤ j % 8
  · -- The bit comes from the byte `n / 8` places further.
    rw [decide_eq_true hle, decide_eq_false (not_lt.mpr hle), Bool.true_and, Bool.false_and,
      Bool.and_false, Bool.or_false]
    by_cases hd : n / 8 ≤ j / 8
    · rw [show j - n = 8 * (j / 8 - n / 8) + (j % 8 - n % 8) by omega,
        testBit_readBE_eq (by omega) (by omega), decide_eq_true (by omega),
        decide_eq_true (by omega),
        show x.length - 1 - j / 8 + n / 8 = x.length - 1 - (j / 8 - n / 8) by omega]
    · rw [decide_eq_false (by omega), decide_eq_false (by omega), Bool.false_and, Bool.false_and]
  · -- The bit is carried from the byte after that one.
    rw [decide_eq_false hle, decide_eq_true (not_le.mp hle), Bool.true_and, Bool.false_and,
      Bool.and_false, Bool.false_or]
    by_cases hd : n / 8 + 1 ≤ j / 8
    · rw [show j - n = 8 * (j / 8 - n / 8 - 1) + (j % 8 + 8 - n % 8) by omega,
        testBit_readBE_eq (by omega) (by omega), decide_eq_true (by omega),
        decide_eq_true (by omega),
        show x.length - 1 - j / 8 + 1 + n / 8 = x.length - 1 - (j / 8 - n / 8 - 1) by omega]
    · rw [decide_eq_false (by omega), decide_eq_false (by omega), Bool.false_and, Bool.false_and]

/-- A shift to the right divides by a power of two. -/
theorem readBE_rShift (n : ℕ) : readBE (rShift x n) = readBE x / 2 ^ n := by
  refine Nat.eq_of_testBit_eq fun j => ?_
  rw [Nat.testBit_div_two_pow]
  by_cases hj : j / 8 < x.length
  swap
  · rw [testBit_readBE_of_le (by simpa using hj), testBit_readBE_of_le (by omega)]
  have hs : n % 8 < 8 := Nat.mod_lt _ (by decide)
  have hr : j % 8 < 8 := Nat.mod_lt _ (by decide)
  have hk : x.length - 1 - j / 8 < x.length := by omega
  rw [testBit_readBE (by simpa using hj), length_rShift]
  simp only [rShift, getD_eq_getElem?_getD, getElem?_map, getElem?_range hk,
    map_some, getD_some, UInt8.toNat_or, Nat.testBit_or, testBit_guarded]
  simp only [← getD_eq_getElem?_getD, testBit_rShift_val _ hs,
    testBit_rShift_carryval _ hs hr]
  by_cases hlt : j % 8 + n % 8 < 8
  · -- The bit comes from the byte `n / 8` places before.
    rw [decide_eq_true hlt, decide_eq_false (not_le.mpr hlt), Bool.true_and, Bool.false_and,
      Bool.and_false, Bool.or_false]
    by_cases hd : j / 8 + n / 8 < x.length
    · rw [show j + n = 8 * (j / 8 + n / 8) + (j % 8 + n % 8) by omega,
        testBit_readBE_eq hlt hd, decide_eq_true (by omega), Bool.true_and,
        show x.length - 1 - j / 8 - n / 8 = x.length - 1 - (j / 8 + n / 8) by omega]
    · rw [testBit_readBE_of_le (by omega), decide_eq_false (by omega), Bool.false_and]
  · -- The bit is carried from the byte before that one.
    rw [decide_eq_false hlt, decide_eq_true (not_lt.mp hlt), Bool.true_and, Bool.false_and,
      Bool.and_false, Bool.false_or]
    by_cases hd : j / 8 + n / 8 + 1 < x.length
    · rw [show j + n = 8 * (j / 8 + n / 8 + 1) + (j % 8 + n % 8 - 8) by omega,
        testBit_readBE_eq (by omega) hd, decide_eq_true (by omega), Bool.true_and,
        show x.length - 1 - j / 8 - 1 - n / 8 = x.length - 1 - (j / 8 + n / 8 + 1) by omega]
    · rw [testBit_readBE_of_le (by omega), decide_eq_false (by omega), Bool.false_and]

theorem lShiftLoop_eq_writeBE (n : ℕ) :
    lShiftLoop x n = writeBE x.length (readBE x * 2 ^ n % 2 ^ (8 * x.length)) := by
  rw [lShiftLoop_eq, eq_writeBE (readBE_lShift x n), length_lShift]

theorem rShiftLoop_eq_writeBE (n : ℕ) : rShiftLoop x n = writeBE x.length (readBE x / 2 ^ n) := by
  rw [rShiftLoop_eq, eq_writeBE (readBE_rShift x n), length_rShift]

theorem lShiftLoop_add (a b : ℕ) : lShiftLoop (lShiftLoop x a) b = lShiftLoop x (a + b) := by
  simp only [lShiftLoop_eq_writeBE, length_writeBE]
  rw [readBE_writeBE_two_pow (Nat.mod_lt _ (Nat.two_pow_pos _)), pow_add, ← mul_assoc, Nat.mod_mul_mod]

theorem rShiftLoop_add (a b : ℕ) : rShiftLoop (rShiftLoop x a) b = rShiftLoop x (a + b) := by
  have hlt : readBE x / 2 ^ a < 2 ^ (8 * x.length) :=
    (Nat.div_le_self _ _).trans_lt (readBE_lt_two_pow x)
  simp only [rShiftLoop_eq_writeBE, length_writeBE]
  rw [readBE_writeBE_two_pow hlt, pow_add, Nat.div_div_eq_div_mul]

end

theorem writeBE_zero (k : ℕ) : writeBE k 0 = replicate k 0 := by
  have h : writeLE k 0 = replicate k 0 := by
    induction k with
    | zero => rfl
    | succ k ih =>
      rw [writeLE, Nat.zero_div, ih, replicate_succ]
      rfl
  rw [writeBE, h, reverse_replicate]

theorem lShiftLoop_all (x : Valtype) :
    lShiftLoop x (8 * x.length) = replicate x.length 0 := by
  rw [lShiftLoop_eq_writeBE, Nat.mul_mod_left, writeBE_zero]

theorem rShiftLoop_all (x : Valtype) :
    rShiftLoop x (8 * x.length) = replicate x.length 0 := by
  rw [rShiftLoop_eq_writeBE, Nat.div_eq_of_lt (readBE_lt_two_pow x), writeBE_zero]

/-! ## The opcodes -/

/-- A shift opcode replaces a string and a number of bits in range by the shifted string. -/
theorem shift_eq_ok_iff {flags : UInt32} {f : Valtype → ℕ → Valtype} {vch : Valtype}
    {s stack' : Stack} :
    shift flags f (vch :: x :: s) = .ok stack' ↔
      ∃ n : ℕ, scriptNum flags vch = .ok n ∧ n ≤ 8 * x.length ∧ stack' = f x n :: s := by
  simp only [shift, bind_eq_ok_iff, exists_unit_iff, require_eq_ok_iff, pure_eq_ok_iff]
  constructor
  · rintro ⟨n, hn, ⟨hpos, hle⟩, rfl⟩
    obtain ⟨n, rfl⟩ := Int.eq_ofNat_of_zero_le hpos
    exact ⟨n, hn, by omega, rfl⟩
  · rintro ⟨n, hn, hle, rfl⟩
    exact ⟨n, hn, ⟨by omega, by omega⟩, rfl⟩

end StackOp

open StackOp

theorem onStack_shift_iff {flags : UInt32} {f : Valtype → ℕ → Valtype} {vch x : Valtype}
    {s : Stack} {st : EvalState} {progress : Progress} :
    st.onStack (shift flags f (vch :: x :: s)) = .ok progress ↔
      ∃ n : ℕ, scriptNum flags vch = .ok n ∧ n ≤ 8 * x.length ∧
        progress = .next { st with stack := f x n :: s } := by
  simp only [EvalState.onStack_eq_ok_iff, shift_eq_ok_iff]
  constructor
  · rintro ⟨_, ⟨n, hn, hle, rfl⟩, rfl⟩
    exact ⟨n, hn, hle, rfl⟩
  · rintro ⟨n, hn, hle, rfl⟩
    exact ⟨_, ⟨n, hn, hle, rfl⟩, rfl⟩

section

variable [Crypto]

theorem execOp_lShift (env : EvalEnv) (fExec : Bool) (op : ScriptOp) (st : EvalState) :
    execOp env fExec op OP_LSHIFT st = st.onStack (shift env.flags lShift st.stack) := rfl

theorem execOp_rShift (env : EvalEnv) (fExec : Bool) (op : ScriptOp) (st : EvalState) :
    execOp env fExec op OP_RSHIFT st = st.onStack (shift env.flags rShift st.stack) := rfl

/-- `LShift` and `RShift` are the shifts of bit strings, and the opcodes apply them : they keep the
length, shifts add up, and a shift by the whole length leaves zeros. -/
theorem shift_opcodes_spec (env : EvalEnv) (fExec : Bool) (op : ScriptOp) (st : EvalState)
    (x vch : Valtype) (s : Stack) :
    (∀ n, lShiftLoop x n = writeBE x.length (readBE x * 2 ^ n % 2 ^ (8 * x.length)) ∧
      rShiftLoop x n = writeBE x.length (readBE x / 2 ^ n)) ∧
    (∀ progress, execOp env fExec op OP_LSHIFT { st with stack := vch :: x :: s } = .ok progress ↔
      ∃ n : ℕ, scriptNum env.flags vch = .ok n ∧ n ≤ 8 * x.length ∧
        progress = .next { st with stack := lShiftLoop x n :: s }) ∧
    (∀ progress, execOp env fExec op OP_RSHIFT { st with stack := vch :: x :: s } = .ok progress ↔
      ∃ n : ℕ, scriptNum env.flags vch = .ok n ∧ n ≤ 8 * x.length ∧
        progress = .next { st with stack := rShiftLoop x n :: s }) ∧
    (∀ n, (lShiftLoop x n).length = x.length ∧ (rShiftLoop x n).length = x.length) ∧
    (∀ a b, lShiftLoop (lShiftLoop x a) b = lShiftLoop x (a + b) ∧
      rShiftLoop (rShiftLoop x a) b = rShiftLoop x (a + b)) ∧
    lShiftLoop x (8 * x.length) = replicate x.length 0 ∧
    rShiftLoop x (8 * x.length) = replicate x.length 0 := by
  refine ⟨fun n => ⟨lShiftLoop_eq_writeBE x n, rShiftLoop_eq_writeBE x n⟩, fun progress => ?_,
    fun progress => ?_, fun n => ?_, fun a b => ⟨lShiftLoop_add x a b, rShiftLoop_add x a b⟩,
    lShiftLoop_all x, rShiftLoop_all x⟩
  · rw [execOp_lShift, onStack_shift_iff]
    simp only [lShiftLoop_eq]
  · rw [execOp_rShift, onStack_shift_iff]
    simp only [rShiftLoop_eq]
  · rw [lShiftLoop_eq, rShiftLoop_eq, length_lShift, length_rShift]
    exact ⟨rfl, rfl⟩

/-- Shifts that cross a byte. -/
example : lShiftLoop [0x12, 0x34, 0x56] 4 = [0x23, 0x45, 0x60] ∧
    rShiftLoop [0x12, 0x34, 0x56] 12 = [0x00, 0x01, 0x23] := by decide

end

end RadiantCore
