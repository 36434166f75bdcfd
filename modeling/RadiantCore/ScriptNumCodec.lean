import RadiantCore.ScriptNum

/-!
# The encoding of script numbers

A byte string denotes a number by its sign bit, the most significant bit, and the bits below it
(`signMagnitude`). A nonempty string of length `n` is minimal when its magnitude `m` does not fit
into a byte less, `256 ^ (n - 1) ≤ 2 * m` (`Minimal`). With `2 * m < 256 ^ n` the magnitude
determines the length, so that a number has one minimal string (`Minimal.unique`).

`CScriptNum::serialize` and `CScriptNum::MinimallyEncode` return a minimal string of the right
number, and `CScriptNum::IsMinimallyEncoded` decides minimality. Everything else follows from
the uniqueness.
-/

namespace RadiantCore

open List Option

theorem readLE_append (a b : List UInt8) :
    readLE (a ++ b) = readLE a + 256 ^ a.length * readLE b := by
  induction a with
  | nil => simp [readLE]
  | cons x a ih =>
    rw [cons_append, readLE, ih, readLE, length_cons, pow_succ']
    ring

theorem readLE_concat (bs : List UInt8) (last : UInt8) :
    readLE (bs ++ [last]) = readLE bs + 256 ^ bs.length * last.toNat := by
  rw [readLE_append, readLE, readLE, mul_zero, add_zero]

namespace CScriptNum

/-! ## Signs and magnitudes -/

/-- The sign bit of a byte string. -/
def negative (vch : List UInt8) : Bool := (readLE vch).testBit (8 * vch.length - 1)

/-- The bits below the sign bit. -/
def magnitude (vch : List UInt8) : ℕ := readLE vch % 2 ^ (8 * vch.length - 1)

/-- The number a byte string of any length denotes. -/
def signMagnitude (vch : List UInt8) : ℤ :=
  if negative vch then -(magnitude vch : ℤ) else magnitude vch

/-- No shorter string has the same number. -/
def Minimal (vch : List UInt8) : Prop :=
  vch = [] ∨ 256 ^ (vch.length - 1) ≤ 2 * magnitude vch

/-- The bits of a byte, by the masks of the sign bit and of the bits below it. -/
theorem sign_mask (b : UInt8) :
    (b &&& 0x80 ≠ 0 ↔ 128 ≤ b.toNat) ∧ (b &&& 0x7f ≠ 0 ↔ b.toNat % 128 ≠ 0) ∧
      (b &&& 0x80 = if 128 ≤ b.toNat then 0x80 else 0) ∧
      (b &&& 0x7f).toNat = b.toNat % 128 := by
  have h : ∀ n < 256, (UInt8.ofNat n &&& 0x80 ≠ 0 ↔ 128 ≤ n) ∧
      (UInt8.ofNat n &&& 0x7f ≠ 0 ↔ n % 128 ≠ 0) ∧
      (UInt8.ofNat n &&& 0x80 = if 128 ≤ n then 0x80 else 0) ∧
      (UInt8.ofNat n &&& 0x7f).toNat = n % 128 := by decide +kernel
  have hb := h b.toNat b.toNat_lt
  rwa [UInt8.ofNat_toNat] at hb

theorem magnitude_concat (bs : List UInt8) (last : UInt8) :
    magnitude (bs ++ [last]) = readLE bs + 256 ^ bs.length * (last.toNat % 128) := by
  have hbs := readLE_lt bs
  have hexp : 8 * (bs ++ [last]).length - 1 = 8 * bs.length + 7 := by
    rw [length_append, length_singleton]
    omega
  rw [magnitude, hexp, readLE_concat, pow_add, pow_mul, show 2 ^ 8 = 256 by rfl, Nat.mod_mul,
    Nat.add_mul_mod_self_left, Nat.mod_eq_of_lt hbs, Nat.add_mul_div_left _ _ (by positivity),
    Nat.div_eq_of_lt hbs, zero_add]
  rfl

theorem negative_concat (bs : List UInt8) (last : UInt8) :
    negative (bs ++ [last]) = decide (128 ≤ last.toNat) := by
  have hbs := readLE_lt bs
  have hexp : 8 * (bs ++ [last]).length - 1 = 8 * bs.length + 7 := by
    rw [length_append, length_singleton]
    omega
  have hbit : ∀ n < 256, n.testBit 7 = decide (128 ≤ n) := by decide +kernel
  rw [show 256 = 2 ^ 8 by rfl, ← pow_mul] at hbs
  rw [negative, hexp, readLE_concat, add_comm, show 256 = 2 ^ 8 by rfl, ← pow_mul,
    Nat.testBit_two_pow_mul_add _ hbs, if_neg (by omega), Nat.add_sub_cancel_left,
    hbit _ last.toNat_lt]

section

variable (vch : List UInt8)

/-- A string is the bits below its sign bit and the sign bit. -/
theorem readLE_eq :
    readLE vch = magnitude vch + 2 ^ (8 * vch.length - 1) * (negative vch).toNat := by
  rcases vch.eq_nil_or_concat' with rfl | ⟨bs, last, rfl⟩
  · rfl
  · have hlen : 8 * (bs ++ [last]).length - 1 + 1 = 8 * (bs ++ [last]).length := by
      rw [length_append, length_singleton]
      omega
    have hlt := readLE_lt (bs ++ [last])
    rw [show 256 = 2 ^ 8 by rfl, ← pow_mul, ← hlen] at hlt
    rw [magnitude, negative, Nat.toNat_testBit, ← Nat.mod_pow_succ, Nat.mod_eq_of_lt hlt]

theorem two_mul_magnitude_lt : 2 * magnitude vch < 256 ^ vch.length := by
  rcases vch.eq_nil_or_concat' with rfl | ⟨bs, last, rfl⟩
  · decide
  · have hlt : magnitude (bs ++ [last]) < 2 ^ (8 * (bs ++ [last]).length - 1) :=
      Nat.mod_lt _ (by positivity)
    have hpow : 2 * 2 ^ (8 * (bs ++ [last]).length - 1) = 256 ^ (bs ++ [last]).length := by
      rw [← pow_succ', show 256 = 2 ^ 8 by rfl, ← pow_mul, length_append,
        length_singleton]
      congr 1
    omega

@[simp] theorem natAbs_signMagnitude : (signMagnitude vch).natAbs = magnitude vch := by
  unfold signMagnitude
  split_ifs <;> simp

/-- `set_vch` reads a number as its sign and magnitude. -/
theorem setVch_eq_signMagnitude : setVch vch = signMagnitude vch := by
  rcases vch.eq_nil_or_concat' with rfl | ⟨bs, last, rfl⟩
  · rfl
  · rw [setVch, getLast?_concat]
    simp only [(sign_mask last).1]
    rw [signMagnitude, negative_concat, magnitude_concat, readLE_concat, length_append,
      length_singleton, Nat.add_sub_cancel]
    have hlast := last.toNat_lt
    by_cases hneg : 128 ≤ last.toNat
    · have hmod : last.toNat % 128 + 128 = last.toNat := by omega
      have hsub : readLE bs + 256 ^ bs.length * last.toNat - 0x80 * 256 ^ bs.length =
          readLE bs + 256 ^ bs.length * (last.toNat % 128) := by
        rw [← hmod, Nat.add_mod_right, Nat.mod_mod, mul_add, mul_comm 0x80]
        omega
      rw [if_pos hneg, if_pos (by simpa using hneg), hsub]
    · rw [if_neg hneg, if_neg (by simpa using hneg), Nat.mod_eq_of_lt (by omega)]

end

/-! ## Minimal strings -/

/-- The last byte has a bit below the sign bit, or the byte before it needs the place. -/
theorem minimal_concat (bs : List UInt8) (last : UInt8) :
    Minimal (bs ++ [last]) ↔
      last.toNat % 128 ≠ 0 ∨ ∃ b ∈ bs.getLast?, 128 ≤ b.toNat := by
  have hne : bs ++ [last] ≠ [] := by simp
  rw [Minimal, or_iff_right hne, magnitude_concat, length_append, length_singleton,
    Nat.add_sub_cancel]
  by_cases hlast : last.toNat % 128 = 0
  · rw [hlast, mul_zero, add_zero, or_iff_right (by simp)]
    rcases bs.eq_nil_or_concat' with rfl | ⟨bs, b, rfl⟩
    · simp [readLE]
    · have hbs := readLE_lt bs
      rw [getLast?_concat, readLE_concat, length_append, length_singleton, pow_succ]
      constructor
      · intro h
        refine ⟨b, rfl, ?_⟩
        by_contra hlt
        have hmul : 256 ^ bs.length * b.toNat ≤ 256 ^ bs.length * 127 :=
          Nat.mul_le_mul_left _ (by omega)
        omega
      · rintro ⟨b, hb, hle⟩
        obtain rfl := some.inj hb
        have hmul : 256 ^ bs.length * 128 ≤ 256 ^ bs.length * b.toNat :=
          Nat.mul_le_mul_left _ hle
        omega
  · refine iff_of_true ?_ (Or.inl hlast)
    have hmul : 256 ^ bs.length * 1 ≤ 256 ^ bs.length * (last.toNat % 128) :=
      Nat.mul_le_mul_left _ (by omega)
    omega

variable {vch : List UInt8}

theorem Minimal.magnitude_pos (h : Minimal vch) (hne : vch ≠ []) :
    0 < magnitude vch := by
  have hle := h.resolve_left hne
  have hpos : 0 < 256 ^ (vch.length - 1) := by positivity
  omega

variable {k : ℕ}

/-- The magnitude bounds the length of a minimal string. -/
theorem Minimal.length_le (h : Minimal vch)
    (hk : 2 * magnitude vch < 256 ^ k) : vch.length ≤ k := by
  rcases h with rfl | hle
  · simp
  · have hlt : 256 ^ (vch.length - 1) < 256 ^ k := hle.trans_lt hk
    have := (Nat.pow_lt_pow_iff_right (by decide)).mp hlt
    omega

variable {a : List UInt8}

/-- A number has one minimal string. -/
theorem Minimal.unique {b : List UInt8} (ha : Minimal a) (hb : Minimal b)
    (h : signMagnitude a = signMagnitude b) : a = b := by
  have hmag : magnitude a = magnitude b := by
    rw [← natAbs_signMagnitude, h, natAbs_signMagnitude]
  have hlen : a.length = b.length :=
    le_antisymm (ha.length_le (hmag ▸ two_mul_magnitude_lt b))
      (hb.length_le (hmag ▸ two_mul_magnitude_lt a))
  rcases eq_or_ne a [] with rfl | hne
  · exact (length_eq_zero_iff.mp hlen.symm).symm
  · have hpos := ha.magnitude_pos hne
    have hneg : negative a = negative b := by
      unfold signMagnitude at h
      split_ifs at h with hna hnb hnb
      · rw [hna, hnb]
      · omega
      · omega
      · rw [Bool.not_eq_true] at hna hnb
        rw [hna, hnb]
    exact readLE_injective hlen (by rw [readLE_eq a, readLE_eq b, hmag, hneg, hlen])

/-- `IsMinimallyEncoded` decides minimality. -/
theorem isMinimallyEncoded_iff (vch : List UInt8) (maxIntegerSize : ℕ) :
    isMinimallyEncoded vch maxIntegerSize ↔ vch.length ≤ maxIntegerSize ∧ Minimal vch := by
  rw [isMinimallyEncoded, Bool.and_eq_true, decide_eq_true_iff]
  refine and_congr_right fun _ => ?_
  rcases vch.eq_nil_or_concat' with rfl | ⟨bs, last, rfl⟩
  · simp [Minimal]
  · rw [minimal_concat, reverse_append, reverse_singleton, singleton_append]
    simp only [Bool.or_eq_true, decide_eq_true_iff, head?_reverse, Option.any_eq_true,
      (sign_mask _).1, (sign_mask _).2.1]
    rfl

/-! ## Serialization -/

variable {n : ℕ}

theorem readLE_absBytes (hn : n < 256 ^ k) : readLE (absBytes k n) = n := by
  induction k generalizing n with
  | zero =>
    have : n = 0 := by omega
    simp [absBytes, readLE, this]
  | succ k ih =>
    unfold absBytes
    split_ifs with hzero
    · simp [readLE, hzero]
    · rw [readLE, ih (by rw [pow_succ] at hn; omega), UInt8.toNat_ofNat']
      omega

/-- The last byte of an absolute value is not zero. -/
theorem getLast?_absBytes_ne_zero (hn : n < 256 ^ k) :
    ∀ last ∈ (absBytes k n).getLast?, last ≠ 0 := by
  induction k generalizing n with
  | zero => simp [absBytes]
  | succ k ih =>
    have hdiv : n / 256 < 256 ^ k := by
      rw [pow_succ] at hn
      omega
    unfold absBytes
    split_ifs with hzero
    · simp
    · intro last hlast
      rw [getLast?_cons, mem_some_iff] at hlast
      cases hrest : (absBytes k (n / 256)).getLast? with
      | some b =>
        rw [hrest, getD_some] at hlast
        exact hlast ▸ ih hdiv b hrest
      | none =>
        -- There is one byte only, so that the number is less than 256.
        have hread := readLE_absBytes hdiv
        rw [getLast?_eq_none_iff.mp hrest, readLE] at hread
        rw [hrest, getD_none] at hlast
        rw [← hlast, ← UInt8.toNat_inj.ne, UInt8.toNat_ofNat']
        change n % 256 ≠ 0
        omega

theorem signMagnitude_concat (bs : List UInt8) (last : UInt8) :
    signMagnitude (bs ++ [last]) =
      if 128 ≤ last.toNat then -((readLE bs + 256 ^ bs.length * (last.toNat % 128) : ℕ) : ℤ)
      else ((readLE bs + 256 ^ bs.length * last.toNat : ℕ) : ℤ) := by
  rw [signMagnitude, negative_concat, magnitude_concat]
  by_cases hneg : 128 ≤ last.toNat
  · simp [hneg]
  · simp [hneg, Nat.mod_eq_of_lt (not_le.mp hneg)]

/-- The byte with only the sign bit. -/
def signByte (neg : Bool) : UInt8 := if neg then 0x80 else 0

/-- The string of a sign and the magnitude with the bytes `bs` and `b` : the sign is in a byte of its
own when the last byte has no place for it. -/
def withSign (neg : Bool) (bs : List UInt8) (b : UInt8) : List UInt8 :=
  if 128 ≤ b.toNat then bs ++ [b] ++ [signByte neg] else bs ++ [b ||| signByte neg]

variable {b : UInt8}

theorem toNat_or_signByte (hb : b.toNat < 128) (neg : Bool) :
    (b ||| signByte neg).toNat = b.toNat + if neg then 128 else 0 := by
  have h : ∀ neg : Bool, ∀ n < 128,
      (UInt8.ofNat n ||| signByte neg).toNat = n + if neg then 128 else 0 := by decide +kernel
  have hb' := h neg b.toNat hb
  rwa [UInt8.ofNat_toNat] at hb'

theorem minimal_withSign (neg : Bool) (bs : List UInt8) (hb : b.toNat ≠ 0) :
    Minimal (withSign neg bs b) := by
  unfold withSign
  split_ifs with hsign
  · rw [minimal_concat, getLast?_concat]
    exact Or.inr ⟨b, rfl, hsign⟩
  · rw [minimal_concat, toNat_or_signByte (not_le.mp hsign)]
    left
    split_ifs <;> omega

theorem signMagnitude_withSign (neg : Bool) (bs : List UInt8) (b : UInt8) :
    signMagnitude (withSign neg bs b) =
      if neg then -(readLE (bs ++ [b]) : ℤ) else readLE (bs ++ [b]) := by
  unfold withSign
  split_ifs with hsign hneg hneg
  · subst hneg
    rw [signMagnitude_concat]
    simp [signByte]
  · rw [Bool.not_eq_true] at hneg
    subst hneg
    rw [signMagnitude_concat]
    simp [signByte]
  · subst hneg
    rw [signMagnitude_concat, toNat_or_signByte (not_le.mp hsign), if_pos rfl, if_pos (by omega),
      Nat.add_mod_right, Nat.mod_eq_of_lt (not_le.mp hsign), readLE_concat]
  · rw [Bool.not_eq_true] at hneg
    subst hneg
    have hzero : (if false = true then 128 else 0) = 0 := rfl
    rw [signMagnitude_concat, toNat_or_signByte (not_le.mp hsign), hzero, add_zero, if_neg hsign,
      readLE_concat]

variable {v : ℤ}

/-- `serialize` returns a minimal string of the value. -/
theorem serialize_spec (hv : v.natAbs < 2 ^ 64) :
    Minimal (serialize v) ∧ signMagnitude (serialize v) = v := by
  have hread : readLE (absBytes 8 v.natAbs) = v.natAbs := readLE_absBytes (by omega)
  have hlast := getLast?_absBytes_ne_zero (show v.natAbs < 256 ^ 8 by omega)
  unfold serialize
  split
  · rename_i hnil
    rw [reverse_eq_nil_iff.mp hnil, readLE] at hread
    refine ⟨Or.inl rfl, ?_⟩
    rw [show v = 0 by omega]
    rfl
  · rename_i last rest hrev
    have hbytes : absBytes 8 v.natAbs = rest.reverse ++ [last] := by
      rw [← reverse_cons, ← hrev, reverse_reverse]
    rw [hbytes, getLast?_concat] at hlast
    rw [hbytes] at hread
    have hne : last.toNat ≠ 0 := UInt8.toNat_inj.ne.mpr (hlast last rfl)
    have heq : (if last &&& 0x80 ≠ 0 then ((if v < 0 then 0x80 else 0) :: last :: rest).reverse
        else if v < 0 then ((last ||| 0x80) :: rest).reverse else (last :: rest).reverse) =
        withSign (v < 0) rest.reverse last := by
      simp only [withSign, (sign_mask last).1, signByte, decide_eq_true_iff]
      split_ifs <;> simp
    rw [heq]
    refine ⟨minimal_withSign _ _ hne, ?_⟩
    rw [signMagnitude_withSign, hread]
    split_ifs with hneg
    · have := decide_eq_true_iff.mp hneg
      omega
    · have := mt decide_eq_true_iff.mpr hneg
      omega

/-- A string of at most 8 bytes is a 64-bit number, not the least one. -/
theorem natAbs_signMagnitude_lt (h : vch.length ≤ 8) :
    (signMagnitude vch).natAbs < 2 ^ 63 := by
  have hlt := two_mul_magnitude_lt vch
  have hpow : 256 ^ vch.length ≤ 256 ^ 8 := Nat.pow_le_pow_right (by decide) h
  rw [natAbs_signMagnitude]
  omega

theorem length_serialize_le (hv : v.natAbs < 2 ^ 63) : (serialize v).length ≤ 8 := by
  obtain ⟨hmin, hval⟩ := serialize_spec (show v.natAbs < 2 ^ 64 by omega)
  refine hmin.length_le ?_
  rw [← natAbs_signMagnitude, hval]
  omega

/-- The serialization of a number is accepted and read back. -/
theorem fromBytes_serialize (hv : v.natAbs < 2 ^ 63) (fRequireMinimal : Bool) :
    fromBytes (serialize v) fRequireMinimal 8 = .ok v := by
  obtain ⟨hmin, hval⟩ := serialize_spec (show v.natAbs < 2 ^ 64 by omega)
  have hlen := length_serialize_le hv
  have hok := (isMinimallyEncoded_iff (serialize v) 8).mpr ⟨hlen, hmin⟩
  rw [fromBytes, require_pos (by decide), require_pos hlen, require_pos fun _ => hok,
    setVch_eq_signMagnitude, hval]
  rfl

/-- An accepted string is the serialization of what it is read as. -/
theorem serialize_setVch (hlen : vch.length ≤ 8) (hmin : Minimal vch) :
    serialize (setVch vch) = vch := by
  have hlt := natAbs_signMagnitude_lt hlen
  rw [← setVch_eq_signMagnitude] at hlt
  obtain ⟨hmin', hval⟩ := serialize_spec (show (setVch vch).natAbs < 2 ^ 64 by omega)
  exact hmin'.unique hmin (by rw [hval, setVch_eq_signMagnitude])

/-! ## Minimal encodings -/

/-- The loop of `MinimallyEncode`, from the index `i` down : what is left of the string. -/
def minimallyEncodeFrom (data : List UInt8) (last : UInt8) : ℕ → List UInt8
  | 0 => []
  | i + 1 =>
    if data.getD i 0 ≠ 0 then
      if data.getD i 0 &&& 0x80 ≠ 0 then (data.set (i + 1) last).take (i + 2)
      else (data.modify i (· ||| last)).take (i + 1)
    else minimallyEncodeFrom data last i

/-- `CScriptNum::MinimallyEncode` : the value it returns and the string it leaves. -/
def minimallyEncodeCall (data : List UInt8) : Bool × List UInt8 :=
  match data.getLast? with
  | none => (false, data)
  | some last =>
    if last &&& 0x7f ≠ 0 then (false, data)
    else if data.length = 1 then (true, [])
    else if data.getD (data.length - 2) 0 &&& 0x80 ≠ 0 then (false, data)
    else (true, minimallyEncodeFrom data last (data.length - 1))

/-- What the loop leaves, by the bytes below the index. -/
theorem minimallyEncodeFrom_eq {data : List UInt8} {last : UInt8} {i : ℕ} (hi : i < data.length) :
    minimallyEncodeFrom data last i =
      match (data.take i).reverse.dropWhile (· = 0) with
      | [] => []
      | b :: more =>
        if b &&& 0x80 ≠ 0 then (last :: b :: more).reverse
        else ((b ||| last) :: more).reverse := by
  induction i with
  | zero => simp [minimallyEncodeFrom]
  | succ i ih =>
    have hlt : i < data.length := by omega
    have hset : (data.set (i + 1) last).take (i + 2) = data.take (i + 1) ++ [last] := by
      rw [set_eq_take_append_cons_drop, if_pos hi]
      simp [take_append, Nat.min_eq_left hi.le]
    have hmodify : (data.modify i (· ||| last)).take (i + 1) =
        data.take i ++ [data.get ⟨i, hlt⟩ ||| last] := by
      rw [modify_eq_take_cons_drop hlt]
      simp [take_append, Nat.min_eq_left hlt.le]
    have hget : data.getD i 0 = data.get ⟨i, hlt⟩ := by
      simp [getD_eq_getElem?_getD, hlt]
    rw [minimallyEncodeFrom, hget, hset, hmodify,
      take_succ_eq_append_getElem hlt, reverse_append, reverse_singleton,
      singleton_append, dropWhile_cons]
    by_cases hzero : data.get ⟨i, hlt⟩ = 0
    · simp only [get_eq_getElem] at hzero
      simpa [hzero] using ih hlt
    · simp only [get_eq_getElem] at hzero ⊢
      simp [hzero]

/-- The string that `MinimallyEncode` leaves. -/
theorem minimallyEncodeCall_snd (data : List UInt8) :
    (minimallyEncodeCall data).2 = minimallyEncode data := by
  rcases data.eq_nil_or_concat' with rfl | ⟨bs, last, rfl⟩
  · rfl
  · have htake : (bs ++ [last]).take bs.length = bs := take_left
    unfold minimallyEncodeCall minimallyEncode
    rw [getLast?_concat, reverse_append, reverse_singleton, singleton_append]
    rcases bs.eq_nil_or_concat' with rfl | ⟨bs, b, rfl⟩
    · have hone : ([] ++ [last]).length = 1 := rfl
      simp only [hone, if_true, reverse_nil, head?_nil, any_none,
        Bool.false_eq_true, if_false]
      split_ifs <;> rfl
    · have hlen : (bs ++ [b] ++ [last]).length - 1 = (bs ++ [b]).length := by simp
      have hget : (bs ++ [b] ++ [last]).getD ((bs ++ [b] ++ [last]).length - 2) 0 = b := by
        simp [getD_eq_getElem?_getD]
      have hone : ¬ (bs ++ [b] ++ [last]).length = 1 := by simp
      simp only [hlen, hget, hone, if_false, head?_reverse, getLast?_concat,
        any_some, decide_eq_true_iff,
        minimallyEncodeFrom_eq (show (bs ++ [b]).length < (bs ++ [b] ++ [last]).length by simp),
        htake]
      split_ifs <;> rfl

theorem readLE_reverse_dropWhile (bs : List UInt8) :
    readLE (bs.dropWhile (· = 0)).reverse = readLE bs.reverse := by
  induction bs with
  | nil => rfl
  | cons b bs ih =>
    rw [dropWhile_cons]
    split_ifs with hzero
    · rw [ih, reverse_cons, readLE_concat, of_decide_eq_true hzero]
      simp
    · rfl

/-- A string whose last byte has only a sign. -/
theorem signMagnitude_concat_signByte (bs : List UInt8) (neg : Bool) :
    signMagnitude (bs ++ [signByte neg]) = if neg then -(readLE bs : ℤ) else readLE bs := by
  rw [signMagnitude_concat]
  cases neg <;> simp [signByte]

theorem eq_signByte (hb : ¬ b &&& 0x7f ≠ 0) : b = signByte (128 ≤ b.toNat) := by
  have hmod := mt (sign_mask b).2.1.mpr hb
  have hlt := b.toNat_lt
  refine UInt8.toNat_inj.mp ?_
  by_cases hneg : 128 ≤ b.toNat
  · simp [signByte, hneg]
    omega
  · simp [signByte, hneg]
    omega

/-- `MinimallyEncode` leaves a minimal string of the same number. -/
theorem minimallyEncode_spec (data : List UInt8) :
    Minimal (minimallyEncode data) ∧
      signMagnitude (minimallyEncode data) = signMagnitude data := by
  rcases data.eq_nil_or_concat' with rfl | ⟨bs, last, rfl⟩
  · exact ⟨Or.inl rfl, rfl⟩
  · rw [minimallyEncode, reverse_append, reverse_singleton, singleton_append]
    simp only
    split_ifs with hlast hbyte
    · exact ⟨(minimal_concat bs last).mpr (Or.inl ((sign_mask last).2.1.mp hlast)), rfl⟩
    · rw [head?_reverse, Option.any_eq_true] at hbyte
      obtain ⟨b, hb, hsign⟩ := hbyte
      refine ⟨(minimal_concat bs last).mpr (Or.inr ⟨b, hb, ?_⟩), rfl⟩
      exact (sign_mask b).1.mp (of_decide_eq_true hsign)
    · obtain ⟨neg, rfl⟩ : ∃ neg, last = signByte neg := ⟨_, eq_signByte hlast⟩
      have hread := readLE_reverse_dropWhile bs.reverse
      rw [reverse_reverse] at hread
      rw [signMagnitude_concat_signByte]
      split
      · rename_i hnil
        rw [hnil, reverse_nil, readLE] at hread
        refine ⟨Or.inl rfl, ?_⟩
        rw [← hread]
        simp [signMagnitude, magnitude, readLE]
      · rename_i b more hcons
        have hne : b.toNat ≠ 0 := by
          have hhead := head?_dropWhile_not (fun b : UInt8 => decide (b = 0)) bs.reverse
          rw [hcons] at hhead
          have hb : ¬ b = 0 := by simpa using hhead
          exact UInt8.toNat_inj.ne.mpr hb
        rw [hcons, reverse_cons] at hread
        have heq : (if b &&& 0x80 ≠ 0 then (signByte neg :: b :: more).reverse
            else ((b ||| signByte neg) :: more).reverse) = withSign neg more.reverse b := by
          simp only [withSign, (sign_mask b).1]
          split_ifs <;> simp
        rw [heq, ← hread]
        exact ⟨minimal_withSign neg _ hne, signMagnitude_withSign neg _ b⟩

/-- Strings of the same number have the same minimal form. -/
theorem minimallyEncode_congr {b : List UInt8} (h : signMagnitude a = signMagnitude b) :
    minimallyEncode a = minimallyEncode b :=
  (minimallyEncode_spec a).1.unique (minimallyEncode_spec b).1
    (by rw [(minimallyEncode_spec a).2, h, (minimallyEncode_spec b).2])

/-- `MinimallyEncode` returns whether it changed the string. -/
theorem minimallyEncodeCall_fst (data : List UInt8) :
    (minimallyEncodeCall data).1 = false ↔ Minimal data := by
  rcases data.eq_nil_or_concat' with rfl | ⟨bs, last, rfl⟩
  · exact iff_of_true rfl (Or.inl rfl)
  · rw [minimal_concat]
    unfold minimallyEncodeCall
    rw [getLast?_concat]
    simp only
    split_ifs with hlast hone hbyte
    · exact iff_of_true rfl (Or.inl ((sign_mask last).2.1.mp hlast))
    · have hnil : bs = [] := by simpa using hone
      have hmod := mt (sign_mask last).2.1.mpr hlast
      simp [hnil] at hmod ⊢
      exact hmod
    all_goals
      rcases bs.eq_nil_or_concat' with rfl | ⟨bs, b, rfl⟩
      · simp at hone
      · have hget : (bs ++ [b] ++ [last]).getD ((bs ++ [b] ++ [last]).length - 2) 0 = b := by
          simp [getD_eq_getElem?_getD]
        have hmod := mt (sign_mask last).2.1.mpr hlast
        rw [hget, (sign_mask b).1] at hbyte
        rw [getLast?_concat]
        simp [hmod, hbyte]

end CScriptNum

end RadiantCore
