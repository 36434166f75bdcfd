import RadiantCore.SwapRecord

/-!
# Integers of variable length

`WriteVarInt` of `serialize.h` writes an unsigned integer in base 128, highest digit first. Every
byte but the last has its high bit set. One is subtracted from all digits but the last, so no number
has two encodings. The functions are templates over an integer type, which is given here by its
number of bits.

What is written is read back (`readVarInt_reads`), and nothing else is read as the same number
(`eq_of_readVarIntLoop`).
-/

namespace RadiantCore

open List

/-- The array `tmp` of `WriteVarInt`, from the element `len` on. -/
def varIntDigits (len n : ℕ) : List UInt8 :=
  (UInt8.ofNat (n % 128) ||| if len ≠ 0 then 0x80 else 0x00) ::
    if n ≤ 0x7F then [] else varIntDigits (len + 1) (n / 128 - 1)
termination_by n
decreasing_by omega

/-- `WriteVarInt`. -/
def writeVarInt (n : ℕ) : List UInt8 := (varIntDigits 0 n).reverse

/-- The loop of `ReadVarInt`, for an unsigned type of so many bits. -/
def readVarIntLoop (bits : ℕ) : ℕ → Reader ℕ
  | _, [] => .error (.exception "end of data")
  | n, chData :: is =>
    if n > (2 ^ bits - 1) / 128 then .error (.exception "ReadVarInt(): size too large")
    else
      let n := n * 128 + (chData &&& 0x7F).toNat
      if chData &&& 0x80 = 0 then .ok (n, is)
      else if n = 2 ^ bits - 1 then .error (.exception "ReadVarInt(): size too large")
      else readVarIntLoop bits (n + 1) is

/-- `ReadVarInt`. -/
def readVarInt (bits : ℕ) : Reader ℕ := readVarIntLoop bits 0

/-- `GetSizeOfVarInt`. -/
def getSizeOfVarInt (n : ℕ) : ℕ := if n ≤ 0x7F then 1 else getSizeOfVarInt (n / 128 - 1) + 1
termination_by n
decreasing_by omega

section RoundTrip

variable {bits n d len : ℕ} {is : List UInt8}

theorem length_varIntDigits (len n : ℕ) : (varIntDigits len n).length = getSizeOfVarInt n := by
  fun_induction getSizeOfVarInt n generalizing len with
  | case1 n hsmall => rw [varIntDigits, if_pos hsmall, length_singleton]
  | case2 n hlarge ih => rw [varIntDigits, if_neg hlarge, length_cons, ih]

theorem varIntDigits_succ (len n : ℕ) : varIntDigits (len + 1) n = varIntDigits 1 n := by
  induction n using Nat.strong_induction_on generalizing len with
  | h n ih =>
    rw [varIntDigits, varIntDigits.eq_1 1, if_pos (Nat.succ_ne_zero len), if_pos one_ne_zero]
    split_ifs with hsmall
    · rfl
    · rw [ih _ (by omega), ih _ (by omega) 1]

/-- The digits of the numbers from `128 * n` to `128 * n + 127` but the last one. -/
def leadingDigits (n : ℕ) : List UInt8 := if n = 0 then [] else (varIntDigits 1 (n - 1)).reverse

theorem reverse_varIntDigits (hd : d < 128) : (varIntDigits len (n * 128 + d)).reverse =
    leadingDigits n ++ [UInt8.ofNat d ||| if len ≠ 0 then 0x80 else 0x00] := by
  rw [varIntDigits, reverse_cons, show (n * 128 + d) % 128 = d by omega, leadingDigits]
  congr 1
  by_cases hn : n = 0
  · rw [if_pos hn, if_pos (show n * 128 + d ≤ 0x7F by omega), reverse_nil]
  · rw [if_neg hn, if_neg (by omega), varIntDigits_succ,
      show (n * 128 + d) / 128 - 1 = n - 1 by omega]

theorem leadingDigits_succ (hd : d < 128) :
    leadingDigits (n * 128 + d + 1) = leadingDigits n ++ [UInt8.ofNat d ||| 0x80] := by
  rw [leadingDigits, if_neg (Nat.succ_ne_zero _), Nat.add_sub_cancel, reverse_varIntDigits hd]
  rfl

theorem writeVarInt_eq (hd : d < 128) :
    writeVarInt (n * 128 + d) = leadingDigits n ++ [UInt8.ofNat d ||| 0x00] :=
  reverse_varIntDigits hd

theorem digit_high : ∀ d < 128,
    ((UInt8.ofNat d ||| 0x80) &&& 0x7F).toNat = d ∧ (UInt8.ofNat d ||| 0x80) &&& 0x80 ≠ 0 := by
  decide

theorem digit_low : ∀ d < 128,
    ((UInt8.ofNat d ||| 0x00) &&& 0x7F).toNat = d ∧ (UInt8.ofNat d ||| 0x00) &&& 0x80 = 0 := by
  decide

/-- The digits before the last are read as their number. -/
theorem readVarIntLoop_leadingDigits (hn : n < 2 ^ bits) :
    readVarIntLoop bits 0 (leadingDigits n ++ is) = readVarIntLoop bits n is := by
  induction n using Nat.strong_induction_on generalizing is with
  | h n ih =>
    by_cases hzero : n = 0
    · subst hzero
      rfl
    · obtain ⟨m, d, hd, rfl⟩ : ∃ m d, d < 128 ∧ n = m * 128 + d + 1 :=
        ⟨(n - 1) / 128, (n - 1) % 128, Nat.mod_lt _ (by decide), by omega⟩
      obtain ⟨hdigit, hbit⟩ := digit_high d hd
      rw [leadingDigits_succ hd, append_assoc, singleton_append, ih m (by omega) (by omega),
        readVarIntLoop, if_neg (by omega), hdigit]
      dsimp only
      rw [if_neg hbit, if_neg (by omega)]

theorem readVarInt_reads (hn : n < 2 ^ bits) : Reads (readVarInt bits) (writeVarInt n) n := by
  intro is
  have hd := Nat.mod_lt n (show 0 < 128 by decide)
  obtain ⟨hdigit, hbit⟩ := digit_low _ hd
  rw [← Nat.div_add_mod' n 128, writeVarInt_eq hd, append_assoc, singleton_append, readVarInt,
    readVarIntLoop_leadingDigits (by omega), readVarIntLoop, if_neg (by omega), hdigit]
  dsimp only
  rw [if_pos hbit]

/-- A byte is its digit with its high bit. -/
theorem digit_of_byte (c : UInt8) : (c &&& 0x7F).toNat < 128 ∧
    (c &&& 0x80 = 0 → UInt8.ofNat (c &&& 0x7F).toNat ||| 0x00 = c) ∧
    (c &&& 0x80 ≠ 0 → UInt8.ofNat (c &&& 0x7F).toNat ||| 0x80 = c) := by
  have h : ∀ n < 256, (UInt8.ofNat n &&& 0x7F).toNat < 128 ∧
      (UInt8.ofNat n &&& 0x80 = 0 → UInt8.ofNat n &&& 0x7F ||| 0x00 = UInt8.ofNat n) ∧
      (UInt8.ofNat n &&& 0x80 ≠ 0 → UInt8.ofNat n &&& 0x7F ||| 0x80 = UInt8.ofNat n) := by
    decide +kernel
  simpa using h _ c.toNat_lt

/-- What the loop reads after some digits are the other digits of its result, which is of the
type. -/
theorem eq_of_readVarIntLoop {m : ℕ} {rest : List UInt8}
    (h : readVarIntLoop bits n is = .ok (m, rest)) :
    leadingDigits n ++ is = writeVarInt m ++ rest ∧ (8 ≤ bits → m < 2 ^ bits) := by
  induction is generalizing n with
  | nil => cases h
  | cons c is ih =>
    obtain ⟨hd, hlow, hhigh⟩ := digit_of_byte c
    rw [readVarIntLoop] at h
    dsimp only at h
    split_ifs at h with hlarge hbit hmax
    · obtain ⟨rfl, rfl⟩ := Prod.mk.inj (Except.ok.inj h)
      refine ⟨?_, fun hbits => ?_⟩
      · rw [writeVarInt_eq hd, hlow hbit, append_assoc, singleton_append]
      · have hpow : 2 ^ bits = 128 * 2 ^ (bits - 7) := by
          rw [show 128 = 2 ^ 7 by rfl, ← pow_add, Nat.add_sub_cancel' (by omega)]
        have hpos := Nat.two_pow_pos (bits - 7)
        omega
    · rw [← singleton_append, ← append_assoc, ← hhigh hbit, ← leadingDigits_succ hd]
      exact ih h

/-- Writing and reading are inverse, for every width : what is written, as many bytes as
`GetSizeOfVarInt` says, is read back and nothing after it, and what is read is what its result
is written as. -/
theorem var_int_bijective (bits : ℕ) :
    (∀ n < 2 ^ bits, (writeVarInt n).length = getSizeOfVarInt n ∧
      ∀ rest, readVarInt bits (writeVarInt n ++ rest) = .ok (n, rest)) ∧
    ∀ is n rest, readVarInt bits is = .ok (n, rest) →
      is = writeVarInt n ++ rest ∧ (8 ≤ bits → n < 2 ^ bits) := by
  refine ⟨fun n hn => ⟨?_, readVarInt_reads hn⟩, fun is n rest h => eq_of_readVarIntLoop h⟩
  rw [writeVarInt, length_reverse, length_varIntDigits]

/-- A number below 128 is its byte. -/
theorem writeVarInt_of_lt (hn : n < 128) : writeVarInt n = [UInt8.ofNat n] := by
  simpa [leadingDigits] using writeVarInt_eq (n := 0) hn

end RoundTrip

end RadiantCore
