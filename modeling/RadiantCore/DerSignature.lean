import RadiantCore.ScriptNumCodec
import RadiantCore.SigEncoding
import Mathlib.Data.List.GetD

/-!
# The strict encoding of ECDSA signatures

`IsValidDERSignatureEncoding` reads a signature by offsets that the signature itself announces. What
it accepts are the encodings of two integers by the rules of DER, up to 72 bytes : a header with the
total length, and for each integer a header with its length and the shortest two's complement string
that denotes it (`der_exact`). A shortest string is determined by its number, so no two accepted
strings denote the same two integers.

A string that denotes a non-negative number is shortest when dropping its first byte changes the
number, `256 ^ (n - 1) ≤ 2 * v` for a value `v` of `n > 1` bytes (`shortest_iff`). This is what the
source checks on the first two bytes.
-/

namespace RadiantCore

open List

/-! ## Two's complement -/

theorem readBE_cons (b : UInt8) (bs : List UInt8) :
    readBE (b :: bs) = readBE bs + 256 ^ bs.length * b.toNat := by
  rw [readBE, reverse_cons, readLE_concat, length_reverse, readBE]

/-- Big-endian strings of one length are ordered as their numbers. -/
theorem readBE_cons_lt_iff {a b : UInt8} {x y : List UInt8} (h : x.length = y.length) :
    readBE (a :: x) < readBE (b :: y) ↔ a < b ∨ a = b ∧ readBE x < readBE y := by
  have hx := readBE_lt x
  have hy := readBE_lt y
  rw [readBE_cons, readBE_cons, UInt8.lt_iff_toNat_lt, ← UInt8.toNat_inj, h]
  rw [h] at hx
  generalize 256 ^ y.length = k at hx hy
  rcases lt_trichotomy a.toNat b.toNat with hab | hab | hab
  · have hmul := Nat.mul_le_mul_left k hab
    rw [Nat.mul_succ] at hmul
    exact iff_of_true (by omega) (Or.inl hab)
  · simp [hab]
  · have hmul := Nat.mul_le_mul_left k hab
    rw [Nat.mul_succ] at hmul
    exact iff_of_false (by omega) (by omega)

/-- The number a big-endian string denotes in two's complement. -/
def twosComplement (bs : List UInt8) : ℤ :=
  readBE bs - if 128 ≤ (bs.headD 0).toNat then 256 ^ bs.length else 0

/-- The string denotes `v`, and no shorter one does. -/
structure ShortestFor (bs : List UInt8) (v : ℤ) : Prop where
  ne_nil : bs ≠ []
  denotes : twosComplement bs = v
  shortest : ∀ bs', bs' ≠ [] → twosComplement bs' = v → bs.length ≤ bs'.length

/-- The checks of the source on the bytes of an integer. -/
def IsDerInteger (bs : List UInt8) : Prop :=
  bs ≠ [] ∧ bs.getD 0 0 &&& 0x80 = 0 ∧
    ¬ (bs.length > 1 ∧ bs.getD 0 0 = 0x00 ∧ bs.getD 1 0 &&& 0x80 = 0)

theorem and_0x80_eq_zero_iff (b : UInt8) : b &&& 0x80 = 0 ↔ b.toNat < 128 := by
  rw [← Nat.not_le, ← (CScriptNum.sign_mask b).1, not_not]

variable {bs : List UInt8}

/-- A string denotes a non-negative number when its first bit is not set. -/
theorem twosComplement_nonneg_iff :
    0 ≤ twosComplement bs ↔ (bs.headD 0).toNat < 128 := by
  have hlt : (readBE bs : ℤ) < 256 ^ bs.length := by exact_mod_cast readBE_lt bs
  unfold twosComplement
  split_ifs with h
  · constructor
    · omega
    · omega
  · simpa using h

theorem twosComplement_of_lt (h : (bs.headD 0).toNat < 128) :
    twosComplement bs = readBE bs := by
  rw [twosComplement, if_neg (Nat.not_le.mpr h), sub_zero]

/-- A number below the sign bit is less than half of what its bytes hold. -/
theorem two_mul_readBE_lt (hne : bs ≠ []) (h : (bs.headD 0).toNat < 128) :
    2 * readBE bs < 256 ^ bs.length := by
  obtain ⟨b, bs, rfl⟩ := exists_cons_of_ne_nil hne
  have hrest := readBE_lt bs
  have hb : 256 ^ bs.length * b.toNat ≤ 256 ^ bs.length * 127 :=
    Nat.mul_le_mul_left _ (Nat.le_of_lt_succ h)
  rw [readBE_cons, length_cons, pow_succ]
  omega

/-- The first byte of an integer that passes the checks is needed. -/
theorem IsDerInteger.pow_le (h : IsDerInteger bs) (hlen : 1 < bs.length) :
    256 ^ (bs.length - 1) ≤ 2 * readBE bs := by
  obtain ⟨-, -, hpad⟩ := h
  obtain ⟨b₀, b₁, bs, rfl⟩ : ∃ b₀ b₁ tl, bs = b₀ :: b₁ :: tl := by
    match bs, hlen with
    | b₀ :: b₁ :: tl, _ => exact ⟨b₀, b₁, tl, rfl⟩
  simp only [getD_cons_zero, getD_cons_succ, and_0x80_eq_zero_iff, not_and] at hpad
  rw [readBE_cons, readBE_cons, length_cons, length_cons, Nat.add_sub_cancel, pow_succ]
  by_cases hb : b₀ = 0
  · have hb₁ : 256 ^ bs.length * 128 ≤ 256 ^ bs.length * b₁.toNat :=
      Nat.mul_le_mul_left _ (Nat.not_lt.mp (hpad (by simp) hb))
    omega
  · have hpos : 1 ≤ b₀.toNat :=
      Nat.pos_of_ne_zero fun h0 => hb (UInt8.toNat_inj.mp h0)
    have hb₀ : 256 ^ bs.length * 256 * 1 ≤ 256 ^ bs.length * 256 * b₀.toNat :=
      Nat.mul_le_mul_left _ hpos
    omega

/-- The checks of the source accept the shortest strings of non-negative numbers. -/
theorem shortest_iff :
    IsDerInteger bs ↔ ∃ v : ℕ, ShortestFor bs v := by
  constructor
  · intro h
    have hhead : (bs.headD 0).toNat < 128 := by
      have := (and_0x80_eq_zero_iff _).mp h.2.1
      obtain ⟨b, bs, rfl⟩ := exists_cons_of_ne_nil h.1
      exact this
    refine ⟨readBE bs, h.1, twosComplement_of_lt hhead, fun bs' hne' hv => ?_⟩
    have hhead' : (bs'.headD 0).toNat < 128 :=
      twosComplement_nonneg_iff.mp (hv ▸ Int.natCast_nonneg _)
    have heq : readBE bs' = readBE bs := by
      rw [twosComplement_of_lt hhead'] at hv
      exact_mod_cast hv
    have hlt := two_mul_readBE_lt hne' hhead'
    by_contra hshort
    have hpos : 0 < bs'.length := List.length_pos_iff.mpr hne'
    have hle := h.pow_le (by omega)
    have hpow : 256 ^ bs'.length ≤ 256 ^ (bs.length - 1) :=
      Nat.pow_le_pow_right (by decide) (by omega)
    omega
  · rintro ⟨v, hne, hv, hshort⟩
    have hhead : (bs.headD 0).toNat < 128 :=
      twosComplement_nonneg_iff.mp (hv ▸ Int.natCast_nonneg _)
    obtain ⟨b, bs, rfl⟩ := exists_cons_of_ne_nil hne
    refine ⟨hne, (and_0x80_eq_zero_iff _).mpr hhead, ?_⟩
    rintro ⟨hlen, hb, hb₁⟩
    -- the string without its first byte denotes the same number
    obtain ⟨b₁, bs, rfl⟩ := exists_cons_of_ne_nil (show bs ≠ [] by rintro rfl; simp at hlen)
    have hb : b = 0 := hb
    have hhead₁ : ((b₁ :: bs).headD 0).toNat < 128 := (and_0x80_eq_zero_iff _).mp hb₁
    have hsame : twosComplement (b₁ :: bs) = v := by
      rw [← hv, twosComplement_of_lt hhead, twosComplement_of_lt hhead₁, readBE_cons b, hb]
      simp
    have := hshort _ (cons_ne_nil b₁ bs) hsame
    simp at this

/-- A number has one shortest string. -/
theorem ShortestFor.unique {bs' : List UInt8} {v : ℕ} (h : ShortestFor bs v)
    (h' : ShortestFor bs' v) : bs = bs' := by
  have hlen : bs.length = bs'.length :=
    le_antisymm (h.shortest bs' h'.ne_nil h'.denotes) (h'.shortest bs h.ne_nil h.denotes)
  have hhead := twosComplement_nonneg_iff.mp (h.denotes ▸ Int.natCast_nonneg v)
  have hhead' := twosComplement_nonneg_iff.mp (h'.denotes ▸ Int.natCast_nonneg v)
  have heq := h.denotes.trans h'.denotes.symm
  rw [twosComplement_of_lt hhead, twosComplement_of_lt hhead'] at heq
  exact readBE_injective hlen (by exact_mod_cast heq)

/-! ## The grammar -/

/-- The string is the encoding of two integers : `0x30` and the length of what follows, then for
each of them `0x02`, the length of its bytes and the bytes. -/
def DerEncodes (sig : List UInt8) (r s : ℕ) : Prop :=
  ∃ (total lenR lenS : UInt8) (R S : List UInt8),
    sig = [0x30, total, 0x02, lenR] ++ R ++ [0x02, lenS] ++ S ∧
    total.toNat = sig.length - 2 ∧ lenR.toNat = R.length ∧ lenS.toNat = S.length ∧
    ShortestFor R r ∧ ShortestFor S s

/-- The largest size `IsValidDERSignatureEncoding` accepts. -/
def maxDerSize : ℕ := 72

theorem getD_append_length_add (xs ys : List UInt8) (k : ℕ) :
    (xs ++ ys).getD (xs.length + k) 0 = ys.getD k 0 := by
  rw [getD_append_right _ _ _ _ (Nat.le_add_right _ _), Nat.add_sub_cancel_left]

/-- The two ways of the source to write the checks of an integer are one. -/
theorem isDerInteger_iff {len : ℕ} {b₀ b₁ : UInt8} (hne : bs ≠ [])
    (hlen : len = bs.length) (h₀ : b₀ = bs.getD 0 0) (h₁ : 1 < bs.length → b₁ = bs.getD 1 0) :
    IsDerInteger bs ↔ b₀ &&& 0x80 = 0 ∧ ¬ (len > 1 ∧ b₀ = 0x00 ∧ b₁ &&& 0x80 = 0) := by
  subst hlen h₀
  refine ⟨fun h => ⟨h.2.1, fun hpad => h.2.2 ?_⟩, fun h => ⟨hne, h.1, fun hpad => h.2 ?_⟩⟩
  · exact ⟨hpad.1, hpad.2.1, h₁ hpad.1 ▸ hpad.2.2⟩
  · exact ⟨hpad.1, hpad.2.1, h₁ hpad.1 ▸ hpad.2.2⟩

/-- On a string cut at the announced length the offsets point to the parts. -/
theorem isValidDERSignatureEncoding_cut {a total c lenR e lenS : UInt8} {R S : List UInt8}
    (hR : lenR.toNat = R.length) (hRne : R ≠ []) (hSne : S ≠ []) :
    isValidDERSignatureEncoding ([a, total, c, lenR] ++ R ++ [e, lenS] ++ S) = true ↔
      R.length + S.length + 6 ≤ maxDerSize ∧ a = 0x30 ∧ total.toNat = R.length + S.length + 4 ∧
        c = 0x02 ∧ IsDerInteger R ∧ e = 0x02 ∧ lenS.toNat = S.length ∧ IsDerInteger S := by
  have hRpos : 0 < R.length := List.length_pos_iff.mpr hRne
  have hSpos : 0 < S.length := List.length_pos_iff.mpr hSne
  obtain ⟨sig, hsig⟩ : ∃ sig, sig = [a, total, c, lenR] ++ R ++ [e, lenS] ++ S := ⟨_, rfl⟩
  rw [← hsig]
  have hlength : sig.length = R.length + S.length + 6 := by
    simp [hsig]
    omega
  have hhead : ∀ k < R.length, sig.getD (4 + k) 0 = R.getD k 0 := by
    intro k hk
    rw [hsig, append_assoc, append_assoc]
    exact (getD_append_length_add [a, total, c, lenR] _ k).trans (getD_append _ _ _ _ hk)
  have htail : ∀ k, sig.getD (lenR.toNat + 4 + k) 0 = ([e, lenS] ++ S).getD k 0 := by
    intro k
    have hlen : ([a, total, c, lenR] ++ R).length = lenR.toNat + 4 := by
      rw [length_append, hR, Nat.add_comm]
      rfl
    rw [hsig, append_assoc, ← hlen]
    exact getD_append_length_add _ _ k
  have h0 : sig.getD 0 0 = a := by rw [hsig]; rfl
  have h1 : sig.getD 1 0 = total := by rw [hsig]; rfl
  have h2 : sig.getD 2 0 = c := by rw [hsig]; rfl
  have h3 : sig.getD 3 0 = lenR := by rw [hsig]; rfl
  rw [isDerInteger_iff hRne hR (hhead 0 hRpos) fun h => hhead 1 h]
  unfold isValidDERSignatureEncoding
  simp only [h0, h1, h2, h3, show sig.getD (lenR.toNat + 4) 0 = e from htail 0,
    show sig.getD (lenR.toNat + 4 + 1) 0 = lenS from htail 1,
    show sig.getD (lenR.toNat + 4 + 2) 0 = S.getD 0 0 from htail 2,
    show sig.getD (lenR.toNat + 4 + 3) 0 = S.getD 1 0 from htail 3, Bool.and_eq_true,
    decide_eq_true_eq, Bool.not_eq_true', ← Bool.not_eq_true, and_assoc, maxDerSize, hlength]
  constructor
  · rintro ⟨-, hmax, ha, htotal, hc, -, hR0, -, hRpad, he, -, hS0, hend, hSpad⟩
    have hS : lenS.toNat = S.length := by omega
    exact ⟨hmax, ha, htotal, hc, hR0, hRpad, he, hS,
      (isDerInteger_iff hSne hS rfl fun _ => rfl).mpr ⟨hS0, hSpad⟩⟩
  · rintro ⟨hmax, ha, htotal, hc, hR0, hRpad, he, hS, hSint⟩
    obtain ⟨hS0, hSpad⟩ := (isDerInteger_iff hSne hS rfl fun _ => rfl).mp hSint
    exact ⟨by omega, hmax, ha, htotal, hc, by omega, hR0, by omega, hRpad, he, by omega, hS0,
      by omega, hSpad⟩

/-- A string that is accepted can be cut at the announced length. -/
theorem exists_cut {sig : List UInt8} (h : isValidDERSignatureEncoding sig = true) :
    ∃ (a total c lenR e lenS : UInt8) (R S : List UInt8),
      sig = [a, total, c, lenR] ++ R ++ [e, lenS] ++ S ∧ lenR.toNat = R.length ∧ R ≠ [] ∧
        S ≠ [] := by
  simp only [isValidDERSignatureEncoding, Bool.and_eq_true, decide_eq_true_eq, and_assoc] at h
  obtain ⟨hmin, -, -, -, -, hR0, -, hR, -⟩ := h
  match sig, hmin with
  | a :: total :: c :: lenR :: rest, _ =>
    simp only [getD_cons_succ, getD_cons_zero, length_cons] at hR0 hR
    have hcut : lenR.toNat + 3 ≤ rest.length := by omega
    match hrest : rest.drop lenR.toNat with
    | e :: lenS :: S =>
      refine ⟨a, total, c, lenR, e, lenS, rest.take lenR.toNat, S, ?_, ?_, ?_, ?_⟩
      · have hsplit : rest.take lenR.toNat ++ e :: lenS :: S = rest := by
          rw [← hrest, take_append_drop]
        rw [append_assoc, append_assoc]
        exact congrArg ([a, total, c, lenR] ++ ·) hsplit.symm
      · rw [length_take]
        omega
      · rw [← length_pos_iff, length_take]
        omega
      · have hlen := congrArg List.length hrest
        rw [length_drop, length_cons, length_cons] at hlen
        exact List.length_pos_iff.mp (by omega)
    | [e] | [] =>
      have hlen := congrArg List.length hrest
      simp at hlen
      omega

/-- The function accepts exactly the encodings of two non-negative integers, up to its bound on the
size, and no two strings encode the same integers. -/
theorem der_exact :
    (∀ sig, isValidDERSignatureEncoding sig = true ↔
      sig.length ≤ maxDerSize ∧ ∃ r s, DerEncodes sig r s) ∧
    ∀ sig sig' r s, DerEncodes sig r s → DerEncodes sig' r s → sig = sig' := by
  refine ⟨fun sig => ⟨fun h => ?_, ?_⟩, ?_⟩
  · obtain ⟨a, total, c, lenR, e, lenS, R, S, rfl, hR, hRne, hSne⟩ := exists_cut h
    obtain ⟨hmax, rfl, htotal, rfl, hRint, rfl, hS, hSint⟩ :=
      (isValidDERSignatureEncoding_cut hR hRne hSne).mp h
    obtain ⟨r, hr⟩ := shortest_iff.mp hRint
    obtain ⟨s, hs⟩ := shortest_iff.mp hSint
    have hlength : ([0x30, total, 0x02, lenR] ++ R ++ [0x02, lenS] ++ S).length =
        R.length + S.length + 6 := by
      simp
      omega
    exact ⟨hlength ▸ hmax, r, s, total, lenR, lenS, R, S, rfl, by omega, hR, hS, hr, hs⟩
  · rintro ⟨hmax, r, s, total, lenR, lenS, R, S, rfl, htotal, hR, hS, hr, hs⟩
    have hlength : ([0x30, total, 0x02, lenR] ++ R ++ [0x02, lenS] ++ S).length =
        R.length + S.length + 6 := by
      simp
      omega
    exact (isValidDERSignatureEncoding_cut hR hr.ne_nil hs.ne_nil).mpr
      ⟨hlength ▸ hmax, rfl, by omega, rfl, shortest_iff.mpr ⟨r, hr⟩, rfl, hS,
        shortest_iff.mpr ⟨s, hs⟩⟩
  · rintro _ _ r s ⟨total, lenR, lenS, R, S, rfl, htotal, hR, hS, hr, hs⟩
      ⟨total', lenR', lenS', R', S', rfl, htotal', hR', hS', hr', hs'⟩
    obtain rfl := hr.unique hr'
    obtain rfl := hs.unique hs'
    obtain rfl := UInt8.toNat_inj.mp (hR.trans hR'.symm)
    obtain rfl := UInt8.toNat_inj.mp (hS.trans hS'.symm)
    obtain rfl : total = total' := UInt8.toNat_inj.mp (htotal.trans (htotal'.symm ▸ by simp))
    rfl

end RadiantCore
