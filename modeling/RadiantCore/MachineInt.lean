import RadiantCore.ExceptLoop

/-!
# Fixed-width integers

The value of an arithmetic operation on fixed-width integers, in three readings : a signed result
that does not fit has no defined value (`signed`), an unsigned one is reduced (`wrapped`), or it is
reported that it does not fit (`unsigned`). A program that is written over the reading of its
unsigned operations can be run with `wrapped`, as the machine does, and with `unsigned`, to say that
no intermediate value is too large. Where the second run succeeds, the first one has its value.
-/

namespace RadiantCore

variable {ε : Type}

/-- A signed result of `w + 1` bits. -/
def signed (w : ℕ) (e : ε) (v : ℤ) : Except ε ℤ :=
  if -2 ^ w ≤ v ∧ v < 2 ^ w then .ok v else .error e

/-- An unsigned result of `w` bits that is reported when it does not fit. -/
def unsigned (w : ℕ) (e : ε) (v : ℤ) : Except ε ℤ :=
  if 0 ≤ v ∧ v < 2 ^ w then .ok v else .error e

/-- An unsigned result of `w` bits, reduced. -/
def wrapped (w : ℕ) (v : ℤ) : Except ε ℤ := .ok (v % 2 ^ w)

variable {w : ℕ} {e : ε} {v u : ℤ}

theorem signed_eq_ok_iff : signed w e v = .ok u ↔ (-2 ^ w ≤ v ∧ v < 2 ^ w) ∧ v = u := by
  unfold signed
  split_ifs with h <;> simp [h]

theorem signed_of_range (h : -2 ^ w ≤ v ∧ v < 2 ^ w) : signed w e v = .ok v := if_pos h

theorem signed_eq_error (h : ¬(-2 ^ w ≤ v ∧ v < 2 ^ w)) : signed w e v = .error e := if_neg h

theorem unsigned_eq_ok_iff : unsigned w e v = .ok u ↔ (0 ≤ v ∧ v < 2 ^ w) ∧ v = u := by
  unfold unsigned
  split_ifs with h <;> simp [h]

theorem unsigned_of_range (h : 0 ≤ v ∧ v < 2 ^ w) : unsigned w e v = .ok v := if_pos h

theorem wrapped_eq_ok_iff : wrapped w v = (.ok u : Except ε ℤ) ↔ v % 2 ^ w = u := by
  rw [wrapped, Except.ok.injEq]

/-- A result that fits is not changed. -/
theorem wrapped_of_unsigned (h : unsigned w e v = .ok u) : wrapped w v = (.ok u : Except ε ℤ) := by
  obtain ⟨⟨hnonneg, hlt⟩, rfl⟩ := unsigned_eq_ok_iff.mp h
  rw [wrapped, Int.emod_eq_of_lt hnonneg hlt]

end RadiantCore
