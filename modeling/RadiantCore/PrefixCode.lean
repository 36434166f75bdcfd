import Mathlib.Data.Set.Function

/-!
# Prefix-free codes

A code writes values as strings over an alphabet. It is prefix free on a set of values when the
code of a value can be read off the front of any string that starts with it : two strings that
start with codes and are equal start with the code of the same value, and go on equally.

Codes of one size are prefix free (`PrefixFree.of_length`). A list written without its size is
known from the whole string (`PrefixFree.injOn_flatMap`) ; after its size it is again prefix
free (`PrefixFree.counted`).
-/

namespace PrefixCode

open List

variable {α β : Type*}

/-- The code of a value of `s` can be read off the front of a string. -/
def PrefixFree (code : α → List β) (s : Set α) : Prop :=
  ∀ ⦃a⦄, a ∈ s → ∀ ⦃b⦄, b ∈ s → ∀ ⦃x y : List β⦄, code a ++ x = code b ++ y → a = b ∧ x = y

namespace PrefixFree

variable {code : α → List β} {s : Set α}

theorem injOn (h : PrefixFree code s) : Set.InjOn code s := by
  intro a ha b hb heq
  have happend : code a ++ [] = code b ++ [] := by rw [heq]
  exact (h ha hb happend).1

/-- Codes of one size. -/
theorem of_length {k : ℕ} (hlen : ∀ a ∈ s, (code a).length = k) (hinj : Set.InjOn code s) :
    PrefixFree code s := by
  intro a ha b hb x y heq
  obtain ⟨hcode, hrest⟩ := append_inj heq ((hlen a ha).trans (hlen b hb).symm)
  exact ⟨hinj ha hb hcode, hrest⟩

/-- Codes that a reader reads back, with what follows them. -/
theorem of_read (read : List β → Option (α × List β))
    (hread : ∀ a ∈ s, ∀ x, read (code a ++ x) = some (a, x)) : PrefixFree code s := by
  intro a ha b hb x y heq
  have hboth : some (a, x) = some (b, y) := by rw [← hread a ha x, heq, hread b hb y]
  exact Prod.mk.inj (Option.some.inj hboth)

/-- Codes of as many values, one after the other. -/
theorem flatMap (h : PrefixFree code s) {as bs : List α} (has : ∀ a ∈ as, a ∈ s)
    (hbs : ∀ b ∈ bs, b ∈ s) (hlen : as.length = bs.length) {x y : List β}
    (heq : as.flatMap code ++ x = bs.flatMap code ++ y) : as = bs ∧ x = y := by
  induction as generalizing bs with
  | nil =>
    obtain rfl : bs = [] := length_eq_zero_iff.mp hlen.symm
    exact ⟨rfl, heq⟩
  | cons a as ih =>
    cases bs with
    | nil => simp at hlen
    | cons b bs =>
      rw [flatMap_cons, flatMap_cons, append_assoc, append_assoc] at heq
      obtain ⟨rfl, hrest⟩ := h (has a (by simp)) (hbs b (by simp)) heq
      obtain ⟨rfl, hxy⟩ := ih (fun c hc => has c (by simp [hc])) (fun c hc => hbs c (by simp [hc]))
        (by simpa using hlen) hrest
      exact ⟨rfl, hxy⟩

/-- A list of values is known from its codes when no code is empty. -/
theorem injOn_flatMap (h : PrefixFree code s) (hne : ∀ a ∈ s, code a ≠ []) :
    Set.InjOn (fun as : List α => as.flatMap code) {as | ∀ a ∈ as, a ∈ s} := by
  intro as
  induction as with
  | nil =>
    intro _ bs hbs heq
    cases bs with
    | nil => rfl
    | cons b bs =>
      have hnil : code b = [] := (append_eq_nil_iff.mp heq.symm).1
      exact absurd hnil (hne b (hbs b (by simp)))
  | cons a as ih =>
    intro has bs hbs heq
    cases bs with
    | nil =>
      have hnil : code a = [] := (append_eq_nil_iff.mp heq).1
      exact absurd hnil (hne a (has a (by simp)))
    | cons b bs =>
      obtain ⟨rfl, hrest⟩ := h (has a (by simp)) (hbs b (by simp)) heq
      rw [ih (fun c hc => has c (by simp [hc])) (fun c hc => hbs c (by simp [hc])) hrest]

/-- A list after the code of its size. -/
theorem counted {count : ℕ → List β} {bound : ℕ} (hcount : PrefixFree count {n | n < bound})
    (h : PrefixFree code s) :
    PrefixFree (fun as : List α => count as.length ++ as.flatMap code)
      {as | as.length < bound ∧ ∀ a ∈ as, a ∈ s} := by
  rintro as ⟨hasLen, has⟩ bs ⟨hbsLen, hbs⟩ x y heq
  simp only [append_assoc] at heq
  obtain ⟨hlen, hrest⟩ := hcount hasLen hbsLen heq
  exact h.flatMap has hbs hlen hrest

end PrefixFree

end PrefixCode
