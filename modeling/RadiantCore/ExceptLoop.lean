import Mathlib.Data.List.Basic
import Mathlib.Tactic

/-!
# Fallible steps and loops

Rules for computations in `Except` : what a successful sequence of steps says about each
of them, guards, and loops `List.foldlM` that stop at the first failing step.
-/

namespace RadiantCore

open List

variable {ε α β σ : Type}

/-- A guard : nothing when `p` holds, the failure `e` otherwise. -/
def require (p : Prop) [Decidable p] (e : ε) : Except ε Unit :=
  if p then .ok () else .error e

variable {p : Prop} {e : ε} {u : Unit}

@[simp] theorem require_eq_ok_iff [Decidable p] :
    require p e = .ok u ↔ p := by
  unfold require
  split_ifs with h <;> simp [h]

theorem require_pos [Decidable p] (h : p) : require p e = .ok () :=
  if_pos h

theorem require_neg [Decidable p] (h : ¬ p) : require p e = .error e :=
  if_neg h

variable {x : Except ε α} {f : α → Except ε β} {b : β}

theorem bind_eq_ok_iff :
    x >>= f = .ok b ↔ ∃ a, x = .ok a ∧ f a = .ok b := by
  cases x <;> simp [bind, Except.bind]

theorem exists_unit_iff {p : Unit → Prop} : (∃ u, p u) ↔ p () :=
  ⟨fun ⟨_, h⟩ => h, fun h => ⟨(), h⟩⟩

theorem require_bind_eq_ok_iff [Decidable p] {f : Unit → Except ε β} :
    require p e >>= f = .ok b ↔ p ∧ f () = .ok b := by
  unfold require
  split_ifs with h <;> simp [h, bind, Except.bind]

variable {a : α}

theorem toOption_eq_some_iff : x.toOption = some a ↔ x = .ok a := by
  cases x <;> simp [Except.toOption]

@[simp] theorem pure_eq_ok_iff {b : α} : (pure a : Except ε α) = .ok b ↔ a = b :=
  Except.ok.injEq a b ▸ Iff.rfl

@[simp] theorem ok_bind (a : α) (f : α → Except ε β) : Except.ok a >>= f = f a := rfl

@[simp] theorem error_bind (e : ε) (f : α → Except ε β) :
    Except.error e >>= f = .error e := rfl

variable {xs : List α}

/-- A loop over checks succeeds when every check does. -/
theorem forM_eq_ok_iff {check : α → Except ε Unit} :
    xs.forM check = .ok u ↔ ∀ a ∈ xs, check a = .ok () := by
  induction xs with
  | nil => simp
  | cons a xs ih =>
    change (check a >>= fun _ => xs.forM check) = .ok u ↔ _
    rw [bind_eq_ok_iff, forall_mem_cons, ← ih, exists_unit_iff]

/-- A loop that adds non-negative values up to a bound succeeds when every item is good and
the total stays within the bound, and then it returns the total. -/
theorem foldlM_boundedSum_eq_ok_iff {step : ℤ → α → Except ε ℤ} (good : α → Prop)
    (val : α → ℤ) (bound : ℤ)
    (hstep : ∀ acc a acc', 0 ≤ acc → acc ≤ bound → (step acc a = .ok acc' ↔
      good a ∧ 0 ≤ val a ∧ acc + val a ≤ bound ∧ acc' = acc + val a)) {acc acc' : ℤ} (hacc : 0 ≤ acc) (hbound : acc ≤ bound) :
    xs.foldlM step acc = .ok acc' ↔ (∀ a ∈ xs, good a ∧ 0 ≤ val a) ∧
      acc + (xs.map val).sum ≤ bound ∧ acc' = acc + (xs.map val).sum := by
  induction xs generalizing acc with
  | nil =>
    rw [foldlM_nil, pure_eq_ok_iff, eq_comm]
    simp [hbound]
  | cons a xs ih =>
    rw [foldlM_cons, bind_eq_ok_iff, forall_mem_cons, map_cons, sum_cons,
      ← add_assoc]
    constructor
    · rintro ⟨m, hm, hrest⟩
      obtain ⟨hgood, hval, hle, rfl⟩ := (hstep acc a m hacc hbound).mp hm
      obtain ⟨hall, hsum, rfl⟩ := (ih (by omega) hle).mp hrest
      exact ⟨⟨⟨hgood, hval⟩, hall⟩, hsum, rfl⟩
    · rintro ⟨⟨⟨hgood, hval⟩, hall⟩, hsum, rfl⟩
      have hnonneg : 0 ≤ (xs.map val).sum :=
        sum_nonneg (List.forall_mem_map.mpr fun a ha => (hall a ha).2)
      exact ⟨acc + val a, (hstep acc a _ hacc hbound).mpr ⟨hgood, hval, by omega, rfl⟩,
        (ih (by omega) (by omega)).mpr ⟨hall, hsum, rfl⟩⟩

theorem mapM_congr_left {g : α → Except ε β} (h : ∀ a ∈ xs, f a = g a) :
    xs.mapM f = xs.mapM g := by
  induction xs with
  | nil => rfl
  | cons a xs ih =>
    rw [forall_mem_cons] at h
    rw [mapM_cons, mapM_cons, h.1, ih h.2]

theorem exists_mapM_eq_ok_iff : (∃ bs, xs.mapM f = .ok bs) ↔ ∀ a ∈ xs, ∃ b, f a = .ok b := by
  induction xs with
  | nil => simp [pure_eq_ok_iff]
  | cons a xs ih =>
    rw [forall_mem_cons, ← ih, mapM_cons]
    simp only [bind_eq_ok_iff, pure_eq_ok_iff]
    constructor
    · rintro ⟨-, b, hb, bs, hbs, -⟩
      exact ⟨⟨b, hb⟩, bs, hbs⟩
    · rintro ⟨⟨b, hb⟩, bs, hbs⟩
      exact ⟨_, b, hb, bs, hbs, rfl⟩

theorem mapM_eq_ok_iff {bs : List β} :
    xs.mapM f = .ok bs ↔ List.Forall₂ (fun a b => f a = .ok b) xs bs := by
  induction xs generalizing bs with
  | nil => rw [mapM_nil, pure_eq_ok_iff, forall₂_nil_left_iff, eq_comm]
  | cons a xs ih =>
    rw [mapM_cons]
    simp only [bind_eq_ok_iff, pure_eq_ok_iff, ih, forall₂_cons_left_iff]
    constructor
    · rintro ⟨b, hb, bs, hbs, rfl⟩
      exact ⟨b, bs, hb, hbs, rfl⟩
    · rintro ⟨b, bs, hb, hbs, rfl⟩
      exact ⟨b, hb, bs, hbs, rfl⟩

theorem mapM_eq_ok_map {g : α → β} (h : ∀ a ∈ xs, f a = .ok (g a)) : xs.mapM f = .ok (xs.map g) :=
  mapM_eq_ok_iff.mpr (List.forall₂_map_right_iff.mpr (List.forall₂_same.mpr h))

variable {s : σ}

section

variable {step : σ → α → Except ε σ}

/-- A quantity to which every step adds the part of its item is the total in the end. -/
theorem foldlM_sum {M : Type} [AddMonoid M] (measure : σ → M) (part : α → M)
    (hstep : ∀ s a s', step s a = .ok s' → measure s' = measure s + part a) {s' : σ}
    (h : xs.foldlM step s = .ok s') :
    measure s' = measure s + (xs.map part).sum := by
  induction xs generalizing s with
  | nil =>
    rw [foldlM_nil, pure_eq_ok_iff] at h
    simp [h]
  | cons a xs ih =>
    rw [foldlM_cons, bind_eq_ok_iff] at h
    obtain ⟨t, ht, hrest⟩ := h
    rw [ih hrest, hstep s a t ht, map_cons, sum_cons, add_assoc]

/-- A loop whose steps succeed on good items and fail with one error on the others. -/
theorem foldlM_of_uniform {good : α → Prop} (hgood : ∀ s a, good a → ∃ s', step s a = .ok s')
    (hbad : ∀ s a, ¬ good a → step s a = .error e) (xs : List α) (s : σ) :
    ((∀ a ∈ xs, good a) ∧ ∃ s', xs.foldlM step s = .ok s') ∨
      (∃ a ∈ xs, ¬ good a) ∧ xs.foldlM step s = .error e := by
  induction xs generalizing s with
  | nil => exact Or.inl ⟨by simp, s, rfl⟩
  | cons a xs ih =>
    rw [foldlM_cons]
    by_cases ha : good a
    · obtain ⟨s₁, hs₁⟩ := hgood s a ha
      rw [hs₁, ok_bind, forall_mem_cons, exists_mem_cons_iff]
      exact (ih s₁).imp (fun h => ⟨⟨ha, h.1⟩, h.2⟩) fun h => ⟨Or.inr h.1, h.2⟩
    · rw [hbad s a ha, error_bind]
      exact Or.inr ⟨⟨a, mem_cons_self, ha⟩, rfl⟩

end

/-! ## How a computation ends -/

/-- The computation ends with an error of `err` or with a value of `post`. -/
def Ends (x : Except ε α) (err : ε → Prop) (post : α → Prop) : Prop :=
  match x with
  | .ok a => post a
  | .error e => err e

section Ends

variable {err : ε → Prop} {post : α → Prop} {post' : β → Prop}

instance {x : Except ε α} [DecidablePred err] [DecidablePred post] : Decidable (Ends x err post) :=
  match x with
  | .ok a => inferInstanceAs (Decidable (post a))
  | .error e => inferInstanceAs (Decidable (err e))

variable {x : Except ε α} {e : ε}

theorem Ends.eq_error (h : Ends x (· = e) fun _ => False) :
    x = .error e :=
  match x, h with
  | .error _, he => congrArg Except.error he

theorem Ends.ne_error (h : Ends x err post) (he : ¬ err e) :
    x ≠ .error e := by
  rintro rfl
  exact he h

variable {a : α}

theorem Ends.post_of_eq_ok (h : Ends x err post) (hx : x = .ok a) :
    post a := by
  rwa [hx] at h

theorem Ends.of_ne_error (hx : x ≠ .error e) :
    Ends x (· ≠ e) fun _ => True :=
  match x, hx with
  | .ok _, _ => trivial
  | .error _, he => fun h => he (congrArg Except.error h)

theorem Ends.of_eq_ok (hx : x = .ok a) (ha : post a) :
    Ends x err post := by
  rw [hx]
  exact ha

theorem Ends.imp {post₂ : α → Prop} (h : Ends x err post)
    (hpost : ∀ a, x = .ok a → post a → post₂ a) : Ends x err post₂ :=
  match x, h with
  | .ok a, ha => hpost a rfl ha
  | .error _, he => he

/-- The value is the one of the computation. -/
theorem Ends.eq_ok (h : Ends x err post) : Ends x err fun a => x = .ok a ∧ post a :=
  h.imp fun _ hx ha => ⟨hx, ha⟩

theorem Ends.weaken {err₂ : ε → Prop} (h : Ends x err post)
    (herr : ∀ e, err e → err₂ e) : Ends x err₂ post :=
  match x, h with
  | .ok _, ha => ha
  | .error e, he => herr e he

theorem Ends.pure (ha : post a) : Ends (Pure.pure a : Except ε α) err post := ha

variable {f : α → Except ε β}

theorem Ends.bind (hx : Ends x err post)
    (hf : ∀ a, post a → Ends (f a) err post') : Ends (x >>= f) err post' :=
  match x, hx with
  | .ok a, ha => hf a ha
  | .error _, he => he

variable {p : Prop}

theorem Ends.require [Decidable p] (he : err e) :
    Ends (RadiantCore.require p e) err fun _ => p := by
  unfold RadiantCore.require
  split_ifs with hp
  · exact hp
  · exact he

variable {inv : σ → Prop}

/-- A loop ends as its steps do, when they keep an invariant. -/
theorem Ends.foldlM {step : σ → α → Except ε σ} :
    ∀ {xs : List α} {s : σ}, inv s → (∀ s, ∀ a ∈ xs, inv s → Ends (step s a) err inv) →
      Ends (xs.foldlM step s) err inv
  | [], _, hs, _ => hs
  | a :: xs, s, hs, hstep => by
    rw [foldlM_cons]
    exact (hstep s a mem_cons_self hs).bind fun s' hs' =>
      Ends.foldlM hs' fun s b hb => hstep s b (mem_cons_of_mem _ hb)

/-- What the steps of a loop keep holds where it ends. -/
theorem foldlM_inv (inv : σ → Prop) {step : σ → α → Except ε σ} {xs : List α} {s s' : σ}
    (hstep : ∀ s, ∀ a ∈ xs, ∀ s', inv s → step s a = .ok s' → inv s') (hs : inv s)
    (h : xs.foldlM step s = .ok s') : inv s' := by
  refine Ends.post_of_eq_ok (show Ends _ (fun _ => True) inv from Ends.foldlM hs fun s a ha hs => ?_) h
  cases hx : step s a with
  | error => trivial
  | ok s' => exact hstep s a ha s' hs hx

/-- A loop over checks ends as the checks do. -/
theorem Ends.forM {check : α → Except ε Unit} :
    ∀ {xs : List α}, (∀ a ∈ xs, Ends (check a) err fun _ => True) →
      Ends (xs.forM check) err fun _ => True
  | [], _ => trivial
  | a :: xs, h => by
    change Ends (check a >>= fun _ => xs.forM check) err _
    exact (h a mem_cons_self).bind fun _ _ =>
      Ends.forM fun b hb => h b (mem_cons_of_mem _ hb)

/-- The computation fails only with errors of `err`. -/
def FailsOnly (err : ε → Prop) (x : Except ε α) : Prop := Ends x err fun _ => True

theorem FailsOnly.ok : FailsOnly err (.ok a : Except ε α) := trivial

theorem FailsOnly.pure : FailsOnly err (Pure.pure a : Except ε α) := trivial

theorem FailsOnly.error (he : err e) : FailsOnly err (.error e : Except ε α) := he

theorem FailsOnly.true : FailsOnly (fun _ => True) x :=
  match x with
  | .ok _ => trivial
  | .error _ => trivial

theorem FailsOnly.require [Decidable p] (he : err e) :
    FailsOnly err (RadiantCore.require p e) :=
  (Ends.require he).imp fun _ _ _ => trivial

theorem FailsOnly.ite [Decidable p] {y : Except ε α} (hx : FailsOnly err x)
    (hy : FailsOnly err y) : FailsOnly err (if p then x else y) := by
  split_ifs
  · exact hx
  · exact hy

theorem FailsOnly.bind (hx : FailsOnly err x)
    (hf : ∀ a, FailsOnly err (f a)) : FailsOnly err (x >>= f) :=
  Ends.bind hx fun a _ => hf a

theorem FailsOnly.bind_ends (hx : FailsOnly err x)
    (hf : ∀ a, Ends (f a) err post') : Ends (x >>= f) err post' :=
  Ends.bind hx fun a _ => hf a

theorem FailsOnly.ends (h : FailsOnly err x) (hpost : ∀ a, x = .ok a → post a) : Ends x err post :=
  h.imp fun a ha _ => hpost a ha

end Ends

end RadiantCore
