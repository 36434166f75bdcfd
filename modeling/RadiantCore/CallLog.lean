import RadiantCore.ExceptLoop

/-!
# Computations with a log

A fallible computation says what it returns, not what it did on the way. `Logged` adds the log of
the events of a run, which a failure does not erase : the log of a sequence of steps is that of the
first step, followed by that of the second if the first one succeeded (`log_bind_ok`,
`log_bind_error`). Without the log it is the computation itself (`result_bind`), so a function
written twice, with and without events, is one function by a short induction.
-/

namespace RadiantCore

/-- A computation that ended, with the events of its run in order. -/
structure Logged (κ ε α : Type) where
  log : List κ
  result : Except ε α

namespace Logged

variable {κ ε α β : Type}

instance : Monad (Logged κ ε) where
  pure a := ⟨[], .ok a⟩
  bind x f :=
    match x.result with
    | .ok a => ⟨x.log ++ (f a).log, (f a).result⟩
    | .error e => ⟨x.log, .error e⟩

/-- A step without events. -/
def silent (x : Except ε α) : Logged κ ε α := ⟨[], x⟩

/-- A failure after an event. -/
def fail (event : κ) (e : ε) : Logged κ ε α := ⟨[event], .error e⟩

@[simp] theorem log_pure (a : α) : (pure a : Logged κ ε α).log = [] := rfl

@[simp] theorem result_silent (x : Except ε α) : (silent x : Logged κ ε α).result = x := rfl

@[simp] theorem result_bind (x : Logged κ ε α) (f : α → Logged κ ε β) :
    (x >>= f).result = x.result >>= fun a => (f a).result := by
  obtain ⟨log, result⟩ := x
  cases result <;> rfl

variable {x : Logged κ ε α} {a : α}

theorem log_bind_ok (h : x.result = .ok a) (f : α → Logged κ ε β) :
    (x >>= f).log = x.log ++ (f a).log := by
  obtain ⟨log, result⟩ := x
  subst h
  rfl

variable {e : ε}

theorem log_bind_error (h : x.result = .error e)
    (f : α → Logged κ ε β) : (x >>= f).log = x.log := by
  obtain ⟨log, result⟩ := x
  subst h
  rfl

/-- A step without events that succeeds changes nothing but the value. -/
theorem silent_bind_ok {x : Except ε α} (h : x = .ok a) (f : α → Logged κ ε β) :
    silent x >>= f = f a := by
  subst h
  rfl

/-- A step without events that fails ends the run. -/
theorem silent_bind_error {x : Except ε α} (h : x = .error e) (f : α → Logged κ ε β) :
    silent x >>= f = silent (.error e) := by
  subst h
  rfl

theorem length_log_bind_le {f : α → Logged κ ε β} {n : ℕ}
    (h : ∀ a, (f a).log.length ≤ n) : (x >>= f).log.length ≤ x.log.length + n := by
  cases hx : x.result with
  | error e =>
    rw [log_bind_error hx]
    exact Nat.le_add_right _ _
  | ok a =>
    rw [log_bind_ok hx, List.length_append]
    exact Nat.add_le_add_left (h a) _

end Logged

end RadiantCore
