import Mathlib.Data.List.Chain
import Mathlib.Tactic

/-!
# Runs of a transition system

`Run step s run` : from the state `s` the events of `run` lead, one after the other, to the
states listed with them. `Meets c s run` says that the condition `c` holds of every event and
the state before it.

`Run.pairwise_iff_meets` is the rule for properties of a whole run. A transitive relation
holds between every two states of a run, the earlier one first, exactly when every step meets
a condition, provided that the condition decides the relation on one step from a state that
satisfies an invariant, and that the steps meeting the condition keep the invariant.
-/

namespace Trace

variable {σ ε : Type*} {step : ε → σ → σ → Prop} {s : σ} {run : List (ε × σ)}

/-- A run from a state : the events, each with the state it leads to. -/
inductive Run (step : ε → σ → σ → Prop) : σ → List (ε × σ) → Prop
  | nil (s : σ) : Run step s []
  | cons {s s' : σ} {e : ε} {run : List (ε × σ)} :
      step e s s' → Run step s' run → Run step s ((e, s') :: run)

/-- The states of a run, the first one included. -/
def states (s : σ) (run : List (ε × σ)) : List σ := s :: run.map Prod.snd

/-- Every event of a run meets a condition on the event and the state before it. -/
def Meets (c : ε → σ → Prop) : σ → List (ε × σ) → Prop
  | _, [] => True
  | s, (e, s') :: run => c e s ∧ Meets c s' run

/-- A transitive relation between the states of a run, from what it is on single steps. -/
theorem Run.pairwise_iff_meets {inv : σ → Prop} {r : σ → σ → Prop} {c : ε → σ → Prop}
    [IsTrans σ r] (hinv : ∀ e s s', inv s → step e s s' → c e s → inv s')
    (hstep : ∀ e s s', inv s → step e s s' → (r s s' ↔ c e s)) (hrun : Run step s run)
    (hs : inv s) : (states s run).Pairwise r ↔ Meets c s run := by
  rw [← List.isChain_iff_pairwise]
  induction hrun with
  | nil s => simp [states, Meets]
  | @cons s s' e run hfirst _ ih =>
    rw [states, List.map_cons, List.isChain_cons_cons, Meets]
    rw [hstep e s s' hs hfirst]
    exact and_congr_right fun hc => ih (hinv e s s' hs hfirst hc)

end Trace
