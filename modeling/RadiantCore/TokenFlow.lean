import Mathlib.Logic.Relation
import Mathlib.Order.WellFounded
import Mathlib.Tactic

/-!
# Tokens carried along a ledger

A ledger has transactions that create and spend outputs, each output spent at most once.
A token has an origin, an output, and some outputs carry it. When a transaction creates a
carrying output only by spending the origin or another carrying output, every carrying
output has a lineage : a finite chain of transactions that starts by spending the origin
(`Ledger.lineage`).

Suppose further that some carrying outputs hold the token alone : no other output of their
transaction carries it, and they come from an output that holds it alone or from the
origin. Then the lineages of an output that holds the token and of one that carries it
follow the same path as long as both last (`Ledger.Lineage.comparable`), so that two such
outputs that are both unspent are the same (`Ledger.Lineage.unique`).
-/

namespace RadiantCore

variable {T O : Type*}

/-- Transactions that create and spend outputs, each output spent at most once. -/
structure Ledger (T O : Type*) where
  creates : T → O → Prop
  spends : T → O → Prop
  spender_unique : ∀ {t t' : T} {o : O}, spends t o → spends t' o → t = t'

namespace Ledger

variable (L : Ledger T O)

/-- No transaction spends the output. -/
def Unspent (o : O) : Prop := ∀ t, ¬ L.spends t o

/-- The transaction that spends `o` creates `o'`. -/
def Feeds (o o' : O) : Prop := ∃ t, L.spends t o ∧ L.creates t o'

/-- A transaction spends an output of another. -/
def SpendsOutputOf (t' t : T) : Prop := ∃ o, L.creates t' o ∧ L.spends t o

/-- A finite chain of transactions from the origin of a token to an output : the first
spends the origin, each other one spends a carrying output of the one before. -/
inductive Lineage (origin carries : O → Prop) : O → Prop
  | mint {t : T} {o₀ o : O} : origin o₀ → L.spends t o₀ → L.creates t o → carries o →
      Lineage origin carries o
  | pass {t : T} {o' o : O} : Lineage origin carries o' → L.spends t o' → L.creates t o →
      carries o → Lineage origin carries o

variable {L} {origin carries holds : O → Prop}

theorem Lineage.carries_last {o : O} (h : L.Lineage origin carries o) : carries o :=
  match h with
  | .mint _ _ _ hc => hc
  | .pass _ _ _ hc => hc

/-- A carrying output that needs the origin or a carrying output among the spent ones has a
lineage. -/
theorem lineage (hwf : WellFounded L.SpendsOutputOf) (hrule : ∀ t o, L.creates t o → carries o →
      ∃ o', L.spends t o' ∧ (origin o' ∨ carries o' ∧ ∃ t', L.creates t' o'))
    {t : T} {o : O} (ho : L.creates t o) (hc : carries o) : L.Lineage origin carries o := by
  induction t using hwf.induction generalizing o with
  | _ t ih =>
    obtain ⟨o', hspend, horigin | ⟨hc', t', ho'⟩⟩ := hrule t o ho hc
    · exact .mint horigin hspend ho hc
    · exact .pass (ih t' ⟨o', ho', hspend⟩ ho' hc') hspend ho hc

section Alone

variable (horigin : ∀ {o o'}, origin o → origin o' → o = o')
  (halone : ∀ {t o o'}, L.creates t o → L.creates t o' → holds o → carries o' → o = o')

include horigin halone

section

variable {x : O} (hx : L.Lineage origin holds x)

include hx

/-- From a carrying output of the transaction that spends the origin, every output that
holds the token is reached through outputs that hold it. -/
theorem Lineage.reaches_of_mint {t : T} {o₀ y : O} (h₀ : origin o₀) (hspend : L.spends t o₀)
    (hy : L.creates t y) (hcy : carries y) :
    Relation.ReflTransGen (fun a b => L.Feeds a b ∧ holds b) y x := by
  induction hx with
  | @mint t' o' x h₀' hspend' hx hholds =>
    obtain rfl := horigin h₀ h₀'
    obtain rfl := L.spender_unique hspend hspend'
    rw [halone hx hy hholds hcy]
  | @pass t' x' x _ hspend' hx hholds ih => exact ih.tail ⟨⟨t', hspend', hx⟩, hholds⟩

/-- Of an output that holds the token and one that carries it, one comes from the other. -/
theorem Lineage.comparable {y : O} (hy : L.Lineage origin carries y) :
    Relation.ReflTransGen (fun a b => L.Feeds a b ∧ holds b) y x ∨
      Relation.TransGen L.Feeds x y := by
  induction hy with
  | @mint t o₀ y h₀ hspend hy hcy =>
    exact Or.inl (hx.reaches_of_mint horigin halone h₀ hspend hy hcy)
  | @pass t y' y _ hspend hy hcy ih =>
    have hfeed : L.Feeds y' y := ⟨t, hspend, hy⟩
    rcases ih with hpath | hpath
    · rcases hpath.cases_head with rfl | ⟨z, ⟨⟨t', hspend', hz⟩, hholds⟩, hrest⟩
      · exact Or.inr (.single hfeed)
      · -- The next output on the path is created by the same transaction, so it is `y`.
        obtain rfl := L.spender_unique hspend hspend'
        rw [← halone hz hy hholds hcy]
        exact Or.inl hrest
    · exact Or.inr (hpath.tail hfeed)

/-- At most one unspent output carries a token that an unspent output holds alone. -/
theorem Lineage.unique {y : O} (hy : L.Lineage origin carries y) (hxu : L.Unspent x)
    (hyu : L.Unspent y) : x = y := by
  rcases hx.comparable horigin halone hy with hpath | hpath
  · rcases hpath.cases_head with rfl | ⟨z, ⟨⟨t, hspend, -⟩, -⟩, -⟩
    · rfl
    · exact absurd hspend (hyu t)
  · obtain ⟨z, ⟨t, hspend, -⟩, -⟩ := Relation.TransGen.head'_iff.mp hpath
    exact absurd hspend (hxu t)

end

end Alone

end Ledger

end RadiantCore
