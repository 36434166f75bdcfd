import Mathlib.Data.Finset.Max
import Mathlib.Logic.Relation
import RadiantCore.ExceptLoop

/-!
# Exploring a graph with a worklist

`explore` walks a graph from a set of pending nodes : it takes the least pending node, marks it as
seen and makes its unseen successors pending. Reading the successors of a node may fail.

On a finite set of nodes that is closed under successors, a walk with one step for each unseen node
ends with nothing pending. When the successors of what was already seen are seen or pending, the
walk finds exactly what can be reached from the pending nodes (`explore_eq_ok`), and the result is
closed again (`closedUnder_of_frontier`), so that a next walk may start from it.
-/

namespace RadiantCore

open Finset

variable {α ε : Type}

section Graph

variable {succ : α → Finset α} {nodes stage seen : Finset α}

/-- `b` can be reached from `a`. -/
def Reaches (succ : α → Finset α) : α → α → Prop := Relation.ReflTransGen fun a b => b ∈ succ a

/-- The successors of the nodes of a set are in the set. -/
def ClosedUnder (succ : α → Finset α) (nodes : Finset α) : Prop := ∀ a ∈ nodes, succ a ⊆ nodes

variable [DecidableEq α]

variable {b : α}

/-- A path from a node that is seen or pending ends at a seen node or passes a pending one. -/
theorem reaches_of_frontier (hfront : ∀ a ∈ seen, succ a ⊆ seen ∪ stage) {a : α}
    (ha : a ∈ seen ∪ stage) (hab : Reaches succ a b) :
    b ∈ seen ∨ ∃ c ∈ stage, Reaches succ c b := by
  induction hab using Relation.ReflTransGen.head_induction_on with
  | refl =>
    rcases mem_union.mp ha with hseen | hstage
    · exact Or.inl hseen
    · exact Or.inr ⟨b, hstage, .refl⟩
  | @head a c hstep hrest ih =>
    rcases mem_union.mp ha with hseen | hstage
    · exact ih (hfront a hseen hstep)
    · exact Or.inr ⟨a, hstage, .head hstep hrest⟩

/-- The pending nodes after `node` has been seen : the others, and its unseen successors. -/
def advance (stage seen : Finset α) (node : α) (succs : Finset α) : Finset α :=
  stage.erase node ∪ succs.filter (· ∉ insert node seen)

variable {node : α} {succs : Finset α}

theorem advance_subset (hstage : stage ⊆ nodes)
    (hsuccs : succs ⊆ nodes) : advance stage seen node succs ⊆ nodes :=
  union_subset ((erase_subset _ _).trans hstage)
    ((filter_subset _ _).trans hsuccs)

theorem disjoint_advance (hnew : Disjoint stage seen) :
    Disjoint (advance stage seen node succs) (insert node seen) := by
  refine disjoint_left.mpr fun a ha hin => ?_
  rcases mem_union.mp ha with ha | ha
  · obtain ⟨hne, hmem⟩ := mem_erase.mp ha
    rcases mem_insert.mp hin with rfl | hin
    · exact hne rfl
    · exact disjoint_left.mp hnew hmem hin
  · exact (mem_filter.mp ha).2 hin

/-- A successor of a seen node stays seen or pending ; those of `node` become so. -/
theorem frontier_advance (hfront : ∀ a ∈ seen, succ a ⊆ seen ∪ stage) :
    ∀ a ∈ insert node seen, succ a ⊆ insert node seen ∪ advance stage seen node (succ node) := by
  intro a ha b hb
  by_cases hin : b ∈ insert node seen
  · exact mem_union_left _ hin
  · refine mem_union_right _ (mem_union.mpr ?_)
    rcases mem_insert.mp ha with rfl | ha
    · exact Or.inr (mem_filter.mpr ⟨hb, hin⟩)
    · rw [mem_insert, not_or] at hin
      rcases mem_union.mp (hfront a ha hb) with hb | hb
      · exact absurd hb hin.2
      · exact Or.inl (mem_erase.mpr ⟨hin.1, hb⟩)

/-- Seeing a pending node changes nothing about what is seen or can be reached. -/
theorem reaches_advance_iff (hfront : ∀ a ∈ seen, succ a ⊆ seen ∪ stage) (hnode : node ∈ stage) :
    (b ∈ insert node seen ∨ ∃ a ∈ advance stage seen node (succ node), Reaches succ a b) ↔
      b ∈ seen ∨ ∃ a ∈ stage, Reaches succ a b := by
  constructor
  · rintro (hb | ⟨a, ha, hab⟩)
    · rcases mem_insert.mp hb with rfl | hb
      · exact Or.inr ⟨b, hnode, .refl⟩
      · exact Or.inl hb
    · rcases mem_union.mp ha with ha | ha
      · exact Or.inr ⟨a, mem_of_mem_erase ha, hab⟩
      · exact Or.inr ⟨node, hnode, .head (mem_filter.mp ha).1 hab⟩
  · rintro (hb | ⟨a, ha, hab⟩)
    · exact Or.inl (mem_insert_of_mem hb)
    · refine reaches_of_frontier (frontier_advance hfront) ?_ hab
      by_cases heq : a = node
      · exact mem_union_left _ (heq ▸ mem_insert_self _ _)
      · exact mem_union_right _ (mem_union_left _ (mem_erase.mpr ⟨heq, ha⟩))

theorem card_sdiff_insert_lt (hnode : node ∈ nodes) (hunseen : node ∉ seen) :
    (nodes \ insert node seen).card < (nodes \ seen).card := by
  refine card_lt_card ((ssubset_iff_of_subset ?_).mpr
    ⟨node, by simp [hnode, hunseen], by simp⟩)
  exact sdiff_subset_sdiff le_rfl (subset_insert _ _)

/-- What was seen together with all that can be reached is closed. -/
theorem closedUnder_of_frontier {found : Finset α} (hfront : ∀ a ∈ seen, succ a ⊆ seen ∪ stage)
    (hmem : ∀ b, b ∈ found ↔ b ∈ seen ∨ ∃ a ∈ stage, Reaches succ a b) :
    ClosedUnder succ found := by
  intro a ha b hb
  rw [hmem] at ha ⊢
  rcases ha with ha | ⟨c, hc, hca⟩
  · rcases mem_union.mp (hfront a ha hb) with hb | hb
    · exact Or.inl hb
    · exact Or.inr ⟨b, hb, .refl⟩
  · exact Or.inr ⟨c, hc, hca.tail hb⟩

end Graph

/-! ## The walk -/

variable [LinearOrder α]

/-- Mark the nodes that can be reached from the nodes of `stage`, in at most `fuel` steps. -/
def explore (next : α → Except ε (Finset α)) : ℕ → Finset α → Finset α → Except ε (Finset α)
  | 0, _, seen => .ok seen
  | fuel + 1, stage, seen =>
    if h : stage.Nonempty then do
      let succs ← next (stage.min' h)
      explore next fuel (advance stage seen (stage.min' h) succs) (insert (stage.min' h) seen)
    else .ok seen

/-- The walk adds what the pending nodes reach to what was seen. -/
theorem explore_eq_ok {next : α → Except ε (Finset α)} {succ : α → Finset α}
    {nodes stage seen : Finset α} (hnext : ∀ a ∈ nodes, next a = .ok (succ a))
    (hnodes : ClosedUnder succ nodes) {fuel : ℕ} (hseen : seen ⊆ nodes) (hstage : stage ⊆ nodes)
    (hnew : Disjoint stage seen) (hfront : ∀ a ∈ seen, succ a ⊆ seen ∪ stage)
    (hfuel : (nodes \ seen).card ≤ fuel) :
    ∃ found, explore next fuel stage seen = .ok found ∧ found ⊆ nodes ∧
      ∀ b, b ∈ found ↔ b ∈ seen ∨ ∃ a ∈ stage, Reaches succ a b := by
  induction fuel generalizing stage seen with
  | zero =>
    have hempty : stage = ∅ := by
      refine eq_empty_of_forall_notMem fun a ha => ?_
      have hmem : a ∈ nodes \ seen :=
        mem_sdiff.mpr ⟨hstage ha, disjoint_left.mp hnew ha⟩
      rw [card_eq_zero.mp (Nat.le_zero.mp hfuel)] at hmem
      cases hmem
    exact ⟨seen, rfl, hseen, by simp [hempty]⟩
  | succ fuel ih =>
    rw [explore]
    split_ifs with h
    · have hmin := stage.min'_mem h
      generalize stage.min' h = node at hmin
      have hnode := hstage hmin
      have hless := card_sdiff_insert_lt hnode (disjoint_left.mp hnew hmin)
      obtain ⟨found, hfound, hsub, hmem⟩ := ih (insert_subset hnode hseen)
        (advance_subset hstage (hnodes node hnode)) (disjoint_advance hnew)
        (frontier_advance hfront) (by omega)
      refine ⟨found, by rw [hnext node hnode, ok_bind, hfound], hsub, fun b => ?_⟩
      rw [hmem, reaches_advance_iff hfront hmin]
    · rw [not_nonempty_iff_eq_empty] at h
      exact ⟨seen, rfl, hseen, by simp [h]⟩

end RadiantCore
