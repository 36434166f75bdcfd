import Mathlib.Data.Finset.Sort
import Mathlib.Data.List.Chain
import Mathlib.Logic.Relation
import Mathlib.Tactic

/-!
# Queues in which dependants come first

Items have a key and depend on the items with certain keys. A queue of items with distinct keys is
ordered when every item stands before the items it depends on (`Ordered`). A new item is put at the
end (`enqueue`) ; the queued items it depends on are then taken out and put back at the end, after
that those they depend on, and so on, level by level (`requeueLevels`).

While the levels are worked off, the order may be violated for the items that are still to be moved
only. That is the invariant, with a set of pending keys (`Ordered.requeueLevel`) : moving an item to
the end puts it behind its dependants, and makes what it depends on pending. Without cyclic
dependencies the levels end : an item of the `n`-th level is the end of a chain of `n` dependants,
and a chain in the queue is not longer than the queue (`length_le_of_isChain`).
-/

namespace RadiantCore

open List

variable {α κ : Type}

/-! ## Ordered queues -/

section Order

variable (key : α → κ) (deps : α → List κ)

/-- `a` depends on `b`. -/
def DependsOn (a b : α) : Prop := key b ∈ deps a

/-- Every item stands before the items it depends on, but for items with a pending key. -/
structure Ordered (pending : κ → Prop) (q : List α) : Prop where
  pairwise : q.Pairwise fun b a => DependsOn key deps a b → pending (key b)
  irrefl : ∀ a ∈ q, DependsOn key deps a a → pending (key a)

/-- No item of the list depends on itself, through items of the list. -/
def NoCycle (items : List α) : Prop :=
  ∀ a, ¬ Relation.TransGen (fun a b => a ∈ items ∧ b ∈ items ∧ DependsOn key deps a b) a a

variable {key deps} {pending pending' : κ → Prop} {q q' items items' : List α}

theorem NoCycle.mono (h : NoCycle key deps items') (hsub : items ⊆ items') :
    NoCycle key deps items :=
  fun a hcycle => h a (hcycle.lift id fun _ _ hab => ⟨hsub hab.1, hsub hab.2.1, hab.2.2⟩)

theorem noCycle_of_rank (rank : α → ℕ)
    (h : ∀ a ∈ items, ∀ b ∈ items, DependsOn key deps a b → rank b < rank a) :
    NoCycle key deps items := by
  intro a hcycle
  have hlt : Relation.TransGen (fun m n : ℕ => n < m) (rank a) (rank a) :=
    hcycle.lift rank fun a b hab => h a hab.1 b hab.2.1 hab.2.2
  rw [Relation.transGen_eq_self] at hlt
  exact lt_irrefl _ hlt

/-- A chain of dependants in a list without cycles is not longer than the list. -/
theorem NoCycle.length_le_of_isChain (h : NoCycle key deps items) {l : List α}
    (hchain : l.IsChain fun b a => DependsOn key deps a b) (hsub : l ⊆ items) :
    l.length ≤ items.length := by
  have hin : l.IsChain fun b a =>
      Relation.TransGen (fun a b => a ∈ items ∧ b ∈ items ∧ DependsOn key deps a b) a b :=
    hchain.imp_of_mem_imp fun b a hb ha hab => .single ⟨hsub ha, hsub hb, hab⟩
  have hnodup : l.Nodup := by
    refine (List.IsChain.pairwise hin).imp fun {b a} hab heq => ?_
    exact h a (heq ▸ hab)
  exact (subperm_of_subset hnodup hsub).length_le

theorem Ordered.imp_of_mem (h : Ordered key deps pending q)
    (himp : ∀ a ∈ q, pending (key a) → pending' (key a)) : Ordered key deps pending' q where
  pairwise := h.pairwise.imp_of_mem fun hb _ hab hdep => himp _ hb (hab hdep)
  irrefl a ha hdep := himp a ha (h.irrefl a ha hdep)

theorem Ordered.sublist (h : Ordered key deps pending q) (hsub : q'.Sublist q) :
    Ordered key deps pending q' where
  pairwise := h.pairwise.sublist hsub
  irrefl a ha := h.irrefl a (hsub.subset ha)

/-- The items in front may be what nothing behind depends on. -/
theorem Ordered.append (h : Ordered key deps pending q) (h' : Ordered key deps pending q')
    (hfront : ∀ b ∈ q, ∀ a ∈ q', ¬ DependsOn key deps a b) :
    Ordered key deps pending (q ++ q') where
  pairwise := pairwise_append.mpr ⟨h.pairwise, h'.pairwise,
    fun b hb a ha hdep => absurd hdep (hfront b hb a ha)⟩
  irrefl a ha := (mem_append.mp ha).elim (h.irrefl a) (h'.irrefl a)

variable {a : α}

/-- An item put at the end makes what it depends on pending. -/
theorem Ordered.snoc (h : Ordered key deps pending q) :
    Ordered key deps (fun k => pending k ∨ k ∈ deps a) (q ++ [a]) where
  pairwise := by
    refine pairwise_append.mpr ⟨h.pairwise.imp fun hab hdep => Or.inl (hab hdep),
      pairwise_singleton _ _, fun b _ c hc hdep => ?_⟩
    rw [mem_singleton] at hc
    exact Or.inr (hc ▸ hdep)
  irrefl b hb hdep := by
    rcases mem_append.mp hb with hb | hb
    · exact Or.inl (h.irrefl b hb hdep)
    · rw [mem_singleton] at hb
      exact Or.inr (hb ▸ hdep)

/-- In an ordered queue, what an item depends on stands behind it. -/
theorem Ordered.mem_after {before after : List α} {b : α}
    (h : Ordered key deps (fun _ => False) (before ++ a :: after))
    (hb : b ∈ before ++ a :: after) (hdep : DependsOn key deps a b) : b ∈ after := by
  rcases mem_append.mp hb with hb | hb
  · exact ((pairwise_append.mp h.pairwise).2.2 b hb a (mem_cons_self ..) hdep).elim
  · rcases mem_cons.mp hb with rfl | hb
    · exact (h.irrefl b (by simp) hdep).elim
    · exact hb

end Order

/-! ## Moving items to the end -/

section Requeue

variable [LinearOrder κ] (key : α → κ) (deps : α → List κ)

/-- Take the item with a key out of the queue and put it back at the end, and add what it depends
on to the keys that are to be moved next. -/
def requeue (st : List α × Finset κ) (k : κ) : List α × Finset κ :=
  match st.1.find? (key · = k) with
  | none => st
  | some a => (st.1.filter (key · ≠ k) ++ [a], st.2 ∪ (deps a).toFinset)

/-- Move the items of one level. -/
def requeueLevel (q : List α) (worklist : List κ) : List α × Finset κ :=
  worklist.foldl (requeue key deps) (q, ∅)

/-- Move the items with the keys `parents`, then what they depend on, for at most `levels`
levels. -/
def requeueLevels : ℕ → List α → Finset κ → List α
  | 0, q, _ => q
  | levels + 1, q, parents =>
    if parents = ∅ then q
    else
      let next := requeueLevel key deps q (parents.sort (· ≤ ·))
      requeueLevels levels next.1 next.2

/-- Put a new item into the queue, and what it depends on behind it. -/
def enqueue (q : List α) (a : α) : List α :=
  if q.any (key · = key a) then q
  else requeueLevels key deps (q.length + 1) (q ++ [a]) (deps a).toFinset

variable {key deps} {q : List α}

variable (deps) in
/-- What `requeue` does to a queue with distinct keys. -/
theorem requeue_cases (hnodup : (q.map key).Nodup) (next : Finset κ) (k : κ) :
    (requeue key deps (q, next) k = (q, next) ∧ ∀ a ∈ q, key a ≠ k) ∨
      ∃ before a after, q = before ++ a :: after ∧ key a = k ∧
        requeue key deps (q, next) k = (before ++ after ++ [a], next ∪ (deps a).toFinset) := by
  unfold requeue
  split
  · rename_i hnone
    exact Or.inl ⟨rfl, fun a ha => by simpa using find?_eq_none.mp hnone a ha⟩
  · rename_i a hsome
    obtain ⟨hkey, before, after, rfl, hbefore⟩ := find?_eq_some_iff_append.mp hsome
    have hkey : key a = k := by simpa using hkey
    refine Or.inr ⟨before, a, after, rfl, hkey, ?_⟩
    rw [map_append, map_cons, nodup_middle, nodup_cons] at hnodup
    have hne : ∀ b ∈ before ++ after, key b ≠ k := fun b hb heq =>
      hnodup.1 (by rw [← map_append, hkey, ← heq]; exact mem_map_of_mem hb)
    have hfilter : (before ++ a :: after).filter (key · ≠ k) = before ++ after := by
      rw [filter_append, filter_cons_of_neg (by simp [hkey]), ← filter_append]
      exact filter_eq_self.mpr fun b hb => by simpa using hne b hb
    simp only [hfilter]

variable (deps) in
theorem requeue_perm (hnodup : (q.map key).Nodup) (next : Finset κ) (k : κ) :
    (requeue key deps (q, next) k).1.Perm q := by
  rcases requeue_cases deps hnodup next k with ⟨heq, -⟩ | ⟨before, a, after, rfl, -, heq⟩
  · rw [heq]
  · rw [heq]
    exact (perm_append_singleton a (before ++ after)).trans perm_middle.symm

variable {next : Finset κ} {k : κ}

/-- Moving one item puts it behind its dependants. -/
theorem Ordered.requeue {pending : κ → Prop}
    (h : Ordered key deps (fun k' => k' = k ∨ pending k' ∨ k' ∈ next) q)
    (hnodup : (q.map key).Nodup) :
    Ordered key deps (fun k' => pending k' ∨ k' ∈ (requeue key deps (q, next) k).2)
      (requeue key deps (q, next) k).1 := by
  rcases requeue_cases deps hnodup next k with ⟨heq, hne⟩ | ⟨before, a, after, rfl, rfl, heq⟩
  · rw [heq]
    exact h.imp_of_mem fun a ha => (Or.resolve_left · (hne a ha))
  · rw [heq]
    have hothers : ∀ b ∈ before ++ after, key b ≠ key a := by
      rw [map_append, map_cons, nodup_middle, nodup_cons] at hnodup
      intro b hb hkey
      exact hnodup.1 (by rw [← map_append, ← hkey]; exact mem_map_of_mem hb)
    have hrest : Ordered key deps (fun k' => pending k' ∨ k' ∈ next) (before ++ after) :=
      (h.sublist (List.Sublist.append_left (sublist_cons_self a after) before)).imp_of_mem
        fun b hb hpending => hpending.resolve_left (hothers b hb)
    refine hrest.snoc.imp_of_mem fun b _ hpending => ?_
    rcases hpending with (hpending | hnext) | hdep
    · exact Or.inl hpending
    · exact Or.inr (Finset.mem_union_left _ hnext)
    · exact Or.inr (Finset.mem_union_right _ (mem_toFinset.mpr hdep))

variable (deps) in
theorem foldl_requeue_perm (worklist : List κ) (next : Finset κ) (hnodup : (q.map key).Nodup) :
    (worklist.foldl (requeue key deps) (q, next)).1.Perm q := by
  induction worklist generalizing q next with
  | nil => exact .refl _
  | cons k worklist ih =>
    have hperm := requeue_perm deps hnodup next k
    rw [foldl_cons]
    generalize requeue key deps (q, next) k = st at hperm ⊢
    exact (ih st.2 ((hperm.map key).nodup_iff.mpr hnodup)).trans hperm

variable {worklist : List κ}

/-- Moving the items of a worklist, with the keys `next` left for later. -/
theorem Ordered.foldl_requeue
    (h : Ordered key deps (fun k => k ∈ worklist ∨ k ∈ next) q) (hnodup : (q.map key).Nodup) :
    Ordered key deps (· ∈ (worklist.foldl (RadiantCore.requeue key deps) (q, next)).2)
      (worklist.foldl (RadiantCore.requeue key deps) (q, next)).1 := by
  induction worklist generalizing q next with
  | nil => exact h.imp_of_mem fun a _ ha => ha.resolve_left (by simp)
  | cons k worklist ih =>
    have hperm := requeue_perm deps hnodup next k
    have hstep : Ordered key deps
        (fun k' => k' ∈ worklist ∨ k' ∈ (RadiantCore.requeue key deps (q, next) k).2)
        (RadiantCore.requeue key deps (q, next) k).1 :=
      Ordered.requeue (h.imp_of_mem fun a _ ha => by simpa [or_assoc] using ha) hnodup
    rw [foldl_cons]
    generalize RadiantCore.requeue key deps (q, next) k = st at hperm hstep ⊢
    exact ih hstep ((hperm.map key).nodup_iff.mpr hnodup)

/-- The keys left for later are what the moved items depend on. -/
theorem mem_foldl_requeue (hnodup : (q.map key).Nodup) (h : k ∈ (worklist.foldl (requeue key deps) (q, next)).2) :
    k ∈ next ∨ ∃ a ∈ q, key a ∈ worklist ∧ k ∈ deps a := by
  induction worklist generalizing q next with
  | nil => exact Or.inl h
  | cons k' worklist ih =>
    have hperm := requeue_perm deps hnodup next k'
    have hcases := requeue_cases deps hnodup next k'
    rw [foldl_cons] at h
    obtain ⟨q', next'⟩ := requeue key deps (q, next) k'
    rcases ih ((hperm.map key).nodup_iff.mpr hnodup) h with hnext | ⟨a, ha, hkey, hdep⟩
    · rcases hcases with ⟨heq, -⟩ | ⟨before, a, after, rfl, hkey, heq⟩
      · exact Or.inl ((Prod.mk.inj heq).2 ▸ hnext)
      · rw [(Prod.mk.inj heq).2, Finset.mem_union, mem_toFinset] at hnext
        exact hnext.imp id fun hdep => ⟨a, by simp, by simp [hkey], hdep⟩
    · exact Or.inr ⟨a, hperm.mem_iff.mp ha, mem_cons_of_mem _ hkey, hdep⟩

/-- An item at the end of a chain of `n` items of the queue, each a dependant of the next. -/
def Deep (key : α → κ) (deps : α → List κ) (q : List α) (n : ℕ) (b : α) : Prop :=
  ∃ l, (b :: l).IsChain (fun b a => DependsOn key deps a b) ∧ b :: l ⊆ q ∧ n ≤ l.length + 1

variable {n : ℕ} {a b : α}

omit [LinearOrder κ] in
theorem Deep.step (h : Deep key deps q n a) (hb : b ∈ q)
    (hdep : DependsOn key deps a b) : Deep key deps q (n + 1) b := by
  obtain ⟨l, hchain, hsub, hlen⟩ := h
  refine ⟨a :: l, isChain_cons_cons.mpr ⟨hdep, hchain⟩, cons_subset.mpr ⟨hb, hsub⟩, ?_⟩
  rw [length_cons]
  omega

variable (deps) in
theorem requeueLevels_perm (levels : ℕ) (parents : Finset κ) (hnodup : (q.map key).Nodup) :
    (requeueLevels key deps levels q parents).Perm q := by
  induction levels generalizing q parents with
  | zero => exact .refl _
  | succ levels ih =>
    rw [requeueLevels]
    split_ifs
    · exact .refl _
    · have hperm : (requeueLevel key deps q (parents.sort (· ≤ ·))).1.Perm q :=
        foldl_requeue_perm deps _ ∅ hnodup
      exact (ih _ ((hperm.map key).nodup_iff.mpr hnodup)).trans hperm

variable (deps) in
theorem requeueLevel_perm (parents : Finset κ) (hnodup : (q.map key).Nodup) :
    (requeueLevel key deps q (parents.sort (· ≤ ·))).1.Perm q :=
  foldl_requeue_perm deps _ ∅ hnodup

variable {parents : Finset κ}

/-- The items of the next level are one deeper. -/
theorem deep_requeueLevel (hnodup : (q.map key).Nodup)
    (hdeep : ∀ b ∈ q, key b ∈ parents → Deep key deps q n b) :
    ∀ b ∈ (requeueLevel key deps q (parents.sort (· ≤ ·))).1,
      key b ∈ (requeueLevel key deps q (parents.sort (· ≤ ·))).2 →
        Deep key deps (requeueLevel key deps q (parents.sort (· ≤ ·))).1 (n + 1) b := by
  have hperm := requeueLevel_perm deps parents hnodup
  intro b hb hkey
  obtain ⟨a, ha, hparent, hdep⟩ := (mem_foldl_requeue hnodup hkey).resolve_left (by simp)
  obtain ⟨l, hchain, hsub, hlen⟩ :=
    (hdeep a ha ((Finset.mem_sort _).mp hparent)).step (hperm.mem_iff.mp hb) hdep
  exact ⟨l, hchain, fun c hc => hperm.mem_iff.mpr (hsub hc), hlen⟩

omit [LinearOrder κ] in
/-- No item is deeper than the queue is long. -/
theorem NoCycle.key_notMem (hcycle : NoCycle key deps q)
    (hdeep : ∀ b ∈ q, key b ∈ parents → Deep key deps q n b) (hlength : q.length < n) :
    ∀ b ∈ q, key b ∉ parents := by
  intro b hb hparent
  obtain ⟨l, hchain, hsub, hlen⟩ := hdeep b hb hparent
  have hle := hcycle.length_le_of_isChain hchain hsub
  rw [length_cons] at hle
  omega

/-- The levels restore the order, when the items of the first one are so deep that the levels
reach beyond the longest chain. -/
theorem Ordered.requeueLevels {levels : ℕ}
    (h : Ordered key deps (· ∈ parents) q) (hnodup : (q.map key).Nodup)
    (hcycle : NoCycle key deps q) (hdeep : ∀ b ∈ q, key b ∈ parents → Deep key deps q n b)
    (hlevels : q.length < n + levels) :
    Ordered key deps (fun _ => False) (requeueLevels key deps levels q parents) := by
  induction levels generalizing q n parents with
  | zero => exact h.imp_of_mem fun b hb hparent => hcycle.key_notMem hdeep hlevels b hb hparent
  | succ levels ih =>
    rw [RadiantCore.requeueLevels]
    split_ifs with hempty
    · exact h.imp_of_mem fun b _ hb => by simp [hempty] at hb
    · have hsort : Ordered key deps (fun k => k ∈ parents.sort (· ≤ ·) ∨ k ∈ (∅ : Finset κ)) q :=
        h.imp_of_mem fun b _ hb => Or.inl ((Finset.mem_sort _).mpr hb)
      have hordered := hsort.foldl_requeue hnodup
      rw [← requeueLevel] at hordered
      have hperm := requeueLevel_perm deps parents hnodup
      exact ih hordered ((hperm.map key).nodup_iff.mpr hnodup) (hcycle.mono hperm.subset)
        (deep_requeueLevel hnodup hdeep) (by rw [hperm.length_eq]; omega)

/-! ## New items -/

theorem nodup_snoc (hnodup : (q.map key).Nodup) (hnew : ¬ q.any (key · = key a)) :
    ((q ++ [a]).map key).Nodup := by
  rw [map_append, map_singleton, nodup_append']
  exact ⟨hnodup, nodup_singleton _, by simpa [disjoint_singleton] using hnew⟩

variable (deps) in
/-- A new item goes into the queue, an item with a queued key does not. -/
theorem enqueue_cases (hnodup : (q.map key).Nodup) (a : α) :
    (enqueue key deps q a = q ∧ key a ∈ q.map key) ∨
      (enqueue key deps q a).Perm (q ++ [a]) ∧ ((q ++ [a]).map key).Nodup := by
  unfold enqueue
  split_ifs with hqueued
  · exact Or.inl ⟨rfl, by simpa using hqueued⟩
  · have hnew := nodup_snoc hnodup hqueued
    exact Or.inr ⟨requeueLevels_perm deps _ _ hnew, hnew⟩

variable (deps) in
theorem nodup_enqueue (hnodup : (q.map key).Nodup) (a : α) :
    ((enqueue key deps q a).map key).Nodup := by
  rcases enqueue_cases deps hnodup a with ⟨heq, -⟩ | ⟨hperm, hnew⟩
  · rwa [heq]
  · exact (hperm.map key).nodup_iff.mpr hnew

variable (deps) in
theorem enqueue_subset (hnodup : (q.map key).Nodup) (a : α) : enqueue key deps q a ⊆ q ++ [a] := by
  rcases enqueue_cases deps hnodup a with ⟨heq, -⟩ | ⟨hperm, -⟩
  · rw [heq]
    exact subset_append_left _ _
  · exact hperm.subset

variable (deps) in
theorem key_mem_enqueue (hnodup : (q.map key).Nodup) (a : α) (hb : b ∈ q ++ [a]) :
    key b ∈ (enqueue key deps q a).map key := by
  rcases enqueue_cases deps hnodup a with ⟨heq, hqueued⟩ | ⟨hperm, -⟩
  · rw [heq]
    rcases mem_append.mp hb with hb | hb
    · exact mem_map_of_mem hb
    · rwa [mem_singleton.mp hb]
  · exact mem_map_of_mem (hperm.mem_iff.mpr hb)

omit [LinearOrder κ] in
/-- An item of the first level stands at the end of the chain of the new item and itself. -/
theorem deep_snoc (hparents : ∀ k ∈ parents, k ∈ deps a) :
    ∀ b ∈ q ++ [a], key b ∈ parents → Deep key deps (q ++ [a]) 2 b :=
  fun b hb hkey => ⟨[a], by simpa [DependsOn] using hparents _ hkey, by simpa using hb, le_rfl⟩

/-- A new item keeps the queue ordered. -/
theorem Ordered.enqueue (h : Ordered key deps (fun _ => False) q) (hnodup : (q.map key).Nodup) (hcycle : NoCycle key deps (q ++ [a])) :
    Ordered key deps (fun _ => False) (enqueue key deps q a) := by
  unfold RadiantCore.enqueue
  split_ifs with hqueued
  · exact h
  · have hpending : Ordered key deps (· ∈ (deps a).toFinset) (q ++ [a]) :=
      h.snoc.imp_of_mem fun b _ hb => mem_toFinset.mpr (hb.resolve_left id)
    exact hpending.requeueLevels (nodup_snoc hnodup hqueued) hcycle
      (deep_snoc fun k => mem_toFinset.mp)
      (by rw [length_append, length_singleton]; omega)

variable (deps) in
/-- The items of a queue after new ones : those it had and new ones, one for each key. -/
theorem foldl_enqueue (hnodup : (q.map key).Nodup) (items : List α) :
    ((items.foldl (enqueue key deps) q).map key).Nodup ∧
      items.foldl (enqueue key deps) q ⊆ q ++ items ∧
      ∀ a ∈ q ++ items, key a ∈ (items.foldl (enqueue key deps) q).map key := by
  induction items generalizing q with
  | nil => exact ⟨hnodup, by simp, fun a ha => mem_map_of_mem (by simpa using ha)⟩
  | cons a items ih =>
    obtain ⟨hdone, hsub, hkeys⟩ := ih (nodup_enqueue deps hnodup a)
    rw [foldl_cons, append_cons]
    refine ⟨hdone, fun b hb => ?_, fun b hb => ?_⟩
    · rcases mem_append.mp (hsub hb) with hb | hb
      · exact mem_append_left _ (enqueue_subset deps hnodup a hb)
      · exact mem_append_right _ hb
    · rcases mem_append.mp hb with hb | hb
      · obtain ⟨c, hc, hkey⟩ := mem_map.mp (key_mem_enqueue deps hnodup a hb)
        rw [← hkey]
        exact hkeys c (mem_append_left _ hc)
      · exact hkeys b (mem_append_right _ hb)

/-- New items keep the queue ordered. -/
theorem Ordered.foldl_enqueue {items : List α} (h : Ordered key deps (fun _ => False) q)
    (hnodup : (q.map key).Nodup) (hcycle : NoCycle key deps (q ++ items)) :
    Ordered key deps (fun _ => False) (items.foldl (RadiantCore.enqueue key deps) q) := by
  induction items generalizing q with
  | nil => exact h
  | cons a items ih =>
    rw [append_cons] at hcycle
    refine ih (h.enqueue hnodup (hcycle.mono (subset_append_left _ _)))
      (nodup_enqueue deps hnodup a) (hcycle.mono (append_subset.mpr ⟨fun b hb => ?_, ?_⟩))
    · exact mem_append_left _ (enqueue_subset deps hnodup a hb)
    · exact subset_append_right _ _

end Requeue

end RadiantCore
