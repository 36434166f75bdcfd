import RadiantCore.MapUpdate
import Mathlib.Data.Finset.Sort

/-!
# Graphs with links in both directions

A map gives each node the set of its parents and the set of its children. A link is an element of one
of these sets, so an edge of the graph is two links, one on each side. The map represents a relation
on a set of nodes when each side of each node is what the relation says (`Represents`).

A set of nodes is taken out in two passes and a removal (`cutAll`) : each node of the set is removed
from the children of its parents, then from the parents of what children it has left, and at last the
nodes themselves are removed. What remains represents the relation on the other nodes
(`Represents.cutAll`), whatever set it was. A new node without children is linked to its parents by
`attach` (`Represents.attach`).

The number of links (`linkCount`) changes by one with each link that is added or removed.
-/

namespace RadiantCore

open List Finmap

/-- The two sets of links of a node. -/
inductive Side
  | parents
  | children
deriving DecidableEq

/-- The side of the other end of a link. -/
def Side.other : Side → Side
  | .parents => .children
  | .children => .parents

/-- The links of a node. -/
structure Links (α : Type) where
  parents : Finset α
  children : Finset α
deriving DecidableEq

variable {α : Type}

namespace Links

/-- A node without links. -/
def empty : Links α := ⟨∅, ∅⟩

/-- One of the two sets. -/
def get (l : Links α) : Side → Finset α
  | .parents => l.parents
  | .children => l.children

/-- Replace one of the two sets. -/
def set (l : Links α) : Side → Finset α → Links α
  | .parents, s => { l with parents := s }
  | .children, s => { l with children := s }

section

variable (l : Links α)

section

variable (side : Side)

@[simp] theorem get_set_self (s : Finset α) : (l.set side s).get side = s := by cases side <;> rfl

@[simp] theorem get_set_other (s : Finset α) :
    (l.set side s).get side.other = l.get side.other := by cases side <;> rfl

@[simp] theorem set_get : l.set side (l.get side) = l := by
  cases side <;> rfl

/-- The number of links of a node. -/
def count (l : Links α) : ℤ := l.parents.card + l.children.card

theorem count_eq : l.count = (l.get side).card + (l.get side.other).card := by
  cases side
  · rfl
  · exact add_comm _ _

theorem count_set (s : Finset α) : (l.set side s).count = l.count - (l.get side).card + s.card := by
  rw [count_eq _ side, count_eq _ side, get_set_self, get_set_other]
  ring

end

end

end Links

/-- The links of all nodes. -/
abbrev LinkMap (α : Type) := FMap α (Links α)

section Update

variable [DecidableEq α]

/-- The links of a node, none when it is not in the map. -/
def linksAt (m : LinkMap α) (a : α) : Links α := (m.lookup a).getD .empty

theorem linksAt_insert (m : LinkMap α) (a b : α) (l : Links α) :
    linksAt (m.insert a l) b = if b = a then l else linksAt m b := by
  unfold linksAt
  split_ifs with h
  · rw [h, lookup_insert, Option.getD_some]
  · rw [lookup_insert_of_ne _ h]

theorem lookup_of_mem {m : LinkMap α} {a : α} (h : a ∈ m) : m.lookup a = some (linksAt m a) := by
  obtain ⟨l, hl⟩ := mem_iff.mp h
  rw [linksAt, hl, Option.getD_some]

/-- The number of links in the map. -/
def linkCount (m : LinkMap α) : ℤ := mapSum Links.count m

theorem linkCount_insert (m : LinkMap α) (a : α) (l : Links α) :
    linkCount (m.insert a l) = linkCount m - (linksAt m a).count + l.count := by
  have hinsert : m.insert a l = (m.erase a).insert a l := by
    refine ext_lookup fun b => ?_
    by_cases hb : b = a
    · rw [hb, lookup_insert, lookup_insert]
    · rw [lookup_insert_of_ne _ hb, lookup_insert_of_ne _ hb,
        lookup_erase_ne hb]
  have herase : mapSum Links.count (m.erase a) = mapSum Links.count m - (linksAt m a).count := by
    by_cases h : a ∈ m
    · exact mapSum_erase (lookup_of_mem h)
    · rw [erase_of_notMem h, linksAt, lookup_eq_none.mpr h]
      simp [Links.count, Links.empty]
  rw [linkCount, hinsert, mapSum_insert notMem_erase_self, herase, linkCount]

theorem linkCount_erase {m : LinkMap α} {a : α} (h : a ∈ m) :
    linkCount (m.erase a) = linkCount m - (linksAt m a).count :=
  mapSum_erase (lookup_of_mem h)

/-- The number of links, node by node. -/
theorem linkCount_eq_sum {m : LinkMap α} {nodes : List α} (hnodup : nodes.Nodup)
    (hkeys : ∀ a, a ∈ m ↔ a ∈ nodes) :
    linkCount m = (nodes.map fun a => (linksAt m a).count).sum := by
  induction nodes generalizing m with
  | nil =>
    have hempty : m = ∅ := ext_lookup fun a => by
      rw [lookup_empty, lookup_eq_none, hkeys]
      simp
    rw [hempty]
    rfl
  | cons a nodes ih =>
    rw [nodup_cons] at hnodup
    have hne : ∀ b ∈ nodes, b ≠ a := fun b hb heq => hnodup.1 (heq ▸ hb)
    have hrest : ∀ b, b ∈ m.erase a ↔ b ∈ nodes := fun b => by
      rw [mem_erase, hkeys, mem_cons]
      exact ⟨fun h => h.2.resolve_left h.1, fun hb => ⟨hne b hb, Or.inr hb⟩⟩
    have hsame : ∀ b ∈ nodes, (linksAt (m.erase a) b).count = (linksAt m b).count := fun b hb => by
      rw [linksAt, lookup_erase_ne (hne b hb), ← linksAt]
    have hcount := ih hnodup.2 hrest
    rw [linkCount_erase ((hkeys a).mpr (mem_cons_self ..)), map_congr_left hsame] at hcount
    rw [map_cons, sum_cons, ← hcount]
    ring

/-! ## Single links -/

/-- The set with an element added or removed. -/
def putElement (s : Finset α) (b : α) (add : Bool) : Finset α := if add then insert b s else s.erase b

/-- Add `b` to one side of `a`, or remove it. -/
def setLink (m : LinkMap α) (side : Side) (a b : α) (add : Bool) : LinkMap α :=
  m.insert a ((linksAt m a).set side (putElement ((linksAt m a).get side) b add))

/-- Add `b` to one side of some nodes, or remove it. -/
def setLinks (m : LinkMap α) (side : Side) (nodes : List α) (b : α) (add : Bool) : LinkMap α :=
  nodes.foldl (fun m a => setLink m side a b add) m

theorem linkCount_setLink (m : LinkMap α) (side : Side) (a b : α) (add : Bool) :
    linkCount (setLink m side a b add) = linkCount m - ((linksAt m a).get side).card +
      (putElement ((linksAt m a).get side) b add).card := by
  rw [setLink, linkCount_insert, Links.count_set]
  ring

theorem mem_setLink {m : LinkMap α} {side : Side} {a b c : α} {add : Bool} :
    c ∈ setLink m side a b add ↔ c = a ∨ c ∈ m := mem_insert

theorem get_setLink (m : LinkMap α) (side : Side) (a b c : α) (add : Bool) :
    (linksAt (setLink m side a b add) c).get side =
      if c = a then putElement ((linksAt m c).get side) b add else (linksAt m c).get side := by
  rw [setLink, linksAt_insert]
  split_ifs with h
  · rw [Links.get_set_self, h]
  · rfl

theorem get_other_setLink (m : LinkMap α) (side : Side) (a b c : α) (add : Bool) :
    (linksAt (setLink m side a b add) c).get side.other = (linksAt m c).get side.other := by
  rw [setLink, linksAt_insert]
  split_ifs with h
  · rw [Links.get_set_other, h]
  · rfl

theorem putElement_putElement (s : Finset α) (b : α) (add : Bool) :
    putElement (putElement s b add) b add = putElement s b add := by
  cases add with
  | false => simp [putElement]
  | true => simp [putElement]

theorem mem_setLinks {m : LinkMap α} {side : Side} {nodes : List α} {b c : α} {add : Bool} :
    c ∈ setLinks m side nodes b add ↔ c ∈ nodes ∨ c ∈ m := by
  induction nodes generalizing m with
  | nil => simp [setLinks]
  | cons a nodes ih =>
    rw [setLinks, foldl_cons, ← setLinks, ih, mem_setLink, mem_cons]
    tauto

theorem get_setLinks (m : LinkMap α) (side : Side) (nodes : List α) (b c : α) (add : Bool) :
    (linksAt (setLinks m side nodes b add) c).get side =
      if c ∈ nodes then putElement ((linksAt m c).get side) b add else (linksAt m c).get side := by
  induction nodes generalizing m with
  | nil => simp [setLinks]
  | cons a nodes ih =>
    rw [setLinks, foldl_cons, ← setLinks, ih, get_setLink]
    by_cases hc : c = a
    · simp [hc, putElement_putElement]
    · simp [hc]

theorem get_other_setLinks (m : LinkMap α) (side : Side) (nodes : List α) (b c : α) (add : Bool) :
    (linksAt (setLinks m side nodes b add) c).get side.other = (linksAt m c).get side.other :=
  foldlRecOn (motive := fun m' => (linksAt m' c).get side.other = (linksAt m c).get side.other)
    _ _ rfl fun m' h a _ => (get_other_setLink m' side a b c add).trans h

end Update

/-! ## Cutting the links of nodes -/

theorem isTrans_le [LinearOrder α] : IsTrans α (· ≤ ·) := inferInstance

theorem antisymm_le [LinearOrder α] : Std.Antisymm fun a b : α => a ≤ b := inferInstance

attribute [local instance] isTrans_le antisymm_le

section Cut

variable [LinearOrder α]

/-- Remove a node from one side of the nodes on its other side. -/
def cut (m : LinkMap α) (side : Side) (a : α) : LinkMap α :=
  setLinks m side (((linksAt m a).get side.other).sort (· ≤ ·)) a false

/-- Remove some nodes from one side of the nodes on their other sides. -/
def cutList (m : LinkMap α) (side : Side) (nodes : List α) : LinkMap α :=
  nodes.foldl (fun m a => cut m side a) m

/-- Take some nodes out : cut them off from their parents, then from their children, and remove
them. -/
def cutAll (m : LinkMap α) (nodes : List α) : LinkMap α :=
  eraseAll (cutList (cutList m .children nodes) .parents nodes) nodes

theorem get_other_cutList (m : LinkMap α) (side : Side) (nodes : List α) (c : α) :
    (linksAt (cutList m side nodes) c).get side.other = (linksAt m c).get side.other :=
  foldlRecOn (motive := fun m' => (linksAt m' c).get side.other = (linksAt m c).get side.other)
    _ _ rfl fun m' h a _ => (get_other_setLinks m' side _ a c false).trans h

theorem mem_get_cutList (m : LinkMap α) (side : Side) (nodes : List α) (b c : α) :
    b ∈ (linksAt (cutList m side nodes) c).get side ↔
      b ∈ (linksAt m c).get side ∧ ¬ (b ∈ nodes ∧ c ∈ (linksAt m b).get side.other) := by
  induction nodes generalizing m with
  | nil => simp [cutList]
  | cons a nodes ih =>
    rw [cutList, foldl_cons, ← cutList, ih, cut, get_setLinks, get_other_setLinks,
      mem_cons]
    split_ifs with hc
    · rw [Finset.mem_sort] at hc
      rw [putElement, if_neg (by decide), Finset.mem_erase]
      by_cases hb : b = a
      · simp [hb, hc]
      · simp [hb]
    · rw [Finset.mem_sort] at hc
      by_cases hb : b = a
      · simp [hb, hc]
      · simp [hb]

theorem mem_cutList_of_mem {m : LinkMap α} {side : Side} {nodes : List α} {c : α} (hc : c ∈ m) :
    c ∈ cutList m side nodes :=
  foldlRecOn (motive := (c ∈ ·)) _ _ hc fun _ h _ _ => mem_setLinks.mpr (Or.inr h)

theorem mem_cutList {m : LinkMap α} {side : Side} {nodes : List α}
    (h : ∀ a ∈ nodes, ∀ c ∈ (linksAt m a).get side.other, c ∈ m) {c : α} :
    c ∈ cutList m side nodes ↔ c ∈ m := by
  induction nodes generalizing m with
  | nil => rfl
  | cons a nodes ih =>
    rw [forall_mem_cons] at h
    have hcut : ∀ b, b ∈ cut m side a ↔ b ∈ m := fun b => by
      rw [cut, mem_setLinks, Finset.mem_sort]
      exact ⟨fun hb => hb.elim (h.1 b) id, Or.inr⟩
    rw [cutList, foldl_cons, ← cutList, ih, hcut]
    intro b hb d hd
    rw [cut, get_other_setLinks] at hd
    exact (hcut d).mpr (h.2 b hb d hd)

theorem linksAt_cutAll (m : LinkMap α) {nodes : List α} {a : α} (ha : a ∉ nodes) :
    linksAt (cutAll m nodes) a = linksAt (cutList (cutList m .children nodes) .parents nodes) a := by
  rw [linksAt, cutAll, lookup_eraseAll, if_neg ha, linksAt]

theorem mem_children_cutAll (m : LinkMap α) {nodes : List α} {a : α} (ha : a ∉ nodes) (b : α) :
    b ∈ (linksAt (cutAll m nodes) a).children ↔
      b ∈ (linksAt m a).children ∧ ¬ (b ∈ nodes ∧ a ∈ (linksAt m b).parents) := by
  have hsame : (linksAt (cutList (cutList m .children nodes) .parents nodes) a).children =
      (linksAt (cutList m .children nodes) a).children :=
    get_other_cutList (cutList m .children nodes) .parents nodes a
  rw [linksAt_cutAll m ha, hsame]
  exact mem_get_cutList m .children nodes b a

/-- The second pass sees the children that are left, which a node that stays is one of. -/
theorem mem_parents_cutAll (m : LinkMap α) {nodes : List α} {a : α} (ha : a ∉ nodes) (b : α) :
    b ∈ (linksAt (cutAll m nodes) a).parents ↔
      b ∈ (linksAt m a).parents ∧ ¬ (b ∈ nodes ∧ a ∈ (linksAt m b).children) := by
  have hsame : (linksAt (cutList m .children nodes) a).parents = (linksAt m a).parents :=
    get_other_cutList m .children nodes a
  have hleft : a ∈ (linksAt (cutList m .children nodes) b).children ↔
      a ∈ (linksAt m b).children :=
    (mem_get_cutList m .children nodes a b).trans (and_iff_left fun h => ha h.1)
  have hcut : b ∈ (linksAt (cutList (cutList m .children nodes) .parents nodes) a).parents ↔
      b ∈ (linksAt (cutList m .children nodes) a).parents ∧
        ¬ (b ∈ nodes ∧ a ∈ (linksAt (cutList m .children nodes) b).children) :=
    mem_get_cutList (cutList m .children nodes) .parents nodes b a
  rw [linksAt_cutAll m ha, hcut, hsame, hleft]

/-- Nothing but the nodes themselves leaves the map, when all links are between its nodes. -/
theorem mem_cutAll {m : LinkMap α} {nodes : List α}
    (hparents : ∀ a ∈ nodes, ∀ c ∈ (linksAt m a).parents, c ∈ m)
    (hchildren : ∀ a ∈ nodes, ∀ c ∈ (linksAt m a).children, c ∈ m) {c : α} :
    c ∈ cutAll m nodes ↔ c ∉ nodes ∧ c ∈ m := by
  have hfirst : ∀ c, c ∈ cutList m .children nodes ↔ c ∈ m := fun c =>
    @mem_cutList _ _ _ .children _ hparents _
  have hsecond : c ∈ cutList (cutList m .children nodes) .parents nodes ↔ c ∈ m := by
    rw [mem_cutList, hfirst]
    intro a ha c hc
    exact (hfirst c).mpr (hchildren a ha c ((mem_get_cutList m .children nodes c a).mp hc).1)
  rw [← hsecond, cutAll, mem_iff, mem_iff]
  simp only [lookup_eraseAll_eq_some, exists_and_left]

end Cut

/-! ## The relation a map represents -/

section Represents

variable [DecidableEq α] {m : LinkMap α} {nodes : Finset α} {rel : α → α → Prop}

/-- The map has the links of the relation `rel` of children to their parents, on `nodes`. -/
structure Represents (m : LinkMap α) (nodes : Finset α) (rel : α → α → Prop) : Prop where
  keys : ∀ a, a ∈ m ↔ a ∈ nodes
  parents : ∀ a ∈ nodes, ∀ b, b ∈ (linksAt m a).parents ↔ b ∈ nodes ∧ rel a b
  children : ∀ a ∈ nodes, ∀ b, b ∈ (linksAt m a).children ↔ b ∈ nodes ∧ rel b a

theorem Represents.congr {rel' : α → α → Prop} (h : Represents m nodes rel)
    (hrel : ∀ a ∈ nodes, ∀ b ∈ nodes, rel a b ↔ rel' a b) : Represents m nodes rel' where
  keys := h.keys
  parents a ha b := by
    rw [h.parents a ha]
    exact and_congr_right fun hb => hrel a ha b hb
  children a ha b := by
    rw [h.children a ha]
    exact and_congr_right fun hb => hrel b hb a ha

end Represents

/-- Taking out any set of nodes leaves the relation on the others. -/
theorem Represents.cutAll [LinearOrder α] {m : LinkMap α} {nodes : Finset α}
    {rel : α → α → Prop} (h : Represents m nodes rel) {stage : List α}
    (hstage : ∀ a ∈ stage, a ∈ nodes) :
    Represents (cutAll m stage) (nodes.filter (· ∉ stage)) rel := by
  constructor
  · intro a
    rw [mem_cutAll, Finset.mem_filter, h.keys, and_comm]
    · exact fun b hb c hc => (h.keys c).mpr ((h.parents b (hstage b hb) c).mp hc).1
    · exact fun b hb c hc => (h.keys c).mpr ((h.children b (hstage b hb) c).mp hc).1
  · intro a ha b
    obtain ⟨ha, hkept⟩ := Finset.mem_filter.mp ha
    rw [mem_parents_cutAll m hkept, h.parents a ha, Finset.mem_filter]
    constructor
    · rintro ⟨⟨hb, hrel⟩, hcut⟩
      exact ⟨⟨hb, fun hin => hcut ⟨hin, (h.children b hb a).mpr ⟨ha, hrel⟩⟩⟩, hrel⟩
    · rintro ⟨⟨hb, hout⟩, hrel⟩
      exact ⟨⟨hb, hrel⟩, fun hcut => hout hcut.1⟩
  · intro a ha b
    obtain ⟨ha, hkept⟩ := Finset.mem_filter.mp ha
    rw [mem_children_cutAll m hkept, h.children a ha, Finset.mem_filter]
    constructor
    · rintro ⟨⟨hb, hrel⟩, hcut⟩
      exact ⟨⟨hb, fun hin => hcut ⟨hin, (h.parents b hb a).mpr ⟨ha, hrel⟩⟩⟩, hrel⟩
    · rintro ⟨⟨hb, hout⟩, hrel⟩
      exact ⟨⟨hb, hrel⟩, fun hcut => hout hcut.1⟩

/-! ## A new node -/

section Attach

variable [LinearOrder α]

/-- Add some nodes to the parents of a node. -/
def addParents (m : LinkMap α) (a : α) (parents : List α) : LinkMap α :=
  parents.foldl (fun m p => setLink m .parents a p true) m

/-- Put a new node into the map, link it to its parents, and its parents to it. -/
def attach (m : LinkMap α) (a : α) (parents : List α) : LinkMap α :=
  setLinks (addParents (m.insert a .empty) a parents) .children
    ((linksAt (addParents (m.insert a .empty) a parents) a).parents.sort (· ≤ ·)) a true

theorem mem_addParents {m : LinkMap α} {a c : α} {parents : List α} (ha : a ∈ m) :
    c ∈ addParents m a parents ↔ c ∈ m := by
  refine foldlRecOn (motive := fun m' => c ∈ m' ↔ c ∈ m) _ _ Iff.rfl fun m' h p _ => ?_
  rw [mem_setLink, h]
  exact ⟨fun hc => hc.elim (fun hc => hc ▸ ha) id, Or.inr⟩

section

variable (parents : List α)

section

variable (m : LinkMap α)

theorem children_addParents (a c : α) :
    (linksAt (addParents m a parents) c).children = (linksAt m c).children :=
  foldlRecOn (motive := fun m' => (linksAt m' c).children = (linksAt m c).children) _ _ rfl
    fun m' h p _ => (get_other_setLink m' .parents a p c true).trans h

theorem mem_parents_addParents (a b c : α) :
    b ∈ (linksAt (addParents m a parents) c).parents ↔
      c = a ∧ b ∈ parents ∨ b ∈ (linksAt m c).parents := by
  induction parents generalizing m with
  | nil => simp [addParents]
  | cons p parents ih =>
    have hset : (linksAt (setLink m .parents a p true) c).parents =
        if c = a then insert p (linksAt m c).parents else (linksAt m c).parents :=
      get_setLink m .parents a p c true
    rw [addParents, foldl_cons, ← addParents, ih, hset, mem_cons]
    split_ifs with hc
    · rw [Finset.mem_insert]
      tauto
    · tauto

theorem mem_parents_attach (a b c : α) :
    b ∈ (linksAt (attach m a parents) c).parents ↔
      if c = a then b ∈ parents else b ∈ (linksAt m c).parents := by
  have hsame : (linksAt (attach m a parents) c).parents =
      (linksAt (addParents (m.insert a .empty) a parents) c).parents :=
    get_other_setLinks _ .children _ a c true
  rw [hsame, mem_parents_addParents, linksAt_insert]
  split_ifs with hc
  · simp [hc, Links.empty]
  · simp [hc]

theorem mem_children_attach (a b c : α) :
    b ∈ (linksAt (attach m a parents) c).children ↔
      c ∈ parents ∧ b = a ∨ c ≠ a ∧ b ∈ (linksAt m c).children := by
  have hnew : c ∈ (linksAt (addParents (m.insert a .empty) a parents) a).parents.sort (· ≤ ·) ↔
      c ∈ parents := by
    rw [Finset.mem_sort, mem_parents_addParents, linksAt_insert, if_pos rfl]
    simp [Links.empty]
  have hold : b ∈ (linksAt (m.insert a .empty) c).children ↔
      c ≠ a ∧ b ∈ (linksAt m c).children := by
    rw [linksAt_insert]
    split_ifs with hc
    · simp [hc, Links.empty]
    · simp [hc]
  have hput := get_setLinks (addParents (m.insert a .empty) a parents) .children
    ((linksAt (addParents (m.insert a .empty) a parents) a).parents.sort (· ≤ ·)) a c true
  simp only [hnew, Links.get, children_addParents, putElement, if_true] at hput
  rw [attach, hput]
  split_ifs with hc
  · rw [Finset.mem_insert, hold]
    simp [hc]
  · rw [hold]
    simp [hc]

end

end

theorem mem_attach {m : LinkMap α} {a c : α} {parents : List α} :
    c ∈ attach m a parents ↔ c = a ∨ c ∈ parents ∨ c ∈ m := by
  have hin : a ∈ m.insert a .empty := mem_insert.mpr (Or.inl rfl)
  rw [attach, mem_setLinks, mem_addParents hin, Finset.mem_sort, mem_parents_addParents,
    linksAt_insert, if_pos rfl, mem_insert]
  simp only [Links.empty, Finset.notMem_empty, or_false, true_and]
  tauto

/-- A new node that nothing in the map is a child of. -/
theorem Represents.attach {m : LinkMap α} {nodes : Finset α} {rel : α → α → Prop}
    (h : Represents m nodes rel) {a : α} (ha : a ∉ nodes) {parents : List α}
    (hparents : ∀ b, b ∈ parents ↔ b ∈ nodes ∧ rel a b) (hself : ¬ rel a a)
    (hchildren : ∀ b ∈ nodes, ¬ rel b a) :
    Represents (attach m a parents) (insert a nodes) rel := by
  have hne : ∀ c ∈ nodes, c ≠ a := fun c hc heq => ha (heq ▸ hc)
  constructor
  · intro c
    rw [mem_attach, hparents, h.keys, Finset.mem_insert]
    tauto
  · intro c hc b
    rw [mem_parents_attach, Finset.mem_insert]
    rcases Finset.mem_insert.mp hc with rfl | hc
    · rw [if_pos rfl, hparents]
      refine and_congr_left fun hrel => ⟨Or.inr, fun hb => hb.resolve_left fun heq => ?_⟩
      exact hself (heq ▸ hrel)
    · rw [if_neg (hne c hc), h.parents c hc]
      refine and_congr_left fun hrel => ⟨Or.inr, fun hb => hb.resolve_left fun heq => ?_⟩
      exact hchildren c hc (heq ▸ hrel)
  · intro c hin b
    rw [mem_children_attach, hparents, Finset.mem_insert]
    rcases Finset.mem_insert.mp hin with rfl | hc
    · constructor
      · rintro (⟨⟨hin, -⟩, -⟩ | ⟨hneq, -⟩)
        · exact absurd hin ha
        · exact absurd rfl hneq
      · rintro ⟨rfl | hb, hrel⟩
        · exact absurd hrel hself
        · exact absurd hrel (hchildren b hb)
    · rw [h.children c hc]
      constructor
      · rintro (⟨⟨-, hrel⟩, rfl⟩ | ⟨-, hb, hrel⟩)
        · exact ⟨Or.inl rfl, hrel⟩
        · exact ⟨Or.inr hb, hrel⟩
      · rintro ⟨rfl | hb, hrel⟩
        · exact Or.inl ⟨⟨hc, hrel⟩, rfl⟩
        · exact Or.inr ⟨hne c hc, hb, hrel⟩

end Attach

end RadiantCore
