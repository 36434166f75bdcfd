import Mathlib.Data.Finmap
import Mathlib.Tactic

/-!
# Batches of updates of a finite map

A finite map under a list of insertions (`insertAll`) or of removals (`eraseAll`). When
the inserted keys are distinct, the result holds the inserted pairs and the old values of
the other keys (`lookup_insertAll`), so that the order of the insertions does not matter
(`insertAll_perm`). Maps are compared by their lookups.

The sum of an integer over the values of a map (`mapSum`) follows the updates : new keys
add their values and present keys take them away.
-/

namespace RadiantCore

open List Finmap

variable {K V : Type} [DecidableEq K]

/-- A finite map from `K` to `V`. -/
abbrev FMap (K V : Type) := Finmap fun _ : K => V

/-- Insert the pairs of a list, from left to right. -/
def insertAll (m : FMap K V) : List (K × V) → FMap K V
  | [] => m
  | (k, v) :: l => insertAll (m.insert k v) l

/-- Remove the keys of a list, from left to right. -/
def eraseAll (m : FMap K V) : List K → FMap K V
  | [] => m
  | k :: l => eraseAll (m.erase k) l

theorem insertAll_append (m : FMap K V) (l l' : List (K × V)) :
    insertAll m (l ++ l') = insertAll (insertAll m l) l' := by
  induction l generalizing m with
  | nil => rfl
  | cons p l ih => exact ih _

theorem eraseAll_append (m : FMap K V) (l l' : List K) :
    eraseAll m (l ++ l') = eraseAll (eraseAll m l) l' := by
  induction l generalizing m with
  | nil => rfl
  | cons k l ih => exact ih _

variable {m : FMap K V}

/-- Two maps with the same pairs are equal. -/
theorem fmap_ext {m' : FMap K V} (h : ∀ k v, m.lookup k = some v ↔ m'.lookup k = some v) :
    m = m' :=
  ext_lookup fun k => Option.ext fun v => h k v

variable {k : K}

theorem erase_of_notMem (hk : k ∉ m) : m.erase k = m := by
  refine ext_lookup fun a => ?_
  by_cases ha : a = k
  · rw [ha, lookup_erase, lookup_eq_none.mpr hk]
  · rw [lookup_erase_ne ha]

variable {l : List (K × V)}

/-- Keys that are not inserted keep their value. -/
theorem lookup_insertAll_of_notMem
    (hk : k ∉ l.map Prod.fst) : (insertAll m l).lookup k = m.lookup k := by
  induction l generalizing m with
  | nil => rfl
  | cons p l ih =>
    rw [map_cons, mem_cons, not_or] at hk
    rw [insertAll, ih hk.2, lookup_insert_of_ne _ hk.1]

variable {v : V}

section

variable (hnodup : (l.map Prod.fst).Nodup)

include hnodup

/-- An inserted pair is found, when no other pair has its key. -/
theorem lookup_insertAll_of_mem (hk : (k, v) ∈ l) : (insertAll m l).lookup k = some v := by
  induction l generalizing m with
  | nil => cases hk
  | cons p l ih =>
    rw [map_cons, nodup_cons] at hnodup
    rcases mem_cons.mp hk with rfl | hmem
    · rw [insertAll, lookup_insertAll_of_notMem hnodup.1, lookup_insert]
    · exact ih hnodup.2 hmem

/-- The pairs of a map after insertions at distinct keys. -/
theorem lookup_insertAll :
    (insertAll m l).lookup k = some v ↔
      (k, v) ∈ l ∨ k ∉ l.map Prod.fst ∧ m.lookup k = some v := by
  by_cases hk : k ∈ l.map Prod.fst
  · obtain ⟨⟨k, w⟩, hw, rfl⟩ := mem_map.mp hk
    rw [lookup_insertAll_of_mem hnodup hw, Option.some.injEq]
    constructor
    · rintro rfl
      exact Or.inl hw
    · rintro (hv | ⟨hnot, -⟩)
      · exact (Prod.mk.inj (inj_on_of_nodup_map hnodup hw hv rfl)).2
      · exact absurd hk hnot
  · rw [lookup_insertAll_of_notMem hk]
    constructor
    · exact fun h => Or.inr ⟨hk, h⟩
    · rintro (hv | ⟨-, h⟩)
      · exact absurd (mem_map_of_mem hv) hk
      · exact h

/-- The order of insertions at distinct keys does not matter. -/
theorem insertAll_perm {l' : List (K × V)} (hperm : l.Perm l') :
    insertAll m l = insertAll m l' :=
  fmap_ext fun k v => by
    rw [lookup_insertAll hnodup, lookup_insertAll ((hperm.map _).nodup_iff.mp hnodup),
      hperm.mem_iff, (hperm.map Prod.fst).mem_iff]

end

theorem lookup_eraseAll (m : FMap K V) (l : List K) (k : K) :
    (eraseAll m l).lookup k = if k ∈ l then none else m.lookup k := by
  induction l generalizing m with
  | nil => simp [eraseAll]
  | cons a l ih =>
    rw [eraseAll, ih]
    by_cases hl : k ∈ l
    · simp [hl]
    · by_cases hka : k = a
      · subst hka
        simp [hl]
      · simp [hl, hka, lookup_erase_ne hka]

theorem lookup_eraseAll_eq_some {l : List K} :
    (eraseAll m l).lookup k = some v ↔ k ∉ l ∧ m.lookup k = some v := by
  rw [lookup_eraseAll]
  split_ifs with h <;> simp [h]

/-- The order of removals does not matter. -/
theorem eraseAll_perm {l l' : List K} (hperm : l.Perm l') :
    eraseAll m l = eraseAll m l' :=
  ext_lookup fun k => by simp only [lookup_eraseAll, hperm.mem_iff]

/-- Removing pairs of a map and inserting them again changes nothing. -/
theorem insertAll_eraseAll (hnodup : (l.map Prod.fst).Nodup)
    (hmem : ∀ p ∈ l, m.lookup p.1 = some p.2) : insertAll (eraseAll m (l.map Prod.fst)) l = m := by
  refine fmap_ext fun k v => ?_
  rw [lookup_insertAll hnodup, lookup_eraseAll_eq_some]
  refine ⟨fun h => h.elim (fun hl => hmem _ hl) fun h => h.2.2, fun h => ?_⟩
  by_cases hk : k ∈ l.map Prod.fst
  · obtain ⟨p, hp, rfl⟩ := mem_map.mp hk
    obtain rfl : p.2 = v := Option.some.inj ((hmem p hp).symm.trans h)
    exact Or.inl hp
  · exact Or.inr ⟨hk, hk, h⟩

/-- Inserting pairs at new keys and removing them again changes nothing. -/
theorem eraseAll_insertAll
    (hnew : ∀ k ∈ l.map Prod.fst, k ∉ m) : eraseAll (insertAll m l) (l.map Prod.fst) = m := by
  refine ext_lookup fun k => ?_
  rw [lookup_eraseAll]
  split_ifs with hk
  · exact (lookup_eq_none.mpr (hnew k hk)).symm
  · exact lookup_insertAll_of_notMem hk

/-! ## Sums over a map -/

/-- The sum of `val` over the values of a map. -/
def mapSum (val : V → ℤ) (m : FMap K V) : ℤ := (m.entries.map fun e => val e.2).sum

section Sum

variable {val : V → ℤ}

omit [DecidableEq K] in
@[simp] theorem mapSum_empty : mapSum val (∅ : FMap K V) = 0 := rfl

variable {m : FMap K V} {k : K} {v : V}

theorem mapSum_insert (hk : k ∉ m) :
    mapSum val (m.insert k v) = mapSum val m + val v := by
  rw [mapSum, entries_insert_of_notMem hk, Multiset.map_cons, Multiset.sum_cons, add_comm,
    mapSum]

theorem mapSum_erase (hk : m.lookup k = some v) :
    mapSum val (m.erase k) = mapSum val m - val v := by
  have hback : (m.erase k).insert k v = m := fmap_ext fun a b => by
    by_cases ha : a = k
    · rw [ha, lookup_insert, hk]
    · rw [lookup_insert_of_ne _ ha, lookup_erase_ne ha]
  have hsum : mapSum val ((m.erase k).insert k v) = mapSum val (m.erase k) + val v :=
    mapSum_insert notMem_erase_self
  rw [hback] at hsum
  omega

theorem mapSum_insertAll {l : List (K × V)} : ∀ {m : FMap K V}, (l.map Prod.fst).Nodup →
    (∀ k ∈ l.map Prod.fst, k ∉ m) →
      mapSum val (insertAll m l) = mapSum val m + (l.map fun p => val p.2).sum := by
  induction l with
  | nil => simp [insertAll]
  | cons p l ih =>
    intro m hnodup hnew
    rw [map_cons, nodup_cons] at hnodup
    rw [map_cons, forall_mem_cons] at hnew
    have hnew' : ∀ k ∈ l.map Prod.fst, k ∉ m.insert p.1 p.2 := fun k hk hmem => by
      rcases mem_insert.mp hmem with rfl | hold
      · exact hnodup.1 hk
      · exact hnew.2 k hk hold
    rw [insertAll, ih hnodup.2 hnew', mapSum_insert hnew.1, map_cons, sum_cons, add_assoc]

theorem mapSum_eraseAll {l : List K} : ∀ {m : FMap K V}, l.Nodup → (∀ k ∈ l, k ∈ m) →
    mapSum val (eraseAll m l) =
      mapSum val m - (l.map fun k => ((m.lookup k).map val).getD 0).sum := by
  induction l with
  | nil => simp [eraseAll]
  | cons k l ih =>
    intro m hnodup hmem
    rw [nodup_cons] at hnodup
    rw [forall_mem_cons] at hmem
    obtain ⟨v, hv⟩ := mem_iff.mp hmem.1
    have hne : ∀ a ∈ l, a ≠ k := fun a ha h => hnodup.1 (h ▸ ha)
    have hmem' : ∀ a ∈ l, a ∈ m.erase k := fun a ha =>
      mem_erase.mpr ⟨hne a ha, hmem.2 a ha⟩
    have hsame : l.map (fun a => (((m.erase k).lookup a).map val).getD 0) =
        l.map fun a => ((m.lookup a).map val).getD 0 :=
      map_congr_left fun a ha => by rw [lookup_erase_ne (hne a ha)]
    rw [eraseAll, ih hnodup.2 hmem', mapSum_erase hv, hsame, map_cons, sum_cons, hv,
      Option.map_some, Option.getD_some]
    omega

end Sum

end RadiantCore
