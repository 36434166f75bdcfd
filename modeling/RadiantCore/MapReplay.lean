import RadiantCore.MapUpdate

/-!
# Replaying updates of a map

A list of updates sets or removes keys of a finite map. What it leaves at a key it touches
does not depend on the map (`lookup_applyAll_congr`), so updates may be replayed over a map
to which some of their results have been written already : when every key has either its
old value or the value the updates give it, replaying them leaves what they leave on the
old map (`applyAll_of_mixes`).
-/

namespace RadiantCore

variable {K V : Type} [DecidableEq K]

/-- Set a key, or remove it. -/
def applyUpdate (m : FMap K V) (u : K × Option V) : FMap K V :=
  match u.2 with
  | some v => m.insert u.1 v
  | none => m.erase u.1

/-- Apply the updates of a list, from left to right. -/
def applyAll (m : FMap K V) (l : List (K × Option V)) : FMap K V := l.foldl applyUpdate m

theorem lookup_applyUpdate (m : FMap K V) (u : K × Option V) (k : K) :
    (applyUpdate m u).lookup k = if k = u.1 then u.2 else m.lookup k := by
  obtain ⟨a, v⟩ := u
  split_ifs with hk
  · subst hk
    cases v <;> simp [applyUpdate]
  · cases v <;> simp [applyUpdate, Finmap.lookup_insert_of_ne, Finmap.lookup_erase_ne, hk]

theorem applyAll_append (m : FMap K V) (l l' : List (K × Option V)) :
    applyAll m (l ++ l') = applyAll (applyAll m l) l' :=
  List.foldl_append

theorem insertAll_eq_applyAll (m : FMap K V) (l : List (K × V)) :
    insertAll m l = applyAll m (l.map fun p => (p.1, some p.2)) := by
  induction l generalizing m with
  | nil => rfl
  | cons p l ih => exact ih _

theorem eraseAll_eq_applyAll (m : FMap K V) (l : List K) :
    eraseAll m l = applyAll m (l.map fun k => (k, none)) := by
  induction l generalizing m with
  | nil => rfl
  | cons k l ih => exact ih _

variable {m : FMap K V} {l : List (K × Option V)} {k : K}

/-- A key that no update touches keeps its value. -/
theorem lookup_applyAll_of_notMem
    (hk : k ∉ l.map Prod.fst) : (applyAll m l).lookup k = m.lookup k := by
  induction l generalizing m with
  | nil => rfl
  | cons u l ih =>
    rw [List.map_cons, List.mem_cons, not_or] at hk
    have hrest : (applyAll m (u :: l)).lookup k = (applyUpdate m u).lookup k := ih hk.2
    rw [hrest, lookup_applyUpdate, if_neg hk.1]

/-- The value of a touched key does not depend on the map. -/
theorem lookup_applyAll_congr (m m' : FMap K V)
    (hk : k ∈ l.map Prod.fst) : (applyAll m l).lookup k = (applyAll m' l).lookup k := by
  induction l generalizing m m' with
  | nil => cases hk
  | cons u l ih =>
    by_cases hrest : k ∈ l.map Prod.fst
    · exact ih _ _ hrest
    · have hu : k = u.1 := by
        rw [List.map_cons, List.mem_cons] at hk
        exact hk.resolve_right hrest
      change (applyAll (applyUpdate m u) l).lookup k = (applyAll (applyUpdate m' u) l).lookup k
      rw [lookup_applyAll_of_notMem hrest, lookup_applyAll_of_notMem hrest, lookup_applyUpdate,
        lookup_applyUpdate, if_pos hu, if_pos hu]

/-- The map mixes an old map and a new one : every key has one of the two values. -/
def Mixes (m old new : FMap K V) : Prop :=
  ∀ k, m.lookup k = old.lookup k ∨ m.lookup k = new.lookup k

theorem Mixes.refl_left (old new : FMap K V) : Mixes old old new := fun _ => Or.inl rfl

/-- Updates replayed over a mixture of a map and their result leave that result. -/
theorem applyAll_of_mixes {old : FMap K V}
    (h : Mixes m old (applyAll old l)) : applyAll m l = applyAll old l := by
  refine Finmap.ext_lookup fun k => ?_
  by_cases hk : k ∈ l.map Prod.fst
  · exact lookup_applyAll_congr m old hk
  · rw [lookup_applyAll_of_notMem hk, lookup_applyAll_of_notMem hk]
    have hkey := h k
    rwa [lookup_applyAll_of_notMem hk, or_self] at hkey

end RadiantCore
