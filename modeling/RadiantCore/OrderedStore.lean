import Mathlib.Data.List.Lex
import Mathlib.Data.List.Nodup
import Mathlib.Order.Lattice

/-!
# Stores that are read in the order of their keys

A store is a list of entries in strictly increasing order of the keys. It is changed by updates,
which put a value at a key or erase it, and it is read by key or from a key on. A reader that stops
at the first entry without a property sees all entries that have it, when they stand next to each
other (`takeWhile_seek_eq_filter`).

Byte strings are ordered as `memcmp` does, a prefix before the longer string. What lies between two
strings with a common prefix has that prefix (`isPrefix_of_between`).
-/

namespace RadiantCore

open List

/-- A store with ordered keys. -/
structure OrderedStore (κ ν : Type) [LinearOrder κ] where
  entries : List (κ × ν)
  sorted : entries.Pairwise fun a b => a.1 < b.1

namespace OrderedStore

variable {κ ν : Type} [LinearOrder κ]

/-- The store without entries. -/
def empty : OrderedStore κ ν := ⟨[], .nil⟩

/-- The value at a key. -/
def find? (s : OrderedStore κ ν) (k : κ) : Option ν :=
  (s.entries.find? fun e => e.1 = k).map Prod.snd

/-- A list sorted by a key, with a new element at its place. -/
theorem sorted_place {α : Type} {key : α → κ} {l : List α}
    (h : l.Pairwise fun a b => key a < key b) (x : α) :
    (l.filter (key · < key x) ++ x :: l.filter (key x < key ·)).Pairwise
      fun a b => key a < key b := by
  have hbelow : ∀ a ∈ l.filter (key · < key x), key a < key x := fun a ha => by
    simpa using (mem_filter.mp ha).2
  have habove : ∀ b ∈ l.filter (key x < key ·), key x < key b := fun b hb => by
    simpa using (mem_filter.mp hb).2
  refine pairwise_append.mpr
    ⟨h.filter _, pairwise_cons.mpr ⟨habove, h.filter _⟩, fun a ha b hb => ?_⟩
  rcases mem_cons.mp hb with rfl | hb
  · exact hbelow a ha
  · exact (hbelow a ha).trans (habove b hb)

variable {l : List (κ × ν)}

/-- Put a value at a key. -/
def put (s : OrderedStore κ ν) (k : κ) (v : ν) : OrderedStore κ ν where
  entries := s.entries.filter (·.1 < k) ++ (k, v) :: s.entries.filter (k < ·.1)
  sorted := sorted_place s.sorted (k, v)

/-- Erase a key. -/
def erase (s : OrderedStore κ ν) (k : κ) : OrderedStore κ ν where
  entries := s.entries.filter (·.1 ≠ k)
  sorted := s.sorted.filter _

/-- One update : a value is put at a key, or the key is erased. -/
def update (s : OrderedStore κ ν) (u : κ × Option ν) : OrderedStore κ ν :=
  match u.2 with
  | some v => s.put u.1 v
  | none => s.erase u.1

/-- A batch of updates, in order. -/
def write (s : OrderedStore κ ν) (batch : List (κ × Option ν)) : OrderedStore κ ν :=
  batch.foldl update s

/-- The entries from a key on. -/
def seek (s : OrderedStore κ ν) (k : κ) : List (κ × ν) := s.entries.dropWhile (·.1 < k)

/-! ## Reading by key -/

variable {s : OrderedStore κ ν}

theorem eq_of_mem {a b : κ × ν} (ha : a ∈ s.entries) (hb : b ∈ s.entries) (h : a.1 = b.1) : a = b :=
  inj_on_of_nodup_map (pairwise_map.mpr (s.sorted.imp ne_of_lt)) ha hb h

theorem find?_eq_some_iff {k : κ} {v : ν} :
    s.find? k = some v ↔ (k, v) ∈ s.entries := by
  constructor
  · intro h
    obtain ⟨e, he, rfl⟩ := Option.map_eq_some_iff.mp h
    have hk : e.1 = k := by simpa using find?_some he
    rw [← hk]
    exact mem_of_find?_eq_some he
  · intro h
    obtain ⟨e, he⟩ := Option.isSome_iff_exists.mp
      (find?_isSome.mpr ⟨(k, v), h, by simp⟩ :
        (s.entries.find? fun e => e.1 = k).isSome = true)
    have hk : e.1 = k := by simpa using find?_some he
    rw [find?, he, eq_of_mem (mem_of_find?_eq_some he) h hk]
    rfl

@[simp] theorem find?_empty (k : κ) : (empty : OrderedStore κ ν).find? k = none := rfl

section

variable (s : OrderedStore κ ν)

theorem find?_put (k k' : κ) (v : ν) :
    (s.put k v).find? k' = if k = k' then some v else s.find? k' := by
  refine Option.ext fun w => ?_
  rw [find?_eq_some_iff, put]
  simp only [mem_append, mem_cons, mem_filter, decide_eq_true_eq, Prod.mk.injEq]
  split_ifs with h
  · subst h
    simp [eq_comm]
  · rw [find?_eq_some_iff]
    have hne : k' < k ∨ k < k' := lt_or_gt_of_ne (Ne.symm h)
    grind

theorem find?_erase (k k' : κ) : (s.erase k).find? k' = if k = k' then none else s.find? k' := by
  refine Option.ext fun w => ?_
  rw [find?_eq_some_iff, erase]
  simp only [mem_filter, decide_eq_true_eq]
  split_ifs with h
  · simp [h]
  · rw [find?_eq_some_iff]
    exact and_iff_left (Ne.symm h)

theorem find?_foldl_erase (keys : List κ) (k : κ) :
    (keys.foldl erase s).find? k = if k ∈ keys then none else s.find? k := by
  induction keys generalizing s with
  | nil => simp
  | cons a keys ih =>
    rw [foldl_cons, ih, find?_erase]
    by_cases hk : k ∈ keys
    · simp [hk]
    · simp [hk, eq_comm]

theorem find?_update (u : κ × Option ν) (k : κ) :
    (s.update u).find? k = if u.1 = k then u.2 else s.find? k := by
  obtain ⟨k', v?⟩ := u
  cases v? with
  | none => exact find?_erase s k' k
  | some v => exact find?_put s k' k v

/-- The last update of a key in a batch. -/
def lastUpdate? (batch : List (κ × Option ν)) (k : κ) : Option (Option ν) :=
  ((batch.filter (·.1 = k)).getLast?).map Prod.snd

theorem find?_write (batch : List (κ × Option ν)) (k : κ) :
    (s.write batch).find? k = (lastUpdate? batch k).getD (s.find? k) := by
  induction batch generalizing s with
  | nil => rfl
  | cons u batch ih =>
    rw [write, foldl_cons]
    change ((s.update u).write batch).find? k = _
    rw [ih, find?_update, lastUpdate?, lastUpdate?, filter_cons]
    by_cases hu : u.1 = k
    · rw [if_pos hu, if_pos (decide_eq_true hu), getLast?_cons]
      cases (batch.filter (·.1 = k)).getLast? with
      | none => rfl
      | some => rfl
    · rw [if_neg hu, if_neg (by simpa using hu)]

/-- A key has the value of one of its updates, if there are any. -/
theorem find?_write_cases (batch : List (κ × Option ν)) (k : κ) :
    (∃ u ∈ batch, u.1 = k ∧ (s.write batch).find? k = u.2) ∨
      ((∀ u ∈ batch, u.1 ≠ k) ∧ (s.write batch).find? k = s.find? k) := by
  rw [find?_write, lastUpdate?]
  cases hlast : (batch.filter (·.1 = k)).getLast? with
  | none =>
    have hnil := filter_eq_nil_iff.mp (getLast?_eq_none_iff.mp hlast)
    exact Or.inr ⟨fun u hu => by simpa using hnil u hu, rfl⟩
  | some u =>
    obtain ⟨hu, huk⟩ := mem_filter.mp (mem_of_getLast? hlast)
    exact Or.inl ⟨u, hu, by simpa using huk, rfl⟩

theorem find?_write_erase (keys : List κ) (k : κ) :
    (s.write (keys.map fun key => (key, none))).find? k = if k ∈ keys then none else s.find? k := by
  rw [write, foldl_map]
  exact find?_foldl_erase s keys k

theorem write_append (b b' : List (κ × Option ν)) : s.write (b ++ b') = (s.write b).write b' := foldl_append

end

variable {α : Type}

theorem foldl_write (f : α → List (κ × Option ν)) (l : List α) (s : OrderedStore κ ν) :
    l.foldl (fun s a => s.write (f a)) s = s.write (l.flatMap f) := foldl_flatMap.symm

/-! ## Reading in order -/

omit [LinearOrder κ] in
/-- In a list where what has a property stands before what does not, taking and filtering agree. -/
theorem takeWhile_eq_filter {p : α → Bool} {l : List α}
    (h : l.Pairwise fun a b => p b = true → p a = true) : l.takeWhile p = l.filter p := by
  induction l with
  | nil => rfl
  | cons a l ih =>
    rw [pairwise_cons] at h
    rw [takeWhile_cons, filter_cons]
    cases ha : p a with
    | true => simp only [if_true, ih h.2]
    | false =>
      symm
      simp only [Bool.false_eq_true, if_false, filter_eq_nil_iff]
      exact fun b hb hpb => by simp [h.1 b hb hpb] at ha

theorem seek_eq_filter (s : OrderedStore κ ν) (k : κ) :
    s.seek k = s.entries.filter (k ≤ ·.1) := by
  have hsorted := s.sorted
  unfold seek
  generalize s.entries = l at hsorted
  induction l with
  | nil => rfl
  | cons e l ih =>
    rw [pairwise_cons] at hsorted
    rw [dropWhile_cons, filter_cons]
    by_cases he : e.1 < k
    · rw [if_pos (decide_eq_true he), if_neg (by simpa using he), ih hsorted.2]
    · have hke : k ≤ e.1 := not_lt.mp he
      rw [if_neg (by simpa using he), if_pos (decide_eq_true hke)]
      refine congrArg _ (filter_eq_self.mpr fun b hb => ?_).symm
      exact decide_eq_true (hke.trans (hsorted.1 b hb).le)

variable {p : κ × ν → Bool}

/-- A reader that starts at a key and stops at the first entry without a property sees the entries
with it, if they are all from the key on and no other entry stands between the key and them. -/
theorem takeWhile_seek_eq_filter (s : OrderedStore κ ν) (k : κ)
    (hfrom : ∀ e ∈ s.entries, p e = true → k ≤ e.1)
    (hconvex : ∀ a ∈ s.entries, ∀ b ∈ s.entries, k ≤ a.1 → a.1 < b.1 → p b = true → p a = true) :
    (s.seek k).takeWhile p = s.entries.filter p := by
  have hpair : (s.seek k).Pairwise fun a b => p b = true → p a = true := by
    rw [seek_eq_filter]
    refine (s.sorted.filter _).imp_of_mem fun {a b} ha hb hlt hp => ?_
    obtain ⟨ha, hka⟩ := mem_filter.mp ha
    exact hconvex a ha b (mem_filter.mp hb).1 (by simpa using hka) hlt hp
  rw [takeWhile_eq_filter hpair, seek_eq_filter, filter_filter]
  refine filter_congr fun e he => ?_
  cases hp : p e with
  | true => simp [hfrom e he hp]
  | false => rfl

variable {e : κ × ν}

theorem takeWhile_eq_filter_lt
    (hsorted : l.Pairwise fun a b => a.1 < b.1) (he : e ∈ l) (hstop : p e = false)
    (hbefore : ∀ a ∈ l, a.1 < e.1 → p a = true) : l.takeWhile p = l.filter (·.1 < e.1) := by
  induction l with
  | nil => cases he
  | cons a l ih =>
    obtain ⟨hlt, hsorted⟩ := pairwise_cons.mp hsorted
    rcases mem_cons.mp he with rfl | he
    · rw [takeWhile_cons_of_neg (by simpa using hstop)]
      symm
      refine filter_eq_nil_iff.mpr fun b hb => ?_
      rcases mem_cons.mp hb with rfl | hb
      · simp
      · simpa using (hlt b hb).le
    · rw [takeWhile_cons_of_pos (hbefore a mem_cons_self (hlt e he)),
        filter_cons, if_pos (decide_eq_true (hlt e he)),
        ih hsorted he fun b hb => hbefore b (mem_cons_of_mem a hb)]

/-- A reader that meets an entry without the property sees the entries before it at most. -/
theorem takeWhile_seek_eq_filter_lt (s : OrderedStore κ ν) (k : κ)
    (he : e ∈ s.entries) (hke : k ≤ e.1) (hstop : p e = false)
    (hbefore : ∀ a ∈ s.entries, k ≤ a.1 → a.1 < e.1 → p a = true) :
    (s.seek k).takeWhile p = (s.seek k).filter (·.1 < e.1) := by
  rw [seek_eq_filter]
  refine takeWhile_eq_filter_lt (s.sorted.filter _)
    (mem_filter.mpr ⟨he, decide_eq_true hke⟩) hstop fun a ha => ?_
  obtain ⟨ha, hka⟩ := mem_filter.mp ha
  exact hbefore a ha (by simpa using hka)

end OrderedStore

/-! ## Byte strings -/

instance linearOrderUInt8 : LinearOrder UInt8 where
  le_refl := UInt8.le_refl
  le_trans _ _ _ := UInt8.le_trans
  lt_iff_le_not_ge a b := by
    simp only [UInt8.lt_iff_toNat_lt, UInt8.le_iff_toNat_le]
    omega
  le_antisymm _ _ := UInt8.le_antisymm
  le_total := UInt8.le_total
  toDecidableLE := inferInstance
  toDecidableLT := inferInstance

section Lexicographic

variable {α : Type} [LinearOrder α]

variable {a b : α} {x y : List α}

theorem cons_lt_cons_iff_lex :
    a :: x < b :: y ↔ a < b ∨ a = b ∧ x < y := cons_lex_cons_iff

theorem cons_le_cons_iff_lex :
    a :: x ≤ b :: y ↔ a < b ∨ a = b ∧ x ≤ y := by
  rw [← not_lt, cons_lt_cons_iff_lex, ← not_lt]
  constructor
  · intro h
    rcases lt_trichotomy a b with hab | rfl | hab
    · exact Or.inl hab
    · exact Or.inr ⟨rfl, fun hyx => h (Or.inr ⟨rfl, hyx⟩)⟩
    · exact absurd (Or.inl hab) h
  · rintro (hab | ⟨rfl, hxy⟩) (hba | ⟨heq, hyx⟩)
    · exact hab.asymm hba
    · exact hab.ne' heq
    · exact lt_irrefl _ hba
    · exact hxy hyx

variable {p : List α}

theorem append_le_append_iff_lex : p ++ x ≤ p ++ y ↔ x ≤ y := by
  induction p with
  | nil => rfl
  | cons a p ih => simp [cons_le_cons_iff_lex, ih]

/-- Strings are compared by their first parts, if these have the same length. -/
theorem append_lt_append_iff_lex {a b : List α} (h : a.length = b.length) :
    a ++ x < b ++ y ↔ a < b ∨ a = b ∧ x < y := by
  induction a generalizing b with
  | nil =>
    obtain rfl : b = [] := length_eq_zero_iff.mp h.symm
    simp
  | cons c a ih =>
    cases b with
    | nil => cases h
    | cons d b =>
      rw [cons_append, cons_append, cons_lt_cons_iff_lex, cons_lt_cons_iff_lex,
        ih (Nat.succ.inj h), cons.injEq]
      tauto

/-- What lies between two strings with a prefix has the prefix. -/
theorem isPrefix_of_between {a : List α} (hxa : p ++ x ≤ a) (hay : a ≤ p ++ y) :
    p <+: a := by
  induction p generalizing a with
  | nil => exact nil_prefix
  | cons b p ih =>
    cases a with
    | nil => exact absurd hxa (not_le.mpr (nil_lt_cons b (p ++ x)))
    | cons c a =>
      rw [cons_append, cons_le_cons_iff_lex] at hxa hay
      rcases hxa with hlt | ⟨rfl, hxa⟩
      · rcases hay with hlt' | ⟨rfl, -⟩
        · exact absurd hlt' hlt.asymm
        · exact absurd hlt (lt_irrefl _)
      · rcases hay with hlt' | ⟨-, hay⟩
        · exact absurd hlt' (lt_irrefl _)
        · exact cons_prefix_cons.mpr ⟨rfl, ih hxa hay⟩

/-- A string of least elements is least among those of its length. -/
theorem replicate_le {z : α} (hz : ∀ a, z ≤ a) (x : List α) :
    replicate x.length z ≤ x := by
  induction x with
  | nil => exact le_rfl
  | cons a x ih =>
    rw [length_cons, replicate_succ, cons_le_cons_iff_lex]
    rcases (hz a).lt_or_eq with hlt | rfl
    · exact Or.inl hlt
    · exact Or.inr ⟨rfl, ih⟩

end Lexicographic

end RadiantCore
