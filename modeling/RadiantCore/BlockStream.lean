import Mathlib.Data.List.GetD
import Mathlib.Tactic

/-!
# Messages cut into blocks

A hash function that works on blocks of `r` symbols cuts its message into full blocks and a
last block, which may be shorter and is the only one of an empty message. `blocks r m` is that
list. A streaming implementation holds the message as a `Cut`, the full blocks it is done with and
the rest it has gathered, and `Cut.blocks_eq` compares the two.
-/

namespace BlockStream

variable {α : Type*} {r : ℕ}

/-- The blocks of `r` symbols of a message : all are full but the last, which holds what is
left. There is at least one. -/
def blocks (r : ℕ) (m : List α) : List (List α) :=
  if r = 0 ∨ m.length ≤ r then [m] else m.take r :: blocks r (m.drop r)
termination_by m.length
decreasing_by
  rename_i h
  push Not at h
  simp only [List.length_drop]
  omega

theorem blocks_of_length_le {m : List α} (h : m.length ≤ r) : blocks r m = [m] := by
  rw [blocks, if_pos (Or.inr h)]

theorem blocks_ne_nil (m : List α) : blocks r m ≠ [] := by
  rw [blocks]
  split <;> simp

/-- A full block that is followed by something is the first block. -/
theorem blocks_cons {b m : List α} (hr : 0 < r) (hb : b.length = r) (hm : m ≠ []) :
    blocks r (b ++ m) = b :: blocks r m := by
  have hpos : 0 < m.length := List.length_pos_iff.mpr hm
  rw [blocks, if_neg (by simp only [List.length_append]; omega)]
  simp [← hb]

/-- A message written as full blocks and a rest that is no longer than a block. -/
structure Cut (r : ℕ) (m : List α) (bs : List (List α)) (rest : List α) : Prop where
  eq : m = bs.flatten ++ rest
  length_eq : ∀ b ∈ bs, b.length = r
  rest_le : rest.length ≤ r

namespace Cut

variable {m rest : List α} {bs : List (List α)}

theorem nil : Cut r ([] : List α) [] [] := ⟨by simp, by simp, by simp⟩

section

variable (h : Cut r m bs rest)

include h

/-- More symbols go to the rest while there is space. -/
theorem append (data : List α) (hle : rest.length + data.length ≤ r) :
    Cut r (m ++ data) bs (rest ++ data) where
  eq := by rw [h.eq, List.append_assoc]
  length_eq := h.length_eq
  rest_le := by simpa using hle

/-- A full rest is one more block. -/
theorem push (hfull : rest.length = r) : Cut r m (bs ++ [rest]) [] where
  eq := by simpa using h.eq
  length_eq := by
    intro b hb
    rcases List.mem_append.mp hb with hb | hb
    · exact h.length_eq b hb
    · rw [List.mem_singleton.mp hb, hfull]
  rest_le := by simp

theorem length : m.length = bs.length * r + rest.length := by
  rw [h.eq, List.length_append, List.length_flatten, List.map_congr_left h.length_eq]
  simp

/-- The rest is the last block, when it is not empty or all there is. -/
theorem blocks_eq (hr : 0 < r) (hne : rest = [] → bs = []) : blocks r m = bs ++ [rest] := by
  obtain ⟨rfl, hbs, hrest⟩ := h
  induction bs with
  | nil => simpa using blocks_of_length_le hrest
  | cons b bs ih =>
    have hrest_ne : rest ≠ [] := fun h => by cases hne h
    have hmore : bs.flatten ++ rest ≠ [] := by simp [hrest_ne]
    rw [List.flatten_cons, List.append_assoc, blocks_cons hr (hbs b (by simp)) hmore,
      ih (fun h => absurd h hrest_ne) fun b' hb' => hbs b' (by simp [hb']), List.cons_append]

end

/-- Every message has a cut whose rest is not full. -/
theorem exists_rest_lt (hr : 0 < r) (m : List α) : ∃ bs rest, Cut r m bs rest ∧ rest.length < r := by
  induction m using List.reverseRecOn with
  | nil => exact ⟨[], [], Cut.nil, hr⟩
  | append_singleton m a ih =>
    obtain ⟨bs, rest, hcut, hlt⟩ := ih
    have hcut' : Cut r (m ++ [a]) bs (rest ++ [a]) := hcut.append _ hlt
    rcases hcut'.rest_le.lt_or_eq with h | h
    · exact ⟨bs, rest ++ [a], hcut', h⟩
    · exact ⟨bs ++ [rest ++ [a]], [], hcut'.push h, hr⟩

end Cut

/-! ## A buffer for a block -/

/-- The first symbols of a buffer of `n`, which is filled up with `zero`. -/
def fill (n : ℕ) (zero : α) (xs : List α) : Vector α n := Vector.ofFn fun i => xs.getD i zero

/-- A buffer with `xs` written into it from the position `off` on. -/
def overwrite {n : ℕ} (buffer : Vector α n) (off : ℕ) (xs : List α) : Vector α n :=
  Vector.ofFn fun i => if off ≤ i.val then xs.getD (i.val - off) buffer[i] else buffer[i]

theorem overwrite_fill {n : ℕ} (zero : α) (xs ys : List α) :
    overwrite (fill n zero xs) xs.length ys = fill n zero (xs ++ ys) := by
  refine Vector.ext fun i hi => ?_
  simp only [overwrite, fill, Vector.getElem_ofFn, Fin.getElem_fin]
  split_ifs with hle
  · rw [List.getD_append_right _ _ _ _ hle, List.getD_eq_default xs zero hle]
  · rw [List.getD_append _ _ _ _ (by omega)]

theorem toList_fill {n : ℕ} {z : α} {xs : List α} (hxs : xs.length ≤ n) :
    (fill n z xs).toList = xs ++ List.replicate (n - xs.length) z := by
  refine List.ext_getElem (by simp; omega) fun i hi hi' => ?_
  simp only [fill, Vector.toList_ofFn, List.getElem_ofFn, List.getElem_append]
  split_ifs with hlt
  · rw [List.getD_eq_getElem _ _ hlt]
  · rw [List.getD_eq_default _ _ (by omega), List.getElem_replicate]

theorem modify_append_add (f : α → α) (xs ys : List α) (k : ℕ) :
    (xs ++ ys).modify (xs.length + k) f = xs ++ ys.modify k f := by
  induction xs with
  | nil => simp
  | cons x xs ih =>
    rw [List.length_cons, Nat.add_right_comm, List.cons_append, List.modify_succ_cons, ih,
      List.cons_append]

end BlockStream
