import RadiantCore.CoinbaseHeight
import RadiantCore.Interpreter

/-!
# Pushes appended to a script

What `operator<<` appends for byte strings is read back by `GetScriptOp`, one push for each
(`script_pushes_parse`). `GetScriptOp` compares sizes with `end - pc`. Positions in a script and
their differences are `int32_t` values (`prevector.h`): exact for scripts of less than `2 ^ 31`
bytes (`getScriptOpInt32_eq`), while the end of a longer one, up to `2 ^ 32` bytes, lies before its
beginning and nothing of it is read.
-/

namespace RadiantCore

open Opcode List

/-- `end - pc`, wrapped to 32 bits. -/
def endMinus (pc : CScript) : ℤ := (pc.length + 0x80000000) % 0x100000000 - 0x80000000

theorem noOperand {opcode : UInt8} (h : ¬ isRefOp opcode) (h' : isRefOp opcode) :
    ([] : List UInt8).length = 36 :=
  absurd h' h

theorem length_operand {opcode : UInt8} {pc : CScript} (h : ¬ endMinus pc < 36)
    (_ : isRefOp opcode) : (pc.take 36).length = 36 := by
  rw [endMinus] at h
  rw [length_take]
  omega

/-- `GetScriptOp`, with the differences of iterators as the source has them. -/
def getScriptOpInt32 : CScript → Option ScriptOp
  | [] => none
  | opcode :: pc =>
    if endMinus (opcode :: pc) < 1 then none
    else if hpush : opcode ≤ OP_PUSHDATA4 then
      if endMinus pc < sizeWidth opcode then none
      else
        let nSize := if opcode < OP_PUSHDATA1 then opcode.toNat
          else readLE (pc.take (sizeWidth opcode))
        let pc := pc.drop (sizeWidth opcode)
        if endMinus pc < 0 ∨ pc.length % 2 ^ 32 < nSize then none
        else some ⟨opcode, pc.take nSize, pc.drop nSize, fun h => absurd h (isRefOp_of_le hpush)⟩
    else if href : isRefOp opcode then
      if hlen : endMinus pc < 36 then none
      else some ⟨opcode, pc.take 36, pc.drop 36, length_operand hlen⟩
    else some ⟨opcode, [], pc, noOperand href⟩

theorem endMinus_eq {pc : CScript} (h : pc.length < 2 ^ 31) : endMinus pc = pc.length := by
  rw [endMinus]
  omega

theorem getScriptOpInt32_eq {s : CScript} (h : s.length < 2 ^ 31) :
    getScriptOpInt32 s = getScriptOp s := by
  cases s with
  | nil => rfl
  | cons opcode pc =>
    have hpc : pc.length < 2 ^ 31 := Nat.lt_of_succ_lt h
    have hdrop : (pc.drop (sizeWidth opcode)).length < 2 ^ 31 := by
      rw [length_drop]
      omega
    have hmod : (pc.drop (sizeWidth opcode)).length % 2 ^ 32 = (pc.drop (sizeWidth opcode)).length :=
      Nat.mod_eq_of_lt (by omega)
    have hneg : ∀ n : ℕ, ¬ (n : ℤ) < 0 := fun n => by omega
    simp only [getScriptOpInt32, getScriptOp, endMinus_eq h, endMinus_eq hpc, endMinus_eq hdrop,
      hmod, pushSize, Nat.cast_lt]
    by_cases hwidth : pc.length < sizeWidth opcode
    · simp [hwidth, hneg]
    · simp [hwidth, hneg]

/-- The operations read one after the other, up to the end of the script. -/
def ReadsOps : List ScriptOp → CScript → Prop
  | [], s => s = []
  | op :: ops, s => getScriptOpInt32 s = some op ∧ ReadsOps ops op.pc

/-- Every form of the size is the shortest. -/
theorem checkMinimalPush_pushOpcode (data : List UInt8)
    (h : ∀ b, data = [b] → ¬ (1 ≤ b ∧ b ≤ 16 ∨ b = 0x81)) :
    checkMinimalPush data (pushOpcode data.length) = true := by
  unfold checkMinimalPush
  split_ifs with h0 h1 h2 h3 h4 h5
  · rw [h0]
    rfl
  · obtain ⟨b, rfl⟩ := length_eq_one_iff.mp h1.1
    exact absurd (.inl h1.2) (h b rfl)
  · obtain ⟨b, rfl⟩ := length_eq_one_iff.mp h2.1
    exact absurd (.inr h2.2) (h b rfl)
  · have hlt : data.length < 0x4c := Nat.lt_succ_of_le h3
    rw [pushOpcode, if_pos hlt, (pushOpcode_small _ hlt).2]
    exact decide_eq_true rfl
  · rw [pushOpcode, if_neg (by omega), if_pos h4]
    rfl
  · rw [pushOpcode, if_neg (by omega), if_neg h4, if_pos h5]
    rfl
  · rfl

/-- The pushes of byte strings, in a script of less than `2 ^ 31` bytes. -/
theorem readsOps_pushData (vs : List (List UInt8)) (h : (vs.flatMap pushData).length < 2 ^ 31) :
    ∃ ops, ReadsOps ops (vs.flatMap pushData) ∧ ops.map ScriptOp.vch = vs ∧
      scriptOps (vs.flatMap pushData) = ops.map some ∧
      ∀ op ∈ ops, op.opcode ≤ OP_PUSHDATA4 ∧ op.opcode = pushOpcode op.vch.length := by
  induction vs with
  | nil => exact ⟨[], rfl, rfl, rfl, by simp⟩
  | cons v vs ih =>
    rw [flatMap_cons] at h ⊢
    have hv : v.length ≤ (pushData v).length := by simp [pushData]
    have hint32 := getScriptOpInt32_eq h
    rw [length_append] at h
    obtain ⟨op, hop, hcode, hvch, hpc⟩ :=
      getScriptOp_pushData (show v.length < 2 ^ 32 by omega) (vs.flatMap pushData)
    obtain ⟨ops, hreads, hvs, hops, hall⟩ := ih (by omega)
    refine ⟨op :: ops, ⟨hint32.trans hop, hpc ▸ hreads⟩, ?_, ?_, forall_mem_cons.mpr ⟨?_, hall⟩⟩
    · rw [map_cons, hvch, hvs]
    · rw [scriptOps_of_some hop, hpc, hops, map_cons]
    · rw [hcode, hvch]
      exact ⟨(pushSize_pushOpcode (by omega) []).1, rfl⟩

/-- Byte strings appended to a script of less than `2 ^ 31` bytes are read back in order up to its
end, by push opcodes that are minimal but for the bytes with an opcode of their own, and the script
is push only. -/
theorem script_pushes_parse (vs : List (List UInt8)) (h : (vs.flatMap pushData).length < 2 ^ 31) :
    (∃ ops, ReadsOps ops (vs.flatMap pushData) ∧ ops.map ScriptOp.vch = vs ∧
      ∀ op ∈ ops, op.opcode ≤ OP_PUSHDATA4 ∧
        ((∀ b, op.vch = [b] → ¬ (1 ≤ b ∧ b ≤ 16 ∨ b = 0x81)) →
          checkMinimalPush op.vch op.opcode = true)) ∧
    isPushOnly (vs.flatMap pushData) = true := by
  obtain ⟨ops, hreads, hvs, hops, hall⟩ := readsOps_pushData vs h
  refine ⟨⟨ops, hreads, hvs, fun op hop => ⟨(hall op hop).1, fun hdata => ?_⟩⟩, ?_⟩
  · rw [(hall op hop).2]
    exact checkMinimalPush_pushOpcode op.vch hdata
  · rw [isPushOnly, hops, all_map, all_eq_true]
    exact fun op hop => decide_eq_true (UInt8.le_trans (hall op hop).1 (by decide))

/-- An empty string and a byte. -/
theorem script_pushes_parse_two : ([[], [7]].flatMap pushData).length < 2 ^ 31 ∧
    isPushOnly ([[], [7]].flatMap pushData) = true :=
  ⟨by decide, (script_pushes_parse _ (by decide)).2⟩

/-- Two strings of `2 ^ 30` bytes are appended to a script of which nothing is read. -/
theorem script_pushes_too_long : ∃ v : List UInt8, v.length < 2 ^ 32 ∧
    getScriptOpInt32 ([v, v].flatMap pushData) = none := by
  obtain ⟨v, hv⟩ : ∃ v : List UInt8, v.length = 2 ^ 30 := ⟨_, length_replicate (a := 0)⟩
  have hwidth : sizeWidth (pushOpcode v.length) ≤ 4 := by
    unfold sizeWidth
    split_ifs <;> decide
  have hdiff : endMinus ([v, v].flatMap pushData) < 1 := by
    simp only [flatMap_cons, flatMap_nil, pushData_eq, endMinus, length_append, length_cons,
      length_nil, length_writeLE, hv]
    rw [hv] at hwidth
    omega
  refine ⟨v, by omega, ?_⟩
  rw [flatMap_cons, pushData_eq, cons_append] at hdiff ⊢
  rw [getScriptOpInt32, if_pos hdiff]

end RadiantCore
