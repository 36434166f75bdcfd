import RadiantCore.Interpreter

/-!
# The opcodes `OP_BLAKE3` and `OP_K12`

Both opcodes hash an element of the stack, and both hashers are compared with the specification of
their hash function, on the digest and on what goes into their compression function or sponge. The
hasher of `OP_BLAKE3` counts the blocks of a chunk where BLAKE3 counts chunks, so that it is right
on messages of one block only. The hasher of `OP_K12` has no tree of chunks, so that it is right on
messages of one chunk only.
-/

namespace RadiantCore

open Opcode List KangarooTwelve

/-! ## BLAKE3 -/

/-- What the calls of `Write`, one for each element of `writes`, and of `Finalize` have to do : the
digest is the BLAKE3 hash of the message, and it comes from the compressions that define it. -/
def CBlake3.ComputesBlake3 (writes : List (List UInt8)) : Prop :=
  let h := writes.foldl CBlake3.write CBlake3.reset
  (∃ digest, h.finalize = some digest ∧ digest.data = Blake3.hash writes.flatten) ∧
    h.compressions = Blake3.compressions writes.flatten

theorem CBlake3.finalize_writes (writes : List (List UInt8))
    (hlen : writes.flatten.length ≤ CBlake3.chunkLen) :
    ∃ digest, (writes.foldl CBlake3.write CBlake3.reset).finalize = some digest ∧ digest.data =
      Blake3.wordBytes ((CBlake3.countedCompressions writes.flatten).foldl Blake3.compress
        Blake3.iv) := by
  have hread := CBlake3.hasRead_writes writes
  rw [← hread.compressions_eq]
  exact hread.finalize_eq hlen

/-! ## KangarooTwelve -/

/-- What the hasher does with a message that it gets in one piece. -/
theorem CK12.hasRead_write (m : List UInt8) : (CK12.reset.write m).HasRead m := by
  simpa using CK12.hasRead_reset.write m

/-- The hasher absorbs the final node of the message exactly when the message leaves space for the
suffix in the first chunk. -/
theorem CK12.absorbedBlocks_eq_iff (m : List UInt8) :
    (CK12.reset.write m).absorbedBlocks = spongeBlocks
      (finalNode m []).1 (finalNode m []).2 ↔ m.length < 8192 := by
  rw [(CK12.hasRead_write m).absorbedBlocks_eq]
  constructor
  · intro h
    by_contra hlong
    rw [finalNode_snd_of_le (not_lt.mp hlong)] at h
    have hdomain := domain_eq_of_spongeBlocks (by decide) (by decide) h
    cases hdomain
  · intro h
    rw [finalNode_of_lt h]

theorem CK12.finalize_of_lt {m : List UInt8} (h : m.length < 8192) :
    (CK12.reset.write m).finalize.data = hash m [] := by
  rw [(CK12.hasRead_write m).finalize_eq, KangarooTwelve.hash, KangarooTwelve.finalNode_of_lt h]

/-! ## The opcodes -/

section Opcodes

variable [Crypto]

/-- On a message of at most one chunk, in whatever pieces it is written, the hasher computes the
BLAKE3 hash exactly when the message is a single block. Then the opcode replaces it by its hash. -/
theorem computesBlake3_iff (writes : List (List UInt8))
    (hlen : writes.flatten.length ≤ CBlake3.chunkLen) :
    (CBlake3.ComputesBlake3 writes ∧ ∀ stack : Stack,
      StackOp.hash OP_BLAKE3 (writes.flatten :: stack) =
        .ok (Blake3.hash writes.flatten :: stack)) ↔ writes.flatten.length ≤ 64 := by
  have hread := CBlake3.hasRead_writes writes
  constructor
  · rintro ⟨⟨-, hcompressions⟩, -⟩
    rwa [hread.compressions_eq, CBlake3.countedCompressions_eq_iff] at hcompressions
  · intro hblock
    have hcounted := (CBlake3.countedCompressions_eq_iff writes.flatten).mpr hblock
    refine ⟨⟨?_, hread.compressions_eq.trans hcounted⟩, fun stack => ?_⟩
    · obtain ⟨digest, hfinalize, hdata⟩ := CBlake3.finalize_writes _ hlen
      exact ⟨digest, hfinalize, by rw [hdata, hcounted, Blake3.hash]⟩
    · -- The opcode writes the element in one piece.
      obtain ⟨digest, hfinalize, hdata⟩ := CBlake3.finalize_writes [writes.flatten]
        (by simpa using hlen)
      simp only [foldl_cons, foldl_nil, flatten_cons, flatten_nil,
        append_nil] at hfinalize hdata
      rw [hcounted] at hdata
      simp only [StackOp.hash, StackOp.digest, hfinalize, hdata, Blake3.hash]
      rfl

/-- How an iteration of the loop of `EvalScript` executes the opcode : the limits on the number of
operations and on the size of the stack are all that can fail. -/
theorem evalOp_k12 (env : EvalEnv) {op : ScriptOp} {st : EvalState} {m : Valtype} {stack : Stack}
    (hflag : hasFlag env.flags .SCRIPT_ENHANCED_REFERENCES = true) (hop : op.opcode = OP_K12)
    (hvch : op.vch = []) (hexec : st.vfExec.allTrue = true) (hstack : st.stack = m :: stack) :
    evalOp env op st = (do
      require (st.nOpCount + 1 ≤ maxOpsPerScript) (.error .OP_COUNT)
      require (stack.length + 1 + st.altstack.length ≤ maxStackSize) (.error .STACK_SIZE)
      return .next { st with
        stack := (CK12.reset.write m).finalize.data :: stack, nOpCount := st.nOpCount + 1 }) := by
  have hdisabled : isOpcodeDisabled op.opcode env.flags = false := by
    rw [hop, isOpcodeDisabled, show Opcode.ofByte? OP_K12 = some OP_K12 by decide]
    simp only [hflag, Bool.not_true]
  have hexecOp : ∀ st : EvalState, execOp env true op OP_K12 st = (do
      let stack ← StackOp.hash OP_K12 st.stack
      return .next { st with stack := stack }) := fun _ => rfl
  have hhash : StackOp.hash OP_K12 (m :: stack) =
      .ok ((CK12.reset.write m).finalize.data :: stack) := by
    simp only [StackOp.hash, StackOp.digest]
    rfl
  have hdispatch : ∀ st : EvalState, st.vfExec.allTrue = true → st.stack = m :: stack →
      dispatch env op st = .ok (.next { st with
        stack := (CK12.reset.write m).finalize.data :: stack }) := by
    intro st hexec hstack
    have hpush : ¬ op.opcode ≤ OP_PUSHDATA4 := by rw [hop]; decide
    simp only [dispatch, hexec, hpush, and_false, if_false, true_or, if_true]
    rw [hop, show Opcode.ofByte? OP_K12 = some OP_K12 by decide]
    simp only [hexecOp, hstack, hhash]
    rfl
  have hcounted : op.opcode > OP_16 := by rw [hop]; decide
  simp only [evalOp, hvch, hcounted, if_true, hdisabled]
  rw [hdispatch { st with nOpCount := st.nOpCount + 1 } hexec hstack,
    require_pos (show ([] : List UInt8).length ≤ maxScriptElementSize from Nat.zero_le _),
    require_pos (show ¬ false = true by decide)]
  simp only [require, true_imp_iff]
  rfl

/-- Executing the opcode fails, or it replaces the element by its hash : exactly when the element
leaves space for the suffix in the first chunk, or a limit makes the iteration fail anyway. -/
theorem k12_step_iff (env : EvalEnv) (op : ScriptOp) (st : EvalState) (m : Valtype) (stack : Stack)
    (hflag : hasFlag env.flags .SCRIPT_ENHANCED_REFERENCES = true) (hop : op.opcode = OP_K12)
    (hvch : op.vch = []) (hexec : st.vfExec.allTrue = true) (hstack : st.stack = m :: stack)
    (_hsize : m.length ≤ maxScriptElementSize) :
    ((∃ e, evalOp env op st = .error e) ∨
      (∃ st', evalOp env op st = .ok (.next st') ∧
        st'.stack = hash m [] :: stack) ∧
        (CK12.reset.write m).absorbedBlocks = spongeBlocks
          (finalNode m []).1 (finalNode m []).2) ↔
      m.length < 8192 ∨ maxOpsPerScript ≤ st.nOpCount ∨
        maxStackSize < st.stack.length + st.altstack.length := by
  rw [evalOp_k12 env hflag hop hvch hexec hstack, CK12.absorbedBlocks_eq_iff]
  have hlen : st.stack.length = stack.length + 1 := by rw [hstack, length_cons]
  by_cases hops : st.nOpCount + 1 ≤ maxOpsPerScript
  · rw [require_pos hops]
    by_cases hlimit : stack.length + 1 + st.altstack.length ≤ maxStackSize
    · rw [require_pos hlimit]
      constructor
      · rintro (⟨e, he⟩ | ⟨-, hlt⟩)
        · cases he
        · exact Or.inl hlt
      · intro h
        have hlt : m.length < 8192 := by omega
        exact Or.inr ⟨⟨_, rfl, by rw [CK12.finalize_of_lt hlt]⟩, hlt⟩
    · rw [require_neg hlimit]
      refine iff_of_true (Or.inl ⟨_, rfl⟩) (Or.inr (Or.inr ?_))
      omega
  · rw [require_neg hops]
    refine iff_of_true (Or.inl ⟨_, rfl⟩) (Or.inr (Or.inl ?_))
    omega

end Opcodes

section Sample

attribute [local instance] Crypto.toy

theorem computesBlake3_iff_sample :
    CBlake3.ComputesBlake3 [[1, 2], [], [3]] ∧
      StackOp.hash OP_BLAKE3 [[1, 2, 3]] = .ok [Blake3.hash [1, 2, 3]] := by
  have h := (computesBlake3_iff [[1, 2], [], [3]] (by decide)).mpr (by decide)
  exact ⟨h.1, h.2 []⟩

/-- The digest of 65 zero bytes is not their BLAKE3 hash : the second block is compressed with the
counter 1. -/
theorem blake3_two_blocks : ¬ ∃ digest,
    (CBlake3.reset.write (replicate 65 0)).finalize = some digest ∧
      digest.data = Blake3.hash (replicate 65 0) := by
  rintro ⟨digest, hfinalize, hdata⟩
  obtain ⟨digest', hfinalize', hdata'⟩ := CBlake3.finalize_writes
    [replicate 65 0] (by decide)
  have hsame : digest' = digest := Option.some.inj (hfinalize'.symm.trans hfinalize)
  rw [hsame, hdata] at hdata'
  have hblocks : BlockStream.blocks 64 (replicate 65 (0 : UInt8)) =
      [replicate 64 0, [0]] := by
    rw [show replicate 65 (0 : UInt8) = replicate 64 0 ++ [0] by decide,
      BlockStream.blocks_cons (by decide) (by decide) (by decide),
      BlockStream.blocks_of_length_le (by decide)]
  simp only [Blake3.hash, Blake3.compressions, CBlake3.countedCompressions, flatten_cons,
    flatten_nil, append_nil, hblocks] at hdata'
  revert hdata'
  decide +kernel

/-- An environment with the flag of the opcode. -/
def sampleHashEnv : EvalEnv where
  flags := setFlag 0 .SCRIPT_ENHANCED_REFERENCES true
  checker := ⟨verifySignature, fun _ _ _ _ => .ok false, fun _ => false, fun _ => false⟩
  context := none

/-- A state in which the opcode is executed on an element. -/
def sampleHashState (m : Valtype) : EvalState := { stack := [m], pbegincodehash := [] }

theorem k12_step_iff_sample :
    (∃ e, evalOp sampleHashEnv ⟨OP_K12, [], [], by decide⟩ (sampleHashState [1]) = .error e) ∨
      (∃ st', evalOp sampleHashEnv ⟨OP_K12, [], [], by decide⟩ (sampleHashState [1]) =
        .ok (.next st') ∧ st'.stack = [hash [1] []]) ∧
        (CK12.reset.write [1]).absorbedBlocks = spongeBlocks
          (finalNode [1] []).1 (finalNode [1] []).2 :=
  (k12_step_iff sampleHashEnv ⟨OP_K12, [], [], by decide⟩ (sampleHashState [1]) [1] [] (by decide)
    rfl rfl (by decide) rfl (by decide)).mpr (Or.inl (by decide))

theorem zeros_cut {n : ℕ} (k : ℕ) (hn : n ≤ 168) :
    BlockStream.Cut 168 (replicate (k * 168 + n) (0 : UInt8))
      (replicate k (replicate 168 0)) (replicate n 0) where
  eq := by rw [flatten_replicate_replicate, ← replicate_add]
  length_eq := by
    intro b hb
    rw [eq_of_mem_replicate hb, length_replicate]
  rest_le := by rwa [length_replicate]

/-- The digest of 8192 zero bytes is not their KangarooTwelve hash : with the suffix they are two
chunks. -/
theorem k12_two_chunks : ∃ digest,
    StackOp.hash OP_K12 [replicate 8192 0] = .ok [digest] ∧
      digest ≠ hash (replicate 8192 0) [] := by
  refine ⟨(CK12.reset.write (replicate 8192 0)).finalize.data, ?_, ?_⟩
  · simp only [StackOp.hash, StackOp.digest]
    rfl
  have hsuffix : replicate 8192 (0 : UInt8) ++ [0] = replicate (48 * 168 + 129) 0 :=
    replicate_succ'.symm
  have hleaf : spongeBlocks [0] 0x0B = [padLast [0] 0x0B] :=
    spongeBlocks_eq (BlockStream.Cut.nil.append [0] (by decide)) (by decide)
      0x0B
  have hnode : finalNode (replicate 8192 0) [] =
      (replicate (48 * 168 + 128) 0 ++ ([3, 0, 0, 0, 0, 0, 0, 0] ++
        turboShake128 [0] 0x0B) ++ [1, 1, 0xFF, 0xFF], 0x06) := by
    rw [finalNode, append_nil, length_nil,
      lengthEncode_zero, BlockStream.blocks_cons (by decide) length_replicate
      (by decide), BlockStream.blocks_of_length_le (by decide)]
    have hcount : lengthEncode [([0] : List UInt8)].length = [1, 1] := by
      simp [lengthEncode]
    simp only [hcount, flatMap_cons, flatMap_nil, append_nil, append_assoc,
      cons_append, nil_append, Nat.reduceMul, Nat.reduceAdd]
  have hcut := ((zeros_cut 48 (n := 128) (by decide)).append
    ([3, 0, 0, 0, 0, 0, 0, 0] ++ turboShake128 [0] 0x0B) (by
      simp [length_turboShake128])).push (by
      simp [length_turboShake128]) |>.append [1, 1, 0xFF, 0xFF] (by decide)
  rw [(CK12.hasRead_write _).finalize_eq, hsuffix, KangarooTwelve.hash, hnode,
    CK12.turboShake128_eq, CK12.turboShake128_eq,
    spongeBlocks_eq (zeros_cut 48 (n := 129) (by decide)) (by simp),
    spongeBlocks_eq hcut (by decide), CK12.turboShake128_eq, hleaf]
  decide +kernel

end Sample

end RadiantCore
