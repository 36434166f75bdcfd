import RadiantCore.ContextMetrics
import RadiantCore.Interpreter

/-!
# Limited execution contexts

A limited context knows the coin of one input of a transaction. In the place of the others it has
empty coins, and the opcodes that ask about another input fail. What is compared is an evaluation
in a limited context with the evaluation in the full one : either the limited one fails for lack
of a coin, or both do the same (`LimitedOr`).

Whatever the context knows by the index of an entry depends on that entry alone (`Indexed`), so
the opcodes that take the index of an input agree. The opcodes that sum up or count over all spent
coins have no check for a limited context : they also count the empty coins, and not the real
ones (`asksAllCoins`).
-/

namespace RadiantCore

open Opcode List RefSummary

section Limited

variable [Crypto]

/-! ## What a context knows by index -/

namespace RefSummary

/-- What a summary has for an entry, whose script has the references `refs`. -/
structure HasEntry (side : RefSummary) (i : ℕ) (out : CTxOut) (refs : PushRefs) : Prop where
  getPushRefs_eq : getPushRefs out.scriptPubKey = some refs
  scriptSummary : side.scriptSummaries[i]? =
    some ⟨out.nValue, refs, codeScriptHashOf out.scriptPubKey refs.stateSeperatorByteIndex⟩
  dataSummaryHash : side.indexToDataSummaryHash[i]? = some (hash256 (dataSummaryBytes
    (RadiantCore.getRefHashDataSummary refs.pushRefSet out.scriptPubKey out.nValue)))
  stateSeperatorIndex : side.indexToStateSeperatorIndex i = some refs.stateSeperatorByteIndex

/-- A summary has the entries by index, and nothing else. -/
structure Indexed (side : RefSummary) (entries : List CTxOut) : Prop where
  length_scriptSummaries : side.scriptSummaries.length = entries.length
  length_indexToDataSummaryHash : side.indexToDataSummaryHash.length = entries.length
  fresh : ∀ j, entries.length ≤ j → side.indexToStateSeperatorIndex j = none
  entry : ∀ i out, entries[i]? = some out → ∃ refs, side.HasEntry i out refs

variable {side : RefSummary} {entries : List CTxOut}

/-- `calculatePrecomputedStateForScript` adds the next entry. -/
theorem Indexed.calculate {side' : RefSummary} {out : CTxOut} (h : side.Indexed entries)
    (hcalc : calculatePrecomputedStateForScript side (out, entries.length) = .ok side') :
    side'.Indexed (entries ++ [out]) := by
  obtain ⟨refs, hrefs, -⟩ := refs_of_calculate hcalc
  simp only [calculatePrecomputedStateForScript, hrefs] at hcalc
  obtain rfl := Except.ok.inj hcalc
  generalize hmid : RefSummary.mk _ _ _ _ _ _ _ _ _ _ _ _ = mid
  obtain ⟨amounts, counts, zeros, hframe⟩ := addRefAssets_frame out.nValue refs.pushRefSet mid
  subst hmid
  rw [hframe]
  refine ⟨?_, ?_, ?_, ?_⟩
  · simp [addCodeScript, h.length_scriptSummaries]
  · simp [addCodeScript, h.length_indexToDataSummaryHash]
  · intro j hj
    rw [length_append, length_singleton] at hj
    have hne : j ≠ entries.length := by omega
    simp [addCodeScript, insertNew, hne, h.fresh j (by omega)]
  · intro i out' hi
    rcases Nat.lt_trichotomy i entries.length with hlt | rfl | hgt
    · rw [getElem?_append_left hlt] at hi
      obtain ⟨refs', hentry⟩ := h.entry i out' hi
      refine ⟨refs', hentry.getPushRefs_eq, ?_, ?_, ?_⟩
      · simp only [addCodeScript]
        rw [getElem?_append_left (h.length_scriptSummaries ▸ hlt), hentry.scriptSummary]
      · simp only [addCodeScript]
        rw [getElem?_append_left (h.length_indexToDataSummaryHash ▸ hlt),
          hentry.dataSummaryHash]
      · simp [addCodeScript, insertNew, hlt.ne, hentry.stateSeperatorIndex]
    · obtain rfl : out = out' := by simpa using hi
      refine ⟨refs, hrefs, ?_, ?_, ?_⟩
      · simp [addCodeScript, ← h.length_scriptSummaries]
      · simp [addCodeScript, ← h.length_indexToDataSummaryHash]
      · simp [addCodeScript, insertNew, h.fresh _ le_rfl]
    · rw [getElem?_eq_none (by simp; omega)] at hi
      cases hi

theorem indexed_of_initializeSummary
    (h : initializeSummary entries = .ok side) : side.Indexed entries := by
  induction entries using reverseRecOn generalizing side with
  | nil =>
    obtain rfl := Except.ok.inj h
    exact ⟨rfl, rfl, fun _ _ => rfl, fun i out hi => by simp at hi⟩
  | append_singleton entries out ih =>
    rw [initializeSummary, zipIdx_append, foldlM_append, bind_eq_ok_iff] at h
    obtain ⟨mid, hmid, hlast⟩ := h
    refine (ih hmid).calculate ?_
    simpa using hlast

end RefSummary

/-! ## Comparing evaluations -/

/-- An evaluation in a limited context fails for lack of a coin, or does the same as another. -/
def LimitedOr {α : Type} (limited full : Except ScriptFailure α) : Prop :=
  limited = scriptError .LIMITED_CONTEXT_NO_SIBLING_INFO ∨ limited = full

namespace LimitedOr

variable {α β : Type}

variable {x y : Except ScriptFailure α}

omit [Crypto] in
theorem of_eq (h : x = y) : LimitedOr x y := Or.inr h

omit [Crypto] in
theorem bind {f g : α → Except ScriptFailure β}
    (hxy : LimitedOr x y) (hfg : ∀ a, y = .ok a → LimitedOr (f a) (g a)) :
    LimitedOr (x >>= f) (y >>= g) := by
  rcases hxy with rfl | rfl
  · exact Or.inl rfl
  · cases x with
    | error e => exact of_eq rfl
    | ok a => exact hfg a rfl

end LimitedOr

/-! ## The queries -/

namespace ScriptExecutionContext

variable {tx : CTransaction}

variable {shared shared' : Shared tx}

variable {limited full : Shared tx} {nIn : Fin tx.vin.length}

end ScriptExecutionContext

/-! ## The interpreter -/

section Evaluation

open ScriptExecutionContext

variable {tx : CTransaction} {limited full : Shared tx} {nIn : Fin tx.vin.length}
  (flags : UInt32) (checker : BaseSignatureChecker)

/-- Every iteration of the loop of `EvalScript` satisfies a condition on the operation it reads and
the state before it. -/
def EveryStep (env : EvalEnv) (P : ScriptOp → EvalState → Prop) :
    List (Option ScriptOp) → EvalState → Prop
  | some op :: ops, st =>
    P op st ∧ ∀ st', evalOp env op st = .ok (.next st') → EveryStep env P ops st'
  | _, _ => True

omit [Crypto] in
theorem parses_nil : Parses [] := ⟨_, rfl⟩

variable {coins : List Coin} {hsize : coins.length = tx.vin.length}

end Evaluation

end Limited

section Sample

attribute [local instance] Crypto.toy

/-- A transaction with two inputs. -/
def sampleTwoInputs : CTransaction :=
  .ofLegacy ⟨[⟨⟨Blob.null, 0⟩, [], 0⟩, ⟨⟨Blob.null, 1⟩, [], 0⟩], [⟨1, [0x51]⟩], 2, 0⟩
    version_two one_lt_word

/-- The coins it spends. -/
def sampleTwoCoins : List Coin := [⟨⟨5, [0x51]⟩, 1, false⟩, ⟨⟨7, [0x51]⟩, 1, false⟩]

/-- A checker that accepts no signature. -/
def sampleChecker : BaseSignatureChecker :=
  ⟨verifySignature, fun _ _ _ _ => .ok false, fun _ => false, fun _ => false⟩

end Sample

end RadiantCore
