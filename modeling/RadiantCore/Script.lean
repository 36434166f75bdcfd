import RadiantCore.Blob
import RadiantCore.Opcode

/-!
# Scripts and the references they push

A script is a byte string. `getScriptOp` reads one operation from it, and `scriptOps` is
the sequence of reads a loop `while (pc < end) GetOp(pc, ...)` makes : one entry per
operation, and a last entry `none` when a read fails. The loops of the source over a
script recurse over that list.

`getPushRefs` is `CScript::GetPushRefs`, the scan that decides which references a script
carries : the references it pushes, requires, forbids to its siblings and holds as
singletons. What each set holds is `mem_pushRefSet_iff` and its companions : a reference
is in a set exactly when some operation of the script puts it there, wherever in the
script it stands and whether or not it would be executed.
-/

namespace RadiantCore

open Opcode List

/-- `CScript`, a byte string. -/
abbrev CScript := List UInt8

/-! ## Reading one operation -/

/-- The opcodes followed by a reference of 36 bytes. -/
def isRefOp (opcode : UInt8) : Bool :=
  opcode = OP_PUSHINPUTREF ∨ opcode = OP_REQUIREINPUTREF ∨
    opcode = OP_DISALLOWPUSHINPUTREF ∨ opcode = OP_DISALLOWPUSHINPUTREFSIBLING ∨
    opcode = OP_PUSHINPUTREFSINGLETON

/-- One operation read from a script : its opcode, its immediate operand and what is left
to read. -/
structure ScriptOp where
  opcode : UInt8
  /-- `vchRet`, the bytes the operation pushes or names. -/
  vch : List UInt8
  /-- The script after the operation. -/
  pc : CScript
  size_of_ref : isRefOp opcode = true → vch.length = 36
deriving DecidableEq

/-- The number of size bytes a push opcode is followed by. -/
def sizeWidth (opcode : UInt8) : ℕ :=
  if opcode < OP_PUSHDATA1 then 0 else if opcode = OP_PUSHDATA1 then 1
  else if opcode = OP_PUSHDATA2 then 2 else 4

/-- The size of an immediate operand and the script after the size bytes. -/
def pushSize (opcode : UInt8) (pc : CScript) : Option (ℕ × CScript) :=
  if pc.length < sizeWidth opcode then none
  else some (if opcode < OP_PUSHDATA1 then opcode.toNat else readLE (pc.take (sizeWidth opcode)),
    pc.drop (sizeWidth opcode))

variable {opcode : UInt8}

theorem isRefOp_of_le (h : opcode ≤ OP_PUSHDATA4) :
    ¬ isRefOp opcode = true := by
  simp only [isRefOp, decide_eq_true_eq]
  rintro (rfl | rfl | rfl | rfl | rfl) <;> exact absurd h (by decide)

/-- `GetScriptOp` : the operation at the front of a script, or `none` at its end or when
the operand it announces is cut short. -/
def getScriptOp : CScript → Option ScriptOp
  | [] => none
  | opcode :: pc =>
    if hpush : opcode ≤ OP_PUSHDATA4 then
      match pushSize opcode pc with
      | none => none
      | some (nSize, pc) =>
        if pc.length < nSize then none
        else some ⟨opcode, pc.take nSize, pc.drop nSize, fun h => absurd h (isRefOp_of_le hpush)⟩
    else if href : isRefOp opcode then
      if hlen : pc.length < 36 then none
      else some ⟨opcode, pc.take 36, pc.drop 36, fun _ => by simpa using hlen⟩
    else some ⟨opcode, [], pc, fun h => absurd h href⟩

/-- The size of the operand of an opcode, and the script from its first byte on. -/
def operandAt (opcode : UInt8) (pc : CScript) : Option (ℕ × CScript) :=
  if opcode ≤ OP_PUSHDATA4 then pushSize opcode pc
  else some (if isRefOp opcode then 36 else 0, pc)

variable {op : ScriptOp} {pc rest : CScript} {n : ℕ}

theorem getScriptOp_cons_iff : getScriptOp (opcode :: pc) = some op ↔
    ∃ n rest, operandAt opcode pc = some (n, rest) ∧ n ≤ rest.length ∧ opcode = op.opcode ∧
      rest.take n = op.vch ∧ rest.drop n = op.pc := by
  obtain ⟨opcode', vch, pc', _⟩ := op
  simp only [getScriptOp, operandAt]
  by_cases hpush : opcode ≤ OP_PUSHDATA4
  · simp only [dif_pos hpush, if_pos hpush]
    cases pushSize opcode pc with
    | none => simp
    | some p => simp [Prod.ext_iff, and_assoc]
  · by_cases href : isRefOp opcode
    · simp [hpush, href]
      tauto
    · simp [hpush, href]

theorem operandAt_suffix (h : operandAt opcode pc = some (n, rest)) : rest <:+ pc := by
  unfold operandAt pushSize at h
  split_ifs at h
  all_goals obtain ⟨-, rfl⟩ := Prod.mk.inj (Option.some.inj h)
  all_goals first | exact drop_suffix _ _ | exact suffix_refl _

/-- Every read consumes the opcode and the operand. -/
theorem getScriptOp_length_lt {s : CScript} (h : getScriptOp s = some op) :
    op.vch.length + op.pc.length < s.length := by
  cases s with
  | nil => cases h
  | cons opcode pc =>
    obtain ⟨n, rest, hoperand, -, -, hvch, hpc⟩ := getScriptOp_cons_iff.mp h
    rw [← hvch, ← hpc, ← length_append, take_append_drop, length_cons]
    exact Nat.lt_succ_of_le (operandAt_suffix hoperand).length_le

/-- What is left after a read is the end of the script. -/
theorem getScriptOp_suffix {s : CScript} (h : getScriptOp s = some op) :
    op.pc <:+ s := by
  cases s with
  | nil => cases h
  | cons opcode pc =>
    obtain ⟨n, rest, hoperand, -, -, -, hpc⟩ := getScriptOp_cons_iff.mp h
    rw [← hpc]
    exact (drop_suffix _ _).trans ((operandAt_suffix hoperand).trans (suffix_cons _ _))

/-- The reads of a loop over a script, at most `fuel` of them. -/
def readOps : ℕ → CScript → List (Option ScriptOp)
  | 0, _ => []
  | _ + 1, [] => []
  | fuel + 1, b :: s =>
    match getScriptOp (b :: s) with
    | none => [none]
    | some op => some op :: readOps fuel op.pc

/-- The reads of a loop `while (pc < end) GetOp(pc, ...)` over a script. Each read consumes
a byte, so the length of the script bounds their number. -/
def scriptOps (s : CScript) : List (Option ScriptOp) := readOps s.length s

variable {fuel : ℕ}

theorem readOps_eq {fuel' : ℕ} {s : CScript} (h : s.length ≤ fuel)
    (h' : s.length ≤ fuel') : readOps fuel s = readOps fuel' s := by
  induction fuel generalizing fuel' s with
  | zero =>
    obtain rfl : s = [] := by simpa using h
    cases fuel' <;> rfl
  | succ fuel ih =>
    cases s with
    | nil => cases fuel' <;> rfl
    | cons b s =>
      cases fuel' with
      | zero => simp at h'
      | succ fuel' =>
        simp only [readOps]
        cases hop : getScriptOp (b :: s) with
        | none => rfl
        | some op =>
          have hlt := getScriptOp_length_lt hop
          simp only [length_cons] at h h' hlt
          have hrest : readOps fuel op.pc = readOps fuel' op.pc := ih (by omega) (by omega)
          simp only [hrest]

theorem pc_suffix_of_mem_readOps {s : CScript} (h : some op ∈ readOps fuel s) : op.pc <:+ s := by
  induction fuel generalizing s with
  | zero => simp [readOps] at h
  | succ fuel ih =>
    cases s with
    | nil => simp [readOps] at h
    | cons b s =>
      simp only [readOps] at h
      cases hop : getScriptOp (b :: s) with
      | none => simp [hop] at h
      | some first =>
        simp only [hop, mem_cons, Option.some.injEq] at h
        rcases h with rfl | hrest
        · exact getScriptOp_suffix hop
        · exact (ih hrest).trans (getScriptOp_suffix hop)

@[simp] theorem scriptOps_nil : scriptOps [] = [] := rfl

theorem scriptOps_of_none {b : UInt8} {s : CScript} (h : getScriptOp (b :: s) = none) :
    scriptOps (b :: s) = [none] := by
  simp [scriptOps, readOps, h]

theorem scriptOps_of_some {s : CScript} (h : getScriptOp s = some op) :
    scriptOps s = some op :: scriptOps op.pc := by
  have hlt := getScriptOp_length_lt h
  cases s with
  | nil => simp at hlt
  | cons b s =>
    simp only [scriptOps, length_cons, readOps, h] at hlt ⊢
    rw [readOps_eq (by omega) le_rfl]

/-! ## The scan for references -/

/-- The reference an operation names. -/
def ScriptOp.ref? (op : ScriptOp) : Option Uint288 :=
  if h : isRefOp op.opcode = true then some ⟨op.vch, op.size_of_ref h⟩ else none

/-- What `GetPushRefs` returns : the reference sets of a script and the offset of the byte
after its `OP_STATESEPARATOR`, 0 when it has none. The source merges the sets into its
arguments ; here the caller does. -/
structure PushRefs where
  pushRefSet : Finset Uint288
  requireRefSet : Finset Uint288
  disallowedSiblingsRefSet : Finset Uint288
  singletonRefSet : Finset Uint288
  stateSeperatorByteIndex : ℕ
deriving DecidableEq

/-- The local variables of the loop of `GetPushRefs`. -/
structure PushRefScan where
  foundDisallowedRefs : Finset Uint288 := ∅
  foundDisallowedSiblingRefs : Finset Uint288 := ∅
  foundPushRefs : Finset Uint288 := ∅
  foundRequiredRefs : Finset Uint288 := ∅
  foundSingletonRefs : Finset Uint288 := ∅
  isExistingOpReturn : Bool := false
  isExistingStateSeperator : Bool := false
  /-- What is left to read after the `OP_STATESEPARATOR`. -/
  stateSeperatorLocatedIt : CScript := []

namespace PushRefScan

/-- The sets after an operation that names the reference `r`. -/
def addRef (scan : PushRefScan) (opcode : UInt8) (r : Uint288) : PushRefScan :=
  if opcode = OP_PUSHINPUTREF then
    { scan with foundPushRefs := insert r scan.foundPushRefs }
  else if opcode = OP_REQUIREINPUTREF then
    { scan with foundRequiredRefs := insert r scan.foundRequiredRefs }
  else if opcode = OP_DISALLOWPUSHINPUTREF then
    { scan with foundDisallowedRefs := insert r scan.foundDisallowedRefs }
  else if opcode = OP_DISALLOWPUSHINPUTREFSIBLING then
    { scan with foundDisallowedSiblingRefs := insert r scan.foundDisallowedSiblingRefs }
  else
    { scan with
      foundPushRefs := insert r scan.foundPushRefs
      foundDisallowedSiblingRefs := insert r scan.foundDisallowedSiblingRefs
      foundSingletonRefs := insert r scan.foundSingletonRefs }

/-- The sets after an operation. -/
def addRefs (scan : PushRefScan) (op : ScriptOp) : PushRefScan :=
  match op.ref? with
  | none => scan
  | some r => scan.addRef op.opcode r

/-- One iteration of the loop of `GetPushRefs` : a script has at most one
`OP_STATESEPARATOR`, and none after an `OP_RETURN`. -/
def step (scan : PushRefScan) (op : ScriptOp) : Option PushRefScan :=
  let scan := { scan with
    isExistingOpReturn := scan.isExistingOpReturn || op.opcode = OP_RETURN }
  let scan := scan.addRefs op
  if op.opcode = OP_STATESEPARATOR then
    if scan.isExistingStateSeperator || scan.isExistingOpReturn then none
    else some { scan with stateSeperatorLocatedIt := op.pc, isExistingStateSeperator := true }
  else some scan

/-- The loop of `GetPushRefs`. -/
def run : List (Option ScriptOp) → PushRefScan → Option PushRefScan
  | [], scan => some scan
  | none :: _, _ => none
  | some op :: ops, scan => (scan.step op).bind (run ops)

end PushRefScan

/-- `CScript::GetPushRefs`. It fails on a script that does not parse, on a misplaced
`OP_STATESEPARATOR` and on a script that pushes a reference it disallows. -/
def getPushRefs (s : CScript) : Option PushRefs :=
  match PushRefScan.run (scriptOps s) {} with
  | none => none
  | some scan =>
    if scan.foundDisallowedRefs ∩ scan.foundPushRefs = ∅ then
      some
        { pushRefSet := scan.foundPushRefs
          requireRefSet := scan.foundRequiredRefs
          disallowedSiblingsRefSet := scan.foundDisallowedSiblingRefs
          singletonRefSet := scan.foundSingletonRefs
          stateSeperatorByteIndex :=
            if scan.isExistingStateSeperator then s.length - scan.stateSeperatorLocatedIt.length
            else 0 }
    else none

/-- `GetPushRefs` succeeds on the script. -/
def Parses (s : CScript) : Prop := ∃ refs, getPushRefs s = some refs

instance (s : CScript) : Decidable (Parses s) :=
  decidable_of_iff _ Option.isSome_iff_exists

theorem getPushRefs_eq_none_iff {s : CScript} : getPushRefs s = none ↔ ¬ Parses s := by
  simp [Parses, Option.eq_none_iff_forall_ne_some]

/-! ## What the sets hold -/

/-- The operation names `r` after one of the opcodes `codes`. -/
def ScriptOp.Names (op : ScriptOp) (codes : List Opcode) (r : Uint288) : Prop :=
  op.ref? = some r ∧ ∃ c ∈ codes, op.opcode = c.toByte

variable {r : Uint288}

theorem ScriptOp.isRefOp_of_ref? (h : op.ref? = some r) :
    isRefOp op.opcode = true := by
  unfold ScriptOp.ref? at h
  split_ifs at h
  assumption

namespace PushRefScan

/-- A set of the scan is fed by the opcodes `codes` when an operation adds exactly the
reference it names after one of them. -/
def FedBy (set : PushRefScan → Finset Uint288) (codes : List Opcode) : Prop :=
  ∀ (scan scan' : PushRefScan) (op : ScriptOp), scan.step op = some scan' →
    ∀ r, r ∈ set scan' ↔ r ∈ set scan ∨ op.Names codes r

variable {scan scan' : PushRefScan}

theorem mem_run_iff {set : PushRefScan → Finset Uint288} {codes : List Opcode}
    (hfed : FedBy set codes) {ops : List (Option ScriptOp)}
    (h : run ops scan = some scan') (r : Uint288) :
    r ∈ set scan' ↔ r ∈ set scan ∨ ∃ op, some op ∈ ops ∧ op.Names codes r := by
  induction ops generalizing scan with
  | nil =>
    obtain rfl := Option.some.inj h
    simp
  | cons o ops ih =>
    cases o with
    | none => cases h
    | some op =>
      obtain ⟨mid, hmid, hrun⟩ := Option.bind_eq_some_iff.mp h
      rw [ih hrun, hfed _ _ _ hmid r, or_assoc]
      simp only [mem_cons, Option.some.injEq, or_and_right, exists_or, exists_eq_left]

/-- A step changes the sets as `addRefs` does. -/
theorem step_sets {op : ScriptOp} (h : scan.step op = some scan') :
    scan'.foundPushRefs = (scan.addRefs op).foundPushRefs ∧
      scan'.foundRequiredRefs = (scan.addRefs op).foundRequiredRefs ∧
      scan'.foundDisallowedRefs = (scan.addRefs op).foundDisallowedRefs ∧
      scan'.foundDisallowedSiblingRefs = (scan.addRefs op).foundDisallowedSiblingRefs ∧
      scan'.foundSingletonRefs = (scan.addRefs op).foundSingletonRefs := by
  cases href : op.ref? with
  | none =>
    simp only [step, addRefs, href] at h
    simp only [addRefs, href]
    split_ifs at h <;> (rw [← Option.some.inj h]; simp)
  | some r =>
    simp only [step, addRefs, href] at h
    simp only [addRefs, href, addRef] at h ⊢
    split_ifs at h ⊢ <;> (rw [← Option.some.inj h]; simp)

theorem fedBy :
    FedBy foundPushRefs [OP_PUSHINPUTREF, OP_PUSHINPUTREFSINGLETON] ∧
      FedBy foundRequiredRefs [OP_REQUIREINPUTREF] ∧
      FedBy foundDisallowedRefs [OP_DISALLOWPUSHINPUTREF] ∧
      FedBy foundDisallowedSiblingRefs
        [OP_DISALLOWPUSHINPUTREFSIBLING, OP_PUSHINPUTREFSINGLETON] ∧
      FedBy foundSingletonRefs [OP_PUSHINPUTREFSINGLETON] := by
  refine ⟨?_, ?_, ?_, ?_, ?_⟩ <;> intro scan scan' op h r
  all_goals
    simp only [step_sets h]
    cases href : op.ref? with
    | none => simp [addRefs, href, ScriptOp.Names]
    | some s =>
      have hop := ScriptOp.isRefOp_of_ref? href
      simp only [isRefOp, decide_eq_true_eq] at hop
      rcases hop with hc | hc | hc | hc | hc <;>
        simp [addRefs, addRef, href, hc, ScriptOp.Names, toByte_inj, eq_comm, or_comm]

end PushRefScan

variable {s : CScript} {refs : PushRefs}

section

variable (h : getPushRefs s = some refs)

include h

/-- A successful scan : the loop ended, and no reference is both disallowed and pushed. -/
theorem getPushRefs_eq_some :
    ∃ scan, PushRefScan.run (scriptOps s) {} = some scan ∧
      scan.foundDisallowedRefs ∩ scan.foundPushRefs = ∅ ∧
      refs = ⟨scan.foundPushRefs, scan.foundRequiredRefs, scan.foundDisallowedSiblingRefs,
        scan.foundSingletonRefs, if scan.isExistingStateSeperator
          then s.length - scan.stateSeperatorLocatedIt.length else 0⟩ := by
  unfold getPushRefs at h
  cases hrun : PushRefScan.run (scriptOps s) {} with
  | none => simp [hrun] at h
  | some scan =>
    simp only [hrun] at h
    by_cases hdis : scan.foundDisallowedRefs ∩ scan.foundPushRefs = ∅
    · rw [if_pos hdis] at h
      exact ⟨scan, rfl, hdis, (Option.some.inj h).symm⟩
    · rw [if_neg hdis] at h
      cases h

theorem mem_pushRefSet_iff :
    r ∈ refs.pushRefSet ↔ ∃ op, some op ∈ scriptOps s ∧
      op.Names [OP_PUSHINPUTREF, OP_PUSHINPUTREFSINGLETON] r := by
  obtain ⟨scan, hrun, -, rfl⟩ := getPushRefs_eq_some h
  rw [PushRefScan.mem_run_iff PushRefScan.fedBy.1 hrun]
  simp

theorem mem_disallowedSiblingsRefSet_iff :
    r ∈ refs.disallowedSiblingsRefSet ↔ ∃ op, some op ∈ scriptOps s ∧
      op.Names [OP_DISALLOWPUSHINPUTREFSIBLING, OP_PUSHINPUTREFSINGLETON] r := by
  obtain ⟨scan, hrun, -, rfl⟩ := getPushRefs_eq_some h
  rw [PushRefScan.mem_run_iff PushRefScan.fedBy.2.2.2.1 hrun]
  simp

theorem mem_singletonRefSet_iff :
    r ∈ refs.singletonRefSet ↔ ∃ op, some op ∈ scriptOps s ∧
      op.Names [OP_PUSHINPUTREFSINGLETON] r := by
  obtain ⟨scan, hrun, -, rfl⟩ := getPushRefs_eq_some h
  rw [PushRefScan.mem_run_iff PushRefScan.fedBy.2.2.2.2 hrun]
  simp

end

theorem ScriptOp.Names.mono {codes codes' : List Opcode}
    (h : op.Names codes r) (hsub : codes ⊆ codes') : op.Names codes' r :=
  let ⟨href, c, hc, hop⟩ := h
  ⟨href, c, hsub hc, hop⟩

/-- A singleton is also pushed. -/
theorem singletonRefSet_subset_pushRefSet (h : getPushRefs s = some refs) :
    refs.singletonRefSet ⊆ refs.pushRefSet := fun r hr =>
  let ⟨op, hop, hn⟩ := (mem_singletonRefSet_iff h).mp hr
  (mem_pushRefSet_iff h).mpr ⟨op, hop, hn.mono (by simp)⟩

/-- A singleton is also forbidden to the siblings of its output. -/
theorem singletonRefSet_subset_disallowedSiblingsRefSet (h : getPushRefs s = some refs) :
    refs.singletonRefSet ⊆ refs.disallowedSiblingsRefSet := fun r hr =>
  let ⟨op, hop, hn⟩ := (mem_singletonRefSet_iff h).mp hr
  (mem_disallowedSiblingsRefSet_iff h).mpr ⟨op, hop, hn.mono (by simp)⟩

/-! ## Script templates -/

/-- `CScript::IsUnspendable` : the script starts with `OP_FALSE OP_RETURN`. -/
def isUnspendable : CScript → Bool
  | b :: c :: _ => b = OP_0 ∧ c = OP_RETURN
  | _ => false

/-- `CScript::IsPayToScriptHash` : `OP_HASH160`, a push of 20 bytes, `OP_EQUAL`. -/
def isPayToScriptHash (s : CScript) : Bool :=
  s.length = 23 ∧ s[0]? = some OP_HASH160.toByte ∧ s[1]? = some 0x14 ∧
    s[22]? = some OP_EQUAL.toByte

/-- `CScript::IsPayToPubKeyHash`. -/
def isPayToPubKeyHash (s : CScript) : Bool :=
  s.length = 25 ∧ s[0]? = some OP_DUP.toByte ∧ s[1]? = some OP_HASH160.toByte ∧ s[2]? = some 20 ∧
    s[23]? = some OP_EQUALVERIFY.toByte ∧ s[24]? = some OP_CHECKSIG.toByte

/-- `CScript::IsWitnessProgram` : a version opcode and one push of 2 to 40 bytes. -/
def isWitnessProgram : CScript → Bool
  | version :: size :: program =>
    2 ≤ program.length ∧ program.length ≤ 40 ∧
      (version = OP_0 ∨ OP_1 ≤ version ∧ version ≤ OP_16) ∧ size.toNat = program.length
  | _ => false

/-- `CScript::IsPushOnly` : every read succeeds with an opcode up to `OP_16`. -/
def isPushOnly (s : CScript) : Bool :=
  (scriptOps s).all fun
    | none => false
    | some op => op.opcode ≤ OP_16

end RadiantCore
