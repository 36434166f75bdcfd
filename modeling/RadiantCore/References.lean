import RadiantCore.TxVerify

/-!
# The reference rules of a transaction

`ReferenceParser` of `validation.h`. A reference names an outpoint (`fromOutpoint`). The
outputs of a transaction may push, require or hold as a singleton only references that an
input brings : the references its spent scripts push, and the outpoints it spends
themselves. A reference that an output forbids to its siblings, as a singleton does, is
pushed by no other output.

The source accumulates sets and a map from a reference to the only output that may push it. What
they hold in the end does not depend on the order (`OutputRefs.Collects`,
`mem_collectInputRefs`), so that the check is a condition on the outputs and the inputs
(`ReferenceConditions`, `reference_check_iff`). `ReferenceRules` is the part of it that
later files use.
-/

namespace RadiantCore

open List

/-- `Converters::fromOutpoint` : the bytes of the transaction identifier, then the index. -/
def fromOutpoint (o : COutPoint) : Uint288 :=
  ⟨o.txid.data ++ writeLE 4 o.n.toNat, by simp [o.txid.size_eq]⟩

theorem fromOutpoint_injective : Function.Injective fromOutpoint := by
  intro a b h
  have hdata := congrArg Blob.data h
  simp only [fromOutpoint] at hdata
  obtain ⟨htxid, hn⟩ := append_inj hdata (a.txid.size_eq.trans b.txid.size_eq.symm)
  have ha := a.n.toNat_lt
  have hb := b.n.toNat_lt
  have hab : a.n.toNat = b.n.toNat := writeLE_injective (by norm_num; omega) (by norm_num; omega) hn
  cases a
  cases b
  simp only [COutPoint.mk.injEq]
  exact ⟨Blob.ext htxid, UInt32.toNat_inj.mp hab⟩

/-- The script pushes `r` : `r` is in the push set that `GetPushRefs` computes for it. -/
def Pushes (s : CScript) (r : Uint288) : Prop :=
  ∃ refs, getPushRefs s = some refs ∧ r ∈ refs.pushRefSet

/-- The script holds `r` as a singleton : `r` is in the singleton set that `GetPushRefs`
computes for it. -/
def HoldsSingleton (s : CScript) (r : Uint288) : Prop :=
  ∃ refs, getPushRefs s = some refs ∧ r ∈ refs.singletonRefSet

/-- The script requires `r` : `r` is in the require set that `GetPushRefs` computes for it. -/
def Requires (s : CScript) (r : Uint288) : Prop :=
  ∃ refs, getPushRefs s = some refs ∧ r ∈ refs.requireRefSet

/-- The script forbids `r` to its siblings : `r` is in the disallow-sibling set that `GetPushRefs`
computes for it, explicitly or as a singleton. -/
def ForbidsSiblings (s : CScript) (r : Uint288) : Prop :=
  ∃ refs, getPushRefs s = some refs ∧ r ∈ refs.disallowedSiblingsRefSet

instance (s : CScript) (r : Uint288) : Decidable (Pushes s r) :=
  inferInstanceAs (Decidable (∃ refs, refs ∈ getPushRefs s ∧ r ∈ refs.pushRefSet))

instance (s : CScript) (r : Uint288) : Decidable (HoldsSingleton s r) :=
  inferInstanceAs (Decidable (∃ refs, refs ∈ getPushRefs s ∧ r ∈ refs.singletonRefSet))

variable {s : CScript}

theorem HoldsSingleton.pushes {r : Uint288} (h : HoldsSingleton s r) :
    Pushes s r :=
  let ⟨refs, hrefs, hr⟩ := h
  ⟨refs, hrefs, singletonRefSet_subset_pushRefSet hrefs hr⟩

/-! ## The outputs -/

/-- What the loop over the outputs collects. -/
structure OutputRefs where
  outputPushRefSet : Finset Uint288 := ∅
  outputSingletonRefSet : Finset Uint288 := ∅
  outputRequireRefSet : Finset Uint288 := ∅
  /-- The only output that may push a reference, for the references that an output forbids
  to its siblings. -/
  onlyAllowedRefMap : Uint288 → Option ℕ := fun _ => none
  /-- The references each output pushes. -/
  outputVec : List (Finset Uint288) := []

/-- One iteration of the loop over the outputs, `none` when the source returns false. -/
def OutputRefs.add (acc : OutputRefs) (out : CTxOut) : Option OutputRefs :=
  match getPushRefs out.scriptPubKey with
  | none => none
  | some refs =>
    if ∃ r ∈ refs.disallowedSiblingsRefSet, (acc.onlyAllowedRefMap r).isSome then none
    else some
      { outputPushRefSet := acc.outputPushRefSet ∪ refs.pushRefSet
        outputSingletonRefSet := acc.outputSingletonRefSet ∪ refs.singletonRefSet
        outputRequireRefSet := acc.outputRequireRefSet ∪ refs.requireRefSet
        onlyAllowedRefMap := fun r =>
          if r ∈ refs.disallowedSiblingsRefSet then some acc.outputVec.length
          else acc.onlyAllowedRefMap r
        outputVec := acc.outputVec ++ [refs.pushRefSet] }

/-- The loop over the outputs. -/
def collectOutputRefs : List CTxOut → OutputRefs → Option OutputRefs
  | [], acc => some acc
  | out :: vout, acc => (acc.add out).bind (collectOutputRefs vout)

/-! ## The inputs -/

/-- What the loop over the inputs collects : the references that are pushed and held as
singletons by the inputs. -/
structure InputRefs where
  inputPushRefSet : Finset Uint288 := ∅
  inputSingletonRefSet : Finset Uint288 := ∅

/-- One iteration of the loop over the inputs. `GetOutputFor` asserts that the coin is
there. -/
def InputRefs.add (view : CoinsMap) (acc : InputRefs) (prevout : COutPoint) :
    Except Failure (Option InputRefs) :=
  match view.lookup prevout with
  | none => .error (.abort "!coin.IsSpent()")
  | some coin => .ok ((getPushRefs coin.out.scriptPubKey).map fun refs =>
      { inputPushRefSet := insert (fromOutpoint prevout) acc.inputPushRefSet ∪ refs.pushRefSet
        inputSingletonRefSet :=
          insert (fromOutpoint prevout) acc.inputSingletonRefSet ∪ refs.singletonRefSet })

/-- The loop over the inputs. -/
def collectInputRefs (view : CoinsMap) : List COutPoint → InputRefs →
    Except Failure (Option InputRefs)
  | [], acc => .ok (some acc)
  | prevout :: prevouts, acc => do
    match ← acc.add view prevout with
    | none => return none
    | some acc => collectInputRefs view prevouts acc

/-! ## The rules -/

/-- `validateDisallowedSiblingsRefRule`, from output `i` on : a pushed reference with an
only allowed output is pushed there. -/
def validateDisallowedSiblingsRefRule (onlyAllowedMap : Uint288 → Option ℕ) :
    ℕ → List (Finset Uint288) → Bool
  | _, [] => true
  | i, refs :: outputVec =>
    decide (∀ r ∈ refs, (onlyAllowedMap r).all (· = i)) &&
      validateDisallowedSiblingsRefRule onlyAllowedMap (i + 1) outputVec

/-! ## What the loops collect -/

/-- What the loop over the outputs `vout` leaves, from `acc` : the references of the outputs, the
output that forbids a reference to the others, and the pushed references by output. -/
structure OutputRefs.Collects (acc : OutputRefs) (vout : List CTxOut) (acc' : OutputRefs) :
    Prop where
  push : ∀ r, r ∈ acc'.outputPushRefSet ↔
    r ∈ acc.outputPushRefSet ∨ ∃ out ∈ vout, Pushes out.scriptPubKey r
  singleton : ∀ r, r ∈ acc'.outputSingletonRefSet ↔
    r ∈ acc.outputSingletonRefSet ∨ ∃ out ∈ vout, HoldsSingleton out.scriptPubKey r
  require : ∀ r, r ∈ acc'.outputRequireRefSet ↔
    r ∈ acc.outputRequireRefSet ∨ ∃ out ∈ vout, Requires out.scriptPubKey r
  onlyAllowed : ∀ r k, acc'.onlyAllowedRefMap r = some k ↔
    acc.onlyAllowedRefMap r = some k ∨ ∃ i out, vout[i]? = some out ∧
      ForbidsSiblings out.scriptPubKey r ∧ k = acc.outputVec.length + i
  outputVec : ∃ sets, acc'.outputVec = acc.outputVec ++ sets ∧
    sets.map some = vout.map fun out => (getPushRefs out.scriptPubKey).map PushRefs.pushRefSet

/-- What an iteration adds for an output with the references `refs`. -/
def OutputRefs.addRefs (acc : OutputRefs) (refs : PushRefs) : OutputRefs where
  outputPushRefSet := acc.outputPushRefSet ∪ refs.pushRefSet
  outputSingletonRefSet := acc.outputSingletonRefSet ∪ refs.singletonRefSet
  outputRequireRefSet := acc.outputRequireRefSet ∪ refs.requireRefSet
  onlyAllowedRefMap := fun r =>
    if r ∈ refs.disallowedSiblingsRefSet then some acc.outputVec.length
    else acc.onlyAllowedRefMap r
  outputVec := acc.outputVec ++ [refs.pushRefSet]

variable {acc acc' : OutputRefs}

/-- An iteration over an output succeeds when its script parses and no reference it forbids has
an only allowed output yet. -/
theorem OutputRefs.add_eq_some_iff {out : CTxOut} :
    acc.add out = some acc' ↔ ∃ refs, getPushRefs out.scriptPubKey = some refs ∧
      (∀ r ∈ refs.disallowedSiblingsRefSet, acc.onlyAllowedRefMap r = none) ∧
      acc.addRefs refs = acc' := by
  unfold OutputRefs.add
  cases hrefs : getPushRefs out.scriptPubKey with
  | none => simp
  | some refs =>
    have hfree : (∀ r ∈ refs.disallowedSiblingsRefSet, acc.onlyAllowedRefMap r = none) ↔
        ¬ ∃ r ∈ refs.disallowedSiblingsRefSet, (acc.onlyAllowedRefMap r).isSome := by
      simp
    simp only [Option.some.injEq, exists_eq_left', hfree]
    split_ifs with h
    · simp [h]
    · exact ⟨fun heq => ⟨h, Option.some.inj heq⟩, fun heq => congrArg some heq.2⟩

theorem OutputRefs.onlyAllowedRefMap_addRefs (acc : OutputRefs) (refs : PushRefs) (r : Uint288) :
    (acc.addRefs refs).onlyAllowedRefMap r =
      if r ∈ refs.disallowedSiblingsRefSet then some acc.outputVec.length
      else acc.onlyAllowedRefMap r := rfl

/-- The sets of one script. -/
theorem exists_refs_iff {refs : PushRefs} (h : getPushRefs s = some refs)
    (p : PushRefs → Prop) : (∃ refs', getPushRefs s = some refs' ∧ p refs') ↔ p refs := by
  simp [h]

variable {vout : List CTxOut}

theorem collectOutputRefs_collects
    (h : collectOutputRefs vout acc = some acc') : acc.Collects vout acc' := by
  induction vout generalizing acc with
  | nil =>
    obtain rfl := Option.some.inj h
    exact ⟨by simp, by simp, by simp, by simp, [], by simp⟩
  | cons out vout ih =>
    obtain ⟨mid, hadd, hrest⟩ := Option.bind_eq_some_iff.mp h
    obtain ⟨refs, hrefs, hfree, rfl⟩ := OutputRefs.add_eq_some_iff.mp hadd
    have hcol := ih hrest
    have hforbids : ∀ r, ForbidsSiblings out.scriptPubKey r ↔ r ∈ refs.disallowedSiblingsRefSet :=
      fun r => exists_refs_iff hrefs _
    refine ⟨fun r => ?_, fun r => ?_, fun r => ?_, fun r k => ?_, ?_⟩
    · rw [hcol.push, OutputRefs.addRefs, Finset.mem_union, exists_mem_cons_iff, Pushes,
        exists_refs_iff hrefs, or_assoc]
    · rw [hcol.singleton, OutputRefs.addRefs, Finset.mem_union, exists_mem_cons_iff,
        HoldsSingleton, exists_refs_iff hrefs, or_assoc]
    · rw [hcol.require, OutputRefs.addRefs, Finset.mem_union, exists_mem_cons_iff, Requires,
        exists_refs_iff hrefs, or_assoc]
    · have hlen : (acc.addRefs refs).outputVec.length = acc.outputVec.length + 1 := by
        simp [OutputRefs.addRefs]
      rw [hcol.onlyAllowed, OutputRefs.onlyAllowedRefMap_addRefs, hlen]
      constructor
      · rintro (hmid | ⟨i, out', hi, hforbid, rfl⟩)
        · by_cases hr : r ∈ refs.disallowedSiblingsRefSet
          · rw [if_pos hr] at hmid
            exact Or.inr ⟨0, out, rfl, (hforbids r).mpr hr, (Option.some.inj hmid).symm⟩
          · rw [if_neg hr] at hmid
            exact Or.inl hmid
        · exact Or.inr ⟨i + 1, out', by simpa using hi, hforbid, by omega⟩
      · rintro (hacc | ⟨_ | i, out', hi, hforbid, rfl⟩)
        · have hr : r ∉ refs.disallowedSiblingsRefSet := fun hr => by simp [hfree r hr] at hacc
          exact Or.inl (by rw [if_neg hr, hacc])
        · obtain rfl : out = out' := by simpa using hi
          exact Or.inl (by rw [if_pos ((hforbids r).mp hforbid)]; rfl)
        · exact Or.inr ⟨i, out', by simpa using hi, hforbid, by omega⟩
    · obtain ⟨sets, hvec, hsets⟩ := hcol.outputVec
      exact ⟨refs.pushRefSet :: sets, by rw [hvec]; simp [OutputRefs.addRefs],
        by simp [hsets, hrefs]⟩

/-- The outputs a loop from `acc` accepts : their scripts parse, and each reference is forbidden to
its siblings by one of them at most. -/
structure OutputRefs.Accepts (acc : OutputRefs) (vout : List CTxOut) : Prop where
  parses : ∀ out ∈ vout, Parses out.scriptPubKey
  free : ∀ out ∈ vout, ∀ r, ForbidsSiblings out.scriptPubKey r → acc.onlyAllowedRefMap r = none
  once : vout.Pairwise fun out out' =>
    ∀ r, ForbidsSiblings out.scriptPubKey r → ¬ ForbidsSiblings out'.scriptPubKey r

theorem exists_collectOutputRefs_iff :
    (∃ acc', collectOutputRefs vout acc = some acc') ↔ acc.Accepts vout := by
  induction vout generalizing acc with
  | nil => exact iff_of_true ⟨acc, rfl⟩ ⟨by simp, by simp, List.Pairwise.nil⟩
  | cons out vout ih =>
    have hforbids : ∀ refs, getPushRefs out.scriptPubKey = some refs →
        ∀ r, ForbidsSiblings out.scriptPubKey r ↔ r ∈ refs.disallowedSiblingsRefSet :=
      fun refs hrefs r => exists_refs_iff hrefs _
    constructor
    · rintro ⟨acc', h⟩
      obtain ⟨mid, hadd, hrest⟩ := Option.bind_eq_some_iff.mp h
      obtain ⟨refs, hrefs, hfree, rfl⟩ := OutputRefs.add_eq_some_iff.mp hadd
      obtain ⟨hparses, hmid, honce⟩ := ih.mp ⟨acc', hrest⟩
      refine ⟨forall_mem_cons.mpr ⟨⟨refs, hrefs⟩, hparses⟩, ?_, pairwise_cons.mpr
        ⟨fun out' hout' r hr hr' => ?_, honce⟩⟩
      · rw [forall_mem_cons]
        refine ⟨fun r hr => hfree r ((hforbids refs hrefs r).mp hr), fun out' hout' r hr => ?_⟩
        have hnone := hmid out' hout' r hr
        rw [OutputRefs.onlyAllowedRefMap_addRefs] at hnone
        split_ifs at hnone
        exact hnone
      · have hnone := hmid out' hout' r hr'
        rw [OutputRefs.onlyAllowedRefMap_addRefs,
          if_pos ((hforbids refs hrefs r).mp hr)] at hnone
        cases hnone
    · rintro ⟨hparses, hfree, honce⟩
      rw [forall_mem_cons] at hparses hfree
      obtain ⟨⟨refs, hrefs⟩, hparses⟩ := hparses
      obtain ⟨hout, honce⟩ := pairwise_cons.mp honce
      have hadd := OutputRefs.add_eq_some_iff.mpr
        ⟨refs, hrefs, fun r hr => hfree.1 r ((hforbids refs hrefs r).mpr hr), rfl⟩
      have hmid : (acc.addRefs refs).Accepts vout := by
        refine ⟨hparses, fun out' hout' r hr => ?_, honce⟩
        have hnot : r ∉ refs.disallowedSiblingsRefSet := fun hmem =>
          hout out' hout' r ((hforbids refs hrefs r).mpr hmem) hr
        rw [OutputRefs.onlyAllowedRefMap_addRefs, if_neg hnot, hfree.2 out' hout' r hr]
      obtain ⟨acc', hrest⟩ := ih.mpr hmid
      exact ⟨acc', Option.bind_eq_some_iff.mpr ⟨_, hadd, hrest⟩⟩

variable {view : CoinsMap}

/-- The references the inputs bring are those of the spent scripts and the spent outpoints. -/
theorem mem_collectInputRefs {prevouts : List COutPoint} {acc acc' : InputRefs}
    (h : collectInputRefs view prevouts acc = .ok (some acc')) (r : Uint288) :
    (r ∈ acc'.inputPushRefSet ↔ r ∈ acc.inputPushRefSet ∨ ∃ o ∈ prevouts, r = fromOutpoint o ∨
        ∃ coin, view.lookup o = some coin ∧ Pushes coin.out.scriptPubKey r) ∧
      (r ∈ acc'.inputSingletonRefSet ↔ r ∈ acc.inputSingletonRefSet ∨ ∃ o ∈ prevouts,
        r = fromOutpoint o ∨
          ∃ coin, view.lookup o = some coin ∧ HoldsSingleton coin.out.scriptPubKey r) := by
  induction prevouts generalizing acc with
  | nil =>
    obtain rfl := Option.some.inj (Except.ok.inj h)
    simp
  | cons o prevouts ih =>
    simp only [collectInputRefs, InputRefs.add] at h
    cases hcoin : view.lookup o with
    | none => simp [hcoin] at h
    | some coin =>
      cases hrefs : getPushRefs coin.out.scriptPubKey with
      | none => simp [hcoin, hrefs, pure, Except.pure] at h
      | some refs =>
        simp only [hcoin, hrefs, Option.map_some, ok_bind] at h
        obtain ⟨hpush, hsingleton⟩ := ih h
        have hpushes : Pushes coin.out.scriptPubKey r ↔ r ∈ refs.pushRefSet :=
          exists_refs_iff hrefs _
        have hholds : HoldsSingleton coin.out.scriptPubKey r ↔ r ∈ refs.singletonRefSet :=
          exists_refs_iff hrefs _
        simp only [hpush, hsingleton, Finset.mem_union, Finset.mem_insert,
          exists_mem_cons_iff, hcoin, Option.some.injEq, exists_eq_left', hpushes, hholds,
          or_assoc]
        exact ⟨or_left_comm, or_left_comm⟩

/-- The loop over the inputs succeeds when the spent coins are there and their scripts parse. -/
theorem exists_collectInputRefs {prevouts : List COutPoint} {acc : InputRefs}
    (h : ∀ o ∈ prevouts, ∃ coin, view.lookup o = some coin ∧ Parses coin.out.scriptPubKey) :
    ∃ acc', collectInputRefs view prevouts acc = .ok (some acc') := by
  induction prevouts generalizing acc with
  | nil => exact ⟨acc, rfl⟩
  | cons o prevouts ih =>
    rw [forall_mem_cons] at h
    obtain ⟨⟨coin, hcoin, refs, hrefs⟩, hrest⟩ := h
    simp only [collectInputRefs, InputRefs.add, hcoin, hrefs, Option.map_some, ok_bind]
    exact ih hrest

section Rules

variable [Crypto]

/-- `ReferenceParser::validateTransactionReferenceOperations`. -/
def validateTransactionReferenceOperations (tx : CTransaction) (view : CoinsMap) :
    Except Failure Bool :=
  if tx.isCoinBase then .ok false
  else
    match collectOutputRefs tx.vout {} with
    | none => .ok false
    | some outs =>
      if outs.outputPushRefSet = ∅ ∧ outs.outputRequireRefSet = ∅ ∧
          outs.outputSingletonRefSet = ∅ then .ok true
      else do
        match ← collectInputRefs view tx.prevouts {} with
        | none => return false
        | some ins =>
          return outs.outputPushRefSet ⊆ ins.inputPushRefSet ∧
            outs.outputRequireRefSet ⊆ ins.inputPushRefSet ∧
            validateDisallowedSiblingsRefRule outs.onlyAllowedRefMap 0 outs.outputVec ∧
            outs.outputSingletonRefSet ⊆ ins.inputSingletonRefSet

/-- What the reference rules say about an accepted transaction : its outputs parse, they push
and hold only what an input brings, and a reference held as a singleton by one output is
pushed by no other. -/
structure ReferenceRules (tx : CTransaction) (view : CoinsMap) : Prop where
  parses : ∀ out ∈ tx.vout, ∃ refs, getPushRefs out.scriptPubKey = some refs
  push : ∀ out ∈ tx.vout, ∀ r, Pushes out.scriptPubKey r → ∃ o ∈ tx.prevouts,
    r = fromOutpoint o ∨ ∃ coin, view.lookup o = some coin ∧ Pushes coin.out.scriptPubKey r
  singleton : ∀ out ∈ tx.vout, ∀ r, HoldsSingleton out.scriptPubKey r → ∃ o ∈ tx.prevouts,
    r = fromOutpoint o ∨
      ∃ coin, view.lookup o = some coin ∧ HoldsSingleton coin.out.scriptPubKey r
  alone : ∀ (i j : ℕ) (out out' : CTxOut), tx.vout[i]? = some out → tx.vout[j]? = some out' →
    ∀ r, HoldsSingleton out.scriptPubKey r → Pushes out'.scriptPubKey r → i = j

omit [Crypto] in
theorem validateDisallowedSiblingsRefRule_iff {map : Uint288 → Option ℕ} {k : ℕ}
    {vec : List (Finset Uint288)} :
    validateDisallowedSiblingsRefRule map k vec = true ↔
      ∀ j set, vec[j]? = some set → ∀ r ∈ set, ∀ o, map r = some o → o = k + j := by
  induction vec generalizing k with
  | nil => simp [validateDisallowedSiblingsRefRule]
  | cons refs vec ih =>
    rw [validateDisallowedSiblingsRefRule, Bool.and_eq_true, decide_eq_true_iff, ih]
    constructor
    · rintro ⟨hfirst, hrest⟩ (_ | j) set hset r hr o ho
      · obtain rfl : refs = set := by simpa using hset
        simpa [ho] using hfirst r hr
      · rw [hrest j set (by simpa using hset) r hr o ho]
        omega
    · intro h
      refine ⟨fun r hr => ?_, fun j set hset r hr o ho => ?_⟩
      · cases ho : map r with
        | none => rfl
        | some o => simpa using h 0 refs rfl r hr o ho
      · rw [h (j + 1) set (by simpa using hset) r hr o ho]
        omega

/-- What the check of the references means. -/
structure ReferenceConditions (tx : CTransaction) (view : CoinsMap) : Prop where
  parses : ∀ out ∈ tx.vout, Parses out.scriptPubKey
  push : ∀ out ∈ tx.vout, ∀ r, Pushes out.scriptPubKey r ∨ Requires out.scriptPubKey r →
    ∃ o ∈ tx.prevouts, r = fromOutpoint o ∨
      ∃ coin, view.lookup o = some coin ∧ Pushes coin.out.scriptPubKey r
  singleton : ∀ out ∈ tx.vout, ∀ r, HoldsSingleton out.scriptPubKey r →
    ∃ o ∈ tx.prevouts, r = fromOutpoint o ∨
      ∃ coin, view.lookup o = some coin ∧ HoldsSingleton coin.out.scriptPubKey r
  once : ∀ (i j : ℕ) (out out' : CTxOut), tx.vout[i]? = some out → tx.vout[j]? = some out' →
    ∀ r, ForbidsSiblings out.scriptPubKey r → ForbidsSiblings out'.scriptPubKey r → i = j
  siblings : ∀ (i j : ℕ) (out out' : CTxOut), tx.vout[i]? = some out → tx.vout[j]? = some out' →
    ∀ r, ForbidsSiblings out.scriptPubKey r → Pushes out'.scriptPubKey r → i = j

variable {vout : List CTxOut}

omit [Crypto] in
/-- No reference is forbidden by two outputs, by their positions. -/
theorem pairwise_forbids_iff :
    (vout.Pairwise fun out out' =>
      ∀ r, ForbidsSiblings out.scriptPubKey r → ¬ ForbidsSiblings out'.scriptPubKey r) ↔
      ∀ (i j : ℕ) (out out' : CTxOut), vout[i]? = some out → vout[j]? = some out' →
        ∀ r, ForbidsSiblings out.scriptPubKey r → ForbidsSiblings out'.scriptPubKey r → i = j := by
  rw [pairwise_iff_getElem]
  constructor
  · intro h i j out out' hi hj r hr hr'
    obtain ⟨hin, rfl⟩ := List.getElem?_eq_some_iff.mp hi
    obtain ⟨hjn, rfl⟩ := List.getElem?_eq_some_iff.mp hj
    rcases lt_trichotomy i j with hlt | heq | hgt
    · exact absurd hr' (h i j hin hjn hlt r hr)
    · exact heq
    · exact absurd hr (h j i hjn hin hgt r hr')
  · intro h i j hi hj hlt r hr hr'
    have := h i j _ _ (getElem?_eq_getElem hi) (getElem?_eq_getElem hj) r hr hr'
    omega

omit [Crypto] in
/-- The rule for siblings, by what the loop over the outputs has collected. -/
theorem OutputRefs.Collects.siblings_iff {outs : OutputRefs}
    (h : OutputRefs.Collects {} vout outs) :
    validateDisallowedSiblingsRefRule outs.onlyAllowedRefMap 0 outs.outputVec = true ↔
      ∀ (i j : ℕ) (out out' : CTxOut), vout[i]? = some out → vout[j]? = some out' →
        ∀ r, ForbidsSiblings out.scriptPubKey r → Pushes out'.scriptPubKey r → i = j := by
  obtain ⟨sets, hvec, hsets⟩ := h.outputVec
  rw [nil_append] at hvec
  have hset : ∀ (j : ℕ) set, sets[j]? = some set ↔ ∃ out, vout[j]? = some out ∧
      ∃ refs, getPushRefs out.scriptPubKey = some refs ∧ refs.pushRefSet = set := by
    intro j set
    have hj := congrArg (fun l => l[j]?) hsets
    simp only [getElem?_map] at hj
    constructor
    · intro hsome
      rw [hsome, Option.map_some] at hj
      obtain ⟨out, hout, hpush⟩ := Option.map_eq_some_iff.mp hj.symm
      exact ⟨out, hout, Option.map_eq_some_iff.mp hpush⟩
    · rintro ⟨out, hout, refs, hrefs, rfl⟩
      rw [hout, Option.map_some, hrefs] at hj
      obtain ⟨set, hsome, heq⟩ := Option.map_eq_some_iff.mp hj
      rw [hsome, Option.some.inj heq]
  rw [validateDisallowedSiblingsRefRule_iff, hvec]
  constructor
  · rintro hrule i j out out' hi hj r hforbids ⟨refs, hrefs, hr⟩
    have howner := (h.onlyAllowed r i).mpr (Or.inr ⟨i, out, hi, hforbids, by simp⟩)
    simpa using hrule j _ ((hset j _).mpr ⟨out', hj, refs, hrefs, rfl⟩) r hr i howner
  · intro hcond j set hj r hr o ho
    obtain ⟨out', hout', refs, hrefs, rfl⟩ := (hset j set).mp hj
    obtain hnone | ⟨i, out, hi, hforbids, rfl⟩ := (h.onlyAllowed r o).mp ho
    · cases hnone
    · simpa using hcond i j out out' hi hout' r hforbids ⟨refs, hrefs, hr⟩

variable {tx : CTransaction} {view : CoinsMap}

/-- An accepted transaction satisfies the conditions. -/
theorem referenceConditions_of_eq_true
    (h : validateTransactionReferenceOperations tx view = .ok true) :
    ReferenceConditions tx view := by
  unfold validateTransactionReferenceOperations at h
  by_cases hcb : tx.isCoinBase = true
  · simp [hcb] at h
  rw [if_neg hcb] at h
  cases houts : collectOutputRefs tx.vout {} with
  | none => simp [houts] at h
  | some outs =>
    have hcol := collectOutputRefs_collects houts
    have hacc := exists_collectOutputRefs_iff.mp ⟨outs, houts⟩
    have honce := pairwise_forbids_iff.mp hacc.once
    simp only [houts] at h
    split_ifs at h with hnone
    · -- No output pushes, requires or holds a reference.
      have hno : ∀ out ∈ tx.vout, ∀ r, ¬ Pushes out.scriptPubKey r := fun out hout r hr => by
        simpa [hnone.1] using (hcol.push r).mpr (Or.inr ⟨out, hout, hr⟩)
      refine ⟨hacc.parses, fun out hout r hr => ?_,
        fun out hout r hr => absurd hr.pushes (hno out hout r), honce,
        fun i j out out' _ hj r _ hr => absurd hr (hno out' (mem_of_getElem? hj) r)⟩
      rcases hr with hr | hr
      · exact absurd hr (hno out hout r)
      · simpa [hnone.2.1] using (hcol.require r).mpr (Or.inr ⟨out, hout, hr⟩)
    · obtain ⟨ins?, hins, hrules⟩ := bind_eq_ok_iff.mp h
      cases ins? with
      | none => simp at hrules
      | some ins =>
        simp only [pure_eq_ok_iff, decide_eq_true_eq] at hrules
        obtain ⟨hpush, hrequire, hsiblings, hsingleton⟩ := hrules
        refine ⟨hacc.parses, fun out hout r hr => ?_, fun out hout r hr => ?_, honce,
          hcol.siblings_iff.mp hsiblings⟩
        · have hmem : r ∈ ins.inputPushRefSet := by
            rcases hr with hr | hr
            · exact hpush ((hcol.push r).mpr (Or.inr ⟨out, hout, hr⟩))
            · exact hrequire ((hcol.require r).mpr (Or.inr ⟨out, hout, hr⟩))
          simpa using (mem_collectInputRefs hins r).1.mp hmem
        · have hmem := hsingleton ((hcol.singleton r).mpr (Or.inr ⟨out, hout, hr⟩))
          simpa using (mem_collectInputRefs hins r).2.mp hmem

/-- The check of a transaction that is not a coinbase and spends coins with scripts that parse
returns whether the conditions hold. -/
theorem reference_check_iff (tx : CTransaction) (view : CoinsMap) (hcb : tx.isCoinBase = false)
    (hcoins : ∀ o ∈ tx.prevouts, ∃ coin, view.lookup o = some coin ∧
      Parses coin.out.scriptPubKey) :
    ∃ ok, validateTransactionReferenceOperations tx view = .ok ok ∧
      (ok = true ↔ ReferenceConditions tx view) := by
  suffices h : ∃ ok, validateTransactionReferenceOperations tx view = .ok ok ∧
      (ReferenceConditions tx view → ok = true) by
    obtain ⟨ok, heq, hcond⟩ := h
    exact ⟨ok, heq, fun hok => referenceConditions_of_eq_true (hok ▸ heq), hcond⟩
  unfold validateTransactionReferenceOperations
  rw [hcb, if_neg (by decide)]
  cases houts : collectOutputRefs tx.vout {} with
  | none =>
    refine ⟨false, rfl, fun hcond => ?_⟩
    have hacc : OutputRefs.Accepts {} tx.vout :=
      ⟨hcond.parses, fun _ _ _ _ => rfl, pairwise_forbids_iff.mpr hcond.once⟩
    obtain ⟨outs, hsome⟩ := exists_collectOutputRefs_iff.mpr hacc
    simp [houts] at hsome
  | some outs =>
    have hcol := collectOutputRefs_collects houts
    obtain ⟨ins, hins⟩ := exists_collectInputRefs hcoins
    simp only
    split_ifs with hnone
    · exact ⟨true, rfl, fun _ => rfl⟩
    · rw [hins, ok_bind]
      refine ⟨_, rfl, fun hcond => ?_⟩
      rw [decide_eq_true_iff]
      refine ⟨fun r hr => ?_, fun r hr => ?_, hcol.siblings_iff.mpr hcond.siblings,
        fun r hr => ?_⟩
      · obtain hempty | ⟨out, hout, hpush⟩ := (hcol.push r).mp hr
        · simp at hempty
        · exact (mem_collectInputRefs hins r).1.mpr (Or.inr (hcond.push out hout r (Or.inl hpush)))
      · obtain hempty | ⟨out, hout, hrequire⟩ := (hcol.require r).mp hr
        · simp at hempty
        · exact (mem_collectInputRefs hins r).1.mpr
            (Or.inr (hcond.push out hout r (Or.inr hrequire)))
      · obtain hempty | ⟨out, hout, hholds⟩ := (hcol.singleton r).mp hr
        · simp at hempty
        · exact (mem_collectInputRefs hins r).2.mpr
            (Or.inr (hcond.singleton out hout r hholds))

theorem validateTransactionReferenceOperations_eq_true
    (h : validateTransactionReferenceOperations tx view = .ok true) : ReferenceRules tx view := by
  have hcond := referenceConditions_of_eq_true h
  refine ⟨hcond.parses, fun out hout r hr => hcond.push out hout r (Or.inl hr), hcond.singleton,
    fun i j out out' hi hj r hs hp => hcond.siblings i j out out' hi hj r ?_ hp⟩
  obtain ⟨refs, hrefs, hr⟩ := hs
  exact ⟨refs, hrefs, singletonRefSet_subset_disallowedSiblingsRefSet hrefs hr⟩

variable {view' : CoinsMap}

omit [Crypto] in
theorem collectInputRefs_congr {prevouts : List COutPoint}
    (h : ∀ o ∈ prevouts, view.lookup o = view'.lookup o) (acc : InputRefs) :
    collectInputRefs view prevouts acc = collectInputRefs view' prevouts acc := by
  induction prevouts generalizing acc with
  | nil => rfl
  | cons o prevouts ih =>
    rw [forall_mem_cons] at h
    simp only [collectInputRefs, InputRefs.add, h.1, ih h.2]

/-- The reference rules read the coins at the prevouts only. -/
theorem validateTransactionReferenceOperations_congr
    (h : ∀ o ∈ tx.prevouts, view.lookup o = view'.lookup o) :
    validateTransactionReferenceOperations tx view =
      validateTransactionReferenceOperations tx view' := by
  simp only [validateTransactionReferenceOperations, collectInputRefs_congr h]

end Rules

section Sample

attribute [local instance] Crypto.toy

/-- An outpoint of no transaction. -/
def sampleMinted : COutPoint := ⟨Blob.null, 0⟩

/-- Holds the coin at `sampleMinted`. -/
def sampleMintView : CoinsMap :=
  (∅ : CoinsMap).insert sampleMinted ⟨⟨50, [0x51]⟩, 1, false⟩

/-- Spends the coin and mints its outpoint as a singleton. -/
def sampleSingleton : CTransaction :=
  .ofLegacy
    ⟨[⟨sampleMinted, [0x51], 0xffffffff⟩],
      [⟨20, Opcode.OP_PUSHINPUTREFSINGLETON.toByte :: (fromOutpoint sampleMinted).data⟩], 1, 0⟩
    version_one one_lt_word

theorem reference_check_iff_singleton :
    (∃ ok, validateTransactionReferenceOperations sampleSingleton sampleMintView = .ok ok ∧
      (ok = true ↔ ReferenceConditions sampleSingleton sampleMintView)) ∧
    validateTransactionReferenceOperations sampleSingleton sampleMintView = .ok true :=
  ⟨reference_check_iff sampleSingleton sampleMintView (by decide +kernel) fun o ho =>
    ⟨⟨⟨50, [0x51]⟩, 1, false⟩, by
      have hall : ∀ o ∈ sampleSingleton.prevouts, sampleMintView.lookup o =
          some ⟨⟨50, [0x51]⟩, 1, false⟩ := by decide +kernel
      exact ⟨hall o ho, by decide +kernel⟩⟩,
    by decide +kernel⟩

end Sample

end RadiantCore
