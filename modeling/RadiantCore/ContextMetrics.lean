import RadiantCore.ScriptContext

/-!
# The metrics of a context are those of its entries

The scan of `calculatePrecomputedStateForScript` adds each spent coin, or each output, to maps by
hash of references, by reference and by hash of the code part. Here the maps are compared with
what they stand for : sums and counts over the entries with a property (`RefSummary.Exact`).

The null reference is the exception. The scan files the entries without references under it,
but keeps the value of the first only (`getRefValueSum_null`).
-/

namespace RadiantCore

open Opcode List CTxOut Blob RefSummary

/-! ## What the metrics are about -/

/-- The value of an entry. -/
def CTxOut.amount (out : CTxOut) : ℤ := out.nValue.toInt

/-- The references an entry pushes. -/
def CTxOut.pushRefs (out : CTxOut) : Finset Uint288 :=
  ((getPushRefs out.scriptPubKey).map PushRefs.pushRefSet).getD ∅

/-- The total value of the entries with a property. -/
def totalValue (p : CTxOut → Prop) [DecidablePred p] (entries : List CTxOut) : ℤ :=
  ((entries.filter p).map amount).sum

variable {α : Type}

theorem sum_map_ite {M : Type} [AddMonoid M] (p : α → Prop) [DecidablePred p] (f : α → M)
    (xs : List α) :
    (xs.map fun a => if p a then f a else 0).sum = ((xs.filter p).map f).sum := by
  induction xs with
  | nil => rfl
  | cons a xs ih =>
    by_cases ha : p a <;> simp [ha, ih]

theorem sum_map_one (p : α → Prop) [DecidablePred p] (xs : List α) :
    (xs.map fun a => if p a then 1 else 0).sum = xs.countP p := by
  rw [sum_map_ite]
  simp [countP_eq_length_filter]

/-! ## The code part -/

/-- What is left to read after a state separator. -/
def afterSeparator (read : Option ScriptOp) : Option CScript :=
  read.bind fun op => if op.opcode = OP_STATESEPARATOR then some op.pc else none

/-- The part of a script after its state separator, the whole script without one. -/
def codePart (s : CScript) : CScript := ((scriptOps s).findSome? afterSeparator).getD s

namespace PushRefScan

theorem addRefs_flags (scan : PushRefScan) (op : ScriptOp) :
    (scan.addRefs op).isExistingOpReturn = scan.isExistingOpReturn ∧
      (scan.addRefs op).isExistingStateSeperator = scan.isExistingStateSeperator ∧
      (scan.addRefs op).stateSeperatorLocatedIt = scan.stateSeperatorLocatedIt := by
  unfold addRefs
  cases op.ref? with
  | none => exact ⟨rfl, rfl, rfl⟩
  | some r =>
    simp only [addRef]
    split_ifs <;> exact ⟨rfl, rfl, rfl⟩

/-- The separator a scan has located. -/
def located (scan : PushRefScan) : Option CScript :=
  if scan.isExistingStateSeperator then some scan.stateSeperatorLocatedIt else none

variable {scan scan' : PushRefScan}

/-- A read locates the separator it is, and only the first. -/
theorem located_of_step {op : ScriptOp}
    (h : scan.step op = some scan') : scan'.located = scan.located.or (afterSeparator (some op)) := by
  obtain ⟨-, hexists, hit⟩ := addRefs_flags { scan with
    isExistingOpReturn := scan.isExistingOpReturn || op.opcode = OP_RETURN } op
  simp only [step] at h
  generalize PushRefScan.addRefs _ op = mid at h hexists hit
  split_ifs at h with hop hbad
  · simp only [Bool.or_eq_true, not_or, Bool.not_eq_true, hexists] at hbad
    obtain rfl := Option.some.inj h
    simp [located, hbad.1, afterSeparator, hop]
  · obtain rfl := Option.some.inj h
    simp [located, hexists, hit, afterSeparator, hop]

/-- A scan locates the first separator of the script. -/
theorem located_of_run {ops : List (Option ScriptOp)} (h : run ops scan = some scan') :
    scan'.located = scan.located.or (ops.findSome? afterSeparator) := by
  induction ops generalizing scan with
  | nil => simp_all [run]
  | cons read ops ih =>
    cases read with
    | none => cases h
    | some op =>
      obtain ⟨mid, hmid, hrest⟩ := Option.bind_eq_some_iff.mp h
      rw [ih hrest, located_of_step hmid, findSome?_cons, Option.or_assoc]
      cases afterSeparator (some op) <;> rfl

end PushRefScan

section Offset

variable {s : CScript} {refs : PushRefs}

theorem stateSeperatorByteIndex_eq (h : getPushRefs s = some refs) :
    refs.stateSeperatorByteIndex =
      (((scriptOps s).findSome? afterSeparator).map fun pc => s.length - pc.length).getD 0 := by
  obtain ⟨scan, hrun, -, rfl⟩ := getPushRefs_eq_some h
  have hlocated : scan.located = (scriptOps s).findSome? afterSeparator := by
    simpa [PushRefScan.located] using PushRefScan.located_of_run hrun
  rw [← hlocated, PushRefScan.located]
  dsimp only
  split_ifs <;> rfl

/-- The offset `GetPushRefs` returns is where the code part starts. -/
theorem drop_stateSeperatorByteIndex (h : getPushRefs s = some refs) :
    s.drop refs.stateSeperatorByteIndex = codePart s := by
  rw [stateSeperatorByteIndex_eq h, codePart]
  cases hfind : (scriptOps s).findSome? afterSeparator with
  | none => rfl
  | some pc =>
    obtain ⟨read, hmem, hread⟩ := exists_of_findSome?_eq_some hfind
    obtain ⟨op, rfl, hop⟩ := Option.bind_eq_some_iff.mp hread
    split_ifs at hop
    obtain rfl := Option.some.inj hop
    exact (suffix_iff_eq_drop.mp (pc_suffix_of_mem_readOps hmem)).symm

end Offset

/-! ## One entry -/

@[simp] theorem addAt_getD {κ ν : Type} [DecidableEq κ] [AddZeroClass ν] (m : κ → Option ν)
    (k x : κ) (v : ν) : (addAt m k v x).getD 0 = (m x).getD 0 + if k = x then v else 0 := by
  by_cases h : k = x
  · subst h
    simp [addAt]
  · simp [addAt, h, Function.update_of_ne (Ne.symm h)]

section Metrics

variable [Crypto]

/-- The hash of the references an entry pushes, in increasing order ; zero without any. -/
def CTxOut.refHash (out : CTxOut) : Uint256 :=
  if out.pushRefs = ∅ then null
  else hash256 ((sortedRefs out.pushRefs).flatMap data)

/-- The hash of the code part of an entry. -/
def CTxOut.codeScriptHash (out : CTxOut) : Uint256 := hash256 (codePart out.scriptPubKey)

namespace RefSummary

omit [Crypto] in
/-- The references of an entry change the maps by reference only. -/
theorem foldl_addRefAsset_frame (nValue : Int64) (refs : List Uint288) (side : RefSummary) :
    ∃ amounts counts zeros, refs.foldl (addRefAsset nValue) side =
      { side with
        refAssetIdToAmountMap := amounts
        refAssetIdToOutputCountMap := counts
        refAssetIdToZeroValueOutputCountMap := zeros } := by
  induction refs generalizing side with
  | nil => exact ⟨_, _, _, rfl⟩
  | cons r refs ih =>
    obtain ⟨amounts, counts, zeros, h⟩ := ih (addRefAsset nValue side r)
    exact ⟨amounts, counts, zeros, h⟩

omit [Crypto] in
theorem addRefAssets_frame (nValue : Int64) (refs : Finset Uint288) (side : RefSummary) :
    ∃ amounts counts zeros, addRefAssets nValue refs side =
      { side with
        refAssetIdToAmountMap := amounts
        refAssetIdToOutputCountMap := counts
        refAssetIdToZeroValueOutputCountMap := zeros } := by
  unfold addRefAssets
  split_ifs
  · exact ⟨_, _, _, rfl⟩
  · exact foldl_addRefAsset_frame nValue _ side

variable {refs : List Uint288}

omit [Crypto] in
/-- The references of an entry add it once to the maps of each. -/
theorem foldl_addRefAsset (nValue : Int64) (hnodup : refs.Nodup) (side : RefSummary) (r : Uint288) :
    (refs.foldl (addRefAsset nValue) side).getRefValueSum r =
        side.getRefValueSum r + (if r ∈ refs then nValue.toInt else 0) ∧
      (refs.foldl (addRefAsset nValue) side).getRefOutputCount r =
        side.getRefOutputCount r + (if r ∈ refs then 1 else 0) ∧
      (refs.foldl (addRefAsset nValue) side).getRefOutputZeroValuedCount r =
        side.getRefOutputZeroValuedCount r + (if r ∈ refs ∧ nValue = 0 then 1 else 0) := by
  induction refs generalizing side with
  | nil => simp
  | cons r' refs ih =>
    rw [nodup_cons] at hnodup
    obtain ⟨hvalue, hcount, hzero⟩ := ih hnodup.2 (addRefAsset nValue side r')
    rw [foldl_cons, hvalue, hcount, hzero]
    simp only [getRefValueSum, getRefOutputCount, getRefOutputZeroValuedCount, addRefAsset,
      addAt_getD, mem_cons]
    by_cases hr : r' = r
    · subst hr
      simp [hnodup.1]
    · simp [hr, Ne.symm hr]

omit [Crypto] in
theorem addRefAssets_metrics (nValue : Int64) (refs : Finset Uint288) (side : RefSummary)
    (r : Uint288) :
    (r ≠ null → (addRefAssets nValue refs side).getRefValueSum r =
        side.getRefValueSum r + (if r ∈ refs then nValue.toInt else 0)) ∧
      (addRefAssets nValue refs side).getRefOutputCount r =
        side.getRefOutputCount r + (if r ∈ refs then 1 else 0) ∧
      (addRefAssets nValue refs side).getRefOutputZeroValuedCount r =
        side.getRefOutputZeroValuedCount r + (if r ∈ refs ∧ nValue = 0 then 1 else 0) := by
  by_cases hcard : refs.card = 0
  · rw [addRefAssets, if_pos hcard]
    obtain rfl := Finset.card_eq_zero.mp hcard
    refine ⟨fun hr => ?_, by simp [getRefOutputCount], by simp [getRefOutputZeroValuedCount]⟩
    simp [getRefValueSum, insertNew, Function.update_of_ne hr]
  · rw [addRefAssets, if_neg hcard]
    obtain ⟨hvalue, hcount, hzero⟩ :=
      foldl_addRefAsset nValue (refs.sort_nodup (· ≤ ·)) side r
    simp only [Finset.mem_sort] at hvalue hcount hzero
    exact ⟨fun _ => hvalue, hcount, hzero⟩

/-- What an entry adds to the metrics. -/
structure Adds (side : RefSummary) (out : CTxOut) (side' : RefSummary) : Prop where
  refHashValueSum : ∀ h, side'.getRefHashValueSum h =
    side.getRefHashValueSum h + if out.refHash = h then out.amount else 0
  refValueSum : ∀ r ≠ null, side'.getRefValueSum r =
    side.getRefValueSum r + if r ∈ out.pushRefs then out.amount else 0
  refOutputCount : ∀ r, side'.getRefOutputCount r =
    side.getRefOutputCount r + if r ∈ out.pushRefs then 1 else 0
  refOutputZeroValuedCount : ∀ r, side'.getRefOutputZeroValuedCount r =
    side.getRefOutputZeroValuedCount r + if r ∈ out.pushRefs ∧ out.nValue = 0 then 1 else 0
  codeScriptHashValueSum : ∀ h, side'.getCodeScriptHashValueSum h =
    side.getCodeScriptHashValueSum h + if out.codeScriptHash = h then out.amount else 0
  codeScriptHashOutputCount : ∀ h, side'.getCodeScriptHashOutputCount h =
    side.getCodeScriptHashOutputCount h + if out.codeScriptHash = h then 1 else 0
  codeScriptHashOutputZeroValuedCount : ∀ h, side'.getCodeScriptHashOutputZeroValuedCount h =
    side.getCodeScriptHashOutputZeroValuedCount h +
      if out.codeScriptHash = h ∧ out.nValue = 0 then 1 else 0

theorem codeScriptHashOf_eq {out : CTxOut} {refs : PushRefs}
    (h : getPushRefs out.scriptPubKey = some refs) :
    codeScriptHashOf out.scriptPubKey refs.stateSeperatorByteIndex = out.codeScriptHash := by
  rw [codeScriptHashOf, codeScriptHash, ← drop_stateSeperatorByteIndex h]
  split_ifs with hle
  · rw [drop_eq_nil_of_le hle]
  · rfl

variable {side side' : RefSummary} {entry : CTxOut × ℕ}

/-- The script of an entry that is added parses. -/
theorem refs_of_calculate {out : CTxOut} {index : ℕ}
    (h : calculatePrecomputedStateForScript side (out, index) = .ok side') :
    ∃ refs, getPushRefs out.scriptPubKey = some refs ∧ out.pushRefs = refs.pushRefSet := by
  cases hrefs : getPushRefs out.scriptPubKey with
  | none => simp [calculatePrecomputedStateForScript, hrefs] at h
  | some refs => exact ⟨refs, rfl, by simp [pushRefs, hrefs]⟩

/-- `calculatePrecomputedStateForScript` adds its entry to all metrics. -/
theorem adds_of_calculate (h : calculatePrecomputedStateForScript side entry = .ok side') :
    side.Adds entry.1 side' := by
  obtain ⟨out, index⟩ := entry
  obtain ⟨refs, hrefs, hpush⟩ := refs_of_calculate h
  have hrefHash : (RadiantCore.getRefHashDataSummary refs.pushRefSet out.scriptPubKey
      out.nValue).refsHash = out.refHash := by
    simp [RadiantCore.getRefHashDataSummary, refHash, hpush]
  simp only [calculatePrecomputedStateForScript, hrefs, codeScriptHashOf_eq hrefs,
    hrefHash] at h
  obtain rfl := Except.ok.inj h
  -- Only `addRefAssets` has a loop ; its frame leaves the other maps as they were.
  generalize hmid : mk _ _ _ _ _ _ _ _ _ _ _ _ = mid
  have hassets := addRefAssets_metrics out.nValue refs.pushRefSet mid
  obtain ⟨amounts, counts, zeros, hframe⟩ := addRefAssets_frame out.nValue refs.pushRefSet mid
  rw [← hpush] at hassets hframe ⊢
  subst hmid
  refine ⟨fun h => ?_, fun r hr => ?_, fun r => ?_, fun r => ?_, fun h => ?_, fun h => ?_,
    fun h => ?_⟩
  · rw [hframe]
    simp [getRefHashValueSum, addCodeScript, amount]
  · exact (hassets r).1 hr
  · exact (hassets r).2.1
  · exact (hassets r).2.2
  · rw [hframe]
    simp [getCodeScriptHashValueSum, addCodeScript, amount]
  · rw [hframe]
    simp [getCodeScriptHashOutputCount, addCodeScript]
  · rw [hframe]
    simp [getCodeScriptHashOutputZeroValuedCount, addCodeScript, ite_and]

/-! ## All entries -/

variable {entries : List CTxOut}

/-- A metric to which every entry adds its part is the sum of the parts. -/
theorem metric_eq_sum {M : Type} [AddMonoid M] (metric : RefSummary → M) (part : CTxOut → M)
    (hadds : ∀ side out side', side.Adds out side' → metric side' = metric side + part out)
    (hempty : metric {} = 0)
    (h : initializeSummary entries = .ok side) : metric side = (entries.map part).sum := by
  have hstep : ∀ (s : RefSummary) (e : CTxOut × ℕ) (s' : RefSummary),
      calculatePrecomputedStateForScript s e = .ok s' → metric s' = metric s + part e.1 :=
    fun s e s' hs' => hadds s e.1 s' (adds_of_calculate hs')
  have hfst : (entries.zipIdx.map fun e => part e.1) = entries.map part := by
    conv_rhs => rw [← zipIdx_map_fst 0 entries, map_map]
    rfl
  rw [foldlM_sum metric (fun e : CTxOut × ℕ => part e.1) hstep h, hempty, zero_add, hfst]

/-- The metrics are the sums and counts over the entries. -/
structure Exact (side : RefSummary) (entries : List CTxOut) : Prop where
  refHashValueSum : ∀ h, side.getRefHashValueSum h = totalValue (fun out => out.refHash = h) entries
  refValueSum : ∀ r ≠ null,
    side.getRefValueSum r = totalValue (fun out => r ∈ out.pushRefs) entries
  refOutputCount : ∀ r ≠ null,
    side.getRefOutputCount r = entries.countP fun out => r ∈ out.pushRefs
  refOutputZeroValuedCount : ∀ r ≠ null, side.getRefOutputZeroValuedCount r =
    entries.countP fun out => r ∈ out.pushRefs ∧ out.nValue = 0
  codeScriptHashValueSum : ∀ h,
    side.getCodeScriptHashValueSum h = totalValue (fun out => out.codeScriptHash = h) entries
  codeScriptHashOutputCount : ∀ h,
    side.getCodeScriptHashOutputCount h = entries.countP fun out => out.codeScriptHash = h
  codeScriptHashOutputZeroValuedCount : ∀ h, side.getCodeScriptHashOutputZeroValuedCount h =
    entries.countP fun out => out.codeScriptHash = h ∧ out.nValue = 0

theorem exact_of_initializeSummary
    (h : initializeSummary entries = .ok side) : side.Exact entries where
  refHashValueSum x := by
    rw [totalValue, ← sum_map_ite]
    exact metric_eq_sum (·.getRefHashValueSum x) _ (fun _ _ _ ha => ha.refHashValueSum x) rfl h
  refValueSum r hr := by
    rw [totalValue, ← sum_map_ite]
    exact metric_eq_sum (·.getRefValueSum r) _ (fun _ _ _ ha => ha.refValueSum r hr) rfl h
  refOutputCount r _ := by
    rw [← sum_map_one]
    exact metric_eq_sum (·.getRefOutputCount r) _ (fun _ _ _ ha => ha.refOutputCount r) rfl h
  refOutputZeroValuedCount r _ := by
    rw [← sum_map_one]
    exact metric_eq_sum (·.getRefOutputZeroValuedCount r) _
      (fun _ _ _ ha => ha.refOutputZeroValuedCount r) rfl h
  codeScriptHashValueSum x := by
    rw [totalValue, ← sum_map_ite]
    exact metric_eq_sum (·.getCodeScriptHashValueSum x) _
      (fun _ _ _ ha => ha.codeScriptHashValueSum x) rfl h
  codeScriptHashOutputCount x := by
    rw [← sum_map_one]
    exact metric_eq_sum (·.getCodeScriptHashOutputCount x) _
      (fun _ _ _ ha => ha.codeScriptHashOutputCount x) rfl h
  codeScriptHashOutputZeroValuedCount x := by
    rw [← sum_map_one]
    exact metric_eq_sum (·.getCodeScriptHashOutputZeroValuedCount x) _
      (fun _ _ _ ha => ha.codeScriptHashOutputZeroValuedCount x) rfl h

/-! ## Entries without references -/

/-- The entries that push no reference. -/
def refFree (entries : List CTxOut) : List CTxOut := entries.filter fun out => out.pushRefs = ∅

omit [Crypto] in
theorem foldl_addRefAsset_null (nValue : Int64) (hnull : null ∉ refs) (side : RefSummary) :
    (refs.foldl (addRefAsset nValue) side).refAssetIdToAmountMap null =
      side.refAssetIdToAmountMap null := by
  induction refs generalizing side with
  | nil => rfl
  | cons r refs ih =>
    rw [mem_cons, not_or] at hnull
    rw [foldl_cons, ih hnull.2]
    exact Function.update_of_ne hnull.1 _ _

/-- An entry without references is filed under the null reference if none was before. -/
theorem null_of_calculate (hnull : null ∉ entry.1.pushRefs)
    (h : calculatePrecomputedStateForScript side entry = .ok side') :
    side'.refAssetIdToAmountMap null =
      (side.refAssetIdToAmountMap null).or ((refFree [entry.1]).head?.map amount) := by
  obtain ⟨out, index⟩ := entry
  obtain ⟨refs, hrefs, hpush⟩ := refs_of_calculate h
  simp only [calculatePrecomputedStateForScript, hrefs] at h
  obtain rfl := Except.ok.inj h
  simp only [hpush] at hnull
  simp only [addCodeScript, addRefAssets, refFree, filter_singleton, hpush,
    Finset.card_eq_zero]
  by_cases hfree : refs.pushRefSet = ∅
  · cases hside : side.refAssetIdToAmountMap null <;>
      simp [hfree, insertNew, hside, amount]
  · rw [if_neg hfree, foldl_addRefAsset_null _ (by simpa using hnull)]
    simp [hfree]

/-- The scan files the first entry without references under the null reference. -/
theorem null_of_foldlM {entries : List (CTxOut × ℕ)} (hnull : ∀ e ∈ entries, null ∉ e.1.pushRefs)
    (h : entries.foldlM calculatePrecomputedStateForScript side = .ok side') :
    side'.refAssetIdToAmountMap null = (side.refAssetIdToAmountMap null).or
      ((refFree (entries.map Prod.fst)).head?.map amount) := by
  induction entries generalizing side with
  | nil =>
    rw [foldlM_nil, pure_eq_ok_iff] at h
    simp [h, refFree]
  | cons e entries ih =>
    rw [foldlM_cons, bind_eq_ok_iff] at h
    obtain ⟨mid, hmid, hrest⟩ := h
    rw [forall_mem_cons] at hnull
    rw [ih hnull.2 hrest, null_of_calculate hnull.1 hmid, Option.or_assoc]
    congr 1
    by_cases hfree : e.1.pushRefs = ∅ <;> simp [refFree, hfree]

/-- Under the null reference the scan keeps the value of the first entry without references. -/
theorem getRefValueSum_null (hnull : ∀ out ∈ entries, null ∉ out.pushRefs)
    (h : initializeSummary entries = .ok side) :
    side.getRefValueSum null = ((refFree entries).head?.map amount).getD 0 := by
  have hpairs : ∀ e ∈ entries.zipIdx, null ∉ e.1.pushRefs :=
    fun e he => hnull e.1 (fst_mem_of_mem_zipIdx he)
  rw [getRefValueSum, null_of_foldlM hpairs h, zipIdx_map_fst]
  rfl

/-- It is the total of those entries when the values of the others add up to zero. -/
theorem getRefValueSum_null_eq_iff (hnull : ∀ out ∈ entries, null ∉ out.pushRefs)
    (h : initializeSummary entries = .ok side) :
    side.getRefValueSum null = totalValue (fun out => out.pushRefs = ∅) entries ↔
      ((refFree entries).tail.map amount).sum = 0 := by
  rw [getRefValueSum_null hnull h]
  change _ = ((refFree entries).map amount).sum ↔ _
  cases refFree entries with
  | nil => simp
  | cons out rest =>
    simp only [head?_cons, Option.map_some, Option.getD_some, map_cons, sum_cons,
      tail_cons]
    omega

/-! ## Contexts -/

/-- No entry is negative, and the total is at most `MAX_MONEY`. -/
def MoneyTotal (entries : List CTxOut) : Prop :=
  (∀ out ∈ entries, 0 ≤ out.amount) ∧ (entries.map amount).sum ≤ maxMoney

instance (entries : List CTxOut) : Decidable (MoneyTotal entries) := inferInstanceAs (Decidable (_ ∧ _))

omit [Crypto] in
/-- A part of a total in range is in range. The sums only grow along the scan, so no addition
to them overflows. -/
theorem moneyRange_totalValue (h : MoneyTotal entries)
    (p : CTxOut → Prop) [DecidablePred p] : moneyRange (totalValue p entries) = true := by
  obtain ⟨hnonneg, hle⟩ := h
  rw [moneyRange_iff, totalValue]
  constructor
  · refine sum_nonneg (forall_mem_map.mpr fun out hout => ?_)
    exact hnonneg out (mem_of_mem_filter hout)
  · refine le_trans ?_ hle
    refine List.Sublist.sum_le_sum (filter_sublist.map _) ?_
    exact forall_mem_map.mpr hnonneg

/-- The value sums of a summary are amounts. -/
structure InRange (side : RefSummary) : Prop where
  refHashValueSum : ∀ h, moneyRange (side.getRefHashValueSum h)
  refValueSum : ∀ r ≠ null, moneyRange (side.getRefValueSum r)
  codeScriptHashValueSum : ∀ h, moneyRange (side.getCodeScriptHashValueSum h)

theorem Exact.inRange (h : side.Exact entries) (hmoney : MoneyTotal entries) : side.InRange where
  refHashValueSum x := h.refHashValueSum x ▸ moneyRange_totalValue hmoney _
  refValueSum r hr := h.refValueSum r hr ▸ moneyRange_totalValue hmoney _
  codeScriptHashValueSum x := h.codeScriptHashValueSum x ▸ moneyRange_totalValue hmoney _

theorem initializeSummary_of_parses
    (h : ∀ out ∈ entries, Parses out.scriptPubKey) : ∃ side, initializeSummary entries = .ok side := by
  rcases initializeSummary_ends entries with ⟨-, hok⟩ | ⟨⟨out, hout, hbad⟩, -⟩
  · exact hok
  · exact absurd (h out hout) hbad

end RefSummary

namespace ScriptExecutionContext

/-- The shared part of a context exists when all scripts parse, with the summaries of the coins
and of the outputs. -/
theorem Shared.make_of_parses {tx : CTransaction} {coins : List Coin}
    (hsize : coins.length = tx.vin.length) (hcoins : ∀ c ∈ coins, Parses c.out.scriptPubKey)
    (houts : ∀ out ∈ tx.vout, Parses out.scriptPubKey) :
    ∃ shared, Shared.make tx coins hsize = .ok shared ∧ shared.inputCoins = coins := by
  obtain ⟨inputs, hin⟩ := initializeSummary_of_parses
    (forall_mem_map.mpr hcoins : ∀ out ∈ coins.map Coin.out, Parses out.scriptPubKey)
  obtain ⟨outputs, hout⟩ := initializeSummary_of_parses houts
  refine ⟨⟨coins, inputs, outputs, hsize, hin, hout⟩, ?_, rfl⟩
  unfold Shared.make
  split
  next e he => cases he.symm.trans hin
  next inputs' hin' =>
    obtain rfl := Except.ok.inj (hin'.symm.trans hin)
    split
    next e he => cases he.symm.trans hout
    next outputs' hout' =>
      obtain rfl := Except.ok.inj (hout'.symm.trans hout)
      rfl

/-- In a full context the metrics of the spent coins and of the outputs are exact, and no sum
leaves the range of amounts. -/
theorem metrics_exact (tx : CTransaction) (coins : List Coin)
    (hsize : coins.length = tx.vin.length) (hcoins : ∀ c ∈ coins, Parses c.out.scriptPubKey)
    (houts : ∀ out ∈ tx.vout, Parses out.scriptPubKey)
    (hmoneyIn : RefSummary.MoneyTotal (coins.map Coin.out))
    (hmoneyOut : RefSummary.MoneyTotal tx.vout) :
    ∃ shared, Shared.make tx coins hsize = .ok shared ∧ ∀ nIn : Fin tx.vin.length,
      let context : ScriptExecutionContext := ⟨tx, shared, nIn, false⟩
      context.shared.inputs.Exact (coins.map Coin.out) ∧ context.shared.inputs.InRange ∧
        context.shared.outputs.Exact tx.vout ∧ context.shared.outputs.InRange := by
  obtain ⟨shared, hshared, hinputCoins⟩ := Shared.make_of_parses hsize hcoins houts
  have hinputs := exact_of_initializeSummary shared.inputs_eq
  rw [hinputCoins] at hinputs
  have houtputs := exact_of_initializeSummary shared.outputs_eq
  exact ⟨shared, hshared, fun _ =>
    ⟨hinputs, hinputs.inRange hmoneyIn, houtputs, houtputs.inRange hmoneyOut⟩⟩

/-- The value sum of the null reference is the total of the entries without references exactly
when those after the first add up to zero, on either side. -/
theorem refValueSum_null_iff (tx : CTransaction) (coins : List Coin)
    (hsize : coins.length = tx.vin.length) (hcoins : ∀ c ∈ coins, Parses c.out.scriptPubKey)
    (houts : ∀ out ∈ tx.vout, Parses out.scriptPubKey)
    (hnullIn : ∀ c ∈ coins, null ∉ c.out.pushRefs)
    (hnullOut : ∀ out ∈ tx.vout, null ∉ out.pushRefs) :
    ∃ shared, Shared.make tx coins hsize = .ok shared ∧
      (shared.inputs.getRefValueSum null =
          totalValue (fun out => out.pushRefs = ∅) (coins.map Coin.out) ↔
        ((refFree (coins.map Coin.out)).tail.map amount).sum = 0) ∧
      (shared.outputs.getRefValueSum null =
          totalValue (fun out => out.pushRefs = ∅) tx.vout ↔
        ((refFree tx.vout).tail.map amount).sum = 0) := by
  obtain ⟨shared, hshared, hinputCoins⟩ := Shared.make_of_parses hsize hcoins houts
  refine ⟨shared, hshared, ?_, getRefValueSum_null_eq_iff hnullOut shared.outputs_eq⟩
  refine getRefValueSum_null_eq_iff (forall_mem_map.mpr hnullIn) ?_
  exact hinputCoins ▸ shared.inputs_eq

end ScriptExecutionContext

end Metrics

section Sample

attribute [local instance] Crypto.toy

/-- A transaction with one input and two outputs of given values, without references. -/
def sampleContextTx (v w : Int64) : CTransaction :=
  .ofLegacy ⟨[⟨⟨null, 0⟩, [], 0⟩], [⟨v, [0x51]⟩, ⟨w, [0x51]⟩], 2, 0⟩
    version_two two_lt_word

/-- The coins its input spends. -/
def sampleContextCoins : List Coin := [⟨⟨5, [0x51]⟩, 1, false⟩]

theorem metrics_exact_sample :
    ∃ shared : ScriptExecutionContext.Shared (sampleContextTx 1 2),
      ScriptExecutionContext.Shared.make (sampleContextTx 1 2) sampleContextCoins rfl = .ok shared ∧
        shared.outputs.getRefHashValueSum null = 3 := by
  obtain ⟨shared, hshared, hexact⟩ := ScriptExecutionContext.metrics_exact (sampleContextTx 1 2)
    sampleContextCoins rfl (by decide +kernel) (by decide +kernel) (by decide +kernel)
    (by decide +kernel)
  refine ⟨shared, hshared, ?_⟩
  rw [(hexact ⟨0, by decide⟩).2.2.1.refHashValueSum]
  decide +kernel

/-- With two outputs without references, only the value of the first is returned. -/
theorem refValueSum_null_first :
    ∃ shared ∈ (ScriptExecutionContext.Shared.make (sampleContextTx 1 2) sampleContextCoins
      rfl).toOption, shared.outputs.getRefValueSum null = 1 ∧
        totalValue (fun out => out.pushRefs = ∅) (sampleContextTx 1 2).vout = 3 := by
  decide +kernel

theorem refValueSum_null_iff_sample :
    ∃ shared : ScriptExecutionContext.Shared (sampleContextTx 1 0),
      ScriptExecutionContext.Shared.make (sampleContextTx 1 0) sampleContextCoins rfl = .ok shared ∧
        shared.outputs.getRefValueSum null = 1 := by
  obtain ⟨shared, hshared, -, hiff⟩ := ScriptExecutionContext.refValueSum_null_iff
    (sampleContextTx 1 0) sampleContextCoins rfl (by decide +kernel) (by decide +kernel)
    (by decide +kernel) (by decide +kernel)
  refine ⟨shared, hshared, ?_⟩
  rw [hiff.mpr (by decide +kernel)]
  decide +kernel

end Sample

end RadiantCore
