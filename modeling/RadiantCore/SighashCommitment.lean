import RadiantCore.SignatureHash
import RadiantCore.TxCommitment

/-!
# A signature hash commits to what its type covers

The digest with `SIGHASH_FORKID` is the same for two calls if and only if the calls agree on the
fields that the hash type covers (`SighashAgree`, `signatureHash_eq_iff`), and the hashes a
`PrecomputedTransactionData` caches do not change it. A digest that a type leaves out is replaced
by zero bytes, so the argument needs that no real digest is zero : otherwise a type `SINGLE`
would not tell an output from the absence of one.
-/

namespace RadiantCore

open PrefixCode List

section Commitment

variable [Crypto]

/-! ## The inputs -/

/-- The bytes `GetPrevoutHash` hashes. -/
def prevoutBytes (vin : List CTxIn) : List UInt8 :=
  vin.flatMap fun txin => txin.prevout.serialize

variable {vin vin' : List CTxIn}

omit [Crypto] in
theorem prevoutBytes_eq_iff :
    prevoutBytes vin = prevoutBytes vin' ↔
      vin.map CTxIn.prevout = vin'.map CTxIn.prevout := by
  have hmap : ∀ vin : List CTxIn,
      prevoutBytes vin = (vin.map CTxIn.prevout).flatMap COutPoint.serialize := by
    simp [prevoutBytes, flatMap_map]
  rw [hmap, hmap]
  constructor
  · refine fun h => prefixFree_outPoint.injOn_flatMap (fun o _ => ?_) (fun _ _ => trivial)
      (fun _ _ => trivial) h
    exact ne_nil_of_length_pos (by simp [COutPoint.serialize])
  · intro h
    rw [h]

omit [Crypto] in
theorem sequenceBytes_eq_iff :
    sequenceBytes vin = sequenceBytes vin' ↔
      vin.map CTxIn.nSequence = vin'.map CTxIn.nSequence := by
  have hmap : ∀ vin : List CTxIn, sequenceBytes vin =
      (vin.map CTxIn.nSequence).flatMap fun n => writeLE 4 n.toNat := by
    simp [sequenceBytes, flatMap_map]
  refine ⟨sequenceBytes_injective, fun h => ?_⟩
  rw [hmap, hmap, h]

/-- The hash of the prevouts in a digest. -/
def signedPrevoutsHash (vin : List CTxIn) (sigHashType : SigHashType) : Uint256 :=
  if sigHashType.hasAnyoneCanPay then Blob.null else getPrevoutHash vin

/-- The hash of the sequence numbers in a digest. -/
def signedSequenceHash (vin : List CTxIn) (sigHashType : SigHashType) : Uint256 :=
  if sigHashType.hasAnyoneCanPay ∨ openOutputs sigHashType then Blob.null else getSequenceHash vin

variable {sigHashType : SigHashType}

theorem signedPrevoutsHash_eq_iff (hfree : NoCollision [prevoutBytes vin] [prevoutBytes vin']) :
    signedPrevoutsHash vin sigHashType = signedPrevoutsHash vin' sigHashType ↔
      (¬ sigHashType.hasAnyoneCanPay → vin.map CTxIn.prevout = vin'.map CTxIn.prevout) := by
  unfold signedPrevoutsHash
  split_ifs with hany
  · simp [hany]
  · rw [← prevoutBytes_eq_iff]
    constructor
    · intro h _
      exact hfree _ (by simp) _ (by simp) h
    · intro h
      exact congrArg hash256 (h hany)

theorem signedSequenceHash_eq_iff (hfree : NoCollision [sequenceBytes vin] [sequenceBytes vin']) :
    signedSequenceHash vin sigHashType = signedSequenceHash vin' sigHashType ↔
      (¬ sigHashType.hasAnyoneCanPay → ¬ openOutputs sigHashType →
        vin.map CTxIn.nSequence = vin'.map CTxIn.nSequence) := by
  unfold signedSequenceHash
  split_ifs with hopen
  · rcases hopen with h | h <;> simp [h]
  · rw [← sequenceBytes_eq_iff]
    rw [not_or] at hopen
    constructor
    · intro h _ _
      exact hfree _ (by simp) _ (by simp) h
    · intro h
      exact congrArg hash256 (h hopen.1 hopen.2)

/-! ## The outputs -/

theorem getHashOutputHashes_singleton (txout : CTxOut) :
    getHashOutputHashes [txout] = (writeOutputDataSummaryVector txout).map hash256 := by
  rw [getHashOutputHashes, mapM_cons, mapM_nil]
  cases writeOutputDataSummaryVector txout with
  | error e => rfl
  | ok bytes => simp [bind, Except.bind, pure, Except.pure, Except.map]

section Outputs

variable (tx : CMutableTransaction) (nIn : Fin tx.vin.length) (sigHashType : SigHashType)

/-- The outputs a digest hashes, if it hashes any list of outputs. -/
def signedOutputs : Option (List CTxOut) :=
  if ¬ openOutputs sigHashType then some tx.vout
  else if sigHashType.getBaseType = SigHashType.single then
    tx.vout[nIn.val]?.map fun txout => [txout]
  else none

/-- The two hashes of a list of outputs, which are zero if none is hashed. -/
def outputHashes : Option (List CTxOut) → Except ScriptFailure (Uint256 × Uint256)
  | some vout => do
    let hashOutputHashes ← rethrow (getHashOutputHashes vout)
    return (getOutputsHash vout, hashOutputHashes)
  | none => .ok (Blob.null, Blob.null)

/-- A single output is hashed as the list with that output. -/
theorem signedOutputHashes_none :
    signedOutputHashes tx nIn sigHashType none =
      outputHashes (signedOutputs tx nIn sigHashType) := by
  unfold signedOutputHashes signedOutputs
  split_ifs with hopen hsingle
  · cases tx.vout[nIn.val]? with
    | none => rfl
    | some txout =>
      simp only [Option.map_some, outputHashes, getHashOutputHashes_singleton]
      cases writeOutputDataSummaryVector txout with
      | error e => cases e <;> rfl
      | ok bytes => simp [rethrow, Except.map, getOutputsHash, bind, Except.bind]
  · cases tx.vout[nIn.val]? with
    | none => rfl
    | some txout => rfl
  · rfl

variable {tx nIn sigHashType}

omit [Crypto] in
theorem mem_of_mem_signedOutputs {vout : List CTxOut} {txout : CTxOut}
    (h : signedOutputs tx nIn sigHashType = some vout) (hmem : txout ∈ vout) : txout ∈ tx.vout := by
  unfold signedOutputs at h
  split_ifs at h with hopen hsingle
  · obtain ⟨out, hout, rfl⟩ := Option.map_eq_some_iff.mp h
    rw [mem_singleton.mp hmem]
    exact mem_of_getElem? hout
  · exact Option.some.inj h ▸ hmem

theorem outputHashes_of_parses {vout : Option (List CTxOut)}
    (h : ∀ outs ∈ vout, ∀ txout ∈ outs, Parses txout.scriptPubKey) :
    ∃ hashes, outputHashes vout = .ok hashes := by
  cases vout with
  | none => exact ⟨_, rfl⟩
  | some outs =>
    obtain ⟨d, hd⟩ := getHashOutputHashes_of_parses (h outs rfl)
    exact ⟨_, by rw [outputHashes, hd]; rfl⟩

end Outputs

variable {vout : List CTxOut} {p : Uint256 × Uint256}

/-- A digest of outputs is not zero, and is of a byte string hashed for them. -/
theorem outputHashes_some (h : outputHashes (some vout) = .ok p) :
    getHashOutputHashes vout = .ok p.2 ∧ ∃ m ∈ outputMessages vout, hash256 m = p.2 := by
  have hd : getHashOutputHashes vout = .ok p.2 := by
    rw [outputHashes] at h
    cases hd : getHashOutputHashes vout with
    | error e => rw [hd] at h; cases e <;> cases h
    | ok d => rw [hd] at h; cases h; rfl
  refine ⟨hd, ?_⟩
  simp only [getHashOutputHashes, bind_eq_ok_iff, pure_eq_ok_iff] at hd
  obtain ⟨ss, hss, hhash⟩ := hd
  exact ⟨ss.flatten, flatten_mem_outputMessages hss, hhash⟩

theorem outputHashes_some_ne_null (h : outputHashes (some vout) = .ok p)
    (hzero : ∀ m ∈ outputMessages vout, hash256 m ≠ Blob.null) : p.2 ≠ Blob.null := by
  obtain ⟨-, m, hm, hhash⟩ := outputHashes_some h
  exact hhash ▸ hzero m hm

/-- The hashes of the outputs are equal when the same list of outputs, or none, is hashed. -/
theorem outputHashes_eq_iff {vout vout' : Option (List CTxOut)} {p' : Uint256 × Uint256}
    (h : outputHashes vout = .ok p) (h' : outputHashes vout' = .ok p')
    (hfree : NoCollision (vout.toList.flatMap outputMessages) (vout'.toList.flatMap outputMessages))
    (hzero : ∀ m ∈ vout.toList.flatMap outputMessages, hash256 m ≠ Blob.null)
    (hzero' : ∀ m ∈ vout'.toList.flatMap outputMessages, hash256 m ≠ Blob.null) :
    p.2 = p'.2 ↔ vout = vout' := by
  constructor
  · intro heq
    cases vout with
    | none =>
      obtain rfl := Except.ok.inj h
      cases vout' with
      | none => rfl
      | some outs' =>
        exact absurd heq.symm (outputHashes_some_ne_null h' (by simpa using hzero'))
    | some outs =>
      cases vout' with
      | none =>
        obtain rfl := Except.ok.inj h'
        exact absurd heq (outputHashes_some_ne_null h (by simpa using hzero))
      | some outs' =>
        have hd := (outputHashes_some h).1
        have hd' := (outputHashes_some h').1
        rw [vout_eq_of_hash hd (heq ▸ hd') (by simpa using hfree)]
  · rintro rfl
    rw [Except.ok.inj (h.symm.trans h')]

/-! ## The digest -/

/-- The arguments of `SignatureHash` that a digest depends on. -/
structure SighashArgs where
  scriptCode : CScript
  tx : CMutableTransaction
  nIn : Fin tx.vin.length
  sigHashType : SigHashType
  amount : Int64

namespace SighashArgs

/-- The signed input. -/
def txin (a : SighashArgs) : CTxIn := a.tx.vin.get a.nIn

/-- The outputs the digest hashes. -/
def outputs (a : SighashArgs) : Option (List CTxOut) := signedOutputs a.tx a.nIn a.sigHashType

/-- The byte string whose double SHA-256 is the digest with `SIGHASH_FORKID`. -/
def preimage (a : SighashArgs) : Except ScriptFailure (List UInt8) := do
  let (hashOutputs, hashOutputHashes) ← outputHashes a.outputs
  return writeLE 4 a.tx.nVersion.toUInt32.toNat ++
    (signedPrevoutsHash a.tx.vin a.sigHashType).data ++
    (signedSequenceHash a.tx.vin a.sigHashType).data ++ a.txin.prevout.serialize ++
    serializeBytes a.scriptCode ++ serializeAmount a.amount ++ writeLE 4 a.txin.nSequence.toNat ++
    hashOutputHashes.data ++ hashOutputs.data ++ writeLE 4 a.tx.nLockTime.toNat ++
    writeLE 4 a.sigHashType.toNat

/-- The byte strings hashed for the digest. -/
def messages (a : SighashArgs) : List (List UInt8) :=
  a.preimage.toOption.toList ++ [prevoutBytes a.tx.vin, sequenceBytes a.tx.vin] ++
    a.outputs.toList.flatMap outputMessages

/-- The digest, with or without the cached hashes of the transaction. -/
def signatureHash (a : SighashArgs) (cache : Option PrecomputedTransactionData) (flags : UInt32) :
    Except ScriptFailure Uint256 :=
  RadiantCore.signatureHash a.scriptCode a.tx a.nIn a.sigHashType a.amount cache flags

theorem forkIdSignatureHash_none (a : SighashArgs) :
    forkIdSignatureHash a.scriptCode a.tx a.nIn a.sigHashType a.amount none =
      a.preimage.map hash256 := by
  unfold forkIdSignatureHash preimage
  rw [signedOutputHashes_none]
  change (do let p ← outputHashes a.outputs; _) = _
  cases outputHashes a.outputs with
  | error e => rfl
  | ok p => rfl

/-- Two calls agree on what a hash type covers. -/
structure Agree (a a' : SighashArgs) : Prop where
  sigHashType : a.sigHashType = a'.sigHashType
  nVersion : a.tx.nVersion = a'.tx.nVersion
  nLockTime : a.tx.nLockTime = a'.tx.nLockTime
  scriptCode : a.scriptCode = a'.scriptCode
  amount : a.amount = a'.amount
  prevout : a.txin.prevout = a'.txin.prevout
  nSequence : a.txin.nSequence = a'.txin.nSequence
  prevouts : ¬ a.sigHashType.hasAnyoneCanPay →
    a.tx.vin.map CTxIn.prevout = a'.tx.vin.map CTxIn.prevout
  sequences : ¬ a.sigHashType.hasAnyoneCanPay →
    a.sigHashType.getBaseType ≠ SigHashType.single →
    a.sigHashType.getBaseType ≠ SigHashType.none →
    a.tx.vin.map CTxIn.nSequence = a'.tx.vin.map CTxIn.nSequence
  allOutputs : a.sigHashType.getBaseType ≠ SigHashType.single →
    a.sigHashType.getBaseType ≠ SigHashType.none → a.tx.vout = a'.tx.vout
  singleOutput : a.sigHashType.getBaseType = SigHashType.single →
    a.tx.vout[a.nIn.val]? = a'.tx.vout[a'.nIn.val]?

omit [Crypto] in
theorem openOutputs_iff {sigHashType : SigHashType} :
    openOutputs sigHashType = true ↔ sigHashType.getBaseType = SigHashType.single ∨
      sigHashType.getBaseType = SigHashType.none := by
  simp [openOutputs]

variable {a a' : SighashArgs}

omit [Crypto] in
theorem outputs_eq_iff (htype : a.sigHashType = a'.sigHashType) :
    a.outputs = a'.outputs ↔
      (a.sigHashType.getBaseType ≠ SigHashType.single →
        a.sigHashType.getBaseType ≠ SigHashType.none → a.tx.vout = a'.tx.vout) ∧
      (a.sigHashType.getBaseType = SigHashType.single →
        a.tx.vout[a.nIn.val]? = a'.tx.vout[a'.nIn.val]?) := by
  unfold outputs signedOutputs
  rw [← htype]
  by_cases hsingle : a.sigHashType.getBaseType = SigHashType.single
  · have hinj : Function.Injective fun txout : CTxOut => [txout] := fun _ _ h => by simpa using h
    simp [openOutputs, hsingle, (Option.map_injective hinj).eq_iff]
  · by_cases hnone : a.sigHashType.getBaseType = SigHashType.none
    · simp [openOutputs, hnone, SigHashType.none, SigHashType.single]
    · simp [openOutputs, hsingle, hnone]

variable {m : List UInt8}

theorem outputHashes_of_outputsParse (hparse : ∀ txout ∈ a.tx.vout, Parses txout.scriptPubKey) :
    ∃ p, outputHashes a.outputs = .ok p :=
  outputHashes_of_parses fun _ houts txout hmem =>
    hparse txout (mem_of_mem_signedOutputs houts hmem)

theorem preimage_mem (h : a.preimage = .ok m) :
    m ∈ a.messages := by
  rw [messages, h, append_assoc]
  exact mem_append_left _ (mem_singleton_self _)

theorem prevoutBytes_mem (a : SighashArgs) : prevoutBytes a.tx.vin ∈ a.messages := by
  simp [messages]

theorem sequenceBytes_mem (a : SighashArgs) : sequenceBytes a.tx.vin ∈ a.messages := by
  simp [messages]

theorem outputMessages_subset (a : SighashArgs) :
    a.outputs.toList.flatMap outputMessages ⊆ a.messages :=
  subset_append_right _ _

section

variable {p p' : Uint256 × Uint256} (hcode : a.scriptCode.length < 2 ^ 64)
  (hcode' : a'.scriptCode.length < 2 ^ 64) (hp : outputHashes a.outputs = .ok p)
  (hp' : outputHashes a'.outputs = .ok p')

include hcode hcode' hp hp'

/-- The preimage fixes the fields of the digest. -/
theorem preimage_inj (h : a.preimage = .ok m) (h' : a'.preimage = .ok m) :
    a.tx.nVersion = a'.tx.nVersion ∧
      signedPrevoutsHash a.tx.vin a.sigHashType = signedPrevoutsHash a'.tx.vin a'.sigHashType ∧
      signedSequenceHash a.tx.vin a.sigHashType = signedSequenceHash a'.tx.vin a'.sigHashType ∧
      a.txin.prevout = a'.txin.prevout ∧ a.scriptCode = a'.scriptCode ∧ a.amount = a'.amount ∧
      a.txin.nSequence = a'.txin.nSequence ∧ p.2 = p'.2 ∧ a.tx.nLockTime = a'.tx.nLockTime ∧
      a.sigHashType = a'.sigHashType := by
  simp only [preimage, hp, hp', ok_bind, pure_eq_ok_iff, append_assoc] at h h'
  obtain ⟨hversion, hrest⟩ := prefixFree_int32 trivial trivial (h.trans h'.symm)
  obtain ⟨hprevouts, hrest⟩ := prefixFree_data 32 trivial trivial hrest
  obtain ⟨hsequences, hrest⟩ := prefixFree_data 32 trivial trivial hrest
  obtain ⟨hprevout, hrest⟩ := prefixFree_outPoint trivial trivial hrest
  obtain ⟨hscript, hrest⟩ := prefixFree_serializeBytes hcode hcode' hrest
  obtain ⟨hamount, hrest⟩ := prefixFree_serializeAmount trivial trivial hrest
  obtain ⟨hsequence, hrest⟩ := prefixFree_uint32 trivial trivial hrest
  obtain ⟨hsummaries, hrest⟩ := prefixFree_data 32 trivial trivial hrest
  obtain ⟨-, hrest⟩ := prefixFree_data 32 trivial trivial hrest
  obtain ⟨hlockTime, hrest⟩ := prefixFree_uint32 trivial trivial hrest
  have htype := prefixFree_uint32.injOn trivial trivial hrest
  exact ⟨hversion, hprevouts, hsequences, hprevout, hscript, hamount, hsequence, hsummaries,
    hlockTime, htype⟩

/-- Calls with one preimage agree on what the type covers, and conversely. -/
theorem preimage_eq_iff {m' : List UInt8} (hfree : NoCollision a.messages a'.messages)
    (hzero : ∀ m ∈ a.messages, hash256 m ≠ Blob.null)
    (hzero' : ∀ m ∈ a'.messages, hash256 m ≠ Blob.null)
    (h : a.preimage = .ok m) (h' : a'.preimage = .ok m') : m = m' ↔ a.Agree a' := by
  have hprevoutsIff := @signedPrevoutsHash_eq_iff _ a.tx.vin a'.tx.vin a.sigHashType
    (hfree.mono (by simp [prevoutBytes_mem]) (by simp [prevoutBytes_mem]))
  have hsequencesIff := @signedSequenceHash_eq_iff _ a.tx.vin a'.tx.vin a.sigHashType
    (hfree.mono (by simp [sequenceBytes_mem]) (by simp [sequenceBytes_mem]))
  have houtputsIff := outputHashes_eq_iff hp hp'
    (hfree.mono a.outputMessages_subset a'.outputMessages_subset)
    (fun m hm => hzero m (a.outputMessages_subset hm))
    fun m hm => hzero' m (a'.outputMessages_subset hm)
  constructor
  · rintro rfl
    obtain ⟨hversion, hprevouts, hsequences, hprevout, hscript, hamount, hsequence, hsummaries,
      hlockTime, htype⟩ := preimage_inj hcode hcode' hp hp' h h'
    rw [← htype] at hprevouts hsequences
    obtain ⟨hall, hone⟩ := (outputs_eq_iff htype).mp (houtputsIff.mp hsummaries)
    refine ⟨htype, hversion, hlockTime, hscript, hamount, hprevout, hsequence,
      hprevoutsIff.mp hprevouts, fun hany hsingle hnone => ?_, hall, hone⟩
    refine hsequencesIff.mp hsequences hany ?_
    simp [openOutputs_iff, hsingle, hnone]
  · intro hagree
    have hprevouts := hprevoutsIff.mpr hagree.prevouts
    have hsequences := hsequencesIff.mpr fun hany hopen => by
      rw [openOutputs_iff, not_or] at hopen
      exact hagree.sequences hany hopen.1 hopen.2
    have houtputs : a.outputs = a'.outputs :=
      (outputs_eq_iff hagree.sigHashType).mpr ⟨hagree.allOutputs, hagree.singleOutput⟩
    rw [preimage, houtputs, hprevouts, hsequences, hagree.nVersion, hagree.nLockTime,
      hagree.scriptCode, hagree.amount, hagree.prevout, hagree.nSequence,
      hagree.sigHashType] at h
    exact Except.ok.inj (h.symm.trans h')

end

/-- The cached hashes are those the digest computes without them. -/
theorem signatureHash_cache (a : SighashArgs) {cache : Option PrecomputedTransactionData}
    (hcache : ∀ txdata ∈ cache, precomputeTransactionData a.tx = .ok txdata) (flags : UInt32) :
    a.signatureHash cache flags = a.signatureHash none flags := by
  cases cache with
  | none => rfl
  | some txdata =>
    have hdata := hcache txdata rfl
    simp only [precomputeTransactionData, bind_eq_ok_iff, pure_eq_ok_iff] at hdata
    obtain ⟨d, hd, rfl⟩ := hdata
    have houtputs : signedOutputHashes a.tx a.nIn a.sigHashType
        (some ⟨getPrevoutHash a.tx.vin, getSequenceHash a.tx.vin, getOutputsHash a.tx.vout, d⟩) =
          signedOutputHashes a.tx a.nIn a.sigHashType none := by
      simp only [signedOutputHashes, hd]
      rfl
    unfold SighashArgs.signatureHash RadiantCore.signatureHash forkIdSignatureHash
    rw [houtputs]
    rfl

theorem signatureHash_none {flags : UInt32} (hforkId : a.sigHashType.hasForkId)
    (hflags : hasFlag flags .SCRIPT_ENABLE_SIGHASH_FORKID) :
    a.signatureHash none flags = a.preimage.map hash256 := by
  rw [← forkIdSignatureHash_none]
  exact if_pos ⟨hforkId, hflags⟩

/-- Two calls of `SignatureHash` with `SIGHASH_FORKID` return the same digest if and only if they
agree on what the hash type covers, with or without cached hashes, and the cached hashes do not
change the digest. -/
theorem signatureHash_eq_iff (a a' : SighashArgs) (cache cache' : Option PrecomputedTransactionData)
    (flags flags' : UInt32)
    (hparse : ∀ txout ∈ a.tx.vout, Parses txout.scriptPubKey)
    (hparse' : ∀ txout ∈ a'.tx.vout, Parses txout.scriptPubKey)
    (hcode : a.scriptCode.length < 2 ^ 64) (hcode' : a'.scriptCode.length < 2 ^ 64)
    (hforkId : a.sigHashType.hasForkId) (hforkId' : a'.sigHashType.hasForkId)
    (hflags : hasFlag flags .SCRIPT_ENABLE_SIGHASH_FORKID)
    (hflags' : hasFlag flags' .SCRIPT_ENABLE_SIGHASH_FORKID)
    (hcache : ∀ txdata ∈ cache, precomputeTransactionData a.tx = .ok txdata)
    (hcache' : ∀ txdata ∈ cache', precomputeTransactionData a'.tx = .ok txdata)
    (hfree : NoCollision a.messages a'.messages)
    (hzero : ∀ m ∈ a.messages, hash256 m ≠ Blob.null)
    (hzero' : ∀ m ∈ a'.messages, hash256 m ≠ Blob.null) :
    ((∃ d, a.signatureHash cache flags = .ok d ∧ a'.signatureHash cache' flags' = .ok d) ↔
      a.Agree a') ∧ a.signatureHash cache flags = a.signatureHash none flags := by
  refine ⟨?_, a.signatureHash_cache hcache flags⟩
  obtain ⟨p, hp⟩ := outputHashes_of_outputsParse hparse
  obtain ⟨p', hp'⟩ := outputHashes_of_outputsParse hparse'
  obtain ⟨m, hm⟩ : ∃ m, a.preimage = .ok m := ⟨_, by rw [preimage, hp]; rfl⟩
  obtain ⟨m', hm'⟩ : ∃ m', a'.preimage = .ok m' := ⟨_, by rw [preimage, hp']; rfl⟩
  rw [a.signatureHash_cache hcache, a'.signatureHash_cache hcache',
    signatureHash_none hforkId hflags, signatureHash_none hforkId' hflags', hm, hm',
    ← preimage_eq_iff hcode hcode' hp hp' hfree hzero hzero' hm hm']
  constructor
  · rintro ⟨d, hd, hd'⟩
    exact hfree _ (preimage_mem hm) _ (preimage_mem hm') (Except.ok.inj (hd.trans hd'.symm))
  · rintro rfl
    exact ⟨_, rfl, rfl⟩

end SighashArgs

end Commitment

section Sample

attribute [local instance] Crypto.toy

/-- A signature of the first input, of type `NONE`, in a transaction with these outputs. -/
def sampleSighashArgs (vout : List CTxOut) : SighashArgs where
  scriptCode := [0xac]
  tx := ⟨[⟨⟨Blob.null, 0⟩, [], 0⟩, ⟨⟨Blob.null, 1⟩, [], 5⟩], vout, 2, 0⟩
  nIn := 0
  sigHashType := 0x42
  amount := 1000

/-- With `NONE` the digest is the same for other outputs. -/
theorem signatureHash_eq_iff_sample :
    ∃ d, (sampleSighashArgs [⟨1, [0x51]⟩]).signatureHash none 0x10000 = .ok d ∧
      (sampleSighashArgs []).signatureHash none 0x10000 = .ok d := by
  have hagree : (sampleSighashArgs [⟨1, [0x51]⟩]).Agree (sampleSighashArgs []) := by
    refine ⟨rfl, rfl, rfl, rfl, rfl, rfl, rfl, fun _ => rfl, fun _ _ _ => rfl, ?_, ?_⟩
    · intro _ hnone
      exact absurd (by decide) hnone
    · intro hsingle
      exact absurd hsingle (by decide)
  exact (SighashArgs.signatureHash_eq_iff _ _ none none _ _ (by decide +kernel) (by decide +kernel)
    (by decide +kernel) (by decide +kernel) (by decide) (by decide) (by decide) (by decide)
    (by simp) (by simp) (by decide +kernel) (by decide +kernel) (by decide +kernel)).1.mpr hagree

end Sample

end RadiantCore
