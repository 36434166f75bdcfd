import RadiantCore.Serialization

/-!
# A transaction id commits to the transaction

`ComputeHash` of a transaction hashes its serialization or, in version 3, a preimage made of the
digests of its inputs, its sequence numbers and the summaries of its outputs. Two transactions
with one id are equal as soon as no two of the byte strings hashed for them collide
(`computeHash_eq_iff`).

The assumption is about the byte strings of the two transactions only : a function from byte
strings to 32 bytes that has no collision at all does not exist.
-/

namespace RadiantCore

open List PrefixCode

section Commitment

variable [Crypto]

/-! ## Collisions -/

/-- No byte string of the first list collides with one of the second under double SHA-256. -/
def NoCollision (ms ms' : List (List UInt8)) : Prop :=
  ∀ m ∈ ms, ∀ m' ∈ ms', hash256 m = hash256 m' → m = m'

instance (ms ms' : List (List UInt8)) : Decidable (NoCollision ms ms') :=
  inferInstanceAs (Decidable (∀ m ∈ ms, ∀ m' ∈ ms', hash256 m = hash256 m' → m = m'))

theorem NoCollision.mono {ms ms' ns ns' : List (List UInt8)} (h : NoCollision ms ms')
    (hsub : ns ⊆ ms) (hsub' : ns' ⊆ ms') : NoCollision ns ns' :=
  fun m hm m' hm' => h m (hsub hm) m' (hsub' hm')

/-! ## The inputs -/

/-- The bytes `GetHashPrevoutInputs` hashes. -/
def prevoutInputBytes (vin : List CTxIn) : List UInt8 :=
  vin.flatMap fun txin => txin.prevout.serialize ++ (hash256 txin.scriptSig).data

/-- The bytes `GetSequenceHash` hashes. -/
def sequenceBytes (vin : List CTxIn) : List UInt8 :=
  vin.flatMap fun txin => writeLE 4 txin.nSequence.toNat

/-- The byte strings hashed for the inputs of a transaction of version 3. -/
def inputMessages (vin : List CTxIn) : List (List UInt8) :=
  prevoutInputBytes vin :: sequenceBytes vin :: vin.map CTxIn.scriptSig

omit [Crypto] in
/-- A list of values is known from two lists of their parts. -/
theorem eq_of_map_eq {α β γ : Type} {f : α → β} {g : α → γ} {xs ys : List α}
    (hf : xs.map f = ys.map f) (hg : xs.map g = ys.map g)
    (hinj : ∀ a ∈ xs, ∀ b ∈ ys, f a = f b → g a = g b → a = b) : xs = ys := by
  induction xs generalizing ys with
  | nil => simpa using hf.symm
  | cons a xs ih =>
    cases ys with
    | nil => simp at hf
    | cons b ys =>
      simp only [map_cons, List.cons.injEq] at hf hg
      have hab : a = b := hinj a (by simp) b (by simp) hf.1 hg.1
      have hrest : xs = ys := ih hf.2 hg.2 fun c hc d hd => hinj c (by simp [hc]) d (by simp [hd])
      rw [hab, hrest]

variable {vin vin' : List CTxIn}

omit [Crypto] in
theorem sequenceBytes_injective (h : sequenceBytes vin = sequenceBytes vin') :
    vin.map CTxIn.nSequence = vin'.map CTxIn.nSequence := by
  refine prefixFree_uint32.injOn_flatMap (fun x _ => ?_) (fun _ _ => trivial) (fun _ _ => trivial) ?_
  · exact ne_nil_of_length_pos (by simp)
  · simpa only [flatMap_map, sequenceBytes] using h

theorem prevoutInputBytes_injective (h : prevoutInputBytes vin = prevoutInputBytes vin') :
    (vin.map fun txin => (txin.prevout, hash256 txin.scriptSig)) =
      vin'.map fun txin => (txin.prevout, hash256 txin.scriptSig) := by
  have hcode : PrefixFree (fun p : COutPoint × Uint256 => p.1.serialize ++ p.2.data) Set.univ := by
    rintro ⟨o, d⟩ _ ⟨o', d'⟩ _ x y heq
    simp only [append_assoc] at heq
    obtain ⟨ho, hrest⟩ := prefixFree_outPoint trivial trivial heq
    obtain ⟨hd, hxy⟩ := prefixFree_data 32 trivial trivial hrest
    exact ⟨Prod.ext ho hd, hxy⟩
  refine hcode.injOn_flatMap (fun p _ => ?_) (fun _ _ => trivial) (fun _ _ => trivial) ?_
  · exact ne_nil_of_length_pos (by simp [p.2.size_eq])
  · simpa only [flatMap_map, prevoutInputBytes] using h

/-- The inputs are known from the two digests of their parts. -/
theorem vin_eq_of_hashes (hprevouts : getHashPrevoutInputs vin = getHashPrevoutInputs vin')
    (hsequence : getSequenceHash vin = getSequenceHash vin')
    (hfree : NoCollision (inputMessages vin) (inputMessages vin')) : vin = vin' := by
  have hprevoutBytes : prevoutInputBytes vin = prevoutInputBytes vin' :=
    hfree _ (by simp [inputMessages]) _ (by simp [inputMessages]) hprevouts
  have hsequenceBytes : sequenceBytes vin = sequenceBytes vin' :=
    hfree _ (by simp [inputMessages]) _ (by simp [inputMessages]) hsequence
  refine eq_of_map_eq (prevoutInputBytes_injective hprevoutBytes)
    (sequenceBytes_injective hsequenceBytes) ?_
  rintro txin hin txin' hin' hparts hn
  obtain ⟨hprevout, hdigest⟩ := Prod.mk.inj hparts
  have hmem : ∀ {vin : List CTxIn} {txin : CTxIn}, txin ∈ vin → txin.scriptSig ∈ inputMessages vin :=
    fun h => mem_cons_of_mem _ (mem_cons_of_mem _ (mem_map_of_mem h))
  have hscript := hfree _ (hmem hin) _ (hmem hin') hdigest
  exact (CTxIn.mk.injEq ..).mpr ⟨hprevout, hscript, hn⟩

/-! ## The outputs -/

/-- The byte strings hashed for outputs : the summaries in one string, and the scripts. -/
def outputMessages (vout : List CTxOut) : List (List UInt8) :=
  (vout.mapM writeOutputDataSummaryVector).toOption.toList.map List.flatten ++
    vout.map CTxOut.scriptPubKey

variable {txout : CTxOut}

section

variable {bytes : List UInt8} (h : writeOutputDataSummaryVector txout = .ok bytes)

include h

/-- The summary of an output starts with its value and the digest of its script, and has the
same size for every output. -/
theorem writeOutputDataSummaryVector_eq_ok :
    ∃ refs : List UInt8, refs.length = 36 ∧
      bytes = serializeAmount txout.nValue ++ ((hash256 txout.scriptPubKey).data ++ refs) := by
  unfold writeOutputDataSummaryVector at h
  split at h
  · cases h
  · rename_i refs hrefs
    let summary := getRefHashDataSummary refs.pushRefSet txout.scriptPubKey txout.nValue
    refine ⟨writeLE 4 summary.totalRefs ++ summary.refsHash.data, by simp [Blob.size_eq], ?_⟩
    rw [← Except.ok.inj h, append_assoc, append_assoc]
    rfl

theorem summary_ne_nil : bytes ≠ [] := by
  obtain ⟨refs, hlen, rfl⟩ := writeOutputDataSummaryVector_eq_ok h
  exact ne_nil_of_length_pos (by simp [hlen])

/-- The head of a list of summaries gives the value and the digest of the script. -/
theorem summary_peel {txout' : CTxOut} {bytes' x y : List UInt8}
    (h' : writeOutputDataSummaryVector txout' = .ok bytes') (heq : bytes ++ x = bytes' ++ y) :
    txout.nValue = txout'.nValue ∧
      hash256 txout.scriptPubKey = hash256 txout'.scriptPubKey ∧ x = y := by
  obtain ⟨refs, hlen, rfl⟩ := writeOutputDataSummaryVector_eq_ok h
  obtain ⟨refs', hlen', rfl⟩ := writeOutputDataSummaryVector_eq_ok h'
  simp only [append_assoc] at heq
  obtain ⟨hvalue, hrest⟩ := prefixFree_serializeAmount trivial trivial heq
  obtain ⟨hscript, hrest⟩ := prefixFree_data 32 trivial trivial hrest
  exact ⟨hvalue, hscript, (append_inj hrest (hlen.trans hlen'.symm)).2⟩

end

variable {vout vout' : List CTxOut} {ss : List (List UInt8)}

/-- A list of summaries gives the outputs when no scripts collide. -/
theorem vout_eq_of_summaries {ss' : List (List UInt8)}
    (h : vout.mapM writeOutputDataSummaryVector = .ok ss)
    (h' : vout'.mapM writeOutputDataSummaryVector = .ok ss') (heq : ss.flatten = ss'.flatten)
    (hfree : NoCollision (vout.map CTxOut.scriptPubKey) (vout'.map CTxOut.scriptPubKey)) :
    vout = vout' := by
  rw [mapM_eq_ok_iff] at h h'
  induction h generalizing vout' ss' with
  | nil =>
    cases h' with
    | nil => rfl
    | cons hbytes _ =>
      exact absurd (List.append_eq_nil_iff.mp heq.symm).1 (summary_ne_nil hbytes)
  | @cons txout _ _ _ hbytes _ ih =>
    cases h' with
    | nil => exact absurd (List.append_eq_nil_iff.mp heq).1 (summary_ne_nil hbytes)
    | @cons txout' _ _ _ hbytes' hrest' =>
      rw [flatten_cons, flatten_cons] at heq
      obtain ⟨hvalue, hdigest, hrest⟩ := summary_peel hbytes hbytes' heq
      have hscript := hfree _ (by simp) _ (by simp) hdigest
      have htail := ih hrest' hrest (hfree.mono (by simp) (by simp))
      have hhead : txout = txout' := (CTxOut.mk.injEq ..).mpr ⟨hvalue, hscript⟩
      rw [hhead, htail]

theorem flatten_mem_outputMessages
    (h : vout.mapM writeOutputDataSummaryVector = .ok ss) : ss.flatten ∈ outputMessages vout := by
  rw [outputMessages, h]
  exact mem_append_left _ (mem_singleton_self _)

/-- The outputs are known from their digest. -/
theorem vout_eq_of_hash {d : Uint256}
    (h : getHashOutputHashes vout = .ok d) (h' : getHashOutputHashes vout' = .ok d)
    (hfree : NoCollision (outputMessages vout) (outputMessages vout')) : vout = vout' := by
  simp only [getHashOutputHashes, bind_eq_ok_iff, pure_eq_ok_iff] at h h'
  obtain ⟨ss, hss, hd⟩ := h
  obtain ⟨ss', hss', hd'⟩ := h'
  have hflat : ss.flatten = ss'.flatten :=
    hfree _ (flatten_mem_outputMessages hss) _ (flatten_mem_outputMessages hss') (hd.trans hd'.symm)
  refine vout_eq_of_summaries hss hss' hflat (hfree.mono ?_ ?_)
  · exact subset_append_right _ _
  · exact subset_append_right _ _

theorem getHashOutputHashes_of_parses
    (h : ∀ txout ∈ vout, Parses txout.scriptPubKey) : ∃ d, getHashOutputHashes vout = .ok d := by
  obtain ⟨ss, hss⟩ : ∃ ss, vout.mapM writeOutputDataSummaryVector = .ok ss := by
    refine exists_mapM_eq_ok_iff.mpr fun txout hout => ?_
    obtain ⟨refs, hrefs⟩ := h txout hout
    exact ⟨_, by rw [writeOutputDataSummaryVector, hrefs]⟩
  exact ⟨_, by rw [getHashOutputHashes, hss]; rfl⟩

/-! ## The transaction -/

namespace CMutableTransaction

/-- The byte string whose double SHA-256 is the id of a transaction. -/
def idPreimage (tx : CMutableTransaction) : Except Failure (List UInt8) :=
  if tx.nVersion = 3 then tx.getTransactionHashPreimage else .ok tx.serialize

variable {tx : CMutableTransaction} {d : Uint256}

theorem computeHash_eq_ok_iff :
    tx.computeHash = .ok d ↔ ∃ bytes, tx.idPreimage = .ok bytes ∧ hash256 bytes = d := by
  unfold computeHash idPreimage
  split_ifs
  · simp only [bind_eq_ok_iff, pure_eq_ok_iff]
  · simp

/-- The byte strings hashed for the id of a transaction. -/
def hashMessages (tx : CMutableTransaction) : List (List UInt8) :=
  tx.idPreimage.toOption.toList ++
    if tx.nVersion = 3 then inputMessages tx.vin ++ outputMessages tx.vout else []

/-- The outputs of a transaction of version 3 have scripts that `GetPushRefs` accepts. -/
def OutputsParse (tx : CMutableTransaction) : Prop :=
  tx.nVersion = 3 → ∀ txout ∈ tx.vout, Parses txout.scriptPubKey

instance (tx : CMutableTransaction) : Decidable tx.OutputsParse :=
  inferInstanceAs (Decidable (_ → _))

theorem OutputsParse.computeHash (h : tx.OutputsParse) :
    ∃ d, tx.computeHash = .ok d := by
  unfold CMutableTransaction.computeHash
  split_ifs with hversion
  · obtain ⟨d, hd⟩ := getHashOutputHashes_of_parses (h hversion)
    exact ⟨_, by rw [getTransactionHashPreimage, hd]; rfl⟩
  · exact ⟨_, rfl⟩

theorem idPreimage_mem {bytes : List UInt8}
    (h : tx.idPreimage = .ok bytes) : bytes ∈ tx.hashMessages := by
  rw [hashMessages, h]
  exact mem_append_left _ (mem_singleton_self _)

/-- The preimage starts with the version, in either form. -/
theorem idPreimage_version {bytes : List UInt8} (h : tx.idPreimage = .ok bytes) :
    ∃ rest, bytes = writeLE 4 tx.nVersion.toUInt32.toNat ++ rest := by
  unfold idPreimage at h
  split_ifs at h
  · simp only [getTransactionHashPreimage, bind_eq_ok_iff, pure_eq_ok_iff, append_assoc] at h
    obtain ⟨d, -, rfl⟩ := h
    exact ⟨_, rfl⟩
  · obtain rfl := Except.ok.inj h
    simp only [serialize, append_assoc]
    exact ⟨_, rfl⟩

variable {tx' : CMutableTransaction}

/-- The fields of the preimage of version 3 have fixed sizes. -/
theorem getTransactionHashPreimage_inj {bytes : List UInt8}
    (hs : tx.Sized) (hs' : tx'.Sized) (h : tx.getTransactionHashPreimage = .ok bytes)
    (h' : tx'.getTransactionHashPreimage = .ok bytes) :
    getHashPrevoutInputs tx.vin = getHashPrevoutInputs tx'.vin ∧
      getSequenceHash tx.vin = getSequenceHash tx'.vin ∧
      (∃ d, getHashOutputHashes tx.vout = .ok d ∧ getHashOutputHashes tx'.vout = .ok d) ∧
      tx.nLockTime = tx'.nLockTime := by
  simp only [getTransactionHashPreimage, bind_eq_ok_iff, pure_eq_ok_iff, append_assoc] at h h'
  obtain ⟨d, hd, hbytes⟩ := h
  obtain ⟨d', hd', hbytes'⟩ := h'
  obtain ⟨-, hrest⟩ := prefixFree_int32 trivial trivial (hbytes.trans hbytes'.symm)
  obtain ⟨-, hrest⟩ := prefixFree_writeLE 4 hs.vin_lt hs'.vin_lt hrest
  obtain ⟨hprevouts, hrest⟩ := prefixFree_data 32 trivial trivial hrest
  obtain ⟨hsequence, hrest⟩ := prefixFree_data 32 trivial trivial hrest
  obtain ⟨-, hrest⟩ := prefixFree_writeLE 4 hs.vout_lt hs'.vout_lt hrest
  obtain ⟨hdd, hrest⟩ := prefixFree_data 32 trivial trivial hrest
  have hlockTime := prefixFree_uint32.injOn trivial trivial hrest
  exact ⟨hprevouts, hsequence, ⟨d, hd, hdd ▸ hd'⟩, hlockTime⟩

/-- Transactions with the same id are equal, whatever their versions. -/
theorem eq_of_computeHash (hs : tx.Sized)
    (hs' : tx'.Sized) (hfree : NoCollision tx.hashMessages tx'.hashMessages)
    (h : tx.computeHash = .ok d) (h' : tx'.computeHash = .ok d) : tx = tx' := by
  obtain ⟨bytes, hbytes, hd⟩ := computeHash_eq_ok_iff.mp h
  obtain ⟨bytes', hbytes', hd'⟩ := computeHash_eq_ok_iff.mp h'
  obtain rfl : bytes = bytes' :=
    hfree _ (idPreimage_mem hbytes) _ (idPreimage_mem hbytes') (hd.trans hd'.symm)
  have hversion : tx.nVersion = tx'.nVersion := by
    obtain ⟨rest, hrest⟩ := idPreimage_version hbytes
    obtain ⟨rest', hrest'⟩ := idPreimage_version hbytes'
    exact (prefixFree_int32 trivial trivial (hrest.symm.trans hrest')).1
  unfold idPreimage at hbytes hbytes'
  rw [← hversion] at hbytes'
  split_ifs at hbytes hbytes' with hv
  · obtain ⟨hprevouts, hsequence, ⟨d, hd, hd'⟩, hlockTime⟩ :=
      getTransactionHashPreimage_inj hs hs' hbytes hbytes'
    simp only [hashMessages, ← hversion, if_pos hv] at hfree
    have hvin : tx.vin = tx'.vin := by
      refine vin_eq_of_hashes hprevouts hsequence (hfree.mono ?_ ?_) <;>
        exact subset_append_of_subset_right _ (subset_append_left _ _)
    have hvout : tx.vout = tx'.vout := by
      refine vout_eq_of_hash hd hd' (hfree.mono ?_ ?_) <;>
        exact subset_append_of_subset_right _ (subset_append_right _ _)
    exact (CMutableTransaction.mk.injEq ..).mpr ⟨hvin, hvout, hversion, hlockTime⟩
  · exact prefixFree_serialize.injOn hs hs'
      (Except.ok.inj (hbytes.trans hbytes'.symm))

/-- A transaction id commits to the version, the inputs, the outputs and the lock time. -/
theorem computeHash_eq_iff (tx tx' : CMutableTransaction) (hs : tx.Sized) (hs' : tx'.Sized)
    (hparse : tx.OutputsParse) (hparse' : tx'.OutputsParse)
    (hfree : NoCollision tx.hashMessages tx'.hashMessages) :
    tx.computeHash = tx'.computeHash ↔ tx.nVersion = tx'.nVersion ∧ tx.vin = tx'.vin ∧
      tx.vout = tx'.vout ∧ tx.nLockTime = tx'.nLockTime := by
  obtain ⟨d, hd⟩ := hparse.computeHash
  obtain ⟨d', hd'⟩ := hparse'.computeHash
  constructor
  · intro h
    obtain rfl : d = d' := Except.ok.inj (by rw [← hd, h, hd'])
    obtain rfl := eq_of_computeHash hs hs' hfree hd hd'
    exact ⟨rfl, rfl, rfl, rfl⟩
  · rintro ⟨hversion, hvin, hvout, hlockTime⟩
    have htx : tx = tx' :=
      (CMutableTransaction.mk.injEq ..).mpr ⟨hvin, hvout, hversion, hlockTime⟩
    rw [htx]

end CMutableTransaction

end Commitment

section Sample

attribute [local instance] Crypto.toy

/-- A transaction with one input and one output, of a given version. -/
def sampleVersioned (nVersion : Int32) : CMutableTransaction :=
  ⟨[⟨⟨Blob.null, 0⟩, [0x51], 0⟩], [⟨1000, [0x51]⟩], nVersion, 0⟩

theorem sampleVersioned_sized (nVersion : Int32) : (sampleVersioned nVersion).Sized where
  vin_lt := by simp [sampleVersioned]
  vout_lt := by simp [sampleVersioned]
  scriptSig_lt := by simp [sampleVersioned]
  scriptPubKey_lt := by simp [sampleVersioned]

/-- The ids of the sample in versions 3 and 2 differ. -/
theorem computeHash_eq_iff_sample :
    NoCollision (sampleVersioned 3).hashMessages (sampleVersioned 2).hashMessages ∧
      (sampleVersioned 3).computeHash ≠ (sampleVersioned 2).computeHash := by
  have hfree : NoCollision (sampleVersioned 3).hashMessages (sampleVersioned 2).hashMessages := by
    decide +kernel
  refine ⟨hfree, fun h => ?_⟩
  have hfields := (CMutableTransaction.computeHash_eq_iff _ _ (sampleVersioned_sized 3)
    (sampleVersioned_sized 2) (by decide +kernel) (by decide +kernel) hfree).mp h
  exact absurd hfields.1 (by decide)

end Sample

end RadiantCore
