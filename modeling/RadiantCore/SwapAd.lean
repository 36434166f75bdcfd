import RadiantCore.CoinbaseHeight
import RadiantCore.StateSeparator
import RadiantCore.SwapRecord

/-!
# Swap advertisements

A swap is advertised by an output that begins with `OP_RETURN` and the protocol identifier `RSWP`.
`SwapIndex::WriteBlock` parses the fields that follow (`parseAd`), in the format of version 2 or in
the legacy format. A field that is missing or of the wrong size makes it skip the output. The index
of the offered output is decoded as a script number, and when that throws, as a small integer.

`ProcessDisconnectedBlock` parses advertisements again, with fewer checks (`matchAd`).
-/

namespace RadiantCore

open List Opcode CScriptNum

/-! ## Fields -/

/-- How the parser ends without an offer. -/
inductive AdEnd
  /-- `continue` : the output is skipped. -/
  | skip
  /-- A failed `assert`. -/
  | abort (what : String)
deriving DecidableEq

/-- A parser that reads the operations of a script. -/
abbrev AdReader := StateT CScript (Except AdEnd)

namespace AdReader

/-- `if (!scriptPubKey.GetOp(it, opcode, data)) continue`. -/
def getOp : AdReader ScriptOp := fun it =>
  match getScriptOp it with
  | some op => .ok (op, op.pc)
  | none => .error .skip

/-- A field of one byte. -/
def byte : AdReader UInt8 := do
  let op ← getOp
  match op.vch with
  | [b] => pure b
  | _ => throw .skip

/-- A field of 32 bytes. -/
def hash : AdReader Uint256 := do
  let op ← getOp
  match Blob.ofVch op.vch with
  | some b => pure b
  | none => throw .skip

/-- `OP_RETURN` and the protocol identifier. -/
def protocol : AdReader Unit := do
  let _ ← getOp
  let op ← getOp
  if op.vch = [0x52, 0x53, 0x57, 0x50] then pure () else throw .skip

end AdReader

/-- `CScriptNum::getint32`. -/
def CScriptNum.getint32 (value : ℤ) : Int32 :=
  if value > 2 ^ 31 - 1 then Int32.maxValue
  else if value < -2 ^ 31 then Int32.minValue
  else Int32.ofInt value

/-- `CScript::DecodeOP_N`. -/
def decodeOpN (opcode : UInt8) : Except AdEnd ℕ :=
  if opcode = OP_0 then .ok 0
  else if OP_1.toByte ≤ opcode ∧ opcode ≤ OP_16 then .ok (opcode.toNat - (OP_1.toByte.toNat - 1))
  else .error (.abort "opcode >= OP_1 && opcode <= OP_16")

/-- The index of the offered output, from the operation that pushes it. -/
def decodeIndex (op : ScriptOp) : Except AdEnd UInt32 :=
  match fromBytes op.vch false 4 with
  | .ok n => .ok (getint32 n).toUInt32
  | .error _ =>
    if op.opcode ≤ OP_16 then do
      let n ← decodeOpN op.opcode
      return UInt32.ofNat n
    else .error .skip

/-- The wanted token, null when the flags do not announce it. -/
def AdReader.want (flags : UInt8) : AdReader Uint256 :=
  if flags &&& 1 ≠ 0 then hash else pure Blob.null

/-- The field with the index. -/
def AdReader.index : AdReader UInt32 := do
  let op ← getOp
  decodeIndex op

/-! ## Parsing -/

/-- The fields of version 2 before the index. -/
def parseFieldsV2 (offer : SwapOffer) : AdReader SwapOffer := do
  let flags ← AdReader.byte
  let offeredType ← AdReader.byte
  let termsType ← AdReader.byte
  let tokenID ← AdReader.hash
  let wantTokenID ← AdReader.want flags
  let offeredUTXOHash ← AdReader.hash
  return { offer with
    flags := flags
    offeredType := offeredType
    termsType := termsType
    tokenID := tokenID
    wantTokenID := wantTokenID
    offeredUTXOHash := offeredUTXOHash }

/-- The fields of the legacy format before the index. Its type is read and not kept. -/
def parseFieldsV1 (offer : SwapOffer) : AdReader SwapOffer := do
  let _ ← AdReader.byte
  let tokenID ← AdReader.hash
  let offeredUTXOHash ← AdReader.hash
  return { offer with tokenID := tokenID, offeredUTXOHash := offeredUTXOHash }

/-- The fields before the index. -/
def parseFields : AdReader SwapOffer := do
  AdReader.protocol
  let version ← AdReader.byte
  let offer : SwapOffer := ⟨version, 0, 0, 0, Blob.null, Blob.null, Blob.null, 0, [], [], 0⟩
  if version = 2 then parseFieldsV2 offer else parseFieldsV1 offer

/-- The pushes at the end of an advertisement of version 2, read until the script ends or cannot be
read. Another operation discards them all. -/
def readTail (tail : List (List UInt8)) : List (Option ScriptOp) → List (List UInt8)
  | some op :: ops => if op.opcode > OP_PUSHDATA4 then [] else readTail (tail ++ [op.vch]) ops
  | _ => tail

/-- The price terms and the signature of version 2 : the last push is the signature, and the terms
are those before it. -/
def parseTermsV2 : AdReader (List UInt8 × List UInt8) := fun it =>
  let tail := readTail [] (scriptOps it)
  if tail.length < 2 then .error .skip
  else .ok ((tail.dropLast.flatten, tail.getLastD []), [])

/-- The price terms and the signature of the legacy format. -/
def parseTermsV1 : AdReader (List UInt8 × List UInt8) := do
  let priceTerms ← AdReader.getOp
  let signature ← AdReader.getOp
  return (priceTerms.vch, signature.vch)

/-- The price terms and the signature. -/
def parseTerms (version : UInt8) : AdReader (List UInt8 × List UInt8) :=
  if version = 2 then parseTermsV2 else parseTermsV1

/-- The offer of an advertisement. -/
def parseAd (nHeight : Int32) : AdReader SwapOffer := do
  let offer ← parseFields
  let index ← AdReader.index
  let (priceTerms, signature) ← parseTerms offer.version
  return { offer with
    offeredUTXOIndex := index
    priceTerms := priceTerms
    signature := signature
    blockHeight := nHeight }

/-- What `WriteBlock` does with an output : the offer it stores, or `none` when it goes on to the
next output. -/
def swapOffer? (nHeight : Int32) (scriptPubKey : CScript) : Except Failure (Option SwapOffer) :=
  if scriptPubKey.head? ≠ some OP_RETURN.toByte then .ok none
  else
    match parseAd nHeight scriptPubKey with
    | .ok (offer, _) => .ok (some offer)
    | .error .skip => .ok none
    | .error (.abort what) => .error (.abort what)

/-! ## Matching -/

/-- The first byte of a field, zero for an empty one. -/
def AdReader.firstByte : AdReader UInt8 := do
  let op ← getOp
  return op.vch.headD 0

/-- The wanted token is passed over, when the flags announce it. -/
def AdReader.skipWant (flags : UInt8) : AdReader Unit :=
  if flags &&& 1 ≠ 0 then do
    let _ ← getOp
  else pure ()

/-- The fields of version 2 up to the transaction that is matched. -/
def parseMatchV2 : AdReader (Uint256 × Uint256) := do
  let flags ← AdReader.firstByte
  let _ ← AdReader.getOp
  let _ ← AdReader.getOp
  let tokenID ← AdReader.hash
  AdReader.skipWant flags
  let utxoHash ← AdReader.hash
  return (tokenID, utxoHash)

/-- The token and the transaction an advertisement is about, as `ProcessDisconnectedBlock` reads
them. -/
def parseMatch : AdReader (Uint256 × Uint256) := do
  AdReader.protocol
  let version ← AdReader.firstByte
  if version = 2 then parseMatchV2 else throw .skip

/-- The same, for an output. -/
def matchAd (scriptPubKey : CScript) : Option (Uint256 × Uint256) :=
  if scriptPubKey.head? ≠ some OP_RETURN.toByte then none
  else (parseMatch scriptPubKey).toOption.map Prod.fst

/-! ## What the parser returns -/

namespace AdReader

variable {it it' : CScript}

theorem getOp_eq_ok_iff {op : ScriptOp} :
    getOp it = .ok (op, it') ↔ getScriptOp it = some op ∧ op.pc = it' := by
  unfold getOp
  cases getScriptOp it with
  | none => simp
  | some op' =>
    simp only [Except.ok.injEq, Prod.mk.injEq, Option.some.injEq]
    constructor
    · rintro ⟨rfl, rfl⟩
      exact ⟨rfl, rfl⟩
    · rintro ⟨rfl, rfl⟩
      exact ⟨rfl, rfl⟩

variable {b : UInt8}

theorem byte_eq_ok_iff :
    byte it = .ok (b, it') ↔ ∃ op, getOp it = .ok (op, it') ∧ op.vch = [b] := by
  rw [byte, stateT_bind_eq_ok_iff]
  constructor
  · rintro ⟨op, t, hop, h⟩
    rcases hvch : op.vch with _ | ⟨b', _ | ⟨c, bs⟩⟩
    · rw [hvch] at h
      cases h
    · rw [hvch] at h
      obtain ⟨rfl, rfl⟩ := stateT_pure_eq_ok_iff.mp h
      exact ⟨op, hop, hvch⟩
    · rw [hvch] at h
      cases h
  · rintro ⟨op, hop, hvch⟩
    refine ⟨op, it', hop, ?_⟩
    simp only [hvch]
    rfl

theorem hash_eq_ok_iff {b : Uint256} :
    hash it = .ok (b, it') ↔ ∃ op, getOp it = .ok (op, it') ∧ op.vch = b.data := by
  rw [hash, stateT_bind_eq_ok_iff]
  constructor
  · rintro ⟨op, t, hop, h⟩
    cases hvch : (Blob.ofVch op.vch : Option Uint256) with
    | none =>
      rw [hvch] at h
      cases h
    | some b' =>
      rw [hvch] at h
      obtain ⟨rfl, rfl⟩ := stateT_pure_eq_ok_iff.mp h
      exact ⟨op, hop, Blob.ofVch_eq_some_iff.mp hvch⟩
  · rintro ⟨op, hop, hvch⟩
    refine ⟨op, it', hop, ?_⟩
    simp only [hvch, Blob.ofVch_data]
    rfl

theorem index_eq_ok_iff {n : UInt32} :
    index it = .ok (n, it') ↔ ∃ op, getOp it = .ok (op, it') ∧ decodeIndex op = .ok n := by
  rw [index, stateT_bind_eq_ok_iff]
  have hlift : ∀ op t, (liftM (decodeIndex op) : AdReader UInt32) t =
      decodeIndex op >>= fun n => .ok (n, t) := fun _ _ => rfl
  simp only [hlift, bind_eq_ok_iff, Except.ok.injEq, Prod.mk.injEq]
  constructor
  · rintro ⟨op, t, hop, n', hn, rfl, rfl⟩
    exact ⟨op, hop, hn⟩
  · rintro ⟨op, hop, hn⟩
    exact ⟨op, it', hop, n, hn, rfl, rfl⟩

theorem firstByte_of_byte (h : byte it = .ok (b, it')) :
    firstByte it = .ok (b, it') := by
  obtain ⟨op, hop, hvch⟩ := byte_eq_ok_iff.mp h
  refine stateT_bind_eq_ok_iff.mpr ⟨op, it', hop, stateT_pure_eq_ok_iff.mpr ⟨?_, rfl⟩⟩
  rw [hvch, headD_cons]

theorem skipWant_of_want {flags : UInt8} {b : Uint256} (h : want flags it = .ok (b, it')) :
    skipWant flags it = .ok ((), it') := by
  unfold want at h
  unfold skipWant
  split_ifs at h ⊢ with hflag
  · obtain ⟨op, hop, -⟩ := hash_eq_ok_iff.mp h
    exact stateT_bind_eq_ok_iff.mpr ⟨op, it', hop, rfl⟩
  · obtain ⟨-, rfl⟩ := stateT_pure_eq_ok_iff.mp h
    rfl

end AdReader

section Fields

variable {it it' : CScript} {offer offer' : SwapOffer}

theorem parseFields_eq_ok (h : parseFields it = .ok (offer', it')) :
    ∃ t version t', AdReader.protocol it = .ok ((), t) ∧ AdReader.byte t = .ok (version, t') ∧
      (if version = 2 then parseFieldsV2 else parseFieldsV1)
        ⟨version, 0, 0, 0, Blob.null, Blob.null, Blob.null, 0, [], [], 0⟩ t' = .ok (offer', it') := by
  obtain ⟨_, t, hprotocol, h⟩ := stateT_bind_eq_ok_iff.mp h
  obtain ⟨version, t', hversion, h⟩ := stateT_bind_eq_ok_iff.mp h
  refine ⟨t, version, t', hprotocol, hversion, ?_⟩
  split_ifs at h ⊢ with hv
  · exact h
  · exact h

theorem parseFieldsV1_eq_ok (h : parseFieldsV1 offer it = .ok (offer', it')) :
    offer'.version = offer.version ∧ offer'.wantTokenID = offer.wantTokenID := by
  simp only [parseFieldsV1, stateT_bind_eq_ok_iff, stateT_pure_eq_ok_iff] at h
  obtain ⟨_, _, -, _, _, -, _, _, -, rfl, -⟩ := h
  exact ⟨rfl, rfl⟩

theorem parseFieldsV2_version (h : parseFieldsV2 offer it = .ok (offer', it')) :
    offer'.version = offer.version := by
  simp only [parseFieldsV2, stateT_bind_eq_ok_iff, stateT_pure_eq_ok_iff] at h
  obtain ⟨_, _, -, _, _, -, _, _, -, _, _, -, _, _, -, _, _, -, rfl, -⟩ := h
  rfl

/-- `ProcessDisconnectedBlock` reads the fields of version 2 as `WriteBlock` does. -/
theorem parseMatch_of_fields (h : parseFields it = .ok (offer, it')) (hversion : offer.version = 2) :
    parseMatch it = .ok ((offer.tokenID, offer.offeredUTXOHash), it') := by
  obtain ⟨t, version, t', hprotocol, hbyte, h⟩ := parseFields_eq_ok h
  by_cases hv : version = 2
  · rw [if_pos hv] at h
    simp only [parseFieldsV2, stateT_bind_eq_ok_iff, stateT_pure_eq_ok_iff] at h
    obtain ⟨flags, t₁, hflags, _, t₂, hoffered, _, t₃, hterms, tokenID, t₄, htoken, want, t₅, hwant,
      utxoHash, t₆, hhash, rfl, rfl⟩ := h
    obtain ⟨op₁, hop₁, -⟩ := AdReader.byte_eq_ok_iff.mp hoffered
    obtain ⟨op₂, hop₂, -⟩ := AdReader.byte_eq_ok_iff.mp hterms
    have hversion := AdReader.firstByte_of_byte hbyte
    simp only [parseMatch, stateT_bind_eq_ok_iff]
    refine ⟨(), t, hprotocol, version, t', hversion, ?_⟩
    rw [if_pos hv]
    simp only [parseMatchV2, stateT_bind_eq_ok_iff, stateT_pure_eq_ok_iff]
    exact ⟨flags, t₁, AdReader.firstByte_of_byte hflags, op₁, t₂, hop₁, op₂, t₃, hop₂, tokenID, t₄,
      htoken, (), t₅, AdReader.skipWant_of_want hwant, utxoHash, t₆, hhash, rfl, rfl⟩
  · rw [if_neg hv] at h
    exact absurd ((parseFieldsV1_eq_ok h).1.symm.trans hversion) hv

end Fields

/-! ## Where the parser ends -/

/-- The reader goes forward in the script, and when it ends, the output is skipped. -/
structure AdReader.Forward {α : Type} (r : AdReader α) : Prop where
  le : ∀ {it a it'}, r it = .ok (a, it') → it'.length ≤ it.length
  skips : ∀ {it e}, r it = .error e → e = .skip

namespace AdReader

variable {α β : Type}

theorem Forward.pure (a : α) : Forward (Pure.pure a) where
  le h := by
    obtain ⟨-, rfl⟩ := stateT_pure_eq_ok_iff.mp h
    exact le_rfl
  skips h := by cases h

theorem Forward.throw : Forward (throw .skip : AdReader α) where
  le h := by cases h
  skips h := by
    cases h
    rfl

variable {r : AdReader α}

theorem Forward.bind {f : α → AdReader β} (hr : Forward r)
    (hf : ∀ a, Forward (f a)) : Forward (r >>= f) where
  le h := by
    obtain ⟨a, t, hra, hfa⟩ := stateT_bind_eq_ok_iff.mp h
    exact ((hf a).le hfa).trans (hr.le hra)
  skips {it e} h := by
    change (r it >>= fun p => f p.1 p.2) = _ at h
    cases hra : r it with
    | error e' =>
      rw [hra, error_bind] at h
      cases h
      exact hr.skips hra
    | ok p =>
      rw [hra, ok_bind] at h
      exact (hf p.1).skips h

theorem Forward.ite {c : Prop} [Decidable c] {r' : AdReader α} (hr : Forward r)
    (hr' : Forward r') : Forward (if c then r else r') := by
  split_ifs
  · exact hr
  · exact hr'

theorem getOp_forward : Forward getOp where
  le h := by
    obtain ⟨hop, rfl⟩ := getOp_eq_ok_iff.mp h
    have hlt := getScriptOp_length_lt hop
    omega
  skips {it e} h := by
    unfold getOp at h
    split at h
    · cases h
    · cases h
      rfl

theorem byte_forward : Forward byte := by
  refine getOp_forward.bind fun op => ?_
  split
  · exact .pure _
  · exact .throw

theorem hash_forward : Forward hash := by
  refine getOp_forward.bind fun op => ?_
  split
  · exact .pure _
  · exact .throw

theorem protocol_forward : Forward protocol :=
  getOp_forward.bind fun _ => getOp_forward.bind fun _ => .ite (.pure _) .throw

theorem want_forward (flags : UInt8) : Forward (want flags) := hash_forward.ite (.pure _)

end AdReader

open AdReader in
theorem parseFields_forward : Forward parseFields :=
  protocol_forward.bind fun _ => byte_forward.bind fun _ =>
    .ite
      (byte_forward.bind fun _ => byte_forward.bind fun _ => byte_forward.bind fun _ =>
        hash_forward.bind fun _ => (want_forward _).bind fun _ => hash_forward.bind fun _ =>
        .pure _)
      (byte_forward.bind fun _ => hash_forward.bind fun _ => hash_forward.bind fun _ => .pure _)

theorem length_readTail_le (tail : List (List UInt8)) (it : CScript) :
    (readTail tail (scriptOps it)).flatten.length ≤ tail.flatten.length + it.length := by
  induction hn : it.length using Nat.strong_induction_on generalizing tail it with
  | _ n ih =>
    subst hn
    cases it with
    | nil => exact le_rfl
    | cons b it =>
      cases hop : getScriptOp (b :: it) with
      | none =>
        rw [scriptOps_of_none hop]
        exact Nat.le_add_right _ _
      | some op =>
        have hlt := getScriptOp_length_lt hop
        have hrest := ih _ (by omega) (tail ++ [op.vch]) op.pc rfl
        rw [flatten_append, length_append, flatten_singleton] at hrest
        rw [scriptOps_of_some hop, readTail]
        split_ifs
        · exact Nat.zero_le _
        · omega

variable {version : UInt8} {it it' : CScript}

/-- The terms and the signature are parts of the script. -/
theorem parseTerms_le {terms : List UInt8 × List UInt8}
    (h : parseTerms version it = .ok (terms, it')) :
    terms.1.length ≤ it.length ∧ terms.2.length ≤ it.length := by
  unfold parseTerms at h
  split_ifs at h with hversion
  · have hle := length_readTail_le [] it
    rw [flatten_nil, length_nil, zero_add] at hle
    unfold parseTermsV2 at h
    generalize readTail [] (scriptOps it) = tail at h hle
    dsimp only at h
    split_ifs at h with hshort
    obtain ⟨rfl, -⟩ := Prod.mk.inj (Except.ok.inj h)
    have hne : tail ≠ [] := by
      rintro rfl
      exact hshort (by decide)
    rw [← dropLast_append_getLast hne, flatten_append, length_append,
      flatten_singleton] at hle
    rw [getLastD_eq_getLast?, List.getLast?_eq_some_getLast hne]
    dsimp only [Option.getD_some]
    omega
  · simp only [parseTermsV1, stateT_bind_eq_ok_iff, stateT_pure_eq_ok_iff,
      AdReader.getOp_eq_ok_iff] at h
    obtain ⟨op, _, ⟨hop, rfl⟩, op', _, ⟨hop', rfl⟩, rfl, -⟩ := h
    have hlt := getScriptOp_length_lt hop
    have hlt' := getScriptOp_length_lt hop'
    dsimp only
    omega

theorem parseTerms_skips {e : AdEnd} (h : parseTerms version it = .error e) : e = .skip := by
  unfold parseTerms at h
  split_ifs at h with hversion
  · unfold parseTermsV2 at h
    dsimp only at h
    split_ifs at h
    cases h
    rfl
  · exact (AdReader.getOp_forward.bind fun _ => AdReader.getOp_forward.bind fun _ => .pure _).skips h

theorem parseAd_eq_ok {nHeight : Int32} {offer : SwapOffer}
    (h : parseAd nHeight it = .ok (offer, it')) : ∃ fields t index t' terms,
      parseFields it = .ok (fields, t) ∧ AdReader.index t = .ok (index, t') ∧
      parseTerms fields.version t' = .ok (terms, it') ∧
      offer = { fields with
        offeredUTXOIndex := index
        priceTerms := terms.1
        signature := terms.2
        blockHeight := nHeight } := by
  simp only [parseAd, stateT_bind_eq_ok_iff, stateT_pure_eq_ok_iff] at h
  obtain ⟨fields, t, hfields, index, t', hindex, terms, t'', hterms, rfl, rfl⟩ := h
  exact ⟨fields, t, index, t', terms, hfields, hindex, hterms, rfl⟩

/-! ## The offers of a script -/

section Offer

variable {nHeight : Int32} {script : CScript} {offer : SwapOffer}

section

variable (h : swapOffer? nHeight script = .ok (some offer))

include h

theorem swapOffer?_eq_some :
    script.head? = some OP_RETURN.toByte ∧ ∃ it, parseAd nHeight script = .ok (offer, it) := by
  unfold swapOffer? at h
  split_ifs at h with hhead
  · cases h
  · refine ⟨not_not.mp hhead, ?_⟩
    split at h
    · rename_i offer' it hparse
      cases h
      exact ⟨it, hparse⟩
    · cases h
    · cases h

/-- An offer that names a wanted token is found again by `ProcessDisconnectedBlock`. -/
theorem matchAd_swapOffer? :
    matchAd script = some (offer.tokenID, offer.offeredUTXOHash) ∨
      offer.wantTokenID = Blob.null := by
  obtain ⟨hhead, it, hparse⟩ := swapOffer?_eq_some h
  obtain ⟨fields, t, _, _, _, hfields, -, -, rfl⟩ := parseAd_eq_ok hparse
  by_cases hversion : fields.version = 2
  · left
    rw [matchAd, if_neg (not_not.mpr hhead), parseMatch_of_fields hfields hversion]
    rfl
  · right
    obtain ⟨_, version, _, -, -, hrest⟩ := parseFields_eq_ok hfields
    split_ifs at hrest with hv
    · exact absurd ((parseFieldsV2_version hrest).trans hv) hversion
    · exact (parseFieldsV1_eq_ok hrest).2

/-- An offer of a script that could be read can be read back. -/
theorem readable_swapOffer? (hscript : script.length ≤ maxSize) : offer.Readable := by
  obtain ⟨-, it, hparse⟩ := swapOffer?_eq_some h
  obtain ⟨fields, t, index, t', terms, hfields, hindex, hterms, rfl⟩ := parseAd_eq_ok hparse
  have hle := parseFields_forward.le hfields
  obtain ⟨op, hop, -⟩ := AdReader.index_eq_ok_iff.mp hindex
  have hle' := AdReader.getOp_forward.le hop
  obtain ⟨hterms, hsig⟩ := parseTerms_le hterms
  exact ⟨hterms.trans (by omega), hsig.trans (by omega)⟩

end

/-- The operation that pushes the index, in a script with the fields before it. -/
def indexOp? (script : CScript) : Option ScriptOp :=
  if script.head? ≠ some OP_RETURN.toByte then none
  else (parseFields script).toOption.bind fun p => getScriptOp p.2

/-- The index is pushed as more than four bytes. -/
def LongIndex (script : CScript) : Prop :=
  ∃ op ∈ indexOp? script, op.opcode ≤ OP_PUSHDATA4 ∧ 4 < op.vch.length

instance : Decidable (LongIndex script) := inferInstanceAs (Decidable (∃ op ∈ indexOp? script, _))

variable {it : CScript} {op : ScriptOp}

/-- An operation with an operand is a push of at least a byte, or names a reference. -/
theorem opcode_of_vch_ne_nil (h : getScriptOp it = some op) (hne : op.vch ≠ []) :
    op.opcode ≠ OP_0 ∧ (op.opcode ≤ OP_PUSHDATA4 ∨ isRefOp op.opcode = true) := by
  cases it with
  | nil => cases h
  | cons opcode pc =>
    obtain ⟨n, rest, hoperand, -, rfl, hvch, -⟩ := getScriptOp_cons_iff.mp h
    have hn : n ≠ 0 := by
      rintro rfl
      exact hne hvch.symm
    unfold operandAt at hoperand
    split_ifs at hoperand with hpush href
    · refine ⟨fun hzero => ?_, Or.inl hpush⟩
      rw [hzero] at hoperand
      exact hn (congrArg Prod.fst (Option.some.inj hoperand)).symm
    · exact ⟨fun hzero => hpush (hzero ▸ by decide), Or.inr href⟩
    · exact absurd (congrArg Prod.fst (Option.some.inj hoperand)).symm hn

theorem fromBytes_four (vch : List UInt8) : fromBytes vch false 4 =
    if vch.length ≤ 4 then .ok (setVch vch)
    else .error (.exception "script number overflow") := by
  unfold fromBytes
  rw [require_pos (by decide)]
  split_ifs with hlen
  · rw [require_pos hlen, require_pos (by simp)]
    rfl
  · rw [require_neg hlen]
    rfl

/-- A push of more than four bytes is no script number, and `DecodeOP_N` fails on its opcode. -/
theorem decodeIndex_eq_abort_iff (h : getScriptOp it = some op) :
    (∃ what, decodeIndex op = .error (.abort what)) ↔
      op.opcode ≤ OP_PUSHDATA4 ∧ 4 < op.vch.length := by
  unfold decodeIndex
  rw [fromBytes_four]
  by_cases hlen : op.vch.length ≤ 4
  · rw [if_pos hlen]
    simp only [reduceCtorEq, exists_false, false_iff, not_and, not_lt]
    exact fun _ => hlen
  · rw [if_neg hlen]
    have hne : op.vch ≠ [] := by
      rintro hnil
      rw [hnil] at hlen
      exact hlen (by decide)
    obtain ⟨hzero, hpush | href⟩ := opcode_of_vch_ne_nil h hne
    · have hle : op.opcode ≤ OP_16 := UInt8.le_trans hpush (by decide)
      have hsmall : ¬ (OP_1.toByte ≤ op.opcode ∧ op.opcode ≤ OP_16) := fun hrange =>
        absurd (UInt8.le_trans hrange.1 hpush) (by decide)
      simp only [if_pos hle, decodeOpN, if_neg hzero, if_neg hsmall, error_bind]
      exact iff_of_true ⟨_, rfl⟩ ⟨hpush, not_le.mp hlen⟩
    · have hnot : ¬ op.opcode ≤ OP_PUSHDATA4 := fun hle => isRefOp_of_le hle href
      have hbig : ¬ op.opcode ≤ OP_16 := by
        simp only [isRefOp, decide_eq_true_eq] at href
        rcases href with hop | hop | hop | hop | hop <;> rw [hop] <;> decide
      simp only [if_neg hbig, Except.error.injEq, reduceCtorEq, exists_false, false_iff, not_and]
      exact fun hle => absurd hle hnot

theorem index_of_getScriptOp (h : getScriptOp it = some op) :
    AdReader.index it = decodeIndex op >>= fun n => .ok (n, op.pc) := by
  change (AdReader.getOp it >>= fun p => _) = _
  rw [AdReader.getOp_eq_ok_iff.mpr ⟨h, rfl⟩, ok_bind]
  rfl

theorem parseAd_eq_abort_iff : (∃ what, parseAd nHeight script = .error (.abort what)) ↔
    ∃ fields it op, parseFields script = .ok (fields, it) ∧ getScriptOp it = some op ∧
      op.opcode ≤ OP_PUSHDATA4 ∧ 4 < op.vch.length := by
  have hbind : parseAd nHeight script = parseFields script >>= fun p => AdReader.index p.2 >>=
      fun q => parseTerms p.1.version q.2 >>= fun r => .ok ({ p.1 with
        offeredUTXOIndex := q.1
        priceTerms := r.1.1
        signature := r.1.2
        blockHeight := nHeight }, r.2) := rfl
  rw [hbind]
  cases hfields : parseFields script with
  | error e =>
    obtain rfl := parseFields_forward.skips hfields
    simp
  | ok p =>
    obtain ⟨fields, it⟩ := p
    simp only [ok_bind, Except.ok.injEq, Prod.mk.injEq, exists_and_left, ↓existsAndEq,
      true_and]
    cases hop : getScriptOp it with
    | none =>
      have hindex : AdReader.index it = .error .skip := by
        change (AdReader.getOp it >>= fun p => _) = _
        rw [AdReader.getOp, hop]
        rfl
      simp [hindex]
    | some op =>
      rw [index_of_getScriptOp hop]
      simp only [Option.some.injEq, exists_eq_left']
      rw [← decodeIndex_eq_abort_iff hop]
      cases hdecode : decodeIndex op with
      | error e => simp
      | ok n =>
        simp only [ok_bind, reduceCtorEq, exists_false, iff_false, not_exists]
        intro what h
        cases hterms : parseTerms fields.version op.pc with
        | error e =>
          obtain rfl := parseTerms_skips hterms
          simp [hterms] at h
        | ok r => simp [hterms] at h

/-- The node aborts at an advertisement whose index is too long for a number, and only there. -/
theorem swapOffer?_isOk_iff : (∃ offer?, swapOffer? nHeight script = .ok offer?) ↔
    ¬ LongIndex script := by
  have habort := @parseAd_eq_abort_iff nHeight script
  have hlong : script.head? = some OP_RETURN.toByte → (LongIndex script ↔
      ∃ fields it op, parseFields script = .ok (fields, it) ∧ getScriptOp it = some op ∧
        op.opcode ≤ OP_PUSHDATA4 ∧ 4 < op.vch.length) := by
    intro hhead
    rw [LongIndex, indexOp?, if_neg (not_not.mpr hhead)]
    cases parseFields script with
    | error e => simp [Except.toOption]
    | ok p => simp [Except.toOption, Prod.ext_iff]
  unfold swapOffer?
  split_ifs with hhead
  · simp [LongIndex, indexOp?, hhead]
  · rw [hlong (not_not.mp hhead), ← habort]
    split
    · rename_i hparse
      simp [hparse]
    · rename_i hparse
      simp [hparse]
    · rename_i hparse
      simp [hparse]

end Offer

/-! ## Well-formed advertisements -/

/-- The bytes are an operation that pushes the data. -/
def IsPush (push data : List UInt8) : Prop :=
  ∃ op ∈ getScriptOp push, op.opcode ≤ OP_PUSHDATA4 ∧ op.vch = data ∧ op.pc = []

instance {push data : List UInt8} : Decidable (IsPush push data) :=
  inferInstanceAs (Decidable (∃ op ∈ getScriptOp push, _))

variable {data : List UInt8}

/-- An operation is read the same whatever follows. -/
theorem IsPush.append {push : List UInt8} (h : IsPush push data) (rest : CScript) :
    ∃ op, getScriptOp (push ++ rest) = some op ∧ op.opcode ≤ OP_PUSHDATA4 ∧ op.vch = data ∧
      op.pc = rest := by
  obtain ⟨op, hop, hle, hvch, hpc⟩ := h
  obtain ⟨c, hc, hread⟩ := getScriptOp_consumed hop
  rw [hpc, append_nil] at hc
  exact ⟨op.withRest rest, hc ▸ hread rest, hle, hvch, rfl⟩

namespace AdReader

theorem getOp_reads {push data : List UInt8} (h : IsPush push data) (rest : CScript) :
    ∃ op, getOp (push ++ rest) = .ok (op, rest) ∧ op.vch = data := by
  obtain ⟨op, hop, -, hvch, hpc⟩ := h.append rest
  exact ⟨op, getOp_eq_ok_iff.mpr ⟨hop, hpc⟩, hvch⟩

theorem byte_reads {push : List UInt8} {b : UInt8} (h : IsPush push [b]) : Reads byte push b :=
  fun rest => byte_eq_ok_iff.mpr (getOp_reads h rest)

variable {b : Uint256}

theorem hash_reads {push : List UInt8} (h : IsPush push b.data) :
    Reads hash push b := fun rest => hash_eq_ok_iff.mpr (getOp_reads h rest)

theorem want_reads {push : List UInt8} {flags : UInt8}
    (h : if flags &&& 1 ≠ 0 then IsPush push b.data else push = []) :
    ∃ wantTokenID, Reads (want flags) push wantTokenID := by
  unfold want
  split_ifs at h ⊢ with hflag
  · exact ⟨b, hash_reads h⟩
  · rw [h]
    exact ⟨Blob.null, Reads.pure _⟩

theorem protocol_reads {push : List UInt8} (h : IsPush push [0x52, 0x53, 0x57, 0x50]) :
    Reads protocol (OP_RETURN.toByte :: push) () := by
  intro rest
  obtain ⟨op, hop, hvch⟩ := getOp_reads h rest
  have hreturn : getScriptOp (OP_RETURN.toByte :: (push ++ rest)) =
      some ⟨OP_RETURN.toByte, [], push ++ rest, by decide⟩ := rfl
  refine stateT_bind_eq_ok_iff.mpr ⟨_, _, getOp_eq_ok_iff.mpr ⟨hreturn, rfl⟩, ?_⟩
  refine stateT_bind_eq_ok_iff.mpr ⟨op, rest, hop, ?_⟩
  rw [if_pos hvch]
  rfl

end AdReader

/-- The scripts of well-formed advertisements of an offered output, with the bytes that push its
index. -/
inductive IsAd (tokenID offeredUTXOHash : Uint256) (index : List UInt8) : CScript → Prop
  | v1 {protocol version type token hash terms signature : List UInt8} {versionByte typeByte : UInt8}
      {termsData signatureData : List UInt8} :
      IsPush protocol [0x52, 0x53, 0x57, 0x50] →
      IsPush version [versionByte] → versionByte ≠ 2 →
      IsPush type [typeByte] →
      IsPush token tokenID.data →
      IsPush hash offeredUTXOHash.data →
      IsPush terms termsData →
      IsPush signature signatureData →
      IsAd tokenID offeredUTXOHash index
        (OP_RETURN.toByte :: (protocol ++ (version ++ (type ++ (token ++ (hash ++ (index ++
          (terms ++ signature))))))))
  | v2 {protocol version flags offeredType termsType token want hash : List UInt8}
      {flagsByte offeredByte termsByte : UInt8} {wantTokenID : Uint256} {tail : List (List UInt8)} :
      IsPush protocol [0x52, 0x53, 0x57, 0x50] →
      IsPush version [2] →
      IsPush flags [flagsByte] →
      IsPush offeredType [offeredByte] →
      IsPush termsType [termsByte] →
      IsPush token tokenID.data →
      (if flagsByte &&& 1 ≠ 0 then IsPush want wantTokenID.data else want = []) →
      IsPush hash offeredUTXOHash.data →
      2 ≤ tail.length → (∀ push ∈ tail, ∃ data, IsPush push data) →
      IsAd tokenID offeredUTXOHash index
        (OP_RETURN.toByte :: (protocol ++ (version ++ (flags ++ (offeredType ++ (termsType ++
          (token ++ (want ++ (hash ++ (index ++ tail.flatten))))))))))

/-- The pushes at the end are all read. -/
theorem length_readTail {pushes : List (List UInt8)} (h : ∀ push ∈ pushes, ∃ data, IsPush push data)
    (tail : List (List UInt8)) :
    (readTail tail (scriptOps pushes.flatten)).length = tail.length + pushes.length := by
  induction pushes generalizing tail with
  | nil => rfl
  | cons push pushes ih =>
    obtain ⟨⟨data, hpush⟩, hpushes⟩ := List.forall_mem_cons.mp h
    obtain ⟨op, hop, hle, -, hpc⟩ := hpush.append pushes.flatten
    rw [flatten_cons, scriptOps_of_some hop, readTail, if_neg (UInt8.not_lt.mpr hle), hpc,
      ih hpushes, length_append, length_cons, length_cons, length_nil]
    omega

section Parse

variable {tokenID offeredUTXOHash : Uint256} {index : List UInt8} {n : UInt32} {script : CScript}

theorem swapOffer?_of_parse {nHeight : Int32} {fields : SwapOffer}
    {terms : List UInt8 × List UInt8} {it it' : CScript}
    (hhead : script.head? = some OP_RETURN.toByte)
    (hfields : parseFields script = .ok (fields, index ++ it)) (hindex : Reads AdReader.index index n)
    (hterms : parseTerms fields.version it = .ok (terms, it')) :
    ∃ offer, swapOffer? nHeight script = .ok (some offer) ∧
      offer.slot = ⟨fields.tokenID, ⟨fields.offeredUTXOHash, n⟩⟩ := by
  have hparse : ∃ offer, parseAd nHeight script = .ok (offer, it') ∧
      offer.slot = ⟨fields.tokenID, ⟨fields.offeredUTXOHash, n⟩⟩ := by
    refine ⟨_, stateT_bind_eq_ok_iff.mpr ⟨fields, _, hfields, stateT_bind_eq_ok_iff.mpr
      ⟨n, it, hindex it, stateT_bind_eq_ok_iff.mpr ⟨terms, it', hterms, rfl⟩⟩⟩, rfl⟩
  obtain ⟨offer, hoffer, hslot⟩ := hparse
  refine ⟨offer, ?_, hslot⟩
  rw [swapOffer?, if_neg (not_not.mpr hhead), hoffer]

/-- A well-formed advertisement is stored as an offer of the token and the output, with the index
that is decoded. -/
theorem IsAd.swapOffer? (h : IsAd tokenID offeredUTXOHash index script)
    (hindex : Reads AdReader.index index n) (nHeight : Int32) :
    ∃ offer, swapOffer? nHeight script = .ok (some offer) ∧
      offer.slot = ⟨tokenID, ⟨offeredUTXOHash, n⟩⟩ := by
  cases h with
  | @v1 protocol version type token hash terms signature v _ _ _ hprotocol hversion hv htype htoken
      hhash hterms hsignature =>
    have hfields : parseFields ((OP_RETURN.toByte :: protocol) ++ (version ++ (type ++ (token ++
        (hash ++ (index ++ (terms ++ signature))))))) = .ok
          (⟨v, 0, 0, 0, tokenID, Blob.null, offeredUTXOHash, 0, [], [], 0⟩,
            index ++ (terms ++ signature)) := by
      rw [parseFields, (AdReader.protocol_reads hprotocol).run_bind,
        (AdReader.byte_reads hversion).run_bind, if_neg hv, parseFieldsV1,
        (AdReader.byte_reads htype).run_bind, (AdReader.hash_reads htoken).run_bind,
        (AdReader.hash_reads hhash).run_bind]
      rfl
    have hrest : ∃ parts, parseTerms v (terms ++ signature) = .ok (parts, []) := by
      obtain ⟨op, hop, -⟩ := AdReader.getOp_reads hterms signature
      obtain ⟨op', hop', -⟩ := AdReader.getOp_reads hsignature []
      rw [append_nil] at hop'
      rw [parseTerms, if_neg hv]
      exact ⟨_, stateT_bind_eq_ok_iff.mpr
        ⟨op, _, hop, stateT_bind_eq_ok_iff.mpr ⟨op', _, hop', rfl⟩⟩⟩
    exact swapOffer?_of_parse rfl hfields hindex hrest.choose_spec
  | @v2 protocol version flags offeredType termsType token want hash f o t _ tail hprotocol hversion
      hflags hoffered htermsType htoken hwant hhash htwo htail =>
    obtain ⟨wantTokenID, hwant⟩ := AdReader.want_reads hwant
    have hfields : parseFields ((OP_RETURN.toByte :: protocol) ++ (version ++ (flags ++
        (offeredType ++ (termsType ++ (token ++ (want ++ (hash ++ (index ++ tail.flatten))))))))) =
        .ok (⟨2, f, o, t, tokenID, wantTokenID, offeredUTXOHash, 0, [], [], 0⟩,
          index ++ tail.flatten) := by
      rw [parseFields, (AdReader.protocol_reads hprotocol).run_bind,
        (AdReader.byte_reads hversion).run_bind, if_pos rfl, parseFieldsV2,
        (AdReader.byte_reads hflags).run_bind, (AdReader.byte_reads hoffered).run_bind,
        (AdReader.byte_reads htermsType).run_bind, (AdReader.hash_reads htoken).run_bind,
        hwant.run_bind, (AdReader.hash_reads hhash).run_bind]
      rfl
    have hrest : ∃ parts, parseTerms 2 tail.flatten = .ok (parts, []) := by
      have hlen := length_readTail htail []
      rw [length_nil, zero_add] at hlen
      have hlong : ¬ (readTail [] (scriptOps tail.flatten)).length < 2 := by omega
      rw [parseTerms, if_pos rfl]
      exact ⟨_, if_neg hlong⟩
    exact swapOffer?_of_parse rfl hfields hindex hrest.choose_spec

end Parse

/-! ## The index -/

variable {n : ℕ}

theorem getint32_ofNat (h : n < 2 ^ 31) :
    (getint32 n).toUInt32 = UInt32.ofNat n := by
  unfold getint32
  rw [if_neg (by omega), if_neg (by omega)]
  rfl

/-- What is decoded from the push of an index : the operations `OP_1` to `OP_16` push no data, which
is the number zero. -/
theorem AdReader.index_reads (h : n < 2 ^ 31) :
    Reads AdReader.index (pushInt64 n) (if 1 ≤ n ∧ n ≤ 16 then 0 else UInt32.ofNat n) := by
  intro rest
  by_cases hsmall : 1 ≤ n ∧ n ≤ 16
  · rw [if_pos hsmall]
    obtain ⟨hle, hge⟩ := hsmall
    interval_cases n <;> rfl
  · rw [if_neg hsmall]
    by_cases hzero : n = 0
    · subst hzero
      rfl
    · obtain ⟨hmin, hvalue⟩ := serialize_spec (show (n : ℤ).natAbs < 2 ^ 64 by omega)
      have hlen : (serialize n).length ≤ 4 := by
        refine hmin.length_le ?_
        rw [← natAbs_signMagnitude, hvalue]
        omega
      have hpush : pushInt64 n = pushData (serialize n) := by
        rw [pushInt64, if_neg (by omega), if_neg (by omega)]
      obtain ⟨op, hop, -, hvch, hpc⟩ := getScriptOp_pushData (hlen.trans_lt (by decide)) rest
      rw [hpush, index_of_getScriptOp hop, decodeIndex, hvch, fromBytes_four, if_pos hlen,
        setVch_eq_signMagnitude, hvalue, ok_bind, hpc, getint32_ofNat h]

end RadiantCore
