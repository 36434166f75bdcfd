import RadiantCore.OrderedStore
import RadiantCore.Serialization

/-!
# The records of the swap index

`index/swapindex.cpp` keeps the advertised swap offers in a LevelDB database. An offer is stored
under the key `MakeKey` and, when it names a wanted token, also under `MakeWantKey`. The keys are
byte vectors, and the database sees them serialized, with their length in front ; the order of its
iterators is that of the serialized keys.

A key is the letter of a table and a slot, the token and the outpoint an offer is about
(`serializeBytes_makeKey`), or a wanted token and a slot (`serializeBytes_makeWantKey`). What is
written is read back (`SwapOffer.unserialize_reads`).
-/

namespace RadiantCore

open List

/-! ## Readers -/

section Reads

variable {β ε α α' : Type}

/-- The reader takes what was written for a value and nothing else. -/
def Reads (r : StateT (List β) (Except ε) α) (written : List β) (a : α) : Prop :=
  ∀ rest, r (written ++ rest) = .ok (a, rest)

variable {r : StateT (List β) (Except ε) α} {f : α → StateT (List β) (Except ε) α'} {xs : List β}
  {a : α}

theorem Reads.run_bind (hr : Reads r xs a) (ys : List β) : (r >>= f) (xs ++ ys) = f a ys := by
  change (r (xs ++ ys) >>= fun p => f p.1 p.2) = _
  rw [hr, ok_bind]

theorem Reads.bind {ys : List β} {b : α'} (hr : Reads r xs a) (hf : Reads (f a) ys b) :
    Reads (r >>= f) (xs ++ ys) b := by
  intro rest
  rw [append_assoc, hr.run_bind]
  exact hf rest

theorem Reads.pure (a : α) : Reads (Pure.pure a : StateT (List β) (Except ε) α) [] a :=
  fun _ => rfl

end Reads

section Inversion

variable {α β ε σ : Type}

variable {s s' : σ}

theorem stateT_bind_eq_ok_iff {r : StateT σ (Except ε) α} {f : α → StateT σ (Except ε) β}
    {b : β} : (r >>= f) s = .ok (b, s') ↔ ∃ a t, r s = .ok (a, t) ∧ f a t = .ok (b, s') := by
  change (r s >>= fun p => f p.1 p.2) = _ ↔ _
  rw [bind_eq_ok_iff, Prod.exists]

theorem stateT_pure_eq_ok_iff {a b : α} :
    (pure a : StateT σ (Except ε) α) s = .ok (b, s') ↔ a = b ∧ s = s' := by
  change Except.ok (a, s) = .ok (b, s') ↔ _
  simp

end Inversion

/-- A read from a `CDataStream`, which throws at its end. -/
abbrev Reader := StateT (List UInt8) (Except Failure)

/-- `MAX_SIZE`, the limit for the size of a vector that is read. -/
def maxSize : ℕ := 0x02000000

namespace Reader

/-- Read a number of `k` bytes. -/
def number (k : ℕ) : Reader ℕ := fun is => serReaddata k is

/-- Read `w` bytes. -/
def blob (w : ℕ) : Reader (Blob w) := fun is =>
  if h : w ≤ is.length then .ok (⟨is.take w, by simp [h]⟩, is.drop w)
  else .error (.exception "end of data")

/-- Read a vector of bytes. -/
def bytes : Reader (List UInt8) := fun is => do
  let (nSize, is) ← readCompactSizeWithLimit is maxSize
  if nSize ≤ is.length then .ok (is.take nSize, is.drop nSize)
  else .error (.exception "end of data")

variable {n : ℕ}

theorem number_reads {k : ℕ} (h : n < 256 ^ k) : Reads (number k) (writeLE k n) n := fun rest =>
  serReaddata_writeLE h rest

theorem blob_reads {w : ℕ} (b : Blob w) : Reads (blob w) b.data b := by
  intro rest
  have hle : w ≤ (b.data ++ rest).length := by simp [b.size_eq]
  rw [blob, dif_pos hle]
  simp only [take_left' b.size_eq, drop_left' b.size_eq]

variable {s : List UInt8}

theorem bytes_reads (h : s.length ≤ maxSize) :
    Reads bytes (serializeBytes s) s := by
  intro rest
  have hlt : s.length < 2 ^ 64 := h.trans_lt (by decide)
  unfold bytes serializeBytes
  rw [append_assoc, readCompactSizeWithLimit_write hlt h, ok_bind]
  simp

variable {is rest : List UInt8}

theorem readCompactSizeWithLimit_le {limit : ℕ}
    (h : readCompactSizeWithLimit is limit = .ok (n, rest)) : n ≤ limit := by
  simp only [readCompactSizeWithLimit, bind_eq_ok_iff] at h
  obtain ⟨_, -, h⟩ := h
  split_ifs at h
  all_goals
    simp only [bind_eq_ok_iff, require_eq_ok_iff, exists_unit_iff, pure_eq_ok_iff,
      Prod.mk.injEq] at h
    obtain ⟨_, -, hle, rfl, -⟩ := h
    exact hle

/-- A vector that is read is not longer than the limit. -/
theorem bytes_length_le (h : bytes is = .ok (s, rest)) :
    s.length ≤ maxSize := by
  simp only [bytes, bind_eq_ok_iff] at h
  obtain ⟨⟨nSize, rest'⟩, hsize, h⟩ := h
  dsimp only at h
  split_ifs at h
  obtain ⟨rfl, -⟩ := Prod.mk.inj (Except.ok.inj h)
  exact (length_take_le _ _).trans (readCompactSizeWithLimit_le hsize)

end Reader

/-! ## Offers -/

/-- `SwapOffer`. -/
structure SwapOffer where
  version : UInt8
  flags : UInt8 := 0
  offeredType : UInt8 := 0
  termsType : UInt8 := 0
  tokenID : Uint256
  wantTokenID : Uint256
  offeredUTXOHash : Uint256
  offeredUTXOIndex : UInt32
  priceTerms : List UInt8
  signature : List UInt8
  blockHeight : Int32 := 0
deriving DecidableEq

namespace SwapOffer

/-- The serialization of an offer, the value of its records. -/
def serialize (offer : SwapOffer) : List UInt8 :=
  writeLE 1 offer.version.toNat ++ writeLE 1 offer.flags.toNat ++
    writeLE 1 offer.offeredType.toNat ++ writeLE 1 offer.termsType.toNat ++ offer.tokenID.data ++
    offer.wantTokenID.data ++ offer.offeredUTXOHash.data ++
    writeLE 4 offer.offeredUTXOIndex.toNat ++ serializeBytes offer.priceTerms ++
    serializeBytes offer.signature ++ writeLE 4 offer.blockHeight.toUInt32.toNat

/-- An offer, read from its record. -/
def unserialize : Reader SwapOffer := do
  let version ← Reader.number 1
  let flags ← Reader.number 1
  let offeredType ← Reader.number 1
  let termsType ← Reader.number 1
  let tokenID ← Reader.blob 32
  let wantTokenID ← Reader.blob 32
  let offeredUTXOHash ← Reader.blob 32
  let offeredUTXOIndex ← Reader.number 4
  let priceTerms ← Reader.bytes
  let signature ← Reader.bytes
  let blockHeight ← Reader.number 4
  return {
    version := UInt8.ofNat version
    flags := UInt8.ofNat flags
    offeredType := UInt8.ofNat offeredType
    termsType := UInt8.ofNat termsType
    tokenID := tokenID
    wantTokenID := wantTokenID
    offeredUTXOHash := offeredUTXOHash
    offeredUTXOIndex := UInt32.ofNat offeredUTXOIndex
    priceTerms := priceTerms
    signature := signature
    blockHeight := (UInt32.ofNat blockHeight).toInt32 }

/-- The vectors of the offer are not too long to be read. -/
structure Readable (offer : SwapOffer) : Prop where
  priceTerms : offer.priceTerms.length ≤ maxSize
  signature : offer.signature.length ≤ maxSize

variable {offer : SwapOffer}

theorem unserialize_reads (h : offer.Readable) :
    Reads unserialize offer.serialize offer := by
  have hbyte : ∀ b : UInt8, Reads (Reader.number 1) (writeLE 1 b.toNat) b.toNat := fun b =>
    Reader.number_reads b.toNat_lt
  have hword : ∀ n : UInt32, Reads (Reader.number 4) (writeLE 4 n.toNat) n.toNat := fun n =>
    Reader.number_reads n.toNat_lt
  unfold unserialize serialize
  simp only [append_assoc]
  refine (hbyte _).bind <| (hbyte _).bind <| (hbyte _).bind <| (hbyte _).bind <|
    (Reader.blob_reads _).bind <| (Reader.blob_reads _).bind <| (Reader.blob_reads _).bind <|
    (hword _).bind <| (Reader.bytes_reads h.priceTerms).bind <|
    (Reader.bytes_reads h.signature).bind ?_
  rw [← append_nil (writeLE 4 _)]
  refine (hword _).bind ?_
  simpa using Reads.pure offer

/-- What is read can be written and read again. -/
theorem readable_of_unserialize {is rest : List UInt8}
    (h : unserialize is = .ok (offer, rest)) : offer.Readable := by
  simp only [unserialize, stateT_bind_eq_ok_iff, stateT_pure_eq_ok_iff] at h
  obtain ⟨_, _, -, _, _, -, _, _, -, _, _, -, _, _, -, _, _, -, _, _, -, _, _, -, terms, _, hterms,
    signature, _, hsignature, _, _, -, rfl, -⟩ := h
  exact ⟨Reader.bytes_length_le hterms, Reader.bytes_length_le hsignature⟩

end SwapOffer

/-! ## Keys -/

theorem serializeBytes_inj {key key' : List UInt8} (h : key.length < 2 ^ 64)
    (h' : key'.length < 2 ^ 64) : serializeBytes key = serializeBytes key' ↔ key = key' := by
  refine ⟨fun heq => ?_, congrArg serializeBytes⟩
  exact (@prefixFree_serializeBytes key h key' h' [] [] (by rw [heq])).1

/-- `DB_OPEN_ORDER`, the letter `o`. -/
def dbOpenOrder : UInt8 := 0x6f
/-- `DB_HISTORY`, the letter `h`. -/
def dbHistory : UInt8 := 0x68
/-- `DB_OPEN_WANT`, the letter `p`. -/
def dbOpenWant : UInt8 := 0x70
/-- `DB_HISTORY_WANT`, the letter `q`. -/
def dbHistoryWant : UInt8 := 0x71
/-- `DB_VERSION`, the letter `V`. -/
def dbVersion : UInt8 := 0x56
/-- `DB_LEGACY`, the letter `s`. -/
def dbLegacy : UInt8 := 0x73
/-- `DB_BEST_BLOCK`, the letter `B`. Its key is the character, not a vector. -/
def dbBestBlock : UInt8 := 0x42

/-- `MakeKey`. -/
def makeKey (table : UInt8) (offer : SwapOffer) : List UInt8 :=
  table :: (offer.tokenID.data ++ offer.offeredUTXOHash.data ++
    writeBE 4 offer.offeredUTXOIndex.toNat)

/-- `MakeWantKey`. -/
def makeWantKey (table : UInt8) (offer : SwapOffer) : List UInt8 :=
  table :: (offer.wantTokenID.data ++ offer.tokenID.data ++ offer.offeredUTXOHash.data ++
    writeBE 4 offer.offeredUTXOIndex.toNat)

/-- `KeyLenForPrefix`. -/
def keyLenForPrefix (table : UInt8) : ℕ :=
  if table = dbOpenOrder ∨ table = dbHistory then 1 + 32 + 32 + 4
  else if table = dbOpenWant ∨ table = dbHistoryWant then 1 + 32 + 32 + 32 + 4
  else 1

/-- `MakeMatchPrefix`. -/
def makeMatchPrefix (table : UInt8) (tokenID : Uint256) : List UInt8 := table :: tokenID.data

/-- `MakeSeekKey`. -/
def makeSeekKey (table : UInt8) (tokenID : Uint256) : List UInt8 :=
  let keyLen := keyLenForPrefix table
  if keyLen ≥ 1 + 32 then table :: (tokenID.data ++ replicate (keyLen - (1 + 32)) 0)
  else table :: replicate (keyLen - 1) 0

/-- `MakeTypeSeekKey`. -/
def makeTypeSeekKey (table : UInt8) : List UInt8 :=
  table :: replicate (keyLenForPrefix table - 1) 0

/-- What an offer is about : a token, and the output that is offered for it. -/
structure Slot where
  tokenID : Uint256
  outpoint : COutPoint
deriving DecidableEq

/-- The slot of an offer. -/
def SwapOffer.slot (offer : SwapOffer) : Slot :=
  ⟨offer.tokenID, ⟨offer.offeredUTXOHash, offer.offeredUTXOIndex⟩⟩

namespace Slot

/-- The part of a key that names the slot. -/
def bytes (slot : Slot) : List UInt8 :=
  slot.tokenID.data ++ slot.outpoint.txid.data ++ writeBE 4 slot.outpoint.n.toNat

theorem length_bytes (slot : Slot) : slot.bytes.length = 68 := by
  simp [bytes, slot.tokenID.size_eq, slot.outpoint.txid.size_eq]

theorem bytes_injective : Function.Injective bytes := by
  rintro ⟨tokenID, txid, n⟩ ⟨tokenID', txid', n'⟩ h
  simp only [bytes, append_assoc] at h
  obtain ⟨htoken, h⟩ := append_inj h (tokenID.size_eq.trans tokenID'.size_eq.symm)
  obtain ⟨htxid, hn⟩ := append_inj h (txid.size_eq.trans txid'.size_eq.symm)
  have hn' := congrArg readBE hn
  rw [readBE_writeBE n.toNat_lt, readBE_writeBE n'.toNat_lt] at hn'
  rw [Blob.ext htoken, Blob.ext htxid, UInt32.toNat_inj.mp hn']

/-- The key of a record of a table of slots, as it stands in the database. -/
def orderKey (slot : Slot) (table : UInt8) : List UInt8 := 69 :: table :: slot.bytes

/-- The key of a record of a table by wanted token, as it stands in the database. -/
def wantKey (slot : Slot) (table : UInt8) (want : Uint256) : List UInt8 :=
  101 :: table :: (want.data ++ slot.bytes)

/-- The key of a slot in a table of slots, or in a table by wanted token. -/
def key (slot : Slot) (table : UInt8) : Option Uint256 → List UInt8
  | none => slot.orderKey table
  | some want => slot.wantKey table want

/-- What follows the letter of the table in such a key. -/
def keyBytes (slot : Slot) (want? : Option Uint256) : List UInt8 :=
  want?.elim [] Blob.data ++ slot.bytes

variable (slot slot' : Slot) (table table' : UInt8) (want? want?' : Option Uint256)

theorem length_keyBytes : (slot.keyBytes want?).length = want?.elim 68 fun _ => 100 := by
  cases want? with
  | none => exact slot.length_bytes
  | some want =>
    rw [keyBytes, length_append, slot.length_bytes, Option.elim_some, want.size_eq]
    rfl

theorem serializeBytes_key :
    serializeBytes (table :: slot.keyBytes want?) = slot.key table want? := by
  rw [serializeBytes, length_cons, length_keyBytes]
  cases want? <;> rfl

theorem length_cons_keyBytes_lt : (table :: slot.keyBytes want?).length < 2 ^ 64 := by
  rw [length_cons, length_keyBytes]
  cases want? <;> norm_num

variable {slot slot' table table' want? want?'}

theorem keyBytes_inj :
    slot.keyBytes want? = slot'.keyBytes want?' ↔ want? = want?' ∧ slot = slot' := by
  have hne : ∀ b : Uint256, b.data ≠ [] := fun b hb => absurd b.size_eq (by rw [hb]; decide)
  refine ⟨fun h => ?_, by rintro ⟨rfl, rfl⟩; rfl⟩
  obtain ⟨hwant, hslot⟩ := append_inj' h (slot.length_bytes.trans slot'.length_bytes.symm)
  refine ⟨?_, bytes_injective hslot⟩
  match want?, want?', hwant with
  | none, none, _ => rfl
  | none, some b, hb => exact absurd hb.symm (hne b)
  | some b, none, hb => exact absurd hb (hne b)
  | some _, some _, hb => exact congrArg some (Blob.ext hb)

@[simp] theorem key_inj : slot.key table want? = slot'.key table' want?' ↔
    table = table' ∧ want? = want?' ∧ slot = slot' := by
  rw [← serializeBytes_key, ← serializeBytes_key, serializeBytes_inj
    (length_cons_keyBytes_lt _ _ _) (length_cons_keyBytes_lt _ _ _), cons.injEq, keyBytes_inj]

end Slot

theorem serializeBytes_makeKey (table : UInt8) (offer : SwapOffer) :
    serializeBytes (makeKey table offer) = offer.slot.key table none :=
  offer.slot.serializeBytes_key table none

theorem serializeBytes_makeWantKey (table : UInt8) (offer : SwapOffer) :
    serializeBytes (makeWantKey table offer) = offer.slot.key table (some offer.wantTokenID) := by
  rw [← Slot.serializeBytes_key]
  simp [makeWantKey, Slot.keyBytes, Slot.bytes, SwapOffer.slot]

end RadiantCore
