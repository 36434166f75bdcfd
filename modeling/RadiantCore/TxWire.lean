import RadiantCore.SwapRecord

/-!
# The wire encoding of transactions

`UnserializeTransaction` reads what `SerializeTransaction` writes, and nothing else : a reader and a
writer form a codec (`IsCodec`) if the reader takes what is written for a value, and if what it
takes for a value is what is written. Vectors are read in batches, which are read one after the other like
the whole (`Reader.batches_eq`), and their sizes are read in their shortest form only
(`Reader.compactSize_codec`), so the codecs of the fields make one of the transaction.
-/

namespace RadiantCore

open List

/-! ## Codecs -/

/-- The reader takes what is written for the values that fit, and only that. -/
structure IsCodec {α : Type} (r : Reader α) (write : α → List UInt8) (fits : α → Prop) : Prop where
  reads : ∀ a, fits a → Reads r (write a) a
  writes : ∀ {is a rest}, r is = .ok (a, rest) → fits a ∧ is = write a ++ rest

namespace Reader

variable {α : Type}

/-- Read `n` bytes at once. -/
def raw (n : ℕ) : Reader (List UInt8) := fun is =>
  if n ≤ is.length then .ok (is.take n, is.drop n) else .error (.exception "end of data")

/-- Read `n` elements one after the other. -/
def readMany (r : Reader α) : ℕ → Reader (List α)
  | 0 => pure []
  | n + 1 => do
    let a ← r
    let as ← readMany r n
    return a :: as

/-- The loops of `VectorFormatter::Unser` and `Unserialize_vector`, which read at most `batch`
elements before they allocate more. -/
def batches (batch : ℕ+) (read : ℕ → Reader (List α)) (size allocated : ℕ) (v : List α) :
    Reader (List α) :=
  if allocated < size then do
    let elems ← read (min (size - allocated) batch)
    batches batch read size (allocated + min (size - allocated) batch) (v ++ elems)
  else return v
termination_by size - allocated
decreasing_by
  have := batch.pos
  omega

/-- `ReadCompactSize`. -/
def compactSize : Reader ℕ := fun is => readCompactSizeWithLimit is maxSize

/-- `VectorFormatter::Unser`. -/
def vector (batch : ℕ+) (r : Reader α) : Reader (List α) := do
  batches batch (readMany r) (← compactSize) 0 []

/-- `Unserialize_vector` of bytes. -/
def byteVector : Reader (List UInt8) := do
  batches 5000000 raw (← compactSize) 0 []

def uint32 : Reader UInt32 := do return UInt32.ofNat (← number 4)

def int32 : Reader Int32 := do return (← uint32).toInt32

def amount : Reader Int64 := do return (UInt64.ofNat (← number 8)).toInt64

def outPoint : Reader COutPoint := do return ⟨← blob 32, ← uint32⟩

def txIn : Reader CTxIn := do return ⟨← outPoint, ← byteVector, ← uint32⟩

def txOut : Reader CTxOut := do return ⟨← amount, ← byteVector⟩

/-- `UnserializeTransaction`, with the batches in which inputs and outputs are read. -/
def transaction (inBatch outBatch : ℕ+) : Reader CMutableTransaction := do
  let nVersion ← int32
  let vin ← vector inBatch txIn
  let vout ← vector outBatch txOut
  let nLockTime ← uint32
  return ⟨vin, vout, nVersion, nLockTime⟩

/-! ## Batches -/

/-- Batches are read like the whole. -/
theorem batches_eq {batch : ℕ+} {read : ℕ → Reader (List α)} (hzero : read 0 = pure [])
    (hadd : ∀ m n, read (m + n) = do return (← read m) ++ (← read n)) (size allocated : ℕ)
    (v : List α) :
    batches batch read size allocated v = (v ++ ·) <$> read (size - allocated) := by
  induction hn : size - allocated using Nat.strong_induction_on generalizing allocated v with
  | h n ih =>
    rw [batches]
    split_ifs with hlt
    · have hpos := batch.pos
      have hsplit : n = min n batch + (n - min n batch) := by omega
      conv_rhs => rw [hsplit, hadd]
      rw [hn]
      simp only [ih (n - min n batch) (by omega) (allocated + min n batch) _ (by omega)]
      simp [append_assoc]
    · obtain rfl : n = 0 := by omega
      simp [hzero]

theorem readMany_add (r : Reader α) (m n : ℕ) :
    readMany r (m + n) = do return (← readMany r m) ++ (← readMany r n) := by
  induction m with
  | zero => simp [readMany]
  | succ m ih => simp [Nat.succ_add, readMany, ih]

theorem raw_add (m n : ℕ) : raw (m + n) = do return (← raw m) ++ (← raw n) := by
  funext is
  change raw (m + n) is = (raw m is >>= fun p => raw n p.2 >>= fun q => pure (p.1 ++ q.1, q.2))
  unfold raw
  by_cases hm : m ≤ is.length
  · by_cases hn : n ≤ is.length - m
    · simp [hm, hn, take_add, show m + n ≤ is.length by omega, bind, Except.bind, pure,
        Except.pure]
    · simp [hm, hn, show ¬m + n ≤ is.length by omega, bind, Except.bind]
  · simp [hm, show ¬m + n ≤ is.length by omega, bind, Except.bind]

theorem vector_eq (batch : ℕ+) (r : Reader α) : vector batch r = compactSize >>= readMany r := by
  simp only [vector, batches_eq rfl (readMany_add r), nil_append, id_map', Nat.sub_zero]

theorem byteVector_eq : byteVector = compactSize >>= raw := by
  simp only [byteVector, batches_eq rfl raw_add, nil_append, id_map', Nat.sub_zero]

/-! ## The codecs of the fields -/

/-- The last read of a record. -/
theorem reads_last {β : Type} {r : Reader α} {f : α → β} {xs : List UInt8} {a : α}
    (h : Reads r xs a) : Reads (do return f (← r)) xs (f a) := by
  have hbind := h.bind (f := fun a => (pure (f a) : Reader β)) (Reads.pure (f a))
  rwa [append_nil] at hbind

theorem raw_eq_ok_iff {n : ℕ} {is bytes rest : List UInt8} :
    raw n is = .ok (bytes, rest) ↔ bytes.length = n ∧ is = bytes ++ rest := by
  unfold raw
  constructor
  · intro h
    split_ifs at h with hle
    obtain ⟨rfl, rfl⟩ := Prod.mk.inj (Except.ok.inj h)
    exact ⟨length_take_of_le hle, (take_append_drop n is).symm⟩
  · rintro ⟨rfl, rfl⟩
    simp

theorem number_codec (k : ℕ) : IsCodec (number k) (writeLE k) (· < 256 ^ k) where
  reads n hn := number_reads hn
  writes {is n rest} h := by
    unfold number serReaddata at h
    split_ifs at h with hle
    obtain ⟨rfl, rfl⟩ := Prod.mk.inj (Except.ok.inj h)
    have hlen : (is.take k).length = k := length_take_of_le hle
    have hlt := readLE_lt (is.take k)
    rw [hlen] at hlt
    have hwrite : writeLE k (readLE (is.take k)) = is.take k :=
      readLE_injective (by simp [hlen]) (by rw [readLE_writeLE, Nat.mod_eq_of_lt hlt])
    exact ⟨hlt, by rw [hwrite, take_append_drop]⟩

/-- A long form of a size holds only what a shorter form cannot. -/
theorem longSize_writes {k least n : ℕ} {is rest : List UInt8}
    (h : readLongSize k least is = .ok (n, rest)) :
    least ≤ n ∧ n < 256 ^ k ∧ is = writeLE k n ++ rest := by
  simp only [readLongSize, bind_eq_ok_iff, require_eq_ok_iff, exists_unit_iff, pure_eq_ok_iff] at h
  obtain ⟨⟨n', rest'⟩, hread, hleast, heq⟩ := h
  obtain ⟨rfl, rfl⟩ := Prod.mk.inj heq
  exact ⟨hleast, (number_codec k).writes hread⟩

theorem compactSize_codec : IsCodec compactSize writeCompactSize (· ≤ maxSize) where
  reads n hn rest := readCompactSizeWithLimit_write (hn.trans_lt (by decide)) hn rest
  writes {is n rest} h := by
    refine ⟨readCompactSizeWithLimit_le h, ?_⟩
    simp only [compactSize, readCompactSizeWithLimit, bind_eq_ok_iff] at h
    obtain ⟨⟨chSize, is'⟩, hfirst, h⟩ := h
    obtain ⟨hch, rfl⟩ := (number_codec 1).writes hfirst
    dsimp only at h
    unfold writeCompactSize
    split_ifs at h with h₁ h₂ h₃
    all_goals
      simp only [bind_eq_ok_iff, require_eq_ok_iff, exists_unit_iff, pure_eq_ok_iff, Prod.exists,
        Prod.mk.injEq] at h
      obtain ⟨n', rest', hread, -, rfl, rfl⟩ := h
    · obtain ⟨rfl, rfl⟩ := Prod.mk.inj (Except.ok.inj hread)
      rw [if_pos h₁]
    all_goals obtain ⟨hleast, hlt, rfl⟩ := longSize_writes hread
    · rw [if_neg (by omega), if_pos (by omega), h₂]
      rfl
    · rw [if_neg (by omega), if_neg (by omega), if_pos (by omega), h₃]
      rfl
    · rw [if_neg (by omega), if_neg (by omega), if_neg (by omega), show chSize = 255 by omega]
      rfl

theorem byteVector_codec : IsCodec byteVector serializeBytes (·.length ≤ maxSize) where
  reads s hs := by
    rw [byteVector_eq]
    exact (compactSize_codec.reads _ hs).bind fun rest => raw_eq_ok_iff.mpr ⟨rfl, rfl⟩
  writes {is s rest} h := by
    rw [byteVector_eq, stateT_bind_eq_ok_iff] at h
    obtain ⟨n, is', hsize, hraw⟩ := h
    obtain ⟨hle, rfl⟩ := compactSize_codec.writes hsize
    obtain ⟨rfl, rfl⟩ := raw_eq_ok_iff.mp hraw
    exact ⟨hle, by rw [serializeBytes, append_assoc]⟩

variable {r : Reader α} {write : α → List UInt8} {fits : α → Prop}

theorem readMany_reads (h : IsCodec r write fits) {xs : List α} (hxs : ∀ a ∈ xs, fits a) :
    Reads (readMany r xs.length) (xs.flatMap write) xs := by
  induction xs with
  | nil => exact Reads.pure []
  | cons a xs ih =>
    obtain ⟨ha, hxs⟩ := forall_mem_cons.mp hxs
    exact (h.reads a ha).bind (reads_last (ih hxs))

theorem readMany_writes (h : IsCodec r write fits) {n : ℕ} {is rest : List UInt8} {xs : List α}
    (hread : readMany r n is = .ok (xs, rest)) :
    xs.length = n ∧ (∀ a ∈ xs, fits a) ∧ is = xs.flatMap write ++ rest := by
  induction n generalizing is xs with
  | zero =>
    obtain ⟨rfl, rfl⟩ := stateT_pure_eq_ok_iff.mp hread
    simp
  | succ n ih =>
    simp only [readMany, stateT_bind_eq_ok_iff, stateT_pure_eq_ok_iff] at hread
    obtain ⟨a, is', ha, as, rest', has, rfl, rfl⟩ := hread
    obtain ⟨hfits, rfl⟩ := h.writes ha
    obtain ⟨hlen, hfits', rfl⟩ := ih has
    exact ⟨by rw [length_cons, hlen], forall_mem_cons.mpr ⟨hfits, hfits'⟩, by simp⟩

theorem vector_codec (batch : ℕ+) (h : IsCodec r write fits) :
    IsCodec (vector batch r) (serializeVector write)
      (fun xs => xs.length ≤ maxSize ∧ ∀ a ∈ xs, fits a) where
  reads xs hxs := by
    rw [vector_eq]
    exact (compactSize_codec.reads _ hxs.1).bind (readMany_reads h hxs.2)
  writes {is xs rest} hread := by
    rw [vector_eq, stateT_bind_eq_ok_iff] at hread
    obtain ⟨n, is', hsize, hmany⟩ := hread
    obtain ⟨hle, rfl⟩ := compactSize_codec.writes hsize
    obtain ⟨rfl, hfits, rfl⟩ := readMany_writes h hmany
    exact ⟨⟨hle, hfits⟩, by rw [serializeVector, append_assoc]⟩

/-! ## The codec of transactions -/

/-- Values that are told apart by what is read. -/
theorem map_codec {β : Type} (h : IsCodec r write fits) {f : α → β} {g : β → α}
    (hfits : ∀ b, fits (g b)) (hfg : ∀ b, f (g b) = b) (hgf : ∀ a, fits a → g (f a) = a) :
    IsCodec (do return f (← r)) (fun b => write (g b)) fun _ => True where
  reads b _ := by
    have hread := reads_last (f := f) (h.reads _ (hfits b))
    rwa [hfg] at hread
  writes {is b rest} hread := by
    obtain ⟨a, is', ha, hpure⟩ := stateT_bind_eq_ok_iff.mp hread
    obtain ⟨rfl, rfl⟩ := stateT_pure_eq_ok_iff.mp hpure
    obtain ⟨hfits, rfl⟩ := h.writes ha
    exact ⟨trivial, by rw [hgf a hfits]⟩

theorem uint32_codec : IsCodec uint32 (fun n => writeLE 4 n.toNat) fun _ => True :=
  map_codec (number_codec 4) (fun n => n.toNat_lt) (fun n => by simp)
    fun _ h => UInt32.toNat_ofNat_of_lt' h

theorem int32_codec : IsCodec int32 (fun n => writeLE 4 n.toUInt32.toNat) fun _ => True :=
  map_codec (g := Int32.toUInt32) uint32_codec (fun _ => trivial) (fun n => by simp)
    fun _ _ => by simp

theorem amount_codec : IsCodec amount serializeAmount fun _ => True :=
  map_codec (g := fun n : Int64 => n.toUInt64.toNat) (number_codec 8)
    (fun n => n.toUInt64.toNat_lt) (fun n => by simp) fun n h => by
      rw [UInt64.toUInt64_toInt64, UInt64.toNat_ofNat_of_lt' h]

theorem blob_codec (w : ℕ) : IsCodec (blob w) Blob.data fun _ => True where
  reads b _ := blob_reads b
  writes {is b rest} h := by
    unfold blob at h
    split_ifs at h
    obtain ⟨rfl, rfl⟩ := Prod.mk.inj (Except.ok.inj h)
    exact ⟨trivial, (take_append_drop w is).symm⟩

theorem outPoint_codec : IsCodec outPoint COutPoint.serialize fun _ => True where
  reads a _ := ((blob_codec 32).reads a.txid trivial).bind <|
    reads_last (uint32_codec.reads a.n trivial)
  writes {is a rest} h := by
    simp only [outPoint, stateT_bind_eq_ok_iff, stateT_pure_eq_ok_iff] at h
    obtain ⟨txid, _, htxid, n, _, hn, rfl, rfl⟩ := h
    obtain ⟨-, rfl⟩ := (blob_codec 32).writes htxid
    obtain ⟨-, rfl⟩ := uint32_codec.writes hn
    exact ⟨trivial, by simp [COutPoint.serialize]⟩

theorem txIn_codec : IsCodec txIn CTxIn.serialize (·.scriptSig.length ≤ maxSize) where
  reads a ha := by
    rw [CTxIn.serialize, append_assoc]
    exact (outPoint_codec.reads a.prevout trivial).bind <|
      (byteVector_codec.reads a.scriptSig ha).bind <|
      reads_last (uint32_codec.reads a.nSequence trivial)
  writes {is a rest} h := by
    simp only [txIn, stateT_bind_eq_ok_iff, stateT_pure_eq_ok_iff] at h
    obtain ⟨prevout, _, hprevout, script, _, hscript, n, _, hn, rfl, rfl⟩ := h
    obtain ⟨-, rfl⟩ := outPoint_codec.writes hprevout
    obtain ⟨hlen, rfl⟩ := byteVector_codec.writes hscript
    obtain ⟨-, rfl⟩ := uint32_codec.writes hn
    exact ⟨hlen, by simp [CTxIn.serialize]⟩

theorem txOut_codec : IsCodec txOut CTxOut.serialize (·.scriptPubKey.length ≤ maxSize) where
  reads a ha := (amount_codec.reads a.nValue trivial).bind <|
    reads_last (byteVector_codec.reads a.scriptPubKey ha)
  writes {is a rest} h := by
    simp only [txOut, stateT_bind_eq_ok_iff, stateT_pure_eq_ok_iff] at h
    obtain ⟨value, _, hvalue, script, _, hscript, rfl, rfl⟩ := h
    obtain ⟨-, rfl⟩ := amount_codec.writes hvalue
    obtain ⟨hlen, rfl⟩ := byteVector_codec.writes hscript
    exact ⟨hlen, by simp [CTxOut.serialize]⟩

end Reader

open Reader

/-- The counts and the scripts of the transaction are at most `MAX_SIZE` long. -/
structure CMutableTransaction.Readable (tx : CMutableTransaction) : Prop where
  vin : tx.vin.length ≤ maxSize ∧ ∀ txin ∈ tx.vin, txin.scriptSig.length ≤ maxSize
  vout : tx.vout.length ≤ maxSize ∧ ∀ txout ∈ tx.vout, txout.scriptPubKey.length ≤ maxSize

/-- The wire encoding of transactions is canonical : a transaction is read back from what is written
for it, and what is read was written for the transaction it gives. -/
theorem transaction_wire_canonical (inBatch outBatch : ℕ+) :
    (∀ tx : CMutableTransaction, tx.Readable → ∀ rest,
      transaction inBatch outBatch (tx.serialize ++ rest) = .ok (tx, rest)) ∧
    ∀ is tx rest, transaction inBatch outBatch is = .ok (tx, rest) → is = tx.serialize ++ rest := by
  refine ⟨fun tx htx => ?_, fun is tx rest h => ?_⟩
  · rw [CMutableTransaction.serialize, append_assoc, append_assoc]
    exact (int32_codec.reads tx.nVersion trivial).bind <|
      ((vector_codec inBatch txIn_codec).reads tx.vin htx.vin).bind <|
      ((vector_codec outBatch txOut_codec).reads tx.vout htx.vout).bind <|
      reads_last (uint32_codec.reads tx.nLockTime trivial)
  · simp only [transaction, stateT_bind_eq_ok_iff, stateT_pure_eq_ok_iff] at h
    obtain ⟨version, _, hversion, vin, _, hvin, vout, _, hvout, lockTime, _, hlockTime, rfl, rfl⟩ :=
      h
    obtain ⟨-, rfl⟩ := int32_codec.writes hversion
    obtain ⟨-, rfl⟩ := (vector_codec inBatch txIn_codec).writes hvin
    obtain ⟨-, rfl⟩ := (vector_codec outBatch txOut_codec).writes hvout
    obtain ⟨-, rfl⟩ := uint32_codec.writes hlockTime
    simp [CMutableTransaction.serialize]

/-- A transaction with one input and one output. -/
theorem transaction_wire_canonical_small :
    let tx : CMutableTransaction := ⟨[⟨⟨Blob.null, 0⟩, [0x51], 0⟩], [⟨1, [0x51]⟩], 2, 0⟩
    transaction 1 1 (tx.serialize ++ [0xff]) = .ok (tx, [0xff]) :=
  (transaction_wire_canonical 1 1).1 _ ⟨by decide, by decide⟩ _

end RadiantCore
