import RadiantCore.Transaction
import RadiantCore.PrefixCode

/-!
# Serializations can be read back

The serializations of `serialize.h` and `primitives/transaction.h` are prefix-free codes of the
values whose sizes fit the counts written before them, so a byte string is the serialization of
at most one transaction (`prefixFree_serialize`).
-/

namespace RadiantCore

open PrefixCode List

/-! ## Fields of a fixed size -/

theorem prefixFree_writeLE (k : ℕ) : PrefixFree (writeLE k) {x | x < 256 ^ k} :=
  PrefixFree.of_length (fun x _ => length_writeLE k x) fun _ hx _ hy h => writeLE_injective hx hy h

theorem prefixFree_data (w : ℕ) : PrefixFree (@Blob.data w) Set.univ :=
  PrefixFree.of_length (fun b _ => b.size_eq) fun _ _ _ _ h => Blob.ext h

theorem prefixFree_uint32 : PrefixFree (fun x : UInt32 => writeLE 4 x.toNat) Set.univ :=
  PrefixFree.of_length (fun x _ => length_writeLE 4 x.toNat) fun x _ y _ h =>
    UInt32.toNat_inj.mp (writeLE_injective x.toNat_lt y.toNat_lt h)

theorem prefixFree_int32 : PrefixFree (fun x : Int32 => writeLE 4 x.toUInt32.toNat) Set.univ := by
  intro x _ y _ r s h
  obtain ⟨hxy, hrs⟩ := prefixFree_uint32 trivial trivial h
  exact ⟨congrArg Int32.ofUInt32 hxy, hrs⟩

theorem prefixFree_serializeAmount : PrefixFree serializeAmount Set.univ :=
  PrefixFree.of_length (fun _ _ => length_writeLE 8 _) fun x _ y _ h =>
    congrArg Int64.ofUInt64 (UInt64.toNat_inj.mp
      (writeLE_injective x.toUInt64.toNat_lt y.toUInt64.toNat_lt h))

theorem prefixFree_outPoint : PrefixFree COutPoint.serialize Set.univ := by
  rintro ⟨txid, n⟩ _ ⟨txid', n'⟩ _ x y h
  simp only [COutPoint.serialize, append_assoc] at h
  obtain ⟨htxid, hrest⟩ := prefixFree_data 32 trivial trivial h
  obtain ⟨hn, hxy⟩ := prefixFree_uint32 trivial trivial hrest
  exact ⟨by rw [htxid, hn], hxy⟩

/-! ## Counted fields -/

/-- `ser_readdata16`, `ser_readdata32` and `ser_readdata64` : a number of `k` bytes. -/
def serReaddata (k : ℕ) (is : List UInt8) : Except Failure (ℕ × List UInt8) :=
  if k ≤ is.length then .ok (readLE (is.take k), is.drop k) else .error (.exception "end of data")

/-- The number after a first byte of at least 253, which a shorter form must not reach. -/
def readLongSize (k least : ℕ) (is : List UInt8) : Except Failure (ℕ × List UInt8) := do
  let (nSizeRet, rest) ← serReaddata k is
  require (least ≤ nSizeRet) (.exception "non-canonical ReadCompactSize()")
  return (nSizeRet, rest)

/-- `ReadCompactSizeWithLimit`. -/
def readCompactSizeWithLimit (is : List UInt8) (maxSize : ℕ) :
    Except Failure (ℕ × List UInt8) := do
  let (chSize, is) ← serReaddata 1 is
  let (nSizeRet, rest) ←
    if chSize < 253 then .ok (chSize, is)
    else if chSize = 253 then readLongSize 2 253 is
    else if chSize = 254 then readLongSize 4 0x10000 is
    else readLongSize 8 0x100000000 is
  require (nSizeRet ≤ maxSize) (.exception "ReadCompactSize(): size too large")
  return (nSizeRet, rest)

theorem serReaddata_writeLE {k n : ℕ} (hn : n < 256 ^ k) (x : List UInt8) :
    serReaddata k (writeLE k n ++ x) = .ok (n, x) := by
  have hlen := length_writeLE k n
  rw [serReaddata, if_pos (by simp), take_left' hlen, drop_left' hlen, readLE_writeLE,
    Nat.mod_eq_of_lt hn]

theorem serReaddata_one (b : UInt8) (x : List UInt8) :
    serReaddata 1 (b :: x) = .ok (b.toNat, x) := by
  simp [serReaddata, readLE]

theorem readLongSize_writeLE {k least n : ℕ} (hn : n < 256 ^ k) (hleast : least ≤ n)
    (x : List UInt8) : readLongSize k least (writeLE k n ++ x) = .ok (n, x) := by
  rw [readLongSize, serReaddata_writeLE hn]
  exact require_bind_eq_ok_iff.mpr ⟨hleast, rfl⟩

/-- A size that is written is read back, and the rest is left. -/
theorem readCompactSizeWithLimit_write {n maxSize : ℕ} (hn : n < 2 ^ 64) (hmax : n ≤ maxSize)
    (x : List UInt8) : readCompactSizeWithLimit (writeCompactSize n ++ x) maxSize = .ok (n, x) := by
  have hlimit : ∀ p : ℕ × List UInt8, p = (n, x) →
      (do
        require (p.1 ≤ maxSize) (.exception "ReadCompactSize(): size too large")
        return (p.1, p.2) : Except Failure (ℕ × List UInt8)) = .ok (n, x) := by
    rintro p rfl
    exact require_bind_eq_ok_iff.mpr ⟨hmax, rfl⟩
  unfold readCompactSizeWithLimit writeCompactSize
  -- One case for each form ; the first byte chooses the reader of the rest.
  split_ifs with h₁ h₂ h₃
  · rw [serReaddata_writeLE (by omega)]
    simpa [h₁, bind, Except.bind] using hlimit (n, x) rfl
  · rw [cons_append, serReaddata_one]
    simpa [bind, Except.bind, readLongSize_writeLE (show n < 256 ^ 2 by omega)
      (show 253 ≤ n by omega) x] using hlimit (n, x) rfl
  · rw [cons_append, serReaddata_one]
    simpa [bind, Except.bind, readLongSize_writeLE (show n < 256 ^ 4 by omega)
      (show 0x10000 ≤ n by omega) x] using hlimit (n, x) rfl
  · rw [cons_append, serReaddata_one]
    simpa [bind, Except.bind, readLongSize_writeLE (show n < 256 ^ 8 by omega)
      (show 0x100000000 ≤ n by omega) x] using hlimit (n, x) rfl

theorem prefixFree_writeCompactSize : PrefixFree writeCompactSize {n | n < 2 ^ 64} := by
  refine PrefixFree.of_read (fun is => (readCompactSizeWithLimit is (2 ^ 64)).toOption) ?_
  intro n (hn : n < 2 ^ 64) x
  rw [readCompactSizeWithLimit_write hn hn.le]
  rfl

/-- A byte string after its size. -/
theorem prefixFree_serializeBytes : PrefixFree serializeBytes {s | s.length < 2 ^ 64} := by
  intro s hs t ht x y h
  simp only [serializeBytes, append_assoc] at h
  obtain ⟨hlen, hrest⟩ := prefixFree_writeCompactSize hs ht h
  exact append_inj hrest hlen

/-! ## Transactions -/

/-- The sizes of a transaction fit the fields that hold them : a count of inputs or outputs is
a 32-bit number, the size of a script a number of 64 bits. -/
structure CMutableTransaction.Sized (tx : CMutableTransaction) : Prop where
  vin_lt : tx.vin.length < 2 ^ 32
  vout_lt : tx.vout.length < 2 ^ 32
  scriptSig_lt : ∀ txin ∈ tx.vin, txin.scriptSig.length < 2 ^ 64
  scriptPubKey_lt : ∀ txout ∈ tx.vout, txout.scriptPubKey.length < 2 ^ 64

theorem prefixFree_txIn :
    PrefixFree CTxIn.serialize {txin | txin.scriptSig.length < 2 ^ 64} := by
  rintro ⟨prevout, scriptSig, nSequence⟩ hin ⟨prevout', scriptSig', nSequence'⟩ hin' x y h
  simp only [CTxIn.serialize, append_assoc] at h
  obtain ⟨hprevout, hrest⟩ := prefixFree_outPoint trivial trivial h
  obtain ⟨hscript, hrest⟩ := prefixFree_serializeBytes hin hin' hrest
  obtain ⟨hsequence, hxy⟩ := prefixFree_uint32 trivial trivial hrest
  exact ⟨(CTxIn.mk.injEq ..).mpr ⟨hprevout, hscript, hsequence⟩, hxy⟩

theorem prefixFree_txOut :
    PrefixFree CTxOut.serialize {txout | txout.scriptPubKey.length < 2 ^ 64} := by
  rintro ⟨nValue, scriptPubKey⟩ hout ⟨nValue', scriptPubKey'⟩ hout' x y h
  simp only [CTxOut.serialize, append_assoc] at h
  obtain ⟨hvalue, hrest⟩ := prefixFree_serializeAmount trivial trivial h
  obtain ⟨hscript, hxy⟩ := prefixFree_serializeBytes hout hout' hrest
  exact ⟨(CTxOut.mk.injEq ..).mpr ⟨hvalue, hscript⟩, hxy⟩

/-- The serialization of a transaction can be read off the front of a byte string. -/
theorem prefixFree_serialize :
    PrefixFree CMutableTransaction.serialize {tx | tx.Sized} := by
  rintro ⟨vin, vout, nVersion, nLockTime⟩ hs ⟨vin', vout', nVersion', nLockTime'⟩ hs' x y h
  simp only [CMutableTransaction.serialize, append_assoc] at h
  obtain ⟨hversion, hrest⟩ := prefixFree_int32 trivial trivial h
  obtain ⟨hvin, hrest⟩ := prefixFree_writeCompactSize.counted prefixFree_txIn
    ⟨hs.vin_lt.trans (by norm_num), hs.scriptSig_lt⟩
    ⟨hs'.vin_lt.trans (by norm_num), hs'.scriptSig_lt⟩ hrest
  obtain ⟨hvout, hrest⟩ := prefixFree_writeCompactSize.counted prefixFree_txOut
    ⟨hs.vout_lt.trans (by norm_num), hs.scriptPubKey_lt⟩
    ⟨hs'.vout_lt.trans (by norm_num), hs'.scriptPubKey_lt⟩ hrest
  obtain ⟨hlockTime, hxy⟩ := prefixFree_uint32 trivial trivial hrest
  exact ⟨(CMutableTransaction.mk.injEq ..).mpr ⟨hvin, hvout, hversion, hlockTime⟩, hxy⟩

/-! ## Sizes -/

/-- A vector takes at least a byte for each element that does, and the bytes of each. -/
theorem length_serializeVector {α : Type} (f : α → List UInt8) (xs : List α) :
    ((∀ a ∈ xs, 1 ≤ (f a).length) → xs.length ≤ (serializeVector f xs).length) ∧
      ∀ a ∈ xs, (f a).length ≤ (serializeVector f xs).length := by
  rw [serializeVector, length_append, length_flatMap]
  constructor
  · intro hone
    have hle := length_le_sum_of_one_le (xs.map fun a => (f a).length)
      (forall_mem_map.mpr hone)
    rw [length_map] at hle
    omega
  · intro a ha
    have hle := le_sum_of_mem (mem_map_of_mem (f := fun a => (f a).length) ha)
    omega

/-- The bytes of a transaction bound its sizes. -/
theorem CMutableTransaction.sized_of_getTotalSize_lt {tx : CMutableTransaction}
    (h : tx.getTotalSize < 2 ^ 32) : tx.Sized := by
  have hin := length_serializeVector CTxIn.serialize tx.vin
  have hout := length_serializeVector CTxOut.serialize tx.vout
  simp only [getTotalSize, serialize, length_append] at h
  constructor
  · have hle := hin.1 fun txin _ => by simp [CTxIn.serialize]; omega
    omega
  · have hle := hout.1 fun txout _ => by simp [CTxOut.serialize, serializeAmount]; omega
    omega
  · intro txin htxin
    have hle := hin.2 txin htxin
    simp only [CTxIn.serialize, serializeBytes, length_append] at hle
    omega
  · intro txout htxout
    have hle := hout.2 txout htxout
    simp only [CTxOut.serialize, serializeBytes, length_append] at hle
    omega

end RadiantCore
