import RadiantCore.Script
import RadiantCore.ExceptLoop

/-!
# Transactions and their identifiers

`primitives/transaction.h`. A `CMutableTransaction` is its four fields ; a `CTransaction`
also caches its hash, which its constructor computes (`computeHash`). The hash is the
double SHA-256 of the serialization, except that a transaction of version 3 hashes a
fixed size preimage of its inputs and outputs, in which each output is replaced by a
summary of its script and of the references it pushes. The summary of an output whose
script `getPushRefs` rejects throws, so such a transaction of version 3 does not exist :
a `CTransaction` carries the proof that its hash was computed.

The hash functions and the verification of signatures are parameters (`Crypto`).
-/

namespace RadiantCore

/-- The reject codes of `consensus/validation.h` and `validation.h` that block validation uses. -/
inductive RejectCode
  | REJECT_INVALID
  | REJECT_INVALIDPUSHREFS
  | REJECT_OBSOLETE
  | REJECT_CHECKPOINT
  | REJECT_AGAINST_FINALIZED
  /-- The code 0, where the source gives none. -/
  | none
deriving DecidableEq, Repr

/-- How a function of the source can fail to return a result. -/
inductive Failure
  /-- `state.DoS(level, false, code, reason)`. -/
  | invalid (level : ℕ) (code : RejectCode) (reason : String)
  /-- `throw` of an exception with a message. -/
  | exception (what : String)
  /-- A failed `assert`. -/
  | abort (what : String)
  /-- A signed 64-bit operation overflows, which has no defined behaviour. -/
  | overflow
deriving DecidableEq, Repr

/-- The primitives of `crypto/` and of libsecp256k1 that validation calls. -/
class Crypto where
  ripemd160 : List UInt8 → Uint160
  sha1 : List UInt8 → Uint160
  sha256 : List UInt8 → Uint256
  sha512_256 : List UInt8 → Uint256
  /-- `CPubKey::VerifyECDSA` of a message hash and a DER signature. -/
  verifyECDSA : (pubkey : List UInt8) → (hash : Uint256) → (sig : List UInt8) → Bool
  /-- `CPubKey::VerifySchnorr` of a message hash and a signature of 64 bytes. -/
  verifySchnorr : (pubkey : List UInt8) → (hash : Uint256) → (sig : List UInt8) → Bool
  /-- `CPubKey::CheckLowS` of a DER signature. -/
  checkLowS : (sig : List UInt8) → Bool

/-- `CHash256`, double SHA-256. -/
def hash256 [Crypto] (bytes : List UInt8) : Uint256 :=
  Crypto.sha256 (Crypto.sha256 bytes).data

/-- `CHash160`, RIPEMD-160 of SHA-256. -/
def hash160 [Crypto] (bytes : List UInt8) : Uint160 :=
  Crypto.ripemd160 (Crypto.sha256 bytes).data

/-- The bytes of a number computed from a byte string, a stand-in for a digest. -/
def toyDigest (w : ℕ) (bytes : List UInt8) : Blob w :=
  ⟨writeLE w (bytes.foldl (fun acc b => (acc * 257 + b.toNat + 1) % 2 ^ 160) 7), by simp⟩

/-- Stand-ins for the cryptographic primitives with which small examples are evaluated. Every
signature is valid. -/
@[reducible] def Crypto.toy : Crypto where
  ripemd160 := toyDigest 20
  sha1 := toyDigest 20
  sha256 := toyDigest 32
  sha512_256 := toyDigest 32
  verifyECDSA _ _ _ := true
  verifySchnorr _ _ _ := true
  checkLowS _ := true

/-! ## Amounts -/

/-- `MAX_MONEY`, in satoshis. -/
def maxMoney : ℤ := 2100000000000000000

/-- `MoneyRange`. -/
def moneyRange (v : ℤ) : Bool := 0 ≤ v ∧ v ≤ maxMoney

/-- The sum of two amounts, which are signed 64-bit integers. -/
def addAmount (a b : ℤ) : Except Failure ℤ :=
  if -2 ^ 63 ≤ a + b ∧ a + b < 2 ^ 63 then .ok (a + b) else .error .overflow

theorem addAmount_eq_ok {a b c : ℤ} (h : addAmount a b = .ok c) : c = a + b := by
  unfold addAmount at h
  split_ifs at h
  exact (Except.ok.inj h).symm

theorem moneyRange_iff {v : ℤ} : moneyRange v = true ↔ 0 ≤ v ∧ v ≤ maxMoney := by
  simp [moneyRange]

theorem moneyRange_zero : moneyRange 0 = true := by decide

theorem addAmount_of_moneyRange {a b : ℤ} (ha : moneyRange a = true) (hb : moneyRange b = true) :
    addAmount a b = .ok (a + b) := by
  rw [moneyRange_iff, maxMoney] at ha hb
  exact if_pos (by constructor <;> omega)

/-! ## Transaction data -/

/-- `TxId`. -/
abbrev TxId := Uint256

/-- `COutPoint`, the name of an output. -/
structure COutPoint where
  txid : TxId
  n : UInt32
deriving DecidableEq

/-- `COutPoint::IsNull`. -/
def COutPoint.isNull (o : COutPoint) : Bool := o.txid.isNull && o.n = 0xffffffff

/-- `CTxIn`. -/
structure CTxIn where
  prevout : COutPoint
  scriptSig : CScript
  nSequence : UInt32
deriving DecidableEq

/-- `CTxOut`. -/
structure CTxOut where
  nValue : Int64
  scriptPubKey : CScript
deriving DecidableEq

/-- `LOCKTIME_THRESHOLD` : smaller lock times are heights, the others are times. -/
def locktimeThreshold : ℤ := 500000000

/-- `CMutableTransaction`. -/
structure CMutableTransaction where
  vin : List CTxIn
  vout : List CTxOut
  nVersion : Int32
  nLockTime : UInt32
deriving DecidableEq

/-! ## Serialization -/

/-- `WriteCompactSize`. -/
def writeCompactSize (nSize : ℕ) : List UInt8 :=
  if nSize < 253 then writeLE 1 nSize
  else if nSize ≤ 0xffff then 253 :: writeLE 2 nSize
  else if nSize ≤ 0xffffffff then 254 :: writeLE 4 nSize
  else 255 :: writeLE 8 nSize

/-- A vector : its size, then its elements. -/
def serializeVector {α : Type} (serialize : α → List UInt8) (xs : List α) : List UInt8 :=
  writeCompactSize xs.length ++ xs.flatMap serialize

/-- A script or a byte string : its size, then its bytes. -/
def serializeBytes (s : List UInt8) : List UInt8 := writeCompactSize s.length ++ s

def COutPoint.serialize (o : COutPoint) : List UInt8 := o.txid.data ++ writeLE 4 o.n.toNat

def CTxIn.serialize (txin : CTxIn) : List UInt8 :=
  txin.prevout.serialize ++ serializeBytes txin.scriptSig ++ writeLE 4 txin.nSequence.toNat

/-- An amount, as a signed 64-bit integer. -/
def serializeAmount (nValue : Int64) : List UInt8 := writeLE 8 nValue.toUInt64.toNat

def CTxOut.serialize (txout : CTxOut) : List UInt8 :=
  serializeAmount txout.nValue ++ serializeBytes txout.scriptPubKey

namespace CMutableTransaction

/-- `SerializeTransaction`. -/
def serialize (tx : CMutableTransaction) : List UInt8 :=
  writeLE 4 tx.nVersion.toUInt32.toNat ++ serializeVector CTxIn.serialize tx.vin ++
    serializeVector CTxOut.serialize tx.vout ++ writeLE 4 tx.nLockTime.toNat

/-- `CTransaction::GetTotalSize`. -/
def getTotalSize (tx : CMutableTransaction) : ℕ := tx.serialize.length

/-- `CTransaction::IsCoinBase` : a single input, with a null prevout. -/
def isCoinBase (tx : CMutableTransaction) : Bool :=
  match tx.vin with
  | [txin] => txin.prevout.isNull
  | _ => false

/-- One iteration of `CTransaction::GetValueOut`. -/
def addValueOut (nValueOut : ℤ) (txout : CTxOut) : Except Failure ℤ := do
  let nValueOut ← addAmount nValueOut txout.nValue.toInt
  require (moneyRange txout.nValue.toInt ∧ moneyRange nValueOut)
    (.exception "GetValueOut: value out of range")
  return nValueOut

/-- `CTransaction::GetValueOut`. -/
def getValueOut (tx : CMutableTransaction) : Except Failure ℤ :=
  tx.vout.foldlM addValueOut 0

/-- The sum of the output values. -/
def valueOut (tx : CMutableTransaction) : ℤ := (tx.vout.map fun out => out.nValue.toInt).sum

/-- `GetValueOut` returns the sum of the outputs when no output is negative and the sum
is in range. -/
theorem getValueOut_eq_ok_iff {tx : CMutableTransaction} {v : ℤ} :
    tx.getValueOut = .ok v ↔ (∀ out ∈ tx.vout, 0 ≤ out.nValue.toInt) ∧
      tx.valueOut ≤ maxMoney ∧ v = tx.valueOut := by
  unfold getValueOut valueOut
  rw [foldlM_boundedSum_eq_ok_iff (fun _ => True) (fun out : CTxOut => out.nValue.toInt) maxMoney _
    le_rfl (by decide)]
  · simp
  · intro acc out acc' hacc hbound
    rw [addValueOut, bind_eq_ok_iff]
    simp only [require_bind_eq_ok_iff, pure_eq_ok_iff, moneyRange_iff, true_and]
    constructor
    · rintro ⟨m, hm, ⟨⟨h₁, h₂⟩, h₃, h₄⟩, rfl⟩
      obtain rfl := addAmount_eq_ok hm
      exact ⟨h₁, h₄, rfl⟩
    · rintro ⟨h₁, h₂, rfl⟩
      refine ⟨_, addAmount_of_moneyRange ?_ ?_, ⟨⟨h₁, by omega⟩, by omega, h₂⟩, rfl⟩
      · exact moneyRange_iff.mpr ⟨hacc, hbound⟩
      · exact moneyRange_iff.mpr ⟨h₁, by omega⟩

end CMutableTransaction

/-! ## The transaction hash -/

section Hash

variable [Crypto]

/-- `RefHashDataSummary`. -/
structure RefHashDataSummary where
  nValue : Int64
  scriptPubKeyHash : Uint256
  totalRefs : ℕ
  refsHash : Uint256
deriving DecidableEq

/-- References in increasing order. -/
abbrev sortedRefs (refs : Finset Uint288) : List Uint288 := refs.sort (· ≤ ·)

/-- `getRefHashDataSummary` : the hash of a script and of the references it pushes, in
increasing order. -/
def getRefHashDataSummary (pushRefSet : Finset Uint288) (script : CScript) (amount : Int64) :
    RefHashDataSummary where
  nValue := amount
  scriptPubKeyHash := hash256 script
  totalRefs := pushRefSet.card
  refsHash :=
    if pushRefSet.card = 0 then Blob.null
    else hash256 ((sortedRefs pushRefSet).flatMap Blob.data)

/-- `writeOutputDataSummaryVector` : the bytes an output adds to the hash of the outputs. -/
def writeOutputDataSummaryVector (txout : CTxOut) : Except Failure (List UInt8) :=
  match getPushRefs txout.scriptPubKey with
  | none => .error (.exception "Error: get-push-refs-write-output-data-summary-vector")
  | some refs =>
    let summary := getRefHashDataSummary refs.pushRefSet txout.scriptPubKey txout.nValue
    .ok (serializeAmount summary.nValue ++ summary.scriptPubKeyHash.data ++
      writeLE 4 summary.totalRefs ++ summary.refsHash.data)

/-- `GetHashOutputHashes`. -/
def getHashOutputHashes (vout : List CTxOut) : Except Failure Uint256 := do
  let summaries ← vout.mapM writeOutputDataSummaryVector
  return hash256 summaries.flatten

/-- `GetHashPrevoutInputs`. -/
def getHashPrevoutInputs (vin : List CTxIn) : Uint256 :=
  hash256 (vin.flatMap fun txin => txin.prevout.serialize ++ (hash256 txin.scriptSig).data)

/-- `GetSequenceHash`. -/
def getSequenceHash (vin : List CTxIn) : Uint256 :=
  hash256 (vin.flatMap fun txin => writeLE 4 txin.nSequence.toNat)

namespace CMutableTransaction

/-- The serialized `CTransactionHashPreimage` of `GetTransactionHashPreimage`. -/
def getTransactionHashPreimage (tx : CMutableTransaction) : Except Failure (List UInt8) := do
  let hashOutputHashes ← getHashOutputHashes tx.vout
  return writeLE 4 tx.nVersion.toUInt32.toNat ++ writeLE 4 tx.vin.length ++
    (getHashPrevoutInputs tx.vin).data ++ (getSequenceHash tx.vin).data ++
    writeLE 4 tx.vout.length ++ hashOutputHashes.data ++ writeLE 4 tx.nLockTime.toNat

/-- `CTransaction::ComputeHash`. -/
def computeHash (tx : CMutableTransaction) : Except Failure Uint256 :=
  if tx.nVersion = 3 then do
    let preimage ← tx.getTransactionHashPreimage
    return hash256 preimage
  else .ok (hash256 tx.serialize)

end CMutableTransaction

/-- `CTransaction` : a transaction with its hash, which the constructor computed. The
reader of a serialized vector accepts far fewer than `2 ^ 32` elements, so an output index
fits its 32-bit field. -/
structure CTransaction extends CMutableTransaction where
  hash : Uint256
  hash_eq : toCMutableTransaction.computeHash = .ok hash
  vout_lt : vout.length < 2 ^ 32
deriving DecidableEq

/-- A transaction that is not of version 3. -/
def CTransaction.ofLegacy (tx : CMutableTransaction) (hversion : tx.nVersion ≠ 3)
    (hvout : tx.vout.length < 2 ^ 32) : CTransaction where
  toCMutableTransaction := tx
  hash := hash256 tx.serialize
  hash_eq := if_neg hversion
  vout_lt := hvout

end Hash

/-! The conditions of `CTransaction.ofLegacy` for small transactions. -/

theorem version_one : (1 : Int32) ≠ 3 := by decide

theorem version_two : (2 : Int32) ≠ 3 := by decide

theorem zero_lt_word : 0 < 2 ^ 32 := by decide

theorem one_lt_word : 1 < 2 ^ 32 := by decide

theorem two_lt_word : 2 < 2 ^ 32 := by decide

end RadiantCore
