import RadiantCore.SigEncoding

/-!
# Signature hashes and the signature checker

`SignatureHash` of `script/interpreter.cpp` and the checker of the signatures and lock times of
a transaction. The digest a signature signs has two forms : the one with the bit
`SIGHASH_FORKID`, which commits to hashes of the parts of the transaction, and the legacy
one, which serializes the transaction with some parts blanked out.

The index of the signed input is below the number of inputs by its type, which is the
assertion at the start of `SignatureHash`.
-/

namespace RadiantCore

open Opcode

/-! ## The legacy serialization -/

/-- The bytes a failed read steps over : the opcode, and the size of its operand when it is
there. -/
def failedRead : CScript → List UInt8
  | [] => []
  | opcode :: pc =>
    opcode :: if opcode ≤ OP_PUSHDATA4 ∧ sizeWidth opcode ≤ pc.length then
      pc.take (sizeWidth opcode) else []

/-- The bytes of the reads of a script, without the code separators. -/
def scriptCodeBytes : CScript → List (Option ScriptOp) → List UInt8
  | _, [] => []
  | s, none :: _ => failedRead s
  | s, some op :: ops =>
    (if op.opcode = OP_CODESEPARATOR then [] else s.take (s.length - op.pc.length)) ++
      scriptCodeBytes op.pc ops

/-- `SerializeScriptCode`. -/
def serializeScriptCode (scriptCode : CScript) : List UInt8 :=
  let ops := scriptOps scriptCode
  let nCodeSeparators := ops.countP fun read =>
    read.any fun op => op.opcode == OP_CODESEPARATOR.toByte
  writeCompactSize (scriptCode.length - nCodeSeparators) ++ scriptCodeBytes scriptCode ops

section Serializer

variable (tx : CMutableTransaction) (scriptCode : CScript) (nIn : Fin tx.vin.length)
  (sigHashType : SigHashType)

/-- Whether the outputs, or those of the other inputs, are left open. -/
def openOutputs : Bool :=
  sigHashType.getBaseType = SigHashType.single ∨ sigHashType.getBaseType = SigHashType.none

/-- `SerializeInput` : only the signed input keeps its script. -/
def serializeInput (txin : CTxIn) (nInput : ℕ) : List UInt8 :=
  txin.prevout.serialize ++
    (if nInput ≠ nIn then serializeBytes [] else serializeScriptCode scriptCode) ++
    writeLE 4 (if nInput ≠ nIn ∧ openOutputs sigHashType then 0 else txin.nSequence.toNat)

/-- `SerializeOutput` : with `SINGLE` the other outputs are null. -/
def serializeOutput (txout : CTxOut) (nOutput : ℕ) : List UInt8 :=
  if sigHashType.getBaseType = SigHashType.single ∧ nOutput ≠ nIn then CTxOut.serialize ⟨-1, []⟩
  else txout.serialize

/-- `CTransactionSignatureSerializer::Serialize`. -/
def signatureSerialize : List UInt8 :=
  let vin := if sigHashType.hasAnyoneCanPay then [(tx.vin.get nIn, nIn.val)] else tx.vin.zipIdx
  let vout :=
    if sigHashType.getBaseType = SigHashType.none then []
    else if sigHashType.getBaseType = SigHashType.single then tx.vout.take (nIn + 1)
    else tx.vout
  writeLE 4 tx.nVersion.toUInt32.toNat ++
    serializeVector (fun p => serializeInput tx scriptCode nIn sigHashType p.1 p.2) vin ++
    serializeVector (fun p => serializeOutput tx nIn sigHashType p.1 p.2) vout.zipIdx ++
    writeLE 4 tx.nLockTime.toNat

end Serializer

/-! ## The digest -/

section Digest

variable [Crypto]

/-- `GetPrevoutHash`. -/
def getPrevoutHash (vin : List CTxIn) : Uint256 :=
  hash256 (vin.flatMap fun txin => txin.prevout.serialize)

/-- `GetOutputsHash`. -/
def getOutputsHash (vout : List CTxOut) : Uint256 := hash256 (vout.flatMap CTxOut.serialize)

/-- `PrecomputedTransactionData`. -/
structure PrecomputedTransactionData where
  hashPrevouts : Uint256
  hashSequence : Uint256
  hashOutputs : Uint256
  hashOutputHashes : Uint256

/-- The constructor of `PrecomputedTransactionData`. -/
def precomputeTransactionData (tx : CMutableTransaction) :
    Except Failure PrecomputedTransactionData := do
  let hashOutputHashes ← getHashOutputHashes tx.vout
  return ⟨getPrevoutHash tx.vin, getSequenceHash tx.vin, getOutputsHash tx.vout, hashOutputHashes⟩

/-- An exception of the code of transactions, inside the interpreter. That code fails in no
other way here. -/
def rethrow {α : Type} : Except Failure α → Except ScriptFailure α
  | .ok a => .ok a
  | .error (.exception what) => .error (.exception what)
  | .error _ => .error (.exception "")

variable (scriptCode : CScript) (tx : CMutableTransaction) (nIn : Fin tx.vin.length)
  (sigHashType : SigHashType) (amount : Int64)

/-- The hashes of the outputs in a digest with `SIGHASH_FORKID` : `hashOutputs` and
`hashOutputHashes`. -/
def signedOutputHashes (cache : Option PrecomputedTransactionData) :
    Except ScriptFailure (Uint256 × Uint256) :=
  if ¬ openOutputs sigHashType then
    match cache with
    | some txdata => .ok (txdata.hashOutputs, txdata.hashOutputHashes)
    | none => do
      let hashOutputHashes ← rethrow (getHashOutputHashes tx.vout)
      return (getOutputsHash tx.vout, hashOutputHashes)
  else
    match tx.vout[nIn.val]? with
    | some txout =>
      if sigHashType.getBaseType = SigHashType.single then do
        let summary ← rethrow (writeOutputDataSummaryVector txout)
        return (hash256 txout.serialize, hash256 summary)
      else .ok (Blob.null, Blob.null)
    | none => .ok (Blob.null, Blob.null)

/-- The digest with `SIGHASH_FORKID`. -/
def forkIdSignatureHash (cache : Option PrecomputedTransactionData) :
    Except ScriptFailure Uint256 := do
  let hashPrevouts := if sigHashType.hasAnyoneCanPay then Blob.null else
    (cache.map PrecomputedTransactionData.hashPrevouts).getD (getPrevoutHash tx.vin)
  let hashSequence := if sigHashType.hasAnyoneCanPay ∨ openOutputs sigHashType then Blob.null else
    (cache.map PrecomputedTransactionData.hashSequence).getD (getSequenceHash tx.vin)
  let (hashOutputs, hashOutputHashes) ← signedOutputHashes tx nIn sigHashType cache
  return hash256 (writeLE 4 tx.nVersion.toUInt32.toNat ++ hashPrevouts.data ++ hashSequence.data ++
    (tx.vin.get nIn).prevout.serialize ++ serializeBytes scriptCode ++ serializeAmount amount ++
    writeLE 4 (tx.vin.get nIn).nSequence.toNat ++ hashOutputHashes.data ++ hashOutputs.data ++
    writeLE 4 tx.nLockTime.toNat ++ writeLE 4 sigHashType.toNat)

/-- The legacy digest. It is 1 for a `SINGLE` without the output of its index. -/
def legacySignatureHash : Uint256 :=
  if sigHashType.getBaseType = SigHashType.single ∧ tx.vout.length ≤ nIn then
    ⟨1 :: List.replicate 31 0, rfl⟩
  else hash256 (signatureSerialize tx scriptCode nIn sigHashType ++ writeLE 4 sigHashType.toNat)

/-- `SignatureHash`. -/
def signatureHash (cache : Option PrecomputedTransactionData) (flags : UInt32) :
    Except ScriptFailure Uint256 :=
  if sigHashType.hasForkId ∧ hasFlag flags .SCRIPT_ENABLE_SIGHASH_FORKID then
    forkIdSignatureHash scriptCode tx nIn sigHashType amount cache
  else .ok (legacySignatureHash scriptCode tx nIn sigHashType)

end Digest

/-! ## The checker -/

/-- `BaseSignatureChecker`, the interface of the checker of signatures and lock times. -/
structure BaseSignatureChecker where
  verifySignature : (vchSig vchPubKey : List UInt8) → (sighash : Uint256) → Bool
  checkSig : (vchSig vchPubKey : List UInt8) → (scriptCode : CScript) → (flags : UInt32) →
    Except ScriptFailure Bool
  checkLockTime : (nLockTime : ℤ) → Bool
  checkSequence : (nSequence : ℤ) → Bool

section Checker

variable [Crypto]

/-- `BaseSignatureChecker::VerifySignature` : 64 bytes are a Schnorr signature. -/
def verifySignature (vchSig vchPubKey : List UInt8) (sighash : Uint256) : Bool :=
  isValidPubKey vchPubKey &&
    if vchSig.length = 64 then Crypto.verifySchnorr vchPubKey sighash vchSig
    else Crypto.verifyECDSA vchPubKey sighash vchSig

variable (tx : CMutableTransaction) (nIn : Fin tx.vin.length)

/-- `GenericTransactionSignatureChecker::CheckSig`. -/
def checkSig (amount : Int64) (txdata : Option PrecomputedTransactionData)
    (vchSigIn vchPubKey : List UInt8) (scriptCode : CScript) (flags : UInt32) :
    Except ScriptFailure Bool :=
  if ¬ isValidPubKey vchPubKey ∨ vchSigIn = [] then .ok false
  else do
    let sighash ← signatureHash scriptCode tx nIn (getHashType vchSigIn) amount txdata flags
    return verifySignature vchSigIn.dropLast vchPubKey sighash

/-- `GenericTransactionSignatureChecker::CheckLockTime`. -/
def checkLockTime (nLockTime : ℤ) : Bool :=
  let txLockTime : ℤ := tx.nLockTime.toNat
  (txLockTime < locktimeThreshold ∧ nLockTime < locktimeThreshold ∨
    locktimeThreshold ≤ txLockTime ∧ locktimeThreshold ≤ nLockTime) ∧
    nLockTime ≤ txLockTime ∧ (tx.vin.get nIn).nSequence ≠ 0xffffffff

/-- `GenericTransactionSignatureChecker::CheckSequence`, of an operand that is not negative. -/
def checkSequence (nSequence : ℤ) : Bool :=
  let txToSequence := (tx.vin.get nIn).nSequence
  let nLockTimeMask : ℕ := 0x0040ffff
  let txToSequenceMasked := txToSequence.toNat &&& nLockTimeMask
  let nSequenceMasked := nSequence.toNat &&& nLockTimeMask
  2 ≤ tx.nVersion.toUInt32 ∧ txToSequence &&& 0x80000000 = 0 ∧
    (txToSequenceMasked < 0x00400000 ∧ nSequenceMasked < 0x00400000 ∨
      0x00400000 ≤ txToSequenceMasked ∧ 0x00400000 ≤ nSequenceMasked) ∧
    nSequenceMasked ≤ txToSequenceMasked

/-- `TransactionSignatureChecker`, for an input of a transaction and the amount it spends. -/
def transactionSignatureChecker (amount : Int64) (txdata : Option PrecomputedTransactionData) :
    BaseSignatureChecker where
  verifySignature := verifySignature
  checkSig := checkSig tx nIn amount txdata
  checkLockTime := checkLockTime tx nIn
  checkSequence := checkSequence tx nIn

end Checker

end RadiantCore
