import RadiantCore.ScriptError
import RadiantCore.Transaction

/-!
# Encodings of signatures and public keys

`sigencoding.cpp`, `sighashtype.h` and `bitfield.cpp` : what a signature, a public key and
the bit field of a multisignature have to look like before they are used.
-/

namespace RadiantCore

/-! ## Signature hash types -/

/-- `SigHashType`, the 32-bit word of `sighashtype.h`. -/
abbrev SigHashType := UInt32

namespace SigHashType

/-- `BaseSigHashType::NONE`. -/
def none : UInt32 := 2

/-- `BaseSigHashType::SINGLE`. -/
def single : UInt32 := 3

/-- `SigHashType::getBaseType`, the five low bits. -/
def getBaseType (sigHash : SigHashType) : UInt32 := sigHash &&& 0x1f

/-- `SigHashType::isDefined` : without the bits for the fork and for any payer, the low byte is
one of the base types. -/
def isDefined (sigHash : SigHashType) : Bool :=
  let baseType := sigHash &&& 0x3f
  1 ≤ baseType ∧ baseType ≤ 3

/-- `SigHashType::hasForkId`. -/
def hasForkId (sigHash : SigHashType) : Bool := sigHash &&& 0x40 ≠ 0

/-- `SigHashType::hasAnyoneCanPay`. -/
def hasAnyoneCanPay (sigHash : SigHashType) : Bool := sigHash &&& 0x80 ≠ 0

end SigHashType

/-- `GetHashType`, the last byte of a signature. -/
def getHashType (vchSig : List UInt8) : SigHashType :=
  (vchSig.getLast?.map UInt8.toUInt32).getD 0

/-! ## Signatures -/

/-- `IsValidDERSignatureEncoding`. Each condition is read after the ones before it, which keep
its index within the signature. -/
def isValidDERSignatureEncoding (sig : List UInt8) : Bool :=
  let byte := fun i => sig.getD i 0
  let lenR := (byte 3).toNat
  let startS := lenR + 4
  let lenS := (byte (startS + 1)).toNat
  8 ≤ sig.length && sig.length ≤ 72 && byte 0 = 0x30 && (byte 1).toNat = sig.length - 2 &&
    byte 2 = 0x02 && lenR ≠ 0 && byte 4 &&& 0x80 = 0 && lenR ≤ sig.length - 7 &&
    !(lenR > 1 && byte 4 = 0x00 && byte 5 &&& 0x80 = 0) &&
    byte startS = 0x02 && lenS ≠ 0 && byte (startS + 2) &&& 0x80 = 0 &&
    startS + lenS + 2 = sig.length &&
    !(lenS > 1 && byte (startS + 2) = 0x00 && byte (startS + 3) &&& 0x80 = 0)

section Signatures

variable [Crypto]

/-- `CheckRawECDSASignatureEncoding`. -/
def checkRawECDSASignatureEncoding (flags : UInt32) (sig : List UInt8) :
    Except ScriptFailure Unit := do
  require (sig.length ≠ 64) (.error .SIG_BADLENGTH)
  require (hasFlag flags .SCRIPT_VERIFY_DERSIG ∨ hasFlag flags .SCRIPT_VERIFY_LOW_S ∨
    hasFlag flags .SCRIPT_VERIFY_STRICTENC → isValidDERSignatureEncoding sig) (.error .SIG_DER)
  require (hasFlag flags .SCRIPT_VERIFY_LOW_S → Crypto.checkLowS sig) (.error .SIG_HIGH_S)

/-- `CheckRawSchnorrSignatureEncoding`. -/
def checkRawSchnorrSignatureEncoding (sig : List UInt8) : Except ScriptFailure Unit :=
  require (sig.length = 64) (.error .SIG_NONSCHNORR)

/-- `CheckRawSignatureEncoding` : 64 bytes are a Schnorr signature. -/
def checkRawSignatureEncoding (flags : UInt32) (sig : List UInt8) : Except ScriptFailure Unit :=
  if sig.length = 64 then .ok () else checkRawECDSASignatureEncoding flags sig

/-- `CheckDataSignatureEncoding`. -/
def checkDataSignatureEncoding (flags : UInt32) (vchSig : List UInt8) :
    Except ScriptFailure Unit :=
  if vchSig = [] then .ok () else checkRawSignatureEncoding flags vchSig

/-- `CheckSighashEncoding`. -/
def checkSighashEncoding (flags : UInt32) (vchSig : List UInt8) : Except ScriptFailure Unit :=
  if hasFlag flags .SCRIPT_VERIFY_STRICTENC then do
    let usesForkId := (getHashType vchSig).hasForkId
    let forkIdEnabled := hasFlag flags .SCRIPT_ENABLE_SIGHASH_FORKID
    require (getHashType vchSig).isDefined (.error .SIG_HASHTYPE)
    require (¬ (¬ forkIdEnabled ∧ usesForkId)) (.error .ILLEGAL_FORKID)
    require (¬ (forkIdEnabled ∧ ¬ usesForkId)) (.error .MUST_USE_FORKID)
  else .ok ()

/-- `CheckTransactionSignatureEncodingImpl` : the signature without its last byte, then that
byte. An empty signature stands for an invalid one. -/
def checkTransactionSignatureEncodingImpl (checkRaw : List UInt8 → Except ScriptFailure Unit)
    (flags : UInt32) (vchSig : List UInt8) : Except ScriptFailure Unit :=
  if vchSig = [] then .ok ()
  else do
    checkRaw vchSig.dropLast
    checkSighashEncoding flags vchSig

/-- `CheckTransactionSignatureEncoding`. -/
def checkTransactionSignatureEncoding (flags : UInt32) : List UInt8 → Except ScriptFailure Unit :=
  checkTransactionSignatureEncodingImpl (checkRawSignatureEncoding flags) flags

/-- `CheckTransactionECDSASignatureEncoding`. -/
def checkTransactionECDSASignatureEncoding (flags : UInt32) :
    List UInt8 → Except ScriptFailure Unit :=
  checkTransactionSignatureEncodingImpl (checkRawECDSASignatureEncoding flags) flags

/-- `CheckTransactionSchnorrSignatureEncoding`. -/
def checkTransactionSchnorrSignatureEncoding (flags : UInt32) :
    List UInt8 → Except ScriptFailure Unit :=
  checkTransactionSignatureEncodingImpl checkRawSchnorrSignatureEncoding flags

end Signatures

/-! ## Public keys and bit fields -/

/-- `IsCompressedOrUncompressedPubKey`. -/
def isCompressedOrUncompressedPubKey (vchPubKey : List UInt8) : Bool :=
  let header := vchPubKey.headD 0
  vchPubKey.length = 33 ∧ (header = 0x02 ∨ header = 0x03) ∨ vchPubKey.length = 65 ∧ header = 0x04

/-- `CheckPubKeyEncoding`. -/
def checkPubKeyEncoding (flags : UInt32) (vchPubKey : List UInt8) : Except ScriptFailure Unit :=
  require (hasFlag flags .SCRIPT_VERIFY_STRICTENC → isCompressedOrUncompressedPubKey vchPubKey)
    (.error .PUBKEYTYPE)

/-- `CPubKey::IsValid` of a key made from these bytes : the header announces their number. -/
def isValidPubKey (vch : List UInt8) : Bool :=
  match vch with
  | [] => false
  | header :: _ =>
    (header = 2 ∨ header = 3) ∧ vch.length = 33 ∨
      (header = 4 ∨ header = 6 ∨ header = 7) ∧ vch.length = 65

/-- `DecodeBitfield`. -/
def decodeBitfield (vch : List UInt8) (size : ℕ) : Except ScriptFailure ℕ := do
  require (size ≤ 32) (.error .INVALID_BITFIELD_SIZE)
  require (vch.length = (size + 7) / 8) (.error .INVALID_BITFIELD_SIZE)
  let bitfield := readLE vch
  require (bitfield &&& (2 ^ size - 1) = bitfield) (.error .INVALID_BIT_RANGE)
  return bitfield

/-- `countBits` of a 32-bit word. -/
def countBits (v : ℕ) : ℕ := (List.range 32).countP fun i => v.testBit i

end RadiantCore
