import RadiantCore.CoinbaseHeight
import RadiantCore.Interpreter

/-!
# Double-spend proofs

A double-spend proof carries what two spenders of an output signed, with their signatures.
`DoubleSpendProof::validate` runs the script of the output with each of them. It compares the
spenders as a whole, signatures included, and the canonical order allows ties : two signatures of the
same data are enough. Under the flags of `validate` a script accepts an ECDSA signature with either
sign of `s`, so a proof need not prove that the owner of a key signed two spends
(`one_spend_proves_double`). It does exactly when no output that is being spent accepts two
signatures of the same data (`dsproof_differs_iff`).
-/

namespace RadiantCore

open Opcode

/-! ## Proofs -/

/-- The loop of `base_blob::Compare`, from the most significant byte. -/
def compareBytes : List UInt8 → List UInt8 → ℤ
  | a :: as, b :: bs => if a > b then 1 else if a < b then -1 else compareBytes as bs
  | _, _ => 0

/-- `base_blob::Compare`. -/
def Blob.compare {w : ℕ} (a b : Blob w) : ℤ := compareBytes a.data.reverse b.data.reverse

/-- `DoubleSpendProof::Spender`. -/
structure Spender where
  txVersion : UInt32
  outSequence : UInt32
  lockTime : UInt32
  hashPrevOutputs : Uint256
  hashSequence : Uint256
  hashOutputHashes : Uint256
  hashOutputs : Uint256
  pushData : List (List UInt8)
deriving DecidableEq

/-- `DoubleSpendProof`, without the hash that is computed from its other members. -/
structure DoubleSpendProof where
  outPoint : COutPoint
  spender1 : Spender
  spender2 : Spender

/-- `DoubleSpendProof::Validity`. -/
inductive Validity
  | Valid
  | MissingTransaction
  | MissingUTXO
  | Invalid
deriving DecidableEq

/-- `MEMPOOL_HEIGHT`. -/
def mempoolHeight : ℕ := 0x7fffffff

/-- The spender with a signature. -/
def Spender.withSig (spender : Spender) (sig : List UInt8) : Spender :=
  { spender with pushData := [sig] }

theorem Spender.eq_withSig {spender spender' : Spender} {sig : List UInt8}
    (h : spender.pushData = [sig])
    (hsame : { spender with pushData := [] } = { spender' with pushData := [] }) :
    spender = spender'.withSig sig := by
  cases spender
  cases spender'
  simp_all [Spender.withSig]

def Spender.serialize (spender : Spender) : List UInt8 :=
  writeLE 4 spender.txVersion.toNat ++ writeLE 4 spender.outSequence.toNat ++
    writeLE 4 spender.lockTime.toNat ++ spender.hashPrevOutputs.data ++ spender.hashSequence.data ++
    spender.hashOutputHashes.data ++ spender.hashOutputs.data ++
    serializeVector serializeBytes spender.pushData

def DoubleSpendProof.serialize (proof : DoubleSpendProof) : List UInt8 :=
  proof.outPoint.serialize ++ proof.spender1.serialize ++ proof.spender2.serialize

/-- The script after `GetOp`. A read that fails has passed the opcode and the size it read. -/
def afterOp : CScript → CScript
  | [] => []
  | opcode :: pc =>
    match getScriptOp (opcode :: pc) with
    | some op => op.pc
    | none => if opcode ≤ OP_PUSHDATA4 then ((pushSize opcode pc).map Prod.snd).getD pc else pc

/-- The public key in the `scriptSig` of a payment to a public key hash : its second element. -/
def scriptSigPubKey (scriptSig : CScript) : List UInt8 :=
  ((getScriptOp (afterOp scriptSig)).map ScriptOp.vch).getD []

section Validate

variable [Crypto]

/-- `CTxMemPool`, as far as the coins and the spenders of its transactions : `get`, and the
transaction of the pool that spends an outpoint. -/
structure CTxMemPool where
  get : TxId → Option CTransaction
  mapNextTx : COutPoint → Option CTransaction

namespace DoubleSpendProof

/-- `GetId`. -/
def getId (proof : DoubleSpendProof) : Uint256 := hash256 proof.serialize

/-- `isEmpty`. -/
def isEmpty (proof : DoubleSpendProof) : Bool :=
  0x7fffffff < proof.outPoint.n.toNat || proof.outPoint.txid.isNull || proof.getId.isNull

/-- `checkSanityOrThrow`. -/
def checkSanityOrThrow (proof : DoubleSpendProof) : Except Failure Unit := do
  require (proof.isEmpty = false) (.exception "DSProof is empty")
  [proof.spender1.pushData, proof.spender2.pushData].forM fun pushData => do
    require (pushData.length = 1) (.exception "DSProof must contain exactly 1 pushData")
    require ((pushData.headD []).length ≤ maxScriptElementSize)
      (.exception "DSProof script size limit exceeded")
  require (proof.spender1 ≠ proof.spender2) (.exception "DSProof both spenders are the same")

/-- The order of the spenders of a proof. -/
def order (proof : DoubleSpendProof) : ℤ :=
  let diff := proof.spender1.hashOutputs.compare proof.spender2.hashOutputs
  if diff = 0 then proof.spender1.hashPrevOutputs.compare proof.spender2.hashPrevOutputs else diff

/-- The digest of `DSPSignatureChecker::CheckSig`. -/
def signatureHash (outPoint : COutPoint) (spender : Spender) (amount : Int64) (hashType : UInt8)
    (scriptCode : CScript) : Uint256 :=
  hash256 (writeLE 4 spender.txVersion.toNat ++ spender.hashPrevOutputs.data ++
    spender.hashSequence.data ++ outPoint.serialize ++ serializeBytes scriptCode ++
    serializeAmount amount ++ writeLE 4 spender.outSequence.toNat ++ spender.hashOutputHashes.data ++
    spender.hashOutputs.data ++ writeLE 4 spender.lockTime.toNat ++ writeLE 4 hashType.toNat)

/-- `DSPSignatureChecker`. -/
def checker (outPoint : COutPoint) (spender : Spender) (amount : Int64) :
    BaseSignatureChecker where
  verifySignature := verifySignature
  checkSig vchSig vchPubKey scriptCode _ :=
    if ¬ isValidPubKey vchPubKey ∨ vchSig = [] then .ok false
    else
      match (spender.pushData.headD []).getLast? with
      | none => .error (.abort "m_spender.pushData.front().back()")
      | some hashType => .ok (verifySignature vchSig.dropLast vchPubKey
          (signatureHash outPoint spender amount hashType scriptCode))
  checkLockTime _ := true
  checkSequence _ := true

/-- The run of the script of a coin for a spender. -/
def verifySpender (outPoint : COutPoint) (coin : Coin) (pubkey : List UInt8) (spender : Spender) :
    Except ScriptFailure ScriptExecutionMetrics :=
  verifyScript
    ⟨setFlag 0 .SCRIPT_ENABLE_SIGHASH_FORKID true, checker outPoint spender coin.out.nValue, none⟩
    (RadiantCore.pushData (spender.pushData.headD []) ++ RadiantCore.pushData pubkey)
    coin.out.scriptPubKey

/-- The coin that a proof is about : a confirmed one or, when there is none, an output of a
transaction of the pool. -/
def getCoin (mempool : CTxMemPool) (pcoinsTip : CoinsMap) (outPoint : COutPoint) : Option Coin :=
  match pcoinsTip.lookup outPoint with
  | some coin => some coin
  | none =>
    (mempool.get outPoint.txid).bind fun tx =>
      tx.vout[outPoint.n.toNat]?.map fun out => ⟨out, mempoolHeight, false⟩

/-- The transaction that spends the outpoint : the one passed to `validate`, or that of the
pool. -/
def findSpendingTx (mempool : CTxMemPool) (spendingTx : Option CTransaction)
    (outPoint : COutPoint) : Except Failure (Option CTransaction) :=
  match spendingTx with
  | some tx => .ok (some tx)
  | none =>
    match mempool.mapNextTx outPoint with
    | none => .ok none
    | some tx =>
      match mempool.get tx.getId with
      | none => .error (.abort "bool(spendingTx)")
      | some tx => .ok (some tx)

/-- The public key in the input that spends the outpoint, empty when there is none. -/
def findPubKey (tx : CTransaction) (outPoint : COutPoint) : List UInt8 :=
  ((tx.vin.find? fun vin => vin.prevout = outPoint).map
    fun vin => scriptSigPubKey vin.scriptSig).getD []

/-- A result of `VerifyScript`, as the `bool` that it returns. -/
def verdict (res : Except ScriptFailure ScriptExecutionMetrics) : Except Failure Bool :=
  match res with
  | .ok _ => .ok true
  | .error (.abort what) => .error (.abort what)
  | .error _ => .ok false

/-- `DoubleSpendProof::validate`. -/
def validate (mempool : CTxMemPool) (pcoinsTip : CoinsMap) (spendingTx : Option CTransaction)
    (proof : DoubleSpendProof) : Except Failure Validity :=
  match proof.checkSanityOrThrow with
  | .error _ => .ok .Invalid
  | .ok _ =>
    if 0 < proof.order then .ok .Invalid
    else
      match getCoin mempool pcoinsTip proof.outPoint with
      | none => .ok .MissingUTXO
      | some coin =>
        if coin.isSpent then .ok .MissingUTXO
        else do
          match ← findSpendingTx mempool spendingTx proof.outPoint with
          | none => return .MissingTransaction
          | some tx =>
            let pubkey := findPubKey tx proof.outPoint
            if pubkey = [] then return .Invalid
            let first ← verdict (verifySpender proof.outPoint coin pubkey proof.spender1)
            if first = false then return .Invalid
            let second ← verdict (verifySpender proof.outPoint coin pubkey proof.spender2)
            if second = false then return .Invalid
            return .Valid

/-! ## What a valid proof proves -/

/-- The spenders agree in all that the digest covers, the hash type at the end of their signatures
included. -/
def SameSigned (proof : DoubleSpendProof) : Prop :=
  { proof.spender1 with pushData := [] } = { proof.spender2 with pushData := [] } ∧
    (proof.spender1.pushData.headD []).getLast? = (proof.spender2.pushData.headD []).getLast?

/-- The script of the coin that an outpoint names accepts a spender. -/
def Accepts (mempool : CTxMemPool) (pcoinsTip : CoinsMap) (spendingTx : Option CTransaction)
    (outPoint : COutPoint) (spender : Spender) : Prop :=
  ∃ coin tx, getCoin mempool pcoinsTip outPoint = some coin ∧ coin.isSpent = false ∧
    findSpendingTx mempool spendingTx outPoint = .ok (some tx) ∧ findPubKey tx outPoint ≠ [] ∧
    ∃ metrics, verifySpender outPoint coin (findPubKey tx outPoint) spender = .ok metrics

/-- No coin accepts two signatures of the same data, in a proof that is not empty. -/
def SignsOnce (mempool : CTxMemPool) (pcoinsTip : CoinsMap) (spendingTx : Option CTransaction) :
    Prop :=
  ∀ (outPoint : COutPoint) (spender : Spender) (sig sig' : List UInt8),
    (DoubleSpendProof.mk outPoint (spender.withSig sig) (spender.withSig sig')).isEmpty = false →
    sig.length ≤ maxScriptElementSize → sig'.length ≤ maxScriptElementSize →
    sig.getLast? = sig'.getLast? →
    Accepts mempool pcoinsTip spendingTx outPoint (spender.withSig sig) →
    Accepts mempool pcoinsTip spendingTx outPoint (spender.withSig sig') → sig = sig'

variable {mempool : CTxMemPool} {pcoinsTip : CoinsMap} {spendingTx : Option CTransaction}
  {proof : DoubleSpendProof}

omit [Crypto] in
theorem compareBytes_self (bytes : List UInt8) : compareBytes bytes bytes = 0 := by
  induction bytes with
  | nil => rfl
  | cons b bytes ih => simp [compareBytes, ih]

omit [Crypto] in
theorem verdict_eq_ok_true {res : Except ScriptFailure ScriptExecutionMetrics} :
    verdict res = .ok true ↔ ∃ metrics, res = .ok metrics := by
  unfold verdict
  split <;> simp

/-- A proof is sane when it is not empty and has two different spenders with a signature each. -/
theorem checkSanityOrThrow_eq_ok_iff {u : Unit} :
    proof.checkSanityOrThrow = .ok u ↔ proof.isEmpty = false ∧
      (∃ sig, proof.spender1.pushData = [sig] ∧ sig.length ≤ maxScriptElementSize) ∧
      (∃ sig, proof.spender2.pushData = [sig] ∧ sig.length ≤ maxScriptElementSize) ∧
      proof.spender1 ≠ proof.spender2 := by
  have hpush : ∀ pushData : List (List UInt8),
      pushData.length = 1 ∧ (pushData.headD []).length ≤ maxScriptElementSize ↔
        ∃ sig, pushData = [sig] ∧ sig.length ≤ maxScriptElementSize := by
    intro pushData
    rw [List.length_eq_one_iff]
    constructor
    · rintro ⟨⟨sig, rfl⟩, hlen⟩
      exact ⟨sig, rfl, hlen⟩
    · rintro ⟨sig, rfl, hlen⟩
      exact ⟨⟨sig, rfl⟩, hlen⟩
  simp only [checkSanityOrThrow, bind_eq_ok_iff, exists_unit_iff, require_eq_ok_iff,
    forM_eq_ok_iff, List.forall_mem_cons, List.not_mem_nil, false_imp_iff, implies_true, and_true,
    hpush, and_assoc]

omit [Crypto] in
/-- The two runs of `validate`. -/
theorem runs_eq_valid_iff {first second : Except ScriptFailure ScriptExecutionMetrics} :
    (do
      let first ← verdict first
      if first = false then return .Invalid
      let second ← verdict second
      if second = false then return .Invalid
      return .Valid : Except Failure Validity) = .ok .Valid ↔
      (∃ metrics, first = .ok metrics) ∧ ∃ metrics, second = .ok metrics := by
  rw [← verdict_eq_ok_true, ← verdict_eq_ok_true]
  cases verdict first with
  | error e => simp
  | ok b =>
    cases b with
    | false => simp
    | true =>
      cases verdict second with
      | error e => simp
      | ok b => cases b <;> simp

/-- What a valid proof passed. -/
theorem validate_eq_valid_iff :
    validate mempool pcoinsTip spendingTx proof = .ok .Valid ↔
      proof.checkSanityOrThrow = .ok () ∧ proof.order ≤ 0 ∧
        Accepts mempool pcoinsTip spendingTx proof.outPoint proof.spender1 ∧
        Accepts mempool pcoinsTip spendingTx proof.outPoint proof.spender2 := by
  unfold validate
  cases proof.checkSanityOrThrow with
  | error e => simp
  | ok u =>
    by_cases horder : 0 < proof.order
    · simp [horder]
    · simp only [if_neg horder, not_lt.mp horder, true_and]
      cases hcoin : getCoin mempool pcoinsTip proof.outPoint with
      | none => simp [Accepts, hcoin]
      | some coin =>
        cases hspent : coin.isSpent with
        | true => simp [Accepts, hcoin, hspent]
        | false =>
          cases htx : findSpendingTx mempool spendingTx proof.outPoint with
          | error e => simp [Accepts, htx, hspent]
          | ok tx? =>
            cases tx? with
            | none => simp [Accepts, htx, hspent]
            | some tx =>
              by_cases hkey : findPubKey tx proof.outPoint = []
              · simp [Accepts, htx, hspent, hkey]
              · simp only [Accepts, hcoin, htx, hkey, Option.some.injEq, Except.ok.injEq,
                  exists_and_left, exists_eq_left', hspent, Bool.false_eq_true, if_false, ok_bind,
                  true_and, ne_eq, not_false_eq_true]
                exact runs_eq_valid_iff

/-- Every valid proof has spenders that differ in what they signed exactly when no coin accepts
two signatures of the same data. -/
theorem dsproof_differs_iff (mempool : CTxMemPool) (pcoinsTip : CoinsMap)
    (spendingTx : Option CTransaction) :
    (∀ proof, validate mempool pcoinsTip spendingTx proof = .ok .Valid → ¬ proof.SameSigned) ↔
      SignsOnce mempool pcoinsTip spendingTx := by
  simp only [validate_eq_valid_iff, checkSanityOrThrow_eq_ok_iff]
  constructor
  · intro h outPoint spender sig sig' hempty hsize hsize' htype hacc hacc'
    by_contra hne
    refine h ⟨outPoint, spender.withSig sig, spender.withSig sig'⟩
      ⟨⟨hempty, ⟨sig, rfl, hsize⟩, ⟨sig', rfl, hsize'⟩, fun heq => hne ?_⟩, ?_, hacc, hacc'⟩
      ⟨rfl, htype⟩
    · simpa [Spender.withSig] using heq
    · simp [order, Blob.compare, compareBytes_self, Spender.withSig]
  · rintro h ⟨outPoint, spender, spender'⟩
      ⟨⟨hempty, ⟨sig, hsig, hsize⟩, ⟨sig', hsig', hsize'⟩, hne⟩, -, hacc, hacc'⟩ ⟨hsame, htype⟩
    have hfirst : spender = spender.withSig sig := Spender.eq_withSig hsig rfl
    have hsecond : spender' = spender.withSig sig' := Spender.eq_withSig hsig' hsame.symm
    refine hne (hfirst.trans ?_)
    rw [hsecond]
    dsimp only at hempty hacc hacc' htype
    rw [hsig, hsig'] at htype
    rw [hfirst] at hacc
    rw [hsecond] at hacc' hempty
    rw [hfirst] at hempty
    rw [h outPoint spender sig sig' hempty hsize hsize' htype hacc hacc']

end DoubleSpendProof

end Validate

section Sample

/-- A public key. -/
def sampleSigner : List UInt8 := 0x02 :: List.replicate 32 0x01

/-- A signature of all inputs and outputs with `r = 1` and `s = 1`. -/
def sampleLowSig : List UInt8 := [0x30, 0x06, 0x02, 0x01, 0x01, 0x02, 0x01, 0x01, 0x41]

/-- The same signature with `n - s` in the place of `s`, for the order `n` of the group. -/
def sampleHighSig : List UInt8 :=
  [0x30, 0x26, 0x02, 0x01, 0x01, 0x02, 0x21, 0x00,
    0xff, 0xff, 0xff, 0xff, 0xff, 0xff, 0xff, 0xff, 0xff, 0xff, 0xff, 0xff, 0xff, 0xff, 0xff, 0xfe,
    0xba, 0xae, 0xdc, 0xe6, 0xaf, 0x48, 0xa0, 0x3b, 0xbf, 0xd2, 0x5e, 0x8c, 0xd0, 0x36, 0x41, 0x40,
    0x41]

/-- Stand-ins for the cryptographic primitives, with which one key has one signature, in its two
forms. -/
@[reducible] def sampleCrypto : Crypto :=
  { Crypto.toy with
    verifyECDSA := fun vchPubKey _ vchSig => vchPubKey = sampleSigner ∧
      (vchSig = sampleLowSig.dropLast ∨ vchSig = sampleHighSig.dropLast) }

attribute [local instance] sampleCrypto

/-- An outpoint that is not null. -/
def sampleSpent : COutPoint := ⟨⟨List.replicate 32 0x01, rfl⟩, 0⟩

/-- A payment to the hash of the public key. -/
def samplePaid : CoinsMap := (∅ : CoinsMap).insert sampleSpent
  ⟨⟨10, [OP_DUP.toByte, OP_HASH160.toByte, 0x14] ++ (hash160 sampleSigner).data ++
    [OP_EQUALVERIFY.toByte, OP_CHECKSIG.toByte]⟩, 1, false⟩

/-- The transaction of the owner of the key. -/
def sampleOwnSpend : CTransaction :=
  .ofLegacy ⟨[⟨sampleSpent, pushData sampleLowSig ++ pushData sampleSigner, 0xffffffff⟩],
      [⟨10, [0x51]⟩], 1, 0⟩
    version_one one_lt_word

/-- What the owner signed. -/
def sampleSpender : Spender where
  txVersion := 1
  outSequence := 0xffffffff
  lockTime := 0
  hashPrevOutputs := getPrevoutHash sampleOwnSpend.vin
  hashSequence := getSequenceHash sampleOwnSpend.vin
  hashOutputHashes := ((getHashOutputHashes sampleOwnSpend.vout).toOption).getD Blob.null
  hashOutputs := getOutputsHash sampleOwnSpend.vout
  pushData := []

/-- A pool with this transaction only. -/
def samplePool : CTxMemPool where
  get txid := if txid = sampleOwnSpend.getId then some sampleOwnSpend else none
  mapNextTx o := if o = sampleSpent then some sampleOwnSpend else none

/-- One spend and the other form of its signature are a valid proof. -/
theorem one_spend_proves_double :
    let proof : DoubleSpendProof :=
      ⟨sampleSpent, sampleSpender.withSig sampleLowSig, sampleSpender.withSig sampleHighSig⟩
    proof.validate samplePool samplePaid none = .ok .Valid ∧ proof.SameSigned := by
  refine ⟨?_, rfl, rfl⟩
  decide +kernel

end Sample

end RadiantCore
