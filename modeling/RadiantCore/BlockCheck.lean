import RadiantCore.Coins

/-!
# Context-free checks of transactions and blocks

`consensus/tx_check.cpp` and `CheckBlock` of `validation.cpp` : what a transaction or a
block has to satisfy whatever the chain it extends. The facts later files use are
`checkTransactionCommon_eq_ok`, which says that the values of the outputs and their sum
are in range, and `checkBlock_eq_ok`, which says that a block starts with a coinbase and
that its other transactions are regular.
-/

namespace RadiantCore

/-- `state.DoS(level, false, REJECT_INVALID, reason)`. -/
def rejectInvalid (level : ℕ) (reason : String) : Failure := .invalid level .REJECT_INVALID reason

/-! ## Transactions -/

/-- `MAX_TX_SIZE`. -/
def maxTxSize : ℕ := 12000000

/-- `MAX_COINBASE_SCRIPTSIG_SIZE`. -/
def maxCoinbaseScriptSigSize : ℕ := 2048

/-- One iteration of the loop of `CheckTransactionCommon` over the outputs. -/
def checkOutputValue (nValueOut : ℤ) (txout : CTxOut) : Except Failure ℤ := do
  require (0 ≤ txout.nValue.toInt) (rejectInvalid 100 "bad-txns-vout-negative")
  require (txout.nValue.toInt ≤ maxMoney) (rejectInvalid 100 "bad-txns-vout-toolarge")
  let nValueOut ← addAmount nValueOut txout.nValue.toInt
  require (moneyRange nValueOut) (rejectInvalid 100 "bad-txns-txouttotal-toolarge")
  return nValueOut

/-- `CheckTransactionCommon`. -/
def checkTransactionCommon (tx : CMutableTransaction) : Except Failure Unit := do
  require (tx.vin ≠ []) (rejectInvalid 10 "bad-txns-vin-empty")
  require (tx.vout ≠ []) (rejectInvalid 10 "bad-txns-vout-empty")
  require (tx.getTotalSize ≤ maxTxSize) (rejectInvalid 100 "bad-txns-oversize")
  let _ ← tx.vout.foldlM checkOutputValue 0

/-- `CheckCoinbase`. -/
def checkCoinbase (tx : CMutableTransaction) : Except Failure Unit := do
  require tx.isCoinBase (rejectInvalid 100 "bad-cb-missing")
  checkTransactionCommon tx
  let size := (tx.vin.head?.map fun txin => txin.scriptSig.length).getD 0
  require (1 ≤ size ∧ size ≤ maxCoinbaseScriptSigSize) (rejectInvalid 100 "bad-cb-length")

/-- The check of `CheckRegularTransaction` for fewer than 120 inputs : no prevout is null
or equal to a later one. -/
def checkInputPairs : List CTxIn → Except Failure Unit
  | [] => .ok ()
  | txin :: vin => do
    require (¬ txin.prevout.isNull) (rejectInvalid 10 "bad-txns-prevout-null")
    require (∀ txin' ∈ vin, txin.prevout ≠ txin'.prevout)
      (rejectInvalid 100 "bad-txns-inputs-duplicate")
    checkInputPairs vin

/-- `CheckRegularTransaction`. From 120 inputs on the source looks for equal neighbours among
the sorted prevouts. -/
def checkRegularTransaction (tx : CMutableTransaction) : Except Failure Unit := do
  require (¬ tx.isCoinBase) (rejectInvalid 100 "bad-tx-coinbase")
  checkTransactionCommon tx
  if tx.vin.length < 120 then checkInputPairs tx.vin
  else do
    require (∀ txin ∈ tx.vin, ¬ txin.prevout.isNull) (rejectInvalid 10 "bad-txns-prevout-null")
    require (tx.vin.map CTxIn.prevout).Nodup (rejectInvalid 100 "bad-txns-inputs-duplicate")

/-- The loop over the outputs succeeds when no value is negative and their sum is in
range. -/
theorem foldlM_checkOutputValue_eq_ok_iff {vout : List CTxOut} {v : ℤ} :
    vout.foldlM checkOutputValue 0 = .ok v ↔ (∀ out ∈ vout, 0 ≤ out.nValue.toInt) ∧
      (vout.map fun out => out.nValue.toInt).sum ≤ maxMoney ∧
      v = (vout.map fun out => out.nValue.toInt).sum := by
  rw [foldlM_boundedSum_eq_ok_iff (fun _ => True) (fun out : CTxOut => out.nValue.toInt) maxMoney _
    le_rfl (by decide)]
  · simp
  · intro acc out acc' hacc hbound
    simp only [checkOutputValue, bind_eq_ok_iff, exists_unit_iff, require_eq_ok_iff,
      pure_eq_ok_iff, moneyRange_iff, true_and]
    constructor
    · rintro ⟨h₁, h₂, m, hm, ⟨h₃, h₄⟩, rfl⟩
      obtain rfl := addAmount_eq_ok hm
      exact ⟨h₁, h₄, rfl⟩
    · rintro ⟨h₁, h₂, rfl⟩
      refine ⟨h₁, by omega, _, addAmount_of_moneyRange ?_ ?_, ⟨by omega, h₂⟩, rfl⟩
      · exact moneyRange_iff.mpr ⟨hacc, hbound⟩
      · exact moneyRange_iff.mpr ⟨h₁, by omega⟩

variable {tx : CMutableTransaction} {u : Unit}

theorem checkTransactionCommon_eq_ok_iff :
    checkTransactionCommon tx = .ok u ↔ tx.vin ≠ [] ∧ tx.vout ≠ [] ∧
      tx.getTotalSize ≤ maxTxSize ∧ (∀ out ∈ tx.vout, 0 ≤ out.nValue.toInt) ∧
      tx.valueOut ≤ maxMoney := by
  simp only [checkTransactionCommon, bind_eq_ok_iff, exists_unit_iff, require_eq_ok_iff,
    foldlM_checkOutputValue_eq_ok_iff, pure_eq_ok_iff, CMutableTransaction.valueOut]
  simp

theorem checkInputPairs_eq_ok_iff {vin : List CTxIn} :
    checkInputPairs vin = .ok u ↔ (∀ txin ∈ vin, txin.prevout.isNull = false) ∧
      (vin.map CTxIn.prevout).Nodup := by
  induction vin with
  | nil => simp [checkInputPairs]
  | cons txin vin ih =>
    simp only [checkInputPairs, require_bind_eq_ok_iff, ih, List.forall_mem_cons, List.map_cons,
      List.nodup_cons, List.mem_map, not_exists, not_and, Bool.not_eq_true]
    constructor
    · rintro ⟨hnull, hne, hnulls, hnodup⟩
      exact ⟨⟨hnull, hnulls⟩, fun a ha h => hne a ha h.symm, hnodup⟩
    · rintro ⟨⟨hnull, hnulls⟩, hne, hnodup⟩
      exact ⟨hnull, fun a ha h => hne a ha h.symm, hnulls, hnodup⟩

/-- A regular transaction is no coinbase, passes the common checks, and its prevouts are
distinct and not null. -/
theorem checkRegularTransaction_eq_ok_iff :
    checkRegularTransaction tx = .ok u ↔ tx.isCoinBase = false ∧
      checkTransactionCommon tx = .ok () ∧ (∀ txin ∈ tx.vin, txin.prevout.isNull = false) ∧
      (tx.vin.map CTxIn.prevout).Nodup := by
  simp only [checkRegularTransaction, bind_eq_ok_iff, exists_unit_iff, require_eq_ok_iff,
    Bool.not_eq_true]
  split_ifs
  · rw [checkInputPairs_eq_ok_iff]
  · rw [require_bind_eq_ok_iff, require_eq_ok_iff]

theorem checkCoinbase_eq_ok (h : checkCoinbase tx = .ok u) :
    tx.isCoinBase = true ∧ checkTransactionCommon tx = .ok () := by
  simp only [checkCoinbase, bind_eq_ok_iff, exists_unit_iff, require_eq_ok_iff] at h
  obtain ⟨hcb, hcommon, -⟩ := h
  exact ⟨hcb, hcommon⟩

/-! ## Blocks -/

/-- `CBlockHeader`. -/
structure CBlockHeader where
  nVersion : Int32
  hashPrevBlock : Uint256
  hashMerkleRoot : Uint256
  nTime : UInt32
  nBits : UInt32
  nNonce : UInt32
deriving DecidableEq

def CBlockHeader.serialize (header : CBlockHeader) : List UInt8 :=
  writeLE 4 header.nVersion.toUInt32.toNat ++ header.hashPrevBlock.data ++
    header.hashMerkleRoot.data ++ writeLE 4 header.nTime.toNat ++
    writeLE 4 header.nBits.toNat ++ writeLE 4 header.nNonce.toNat

/-- The consensus parameters validation reads. -/
structure Params where
  hashGenesisBlock : Uint256
  nSubsidyHalvingInterval : ℕ
  BIP16Height : ℕ
  BIP34Height : ℕ
  BIP65Height : ℕ
  BIP66Height : ℕ
  CSVHeight : ℕ
  uahfHeight : ℕ
  ERHeight : ℕ
  PushTXStateHeight : ℕ
  powLimit : Uint256

/-- The parameters of the main network, `CMainParams`. -/
def mainParams : Params where
  hashGenesisBlock :=
    ⟨[0xb4, 0x3f, 0x00, 0x4e, 0x6f, 0x7a, 0x1f, 0x7e, 0x43, 0x9e, 0xa5, 0x0c, 0x6c, 0x2a, 0xac, 0x60,
      0xb6, 0xff, 0xb3, 0x76, 0x68, 0x8d, 0xe2, 0x8b, 0x5d, 0xed, 0xd8, 0x65, 0x00, 0x00, 0x00, 0x00], rfl⟩
  nSubsidyHalvingInterval := 210000
  BIP16Height := 0
  BIP34Height := 17
  BIP65Height := 100
  BIP66Height := 101
  CSVHeight := 102
  uahfHeight := 200
  ERHeight := 62000
  PushTXStateHeight := 214555
  powLimit := ⟨List.replicate 28 0xff ++ List.replicate 4 0x00, rfl⟩

/-- `BlockValidationOptions`. -/
structure BlockValidationOptions where
  excessiveBlockSize : ℕ
  checkPoW : Bool := true
  checkMerkleRoot : Bool := true

/-- `arith_uint256::SetCompact` : the target, whether it is negative and whether it does
not fit 256 bits. -/
def setCompact (nCompact : UInt32) : ℕ × Bool × Bool :=
  let nSize := nCompact.toNat / 2 ^ 24
  let nWord := nCompact.toNat % 2 ^ 23
  let nWord' := if nSize ≤ 3 then nWord / 2 ^ (8 * (3 - nSize)) else nWord
  let target := if nSize ≤ 3 then nWord' else nWord * 2 ^ (8 * (nSize - 3)) % 2 ^ 256
  (target, nWord' ≠ 0 ∧ nCompact &&& 0x00800000 ≠ 0,
    nWord' ≠ 0 ∧ (nSize > 34 ∨ nWord' > 0xff ∧ nSize > 33 ∨ nWord' > 0xffff ∧ nSize > 32))

/-- `CheckProofOfWork`. -/
def checkProofOfWork (hash : Uint256) (nBits : UInt32) (params : Params) : Bool :=
  let (target, fNegative, fOverflow) := setCompact nBits
  !fNegative && target ≠ 0 && !fOverflow && target ≤ params.powLimit.toNat &&
    hash.toNat ≤ target

section Block

variable [Crypto]

/-- `CBlock`. -/
structure CBlock extends CBlockHeader where
  vtx : List CTransaction

/-- `CBlockHeader::GetHash`, double SHA-512/256. -/
def CBlockHeader.getHash (header : CBlockHeader) : Uint256 :=
  Crypto.sha512_256 (Crypto.sha512_256 header.serialize).data

/-- The serialized size of a block. -/
def CBlock.getSerializeSize (block : CBlock) : ℕ :=
  block.toCBlockHeader.serialize.length +
    (serializeVector (fun tx : CTransaction => tx.serialize) block.vtx).length

/-- One level of the merkle tree : the hashes of the pairs, the last hash paired with
itself when it is alone. -/
def merkleLevel : List Uint256 → List Uint256
  | [] => []
  | [a] => [hash256 (a.data ++ a.data)]
  | a :: b :: hashes => hash256 (a.data ++ b.data) :: merkleLevel hashes

/-- Whether a level pairs two equal hashes. -/
def hasEqualPair : List Uint256 → Bool
  | a :: b :: hashes => a = b || hasEqualPair hashes
  | _ => false

/-- The levels of `ComputeMerkleRoot`, at most `fuel` of them : the root and whether some
level paired two equal hashes. -/
def merkleLevels : ℕ → List Uint256 → Bool → Uint256 × Bool
  | 0, hashes, mutated => (hashes.headD Blob.null, mutated)
  | fuel + 1, hashes, mutated =>
    if hashes.length ≤ 1 then (hashes.headD Blob.null, mutated)
    else merkleLevels fuel (merkleLevel hashes) (mutated || hasEqualPair hashes)

/-- `ComputeMerkleRoot`. Each level at least halves the number of hashes, up to rounding,
so their number bounds the number of levels. -/
def computeMerkleRoot (hashes : List Uint256) : Uint256 × Bool :=
  merkleLevels hashes.length hashes false

/-- `BlockMerkleRoot`. -/
def blockMerkleRoot (block : CBlock) : Uint256 × Bool :=
  computeMerkleRoot (block.vtx.map CTransaction.getId)

/-- `MIN_TRANSACTION_SIZE`, the size of an empty transaction. -/
def minTransactionSize : ℕ := 10

/-- `CheckBlock`, of a block it has not checked before. -/
def checkBlock (params : Params) (options : BlockValidationOptions) (block : CBlock) :
    Except Failure Unit := do
  require (options.checkPoW → checkProofOfWork block.getHash block.nBits params)
    (rejectInvalid 50 "high-hash")
  require (options.checkMerkleRoot → block.hashMerkleRoot = (blockMerkleRoot block).1)
    (rejectInvalid 100 "bad-txnmrklroot")
  require (options.checkMerkleRoot → (blockMerkleRoot block).2 = false)
    (rejectInvalid 100 "bad-txns-duplicate")
  match block.vtx with
  | [] => .error (rejectInvalid 100 "bad-cb-missing")
  | coinbase :: txs =>
    require (block.vtx.length * minTransactionSize ≤ options.excessiveBlockSize)
      (rejectInvalid 100 "bad-blk-length")
    require (block.getSerializeSize ≤ options.excessiveBlockSize)
      (rejectInvalid 100 "bad-blk-length")
    checkCoinbase coinbase.toCMutableTransaction
    txs.forM fun tx => checkRegularTransaction tx.toCMutableTransaction

/-- A coinbase followed by transactions that are none. -/
def CoinbaseFirst (vtx : List CTransaction) : Prop :=
  ∃ coinbase txs, vtx = coinbase :: txs ∧ coinbase.isCoinBase = true ∧
    ∀ tx ∈ txs, tx.isCoinBase = false

variable {params : Params} {options : BlockValidationOptions} {block : CBlock} {u : Unit}

/-- An accepted block is a valid coinbase followed by regular transactions. -/
theorem checkBlock_eq_ok (h : checkBlock params options block = .ok u) :
    ∃ coinbase txs, block.vtx = coinbase :: txs ∧
      checkCoinbase coinbase.toCMutableTransaction = .ok () ∧
      ∀ tx ∈ txs, checkRegularTransaction tx.toCMutableTransaction = .ok () := by
  simp only [checkBlock, require_bind_eq_ok_iff] at h
  obtain ⟨-, -, -, h⟩ := h
  cases hvtx : block.vtx with
  | nil => simp [hvtx] at h
  | cons coinbase txs =>
    simp only [hvtx, bind_eq_ok_iff, exists_unit_iff, forM_eq_ok_iff] at h
    obtain ⟨-, -, hcb, htxs⟩ := h
    exact ⟨coinbase, txs, rfl, hcb, htxs⟩

theorem checkBlock_coinbaseFirst (h : checkBlock params options block = .ok u) :
    CoinbaseFirst block.vtx := by
  obtain ⟨coinbase, txs, hvtx, hcb, htxs⟩ := checkBlock_eq_ok h
  exact ⟨coinbase, txs, hvtx, (checkCoinbase_eq_ok hcb).1, fun tx htx =>
    (checkRegularTransaction_eq_ok_iff.mp (htxs tx htx)).1⟩

end Block

end RadiantCore
