import RadiantCore.BlockTree
import RadiantCore.BlockUndo
import RadiantCore.CoinbaseHeight

/-!
# The block index and the acceptance of headers and blocks

The part of `CChainState` that keeps the tree of known blocks, their status, the candidates
for the tip and the finalized block, and the functions that add to it : `AcceptBlockHeader`,
`AcceptBlock`, `ReceivedBlockTransactions` and the functions they call.

A `CBlockIndex` is a pointer of the source : it does not change, and the fields that do are
its `BlockEntry` in the state. Amounts of work are 256-bit integers in the source and natural
numbers here, and no clock is read : the times are arguments.
-/

namespace RadiantCore

/-! ## The status of a block -/

/-- `BlockValidity`. -/
inductive BlockValidity
  | UNKNOWN
  | HEADER
  | TREE
  | TRANSACTIONS
  | CHAIN
  | SCRIPTS
deriving DecidableEq, Repr

def BlockValidity.toNat : BlockValidity → ℕ
  | UNKNOWN => 0
  | HEADER => 1
  | TREE => 2
  | TRANSACTIONS => 3
  | CHAIN => 4
  | SCRIPTS => 5

/-- `BlockStatus`, with a field for each flag. Whether undo data is on disk is left to
`CChainState.undoFiles`. -/
structure BlockStatus where
  validity : BlockValidity := .UNKNOWN
  hasData : Bool := false
  hasFailed : Bool := false
  hasFailedParent : Bool := false
  isParked : Bool := false
  hasParkedParent : Bool := false
deriving DecidableEq, Repr

namespace BlockStatus

def isInvalid (status : BlockStatus) : Bool := status.hasFailed || status.hasFailedParent

def isOnParkedChain (status : BlockStatus) : Bool := status.isParked || status.hasParkedParent

def isValid (status : BlockStatus) (nUpTo : BlockValidity) : Bool :=
  !status.isInvalid && nUpTo.toNat ≤ status.validity.toNat

def withClearedParkedFlags (status : BlockStatus) : BlockStatus :=
  { status with isParked := false, hasParkedParent := false }

/-- `CBlockIndex::RaiseValidity`. -/
def raiseValidity (nUpTo : BlockValidity) (status : BlockStatus) : BlockStatus :=
  if status.isInvalid || nUpTo.toNat ≤ status.validity.toNat then status
  else { status with validity := nUpTo }

end BlockStatus

/-- `GetBlockProof`, the expected number of hashes for a block. -/
def getBlockProof (nBits : UInt32) : ℕ :=
  let (bnTarget, fNegative, fOverflow) := setCompact nBits
  if fNegative || fOverflow || bnTarget = 0 then 0
  else (2 ^ 256 - 1 - bnTarget) / (bnTarget + 1) + 1

/-- A block with enough work for its claimed target has some work. -/
theorem getBlockProof_pos {hash : Uint256} {nBits : UInt32} {params : Params}
    (h : checkProofOfWork hash nBits params) : 0 < getBlockProof nBits := by
  simp only [checkProofOfWork, Bool.and_eq_true, Bool.not_eq_true', decide_eq_true_eq] at h
  obtain ⟨⟨⟨⟨hneg, hzero⟩, hover⟩, -⟩, -⟩ := h
  simp [getBlockProof, hneg, hzero, hover]

/-- Whether a rejection came with `corruptionPossible` : `CheckBlock` gives it for a block that
does not match its merkle root, and no other check does. -/
def Failure.corruptionPossible : Failure → Bool
  | .invalid _ _ reason => reason = "bad-txnmrklroot" || reason = "bad-txns-duplicate"
  | _ => false

/-- Whether a failure is a verdict on a block : the other failures stop the node. -/
def Failure.isInvalid : Failure → Bool
  | .invalid _ _ _ => true
  | _ => false

/-! ## The state -/

/-- The fields of a `CBlockIndex` that are filled in or change after it was added. -/
structure BlockEntry where
  nChainWork : ℕ := 0
  nTx : ℕ := 0
  nChainTx : ℕ := 0
  nStatus : BlockStatus := {}
  nSequenceId : ℤ := 0
  nTimeReceived : ℤ := 0

section State

variable [Crypto]

/-- `CChainState`, with the coins of the tip and the block and undo files. The active chain
is given by its tip, and a multimap by the list of its pairs. -/
structure CChainState where
  mapBlockIndex : List CBlockIndex
  entry : CBlockIndex → BlockEntry
  setBlockIndexCandidates : List CBlockIndex
  mapBlocksUnlinked : List (CBlockIndex × CBlockIndex)
  failedBlocks : List CBlockIndex
  tip : Option CBlockIndex
  pindexFinalized : Option CBlockIndex
  nBlockSequenceId : ℤ
  pcoinsTip : CoinsTip
  blockFiles : CBlockIndex → Option CBlock
  undoFiles : CBlockIndex → Option (List (List Coin))

/-- The consensus parameters and the options of the node, which do not change while it runs.
The script checks are as in `connectBlock`, `getNextWorkRequired` is the difficulty rule, and
`address` orders the indices as their addresses do. -/
structure ChainConfig (γ : Type) where
  params : Params
  excessiveBlockSize : ℕ
  scripts : CBlockIndex → ScriptStage γ
  wait : List γ → Bool
  getNextWorkRequired : CBlockIndex → CBlockHeader → UInt32
  /-- `mapCheckpoints`, by increasing height. -/
  mapCheckpoints : List (ℕ × Uint256) := []
  fCheckpointsEnabled : Bool := true
  nMinimumChainWork : ℕ := 0
  maxreorgdepth : ℤ := 6
  finalizationdelay : ℤ := 2 * 60 * 60
  finalizeheaders : Bool := true
  finalizeheaderspenalty : ℕ := 100
  parkdeepreorg : Bool := true
  automaticunparking : Bool := true
  startupTime : ℤ
  address : CBlockIndex → ℕ

/-- `BlockValidationOptions(config)`. -/
def ChainConfig.options {γ : Type} (cfg : ChainConfig γ) : BlockValidationOptions :=
  { excessiveBlockSize := cfg.excessiveBlockSize }

variable {γ : Type}

namespace CChainState

def nChainWork (cs : CChainState) (pindex : CBlockIndex) : ℕ := (cs.entry pindex).nChainWork

def nStatus (cs : CChainState) (pindex : CBlockIndex) : BlockStatus := (cs.entry pindex).nStatus

def haveTxsDownloaded (cs : CChainState) (pindex : CBlockIndex) : Bool :=
  (cs.entry pindex).nChainTx ≠ 0

/-- `CChain::Height`. -/
def height (cs : CChainState) : ℤ := (cs.tip.map fun tip => (tip.nHeight : ℤ)).getD (-1)

/-- `LookupBlockIndex`. -/
def lookupBlockIndex (cs : CChainState) (hash : Uint256) : Option CBlockIndex :=
  cs.mapBlockIndex.find? fun pindex => pindex.getBlockHash = hash

def modifyEntry (cs : CChainState) (pindex : CBlockIndex) (f : BlockEntry → BlockEntry) :
    CChainState :=
  { cs with entry := Function.update cs.entry pindex (f (cs.entry pindex)) }

def modifyStatus (cs : CChainState) (pindex : CBlockIndex) (f : BlockStatus → BlockStatus) :
    CChainState :=
  cs.modifyEntry pindex fun entry => { entry with nStatus := f entry.nStatus }

/-- `CBlockIndexWorkComparator` : whether the first index is the worse tip. -/
def worse (cfg : ChainConfig γ) (cs : CChainState) (pa pb : CBlockIndex) : Bool :=
  if cs.nChainWork pa > cs.nChainWork pb then false
  else if cs.nChainWork pa < cs.nChainWork pb then true
  else if (cs.entry pa).nSequenceId < (cs.entry pb).nSequenceId then false
  else if (cs.entry pa).nSequenceId > (cs.entry pb).nSequenceId then true
  else if cfg.address pa < cfg.address pb then false
  else cfg.address pa > cfg.address pb

def insertCandidate (cs : CChainState) (pindex : CBlockIndex) : CChainState :=
  { cs with setBlockIndexCandidates := cs.setBlockIndexCandidates.insert pindex }

def eraseCandidate (cs : CChainState) (pindex : CBlockIndex) : CChainState :=
  { cs with setBlockIndexCandidates := cs.setBlockIndexCandidates.filter (· ≠ pindex) }

/-- `IsBlockFinalized`. -/
def isBlockFinalized (cs : CChainState) (pindex : CBlockIndex) : Bool :=
  cs.pindexFinalized.any fun pindexFinalized => pindexFinalized.contains pindex

/-! ## Headers -/

/-- `AddToBlockIndex`. -/
def addToBlockIndex (cs : CChainState) (header : CBlockHeader) (now : ℤ) :
    CChainState × CBlockIndex :=
  match cs.lookupBlockIndex header.getHash with
  | some pindex => (cs, pindex)
  | none =>
    let pprev := cs.lookupBlockIndex header.hashPrevBlock
    let pindexNew := match pprev with
      | none => .genesis header.getHash header.nTime
      | some pprev => .next pprev header.getHash header.nTime
    let entry : BlockEntry :=
      { nChainWork := (pprev.map cs.nChainWork).getD 0 + getBlockProof header.nBits
        nStatus := BlockStatus.raiseValidity .TREE {}
        nTimeReceived := now }
    ({ cs with mapBlockIndex := pindexNew :: cs.mapBlockIndex
               entry := Function.update cs.entry pindexNew entry }, pindexNew)

/-- The check of `ContextualCheckBlockHeader` against the finalized block. -/
def headerIsFinal (cfg : ChainConfig γ) (cs : CChainState) (pindexPrev : CBlockIndex) : Bool :=
  match cs.pindexFinalized with
  | none => true
  | some pindexFinalized =>
    !(cfg.finalizeheaders && cfg.maxreorgdepth > -1 && !pindexPrev.contains pindexFinalized)

/-- `Checkpoints::CheckBlock`. -/
def checkCheckpoint (cfg : ChainConfig γ) (nHeight : ℕ) (hash : Uint256) : Bool :=
  match cfg.mapCheckpoints.find? fun checkpoint => checkpoint.1 = nHeight with
  | none => true
  | some checkpoint => hash = checkpoint.2

/-- `Checkpoints::GetLastCheckpoint`. -/
def getLastCheckpoint (cfg : ChainConfig γ) (cs : CChainState) : Option CBlockIndex :=
  cfg.mapCheckpoints.reverse.findSome? fun checkpoint => cs.lookupBlockIndex checkpoint.2

/-- The reason `bad-version(0x%08x)`. -/
def badVersion (nVersion : Int32) : String :=
  let digits := Nat.toDigits 16 nVersion.toUInt32.toNat
  "bad-version(0x" ++ String.ofList (List.replicate (8 - digits.length) '0' ++ digits) ++ ")"

/-- `ContextualCheckBlockHeader`. -/
def contextualCheckBlockHeader (cfg : ChainConfig γ) (cs : CChainState) (header : CBlockHeader)
    (pindexPrev : CBlockIndex) (nAdjustedTime : ℤ) : Except Failure Unit := do
  let nHeight := pindexPrev.nHeight + 1
  require (header.nBits = cfg.getNextWorkRequired pindexPrev header)
    (rejectInvalid 100 "bad-diffbits")
  require (cs.headerIsFinal cfg pindexPrev)
    (.invalid cfg.finalizeheaderspenalty .REJECT_AGAINST_FINALIZED "bad-header-finalization")
  require (cfg.fCheckpointsEnabled → checkCheckpoint cfg nHeight header.getHash)
    (.invalid 100 .REJECT_CHECKPOINT "checkpoint mismatch")
  require (cfg.fCheckpointsEnabled → ∀ pcheckpoint ∈ cs.getLastCheckpoint cfg,
    pcheckpoint.nHeight ≤ nHeight) (.invalid 100 .REJECT_CHECKPOINT "bad-fork-prior-to-checkpoint")
  require (pindexPrev.getMedianTimePast < header.nTime.toNat) (rejectInvalid 0 "time-too-old")
  require (header.nTime.toNat ≤ nAdjustedTime + 2 * 60 * 60) (rejectInvalid 0 "time-too-new")
  require (¬ (header.nVersion < 2 ∧ cfg.params.BIP34Height ≤ nHeight ∨
      header.nVersion < 3 ∧ cfg.params.BIP66Height ≤ nHeight ∨
      header.nVersion < 4 ∧ cfg.params.BIP65Height ≤ nHeight))
    (.invalid 0 .REJECT_OBSOLETE (badVersion header.nVersion))

/-- The checks of `AcceptBlockHeader` on a header that is not known, up to the search for
failed blocks : the previous block of an accepted header. -/
def checkNewHeader (cfg : ChainConfig γ) (cs : CChainState) (header : CBlockHeader)
    (nAdjustedTime : ℤ) : Except Failure CBlockIndex := do
  require (checkProofOfWork header.getHash header.nBits cfg.params) (rejectInvalid 50 "high-hash")
  match cs.lookupBlockIndex header.hashPrevBlock with
  | none => .error (.invalid 10 .none "prev-blk-not-found")
  | some pindexPrev =>
    require (!(cs.nStatus pindexPrev).isInvalid) (rejectInvalid 100 "bad-prevblk")
    contextualCheckBlockHeader cfg cs header pindexPrev nAdjustedTime
    return pindexPrev

/-- The failed block from which a block descends, searched for only below blocks whose scripts
have not been checked. -/
def failedAncestor (cs : CChainState) (pindexPrev : CBlockIndex) : Option CBlockIndex :=
  if (cs.nStatus pindexPrev).isValid .SCRIPTS then none
  else cs.failedBlocks.find? fun failed => pindexPrev.contains failed

/-- Mark the blocks above a failed block, up to a descendant. -/
def markFailedParents (failed : CBlockIndex) : CBlockIndex → CChainState → CChainState
  | walk@(.genesis _ _), cs =>
    if walk = failed then cs
    else cs.modifyStatus walk fun status => { status with hasFailedParent := true }
  | walk@(.next pprev _ _), cs =>
    if walk = failed then cs
    else markFailedParents failed pprev
      (cs.modifyStatus walk fun status => { status with hasFailedParent := true })

/-- `AcceptBlockHeader`, with the index of the header when it is accepted. -/
def acceptBlockHeader (cfg : ChainConfig γ) (cs : CChainState) (header : CBlockHeader)
    (now nAdjustedTime : ℤ) : CChainState × Except Failure CBlockIndex :=
  if header.getHash = cfg.params.hashGenesisBlock then
    let (cs, pindex) := cs.addToBlockIndex header now
    (cs, .ok pindex)
  else
    match cs.lookupBlockIndex header.getHash with
    | some pindex =>
      if (cs.nStatus pindex).isInvalid then (cs, .error (.invalid 0 .none "duplicate"))
      else (cs, .ok pindex)
    | none =>
      match cs.checkNewHeader cfg header nAdjustedTime with
      | .error e => (cs, .error e)
      | .ok pindexPrev =>
        match cs.failedAncestor pindexPrev with
        | some failed =>
          if (cs.nStatus failed).hasFailed then
            (markFailedParents failed pindexPrev cs, .error (rejectInvalid 100 "bad-prevblk"))
          else (cs, .error (.abort "failedit->nStatus.hasFailed()"))
        | none =>
          let (cs, pindex) := cs.addToBlockIndex header now
          (cs, .ok pindex)

/-! ## Blocks -/

/-- A block gets a sequence id when its transactions are received, unless it has one. -/
def assignSequenceId (cs : CChainState) (pindex : CBlockIndex) : CChainState :=
  if (cs.entry pindex).nSequenceId ≠ 0 then cs
  else
    { cs.modifyEntry pindex fun entry => { entry with nSequenceId := cs.nBlockSequenceId } with
      nBlockSequenceId := cs.nBlockSequenceId + 1 }

/-- The body of the loop of `ReceivedBlockTransactions` : a block whose ancestors all have
their transactions. -/
def linkBlock (cfg : ChainConfig γ) (cs : CChainState) (pindex : CBlockIndex) : CChainState :=
  let nChainTx := (pindex.pprev?.map fun pprev => (cs.entry pprev).nChainTx).getD 0 +
    (cs.entry pindex).nTx
  let cs := cs.modifyEntry pindex fun entry => { entry with nChainTx := nChainTx }
  let cs := cs.assignSequenceId pindex
  if cs.tip.all fun tip => !cs.worse cfg pindex tip then cs.insertCandidate pindex else cs

/-- The loop of `ReceivedBlockTransactions` over the queue, at most `fuel` times. -/
def linkBlocks (cfg : ChainConfig γ) : ℕ → List CBlockIndex → CChainState → CChainState
  | 0, _, cs => cs
  | _ + 1, [], cs => cs
  | fuel + 1, pindex :: queue, cs =>
    let cs := cs.linkBlock cfg pindex
    let children := (cs.mapBlocksUnlinked.filter fun link => link.1 = pindex).map Prod.snd
    linkBlocks cfg fuel (queue ++ children)
      { cs with mapBlocksUnlinked := cs.mapBlocksUnlinked.filter fun link => link.1 ≠ pindex }

/-- `ReceivedBlockTransactions`. Every round of the loop but the first takes a link away, which
bounds the rounds (`linkBlocks_add`). -/
def receivedBlockTransactions (cfg : ChainConfig γ) (cs : CChainState) (block : CBlock)
    (pindexNew : CBlockIndex) : CChainState :=
  let cs := cs.modifyEntry pindexNew fun entry =>
    { entry with
      nTx := block.vtx.length
      nChainTx := 0
      nStatus := BlockStatus.raiseValidity .TRANSACTIONS { entry.nStatus with hasData := true } }
  let cs := { cs with blockFiles := Function.update cs.blockFiles pindexNew (some block) }
  if pindexNew.pprev?.all cs.haveTxsDownloaded then
    linkBlocks cfg (cs.mapBlocksUnlinked.length + 1) [pindexNew] cs
  else
    match pindexNew.pprev? with
    | none => cs
    | some pprev =>
      if (cs.nStatus pprev).isValid .TREE then
        { cs with mapBlocksUnlinked := cs.mapBlocksUnlinked ++ [(pprev, pindexNew)] }
      else cs

/-- `MIN_BLOCKS_TO_KEEP`. -/
def minBlocksToKeep : ℤ := 288

/-- Whether `AcceptBlock` processes a block it did not ask for. -/
def wantsUnrequested (cfg : ChainConfig γ) (cs : CChainState) (pindex : CBlockIndex) : Bool :=
  (cs.entry pindex).nTx = 0 &&
    (cs.tip.all fun tip => cs.nChainWork tip ≤ cs.nChainWork pindex) &&
    !(pindex.nHeight > cs.height + minBlocksToKeep) &&
    !(cs.nChainWork pindex < cfg.nMinimumChainWork)

/-- Whether connecting a block would rewind more than one block. -/
def isDeepReorg (cs : CChainState) (pindex : CBlockIndex) : Bool :=
  (CBlockIndex.findFork cs.tip pindex).any fun pindexFork => pindexFork.nHeight + 1 < cs.height

/-- `AcceptBlock`. -/
def acceptBlock (cfg : ChainConfig γ) (cs : CChainState) (block : CBlock) (fRequested : Bool)
    (now nAdjustedTime : ℤ) : CChainState × Except Failure Unit :=
  match cs.acceptBlockHeader cfg block.toCBlockHeader now nAdjustedTime with
  | (cs, .error e) => (cs, .error e)
  | (cs, .ok pindex) =>
    if (cs.nStatus pindex).hasData then (cs, .ok ())
    else if !fRequested && !cs.wantsUnrequested cfg pindex then (cs, .ok ())
    else
      match (do
        checkBlock cfg.params cfg.options block
        contextualCheckBlock cfg.params block pindex.pprev? : Except Failure Unit) with
      | .error e =>
        if e.isInvalid && !e.corruptionPossible then
          (cs.modifyStatus pindex fun status => { status with hasFailed := true }, .error e)
        else (cs, .error e)
      | .ok () =>
        let cs := if cfg.parkdeepreorg && cs.isDeepReorg pindex then
            cs.modifyStatus pindex fun status => { status with isParked := true }
          else cs
        (cs.receivedBlockTransactions cfg block pindex, .ok ())

/-- `PruneOneBlockFile`, of a file with one block. -/
def pruneOneBlockFile (cs : CChainState) (pindex : CBlockIndex) : CChainState :=
  let cs := cs.modifyStatus pindex fun status => { status with hasData := false }
  { cs with
    mapBlocksUnlinked := cs.mapBlocksUnlinked.filter fun link => link.2 ≠ pindex
    blockFiles := Function.update cs.blockFiles pindex none
    undoFiles := Function.update cs.undoFiles pindex none }

theorem assignSequenceId_mapBlocksUnlinked (cs : CChainState) (pindex : CBlockIndex) :
    (cs.assignSequenceId pindex).mapBlocksUnlinked = cs.mapBlocksUnlinked := by
  unfold assignSequenceId
  split_ifs <;> rfl

theorem linkBlock_mapBlocksUnlinked (cfg : ChainConfig γ) (cs : CChainState)
    (pindex : CBlockIndex) :
    (cs.linkBlock cfg pindex).mapBlocksUnlinked = cs.mapBlocksUnlinked := by
  unfold linkBlock
  dsimp only
  split_ifs
  all_goals exact assignSequenceId_mapBlocksUnlinked _ pindex

end CChainState

end State

end RadiantCore
