import RadiantCore.ChainState

/-!
# The choice of the best chain

`ActivateBestChain` of `validation.cpp` and the functions it calls : `FindMostWorkChain`,
`ActivateBestChainStep`, `ConnectTip`, `DisconnectTip`, the parked blocks and the finalization
of blocks.

`ActivateBestChain` releases `cs_main` between its rounds, and headers and blocks are accepted
there. So a `Node` is a chain state with the point that a running call has reached
(`Activation`), and `Node.step` lets the call go on to its next point : one candidate of
`FindMostWorkChain`, one `DisconnectTip` or one `ConnectTip` at a time. A failure of a step
stops the node, as a failed `assert` or `AbortNode` does.
-/

namespace RadiantCore

variable [Crypto] {γ : Type}

namespace CChainState

/-! ## Parked blocks -/

/-- `UpdateFlagsForBlock`, with whether it changed the status. -/
def updateFlagsForBlock (cfg : ChainConfig γ) (pindexBase : Option CBlockIndex)
    (f : BlockStatus → BlockStatus) (cs : CChainState) (pindex : CBlockIndex) :
    Except Failure (CChainState × Bool) :=
  let newStatus := f (cs.nStatus pindex)
  if cs.nStatus pindex ≠ newStatus && pindexBase.all pindex.contains then
    let cs := cs.modifyStatus pindex fun _ => newStatus
    let cs := if newStatus.isValid .TRANSACTIONS then
        { cs with failedBlocks := cs.failedBlocks.filter (· ≠ pindex) }
      else cs
    if newStatus.isValid .TRANSACTIONS && cs.haveTxsDownloaded pindex then
      match cs.tip with
      | none => .error (.abort "pa->nChainWork")
      | some tip => .ok (if cs.worse cfg tip pindex then cs.insertCandidate pindex else cs, true)
    else .ok (cs, true)
  else .ok (cs, false)

/-- The loop of `UpdateFlags` over the ancestors, with the deepest one that changed. -/
def updateAncestors (cfg : ChainConfig γ) (f : BlockStatus → BlockStatus) :
    CBlockIndex → CBlockIndex → CChainState → Except Failure (CChainState × CBlockIndex)
  | pindexAncestor@(.genesis _ _), pindexDeepestChanged, cs => do
    let (cs, changed) ← updateFlagsForBlock cfg none f cs pindexAncestor
    return (cs, if changed then pindexAncestor else pindexDeepestChanged)
  | pindexAncestor@(.next pprev _ _), pindexDeepestChanged, cs => do
    let (cs, changed) ← updateFlagsForBlock cfg none f cs pindexAncestor
    updateAncestors cfg f pprev (if changed then pindexAncestor else pindexDeepestChanged) cs

/-- `UpdateFlags`. -/
def updateFlags (cfg : ChainConfig γ) (f fChild fAncestorWasChanged : BlockStatus → BlockStatus)
    (cs : CChainState) (pindex : CBlockIndex) : Except Failure CChainState := do
  let (cs, pindexDeepestChanged) ← updateAncestors cfg f pindex pindex cs
  cs.mapBlockIndex.foldlM (fun cs it => do
    let (cs, _) ← updateFlagsForBlock cfg (some pindex) fChild cs it
    let (cs, _) ← updateFlagsForBlock cfg (some pindexDeepestChanged) fAncestorWasChanged cs it
    return cs) cs

/-- `UnparkBlock`. -/
def unparkBlock (cfg : ChainConfig γ) (cs : CChainState) (pindex : CBlockIndex) :
    Except Failure CChainState :=
  cs.updateFlags cfg BlockStatus.withClearedParkedFlags
    (fun status => { status with hasParkedParent := false })
    (fun status => { status with hasParkedParent := false }) pindex

/-! ## Invalid blocks -/

/-- `InvalidChainFound`. -/
def invalidChainFound (cs : CChainState) (pindexNew : CBlockIndex) :
    Except Failure CChainState := do
  require cs.tip.isSome (.abort "tip")
  return if cs.isBlockFinalized pindexNew then { cs with pindexFinalized := pindexNew.pprev? }
    else cs

/-- Insert into `m_failed_blocks`, a set of pointers. -/
def insertFailed (cfg : ChainConfig γ) (cs : CChainState) (pindex : CBlockIndex) : CChainState :=
  { cs with failedBlocks := if pindex ∈ cs.failedBlocks then cs.failedBlocks else
      cs.failedBlocks.orderedInsert (fun pa pb => cfg.address pa ≤ cfg.address pb) pindex }

/-- `InvalidBlockFound`, of a rejection without `corruptionPossible`. -/
def invalidBlockFound (cfg : ChainConfig γ) (cs : CChainState) (pindex : CBlockIndex) :
    Except Failure CChainState :=
  let cs := cs.modifyStatus pindex fun status => { status with hasFailed := true }
  (cs.insertFailed cfg pindex).invalidChainFound pindex

/-! ## The candidate with the most work -/

/-- The last of the candidates in the order of `CBlockIndexWorkComparator`. -/
def bestCandidate (cfg : ChainConfig γ) (cs : CChainState) : Option CBlockIndex :=
  cs.setBlockIndexCandidates.foldl (fun best pindex =>
    match best with
    | none => some pindex
    | some pindexBest => if cs.worse cfg pindexBest pindex then some pindex else best) none

/-- The work for which the source unparks a chain : a block that is reorganized counts again,
or half when at most three are. -/
def requiredWork (cs : CChainState) (pindexTip pindexFork : CBlockIndex) : ℕ :=
  let depth := pindexTip.nHeight - pindexFork.nHeight
  let pindexExtraPow := if depth = 2 ∨ depth = 3 then pindexTip.pprev?.getD pindexTip else pindexTip
  let deltaWork := cs.nChainWork pindexExtraPow - cs.nChainWork pindexFork
  cs.nChainWork pindexTip + if 1 ≤ depth ∧ depth ≤ 3 then deltaWork / 2 else deltaWork

/-- Whether `FindMostWorkChain` unparks a block of the chain of a candidate : it does without
a tip or a fork, or when the candidate has enough work. -/
def unparks (cfg : ChainConfig γ) (cs : CChainState) (pindexNew : CBlockIndex)
    (pindexFork : Option CBlockIndex) (pindexTest : CBlockIndex) : Bool :=
  (cs.nStatus pindexTest).isOnParkedChain && cfg.automaticunparking &&
    match cs.tip, pindexFork with
    | some pindexTip, some pindexFork =>
      cs.nChainWork pindexNew > cs.requiredWork pindexTip pindexFork
    | _, _ => true

/-- Why a block makes the chain of a candidate unusable. -/
structure ChainFault where
  fInvalidChain : Bool
  fParkedChain : Bool
  fMissingData : Bool

def ChainFault.isFault (fault : ChainFault) : Bool :=
  fault.fInvalidChain || fault.fParkedChain || fault.fMissingData

/-- The test of `FindMostWorkChain` on one block. -/
def testBlock (cfg : ChainConfig γ) (pindexNew : CBlockIndex) (pindexFork : Option CBlockIndex)
    (pindexTest : CBlockIndex) (cs : CChainState) : Except Failure (CChainState × ChainFault) := do
  require (cs.haveTxsDownloaded pindexTest || pindexTest.nHeight = 0)
    (.abort "pindexTest->HaveTxsDownloaded() || pindexTest->nHeight == 0")
  let unparked := cs.unparks cfg pindexNew pindexFork pindexTest
  let fParkedChain := (cs.nStatus pindexTest).isOnParkedChain && !unparked
  let cs ← if unparked then cs.unparkBlock cfg pindexTest else pure cs
  return (cs, ⟨(cs.nStatus pindexTest).isInvalid, fParkedChain, !(cs.nStatus pindexTest).hasData⟩)

/-- The loop of `FindMostWorkChain` from a candidate down to the fork, with the first block
that is not usable. -/
def testChain (cfg : ChainConfig γ) (pindexNew : CBlockIndex) (pindexFork : Option CBlockIndex) :
    CBlockIndex → CChainState → Except Failure (CChainState × Option (CBlockIndex × ChainFault))
  | pindexTest@(.genesis _ _), cs =>
    if some pindexTest = pindexFork then return (cs, none)
    else do
      let (cs, fault) ← cs.testBlock cfg pindexNew pindexFork pindexTest
      return (cs, if fault.isFault then some (pindexTest, fault) else none)
  | pindexTest@(.next pprev _ _), cs =>
    if some pindexTest = pindexFork then return (cs, none)
    else do
      let (cs, fault) ← cs.testBlock cfg pindexNew pindexFork pindexTest
      if fault.isFault then return (cs, some (pindexTest, fault))
      else testChain cfg pindexNew pindexFork pprev cs

/-- Take the blocks above an unusable one out of the candidates. -/
def removeChain (pindexTest : CBlockIndex) (fault : ChainFault) :
    CBlockIndex → CChainState → CChainState
  | .genesis _ _, cs => cs
  | pindexFailed@(.next pprev _ _), cs =>
    if pindexTest = pindexFailed then cs
    else
      let cs := if fault.fInvalidChain || fault.fParkedChain then
          cs.modifyStatus pindexFailed fun status =>
            { status with
              hasFailedParent := fault.fInvalidChain
              hasParkedParent := fault.fParkedChain }
        else if fault.fMissingData then
          { cs with mapBlocksUnlinked := cs.mapBlocksUnlinked ++ [(pprev, pindexFailed)] }
        else cs
      removeChain pindexTest fault pprev (cs.eraseCandidate pindexFailed)

/-- What a round of `FindMostWorkChain` comes to. -/
inductive MostWork
  /-- There is no candidate. -/
  | exhausted
  /-- The chain of the best candidate can be used. -/
  | found (pindexNew : CBlockIndex)
  /-- The best candidate was taken out. -/
  | rejected

/-- A round of the loop of `FindMostWorkChain`. A candidate that conflicts with the finalized
block is marked as failed first. -/
def findMostWorkRound (cfg : ChainConfig γ) (cs : CChainState) :
    Except Failure (CChainState × MostWork) :=
  match cs.bestCandidate cfg with
  | none => .ok (cs, .exhausted)
  | some pindexNew => do
    let conflicts := cs.pindexFinalized.any fun pindexFinalized =>
      !pindexNew.areOnTheSameFork pindexFinalized
    let cs ← if conflicts then
        (cs.modifyStatus pindexNew fun status =>
          { status with hasFailed := true }).invalidChainFound pindexNew
      else pure cs
    match ← cs.testChain cfg pindexNew (CBlockIndex.findFork cs.tip pindexNew) pindexNew with
    | (cs, none) => return (cs, .found pindexNew)
    | (cs, some (pindexTest, fault)) =>
      return (removeChain pindexTest fault pindexNew (cs.eraseCandidate pindexTest), .rejected)

/-- `PruneBlockIndexCandidates`. -/
def pruneBlockIndexCandidates (cfg : ChainConfig γ) (cs : CChainState) :
    Except Failure CChainState :=
  match cs.tip with
  | none => .error (.abort "pb->nChainWork")
  | some tip => do
    let candidates := cs.setBlockIndexCandidates.filter fun pindex => !cs.worse cfg pindex tip
    require (candidates ≠ []) (.abort "!setBlockIndexCandidates.empty()")
    return { cs with setBlockIndexCandidates := candidates }

/-! ## Finalization -/

/-- The loop of `FindBlockToFinalize` : the first block, going back, that is known for long
enough. -/
def findBlockToFinalizeLoop (cfg : ChainConfig γ) (cs : CChainState) (now : ℤ) :
    CBlockIndex → Option CBlockIndex
  | pindex@(.genesis _ _) =>
    if some pindex = cs.pindexFinalized then none
    else if now ≥ (cs.entry pindex).nTimeReceived + cfg.finalizationdelay then some pindex
    else none
  | pindex@(.next pprev _ _) =>
    if some pindex = cs.pindexFinalized then none
    else if now ≥ (cs.entry pindex).nTimeReceived + cfg.finalizationdelay then some pindex
    else findBlockToFinalizeLoop cfg cs now pprev

/-- `FindBlockToFinalize`. -/
def findBlockToFinalize (cfg : ChainConfig γ) (cs : CChainState) (now : ℤ)
    (pindexNew : CBlockIndex) : Option CBlockIndex :=
  if now < cfg.startupTime + cfg.finalizationdelay then none
  else (pindexNew.getAncestorAt (pindexNew.nHeight - cfg.maxreorgdepth)).bind
    (cs.findBlockToFinalizeLoop cfg now)

/-- `FinalizeBlockInternal`. -/
def finalizeBlockInternal (cs : CChainState) (pindex : CBlockIndex) :
    Except Failure CChainState := do
  require (!(cs.nStatus pindex).isInvalid) (rejectInvalid 100 "finalize-invalid-block")
  require (cs.pindexFinalized.all pindex.areOnTheSameFork)
    (.invalid 20 .REJECT_AGAINST_FINALIZED "bad-fork-prior-finalized")
  return if cs.isBlockFinalized pindex then cs else { cs with pindexFinalized := some pindex }

/-! ## Connecting and disconnecting the tip -/

/-- `ReadBlockFromDisk`, or the block that the caller has. -/
def readBlock (cs : CChainState) (pblock : Option CBlock) (pindex : CBlockIndex) :
    Except Failure CBlock :=
  match pblock.or (cs.blockFiles pindex) with
  | none => .error (.abort "Failed to read block")
  | some block => .ok block

/-- What `ConnectBlock` writes for a block that it accepts : the undo data, unless there is
some, and the validity of the block. The genesis block is skipped. -/
def recordConnected (cfg : ChainConfig γ) (cs : CChainState) (block : CBlock)
    (pindex : CBlockIndex) (vtxundo : List (List Coin)) : CChainState :=
  if block.getHash = cfg.params.hashGenesisBlock then cs
  else
    let blockundo := vtxundo ++ List.replicate (block.vtx.length - 1 - vtxundo.length) []
    let undo := (cs.undoFiles pindex).or (some blockundo)
    let cs := { cs with undoFiles := Function.update cs.undoFiles pindex undo }
    cs.modifyStatus pindex (BlockStatus.raiseValidity .SCRIPTS)

/-- The end of a call of `ConnectTip`, where a rejection is handed to the caller. -/
inductive ConnectResult
  | connected
  /-- The block was rejected. -/
  | invalid
  /-- The block was rejected with `corruptionPossible`. -/
  | corrupt
deriving DecidableEq

/-- `ConnectBlock` on the coins of the tip. -/
def connectToTip (cfg : ChainConfig γ) (cs : CChainState) (block : CBlock)
    (pindexNew : CBlockIndex) : Except Failure (CoinsTip × List (List Coin)) :=
  connectBlock (cfg.scripts pindexNew) cfg.wait cfg.params cfg.options false block pindexNew
    cs.pcoinsTip

/-- The update of the finalized block in `ConnectTip`, `none` when it fails. -/
def updateFinalized (cfg : ChainConfig γ) (cs : CChainState) (now : ℤ) (pindexNew : CBlockIndex) :
    Option CChainState :=
  match cs.findBlockToFinalize cfg now pindexNew with
  | none => some cs
  | some pindexToFinalize => (cs.finalizeBlockInternal pindexToFinalize).toOption

/-- `ConnectTip`. A block that `ConnectBlock` finds to be corrupt aborts the node. -/
def connectTip (cfg : ChainConfig γ) (cs : CChainState) (now : ℤ) (pblock : Option CBlock)
    (pindexNew : CBlockIndex) : Except Failure (CChainState × ConnectResult) := do
  require (pindexNew.pprev? = cs.tip) (.abort "pindexNew->pprev == m_chain.Tip()")
  let block ← cs.readBlock pblock pindexNew
  match cs.connectToTip cfg block pindexNew with
  | .error e =>
    if e.isInvalid && !e.corruptionPossible then
      return (← cs.invalidBlockFound cfg pindexNew, .invalid)
    else .error e
  | .ok (pcoinsTip, vtxundo) =>
    let cs := cs.recordConnected cfg block pindexNew vtxundo
    match cs.updateFinalized cfg now pindexNew with
    | none => return (cs, .corrupt)
    | some cs => return ({ cs with pcoinsTip := pcoinsTip, tip := some pindexNew }, .connected)

/-- `DisconnectTip`. -/
def disconnectTip (cs : CChainState) : Except Failure CChainState :=
  match cs.tip with
  | none => .error (.abort "pindexDelete")
  | some pindexDelete => do
    let block ← cs.readBlock none pindexDelete
    match cs.undoFiles pindexDelete, pindexDelete.pprev? with
    | some vtxundo, some pprev => do
      let (res, coins) ← applyBlockUndo vtxundo block.vtx pindexDelete cs.pcoinsTip.coins
      require (res = .DISCONNECT_OK) (.abort "Failed to disconnect block")
      return { cs with
        pindexFinalized := if cs.pindexFinalized = some pindexDelete then some pprev
          else cs.pindexFinalized
        pcoinsTip := ⟨coins, pprev.getBlockHash⟩
        tip := some pprev }
    | _, _ => .error (.abort "Failed to disconnect block")

end CChainState

/-! ## The running call -/

/-- The local variables of a round of `ActivateBestChain`. -/
structure Round where
  pblock : Option CBlock
  startingTip : Option CBlockIndex
  blocksConnected : Bool
  pindexNewTip : Option CBlockIndex

/-- The point that a call of `ActivateBestChain` has reached. -/
inductive Activation
  /-- No call is running. -/
  | idle
  /-- Before a round, without `cs_main`. -/
  | released (pblock : Option CBlock) (pindexMostWork pindexNewTip : Option CBlockIndex)
  /-- At the start of the inner loop, or in `FindMostWorkChain` while there is no chain. -/
  | choosing (round : Round) (pindexMostWork : Option CBlockIndex)
  /-- In `ActivateBestChainStep`, in the loop that disconnects blocks. -/
  | disconnecting (round : Round) (pindexMostWork : CBlockIndex)
      (pindexOldTip pindexFork : Option CBlockIndex)
  /-- In `ActivateBestChainStep`, in the loop that connects blocks : the blocks up to `nHeight`
  are in `vpindexToConnect`, the highest first, and those of `todo` are still to connect. -/
  | connecting (round : Round) (pindexMostWork : CBlockIndex) (pindexOldTip : Option CBlockIndex)
      (nHeight : ℤ) (vpindexToConnect todo : List CBlockIndex)

/-- A node : the chain state and the running call of `ActivateBestChain`. -/
structure Node where
  state : CChainState
  activation : Activation

/-- The block that `ActivateBestChainStep` passes on for an index : the one of the caller for
the chain with the most work, when it has its hash. -/
def Round.blockFor (round : Round) (pindexMostWork pindex : CBlockIndex) : Option CBlock :=
  if pindex = pindexMostWork then
    round.pblock.filter fun block => block.getHash = pindexMostWork.getBlockHash
  else none

/-- The end of a round : the call returns when the round did nothing, on a shutdown, or when
the tip is the chain with the most work. -/
def Round.finish (round : Round) (pindexMostWork : Option CBlockIndex) (shutdown : Bool) :
    Activation :=
  if !round.blocksConnected || shutdown || round.pindexNewTip = pindexMostWork then .idle
  else .released round.pblock pindexMostWork round.pindexNewTip

/-- The end of `ActivateBestChainStep` : the inner loop goes on while there is no tip, or a
worse one than at its start. -/
def Round.stepDone (cfg : ChainConfig γ) (round : Round) (cs : CChainState)
    (pindexMostWork : Option CBlockIndex) (shutdown : Bool) : Activation :=
  let round := { round with blocksConnected := true, pindexNewTip := cs.tip }
  let goesOn := cs.tip.all fun tip =>
    round.startingTip.any fun startingTip => cs.worse cfg tip startingTip
  if goesOn then .choosing round pindexMostWork
  else round.finish pindexMostWork shutdown

/-- The blocks from an index down to a height, which is left out. -/
def downTo (nHeight : ℤ) : CBlockIndex → List CBlockIndex
  | pindexIter@(.genesis _ _) => if (pindexIter.nHeight : ℤ) = nHeight then [] else [pindexIter]
  | pindexIter@(.next pprev _ _) =>
    if (pindexIter.nHeight : ℤ) = nHeight then [] else pindexIter :: downTo nHeight pprev

/-- The list of at most 32 blocks to connect above a height. -/
def blocksToConnect (pindexMostWork : CBlockIndex) (nHeight nTargetHeight : ℤ) :
    List CBlockIndex :=
  (pindexMostWork.getAncestorAt nTargetHeight).elim [] (downTo nHeight)

/-! ## The steps -/

namespace Node

/-- The body of the loop of `ActivateBestChainStep` after `ConnectTip` : the loop goes on until
the tip has more work than the old one, and a rejection ends it. -/
def afterConnectTip (cfg : ChainConfig γ) (shutdown : Bool) (round : Round)
    (pindexMostWork : CBlockIndex) (pindexOldTip : Option CBlockIndex) (nHeight : ℤ)
    (vpindexToConnect : List CBlockIndex) (pindex : CBlockIndex) (todo : List CBlockIndex) :
    CChainState × CChainState.ConnectResult → Except Failure Node
  | (cs, .connected) => do
    let cs ← cs.pruneBlockIndexCandidates cfg
    if pindexOldTip.all fun pindexOldTip => cs.nChainWork pindex > cs.nChainWork pindexOldTip then
      return ⟨cs, round.stepDone cfg cs (some pindexMostWork) shutdown⟩
    else
      return ⟨cs, .connecting round pindexMostWork pindexOldTip nHeight vpindexToConnect todo⟩
  | (cs, .invalid) =>
    match vpindexToConnect.getLast? with
    | none => .error (.abort "vpindexToConnect.back()")
    | some back => do
      let cs ← cs.invalidChainFound back
      return ⟨cs, round.stepDone cfg cs none shutdown⟩
  | (cs, .corrupt) => .ok ⟨cs, round.stepDone cfg cs none shutdown⟩

/-- A running call of `ActivateBestChain` goes on to its next point. It reads the time where
it connects a block, and whether a shutdown was requested where a round ends. -/
def advance (cfg : ChainConfig γ) (now : ℤ) (shutdown : Bool) (node : Node) :
    Except Failure Node :=
  let cs := node.state
  match node.activation with
  | .idle => .error (.abort "no call of ActivateBestChain is running")
  | .released pblock pindexMostWork pindexNewTip =>
    .ok ⟨cs, .choosing ⟨pblock, cs.tip, false, pindexNewTip⟩ pindexMostWork⟩
  | .choosing round none => do
    match ← cs.findMostWorkRound cfg with
    | (cs, .exhausted) => return ⟨cs, round.finish none shutdown⟩
    | (cs, .found pindexNew) => return ⟨cs, .choosing round (some pindexNew)⟩
    | (cs, .rejected) => return ⟨cs, .choosing round none⟩
  | .choosing round (some pindexMostWork) =>
    if cs.tip = some pindexMostWork then .ok ⟨cs, round.finish (some pindexMostWork) shutdown⟩
    else
      .ok ⟨cs, .disconnecting round pindexMostWork cs.tip
        (CBlockIndex.findFork cs.tip pindexMostWork)⟩
  | .disconnecting round pindexMostWork pindexOldTip pindexFork =>
    if cs.tip.isSome ∧ cs.tip ≠ pindexFork then do
      return ⟨← cs.disconnectTip, .disconnecting round pindexMostWork pindexOldTip pindexFork⟩
    else
      let nHeight := (pindexFork.map fun pindexFork => (pindexFork.nHeight : ℤ)).getD (-1)
      .ok ⟨cs, .connecting round pindexMostWork pindexOldTip nHeight [] []⟩
  | .connecting round pindexMostWork pindexOldTip nHeight _ [] =>
    if nHeight = pindexMostWork.nHeight then
      .ok ⟨cs, round.stepDone cfg cs (some pindexMostWork) shutdown⟩
    else
      let nTargetHeight := min (nHeight + 32) pindexMostWork.nHeight
      let vpindexToConnect := blocksToConnect pindexMostWork nHeight nTargetHeight
      .ok ⟨cs, .connecting round pindexMostWork pindexOldTip nTargetHeight vpindexToConnect
        vpindexToConnect.reverse⟩
  | .connecting round pindexMostWork pindexOldTip nHeight vpindexToConnect (pindex :: todo) => do
    let res ← cs.connectTip cfg now (round.blockFor pindexMostWork pindex) pindex
    afterConnectTip cfg shutdown round pindexMostWork pindexOldTip nHeight vpindexToConnect pindex
      todo res

end Node

/-- What happens to a node : a call of `AcceptBlockHeader`, `AcceptBlock` or
`ActivateBestChain`, a step of the running call of `ActivateBestChain`, or the removal of a
pruned block file. -/
inductive Event
  | acceptBlockHeader (header : CBlockHeader) (now nAdjustedTime : ℤ)
  | acceptBlock (block : CBlock) (fRequested : Bool) (now nAdjustedTime : ℤ)
  | activateBestChain (pblock : Option CBlock)
  | advance (now : ℤ) (shutdown : Bool)
  | prune (pindex : CBlockIndex)

/-- Whether `cs_main` is free. -/
def Activation.isReleased : Activation → Bool
  | .idle => true
  | .released _ _ _ => true
  | _ => false

/-- A call that returns, with or without a rejection, leaves its state. Any other failure
stops the node. -/
def leaveState {α : Type} (res : CChainState × Except Failure α) : Except Failure CChainState :=
  match res.2 with
  | .ok _ => .ok res.1
  | .error e => if e.isInvalid then .ok res.1 else .error e

/-- A step of the node. -/
def Node.step (cfg : ChainConfig γ) (node : Node) : Event → Except Failure Node
  | .acceptBlockHeader header now nAdjustedTime => do
    require node.activation.isReleased (.abort "cs_main is held")
    let cs ← leaveState (node.state.acceptBlockHeader cfg header now nAdjustedTime)
    return { node with state := cs }
  | .acceptBlock block fRequested now nAdjustedTime => do
    require node.activation.isReleased (.abort "cs_main is held")
    let cs ← leaveState (node.state.acceptBlock cfg block fRequested now nAdjustedTime)
    return { node with state := cs }
  | .activateBestChain pblock =>
    match node.activation with
    | .idle => .ok { node with activation := .released pblock none none }
    | _ => .error (.abort "m_cs_chainstate is held")
  | .advance now shutdown => node.advance cfg now shutdown
  | .prune pindex => .ok { node with state := node.state.pruneOneBlockFile pindex }

end RadiantCore
