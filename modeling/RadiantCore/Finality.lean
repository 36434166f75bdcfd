import RadiantCore.Activation
import RadiantCore.Trace

/-!
# Finality

Whether a finalized block stays finalized. The functions of the chain state other than the
loops of `ActivateBestChainStep` keep the tip and the finalized block and add only candidates
that have at least the work of the tip (`CChainState.Frame`). The finalized block is an
ancestor of the tip, the work grows along a chain, and a candidate is not below the finalized
block (`CChainState.Guards`), so that `FindMostWorkChain` only returns descendants of the
finalized block and the blocks down to the fork are not finalized.

What is left is `InvalidChainFound`, which moves the finalized block back. `ConnectTip` calls
it with the block that was rejected, which is not finalized, but `ActivateBestChainStep` calls
it again with `vpindexToConnect.back()`, the first block of the batch that it was connecting.
That block can have been finalized when a later one of the batch was connected
(`Node.RejectsBatch`), and then the finalized block moves below it. `finality_iff` : this is
the only way in which a run loses a finalized block.
-/

namespace RadiantCore

open CBlockIndex List Option

section

variable [Crypto] {γ : Type}

namespace CChainState

variable {cs cs' cs'' : CChainState} {cfg : ChainConfig γ} {pindex pa pb : CBlockIndex}

/-! ## The invariants of the chain state -/

/-- The index is closed under predecessors, the work grows along a chain, and the other parts of
the state point into the index. -/
structure Indexed (cs : CChainState) : Prop where
  pprev : ∀ pindex ∈ cs.mapBlockIndex, ∀ pprev ∈ pindex.pprev?,
    pprev ∈ cs.mapBlockIndex ∧ cs.nChainWork pprev < cs.nChainWork pindex
  tip : ∀ tip ∈ cs.tip, tip ∈ cs.mapBlockIndex
  candidates : ∀ pindex ∈ cs.setBlockIndexCandidates, pindex ∈ cs.mapBlockIndex
  unlinked : ∀ link ∈ cs.mapBlocksUnlinked, link.2 ∈ cs.mapBlockIndex

/-- The finalized block is in the active chain, and no candidate is below it. -/
structure Guards (cs : CChainState) : Prop where
  tip : ∀ pindexFinalized ∈ cs.pindexFinalized, ∃ tip ∈ cs.tip, IsAncestor pindexFinalized tip
  candidates : ∀ pindexFinalized ∈ cs.pindexFinalized, ∀ pindex ∈ cs.setBlockIndexCandidates,
    IsAncestor pindex pindexFinalized → pindex = pindexFinalized

section

variable (hpb : pb ∈ cs.mapBlockIndex)

include hpb

theorem Indexed.mem_of_isAncestor (h : cs.Indexed) (hanc : IsAncestor pa pb) :
    pa ∈ cs.mapBlockIndex := by
  induction hanc with
  | refl => exact hpb
  | step _ ih => exact ih (h.pprev _ hpb _ rfl).1

theorem Indexed.nChainWork_le (h : cs.Indexed) (hanc : IsAncestor pa pb) :
    cs.nChainWork pa ≤ cs.nChainWork pb := by
  induction hanc with
  | refl => exact le_rfl
  | step _ ih =>
    obtain ⟨hpprev, hlt⟩ := h.pprev _ hpb _ rfl
    exact (ih hpprev).trans hlt.le

/-- Only the block itself has as much work as a block among its ancestors. -/
theorem Indexed.eq_of_isAncestor (h : cs.Indexed) (hanc : IsAncestor pa pb)
    (hwork : cs.nChainWork pb ≤ cs.nChainWork pa) : pa = pb := by
  by_contra hne
  obtain ⟨pprev, hpprev, hanc'⟩ := hanc.pprev hne
  obtain ⟨hmem, hlt⟩ := h.pprev _ hpb _ hpprev
  exact absurd (h.nChainWork_le hmem hanc') (not_le.mpr (hlt.trans_le hwork))

end

/-- A state with the same blocks and the same work. -/
theorem Indexed.of_eq (h : cs.Indexed) (hindex : cs'.mapBlockIndex = cs.mapBlockIndex)
    (hwork : ∀ pindex, cs'.nChainWork pindex = cs.nChainWork pindex)
    (htip : ∀ tip ∈ cs'.tip, tip ∈ cs.mapBlockIndex)
    (hcandidates : ∀ pindex ∈ cs'.setBlockIndexCandidates,
      pindex ∈ cs.setBlockIndexCandidates ∨ pindex ∈ cs.mapBlockIndex)
    (hunlinked : ∀ link ∈ cs'.mapBlocksUnlinked,
      link ∈ cs.mapBlocksUnlinked ∨ link.2 ∈ cs.mapBlockIndex) : cs'.Indexed := by
  refine ⟨?_, ?_, ?_, ?_⟩
  all_goals rw [hindex]
  · simp only [hwork]
    exact h.pprev
  · exact htip
  · exact fun pindex hmem => (hcandidates pindex hmem).elim (h.candidates pindex) id
  · exact fun link hmem => (hunlinked link hmem).elim (h.unlinked link) id

theorem nChainWork_le_of_worse (h : cs.worse cfg pa pb) : cs.nChainWork pa ≤ cs.nChainWork pb := by
  unfold worse at h
  split_ifs at h with hgt
  all_goals exact not_lt.mp hgt

theorem nChainWork_le_of_not_worse (h : ¬ cs.worse cfg pa pb) :
    cs.nChainWork pb ≤ cs.nChainWork pa := by
  unfold worse at h
  split_ifs at h with hgt hlt
  all_goals first | exact le_of_lt hgt | exact not_lt.mp hlt | exact absurd rfl h

/-! ## Steps that keep the tip and the finalized block -/

/-- What a function can do to the state that keeps the tip and the finalized block : a new
candidate is a known block with at least the work of the tip. -/
structure Frame (cs cs' : CChainState) : Prop where
  tip : cs'.tip = cs.tip
  finalized : cs'.pindexFinalized = cs.pindexFinalized
  index : cs'.mapBlockIndex = cs.mapBlockIndex
  work : ∀ pindex, cs'.nChainWork pindex = cs.nChainWork pindex
  candidates : ∀ pindex ∈ cs'.setBlockIndexCandidates, pindex ∈ cs.setBlockIndexCandidates ∨
    pindex ∈ cs.mapBlockIndex ∧ ∀ tip ∈ cs.tip, cs.nChainWork tip ≤ cs.nChainWork pindex
  unlinked : ∀ link ∈ cs'.mapBlocksUnlinked, link ∈ cs.mapBlocksUnlinked ∨
    link.2 ∈ cs.mapBlockIndex

namespace Frame

theorem refl (cs : CChainState) : Frame cs cs where
  tip := rfl
  finalized := rfl
  index := rfl
  work _ := rfl
  candidates _ h := Or.inl h
  unlinked _ h := Or.inl h

section

variable (h : Frame cs cs')

include h

theorem trans (h' : Frame cs' cs'') : Frame cs cs'' where
  tip := h'.tip.trans h.tip
  finalized := h'.finalized.trans h.finalized
  index := h'.index.trans h.index
  work pindex := (h'.work pindex).trans (h.work pindex)
  candidates pindex hmem := by
    rcases h'.candidates pindex hmem with hmem | ⟨hmem, hwork⟩
    · exact h.candidates pindex hmem
    · simp only [h.tip, h.work] at hwork
      exact Or.inr ⟨h.index ▸ hmem, hwork⟩
  unlinked link hmem := by
    rcases h'.unlinked link hmem with hmem | hmem
    · exact h.unlinked link hmem
    · exact Or.inr (h.index ▸ hmem)

theorem mem (hmem : pindex ∈ cs.mapBlockIndex) : pindex ∈ cs'.mapBlockIndex := by
  rwa [h.index]

theorem indexed (hcs : cs.Indexed) : cs'.Indexed :=
  hcs.of_eq h.index h.work (h.tip ▸ hcs.tip)
    (fun pindex hmem => (h.candidates pindex hmem).imp_right And.left) h.unlinked

theorem guards (hcs : cs.Indexed) (hguards : cs.Guards) : cs'.Guards where
  tip := by
    rw [h.finalized, h.tip]
    exact hguards.tip
  candidates pindexFinalized hfinal pindex hmem hanc := by
    rw [h.finalized] at hfinal
    rcases h.candidates pindex hmem with hmem | ⟨-, hwork⟩
    · exact hguards.candidates pindexFinalized hfinal pindex hmem hanc
    · -- The tip is above the finalized block, so the candidate has at least its work.
      obtain ⟨tip, htip, hanc'⟩ := hguards.tip pindexFinalized hfinal
      have hmem := hcs.mem_of_isAncestor (hcs.tip tip htip) hanc'
      exact hcs.eq_of_isAncestor hmem hanc
        ((hcs.nChainWork_le (hcs.tip tip htip) hanc').trans (hwork tip htip))

end

theorem modifyEntry {f : BlockEntry → BlockEntry}
    (hf : (f (cs.entry pindex)).nChainWork = (cs.entry pindex).nChainWork) :
    Frame cs (cs.modifyEntry pindex f) where
  __ := refl cs
  work p := by
    by_cases hp : p = pindex
    · simp [nChainWork, CChainState.modifyEntry, hp, hf]
    · simp [nChainWork, CChainState.modifyEntry, hp]

theorem modifyStatus (f : BlockStatus → BlockStatus) : Frame cs (cs.modifyStatus pindex f) :=
  modifyEntry rfl

theorem eraseCandidate (cs : CChainState) (pindex : CBlockIndex) :
    Frame cs (cs.eraseCandidate pindex) where
  __ := refl cs
  candidates _ h := Or.inl (mem_of_mem_filter h)

theorem insertUnlinked (hmem : pindex ∈ cs.mapBlockIndex) :
    Frame cs { cs with mapBlocksUnlinked := cs.mapBlocksUnlinked ++ [(pa, pindex)] } where
  __ := refl cs
  unlinked link h := by
    rcases mem_append.mp h with h | h
    · exact Or.inl h
    · rw [mem_singleton.mp h]
      exact Or.inr hmem

theorem insertCandidate (hmem : pindex ∈ cs.mapBlockIndex)
    (hwork : ∀ tip ∈ cs.tip, cs.nChainWork tip ≤ cs.nChainWork pindex) :
    Frame cs (cs.insertCandidate pindex) where
  __ := refl cs
  candidates p h := by
    rcases mem_insert_iff.mp h with rfl | h
    · exact Or.inr ⟨hmem, hwork⟩
    · exact Or.inl h

end Frame

/-! ## Headers -/

/-- A state that may know more blocks, with the invariants kept. -/
structure Keeps (cs cs' : CChainState) : Prop where
  tip : cs'.tip = cs.tip
  finalized : cs'.pindexFinalized = cs.pindexFinalized
  index : ∀ pindex ∈ cs.mapBlockIndex, pindex ∈ cs'.mapBlockIndex
  indexed : cs'.Indexed
  guards : cs'.Guards

theorem Keeps.refl (hcs : cs.Indexed) (hguards : cs.Guards) : Keeps cs cs :=
  ⟨rfl, rfl, fun _ => id, hcs, hguards⟩

theorem Keeps.frame (h : Keeps cs cs') (h' : Frame cs' cs'') : Keeps cs cs'' where
  tip := h'.tip.trans h.tip
  finalized := h'.finalized.trans h.finalized
  index pindex hmem := h'.mem (h.index pindex hmem)
  indexed := h'.indexed h.indexed
  guards := h'.guards h.indexed h.guards

theorem getBlockHash_of_lookupBlockIndex {hash : Uint256}
    (h : cs.lookupBlockIndex hash = some pindex) :
    pindex ∈ cs.mapBlockIndex ∧ pindex.getBlockHash = hash :=
  ⟨mem_of_find?_eq_some h, by simpa using find?_some h⟩

variable {header : CBlockHeader}

/-- A header above a known block with some work is added on top of it. -/
theorem addToBlockIndex_keeps {pprev : CBlockIndex} (now : ℤ)
    (hcs : cs.Indexed) (hguards : cs.Guards) (hnew : cs.lookupBlockIndex header.getHash = none)
    (hpprev : cs.lookupBlockIndex header.hashPrevBlock = some pprev)
    (hproof : 0 < getBlockProof header.nBits) :
    Keeps cs (cs.addToBlockIndex header now).1 ∧
      (cs.addToBlockIndex header now).2 ∈ (cs.addToBlockIndex header now).1.mapBlockIndex := by
  simp only [addToBlockIndex, hnew, hpprev]
  set pindexNew : CBlockIndex := .next pprev header.getHash header.nTime with hindexNew
  have hfresh : ∀ pindex ∈ cs.mapBlockIndex, pindex ≠ pindexNew := by
    rintro pindex hmem rfl
    have hhash := find?_eq_none.mp hnew _ hmem
    simp [hindexNew, getBlockHash] at hhash
  have hknown := (getBlockHash_of_lookupBlockIndex hpprev).1
  refine ⟨⟨rfl, rfl, fun _ => mem_cons_of_mem _, ⟨?_, ?_, ?_, ?_⟩, ⟨hguards.tip,
    hguards.candidates⟩⟩, mem_cons_self⟩
  · intro pindex hmem q hq
    rcases mem_cons.mp hmem with rfl | hmem
    · obtain rfl : pprev = q := some.inj hq
      refine ⟨mem_cons_of_mem _ hknown, ?_⟩
      simp only [nChainWork, Function.update_of_ne (hfresh _ hknown), Function.update_self,
        map_some, getD_some]
      omega
    · obtain ⟨hq', hlt⟩ := hcs.pprev pindex hmem q hq
      refine ⟨mem_cons_of_mem _ hq', ?_⟩
      simpa only [nChainWork, Function.update_of_ne (hfresh _ hmem),
        Function.update_of_ne (hfresh _ hq')] using hlt
  · exact fun tip htip => mem_cons_of_mem _ (hcs.tip tip htip)
  · exact fun pindex hmem => mem_cons_of_mem _ (hcs.candidates pindex hmem)
  · exact fun link hmem => mem_cons_of_mem _ (hcs.unlinked link hmem)

theorem markFailedParents_frame (failed walk : CBlockIndex) (cs : CChainState) :
    Frame cs (markFailedParents failed walk cs) := by
  induction walk generalizing cs with
  | genesis hash nTime =>
    rw [markFailedParents]
    split_ifs
    · exact Frame.refl cs
    · exact Frame.modifyStatus _
  | next pprev hash nTime ih =>
    rw [markFailedParents]
    split_ifs
    · exact Frame.refl cs
    · exact (Frame.modifyStatus _).trans (ih _)

theorem checkNewHeader_eq_ok {nAdjustedTime : ℤ}
    (h : cs.checkNewHeader cfg header nAdjustedTime = .ok pindex) :
    0 < getBlockProof header.nBits ∧ cs.lookupBlockIndex header.hashPrevBlock = some pindex := by
  rw [checkNewHeader, require_bind_eq_ok_iff] at h
  obtain ⟨hpow, h⟩ := h
  refine ⟨getBlockProof_pos hpow, ?_⟩
  split at h
  · cases h
  · simp only [bind_eq_ok_iff, pure_eq_ok_iff] at h
    obtain ⟨_, -, _, -, rfl⟩ := h
    assumption

/-- The genesis block is known. -/
def KnowsGenesis (cfg : ChainConfig γ) (cs : CChainState) : Prop :=
  (cs.lookupBlockIndex cfg.params.hashGenesisBlock).isSome

theorem KnowsGenesis.mono (h : cs.KnowsGenesis cfg)
    (hindex : ∀ pindex ∈ cs.mapBlockIndex, pindex ∈ cs'.mapBlockIndex) :
    cs'.KnowsGenesis cfg := by
  simp only [KnowsGenesis, lookupBlockIndex, find?_isSome] at h ⊢
  obtain ⟨pindex, hmem, hhash⟩ := h
  exact ⟨pindex, hindex pindex hmem, hhash⟩

theorem acceptBlockHeader_keeps (header : CBlockHeader) (now nAdjustedTime : ℤ)
    (hcs : cs.Indexed) (hguards : cs.Guards) (hgenesis : cs.KnowsGenesis cfg) :
    Keeps cs (cs.acceptBlockHeader cfg header now nAdjustedTime).1 ∧
      ∀ pindex, (cs.acceptBlockHeader cfg header now nAdjustedTime).2 = .ok pindex →
        pindex ∈ (cs.acceptBlockHeader cfg header now nAdjustedTime).1.mapBlockIndex := by
  have hsame : Keeps cs cs := .refl hcs hguards
  unfold acceptBlockHeader
  by_cases heq : header.getHash = cfg.params.hashGenesisBlock
  · -- The genesis block is there already.
    obtain ⟨genesis, hlookup⟩ := isSome_iff_exists.mp hgenesis
    simp only [addToBlockIndex, heq, hlookup, if_true]
    refine ⟨hsame, fun pindex h => ?_⟩
    obtain rfl := Except.ok.inj h
    exact (getBlockHash_of_lookupBlockIndex hlookup).1
  simp only [if_neg heq]
  cases hlookup : cs.lookupBlockIndex header.getHash with
  | some pindex =>
    dsimp only
    split_ifs
    · exact ⟨hsame, fun _ h => by cases h⟩
    · refine ⟨hsame, fun pindex' h => ?_⟩
      obtain rfl := Except.ok.inj h
      exact (getBlockHash_of_lookupBlockIndex hlookup).1
  | none =>
    cases hcheck : cs.checkNewHeader cfg header nAdjustedTime with
    | error e => exact ⟨hsame, fun _ h => by cases h⟩
    | ok pindexPrev =>
      obtain ⟨hproof, hpprev⟩ := checkNewHeader_eq_ok hcheck
      dsimp only
      split
      · split_ifs
        · exact ⟨hsame.frame (markFailedParents_frame _ _ cs), fun _ h => by cases h⟩
        · exact ⟨hsame, fun _ h => by cases h⟩
      · obtain ⟨hkeeps, hmem⟩ :=
          addToBlockIndex_keeps now hcs hguards hlookup hpprev hproof
        refine ⟨hkeeps, fun pindex h => ?_⟩
        obtain rfl := Except.ok.inj h
        exact hmem

/-! ## Blocks -/

theorem assignSequenceId_frame (cs : CChainState) (pindex : CBlockIndex) :
    Frame cs (cs.assignSequenceId pindex) := by
  unfold assignSequenceId
  split_ifs
  · exact Frame.refl cs
  · have hentry : Frame cs (cs.modifyEntry pindex fun entry =>
        { entry with nSequenceId := cs.nBlockSequenceId }) := Frame.modifyEntry rfl
    exact { hentry with }

/-- A known block that is not worse than the tip becomes a candidate. -/
theorem Frame.candidate (h : Frame cs cs') (hmem : pindex ∈ cs.mapBlockIndex) :
    Frame cs (if cs'.tip.all fun tip => !cs'.worse cfg pindex tip then cs'.insertCandidate pindex
      else cs') := by
  split_ifs with hnot
  · refine h.trans (Frame.insertCandidate (h.mem hmem) fun tip htip => ?_)
    have hbest := (all_eq_true _ _).mp hnot tip htip
    exact nChainWork_le_of_not_worse (by simpa using hbest)
  · exact h

theorem linkBlock_frame (cfg : ChainConfig γ) (hmem : pindex ∈ cs.mapBlockIndex) :
    Frame cs (cs.linkBlock cfg pindex) :=
  ((Frame.modifyEntry rfl).trans (assignSequenceId_frame _ pindex)).candidate hmem

theorem linkBlocks_frame (cfg : ChainConfig γ) {fuel : ℕ} {queue : List CBlockIndex}
    (hqueue : ∀ pindex ∈ queue, pindex ∈ cs.mapBlockIndex)
    (hlinks : ∀ link ∈ cs.mapBlocksUnlinked, link.2 ∈ cs.mapBlockIndex) :
    Frame cs (linkBlocks cfg fuel queue cs) := by
  induction fuel generalizing queue cs with
  | zero => exact Frame.refl cs
  | succ fuel ih =>
    cases queue with
    | nil => exact Frame.refl cs
    | cons pindex queue =>
      have hlink := linkBlock_frame cfg (hqueue pindex mem_cons_self)
      have hunlink : Frame cs { cs.linkBlock cfg pindex with
          mapBlocksUnlinked := (cs.linkBlock cfg pindex).mapBlocksUnlinked.filter fun link =>
            link.1 ≠ pindex } :=
        { hlink with unlinked := fun link h => hlink.unlinked link (mem_of_mem_filter h) }
      rw [linkBlocks]
      refine hunlink.trans (ih ?_ ?_)
      · intro p hp
        rw [hunlink.index]
        rcases mem_append.mp hp with hp | hp
        · exact hqueue p (mem_cons_of_mem _ hp)
        · obtain ⟨link, hmem, rfl⟩ := mem_map.mp hp
          rw [linkBlock_mapBlocksUnlinked] at hmem
          exact hlinks link (mem_of_mem_filter hmem)
      · intro link hmem
        rw [hunlink.index]
        simp only [linkBlock_mapBlocksUnlinked] at hmem
        exact hlinks link (mem_of_mem_filter hmem)

theorem receivedBlockTransactions_frame (cfg : ChainConfig γ) (block : CBlock) (hcs : cs.Indexed)
    (hmem : pindex ∈ cs.mapBlockIndex) :
    Frame cs (cs.receivedBlockTransactions cfg block pindex) := by
  unfold receivedBlockTransactions
  dsimp only
  set stored := cs.modifyEntry pindex fun entry =>
    { entry with
      nTx := block.vtx.length
      nChainTx := 0
      nStatus := BlockStatus.raiseValidity .TRANSACTIONS { entry.nStatus with hasData := true } }
  have hentry : Frame cs stored := Frame.modifyEntry rfl
  have hstored : Frame cs
      { stored with blockFiles := Function.update stored.blockFiles pindex (some block) } :=
    { hentry with }
  split_ifs
  · refine hstored.trans (linkBlocks_frame cfg (fun p hp => ?_) hcs.unlinked)
    rw [mem_singleton.mp hp]
    exact hmem
  · split
    · exact hstored
    · split_ifs
      · exact hstored.trans (Frame.insertUnlinked hmem)
      · exact hstored

theorem acceptBlock_keeps (block : CBlock) (fRequested : Bool) (now nAdjustedTime : ℤ)
    (hcs : cs.Indexed) (hguards : cs.Guards) (hgenesis : cs.KnowsGenesis cfg) :
    Keeps cs (cs.acceptBlock cfg block fRequested now nAdjustedTime).1 := by
  have hheader := acceptBlockHeader_keeps block.toCBlockHeader now nAdjustedTime hcs hguards hgenesis
  unfold acceptBlock
  generalize cs.acceptBlockHeader cfg block.toCBlockHeader now nAdjustedTime = res at hheader
  obtain ⟨known, res⟩ := res
  obtain ⟨hkeeps, hmem⟩ := hheader
  cases res with
  | error e => exact hkeeps
  | ok pindex =>
    specialize hmem pindex rfl
    dsimp only at hkeeps hmem ⊢
    split
    · exact hkeeps
    split
    · exact hkeeps
    split
    · split
      · dsimp only
        exact hkeeps.frame (Frame.modifyStatus _)
      · exact hkeeps
    · -- The block may be parked before its transactions are recorded.
      have hpark : Frame known (if cfg.parkdeepreorg && known.isDeepReorg pindex then
          known.modifyStatus pindex fun status => { status with isParked := true }
        else known) := by
        split_ifs
        · exact Frame.modifyStatus _
        · exact Frame.refl known
      exact hkeeps.frame (hpark.trans (receivedBlockTransactions_frame cfg block
        (hpark.indexed hkeeps.indexed) (hpark.mem hmem)))

theorem pruneOneBlockFile_frame (cs : CChainState) (pindex : CBlockIndex) :
    Frame cs (cs.pruneOneBlockFile pindex) := by
  have hstatus : Frame cs (cs.modifyStatus pindex fun status => { status with hasData := false }) :=
    Frame.modifyStatus _
  exact { hstatus with unlinked := fun link h => hstatus.unlinked link (mem_of_mem_filter h) }

/-! ## The candidate with the most work -/

/-- A frame in which no block becomes or stops being invalid. -/
structure Unparks (cs cs' : CChainState) : Prop extends Frame cs cs' where
  invalid : ∀ pindex, (cs'.nStatus pindex).isInvalid = (cs.nStatus pindex).isInvalid

theorem Unparks.refl (cs : CChainState) : Unparks cs cs := ⟨Frame.refl cs, fun _ => rfl⟩

theorem Unparks.trans (h : Unparks cs cs') (h' : Unparks cs' cs'') : Unparks cs cs'' :=
  ⟨h.toFrame.trans h'.toFrame, fun pindex => (h'.invalid pindex).trans (h.invalid pindex)⟩

variable {f : BlockStatus → BlockStatus}

theorem updateFlagsForBlock_unparks {pindexBase : Option CBlockIndex}
    (hf : ∀ status, (f status).isInvalid = status.isInvalid) {changed : Bool} (hmem : pindex ∈ cs.mapBlockIndex)
    (h : updateFlagsForBlock cfg pindexBase f cs pindex = .ok (cs', changed)) : Unparks cs cs' := by
  unfold updateFlagsForBlock at h
  dsimp only at h
  split at h
  · set marked := cs.modifyStatus pindex fun _ => f (cs.nStatus pindex) with hdef
    have hmarked : Unparks cs marked := by
      refine ⟨Frame.modifyStatus _, fun p => ?_⟩
      by_cases hp : p = pindex
      · simp [hdef, nStatus, modifyStatus, modifyEntry, hp, hf]
      · simp [hdef, nStatus, modifyStatus, modifyEntry, hp]
    have hcleared : Unparks cs (if (f (cs.nStatus pindex)).isValid .TRANSACTIONS then
        { marked with failedBlocks := marked.failedBlocks.filter (· ≠ pindex) } else marked) := by
      split_ifs
      · exact { hmarked with }
      · exact hmarked
    generalize (if (f (cs.nStatus pindex)).isValid .TRANSACTIONS then
        { marked with failedBlocks := marked.failedBlocks.filter (· ≠ pindex) }
      else marked) = cleared at h hcleared
    split at h
    · split at h
      · cases h
      · rename_i tip htip
        obtain ⟨rfl, -⟩ := Prod.mk.inj (Except.ok.inj h)
        split_ifs with hworse
        · refine hcleared.trans ⟨Frame.insertCandidate (hcleared.mem hmem) fun tip' htip' => ?_,
            fun _ => rfl⟩
          obtain rfl : tip = tip' := some.inj (htip.symm.trans htip')
          exact nChainWork_le_of_worse hworse
        · exact hcleared
    · obtain ⟨rfl, -⟩ := Prod.mk.inj (Except.ok.inj h)
      exact hcleared
  · obtain ⟨rfl, -⟩ := Prod.mk.inj (Except.ok.inj h)
    exact Unparks.refl _

theorem updateAncestors_unparks
    (hf : ∀ status, (f status).isInvalid = status.isInvalid) {deepest deepest' : CBlockIndex}
    (hmem : ∀ pa, IsAncestor pa pindex → pa ∈ cs.mapBlockIndex)
    (h : updateAncestors cfg f pindex deepest cs = .ok (cs', deepest')) : Unparks cs cs' := by
  induction pindex generalizing cs deepest with
  | genesis hash nTime =>
    simp only [updateAncestors, bind_eq_ok_iff, pure_eq_ok_iff, Prod.mk.injEq] at h
    obtain ⟨⟨mid, changed⟩, hupdate, rfl, -⟩ := h
    exact updateFlagsForBlock_unparks hf (hmem _ .refl) hupdate
  | next pprev hash nTime ih =>
    simp only [updateAncestors, bind_eq_ok_iff] at h
    obtain ⟨⟨mid, changed⟩, hupdate, h⟩ := h
    have hframe := updateFlagsForBlock_unparks hf (hmem _ .refl) hupdate
    exact hframe.trans (ih (fun pa hpa => hframe.mem (hmem pa hpa.step)) h)

theorem unparkBlock_unparks (hcs : cs.Indexed) (hmem : pindex ∈ cs.mapBlockIndex)
    (h : cs.unparkBlock cfg pindex = .ok cs') : Unparks cs cs' := by
  rw [unparkBlock, updateFlags, bind_eq_ok_iff] at h
  obtain ⟨⟨mid, deepest⟩, hancestors, h⟩ := h
  have hclear : ∀ status : BlockStatus,
      status.withClearedParkedFlags.isInvalid = status.isInvalid := fun _ => rfl
  have hparent : ∀ status : BlockStatus,
      { status with hasParkedParent := false }.isInvalid = status.isInvalid := fun _ => rfl
  have hframe := updateAncestors_unparks hclear
    (fun pa hpa => hcs.mem_of_isAncestor hmem hpa) hancestors
  refine foldlM_inv _ (fun known it hit known' hknown hit' => ?_) hframe h
  simp only [bind_eq_ok_iff, pure_eq_ok_iff] at hit'
  obtain ⟨⟨mid', _⟩, hchild, ⟨mid'', _⟩, hancestor, rfl⟩ := hit'
  rw [hframe.index, ← hknown.index] at hit
  have hchild := updateFlagsForBlock_unparks hparent hit hchild
  have hancestor := updateFlagsForBlock_unparks hparent (hchild.mem hit) hancestor
  exact hknown.trans (hchild.trans hancestor)

variable {pindexNew : CBlockIndex} {pindexFork : Option CBlockIndex} {fault : ChainFault}

/-- A test of a block finds out whether it is invalid. -/
theorem testBlock_unparks (hcs : cs.Indexed) (hmem : pindex ∈ cs.mapBlockIndex)
    (h : cs.testBlock cfg pindexNew pindexFork pindex = .ok (cs', fault)) :
    Unparks cs cs' ∧ fault.fInvalidChain = (cs.nStatus pindex).isInvalid := by
  rw [testBlock, require_bind_eq_ok_iff] at h
  obtain ⟨-, h⟩ := h
  dsimp only at h
  split_ifs at h
  · simp only [bind_eq_ok_iff, pure_eq_ok_iff, Prod.mk.injEq] at h
    obtain ⟨mid, hunpark, rfl, rfl⟩ := h
    have hframe := unparkBlock_unparks hcs hmem hunpark
    exact ⟨hframe, hframe.invalid pindex⟩
  · obtain ⟨rfl, rfl⟩ := Prod.mk.inj (pure_eq_ok_iff.mp h)
    exact ⟨Unparks.refl _, rfl⟩

/-- What a test of a chain leaves. The chain of an invalid block is not usable. -/
theorem testChain_spec
    {res : Option (CBlockIndex × ChainFault)} (hcs : cs.Indexed) (hmem : pindex ∈ cs.mapBlockIndex)
    (h : testChain cfg pindexNew pindexFork pindex cs = .ok (cs', res)) :
    Frame cs cs' ∧ (res = none → some pindex ≠ pindexFork →
      (cs.nStatus pindex).isInvalid = false) := by
  have hvalid : ∀ fault : ChainFault, ¬ fault.isFault → fault.fInvalidChain = false := by
    intro fault hfault
    simp only [ChainFault.isFault, Bool.or_eq_true, not_or, Bool.not_eq_true] at hfault
    exact hfault.1.1
  induction pindex generalizing cs with
  | genesis hash nTime =>
    rw [testChain] at h
    split_ifs at h with hfork
    · obtain ⟨rfl, -⟩ := Prod.mk.inj (pure_eq_ok_iff.mp h)
      exact ⟨Frame.refl _, fun _ hne => absurd hfork hne⟩
    · simp only [bind_eq_ok_iff, pure_eq_ok_iff, Prod.mk.injEq] at h
      obtain ⟨⟨mid, fault⟩, htest, rfl, rfl⟩ := h
      obtain ⟨hframe, hinvalid⟩ := testBlock_unparks hcs hmem htest
      refine ⟨hframe.toFrame, fun hnone _ => ?_⟩
      rw [← hinvalid]
      exact hvalid fault (by simpa using hnone)
  | next pprev hash nTime ih =>
    rw [testChain] at h
    split_ifs at h with hfork
    · obtain ⟨rfl, -⟩ := Prod.mk.inj (pure_eq_ok_iff.mp h)
      exact ⟨Frame.refl _, fun _ hne => absurd hfork hne⟩
    · rw [bind_eq_ok_iff] at h
      obtain ⟨⟨mid, fault⟩, htest, h⟩ := h
      obtain ⟨hunparks, hinvalid⟩ := testBlock_unparks hcs hmem htest
      have hframe := hunparks.toFrame
      dsimp only at h
      split_ifs at h with hfault
      · obtain ⟨rfl, rfl⟩ := Prod.mk.inj (pure_eq_ok_iff.mp h)
        exact ⟨hframe, by simp⟩
      · have hrest := ih (hframe.indexed hcs) (hframe.mem (hcs.pprev _ hmem _ rfl).1) h
        refine ⟨hframe.trans hrest.1, fun _ _ => ?_⟩
        rw [← hinvalid]
        exact hvalid fault hfault

theorem removeChain_frame {pindexTest : CBlockIndex}
    (hmem : ∀ pa, IsAncestor pa pindex → pa ∈ cs.mapBlockIndex) :
    Frame cs (removeChain pindexTest fault pindex cs) := by
  induction pindex generalizing cs with
  | genesis => exact Frame.refl cs
  | next pprev hash nTime ih =>
    rw [removeChain]
    split
    · exact Frame.refl cs
    · have hmark : Frame cs (if fault.fInvalidChain || fault.fParkedChain then
            cs.modifyStatus (.next pprev hash nTime) fun status =>
              { status with
                hasFailedParent := fault.fInvalidChain
                hasParkedParent := fault.fParkedChain }
          else if fault.fMissingData then
            { cs with mapBlocksUnlinked :=
                cs.mapBlocksUnlinked ++ [(pprev, .next pprev hash nTime)] }
          else cs) := by
        split_ifs
        · exact Frame.modifyStatus _
        · exact Frame.insertUnlinked (hmem _ .refl)
        · exact Frame.refl cs
      have herase := hmark.trans (Frame.eraseCandidate _ (.next pprev hash nTime))
      exact herase.trans (ih fun pa hpa => herase.mem (hmem pa hpa.step))

theorem mem_of_bestCandidate (h : cs.bestCandidate cfg = some pindex) :
    pindex ∈ cs.setBlockIndexCandidates := by
  -- Every step keeps the best block or takes the new one.
  refine foldlRecOn (motive := fun best => best = some pindex → pindex ∈ _) _ _ (by simp)
    (fun best ih a ha hstep => ?_) h
  cases best with
  | none => exact some.inj hstep ▸ ha
  | some best =>
    dsimp only at hstep
    split_ifs at hstep
    · exact some.inj hstep ▸ ha
    · exact ih hstep

theorem isBlockFinalized_iff :
    cs.isBlockFinalized pindex ↔ ∃ pindexFinalized ∈ cs.pindexFinalized,
      IsAncestor pindex pindexFinalized := by
  simp only [isBlockFinalized, Option.any_eq_true, contains_iff, Option.mem_def]

theorem Frame.isBlockFinalized (h : Frame cs cs') (pindex : CBlockIndex) :
    cs'.isBlockFinalized pindex = cs.isBlockFinalized pindex := by
  rw [CChainState.isBlockFinalized, h.finalized, CChainState.isBlockFinalized]

/-- A block that is not finalized does not move the finalized block. -/
theorem invalidChainFound_eq (h : cs.invalidChainFound pindex = .ok cs')
    (hnot : ¬ cs.isBlockFinalized pindex) : cs' = cs := by
  simp only [invalidChainFound, require_bind_eq_ok_iff, if_neg hnot, pure_eq_ok_iff] at h
  exact h.2.symm

/-- A round of `FindMostWorkChain` only returns descendants of the finalized block. -/
theorem findMostWorkRound_spec {res : MostWork} (hcs : cs.Indexed) (hguards : cs.Guards)
    (h : cs.findMostWorkRound cfg = .ok (cs', res)) :
    Frame cs cs' ∧ ∀ pindexNew, res = .found pindexNew → pindexNew ∈ cs.mapBlockIndex ∧
      ∀ pindexFinalized ∈ cs.pindexFinalized, IsAncestor pindexFinalized pindexNew := by
  unfold findMostWorkRound at h
  cases hbest : cs.bestCandidate cfg with
  | none =>
    simp only [hbest, Except.ok.injEq, Prod.mk.injEq] at h
    obtain ⟨rfl, rfl⟩ := h
    exact ⟨Frame.refl _, fun _ h => by cases h⟩
  | some pindexNew =>
    have hcandidate := mem_of_bestCandidate hbest
    have hmem := hcs.candidates _ hcandidate
    simp only [hbest] at h
    -- Where the candidate conflicts with the finalized block it is marked as failed.
    obtain ⟨mid, next, hframe, hmarked, hfound, hrejected, h⟩ : ∃ mid next, Frame cs mid ∧
        (∀ pindexFinalized ∈ cs.pindexFinalized, ¬ pindexNew.areOnTheSameFork pindexFinalized →
          (mid.nStatus pindexNew).isInvalid = true) ∧
        (∀ cs, next (cs, none) = pure (cs, MostWork.found pindexNew)) ∧
        (∀ cs pindexTest fault, next (cs, some (pindexTest, fault)) =
          pure (removeChain pindexTest fault pindexNew (cs.eraseCandidate pindexTest),
            .rejected)) ∧
        (mid.testChain cfg pindexNew (findFork mid.tip pindexNew) pindexNew >>= next) =
          .ok (cs', res) := by
      split_ifs at h with hconflict
      · rw [bind_eq_ok_iff] at h
        obtain ⟨mid, hfound, h⟩ := h
        have hnot : ¬ (cs.modifyStatus pindexNew fun status =>
            { status with hasFailed := true }).isBlockFinalized pindexNew := by
          rw [isBlockFinalized_iff]
          rintro ⟨pindexFinalized, hfinal, hanc⟩
          obtain ⟨pindexFinalized', hfinal', hfork⟩ := (any_eq_true _ _).mp hconflict
          obtain rfl := some.inj (hfinal'.symm.trans hfinal)
          exact absurd (areOnTheSameFork_iff.mpr (Or.inl hanc)) (by simpa using hfork)
        obtain rfl := invalidChainFound_eq hfound hnot
        refine ⟨_, _, Frame.modifyStatus _, fun _ _ _ => ?_, fun _ => rfl, fun _ _ _ => rfl, h⟩
        simp [nStatus, modifyStatus, modifyEntry, BlockStatus.isInvalid]
      · refine ⟨cs, _, Frame.refl cs, fun pindexFinalized hfinal hfork => ?_, fun _ => rfl,
          fun _ _ _ => rfl, h⟩
        refine absurd ((any_eq_true _ _).mpr ⟨pindexFinalized, hfinal, ?_⟩) hconflict
        simpa using hfork
    rw [bind_eq_ok_iff] at h
    obtain ⟨⟨tested, out⟩, htest, h⟩ := h
    obtain ⟨htestedFrame, hvalid⟩ :=
      testChain_spec (hframe.indexed hcs) (hframe.mem hmem) htest
    have htested := hframe.trans htestedFrame
    cases out with
    | none =>
      rw [hfound] at h
      obtain ⟨rfl, rfl⟩ := Prod.mk.inj (pure_eq_ok_iff.mp h)
      refine ⟨htested, fun pindex' hfound => ?_⟩
      obtain rfl : pindexNew = pindex' := MostWork.found.inj hfound
      refine ⟨hmem, fun pindexFinalized hfinal => ?_⟩
      by_cases hfork : pindexNew.areOnTheSameFork pindexFinalized
      · rcases areOnTheSameFork_iff.mp hfork with hanc | hanc
        · rw [hguards.candidates _ hfinal _ hcandidate hanc]
          exact .refl
        · exact hanc
      · -- A failed candidate is only usable where it is in the active chain.
        have hne : some pindexNew ≠ findFork mid.tip pindexNew := by
          intro heq
          obtain ⟨-, tip, htip, hanc⟩ := findFork_eq_some heq.symm
          rw [hframe.tip] at htip
          obtain ⟨tip', htip', hanc'⟩ := hguards.tip _ hfinal
          obtain rfl := some.inj (htip.symm.trans htip')
          exact hfork (areOnTheSameFork_iff.mpr (hanc.total hanc'))
        cases (hmarked _ hfinal hfork).symm.trans (hvalid rfl hne)
    | some out =>
      obtain ⟨pindexTest, fault⟩ := out
      rw [hrejected] at h
      obtain ⟨rfl, rfl⟩ := Prod.mk.inj (pure_eq_ok_iff.mp h)
      have herase := htested.trans (Frame.eraseCandidate tested pindexTest)
      refine ⟨herase.trans (removeChain_frame fun pa hpa => ?_), fun _ h => by cases h⟩
      exact herase.mem (hcs.mem_of_isAncestor hmem hpa)

/-! ## Connecting and disconnecting the tip -/

variable {now : ℤ}

theorem findBlockToFinalize_isAncestor
    (h : cs.findBlockToFinalize cfg now pindex = some pa) : IsAncestor pa pindex := by
  have hloop : ∀ pb, cs.findBlockToFinalizeLoop cfg now pb = some pa → IsAncestor pa pb := by
    intro pb h
    induction pb with
    | genesis hash nTime =>
      rw [findBlockToFinalizeLoop] at h
      split_ifs at h
      rw [some.inj h]
      exact .refl
    | next pprev hash nTime ih =>
      rw [findBlockToFinalizeLoop] at h
      split_ifs at h
      · rw [some.inj h]
        exact .refl
      · exact (ih h).step
  unfold findBlockToFinalize at h
  split_ifs at h
  obtain ⟨pb, hpb, h⟩ := bind_eq_some_iff.mp h
  exact (hloop pb h).trans (isAncestor_of_getAncestorAt hpb)

/-- The finalized block moves up to an ancestor of the new tip, or stays. -/
theorem updateFinalized_spec (h : cs.updateFinalized cfg now pindex = some cs') :
    cs' = cs ∨ ∃ pa, cs' = { cs with pindexFinalized := some pa } ∧ IsAncestor pa pindex ∧
      ∀ pindexFinalized ∈ cs.pindexFinalized, IsAncestor pindexFinalized pa := by
  unfold updateFinalized at h
  split at h
  · exact Or.inl (some.inj h).symm
  · rename_i pa hpa
    rw [toOption_eq_some_iff] at h
    simp only [finalizeBlockInternal, require_bind_eq_ok_iff, pure_eq_ok_iff] at h
    obtain ⟨-, hfork, h⟩ := h
    split_ifs at h with hfinal
    · exact Or.inl h.symm
    · refine Or.inr ⟨pa, h.symm, findBlockToFinalize_isAncestor hpa, fun f hf => ?_⟩
      have hsame := (all_eq_true _ _).mp hfork f hf
      rcases areOnTheSameFork_iff.mp hsame with hanc | hanc
      · exact absurd (isBlockFinalized_iff.mpr ⟨f, hf, hanc⟩) hfinal
      · exact hanc

theorem recordConnected_frame (cfg : ChainConfig γ) (cs : CChainState) (block : CBlock)
    (pindex : CBlockIndex) (vtxundo : List (List Coin)) :
    Frame cs (cs.recordConnected cfg block pindex vtxundo) := by
  unfold recordConnected
  split_ifs
  · exact Frame.refl cs
  · refine Frame.trans ?_ (Frame.modifyStatus _)
    exact { Frame.refl cs with }

/-- A block right above the tip is not finalized. -/
theorem not_isBlockFinalized_of_pprev (hguards : cs.Guards) (hpprev : pindex.pprev? = cs.tip) :
    ¬ cs.isBlockFinalized pindex := by
  rw [isBlockFinalized_iff]
  rintro ⟨pindexFinalized, hfinal, hanc⟩
  obtain ⟨tip, htip, hanc'⟩ := hguards.tip pindexFinalized hfinal
  have hheight := nHeight_of_pprev? (hpprev.trans htip)
  have hle := hanc.nHeight_le.trans hanc'.nHeight_le
  omega

theorem insertFailed_frame (cfg : ChainConfig γ) (cs : CChainState) (pindex : CBlockIndex) :
    Frame cs (cs.insertFailed cfg pindex) :=
  { Frame.refl cs with }

theorem invalidBlockFound_frame (hguards : cs.Guards) (hpprev : pindex.pprev? = cs.tip)
    (h : cs.invalidBlockFound cfg pindex = .ok cs') : Frame cs cs' := by
  have hframe : Frame cs ((cs.modifyStatus pindex fun status =>
      { status with hasFailed := true }).insertFailed cfg pindex) :=
    (Frame.modifyStatus _).trans (insertFailed_frame cfg _ pindex)
  have hnot := not_isBlockFinalized_of_pprev hguards hpprev
  rw [← hframe.isBlockFinalized] at hnot
  rw [invalidChainFound_eq h hnot]
  exact hframe

/-- Whether `ConnectTip` rejects a block. -/
def rejects (cfg : ChainConfig γ) (cs : CChainState) (pblock : Option CBlock)
    (pindexNew : CBlockIndex) : Bool :=
  match cs.readBlock pblock pindexNew with
  | .error _ => false
  | .ok block =>
    match cs.connectToTip cfg block pindexNew with
    | .error e => e.isInvalid && !e.corruptionPossible
    | .ok _ => false

/-- A state with a new tip on top of the old one : the finalized block is an ancestor of the
tip, above the old one. -/
structure Connects (pindexNew : CBlockIndex) (cs cs' : CChainState) : Prop where
  tip : cs'.tip = some pindexNew
  index : cs'.mapBlockIndex = cs.mapBlockIndex
  work : ∀ pindex, cs'.nChainWork pindex = cs.nChainWork pindex
  candidates : ∀ pindex ∈ cs'.setBlockIndexCandidates, pindex ∈ cs.setBlockIndexCandidates ∨
    pindex ∈ cs.mapBlockIndex
  unlinked : ∀ link ∈ cs'.mapBlocksUnlinked, link ∈ cs.mapBlocksUnlinked ∨
    link.2 ∈ cs.mapBlockIndex
  isAncestor : ∀ pindexFinalized ∈ cs'.pindexFinalized, IsAncestor pindexFinalized pindexNew
  finalized : ∀ pindexFinalized ∈ cs.pindexFinalized, ∃ pindexFinalized' ∈ cs'.pindexFinalized,
    IsAncestor pindexFinalized pindexFinalized'

/-- What a call of `ConnectTip` does, by its result. -/
theorem connectTip_spec {pblock : Option CBlock} {res : ConnectResult}
    (hguards : cs.Guards) (h : cs.connectTip cfg now pblock pindex = .ok (cs', res)) :
    pindex.pprev? = cs.tip ∧ (res = .invalid ↔ cs.rejects cfg pblock pindex) ∧
      (res = .connected → Connects pindex cs cs') ∧ (res ≠ .connected → Frame cs cs') := by
  rw [connectTip, require_bind_eq_ok_iff, bind_eq_ok_iff] at h
  obtain ⟨hpprev, block, hread, h⟩ := h
  refine ⟨hpprev, ?_⟩
  cases hconnect : cs.connectToTip cfg block pindex with
  | error e =>
    simp only [hconnect] at h
    split_ifs at h with hinvalid
    simp only [bind_eq_ok_iff, pure_eq_ok_iff, Prod.mk.injEq] at h
    obtain ⟨_, hfound, rfl, rfl⟩ := h
    refine ⟨by simp [rejects, hread, hconnect, hinvalid], by simp, fun _ => ?_⟩
    exact invalidBlockFound_frame hguards hpprev hfound
  | ok val =>
    obtain ⟨pcoinsTip, vtxundo⟩ := val
    simp only [hconnect] at h
    have hrecord := recordConnected_frame cfg cs block pindex vtxundo
    split at h
    · obtain ⟨rfl, rfl⟩ := Prod.mk.inj (pure_eq_ok_iff.mp h)
      exact ⟨by simp [rejects, hread, hconnect], by simp, fun _ => hrecord⟩
    · rename_i final hfinal
      obtain ⟨rfl, rfl⟩ := Prod.mk.inj (pure_eq_ok_iff.mp h)
      refine ⟨by simp [rejects, hread, hconnect], fun _ => ?_, fun h => absurd rfl h⟩
      have hcandidates : ∀ p ∈ (cs.recordConnected cfg block pindex vtxundo).setBlockIndexCandidates,
          p ∈ cs.setBlockIndexCandidates ∨ p ∈ cs.mapBlockIndex :=
        fun p hp => (hrecord.candidates p hp).imp_right And.left
      rcases updateFinalized_spec hfinal with rfl | ⟨pa, rfl, hanc, hup⟩
      · refine ⟨rfl, hrecord.index, hrecord.work, hcandidates, hrecord.unlinked, ?_, ?_⟩
        · intro f hf
          rw [hrecord.finalized] at hf
          obtain ⟨tip, htip, hanc⟩ := hguards.tip f hf
          exact hanc.trans (IsAncestor.of_pprev? (hpprev.trans htip))
        · intro f hf
          exact ⟨f, hrecord.finalized ▸ hf, .refl⟩
      · refine ⟨rfl, hrecord.index, hrecord.work, hcandidates, hrecord.unlinked, ?_, ?_⟩
        · intro f hf
          obtain rfl := some.inj hf
          exact hanc
        · intro f hf
          exact ⟨pa, rfl, hup f (hrecord.finalized ▸ hf)⟩

/-- Connecting a block and pruning the candidates keeps the invariants. -/
theorem Connects.keeps (h : Connects pindex cs cs') (hcs : cs.Indexed)
    (hmem : pindex ∈ cs.mapBlockIndex) (hprune : cs'.pruneBlockIndexCandidates cfg = .ok cs'') :
    cs''.Indexed ∧ cs''.Guards ∧ cs''.tip = some pindex ∧
      cs''.pindexFinalized = cs'.pindexFinalized ∧ cs''.mapBlockIndex = cs.mapBlockIndex := by
  unfold pruneBlockIndexCandidates at hprune
  split at hprune
  · cases hprune
  rename_i tip htip
  obtain rfl : tip = pindex := some.inj (htip.symm.trans h.tip)
  simp only [require_bind_eq_ok_iff, pure_eq_ok_iff] at hprune
  obtain ⟨-, rfl⟩ := hprune
  have hindexed : cs'.Indexed :=
    hcs.of_eq h.index h.work (by simpa [h.tip] using hmem) h.candidates h.unlinked
  refine ⟨⟨hindexed.pprev, hindexed.tip, fun p hp => hindexed.candidates p
    (mem_of_mem_filter hp), hindexed.unlinked⟩, ⟨fun f hf => ⟨tip, h.tip,
    h.isAncestor f hf⟩, fun f hf p hp hanc => ?_⟩, h.tip, rfl, h.index⟩
  -- A candidate that is left has at least the work of the tip.
  have hknown := hindexed.tip tip h.tip
  have hworse := (mem_filter.mp hp).2
  have hwork : cs'.nChainWork tip ≤ cs'.nChainWork p :=
    nChainWork_le_of_not_worse (by simpa using hworse : ¬ cs'.worse cfg p tip)
  exact hindexed.eq_of_isAncestor (hindexed.mem_of_isAncestor hknown (h.isAncestor f hf)) hanc
    ((hindexed.nChainWork_le hknown (h.isAncestor f hf)).trans hwork)

/-- `DisconnectTip` goes back to the predecessor of the tip. -/
theorem disconnectTip_spec (h : cs.disconnectTip = .ok cs') : ∃ tip pprev, cs.tip = some tip ∧
    tip.pprev? = some pprev ∧ cs'.tip = some pprev ∧ cs'.mapBlockIndex = cs.mapBlockIndex ∧
    cs'.entry = cs.entry ∧ cs'.setBlockIndexCandidates = cs.setBlockIndexCandidates ∧
    cs'.mapBlocksUnlinked = cs.mapBlocksUnlinked ∧
    (cs.pindexFinalized ≠ some tip → cs'.pindexFinalized = cs.pindexFinalized) := by
  unfold disconnectTip at h
  split at h
  · cases h
  rename_i tip htip
  rw [bind_eq_ok_iff] at h
  obtain ⟨block, -, h⟩ := h
  split at h
  · rename_i vtxundo pprev _ hpprev
    simp only [bind_eq_ok_iff, pure_eq_ok_iff] at h
    obtain ⟨_, -, _, -, rfl⟩ := h
    exact ⟨tip, pprev, htip, hpprev, rfl, rfl, rfl, rfl, rfl, fun hne => if_neg hne⟩
  · cases h

/-- A chain that the node can work towards : it goes through the finalized block. -/
structure Aims (cs : CChainState) (pindexMostWork : CBlockIndex) : Prop where
  known : pindexMostWork ∈ cs.mapBlockIndex
  isAncestor : ∀ pindexFinalized ∈ cs.pindexFinalized, IsAncestor pindexFinalized pindexMostWork

theorem Aims.of_eq (h : cs.Aims pindex) (hfinal : cs'.pindexFinalized = cs.pindexFinalized)
    (hindex : ∀ pindex ∈ cs.mapBlockIndex, pindex ∈ cs'.mapBlockIndex) : cs'.Aims pindex :=
  ⟨hindex _ h.known, hfinal ▸ h.isAncestor⟩

end CChainState

open CChainState

/-! ## The running call -/

variable {cfg : ChainConfig γ} {cs cs' : CChainState} {node node' : Node} {e : Event}

/-- What holds at each point of `ActivateBestChain`. -/
def Activation.Sound (cs : CChainState) : Activation → Prop
  | .idle => True
  | .released _ pindexMostWork _ => ∀ pindex ∈ pindexMostWork, cs.Aims pindex
  | .choosing _ pindexMostWork => ∀ pindex ∈ pindexMostWork, cs.Aims pindex
  | .disconnecting _ pindexMostWork _ pindexFork => cs.Aims pindexMostWork ∧
    (∀ pindexFinalized ∈ cs.pindexFinalized, ∃ fork ∈ pindexFork, IsAncestor pindexFinalized fork) ∧
    ∀ fork ∈ pindexFork, ∃ tip ∈ cs.tip, IsAncestor fork tip
  | .connecting _ pindexMostWork _ _ _ todo => cs.Aims pindexMostWork ∧
    ∀ pindex ∈ todo, IsAncestor pindex pindexMostWork

theorem Activation.Sound.of_eq {activation : Activation} (h : activation.Sound cs)
    (htip : cs'.tip = cs.tip) (hfinal : cs'.pindexFinalized = cs.pindexFinalized)
    (hindex : ∀ pindex ∈ cs.mapBlockIndex, pindex ∈ cs'.mapBlockIndex) : activation.Sound cs' := by
  cases activation with
  | idle => trivial
  | released | choosing => exact fun pindex hmem => (h pindex hmem).of_eq hfinal hindex
  | disconnecting =>
    exact ⟨h.1.of_eq hfinal hindex, hfinal ▸ h.2.1, htip ▸ h.2.2⟩
  | connecting => exact ⟨h.1.of_eq hfinal hindex, h.2⟩

/-- The invariant of a node. -/
structure Node.Inv (cfg : ChainConfig γ) (node : Node) : Prop where
  indexed : node.state.Indexed
  guards : node.state.Guards
  genesis : node.state.KnowsGenesis cfg
  sound : node.activation.Sound node.state

/-- The finalized block of a state is an ancestor of the finalized block and of the tip of
another. -/
def Node.Preserves (node node' : Node) : Prop :=
  ∀ pindexFinalized ∈ node.state.pindexFinalized,
    (∃ pindexFinalized' ∈ node'.state.pindexFinalized, IsAncestor pindexFinalized pindexFinalized') ∧
      ∃ tip ∈ node'.state.tip, IsAncestor pindexFinalized tip

instance : IsTrans Node Node.Preserves where
  trans node node' node'' h h' pindexFinalized hfinal := by
    obtain ⟨⟨pindexFinalized', hfinal', hanc⟩, -⟩ := h pindexFinalized hfinal
    obtain ⟨⟨f'', hfinal'', hanc'⟩, tip, htip, hanctip⟩ := h' pindexFinalized' hfinal'
    exact ⟨⟨f'', hfinal'', hanc.trans hanc'⟩, tip, htip, hanc.trans hanctip⟩

/-- Whether a step rejects a block of a batch of `ActivateBestChainStep` when the first block of
the batch, `vpindexToConnect.back()`, is finalized. -/
def Node.rejectsBatch (cfg : ChainConfig γ) (node : Node) : Event → Bool
  | .advance _ _ =>
    match node.activation with
    | .connecting round pindexMostWork _ _ vpindexToConnect (pindex :: _) =>
      node.state.rejects cfg (round.blockFor pindexMostWork pindex) pindex &&
        vpindexToConnect.getLast?.any node.state.isBlockFinalized
    | _ => false
  | _ => false

/-- Steps that keep the finalized block below the tip preserve it. -/
theorem Node.Preserves.of_eq (hfinal : node'.state.pindexFinalized = node.state.pindexFinalized)
    (hguards : node'.state.Guards) : node.Preserves node' := by
  intro pindexFinalized h
  rw [← hfinal] at h
  exact ⟨⟨pindexFinalized, h, .refl⟩, hguards.tip pindexFinalized h⟩

variable {pindexMostWork : Option CBlockIndex} {shutdown : Bool}

theorem Round.finish_sound {round : Round} (h : ∀ pindex ∈ pindexMostWork, cs.Aims pindex) :
    (round.finish pindexMostWork shutdown).Sound cs := by
  unfold Round.finish
  split_ifs
  · trivial
  · exact h

theorem Round.stepDone_sound {round : Round} (h : ∀ pindex ∈ pindexMostWork, cs.Aims pindex) :
    (round.stepDone cfg cs pindexMostWork shutdown).Sound cs := by
  unfold Round.stepDone
  dsimp only
  split_ifs
  · exact h
  · exact Round.finish_sound h

variable {pa pb : CBlockIndex}

omit [Crypto] in
theorem isAncestor_of_mem_downTo {nHeight : ℤ} (h : pa ∈ downTo nHeight pb) :
    IsAncestor pa pb := by
  induction pb with
  | genesis hash nTime =>
    rw [downTo] at h
    split_ifs at h
    · cases h
    · rw [mem_singleton.mp h]
      exact .refl
  | next pprev hash nTime ih =>
    rw [downTo] at h
    split_ifs at h
    · cases h
    · rcases mem_cons.mp h with rfl | h
      · exact .refl
      · exact (ih h).step

omit [Crypto] in
theorem isAncestor_of_mem_blocksToConnect {nHeight nTargetHeight : ℤ}
    (h : pa ∈ blocksToConnect pb nHeight nTargetHeight) : IsAncestor pa pb := by
  unfold blocksToConnect at h
  cases htarget : pb.getAncestorAt nTargetHeight with
  | none =>
    rw [htarget] at h
    cases h
  | some target =>
    rw [htarget] at h
    exact (isAncestor_of_mem_downTo h).trans (isAncestor_of_getAncestorAt htarget)

/-! ## One step -/

theorem Node.Inv.of_frame (hinv : node.Inv cfg) (hframe : Frame node.state cs')
    {activation : Activation} (hsound : activation.Sound cs') :
    Node.Inv cfg ⟨cs', activation⟩ ∧ node.Preserves ⟨cs', activation⟩ := by
  have hguards := hframe.guards hinv.indexed hinv.guards
  exact ⟨⟨hframe.indexed hinv.indexed, hguards, hinv.genesis.mono fun _ => hframe.mem, hsound⟩,
    .of_eq hframe.finalized hguards⟩

theorem Node.Inv.of_keeps (hinv : node.Inv cfg) (hkeeps : Keeps node.state cs') :
    Node.Inv cfg { node with state := cs' } ∧ node.Preserves { node with state := cs' } :=
  ⟨⟨hkeeps.indexed, hkeeps.guards, hinv.genesis.mono hkeeps.index,
    hinv.sound.of_eq hkeeps.tip hkeeps.finalized hkeeps.index⟩,
    .of_eq hkeeps.finalized hkeeps.guards⟩

variable {pindexOldTip : Option CBlockIndex}

/-- The loop that disconnects blocks stops at the fork, above the finalized block. -/
theorem Node.Inv.disconnectTip {round : Round} {pindexMostWork : CBlockIndex}
    {pindexFork : Option CBlockIndex} (hinv : node.Inv cfg)
    (hactivation : node.activation = .disconnecting round pindexMostWork pindexOldTip pindexFork)
    (hne : node.state.tip ≠ pindexFork) (h : node.state.disconnectTip = .ok cs') :
    Node.Inv cfg { node with state := cs' } ∧ node.Preserves { node with state := cs' } := by
  have hsound := hinv.sound
  rw [hactivation] at hsound
  obtain ⟨haims, hfinal, hfork⟩ := hsound
  obtain ⟨tip, pprev, htip, hpprev, htip', hindex, hentry, hcandidates, hunlinked, hkeep⟩ :=
    disconnectTip_spec h
  -- The fork is a proper ancestor of the tip, so it is not above the new one.
  have hfork' : ∀ fork ∈ pindexFork, IsAncestor fork pprev := by
    intro fork hmem
    obtain ⟨tip', hmem', hanc⟩ := hfork fork hmem
    obtain rfl := some.inj (htip.symm.trans hmem')
    obtain ⟨pprev', hpprev', hanc'⟩ := hanc.pprev fun heq => hne (by rw [htip, hmem, heq])
    rwa [some.inj (hpprev.symm.trans hpprev')]
  have hfinalized : cs'.pindexFinalized = node.state.pindexFinalized := by
    refine hkeep fun heq => ?_
    obtain ⟨fork, hmem, hanc⟩ := hfinal tip heq
    have hle := hanc.nHeight_le.trans (hfork' fork hmem).nHeight_le
    have hheight := nHeight_of_pprev? hpprev
    omega
  have hwork : ∀ pindex, cs'.nChainWork pindex = node.state.nChainWork pindex :=
    fun pindex => by rw [nChainWork, hentry, nChainWork]
  have hguards : cs'.Guards := by
    refine ⟨fun f hf => ?_, fun f hf => ?_⟩
    · obtain ⟨fork, hmem, hanc⟩ := hfinal f (hfinalized ▸ hf)
      exact ⟨pprev, htip', hanc.trans (hfork' fork hmem)⟩
    · rw [hcandidates]
      exact hinv.guards.candidates f (hfinalized ▸ hf)
  have hknown := (hinv.indexed.pprev tip (hinv.indexed.tip tip htip) pprev hpprev).1
  have hindexed : cs'.Indexed := hinv.indexed.of_eq hindex hwork (by simpa [htip'] using hknown)
    (fun _ => hcandidates ▸ Or.inl) (fun _ => hunlinked ▸ Or.inl)
  refine ⟨⟨hindexed, hguards, hinv.genesis.mono fun _ h => hindex ▸ h, ?_⟩,
    .of_eq hfinalized hguards⟩
  dsimp only
  rw [hactivation]
  refine ⟨haims.of_eq hfinalized fun _ h => hindex ▸ h, hfinalized ▸ hfinal, fun fork hmem => ?_⟩
  exact ⟨pprev, htip', hfork' fork hmem⟩

variable {now : ℤ}

/-- Rejecting a block when the first one of its batch is finalized moves the finalized block below
that one. -/
theorem not_preserves_of_rejectsBatch (hinv : node.Inv cfg)
    (h : node.advance cfg now shutdown = .ok node')
    (hrejects : node.rejectsBatch cfg (.advance now shutdown)) : ¬ node.Preserves node' := by
  unfold Node.rejectsBatch at hrejects
  dsimp only at hrejects
  split at hrejects
  · rename_i round pindexMostWork pindexOldTip nHeight vpindexToConnect pindex todo hactivation
    rw [Bool.and_eq_true] at hrejects
    obtain ⟨hreject, hback⟩ := hrejects
    obtain ⟨back, hlast, hfinal⟩ := (any_eq_true _ _).mp hback
    simp only [Node.advance, hactivation, bind_eq_ok_iff] at h
    obtain ⟨⟨mid, res⟩, hconnect, h⟩ := h
    obtain ⟨-, hres, -, hframe⟩ := connectTip_spec hinv.guards hconnect
    obtain rfl := hres.mpr hreject
    have hframe := hframe (by simp)
    simp only [Node.afterConnectTip, hlast, bind_eq_ok_iff, pure_eq_ok_iff] at h
    obtain ⟨cs', hfound, rfl⟩ := h
    rw [← hframe.isBlockFinalized] at hfinal
    simp only [invalidChainFound, require_bind_eq_ok_iff, if_pos hfinal, pure_eq_ok_iff] at hfound
    obtain ⟨-, rfl⟩ := hfound
    intro hpreserves
    obtain ⟨pindexFinalized, hmem, hanc⟩ := isBlockFinalized_iff.mp hfinal
    rw [hframe.finalized] at hmem
    obtain ⟨⟨pprev, hpprev, hanc'⟩, -⟩ := hpreserves pindexFinalized hmem
    have hheight := nHeight_of_pprev? hpprev
    have hle := hanc.nHeight_le
    have hle' := hanc'.nHeight_le
    omega
  · cases hrejects

/-- Connecting a block of the batch keeps the invariant. -/
theorem Node.Inv.afterConnectTip {round : Round} {pindexMostWork pindex : CBlockIndex} {nHeight : ℤ}
    {vpindexToConnect todo : List CBlockIndex} {mid : CChainState} {res : ConnectResult}
    (hinv : node.Inv cfg) (hactivation : node.activation =
      .connecting round pindexMostWork pindexOldTip nHeight vpindexToConnect (pindex :: todo))
    (hconnect : node.state.connectTip cfg now (round.blockFor pindexMostWork pindex) pindex =
      .ok (mid, res))
    (h : Node.afterConnectTip cfg shutdown round pindexMostWork pindexOldTip nHeight
      vpindexToConnect pindex todo (mid, res) = .ok node')
    (hrejects : node.rejectsBatch cfg (.advance now shutdown) = false) :
    node'.Inv cfg ∧ node.Preserves node' := by
  have hsound := hinv.sound
  rw [hactivation] at hsound
  obtain ⟨haims, htodo⟩ := hsound
  have hanc := htodo pindex mem_cons_self
  obtain ⟨hpprev, hres, hconnects, hframe⟩ := connectTip_spec hinv.guards hconnect
  cases res with
  | connected =>
    have hconnects := hconnects rfl
    rw [Node.afterConnectTip, bind_eq_ok_iff] at h
    obtain ⟨cs', hprune, h⟩ := h
    obtain ⟨hindexed, hguards, htip, hfinal, hindex⟩ := hconnects.keeps hinv.indexed
      (hinv.indexed.mem_of_isAncestor haims.known hanc) hprune
    have haims' : cs'.Aims pindexMostWork := by
      refine ⟨hindex ▸ haims.known, fun f hf => ?_⟩
      exact (hconnects.isAncestor f (hfinal ▸ hf)).trans hanc
    have hpreserves : ∀ activation, node.Preserves ⟨cs', activation⟩ := by
      intro activation f hf
      obtain ⟨f', hf', hup⟩ := hconnects.finalized f hf
      exact ⟨⟨f', hfinal ▸ hf', hup⟩, pindex, htip, hup.trans (hconnects.isAncestor f' hf')⟩
    have hgenesis := hinv.genesis.mono fun p (hp : p ∈ node.state.mapBlockIndex) =>
      (hindex ▸ hp : p ∈ cs'.mapBlockIndex)
    split_ifs at h
    · obtain rfl := pure_eq_ok_iff.mp h
      refine ⟨⟨hindexed, hguards, hgenesis, Round.stepDone_sound fun p hp => ?_⟩, hpreserves _⟩
      obtain rfl := some.inj hp
      exact haims'
    · obtain rfl := pure_eq_ok_iff.mp h
      exact ⟨⟨hindexed, hguards, hgenesis, haims', fun p hp => htodo p
        (mem_cons_of_mem _ hp)⟩, hpreserves _⟩
  | invalid =>
    have hframe := hframe (by simp)
    rw [Node.afterConnectTip] at h
    split at h
    · cases h
    · rename_i back hlast
      simp only [bind_eq_ok_iff, pure_eq_ok_iff] at h
      obtain ⟨cs', hfound, rfl⟩ := h
      have hnot : ¬ mid.isBlockFinalized back := by
        rw [hframe.isBlockFinalized]
        simpa [Node.rejectsBatch, hactivation, hres.mp rfl, hlast] using hrejects
      rw [invalidChainFound_eq hfound hnot]
      exact hinv.of_frame hframe (Round.stepDone_sound (by simp))
  | corrupt =>
    obtain rfl := Except.ok.inj h
    exact hinv.of_frame (hframe (by simp)) (Round.stepDone_sound (by simp))

/-- A step of a running call that does not reject such a block keeps the invariant. -/
theorem Node.Inv.advance (hinv : node.Inv cfg) (h : node.advance cfg now shutdown = .ok node')
    (hrejects : node.rejectsBatch cfg (.advance now shutdown) = false) :
    node'.Inv cfg ∧ node.Preserves node' := by
  have hsound := hinv.sound
  unfold Node.advance at h
  dsimp only at h
  split at h
  · cases h
  · -- The start of a round.
    rename_i hactivation
    rw [hactivation] at hsound
    obtain rfl := Except.ok.inj h
    exact hinv.of_frame (Frame.refl _) hsound
  · -- A round of `FindMostWorkChain`.
    rename_i round hactivation
    rw [bind_eq_ok_iff] at h
    obtain ⟨⟨mid, res⟩, hround, h⟩ := h
    obtain ⟨hframe, hfound⟩ := findMostWorkRound_spec hinv.indexed hinv.guards hround
    cases res with
    | exhausted =>
      obtain rfl := pure_eq_ok_iff.mp h
      exact hinv.of_frame hframe (Round.finish_sound (by simp))
    | rejected =>
      obtain rfl := pure_eq_ok_iff.mp h
      exact hinv.of_frame hframe (by simp [Activation.Sound])
    | found pindexNew =>
      obtain rfl := pure_eq_ok_iff.mp h
      obtain ⟨hmem, hanc⟩ := hfound pindexNew rfl
      refine hinv.of_frame hframe fun pindex hpindex => ?_
      obtain rfl := some.inj hpindex
      exact ⟨hframe.mem hmem, hframe.finalized ▸ hanc⟩
  · -- A chain to work towards.
    rename_i round pindexMostWork hactivation
    rw [hactivation] at hsound
    have haims := hsound pindexMostWork rfl
    split_ifs at h
    · obtain rfl := Except.ok.inj h
      exact hinv.of_frame (Frame.refl _) (Round.finish_sound hsound)
    · obtain rfl := Except.ok.inj h
      refine hinv.of_frame (Frame.refl _) ⟨haims, fun f hf => ?_, fun fork hfork => ?_⟩
      · obtain ⟨tip, htip, hanc⟩ := hinv.guards.tip f hf
        rw [mem_def.mp htip]
        exact exists_findFork (haims.isAncestor f hf) hanc
      · exact (findFork_eq_some hfork).2
  · -- The loop that disconnects.
    rename_i round pindexMostWork pindexOldTip pindexFork hactivation
    split_ifs at h with hdisconnect
    · simp only [bind_eq_ok_iff, pure_eq_ok_iff] at h
      obtain ⟨cs', hstep, rfl⟩ := h
      rw [← hactivation]
      exact hinv.disconnectTip hactivation hdisconnect.2 hstep
    · obtain rfl := Except.ok.inj h
      rw [hactivation] at hsound
      exact hinv.of_frame (Frame.refl _) ⟨hsound.1, by simp⟩
  · -- The end of a batch.
    rename_i round pindexMostWork pindexOldTip nHeight _ hactivation
    rw [hactivation] at hsound
    split_ifs at h
    · obtain rfl := Except.ok.inj h
      refine hinv.of_frame (Frame.refl _) (Round.stepDone_sound fun pindex hpindex => ?_)
      obtain rfl := some.inj hpindex
      exact hsound.1
    · obtain rfl := Except.ok.inj h
      refine hinv.of_frame (Frame.refl _) ⟨hsound.1, fun pindex hpindex => ?_⟩
      exact isAncestor_of_mem_blocksToConnect (mem_reverse.mp hpindex)
  · -- A block of the batch.
    rename_i hactivation
    rw [bind_eq_ok_iff] at h
    obtain ⟨⟨mid, res⟩, hconnect, h⟩ := h
    exact hinv.afterConnectTip hactivation hconnect h hrejects

theorem leaveState_eq_ok {α : Type} {res : CChainState × Except Failure α}
    (h : leaveState res = .ok cs) : cs = res.1 := by
  unfold leaveState at h
  split at h
  · exact (Except.ok.inj h).symm
  · split_ifs at h
    exact (Except.ok.inj h).symm

theorem Node.Inv.step (hinv : node.Inv cfg) (h : node.step cfg e = .ok node')
    (hrejects : node.rejectsBatch cfg e = false) : node'.Inv cfg ∧ node.Preserves node' := by
  cases e with
  | acceptBlockHeader header now nAdjustedTime =>
    rw [Node.step, require_bind_eq_ok_iff] at h
    simp only [bind_eq_ok_iff, pure_eq_ok_iff] at h
    obtain ⟨-, cs', hleave, rfl⟩ := h
    rw [leaveState_eq_ok hleave]
    exact hinv.of_keeps (acceptBlockHeader_keeps header now nAdjustedTime hinv.indexed hinv.guards
      hinv.genesis).1
  | acceptBlock block fRequested now nAdjustedTime =>
    rw [Node.step, require_bind_eq_ok_iff] at h
    simp only [bind_eq_ok_iff, pure_eq_ok_iff] at h
    obtain ⟨-, cs', hleave, rfl⟩ := h
    rw [leaveState_eq_ok hleave]
    exact hinv.of_keeps (acceptBlock_keeps block fRequested now nAdjustedTime hinv.indexed
      hinv.guards hinv.genesis)
  | activateBestChain pblock =>
    simp only [Node.step] at h
    split at h
    · obtain rfl := Except.ok.inj h
      exact hinv.of_frame (Frame.refl _) (by simp [Activation.Sound])
    · cases h
  | advance now shutdown => exact hinv.advance h hrejects
  | prune pindex =>
    obtain rfl := Except.ok.inj h
    exact hinv.of_keeps (.frame (.refl hinv.indexed hinv.guards)
      (pruneOneBlockFile_frame node.state pindex))

/-- On one step from a state of the invariant, the finalized block is preserved exactly when the
step does not reject a block of a batch whose first block is finalized. -/
theorem preserves_iff (hinv : node.Inv cfg) (h : node.step cfg e = .ok node') :
    node.Preserves node' ↔ node.rejectsBatch cfg e = false := by
  constructor
  · intro hpreserves
    by_contra hrejects
    rw [Bool.not_eq_false] at hrejects
    cases e with
    | advance now shutdown => exact not_preserves_of_rejectsBatch hinv h hrejects hpreserves
    | acceptBlockHeader | acceptBlock | activateBestChain | prune =>
      simp [Node.rejectsBatch] at hrejects
  · exact fun hrejects => (hinv.step h hrejects).2

/-! ## Runs -/

/-- Where a node starts : no call is running and no block is finalized. The index holds the
genesis block and what was loaded. -/
structure Node.Start (cfg : ChainConfig γ) (node : Node) : Prop where
  indexed : node.state.Indexed
  genesis : node.state.KnowsGenesis cfg
  finalized : node.state.pindexFinalized = none
  idle : node.activation = .idle

theorem Node.Start.inv (h : node.Start cfg) : node.Inv cfg := by
  refine ⟨h.indexed, ⟨?_, ?_⟩, h.genesis, ?_⟩
  · simp [h.finalized]
  · simp [h.finalized]
  · rw [h.idle]
    trivial

/-- Over a whole run of a node, every later finalized block and every later tip is the finalized
block or a descendant of it, exactly when no step rejects a block of a batch of
`ActivateBestChainStep` whose first block is finalized. -/
theorem finality_iff (cfg : ChainConfig γ) (node : Node) (hstart : node.Start cfg)
    (run : List (Event × Node))
    (hrun : Trace.Run (fun e node node' => node.step cfg e = .ok node') node run) :
    (Trace.states node run).Pairwise Node.Preserves ↔
      Trace.Meets (fun e node => node.rejectsBatch cfg e = false) node run :=
  hrun.pairwise_iff_meets (fun _ _ _ hinv h hrejects => (hinv.step h hrejects).1)
    (fun _ _ _ hinv h => preserves_iff hinv h) hstart.inv

end

/-! ## A finalized block that is abandoned -/

section Sample

attribute [local instance] Crypto.toy

/-- A block with only a coinbase, marked by a tag in its script. -/
def sampleForkBlock (hashPrevBlock : Uint256) (nTime : UInt32) (tag : UInt8) (nValue : Int64) :
    CBlock :=
  let coinbase : CTransaction :=
    .ofLegacy ⟨[⟨⟨Blob.null, 0xffffffff⟩, [0x51, tag], 0xffffffff⟩], [⟨nValue, [0x51]⟩], 1, 0⟩
      version_one one_lt_word
  ⟨⟨4, hashPrevBlock, coinbase.getId, nTime, 0x207fffff, 0⟩, [coinbase]⟩

def sampleForkGenesis : CBlock := sampleForkBlock Blob.null 0 0 0

def sampleBlockA1 : CBlock := sampleForkBlock sampleForkGenesis.getHash 1 1 0

def sampleBlockA2 : CBlock := sampleForkBlock sampleBlockA1.getHash 2 2 0

def sampleBlockB1 : CBlock := sampleForkBlock sampleForkGenesis.getHash 1 3 0

def sampleBlockB2 : CBlock := sampleForkBlock sampleBlockB1.getHash 2 4 0

/-- Its coinbase takes more than the subsidy. -/
def sampleBlockB3 : CBlock := sampleForkBlock sampleBlockB2.getHash 3 5 5000000000001

def sampleIndexGenesis : CBlockIndex := .genesis sampleForkGenesis.getHash 0

def sampleIndexA1 : CBlockIndex := .next sampleIndexGenesis sampleBlockA1.getHash 1

def sampleIndexA2 : CBlockIndex := .next sampleIndexA1 sampleBlockA2.getHash 2

def sampleIndexB1 : CBlockIndex := .next sampleIndexGenesis sampleBlockB1.getHash 1

/-- A node that finalizes the block one below its tip. -/
def sampleFinalityConfig : ChainConfig Empty where
  params := { sampleParams with
    hashGenesisBlock := sampleForkGenesis.getHash
    BIP34Height := 1000 }
  excessiveBlockSize := 2000000
  scripts := fun _ _ _ => .ok []
  wait := fun _ => true
  getNextWorkRequired := fun _ _ => 0x207fffff
  maxreorgdepth := 1
  startupTime := 0
  address := fun _ => 0

/-- The node after `LoadGenesisBlock`. -/
def sampleFinalityStart : Node :=
  let empty : CChainState := ⟨[], fun _ => {}, [], [], [], none, none, 1, ⟨∅, Blob.null⟩,
    fun _ => none, fun _ => none⟩
  ⟨(empty.addToBlockIndex sampleForkGenesis.toCBlockHeader 0).1.receivedBlockTransactions
    sampleFinalityConfig sampleForkGenesis sampleIndexGenesis, .idle⟩

theorem sampleFinalityStart_start : sampleFinalityStart.Start sampleFinalityConfig where
  indexed := ⟨by decide +kernel, by decide +kernel, by decide +kernel, by decide +kernel⟩
  genesis := by
    unfold CChainState.KnowsGenesis
    decide +kernel
  finalized := by decide +kernel
  idle := rfl

/-- A call of `ActivateBestChain` at a time, and the steps it takes. -/
def sampleActivate (now : ℤ) (steps : ℕ) : List Event :=
  .activateBestChain none :: replicate steps (.advance now false)

/-- The chain of A is connected. The three blocks of B arrive later and have more work; the first
two of them are connected, and the first is finalized. -/
def sampleFinalityEvents : List Event :=
  sampleActivate 0 6 ++ [.acceptBlock sampleBlockA1 true 0 100] ++
    sampleActivate 0 6 ++ [.acceptBlock sampleBlockA2 true 0 100] ++ sampleActivate 0 6 ++
    [.acceptBlock sampleBlockB1 true 200 100, .acceptBlock sampleBlockB2 true 200 100,
      .acceptBlock sampleBlockB3 true 10000 100] ++
    sampleActivate 10000 9

/-- Then the third block of B is rejected, and the same call goes back to the chain of A. -/
def sampleLaterEvents : List Event := replicate 11 (.advance 10000 false)

theorem finalized_block_abandoned :
    ∃ node node' : Node,
      sampleFinalityEvents.foldlM (Node.step sampleFinalityConfig) sampleFinalityStart =
          .ok node ∧
        sampleLaterEvents.foldlM (Node.step sampleFinalityConfig) node = .ok node' ∧
        node.state.pindexFinalized = some sampleIndexB1 ∧
        node'.state.pindexFinalized = some sampleIndexA1 ∧
        node'.state.tip = some sampleIndexA2 ∧
        ¬ IsAncestor sampleIndexB1 sampleIndexA1 ∧ ¬ IsAncestor sampleIndexB1 sampleIndexA2 := by
  have hrun : ((sampleFinalityEvents.foldlM (Node.step sampleFinalityConfig)
      sampleFinalityStart).bind fun node =>
        (sampleLaterEvents.foldlM (Node.step sampleFinalityConfig) node).map fun node' =>
          (node.state.pindexFinalized, node'.state.pindexFinalized, node'.state.tip)).toOption =
      some (some sampleIndexB1, some sampleIndexA1, some sampleIndexA2) := by decide +kernel
  cases hfirst : sampleFinalityEvents.foldlM (Node.step sampleFinalityConfig)
    sampleFinalityStart with
  | error e => simp [hfirst, Except.bind, Except.toOption] at hrun
  | ok node =>
    cases hlater : sampleLaterEvents.foldlM (Node.step sampleFinalityConfig) node with
    | error e => simp [hfirst, hlater, Except.bind, Except.map, Except.toOption] at hrun
    | ok node' =>
      simp only [hfirst, hlater, Except.bind, Except.map, Except.toOption, some.injEq,
        Prod.mk.injEq] at hrun
      refine ⟨node, node', rfl, hlater, hrun.1, hrun.2.1, hrun.2.2, ?_, ?_⟩
      all_goals
        rw [← contains_iff]
        decide +kernel

/-- The start of a first call of `ActivateBestChain` keeps the property. -/
theorem finality_iff_activate :
    (Trace.states sampleFinalityStart [(Event.activateBestChain none,
      { sampleFinalityStart with activation := .released none none none })]).Pairwise
        Node.Preserves :=
  (finality_iff sampleFinalityConfig sampleFinalityStart sampleFinalityStart_start _
    (.cons rfl (.nil _))).mpr ⟨rfl, trivial⟩

end Sample

end RadiantCore
