import RadiantCore.SkipList

/-!
# The anchor block of ASERT

Where the anchor is not a parameter of the chain, `GetASERTAnchorBlock` of `pow.cpp` searches it : the
first block that is enabled by its median time past. The search walks back along the skip list. Its
result is cached, in one variable for all forks, and the next call returns the cached block if it is
an ancestor.

The function asks for an enabled block, and then finds the lowest enabled ancestor whatever was
cached (`anchor_history_independent`) : a cached block is enabled and its predecessor is not
(`AnchorFor`). A call on a block that is not enabled would put that block into the cache, and an
enabled block above it would get it as its anchor (`anchor_depends_on_history`).
-/

namespace RadiantCore

open List

/-- `Consensus::Params::ASERTAnchor`. -/
structure ASERTAnchor where
  nHeight : ℤ
  nBits : UInt32
  nPrevBlockTime : ℤ

/-- The consensus parameters of the difficulty rules. The activation time is that of
`-asertactivationtime` where it is given. -/
structure PowParams where
  powLimit : Uint256
  nPowTargetTimespan : ℤ
  nPowTargetSpacing : ℤ
  fPowAllowMinDifficultyBlocks : Bool
  fPowNoRetargeting : Bool
  nASERTHalfLife : ℤ
  asertHalfLifeUpgradeHeight : ℤ
  asertActivationTime : ℤ
  asertAnchorParams : Option ASERTAnchor

/-- `IsASERTEnabled`. -/
def isASERTEnabled (params : PowParams) (pindexPrev : CBlockIndex) : Bool :=
  match params.asertAnchorParams with
  | some anchor => pindexPrev.nHeight ≥ anchor.nHeight
  | none => pindexPrev.getMedianTimePast ≥ params.asertActivationTime

/-- The loop of `GetASERTAnchorBlock`. -/
def anchorLoop (params : PowParams) (anchor : CBlockIndex) : CBlockIndex :=
  match _hprev : anchor.pprev? with
  | none => anchor
  | some pprev =>
    match _hskip : anchor.pskip.filter (isASERTEnabled params) with
    | some pskip => anchorLoop params pskip
    | none => if isASERTEnabled params pprev then anchorLoop params pprev else anchor
termination_by anchor.nHeight
decreasing_by
  · exact (CBlockIndex.pskip_eq_some (Option.filter_eq_some_iff.mp _hskip).1).2.2
  · rw [CBlockIndex.nHeight_of_pprev? _hprev]
    exact Nat.lt_succ_self _

/-- The cached block, if it is an ancestor. -/
def cachedAncestor (cachedAnchor : Option CBlockIndex) (pindex : CBlockIndex) :
    Except Failure (Option CBlockIndex) :=
  match cachedAnchor with
  | some lastCached => do
    let pa ← pindex.getAncestorWalk lastCached.nHeight
    return if pa = some lastCached then some lastCached else none
  | none => return none

/-- `GetASERTAnchorBlock` : the anchor, and the variable `cachedAnchor` after the call. -/
def getASERTAnchorBlock (params : PowParams) (cachedAnchor : Option CBlockIndex)
    (pindex : CBlockIndex) : Except Failure (CBlockIndex × Option CBlockIndex) := do
  match ← cachedAncestor cachedAnchor pindex with
  | some lastCached => return (lastCached, cachedAnchor)
  | none =>
    let anchor := anchorLoop params pindex
    return (anchor, some anchor)

/-- The cache after calls on some blocks. -/
def anchorCalls (params : PowParams) (cachedAnchor : Option CBlockIndex)
    (calls : List CBlockIndex) : Except Failure (Option CBlockIndex) :=
  calls.foldlM (fun cached pindex => Prod.snd <$> getASERTAnchorBlock params cached pindex)
    cachedAnchor

/-- Blocks with their predecessors, among which the median time past never decreases from a block to
the next. -/
structure HeaderTree where
  blocks : Set CBlockIndex
  closed : ∀ {pindex pprev}, pindex ∈ blocks → pindex.pprev? = some pprev → pprev ∈ blocks
  mono : ∀ {pindex pprev}, pindex ∈ blocks → pindex.pprev? = some pprev →
    pprev.getMedianTimePast ≤ pindex.getMedianTimePast

/-! ## The lowest enabled block -/

/-- A block that is enabled, with a predecessor that is not. -/
structure IsAnchor (params : PowParams) (pindex : CBlockIndex) : Prop where
  enabled : isASERTEnabled params pindex = true
  first : ∀ pprev, pindex.pprev? = some pprev → isASERTEnabled params pprev = false

section Anchor

open CBlockIndex

variable {params : PowParams} {tree : HeaderTree} {pindex pa : CBlockIndex}

theorem HeaderTree.mem_of_isAncestor (hanc : IsAncestor pa pindex) (h : pindex ∈ tree.blocks) :
    pa ∈ tree.blocks := by
  induction hanc with
  | refl => exact h
  | step _ ih => exact ih (tree.closed h rfl)

/-- Blocks above an enabled block are enabled. -/
theorem HeaderTree.enabled_of_isAncestor (hanc : IsAncestor pa pindex) (h : pindex ∈ tree.blocks)
    (henabled : isASERTEnabled params pa = true) : isASERTEnabled params pindex = true := by
  induction hanc with
  | refl => exact henabled
  | @step pprev hash nTime hanc ih =>
    have hprev := ih (tree.closed h rfl)
    have hmono := tree.mono h rfl
    unfold isASERTEnabled at hprev ⊢
    cases hanchor : params.asertAnchorParams with
    | some anchor =>
      rw [hanchor] at hprev
      have hle := of_decide_eq_true hprev
      refine decide_eq_true ?_
      rw [nHeight]
      push_cast
      omega
    | none =>
      rw [hanchor] at hprev
      exact decide_eq_true (le_trans (of_decide_eq_true hprev) hmono)

/-- The search finds an anchor below an enabled block. -/
theorem anchorLoop_spec (henabled : isASERTEnabled params pindex = true) :
    IsAncestor (anchorLoop params pindex) pindex ∧ IsAnchor params (anchorLoop params pindex) := by
  fun_induction anchorLoop params pindex with
  | case1 anchor hprev =>
    refine ⟨.refl, henabled, fun pprev hpprev => ?_⟩
    rw [hprev] at hpprev
    cases hpprev
  | case2 anchor pprev hprev pskip hskip ih =>
    obtain ⟨hpskip, hskipEnabled⟩ := Option.filter_eq_some_iff.mp hskip
    obtain ⟨hanc, hanchor⟩ := ih hskipEnabled
    exact ⟨hanc.trans (pskip_eq_some hpskip).1, hanchor⟩
  | case3 anchor pprev hprev hskip hpprev ih =>
    obtain ⟨hanc, hanchor⟩ := ih hpprev
    exact ⟨hanc.trans (.of_pprev? hprev), hanchor⟩
  | case4 anchor pprev hprev hskip hpprev =>
    refine ⟨.refl, henabled, fun pprev' hpprev' => ?_⟩
    rw [hprev] at hpprev'
    obtain rfl := Option.some.inj hpprev'
    exact Bool.eq_false_iff.mpr hpprev

/-- An anchor below a block is its lowest enabled ancestor. -/
theorem IsAnchor.lowest (hanchor : IsAnchor params pa) (hanc : IsAncestor pa pindex)
    (h : pindex ∈ tree.blocks) {pb : CBlockIndex} (hpb : IsAncestor pb pindex)
    (henabled : isASERTEnabled params pb = true) : IsAncestor pa pb := by
  refine hanc.of_nHeight_le hpb (not_lt.mp fun hlt => ?_)
  have hbelow := hpb.of_nHeight_le hanc hlt.le
  obtain ⟨pprev, hpprev, hprev⟩ := hbelow.pprev fun heq => by
    rw [heq] at hlt
    exact lt_irrefl _ hlt
  have hmem := tree.closed (tree.mem_of_isAncestor hanc h) hpprev
  have htrue := tree.enabled_of_isAncestor hprev hmem henabled
  rw [hanchor.first pprev hpprev] at htrue
  cases htrue

/-! ## The cache -/

/-- A cached block is an anchor. -/
def CacheValid (params : PowParams) (cached : Option CBlockIndex) : Prop :=
  ∀ pa ∈ cached, IsAnchor params pa

variable {cached : Option CBlockIndex}

theorem cachedAncestor_eq (cached : Option CBlockIndex) (pindex : CBlockIndex) :
    ∃ found, cachedAncestor cached pindex = .ok found ∧
      ∀ pa ∈ found, pa ∈ cached ∧ IsAncestor pa pindex := by
  unfold cachedAncestor
  cases cached with
  | none => exact ⟨none, rfl, by simp⟩
  | some lastCached =>
    dsimp only
    rw [getAncestorWalk_eq, ok_bind]
    refine ⟨_, rfl, fun pa hpa => ?_⟩
    split_ifs at hpa with hfound
    · obtain rfl := Option.some.inj hpa
      exact ⟨rfl, isAncestor_of_getAncestorAt hfound⟩
    · cases hpa

/-- A call on an enabled block finds an anchor below it, and leaves an anchor in the cache. -/
theorem getASERTAnchorBlock_spec (hcached : CacheValid params cached)
    (henabled : isASERTEnabled params pindex = true) :
    ∃ pa cached', getASERTAnchorBlock params cached pindex = .ok (pa, cached') ∧
      IsAncestor pa pindex ∧ IsAnchor params pa ∧ CacheValid params cached' := by
  obtain ⟨found, hfound, hspec⟩ := cachedAncestor_eq cached pindex
  rw [getASERTAnchorBlock, hfound, ok_bind]
  cases found with
  | some lastCached =>
    obtain ⟨hmem, hanc⟩ := hspec lastCached rfl
    exact ⟨lastCached, cached, rfl, hanc, hcached lastCached hmem, hcached⟩
  | none =>
    obtain ⟨hanc, hanchor⟩ := anchorLoop_spec henabled
    refine ⟨_, _, rfl, hanc, hanchor, fun pa hpa => ?_⟩
    obtain rfl := Option.some.inj hpa
    exact hanchor

/-- Calls on enabled blocks leave an anchor in the cache. -/
theorem anchorCalls_spec {calls : List CBlockIndex}
    (hcalls : ∀ call ∈ calls, isASERTEnabled params call = true)
    (hcached : CacheValid params cached) :
    ∃ cached', anchorCalls params cached calls = .ok cached' ∧ CacheValid params cached' := by
  induction calls generalizing cached with
  | nil => exact ⟨cached, rfl, hcached⟩
  | cons call calls ih =>
    obtain ⟨hcall, hcalls⟩ := forall_mem_cons.mp hcalls
    obtain ⟨pa, cached', hrun, -, -, hvalid⟩ := getASERTAnchorBlock_spec hcached hcall
    obtain ⟨cached'', hrest, hvalid'⟩ := ih hcalls hvalid
    refine ⟨cached'', ?_, hvalid'⟩
    rw [anchorCalls, foldlM_cons, hrun]
    exact hrest

end Anchor

/-- After any calls on enabled blocks, the anchor of an enabled block is its lowest enabled ancestor,
and the predecessor of the anchor is not enabled. -/
theorem anchor_history_independent (params : PowParams) (tree : HeaderTree)
    (calls : List CBlockIndex)
    (hcalls : ∀ call ∈ calls, call ∈ tree.blocks ∧ isASERTEnabled params call = true)
    (pindex : CBlockIndex) (hpindex : pindex ∈ tree.blocks)
    (henabled : isASERTEnabled params pindex = true) :
    ∃ cached pa cached', anchorCalls params none calls = .ok cached ∧
      getASERTAnchorBlock params cached pindex = .ok (pa, cached') ∧
      pa.IsAncestor pindex ∧ isASERTEnabled params pa = true ∧
      (∀ pb : CBlockIndex, pb.IsAncestor pindex → isASERTEnabled params pb = true →
        pa.nHeight ≤ pb.nHeight) ∧
      ∀ pprev, pa.pprev? = some pprev → isASERTEnabled params pprev = false := by
  obtain ⟨cached, hrun, hvalid⟩ := @anchorCalls_spec params none calls
    (fun call hcall => (hcalls call hcall).2) (by simp [CacheValid])
  obtain ⟨pa, cached', hcall, hanc, hanchor, -⟩ := getASERTAnchorBlock_spec hvalid henabled
  exact ⟨cached, pa, cached', hrun, hcall, hanc, hanchor.enabled,
    fun pb hpb hpbEnabled => (hanchor.lowest hanc hpindex hpb hpbEnabled).nHeight_le, hanchor.first⟩

theorem length_sampleLimit :
    (replicate 28 0xff ++ replicate 4 0x00 : List UInt8).length = 32 := rfl

/-- A chain without a fixed anchor, with the activation time 100. -/
def samplePow : PowParams :=
  ⟨⟨replicate 28 0xff ++ replicate 4 0x00, length_sampleLimit⟩, 604800, 300, false, false, 172800,
    0, 100, none⟩

/-- The genesis block of a sample chain. -/
def sampleGenesis : CBlockIndex := .genesis ⟨replicate 32 0, rfl⟩ 0

/-- The block after it, which is not enabled. -/
def sampleEarly : CBlockIndex := .next sampleGenesis ⟨replicate 32 0, rfl⟩ 50

/-- The first enabled block, two blocks later. -/
def sampleAnchor : CBlockIndex :=
  .next (.next sampleEarly ⟨replicate 32 0, rfl⟩ 200) ⟨replicate 32 0, rfl⟩ 300

/-- The block after the anchor. -/
def sampleHeader : CBlockIndex := .next sampleAnchor ⟨replicate 32 0, rfl⟩ 400

/-- The ancestors of a block. -/
def ancestorsOf : CBlockIndex → List CBlockIndex
  | pindex@(.genesis _ _) => [pindex]
  | pindex@(.next pprev _ _) => pindex :: ancestorsOf pprev

/-- The sample chain. -/
def sampleTree : HeaderTree where
  blocks := {pindex | pindex ∈ ancestorsOf sampleHeader}
  closed {pindex pprev} h hprev := by
    have hclosed : ∀ pindex ∈ ancestorsOf sampleHeader, ∀ pprev ∈ pindex.pprev?,
        pprev ∈ ancestorsOf sampleHeader := by decide +kernel
    exact hclosed pindex h pprev hprev
  mono {pindex pprev} h hprev := by
    have hmono : ∀ pindex ∈ ancestorsOf sampleHeader, ∀ pprev ∈ pindex.pprev?,
        pprev.getMedianTimePast ≤ pindex.getMedianTimePast := by decide +kernel
    exact hmono pindex h pprev hprev

/-- The anchor of the sample chain, after a call on the block above it. -/
theorem anchor_history_independent_sample :
    isASERTEnabled samplePow sampleHeader = true ∧
    ∃ cached pa cached', anchorCalls samplePow none [sampleHeader] = .ok cached ∧
      getASERTAnchorBlock samplePow cached sampleHeader = .ok (pa, cached') ∧
      pa.IsAncestor sampleHeader ∧ isASERTEnabled samplePow pa = true ∧
      (∀ pb : CBlockIndex, pb.IsAncestor sampleHeader → isASERTEnabled samplePow pb = true →
        pa.nHeight ≤ pb.nHeight) ∧
      ∀ pprev, pa.pprev? = some pprev → isASERTEnabled samplePow pprev = false := by
  have henabled : isASERTEnabled samplePow sampleHeader = true := by decide +kernel
  have hmem : sampleHeader ∈ sampleTree.blocks := mem_cons_self
  refine ⟨henabled, anchor_history_independent samplePow sampleTree [sampleHeader] ?_ sampleHeader
    hmem henabled⟩
  intro call hcall
  obtain rfl := mem_singleton.mp hcall
  exact ⟨hmem, henabled⟩

/-- A call on a block that is not enabled puts it into the cache, and an enabled block gets it as its
anchor. -/
theorem anchor_depends_on_history :
    sampleEarly ∈ sampleTree.blocks ∧ sampleHeader ∈ sampleTree.blocks ∧
    isASERTEnabled samplePow sampleHeader = true ∧ isASERTEnabled samplePow sampleEarly = false ∧
    anchorCalls samplePow none [sampleEarly] = .ok (some sampleEarly) ∧
    getASERTAnchorBlock samplePow (some sampleEarly) sampleHeader =
      .ok (sampleEarly, some sampleEarly) ∧
    getASERTAnchorBlock samplePow none sampleHeader = .ok (sampleAnchor, some sampleAnchor) := by
  refine ⟨?_, mem_cons_self, by decide +kernel, by decide +kernel, by decide +kernel,
    by decide +kernel, by decide +kernel⟩
  show sampleEarly ∈ ancestorsOf sampleHeader
  decide +kernel

end RadiantCore
