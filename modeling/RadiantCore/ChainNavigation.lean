import RadiantCore.Finality
import RadiantCore.SkipList

/-!
# Navigation in the tree of blocks

`LastCommonAncestor` climbs along the skip list as long as the pointers of the two blocks differ,
and so finds the highest common ancestor (`meetLoop_eq`).
-/

namespace RadiantCore

namespace CBlockIndex

/-- The block that `n` pointers to predecessors lead to. -/
def predecessor : ℕ → CBlockIndex → Option CBlockIndex
  | 0, pindex => some pindex
  | n + 1, pindex => pindex.pprev?.bind (predecessor n)

/-- The body of the loop of `LastCommonAncestor`. -/
def meetStep (pa pb : CBlockIndex) : Except Failure (Option CBlockIndex × Option CBlockIndex) :=
  match pa.pskip, pb.pskip with
  | some pa', some pb' =>
    if pa' ≠ pb' then
      if pa'.nHeight = pb'.nHeight then .ok (some pa', some pb')
      else .error (.abort "pa->nHeight == pb->nHeight")
    else .ok (pa.pprev?, pb.pprev?)
  | _, _ => .ok (pa.pprev?, pb.pprev?)

variable {pa pb pc pindex tip : CBlockIndex}

theorem nHeight_lt_of_meetStep {q : Option CBlockIndex} (h : meetStep pa pb = .ok (some pc, q)) :
    pc.nHeight < pa.nHeight := by
  have hprev : ∀ {x}, Except.ok (ε := Failure) (pa.pprev?, x) = .ok (some pc, q) →
      pc.nHeight < pa.nHeight := fun heq => by
    have := nHeight_of_pprev? (congrArg Prod.fst (Except.ok.inj heq))
    omega
  unfold meetStep at h
  split at h
  · rename_i pa' pb' ha hb
    split_ifs at h
    · obtain rfl : pa' = pc := Option.some.inj (congrArg Prod.fst (Except.ok.inj h))
      exact (pskip_eq_some ha).2.2
    · exact hprev h
  · exact hprev h

/-- The loop of `LastCommonAncestor`, and the assertion after it. -/
def meetLoop : Option CBlockIndex → Option CBlockIndex → Except Failure (Option CBlockIndex)
  | some pa, some pb =>
    if pa = pb then .ok (some pa)
    else
      match _hstep : meetStep pa pb with
      | .ok (pa', pb') => meetLoop pa' pb'
      | .error e => .error e
  | none, none => .ok none
  | _, _ => .error (.abort "pa == pb")
termination_by pa => (pa.map fun pa => pa.nHeight + 1).getD 0
decreasing_by
  cases pa' with
  | none => exact Nat.succ_pos _
  | some pa' => exact Nat.succ_lt_succ (nHeight_lt_of_meetStep _hstep)

/-- `LastCommonAncestor`, along the skip list. -/
def lastCommonAncestorWalk (pa pb : CBlockIndex) : Except Failure (Option CBlockIndex) :=
  if pa.nHeight > pb.nHeight then
    pa.getAncestorWalk pb.nHeight >>= fun pa => meetLoop pa (some pb)
  else if pb.nHeight > pa.nHeight then
    pb.getAncestorWalk pa.nHeight >>= fun pb => meetLoop (some pa) pb
  else meetLoop (some pa) (some pb)

/-- The common ancestors of two blocks are the ancestors of one block. -/
def Meet (pa pb pc : CBlockIndex) : Prop :=
  ∀ pindex, IsAncestor pindex pa ∧ IsAncestor pindex pb ↔ IsAncestor pindex pc

theorem predecessor_eq (h : IsAncestor pa pb) :
    predecessor (pb.nHeight - pa.nHeight) pb = some pa := by
  induction h with
  | refl => rw [Nat.sub_self, predecessor]
  | @step pprev hash nTime h ih =>
    rw [nHeight, Nat.succ_sub h.nHeight_le, predecessor, pprev?, Option.bind_some, ih]

theorem getAncestorWalk_natCast {height : ℕ} (hle : height ≤ pindex.nHeight) :
    ∃ pa, pindex.getAncestorWalk height = .ok (some pa) ∧ IsAncestor pa pindex ∧
      pa.nHeight = height := by
  obtain ⟨pa, hpa, hanc⟩ := getAncestor_eq hle
  refine ⟨pa, ?_, hanc⟩
  rw [getAncestorWalk_eq, getAncestorAt, if_neg (by omega), Int.toNat_natCast, hpa]

theorem pskip_of_nHeight (h : pindex.nHeight ≠ 0) : ∃ q, pindex.pskip = some q := by
  cases pindex with
  | genesis => exact absurd rfl h
  | next pprev hash nTime =>
    obtain ⟨q, hq, -⟩ := getAncestor_eq
      (Nat.le_of_lt_succ (getSkipHeight_lt (Nat.succ_pos pprev.nHeight)))
    exact ⟨q, hq⟩

theorem Meet.climb {pa' pb' : CBlockIndex} (h : Meet pa' pb' pc) (ha : IsAncestor pa' pa)
    (hb : IsAncestor pb' pb)
    (hbelow : ∀ q, IsAncestor q pa → IsAncestor q pb → q.nHeight ≤ pa'.nHeight)
    (hheight : pa'.nHeight = pb'.nHeight) : Meet pa pb pc := by
  intro q
  rw [← h q]
  refine ⟨fun ⟨hqa, hqb⟩ => ?_, fun ⟨hqa, hqb⟩ => ⟨hqa.trans ha, hqb.trans hb⟩⟩
  have hle := hbelow q hqa hqb
  exact ⟨hqa.of_nHeight_le ha hle, hqb.of_nHeight_le hb (hheight ▸ hle)⟩

/-- A step goes down to blocks of one height that have all common ancestors below them : where the
pointers of the skip list differ, the common ancestors are below both. -/
theorem meetStep_eq (hheight : pa.nHeight = pb.nHeight) (hroot : pa.root = pb.root)
    (hne : pa ≠ pb) :
    ∃ pa' pb', meetStep pa pb = .ok (some pa', some pb') ∧ IsAncestor pa' pa ∧
      IsAncestor pb' pb ∧ pa'.nHeight = pb'.nHeight ∧
      ∀ q, IsAncestor q pa → IsAncestor q pb → q.nHeight ≤ pa'.nHeight := by
  have hproper : ∀ q, IsAncestor q pa → IsAncestor q pb → q ≠ pa := by
    rintro q - hqb rfl
    exact hne (hqb.eq_of_nHeight_le hheight.ge)
  have hrootb : IsAncestor pa.root pb := hroot ▸ isAncestor_root pb
  have hpos : pa.nHeight ≠ 0 := by
    intro hzero
    exact hproper _ (isAncestor_root pa) hrootb
      ((isAncestor_root pa).eq_of_nHeight_le (by omega))
  obtain ⟨sa, hsa⟩ := pskip_of_nHeight hpos
  obtain ⟨sb, hsb⟩ := pskip_of_nHeight (hheight ▸ hpos)
  obtain ⟨hancA, hheightA, -⟩ := pskip_eq_some hsa
  obtain ⟨hancB, hheightB, -⟩ := pskip_eq_some hsb
  have hskip : sa.nHeight = sb.nHeight := by rw [hheightA, hheightB, hheight]
  simp only [meetStep, hsa, hsb, hskip, if_true]
  split_ifs with hdiff
  · refine ⟨sa, sb, rfl, hancA, hancB, hskip, fun q hqa hqb => ?_⟩
    -- A common ancestor above the pointers would have both among its ancestors.
    by_contra hlt
    have ha := hancA.of_nHeight_le hqa (by omega)
    have hb := hancB.of_nHeight_le hqb (by omega)
    exact hdiff ((ha.of_nHeight_le hb hskip.le).eq_of_nHeight_le hskip.ge)
  · obtain ⟨pa', hpa', hanc⟩ := (isAncestor_root pa).pprev (hproper _ (isAncestor_root pa) hrootb)
    obtain ⟨pb', hpb', -⟩ := (hrootb).pprev fun heq => hpos (by
      rw [hheight, ← heq, nHeight_root])
    have hpaHeight := nHeight_of_pprev? hpa'
    have hpbHeight := nHeight_of_pprev? hpb'
    refine ⟨pa', pb', by rw [hpa', hpb'], .of_pprev? hpa', .of_pprev? hpb', by omega, ?_⟩
    intro q hqa hqb
    obtain ⟨p, hp, hq⟩ := hqa.pprev (hproper q hqa hqb)
    obtain rfl := Option.some.inj (hpa'.symm.trans hp)
    exact hq.nHeight_le

theorem meetLoop_eq (hheight : pa.nHeight = pb.nHeight) (hroot : pa.root = pb.root) :
    ∃ pc, meetLoop (some pa) (some pb) = .ok (some pc) ∧ Meet pa pb pc := by
  induction hn : pa.nHeight using Nat.strong_induction_on generalizing pa pb with
  | h n ih =>
    rw [meetLoop]
    split_ifs with heq
    · exact ⟨pa, rfl, fun q => by rw [← heq, and_self]⟩
    · obtain ⟨pa', pb', hstep, ha, hb, hheight', hbelow⟩ := meetStep_eq hheight hroot heq
      obtain ⟨pc, hloop, hmeet⟩ := ih _ (hn ▸ nHeight_lt_of_meetStep hstep) hheight'
        (ha.root_eq.trans (hroot.trans hb.root_eq.symm)) rfl
      refine ⟨pc, ?_, hmeet.climb ha hb hbelow hheight'⟩
      split
      · rename_i qa qb hq
        rw [hstep] at hq
        cases hq
        exact hloop
      · rename_i e he
        rw [hstep] at he
        cases he

theorem lastCommonAncestorWalk_eq (hroot : pa.root = pb.root) :
    ∃ pc, pa.lastCommonAncestorWalk pb = .ok (some pc) ∧ Meet pa pb pc := by
  unfold lastCommonAncestorWalk
  split_ifs with hgt hlt
  · obtain ⟨pa', hwalk, hanc, hheight⟩ := getAncestorWalk_natCast hgt.le
    obtain ⟨pc, hloop, hmeet⟩ := meetLoop_eq hheight (hanc.root_eq.trans hroot)
    refine ⟨pc, by rw [hwalk]; exact hloop, hmeet.climb hanc .refl ?_ hheight⟩
    exact fun q _ hqb => hheight ▸ hqb.nHeight_le
  · obtain ⟨pb', hwalk, hanc, hheight⟩ := getAncestorWalk_natCast hlt.le
    obtain ⟨pc, hloop, hmeet⟩ := meetLoop_eq hheight.symm (hroot.trans hanc.root_eq.symm)
    refine ⟨pc, by rw [hwalk]; exact hloop, hmeet.climb .refl hanc ?_ hheight.symm⟩
    exact fun q hqa _ => hqa.nHeight_le
  · exact meetLoop_eq (by omega) hroot

/-- What holds in a tree of blocks : one genesis block, no predecessor missing, and a hash names one
block. -/
structure IsTree (root : CBlockIndex) (blocks : List CBlockIndex) : Prop where
  root_eq : ∀ pindex ∈ blocks, pindex.root = root
  pprev : ∀ pindex ∈ blocks, ∀ q, pindex.pprev? = some q → q ∈ blocks
  hash : ∀ pindex ∈ blocks, ∀ q ∈ blocks, pindex.getBlockHash = q.getBlockHash → pindex = q

end CBlockIndex

open CBlockIndex

namespace CChainState

variable [Crypto]

/-- The block index has been built by `AddToBlockIndex` from a genesis block : every other header
was above a known one. -/
inductive BuiltFrom (genesis : CBlockHeader) : CChainState → Prop
  | genesis {cs : CChainState} (now : ℤ) : cs.mapBlockIndex = [] →
      BuiltFrom genesis (cs.addToBlockIndex genesis now).1
  | add {cs : CChainState} (header : CBlockHeader) (now : ℤ) : BuiltFrom genesis cs →
      (cs.lookupBlockIndex header.hashPrevBlock).isSome →
      BuiltFrom genesis (cs.addToBlockIndex header now).1

theorem BuiltFrom.isTree {genesis : CBlockHeader} {cs : CChainState} (h : BuiltFrom genesis cs) :
    IsTree (.genesis genesis.getHash genesis.nTime) cs.mapBlockIndex := by
  induction h with
  | @genesis cs now hempty =>
    have hlookup : ∀ hash, cs.lookupBlockIndex hash = none := fun hash => by
      rw [lookupBlockIndex, hempty, List.find?_nil]
    simp only [addToBlockIndex, hlookup, hempty]
    refine ⟨?_, ?_, ?_⟩ <;> simp [root, pprev?]
  | @add cs header now _ hknown ih =>
    obtain ⟨pprev, hpprev⟩ := Option.isSome_iff_exists.mp hknown
    unfold addToBlockIndex
    cases hlookup : cs.lookupBlockIndex header.getHash with
    | some pindex => exact ih
    | none =>
      simp only [hpprev]
      have hmem := (getBlockHash_of_lookupBlockIndex hpprev).1
      have hfresh : ∀ q ∈ cs.mapBlockIndex, q.getBlockHash ≠ header.getHash := fun q hq heq => by
        simpa [heq] using List.find?_eq_none.mp hlookup q hq
      refine ⟨?_, ?_, ?_⟩
      · rintro pindex (_ | ⟨_, hpindex⟩)
        · exact ih.root_eq pprev hmem
        · exact ih.root_eq pindex hpindex
      · rintro pindex (_ | ⟨_, hpindex⟩) q hq
        · obtain rfl := Option.some.inj hq
          exact List.mem_cons_of_mem _ hmem
        · exact List.mem_cons_of_mem _ (ih.pprev pindex hpindex q hq)
      · rintro pindex (_ | ⟨_, hpindex⟩) q (_ | ⟨_, hq⟩) heq
        · rfl
        · exact absurd heq.symm (hfresh q hq)
        · exact absurd heq (hfresh pindex hpindex)
        · exact ih.hash pindex hpindex q hq heq

/-- In a tree that `AddToBlockIndex` built, the walks along the skip list arrive where the
predecessors lead, at the ancestor of a height and at the highest common ancestor, and the pointers
they follow are those that `BuildSkip` found. -/
theorem skip_list_navigation {genesis : CBlockHeader} {cs : CChainState}
    (h : BuiltFrom genesis cs) :
    (∀ pindex ∈ cs.mapBlockIndex, pindex.buildSkip = .ok pindex.pskip) ∧
    (∀ pindex ∈ cs.mapBlockIndex, ∀ height ≤ pindex.nHeight, ∃ pa,
      pindex.getAncestorWalk height = .ok (some pa) ∧
      predecessor (pindex.nHeight - height) pindex = some pa) ∧
    ∀ pa ∈ cs.mapBlockIndex, ∀ pb ∈ cs.mapBlockIndex, ∃ pc,
      pa.lastCommonAncestorWalk pb = .ok (some pc) ∧ IsAncestor pc pa ∧ IsAncestor pc pb ∧
      ∀ q, IsAncestor q pa → IsAncestor q pb → IsAncestor q pc ∧ q.nHeight ≤ pc.nHeight := by
  refine ⟨fun pindex _ => pskip_eq_buildSkip pindex, fun pindex _ height hle => ?_,
    fun pa ha pb hb => ?_⟩
  · obtain ⟨pa, hwalk, hanc, rfl⟩ := getAncestorWalk_natCast hle
    exact ⟨pa, hwalk, predecessor_eq hanc⟩
  · have hroot := (h.isTree.root_eq pa ha).trans (h.isTree.root_eq pb hb).symm
    obtain ⟨pc, hwalk, hmeet⟩ := lastCommonAncestorWalk_eq hroot
    have hpc := (hmeet pc).mpr .refl
    refine ⟨pc, hwalk, hpc.1, hpc.2, fun q hqa hqb => ?_⟩
    have hq := (hmeet q).mp ⟨hqa, hqb⟩
    exact ⟨hq, hq.nHeight_le⟩

end CChainState

section Sample

open CChainState

attribute [local instance] Crypto.toy

/-- A block above the genesis block, a block above that, and a fork from the genesis block. -/
def sampleForkTree : CChainState :=
  let empty : CChainState := ⟨[], fun _ => {}, [], [], [], none, none, 1, ⟨∅, Blob.null⟩,
    fun _ => none, fun _ => none⟩
  [sampleBlockA1, sampleBlockA2, sampleBlockB1].foldl
    (fun cs block => (cs.addToBlockIndex block.toCBlockHeader 0).1)
    (empty.addToBlockIndex sampleForkGenesis.toCBlockHeader 0).1

theorem sampleForkTree_built : BuiltFrom sampleForkGenesis.toCBlockHeader sampleForkTree :=
  .add _ 0 (.add _ 0 (.add _ 0 (.genesis 0 rfl) (by decide +kernel)) (by decide +kernel))
    (by decide +kernel)

theorem mapBlockIndex_sampleForkTree : sampleForkTree.mapBlockIndex =
    [sampleIndexB1, sampleIndexA2, sampleIndexA1, sampleIndexGenesis] := by decide +kernel

theorem skip_list_navigation_fork : ∃ pc,
    sampleIndexA2.lastCommonAncestorWalk sampleIndexB1 = .ok (some pc) ∧
      IsAncestor pc sampleIndexA2 ∧ IsAncestor pc sampleIndexB1 ∧
      ∀ q, IsAncestor q sampleIndexA2 → IsAncestor q sampleIndexB1 →
        IsAncestor q pc ∧ q.nHeight ≤ pc.nHeight :=
  (skip_list_navigation sampleForkTree_built).2.2 _ (by simp [mapBlockIndex_sampleForkTree]) _
    (by simp [mapBlockIndex_sampleForkTree])

end Sample

end RadiantCore
