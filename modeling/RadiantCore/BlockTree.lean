import RadiantCore.TxVerify

/-!
# The tree of blocks

`chain.cpp` : ancestors in the tree of block indices, the last common ancestor of two blocks,
whether two blocks are on the same fork, and the fork of a block from a chain.

A block index contains its chain of predecessors, so `IsAncestor` is a relation between two
indices alone. It is an order (`IsAncestor.trans`, `IsAncestor.antisymm`) in which the
ancestors of a block are comparable (`IsAncestor.total`), and the functions of the source are
characterised by it.
-/

namespace RadiantCore

open Option

namespace CBlockIndex

/-- The loop of `LastCommonAncestor` : both indices climb until they meet. -/
def climb : CBlockIndex → CBlockIndex → Option CBlockIndex
  | pa@(next pprev _ _), pb@(next pprev' _ _) => if pa = pb then some pa else climb pprev pprev'
  | pa, pb => if pa = pb then some pa else none

/-- `LastCommonAncestor`, `none` when the chains do not meet. -/
def lastCommonAncestor (pa pb : CBlockIndex) : Option CBlockIndex :=
  if pa.nHeight > pb.nHeight then (pa.getAncestor pb.nHeight).bind fun pa => climb pa pb
  else if pb.nHeight > pa.nHeight then (pb.getAncestor pa.nHeight).bind fun pb => climb pa pb
  else climb pa pb

/-- The first index is on the chain of the second. -/
inductive IsAncestor (pindex : CBlockIndex) : CBlockIndex → Prop
  | refl : IsAncestor pindex pindex
  | step {pprev : CBlockIndex} {hash : Uint256} {nTime : UInt32} :
      IsAncestor pindex pprev → IsAncestor pindex (next pprev hash nTime)

/-- The genesis block of a chain. -/
def root : CBlockIndex → CBlockIndex
  | genesis hash nTime => genesis hash nTime
  | next pprev _ _ => pprev.root

section

variable {pa pb : CBlockIndex} (h : IsAncestor pa pb)

include h

theorem IsAncestor.nHeight_le : pa.nHeight ≤ pb.nHeight := by
  induction h with
  | refl => exact le_rfl
  | step _ ih => exact Nat.le_succ_of_le ih

theorem IsAncestor.root_eq : pa.root = pb.root := by
  induction h with
  | refl => rfl
  | step _ ih => exact ih

theorem IsAncestor.trans {pc : CBlockIndex} (h' : IsAncestor pb pc) : IsAncestor pa pc := by
  induction h' with
  | refl => exact h
  | step _ ih => exact .step ih

end

theorem isAncestor_root : ∀ pindex : CBlockIndex, IsAncestor pindex.root pindex
  | genesis _ _ => .refl
  | next pprev _ _ => .step (isAncestor_root pprev)

theorem nHeight_root (pindex : CBlockIndex) : pindex.root.nHeight = 0 := by
  induction pindex with
  | genesis => rfl
  | next _ _ _ ih => exact ih

theorem getAncestor_eq : ∀ {pindex : CBlockIndex} {height : ℕ}, height ≤ pindex.nHeight →
    ∃ pa, pindex.getAncestor height = some pa ∧ IsAncestor pa pindex ∧ pa.nHeight = height
  | genesis hash nTime, height, h => by
    have hzero : height = 0 := by simpa [nHeight] using h
    exact ⟨_, if_pos hzero, .refl, hzero.symm⟩
  | next pprev hash nTime, height, h => by
    by_cases htop : height = (next pprev hash nTime).nHeight
    · exact ⟨_, if_pos htop, .refl, htop.symm⟩
    · rw [nHeight] at h htop
      obtain ⟨pa, hpa, hanc, hheight⟩ : ∃ pa, pprev.getAncestor height = some pa ∧ _ :=
        getAncestor_eq (by omega)
      exact ⟨pa, (if_neg htop).trans hpa, hanc.step, hheight⟩

theorem climb_eq : ∀ {pa pb : CBlockIndex}, pa.nHeight = pb.nHeight → pa.root = pb.root →
    ∃ pindex, climb pa pb = some pindex ∧ IsAncestor pindex pa ∧ IsAncestor pindex pb
  | genesis hash nTime, genesis hash' nTime', _, hroot => by
    have heq : genesis hash nTime = genesis hash' nTime' := hroot
    exact ⟨_, if_pos heq, .refl, heq ▸ .refl⟩
  | next pprev hash nTime, next pprev' hash' nTime', hheight, hroot => by
    by_cases heq : next pprev hash nTime = next pprev' hash' nTime'
    · exact ⟨_, if_pos heq, .refl, heq ▸ .refl⟩
    · obtain ⟨pindex, hclimb, ha, hb⟩ := climb_eq (Nat.succ.inj hheight) hroot
      exact ⟨pindex, (if_neg heq).trans hclimb, ha.step, hb.step⟩
  | genesis _ _, next _ _ _, hheight, _ => by simp [nHeight] at hheight
  | next _ _ _, genesis _ _, hheight, _ => by simp [nHeight] at hheight

/-- Chains with the same genesis block have a common ancestor. -/
theorem lastCommonAncestor_eq {pa pb : CBlockIndex} (hroot : pa.root = pb.root) :
    ∃ pindex, lastCommonAncestor pa pb = some pindex ∧ IsAncestor pindex pa ∧
      IsAncestor pindex pb := by
  unfold lastCommonAncestor
  split_ifs with hgt hlt
  · obtain ⟨pa', hpa', hanc, hheight⟩ := getAncestor_eq (le_of_lt hgt)
    obtain ⟨pindex, hclimb, ha, hb⟩ := climb_eq hheight (hanc.root_eq.trans hroot)
    exact ⟨pindex, by rw [hpa', bind_some, hclimb], ha.trans hanc, hb⟩
  · obtain ⟨pb', hpb', hanc, hheight⟩ := getAncestor_eq (le_of_lt hlt)
    obtain ⟨pindex, hclimb, ha, hb⟩ := climb_eq hheight.symm (hroot.trans hanc.root_eq.symm)
    exact ⟨pindex, by rw [hpb', bind_some, hclimb], ha, hb.trans hanc⟩
  · exact climb_eq (by omega) hroot

/-! ## The order of ancestors -/

variable {pa pb pc pindex tip : CBlockIndex} {height : ℕ}

theorem IsAncestor.eq_of_nHeight_le (h : IsAncestor pa pb) (hle : pb.nHeight ≤ pa.nHeight) :
    pa = pb := by
  cases h with
  | refl => rfl
  | step h =>
    have hlt := h.nHeight_le
    rw [nHeight] at hle
    omega

/-- Two ancestors of a block are comparable. -/
theorem IsAncestor.total (ha : IsAncestor pa pc) (hb : IsAncestor pb pc) :
    IsAncestor pa pb ∨ IsAncestor pb pa := by
  induction ha with
  | refl => exact Or.inr hb
  | step ha ih =>
    cases hb with
    | refl => exact Or.inl ha.step
    | step hb => exact ih hb

theorem IsAncestor.of_nHeight_le (ha : IsAncestor pa pc) (hb : IsAncestor pb pc)
    (hle : pa.nHeight ≤ pb.nHeight) : IsAncestor pa pb := by
  rcases ha.total hb with h | h
  · exact h
  · rw [h.eq_of_nHeight_le hle]
    exact .refl

theorem IsAncestor.of_pprev? (h : pb.pprev? = some pa) : IsAncestor pa pb := by
  cases pb with
  | genesis => cases h
  | next pprev hash nTime =>
    obtain rfl : pprev = pa := some.inj h
    exact .step .refl

/-- A proper ancestor is an ancestor of the predecessor. -/
theorem IsAncestor.pprev (h : IsAncestor pa pb) (hne : pa ≠ pb) :
    ∃ pprev, pb.pprev? = some pprev ∧ IsAncestor pa pprev := by
  cases h with
  | refl => exact absurd rfl hne
  | step h => exact ⟨_, rfl, h⟩

theorem getAncestor_eq_some_iff :
    pindex.getAncestor height = some pa ↔ IsAncestor pa pindex ∧ pa.nHeight = height := by
  constructor
  · intro h
    induction pindex with
    | genesis hash nTime =>
      simp only [getAncestor, ite_none_right_eq_some, some.injEq] at h
      obtain ⟨rfl, rfl⟩ := h
      exact ⟨.refl, rfl⟩
    | next pprev hash nTime ih =>
      rw [getAncestor] at h
      split_ifs at h with htop
      · obtain rfl := some.inj h
        exact ⟨.refl, htop.symm⟩
      · obtain ⟨hanc, hheight⟩ := ih h
        exact ⟨hanc.step, hheight⟩
  · rintro ⟨hanc, rfl⟩
    obtain ⟨pb, hpb, hanc', hheight⟩ := getAncestor_eq hanc.nHeight_le
    rw [hpb, (hanc'.of_nHeight_le hanc hheight.le).eq_of_nHeight_le hheight.ge]

/-! ## Forks -/

/-- `CBlockIndex::GetAncestor` at any integer : there is no block at a negative height. -/
def getAncestorAt (pindex : CBlockIndex) (height : ℤ) : Option CBlockIndex :=
  if height < 0 then none else pindex.getAncestor height.toNat

/-- `AreOnTheSameFork`. -/
def areOnTheSameFork (pa pb : CBlockIndex) : Bool :=
  if pa.nHeight > pb.nHeight then pa.getAncestor pb.nHeight = some pb
  else if pb.nHeight > pa.nHeight then some pa = pb.getAncestor pa.nHeight
  else pa = pb

/-- `CChain::Contains`, of the chain with a tip. -/
def contains (tip pindex : CBlockIndex) : Bool := tip.getAncestor pindex.nHeight = some pindex

/-- The loop of `CChain::FindFork` : the index climbs until it is in the chain. -/
def findForkLoop (tip : CBlockIndex) : CBlockIndex → Option CBlockIndex
  | pindex@(genesis _ _) => if tip.contains pindex then some pindex else none
  | pindex@(next pprev _ _) => if tip.contains pindex then some pindex else findForkLoop tip pprev

/-- `CChain::FindFork`, where the empty chain has no tip. -/
def findFork (tip : Option CBlockIndex) (pindex : CBlockIndex) : Option CBlockIndex :=
  tip.bind fun tip =>
    if pindex.nHeight > tip.nHeight then (pindex.getAncestor tip.nHeight).bind (findForkLoop tip)
    else findForkLoop tip pindex

theorem isAncestor_of_getAncestorAt {height : ℤ} (h : pindex.getAncestorAt height = some pa) :
    IsAncestor pa pindex := by
  unfold getAncestorAt at h
  split_ifs at h
  exact (getAncestor_eq_some_iff.mp h).1

theorem contains_iff : tip.contains pindex ↔ IsAncestor pindex tip := by
  rw [contains, decide_eq_true_iff, getAncestor_eq_some_iff, and_iff_left rfl]

theorem areOnTheSameFork_iff :
    areOnTheSameFork pa pb ↔ IsAncestor pa pb ∨ IsAncestor pb pa := by
  unfold areOnTheSameFork
  split_ifs with hgt hlt
  · rw [decide_eq_true_iff, getAncestor_eq_some_iff, and_iff_left rfl]
    refine ⟨Or.inr, fun h => h.resolve_left fun hab => ?_⟩
    exact absurd hab.nHeight_le (not_le.mpr hgt)
  · rw [decide_eq_true_iff, eq_comm, getAncestor_eq_some_iff, and_iff_left rfl]
    refine ⟨Or.inl, fun h => h.resolve_right fun hba => ?_⟩
    exact absurd hba.nHeight_le (not_le.mpr hlt)
  · rw [decide_eq_true_iff]
    constructor
    · rintro rfl
      exact Or.inl .refl
    · rintro (h | h)
      · exact h.eq_of_nHeight_le (not_lt.mp hlt)
      · exact (h.eq_of_nHeight_le (not_lt.mp hgt)).symm

/-- The fork is the last ancestor of the block on the chain. -/
theorem findForkLoop_eq_some (h : findForkLoop tip pindex = some pa) :
    IsAncestor pa pindex ∧ IsAncestor pa tip := by
  induction pindex with
  | genesis hash nTime =>
    rw [findForkLoop] at h
    split_ifs at h with hmem
    obtain rfl := some.inj h
    exact ⟨.refl, contains_iff.mp hmem⟩
  | next pprev hash nTime ih =>
    rw [findForkLoop] at h
    split_ifs at h with hmem
    · obtain rfl := some.inj h
      exact ⟨.refl, contains_iff.mp hmem⟩
    · exact ⟨(ih h).1.step, (ih h).2⟩

theorem exists_findForkLoop (hindex : IsAncestor pa pindex) (htip : IsAncestor pa tip) :
    ∃ fork, findForkLoop tip pindex = some fork ∧ IsAncestor pa fork := by
  induction hindex with
  | refl =>
    have hmem : tip.contains pa := contains_iff.mpr htip
    refine ⟨pa, ?_, .refl⟩
    cases pa <;> rw [findForkLoop, if_pos hmem]
  | @step pprev hash nTime hindex ih =>
    by_cases hmem : tip.contains (next pprev hash nTime)
    · exact ⟨_, by rw [findForkLoop, if_pos hmem], hindex.step⟩
    · obtain ⟨fork, hfork, hanc⟩ := ih
      exact ⟨fork, by rw [findForkLoop, if_neg hmem, hfork], hanc⟩

theorem findFork_eq_some {tip? : Option CBlockIndex} (h : findFork tip? pindex = some pa) :
    IsAncestor pa pindex ∧ ∃ tip ∈ tip?, IsAncestor pa tip := by
  obtain ⟨tip, htip, h⟩ := bind_eq_some_iff.mp h
  split_ifs at h
  · obtain ⟨pb, hpb, h⟩ := bind_eq_some_iff.mp h
    have hfork := findForkLoop_eq_some h
    exact ⟨hfork.1.trans (getAncestor_eq_some_iff.mp hpb).1, tip, htip, hfork.2⟩
  · have hfork := findForkLoop_eq_some h
    exact ⟨hfork.1, tip, htip, hfork.2⟩

/-- A common ancestor of the block and the tip is not above the fork. -/
theorem exists_findFork (hindex : IsAncestor pa pindex) (htip : IsAncestor pa tip) :
    ∃ fork, findFork (some tip) pindex = some fork ∧ IsAncestor pa fork := by
  by_cases hgt : pindex.nHeight > tip.nHeight
  · obtain ⟨pb, hpb, hanc, hheight⟩ := getAncestor_eq (le_of_lt hgt)
    have hle : IsAncestor pa pb := hindex.of_nHeight_le hanc (hheight ▸ htip.nHeight_le)
    obtain ⟨fork, hfork, hfork'⟩ := exists_findForkLoop hle htip
    exact ⟨fork, by simp only [findFork, bind_some, if_pos hgt, hpb, hfork], hfork'⟩
  · obtain ⟨fork, hfork, hfork'⟩ := exists_findForkLoop hindex htip
    exact ⟨fork, by simp only [findFork, bind_some, if_neg hgt, hfork], hfork'⟩

end CBlockIndex

end RadiantCore
