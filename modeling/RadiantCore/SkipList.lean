import RadiantCore.BlockTree

/-!
# The skip list of blocks

Every block has a pointer `pskip` to one of its ancestors, at the height that `GetSkipHeight` gives,
and `CBlockIndex::GetAncestor` walks along these pointers and the pointers to the predecessors. The
walk finds the block that the predecessors alone lead to (`getAncestorWalk_eq`), so the pointers are
those that `BuildSkip` computes with it (`pskip_eq_buildSkip`).
-/

namespace RadiantCore

/-- `InvertLowestOne`. -/
def invertLowestOne (n : ℕ) : ℕ := n &&& (n - 1)

/-- `GetSkipHeight`. -/
def getSkipHeight (height : ℕ) : ℕ :=
  if height < 2 then 0
  else if height % 2 = 1 then invertLowestOne (invertLowestOne (height - 1)) + 1
  else invertLowestOne height

theorem invertLowestOne_lt {n : ℕ} (hn : 0 < n) : invertLowestOne n < n :=
  lt_of_le_of_lt Nat.and_le_right (by omega)

theorem getSkipHeight_lt {height : ℕ} (h : 0 < height) : getSkipHeight height < height := by
  unfold getSkipHeight
  split_ifs with hsmall hodd
  · exact h
  · have hfirst := invertLowestOne_lt (by omega : 0 < height - 1)
    have hsecond : invertLowestOne (invertLowestOne (height - 1)) ≤ invertLowestOne (height - 1) :=
      Nat.and_le_left
    omega
  · exact invertLowestOne_lt h

namespace CBlockIndex

/-- The member `pskip`. -/
def pskip : CBlockIndex → Option CBlockIndex
  | genesis _ _ => none
  | next pprev _ _ => pprev.getAncestor (getSkipHeight (pprev.nHeight + 1))

/-- The condition in `GetAncestor` to follow `pskip` : `pprev->pskip` isn't better. -/
def skips (height heightWalk : ℕ) : Bool :=
  getSkipHeight heightWalk = height ∨ getSkipHeight heightWalk > height ∧
    ¬(getSkipHeight (heightWalk - 1) + 2 < getSkipHeight heightWalk ∧
      getSkipHeight (heightWalk - 1) ≥ height)

/-- The loop of `GetAncestor`. -/
def walkLoop (height : ℕ) (pindexWalk : CBlockIndex) (heightWalk : ℕ) :
    Except Failure CBlockIndex :=
  if heightWalk > height then
    match pindexWalk.pskip.filter fun _ => skips height heightWalk with
    | some pskip => walkLoop height pskip (getSkipHeight heightWalk)
    | none =>
      match pindexWalk.pprev? with
      | some pprev => walkLoop height pprev (heightWalk - 1)
      | none => .error (.abort "pindexWalk->pprev")
  else .ok pindexWalk
termination_by heightWalk
decreasing_by
  · exact getSkipHeight_lt (by omega)
  · omega

/-- `CBlockIndex::GetAncestor`, along the skip list. -/
def getAncestorWalk (pindex : CBlockIndex) (height : ℤ) : Except Failure (Option CBlockIndex) :=
  if height > pindex.nHeight ∨ height < 0 then .ok none
  else some <$> walkLoop height.toNat pindex pindex.nHeight

/-- `CBlockIndex::BuildSkip`. -/
def buildSkip (pindex : CBlockIndex) : Except Failure (Option CBlockIndex) :=
  match pindex.pprev? with
  | some pprev => pprev.getAncestorWalk (getSkipHeight pindex.nHeight)
  | none => .ok none

section Walk

variable {pindex pa q : CBlockIndex} {height : ℕ}

theorem pskip_eq_some (h : pindex.pskip = some q) :
    IsAncestor q pindex ∧ q.nHeight = getSkipHeight pindex.nHeight ∧ q.nHeight < pindex.nHeight := by
  cases pindex with
  | genesis => cases h
  | next pprev hash nTime =>
    obtain ⟨hanc, hheight⟩ := getAncestor_eq_some_iff.mp h
    refine ⟨hanc.step, hheight, ?_⟩
    rw [hheight]
    exact getSkipHeight_lt (Nat.succ_pos _)

/-- The walk arrives at the ancestor, from any block above it. -/
theorem walkLoop_eq (hanc : IsAncestor pa pindex) :
    walkLoop pa.nHeight pindex pindex.nHeight = .ok pa := by
  generalize hheight : pindex.nHeight = heightWalk
  induction heightWalk using Nat.strong_induction_on generalizing pindex with
  | h heightWalk ih =>
    rw [walkLoop]
    split_ifs with hgt
    · split
      · rename_i q hq
        rw [Option.filter_eq_some_iff] at hq
        obtain ⟨hskip, hcond⟩ := hq
        obtain ⟨hqanc, hqheight, hqlt⟩ := pskip_eq_some hskip
        rw [hheight] at hqheight hqlt
        have hle : pa.nHeight ≤ q.nHeight := by
          have := of_decide_eq_true hcond
          omega
        exact ih _ (hqheight ▸ hqlt) (hanc.of_nHeight_le hqanc hle) hqheight
      · obtain ⟨pprev, hpprev, hprev⟩ := hanc.pprev fun heq => by
          rw [heq] at hgt
          omega
        rw [hpprev]
        have hprevHeight := nHeight_of_pprev? hpprev
        exact ih _ (by omega) hprev (by omega)
    · rw [hanc.eq_of_nHeight_le (by omega)]

/-- The walk along the skip list finds the ancestor that the predecessors lead to. -/
theorem getAncestorWalk_eq (pindex : CBlockIndex) (height : ℤ) :
    pindex.getAncestorWalk height = .ok (pindex.getAncestorAt height) := by
  unfold getAncestorWalk getAncestorAt
  by_cases hneg : height < 0
  · rw [if_pos (Or.inr hneg), if_pos hneg]
  by_cases hhigh : height > pindex.nHeight
  · rw [if_pos (Or.inl hhigh), if_neg hneg]
    cases hanc : pindex.getAncestor height.toNat with
    | none => rfl
    | some pa =>
      obtain ⟨hanc, hheight⟩ := getAncestor_eq_some_iff.mp hanc
      have := hanc.nHeight_le
      omega
  · obtain ⟨pa, hpa, hanc, hheight⟩ := @getAncestor_eq pindex height.toNat (by omega)
    rw [if_neg (by omega), if_neg hneg, hpa, ← hheight, walkLoop_eq hanc]
    rfl

theorem pskip_eq_buildSkip (pindex : CBlockIndex) : pindex.buildSkip = .ok pindex.pskip := by
  cases pindex with
  | genesis => rfl
  | next pprev hash nTime =>
    change pprev.getAncestorWalk (getSkipHeight (pprev.nHeight + 1) : ℕ) = _
    rw [getAncestorWalk_eq, getAncestorAt, if_neg (by omega), Int.toNat_natCast]
    rfl

end Walk

end CBlockIndex

end RadiantCore
