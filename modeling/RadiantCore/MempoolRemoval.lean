import RadiantCore.Mempool

/-!
# Removal from the memory pool

What the operations that remove entries do to a pool that is consistent (`Consistent`) : `mapNextTx`
has the inputs of the entries, `mapLinks` has the spends between them, every parent is older than its
children, and the two running sums are the sums over the entries.

`removeStaged` keeps a pool consistent whatever set of entries it removes (`removeStaged_spec`). The
other operations remove sets that contain all descendants of their members, so that the parents of
an entry that stays stay too (`Prunes`). No assertion on the way fails.
-/

namespace RadiantCore

open List IndexedTransactionSet CTxMemPoolEntry

section Pool

variable [Crypto] {env : MempoolEnv} {pool pool' pool'' : TxMemPool}

/-! ## The container -/

namespace IndexedTransactionSet

variable {s : IndexedTransactionSet} {e e' : CTxMemPoolEntry}

theorem eq_of_txid (he : e ∈ s.entries) (he' : e' ∈ s.entries) (h : e.txid = e'.txid) : e = e' :=
  inj_on_of_nodup_map s.unique he he' h

theorem nodup_entryId (s : IndexedTransactionSet) :
    (s.entries.map entryId).Nodup :=
  pairwise_map.mpr (s.sorted.imp ne_of_lt)

theorem eq_of_entryId (he : e ∈ s.entries) (he' : e' ∈ s.entries)
    (h : e.entryId = e'.entryId) : e = e' :=
  inj_on_of_nodup_map s.nodup_entryId he he' h

variable {id : TxId}

theorem find_eq_some_iff : s.find id = some e ↔ e ∈ s.entries ∧ e.txid = id := by
  constructor
  · intro h
    exact ⟨mem_of_find?_eq_some h, by simpa using find?_some h⟩
  · rintro ⟨he, rfl⟩
    cases hfind : s.find e.txid with
    | none => simpa using find?_eq_none.mp hfind e he
    | some e' =>
      have hid : e'.txid = e.txid := by simpa using find?_some hfind
      rw [eq_of_txid (mem_of_find?_eq_some hfind) he hid]

theorem find_eq_none_iff : s.find id = none ↔ ∀ e ∈ s.entries, e.txid ≠ id := by
  rw [find, find?_eq_none]
  simp

theorem deref_eq_ok (he : e ∈ s.entries) : s.deref e.entryId = .ok e := by
  unfold deref
  split
  · rename_i hnone
    simpa using find?_eq_none.mp hnone e he
  · rename_i e' hsome
    have hid : e'.entryId = e.entryId := by simpa using find?_some hsome
    rw [eq_of_entryId (mem_of_find?_eq_some hsome) he hid]

/-- An entry and the container without it. -/
theorem perm_erase (he : e ∈ s.entries) : s.entries.Perm (e :: (s.erase e.entryId).entries) := by
  obtain ⟨before, after, hsplit⟩ := append_of_mem he
  have hnodup := s.nodup_entryId
  rw [hsplit, map_append, map_cons, nodup_middle, nodup_cons,
    ← map_append] at hnodup
  have hothers : ∀ e' ∈ before ++ after, e'.entryId ≠ e.entryId := fun e' he' heq =>
    hnodup.1 (heq ▸ mem_map_of_mem he')
  have herase : (s.erase e.entryId).entries = before ++ after := by
    change s.entries.filter (·.entryId ≠ e.entryId) = _
    rw [hsplit, filter_append, filter_cons_of_neg (by simp), ← filter_append]
    exact filter_eq_self.mpr fun e' he' => by simpa using hothers e' he'
  rw [herase, hsplit]
  exact perm_middle

end IndexedTransactionSet

/-! ## Consistent pools -/

/-- An entry spends an output of another. -/
def CTxMemPoolEntry.Spends (c p : CTxMemPoolEntry) : Prop := p.txid ∈ c.prevouts.map COutPoint.txid

namespace TxMemPool

/-- The iterators into the pool. -/
def ids (pool : TxMemPool) : Finset TxIter :=
  (pool.mapTx.entries.map entryId).toFinset

/-- The spends between entries, of their iterators. -/
def IterSpends (entries : List CTxMemPoolEntry) (c p : TxIter) : Prop :=
  ∃ ec ∈ entries, ∃ ep ∈ entries, ec.entryId = c ∧ ep.entryId = p ∧ ec.Spends ep

/-- `mapNextTx` has the inputs of the entries, each with its position and its spender, and the
running sums are right. -/
structure Indexed (env : MempoolEnv) (pool : TxMemPool) : Prop where
  nextTx : ∀ o next, pool.mapNextTx.find? o = some next ↔
    ∃ e ∈ pool.mapTx.entries, e.tx = next.tx ∧ e.prevouts[next.input]? = some o
  total : pool.totalTxSize = (pool.mapTx.entries.map nTxSize).sum
  usage : pool.cachedInnerUsage = (pool.mapTx.entries.map nUsageSize).sum +
    linkCount pool.mapLinks • env.setUsage

/-- All that the pool keeps beside its entries agrees with them, and parents are older than their
children. -/
structure Consistent (env : MempoolEnv) (pool : TxMemPool) : Prop extends Indexed env pool where
  links : Represents pool.mapLinks pool.ids (IterSpends pool.mapTx.entries)
  older : ∀ c ∈ pool.mapTx.entries, ∀ p ∈ pool.mapTx.entries, c.Spends p → p.entryId < c.entryId

variable {it : TxIter}

theorem mem_ids :
    it ∈ pool.ids ↔ ∃ e ∈ pool.mapTx.entries, e.entryId = it := by
  rw [ids, mem_toFinset, mem_map]

variable {e : CTxMemPoolEntry}

theorem entryId_mem_ids (he : e ∈ pool.mapTx.entries) :
    e.entryId ∈ pool.ids := mem_ids.mpr ⟨e, he, rfl⟩

variable {c p : CTxMemPoolEntry}

theorem iterSpends_iff (hc : c ∈ pool.mapTx.entries) (hp : p ∈ pool.mapTx.entries) :
    IterSpends pool.mapTx.entries c.entryId p.entryId ↔ c.Spends p := by
  constructor
  · rintro ⟨ec, hec, ep, hep, hcid, hpid, hspends⟩
    rwa [eq_of_entryId hec hc hcid,
      eq_of_entryId hep hp hpid] at hspends
  · exact fun h => ⟨c, hc, p, hp, rfl, rfl, h⟩

/-- An outpoint is an input of one entry, at one position. -/
theorem Indexed.spender_unique (h : Indexed env pool) {e' : CTxMemPoolEntry}
    (he : e ∈ pool.mapTx.entries) (he' : e' ∈ pool.mapTx.entries) {o : COutPoint}
    (ho : o ∈ e.prevouts) (ho' : o ∈ e'.prevouts) : e = e' := by
  obtain ⟨i, hi⟩ := mem_iff_getElem?.mp ho
  obtain ⟨j, hj⟩ := mem_iff_getElem?.mp ho'
  have hfind := (h.nextTx o ⟨i, e.tx⟩).mpr ⟨e, he, rfl, hi⟩
  have hfind' := (h.nextTx o ⟨j, e'.tx⟩).mpr ⟨e', he', rfl, hj⟩
  have htx : e.tx = e'.tx := congrArg NextTx.tx (Option.some.inj (hfind.symm.trans hfind'))
  exact eq_of_txid he he' (congrArg (fun ref => ref.tx.getId) htx)

omit [Crypto] in
theorem mul_ofNat_eq_zsmul (a : UInt64) (n : ℕ) : a * UInt64.ofNat n = (n : ℤ) • a := by
  rw [natCast_zsmul]
  refine UInt64.toBitVec_injective ?_
  rw [UInt64.toBitVec_mul, UInt64.toBitVec_nsmul, nsmul_eq_mul, BitVec.natCast_eq_ofNat, mul_comm]
  rfl

theorem setsUsage_eq (links : Links TxIter) :
    setsUsage env links = links.count • env.setUsage := by
  rw [setsUsage, mul_ofNat_eq_zsmul, mul_ofNat_eq_zsmul, ← add_zsmul, Links.count]

/-! ## Changes of links only -/

/-- Only the links change, and their number in the running sum. -/
structure LinksOnly (env : MempoolEnv) (pool pool' : TxMemPool) : Prop where
  mapTx : pool'.mapTx = pool.mapTx
  mapNextTx : pool'.mapNextTx = pool.mapNextTx
  mapDeltas : pool'.mapDeltas = pool.mapDeltas
  totalTxSize : pool'.totalTxSize = pool.totalTxSize
  nextEntryId : pool'.nextEntryId = pool.nextEntryId
  usage : pool'.cachedInnerUsage - linkCount pool'.mapLinks • env.setUsage =
    pool.cachedInnerUsage - linkCount pool.mapLinks • env.setUsage

theorem LinksOnly.refl (pool : TxMemPool) : LinksOnly env pool pool := ⟨rfl, rfl, rfl, rfl, rfl, rfl⟩

theorem LinksOnly.trans (h : LinksOnly env pool pool') (h' : LinksOnly env pool' pool'') :
    LinksOnly env pool pool'' :=
  ⟨h'.mapTx.trans h.mapTx, h'.mapNextTx.trans h.mapNextTx, h'.mapDeltas.trans h.mapDeltas,
    h'.totalTxSize.trans h.totalTxSize, h'.nextEntryId.trans h.nextEntryId,
    h'.usage.trans h.usage⟩

theorem LinksOnly.indexed (h : LinksOnly env pool pool') (hindexed : Indexed env pool) :
    Indexed env pool' where
  nextTx := by
    rw [h.mapNextTx, h.mapTx]
    exact hindexed.nextTx
  total := by rw [h.totalTxSize, h.mapTx, hindexed.total]
  usage := by
    have husage := h.usage
    rw [sub_eq_iff_eq_add, hindexed.usage, add_sub_cancel_right] at husage
    rw [husage, h.mapTx]

theorem updateLink_spec (env : MempoolEnv) (pool : TxMemPool) (side : Side) (entry it : TxIter)
    (add : Bool) :
    LinksOnly env pool (pool.updateLink env side entry it add) ∧
      (pool.updateLink env side entry it add).mapLinks =
        setLink pool.mapLinks side entry it add := by
  have hcount := linkCount_setLink pool.mapLinks side entry it add
  unfold updateLink
  dsimp only
  split_ifs with hadd herase
  · obtain ⟨rfl, hnew⟩ := hadd
    refine ⟨⟨rfl, rfl, rfl, rfl, rfl, ?_⟩, rfl⟩
    have hcard : linkCount (setLink pool.mapLinks side entry it true) =
        linkCount pool.mapLinks + 1 := by
      rw [hcount, putElement, if_pos rfl, Finset.card_insert_of_notMem hnew]
      push_cast
      ring
    change pool.cachedInnerUsage + env.setUsage -
      linkCount (setLink pool.mapLinks side entry it true) • env.setUsage = _
    rw [hcard, add_zsmul, one_zsmul]
    abel
  · obtain ⟨hadd', hold⟩ := herase
    rw [Bool.not_eq_true] at hadd'
    subst hadd'
    refine ⟨⟨rfl, rfl, rfl, rfl, rfl, ?_⟩, rfl⟩
    have hcard : linkCount (setLink pool.mapLinks side entry it false) =
        linkCount pool.mapLinks - 1 := by
      rw [hcount, putElement, if_neg (by decide), ← Finset.card_erase_add_one hold]
      push_cast
      ring
    change pool.cachedInnerUsage - env.setUsage -
      linkCount (setLink pool.mapLinks side entry it false) • env.setUsage = _
    rw [hcard, sub_zsmul, one_zsmul]
    abel
  · have hsame : putElement ((linksAt pool.mapLinks entry).get side) it add =
        (linksAt pool.mapLinks entry).get side := by
      cases add with
      | true => simpa [putElement] using hadd
      | false => simpa [putElement] using herase
    have hlinks : pool.mapLinks.insert entry (linksAt pool.mapLinks entry) =
        setLink pool.mapLinks side entry it add := by rw [setLink, hsame, Links.set_get]
    refine ⟨⟨rfl, rfl, rfl, rfl, rfl, ?_⟩, hlinks⟩
    change pool.cachedInnerUsage -
      linkCount (pool.mapLinks.insert entry (linksAt pool.mapLinks entry)) • env.setUsage = _
    rw [hlinks, hcount, hsame, sub_add_cancel]

/-- A loop that links the entry `f a` to the entry `g a` for every item. -/
theorem foldl_updateLink_spec (env : MempoolEnv) (pool : TxMemPool) (side : Side) (f g : TxIter → TxIter)
    (items : List TxIter) (add : Bool) :
    LinksOnly env pool (items.foldl (fun pool a => pool.updateLink env side (f a) (g a) add) pool) ∧
      (items.foldl (fun pool a => pool.updateLink env side (f a) (g a) add) pool).mapLinks =
        items.foldl (fun m a => setLink m side (f a) (g a) add) pool.mapLinks := by
  induction items generalizing pool with
  | nil => exact ⟨.refl pool, rfl⟩
  | cons a items ih =>
    obtain ⟨hstep, hlinks⟩ := updateLink_spec env pool side (f a) (g a) add
    obtain ⟨hrest, hdone⟩ := ih (pool.updateLink env side (f a) (g a) add)
    rw [hlinks] at hdone
    exact ⟨hstep.trans hrest, hdone⟩

theorem getMemPoolLinks_of_mem (h : it ∈ pool.mapLinks) (side : Side) :
    pool.getMemPoolLinks side it = .ok ((linksAt pool.mapLinks it).get side) := by
  rw [getMemPoolLinks, lookup_of_mem h]

theorem updateParentsOf_spec (h : it ∈ pool.mapLinks) (env : MempoolEnv) (add : Bool) :
    ∃ pool', pool.updateParentsOf env add it = .ok pool' ∧ LinksOnly env pool pool' ∧
      pool'.mapLinks = setLinks pool.mapLinks .children
        ((linksAt pool.mapLinks it).parents.sort (· ≤ ·)) it add := by
  refine ⟨_, ?_, foldl_updateLink_spec env pool .children id (fun _ => it) _ add⟩
  rw [updateParentsOf, getMemPoolParents, getMemPoolLinks_of_mem h, ok_bind]
  rfl

theorem updateChildrenForRemoval_spec (h : it ∈ pool.mapLinks) (env : MempoolEnv) :
    ∃ pool', pool.updateChildrenForRemoval env it = .ok pool' ∧ LinksOnly env pool pool' ∧
      pool'.mapLinks = cut pool.mapLinks .parents it := by
  refine ⟨_, ?_, foldl_updateLink_spec env pool .parents id (fun _ => it) _ false⟩
  rw [updateChildrenForRemoval, getMemPoolChildren, getMemPoolLinks_of_mem h, ok_bind]
  rfl

/-- A loop over entries, each of which is cut off on one side. -/
theorem foldlM_cut {step : TxMemPool → TxIter → Except Failure TxMemPool} {side : Side}
    (hstep : ∀ pool it, it ∈ pool.mapLinks → ∃ pool', step pool it = .ok pool' ∧
      LinksOnly env pool pool' ∧ pool'.mapLinks = cut pool.mapLinks side it)
    {stage : List TxIter} (hmem : ∀ it ∈ stage, it ∈ pool.mapLinks) :
    ∃ pool', stage.foldlM step pool = .ok pool' ∧ LinksOnly env pool pool' ∧
      pool'.mapLinks = cutList pool.mapLinks side stage := by
  induction stage generalizing pool with
  | nil => exact ⟨pool, rfl, .refl pool, rfl⟩
  | cons it stage ih =>
    rw [forall_mem_cons] at hmem
    obtain ⟨pool₁, hok, honly, hlinks⟩ := hstep pool it hmem.1
    have hmem₁ : ∀ a ∈ stage, a ∈ pool₁.mapLinks := fun a ha => by
      rw [hlinks, cut, mem_setLinks]
      exact Or.inr (hmem.2 a ha)
    obtain ⟨pool₂, hok₂, honly₂, hlinks₂⟩ := ih hmem₁
    rw [hlinks] at hlinks₂
    exact ⟨pool₂, by rw [foldlM_cons, hok, ok_bind, hok₂], honly.trans honly₂, hlinks₂⟩

theorem updateForRemoveFromMempool_spec {stage : List TxIter}
    (hmem : ∀ it ∈ stage, it ∈ pool.mapLinks) (env : MempoolEnv) :
    ∃ pool', pool.updateForRemoveFromMempool env stage = .ok pool' ∧ LinksOnly env pool pool' ∧
      pool'.mapLinks = cutList (cutList pool.mapLinks .children stage) .parents stage := by
  obtain ⟨pool₁, hok₁, honly₁, hlinks₁⟩ := @foldlM_cut _ env pool _ .children
    (fun pool it h => updateParentsOf_spec h env false) stage hmem
  have hmem₁ : ∀ it ∈ stage, it ∈ pool₁.mapLinks := fun it hit => by
    rw [hlinks₁]
    exact mem_cutList_of_mem (hmem it hit)
  obtain ⟨pool₂, hok₂, honly₂, hlinks₂⟩ := foldlM_cut
    (fun pool it h => updateChildrenForRemoval_spec h env) hmem₁
  rw [hlinks₁] at hlinks₂
  exact ⟨pool₂, by rw [updateForRemoveFromMempool, hok₁, ok_bind, hok₂], honly₁.trans honly₂,
    hlinks₂⟩

/-! ## Removing staged entries -/

theorem removeUnchecked_spec (h : Indexed env pool)
    (he : e ∈ pool.mapTx.entries) (hlinks : e.entryId ∈ pool.mapLinks) :
    ∃ pool', pool.removeUnchecked env e.entryId = .ok pool' ∧ Indexed env pool' ∧
      pool'.mapTx = pool.mapTx.erase e.entryId ∧
      pool'.mapLinks = pool.mapLinks.erase e.entryId ∧ pool'.mapDeltas = pool.mapDeltas ∧
      pool'.nextEntryId = pool.nextEntryId := by
  have hperm := perm_erase he
  have hok : pool.removeUnchecked env e.entryId = .ok (pool.withoutEntry env e.entryId e) := by
    rw [removeUnchecked, deref_eq_ok he, ok_bind]
    rfl
  refine ⟨_, hok, ⟨fun o next => ?_, ?_, ?_⟩, rfl, rfl, rfl, rfl⟩
  · rw [withoutEntry, OrderedStore.find?_foldl_erase]
    split_ifs with ho
    · refine ⟨nofun, ?_⟩
      rintro ⟨e', he', -, hinput⟩
      obtain ⟨he', hne⟩ := mem_filter.mp he'
      have heq := h.spender_unique he he' ho (mem_of_getElem? hinput)
      simp [heq] at hne
    · rw [h.nextTx]
      constructor
      · rintro ⟨e', he', htx, hinput⟩
        refine ⟨e', mem_filter.mpr ⟨he', ?_⟩, htx, hinput⟩
        simp only [ne_eq, decide_eq_true_eq]
        intro hid
        rw [eq_of_entryId he' he hid] at hinput
        exact ho (mem_of_getElem? hinput)
      · rintro ⟨e', he', htx, hinput⟩
        exact ⟨e', (mem_filter.mp he').1, htx, hinput⟩
  · have hsum := (hperm.map nTxSize).sum_eq
    rw [map_cons, sum_cons] at hsum
    change pool.totalTxSize - e.nTxSize = _
    rw [h.total, hsum, add_sub_cancel_left]
    rfl
  · have hsum := (hperm.map nUsageSize).sum_eq
    rw [map_cons, sum_cons] at hsum
    change pool.cachedInnerUsage - e.nUsageSize - setsUsage env (linksAt pool.mapLinks e.entryId) =
      ((pool.mapTx.erase e.entryId).entries.map nUsageSize).sum +
        linkCount (pool.mapLinks.erase e.entryId) • env.setUsage
    rw [h.usage, hsum, setsUsage_eq, linkCount_erase hlinks, sub_zsmul]
    abel

theorem foldlM_removeUnchecked_spec (h : Indexed env pool) {stage : List TxIter}
    (hnodup : stage.Nodup) (hstage : ∀ it ∈ stage, it ∈ pool.ids)
    (hlinks : ∀ it ∈ stage, it ∈ pool.mapLinks) :
    ∃ pool', stage.foldlM (removeUnchecked env) pool = .ok pool' ∧ Indexed env pool' ∧
      pool'.mapTx.entries = pool.mapTx.entries.filter (·.entryId ∉ stage) ∧
      pool'.mapLinks = eraseAll pool.mapLinks stage ∧ pool'.mapDeltas = pool.mapDeltas ∧
      pool'.nextEntryId = pool.nextEntryId := by
  induction stage generalizing pool with
  | nil => exact ⟨pool, rfl, h, by simp, rfl, rfl, rfl⟩
  | cons it stage ih =>
    rw [nodup_cons] at hnodup
    rw [forall_mem_cons] at hstage hlinks
    obtain ⟨e, he, rfl⟩ := mem_ids.mp hstage.1
    obtain ⟨pool₁, hok, hindexed, hentries, hmap, hdeltas, hnext⟩ :=
      removeUnchecked_spec h he hlinks.1
    have hne : ∀ it ∈ stage, it ≠ e.entryId := fun it hit heq => hnodup.1 (heq ▸ hit)
    have hstage₁ : ∀ it ∈ stage, it ∈ pool₁.ids := by
      intro it hit
      obtain ⟨e', he', rfl⟩ := mem_ids.mp (hstage.2 it hit)
      refine mem_ids.mpr ⟨e', ?_, rfl⟩
      rw [hentries]
      exact mem_filter.mpr ⟨he', by simpa using hne _ hit⟩
    have hlinks₁ : ∀ it ∈ stage, it ∈ pool₁.mapLinks := fun it hit => by
      rw [hmap]
      exact Finmap.mem_erase.mpr ⟨hne it hit, hlinks.2 it hit⟩
    obtain ⟨pool₂, hok₂, hindexed₂, hentries₂, hmap₂, hdeltas₂, hnext₂⟩ :=
      ih hindexed hnodup.2 hstage₁ hlinks₁
    refine ⟨pool₂, by rw [foldlM_cons, hok, ok_bind, hok₂], hindexed₂, ?_, ?_,
      hdeltas₂.trans hdeltas, hnext₂.trans hnext⟩
    · rw [hentries₂, hentries, erase, filter_filter]
      refine filter_congr fun e' _ => ?_
      simp [Bool.and_comm]
    · rw [hmap₂, hmap, eraseAll]

variable {entries : List CTxMemPoolEntry}

/-- The spends between entries that stay. -/
theorem iterSpends_filter {entries' : List CTxMemPoolEntry} (keep : TxIter → Prop)
    [DecidablePred keep] (h : entries' = entries.filter fun e => keep e.entryId)
    {c p : TxIter} (hc : keep c) (hp : keep p) :
    IterSpends entries c p ↔ IterSpends entries' c p := by
  subst h
  constructor
  · rintro ⟨ec, hec, ep, hep, rfl, rfl, hspends⟩
    exact ⟨ec, mem_filter.mpr ⟨hec, by simpa using hc⟩, ep,
      mem_filter.mpr ⟨hep, by simpa using hp⟩, rfl, rfl, hspends⟩
  · rintro ⟨ec, hec, ep, hep, rfl, rfl, hspends⟩
    exact ⟨ec, (mem_filter.mp hec).1, ep, (mem_filter.mp hep).1, rfl, rfl, hspends⟩

variable {stage : Finset TxIter}

/-- `RemoveStaged` of any set of entries leaves a consistent pool with the other entries. -/
theorem removeStaged_spec (h : Consistent env pool) (hstage : stage ⊆ pool.ids) :
    ∃ pool', pool.removeStaged env stage = .ok pool' ∧ Consistent env pool' ∧
      pool'.mapTx.entries = pool.mapTx.entries.filter (·.entryId ∉ stage) ∧
      pool'.mapDeltas = pool.mapDeltas ∧ pool'.nextEntryId = pool.nextEntryId := by
  have hids : ∀ it ∈ stage.sort (· ≤ ·), it ∈ pool.ids := fun it hit =>
    hstage ((Finset.mem_sort _).mp hit)
  have hmem : ∀ it ∈ stage.sort (· ≤ ·), it ∈ pool.mapLinks := fun it hit =>
    (h.links.keys it).mpr (hids it hit)
  obtain ⟨pool₁, hok₁, honly, hlinks₁⟩ := updateForRemoveFromMempool_spec hmem env
  have hids₁ : pool₁.ids = pool.ids := by rw [ids, honly.mapTx, ids]
  have hmem₁ : ∀ it ∈ stage.sort (· ≤ ·), it ∈ pool₁.mapLinks := fun it hit => by
    rw [hlinks₁]
    exact mem_cutList_of_mem (mem_cutList_of_mem (hmem it hit))
  obtain ⟨pool₂, hok₂, hindexed₂, hentries₂, hlinks₂, hdeltas₂, hnext₂⟩ :=
    foldlM_removeUnchecked_spec (honly.indexed h.toIndexed) (Finset.sort_nodup _ _)
      (by rwa [hids₁]) hmem₁
  rw [honly.mapTx] at hentries₂
  have hentries : pool₂.mapTx.entries = pool.mapTx.entries.filter (·.entryId ∉ stage) := by
    rw [hentries₂]
    exact filter_congr fun e _ => by simp
  have hids₂ : pool₂.ids = pool.ids.filter (· ∉ stage.sort (· ≤ ·)) := by
    ext it
    rw [mem_ids, hentries, Finset.mem_filter, mem_ids, Finset.mem_sort]
    constructor
    · rintro ⟨e, he, rfl⟩
      obtain ⟨he, hout⟩ := mem_filter.mp he
      exact ⟨⟨e, he, rfl⟩, by simpa using hout⟩
    · rintro ⟨⟨e, he, rfl⟩, hout⟩
      exact ⟨e, mem_filter.mpr ⟨he, by simpa using hout⟩, rfl⟩
  refine ⟨pool₂, by rw [removeStaged, hok₁, ok_bind, hok₂], ⟨hindexed₂, ?_, ?_⟩, hentries,
    hdeltas₂.trans honly.mapDeltas, hnext₂.trans honly.nextEntryId⟩
  · rw [hlinks₂, hlinks₁, hids₂]
    refine (h.links.cutAll hids).congr fun c hc p hp => ?_
    have hout : ∀ it ∈ pool.ids.filter (· ∉ stage.sort (· ≤ ·)), it ∉ stage := fun it hit => by
      simpa using (Finset.mem_filter.mp hit).2
    exact iterSpends_filter (· ∉ stage) hentries (hout c hc) (hout p hp)
  · intro c hc p hp
    rw [hentries] at hc hp
    exact h.older c (mem_filter.mp hc).1 p (mem_filter.mp hp).1

/-! ## Sets with all descendants -/

/-- The children of an entry. -/
def childrenOf (pool : TxMemPool) (it : TxIter) : Finset TxIter :=
  (linksAt pool.mapLinks it).children

/-- Entries are removed, and the parents of an entry that stays stay too. -/
structure Prunes (pool pool' : TxMemPool) : Prop where
  sublist : pool'.mapTx.entries.Sublist pool.mapTx.entries
  parents : ∀ c ∈ pool'.mapTx.entries, ∀ p ∈ pool.mapTx.entries, c.Spends p →
    p ∈ pool'.mapTx.entries
  nextEntryId : pool'.nextEntryId = pool.nextEntryId

theorem Prunes.refl (pool : TxMemPool) : Prunes pool pool := ⟨.refl _, fun _ _ _ hp _ => hp, rfl⟩

theorem Prunes.trans (h : Prunes pool pool') (h' : Prunes pool' pool'') : Prunes pool pool'' where
  sublist := h'.sublist.trans h.sublist
  parents c hc p hp hspends :=
    h'.parents c hc p (h.parents c (h'.sublist.subset hc) p hp hspends) hspends
  nextEntryId := h'.nextEntryId.trans h.nextEntryId

section

variable (h : Consistent env pool)

include h

theorem Consistent.mem_childrenOf_iff (hp : p ∈ pool.mapTx.entries) :
    it ∈ pool.childrenOf p.entryId ↔ ∃ c ∈ pool.mapTx.entries, c.Spends p ∧ c.entryId = it := by
  rw [childrenOf, h.links.children _ (entryId_mem_ids hp), mem_ids]
  constructor
  · rintro ⟨⟨c, hc, rfl⟩, hspends⟩
    exact ⟨c, hc, (iterSpends_iff hc hp).mp hspends, rfl⟩
  · rintro ⟨c, hc, hspends, rfl⟩
    exact ⟨⟨c, hc, rfl⟩, (iterSpends_iff hc hp).mpr hspends⟩

theorem Consistent.mem_childrenOf (hc : c ∈ pool.mapTx.entries) (hp : p ∈ pool.mapTx.entries)
    (hspends : c.Spends p) :
    c.entryId ∈ pool.childrenOf p.entryId :=
  (h.mem_childrenOf_iff hp).mpr ⟨c, hc, hspends, rfl⟩

theorem Consistent.closed_ids : ClosedUnder pool.childrenOf pool.ids :=
  fun a ha b hb => ((h.links.children a ha b).mp hb).1

/-- Removing a set with all descendants of its members. -/
theorem removeStaged_closed (hstage : stage ⊆ pool.ids)
    (hclosed : ClosedUnder pool.childrenOf stage) :
    ∃ pool', pool.removeStaged env stage = .ok pool' ∧ Consistent env pool' ∧ Prunes pool pool' ∧
      (∀ e ∈ pool'.mapTx.entries, e.entryId ∉ stage) ∧ pool'.mapDeltas = pool.mapDeltas := by
  obtain ⟨pool', hok, hcons, hentries, hdeltas, hnext⟩ := removeStaged_spec h hstage
  have hkept : ∀ e ∈ pool'.mapTx.entries, e ∈ pool.mapTx.entries ∧ e.entryId ∉ stage := by
    intro e he
    rw [hentries] at he
    exact ⟨(mem_filter.mp he).1, by simpa using (mem_filter.mp he).2⟩
  refine ⟨pool', hok, hcons, ⟨?_, fun c hc p hp hspends => ?_, hnext⟩, fun e he => (hkept e he).2,
    hdeltas⟩
  · rw [hentries]
    exact filter_sublist
  · obtain ⟨hc, hout⟩ := hkept c hc
    have hp' : p.entryId ∉ stage := fun hin =>
      hout (hclosed _ hin (h.mem_childrenOf hc hp hspends))
    rw [hentries]
    exact mem_filter.mpr ⟨hp, by simpa using hp'⟩

end

variable {seen : Finset TxIter}

theorem calculateDescendants_spec (h : Consistent env pool) (hit : it ∈ pool.ids) (hseen : seen ⊆ pool.ids) (hclosed : ClosedUnder pool.childrenOf seen) :
    ∃ found, pool.calculateDescendants it seen = .ok found ∧ found ⊆ pool.ids ∧
      ClosedUnder pool.childrenOf found ∧ it ∈ found ∧ seen ⊆ found ∧
      ∀ b ∈ found, b ∈ seen ∨ Reaches pool.childrenOf it b := by
  have hnext : ∀ a ∈ pool.ids, pool.getMemPoolChildren a = .ok (pool.childrenOf a) :=
    fun a ha => getMemPoolLinks_of_mem ((h.links.keys a).mpr ha) .children
  have hkeys : pool.mapLinks.keys = pool.ids := by
    ext a
    rw [Finmap.mem_keys, h.links.keys]
  have hfuel : (pool.ids \ seen).card ≤ pool.mapLinks.keys.card := by
    rw [hkeys]
    exact Finset.card_le_card Finset.sdiff_subset
  by_cases hin : it ∈ seen
  · obtain ⟨found, hok, hsub, hmem⟩ := explore_eq_ok hnext h.closed_ids hseen
      (Finset.empty_subset _) (Finset.disjoint_empty_left _)
      (fun a ha => (hclosed a ha).trans Finset.subset_union_left) hfuel
    have hfound : ∀ b, b ∈ found ↔ b ∈ seen := fun b => by simpa using hmem b
    refine ⟨found, by rw [calculateDescendants, if_pos hin, hok], hsub, ?_, (hfound it).mpr hin,
      fun b hb => (hfound b).mpr hb, fun b hb => Or.inl ((hfound b).mp hb)⟩
    exact fun a ha b hb => (hfound b).mpr (hclosed a ((hfound a).mp ha) hb)
  · have hfront : ∀ a ∈ seen, pool.childrenOf a ⊆ seen ∪ {it} := fun a ha =>
      (hclosed a ha).trans Finset.subset_union_left
    obtain ⟨found, hok, hsub, hmem⟩ := explore_eq_ok hnext h.closed_ids hseen
      (Finset.singleton_subset_iff.mpr hit) (Finset.disjoint_singleton_left.mpr hin) hfront hfuel
    refine ⟨found, by rw [calculateDescendants, if_neg hin, hok], hsub,
      closedUnder_of_frontier hfront hmem,
      (hmem it).mpr (Or.inr ⟨it, Finset.mem_singleton_self it, .refl⟩),
      fun b hb => (hmem b).mpr (Or.inl hb), fun b hb => ?_⟩
    exact ((hmem b).mp hb).imp id fun ⟨a, ha, hab⟩ => Finset.mem_singleton.mp ha ▸ hab

/-- The descendants of several entries. -/
theorem foldlM_calculateDescendants_spec (h : Consistent env pool) (its : List TxIter)
    (hits : ∀ it ∈ its, it ∈ pool.ids) (hseen : seen ⊆ pool.ids)
    (hclosed : ClosedUnder pool.childrenOf seen) :
    ∃ found, its.foldlM (fun seen it => pool.calculateDescendants it seen) seen = .ok found ∧
      found ⊆ pool.ids ∧ ClosedUnder pool.childrenOf found ∧ (∀ it ∈ its, it ∈ found) ∧
      seen ⊆ found ∧ ∀ b ∈ found, b ∈ seen ∨ ∃ it ∈ its, Reaches pool.childrenOf it b := by
  induction its generalizing seen with
  | nil => exact ⟨seen, rfl, hseen, hclosed, by simp, subset_rfl, fun b hb => Or.inl hb⟩
  | cons it its ih =>
    rw [forall_mem_cons] at hits
    obtain ⟨found₁, hok₁, hsub₁, hclosed₁, hit₁, hseen₁, hreach₁⟩ :=
      calculateDescendants_spec h hits.1 hseen hclosed
    obtain ⟨found₂, hok₂, hsub₂, hclosed₂, hits₂, hseen₂, hreach₂⟩ := ih hits.2 hsub₁ hclosed₁
    refine ⟨found₂, by rw [foldlM_cons, hok₁, ok_bind, hok₂], hsub₂, hclosed₂,
      forall_mem_cons.mpr ⟨hseen₂ hit₁, hits₂⟩, hseen₁.trans hseen₂, fun b hb => ?_⟩
    rcases hreach₂ b hb with hb | ⟨a, ha, hab⟩
    · exact (hreach₁ b hb).imp id fun hab => ⟨it, mem_cons_self .., hab⟩
    · exact Or.inr ⟨a, mem_cons_of_mem _ ha, hab⟩

/-! ## Removing a transaction with its descendants -/

variable {a b : COutPoint}

omit [Crypto] in
theorem outPoint_lt_iff :
    a < b ↔ a.txid < b.txid ∨ a.txid = b.txid ∧ a.n.toNat < b.n.toNat :=
  Prod.Lex.toLex_lt_toLex

omit [Crypto] in
theorem outPoint_le_iff :
    a ≤ b ↔ a.txid < b.txid ∨ a.txid = b.txid ∧ a.n.toNat ≤ b.n.toNat :=
  Prod.Lex.toLex_le_toLex

/-- The walk from the first output of a transaction sees all its spent outputs. -/
theorem mem_spendersOf {id : TxId} {next : NextTx} :
    next ∈ pool.spendersOf id ↔ ∃ o, o.txid = id ∧ pool.mapNextTx.find? o = some next := by
  have hfilter : (pool.mapNextTx.seek ⟨id, 0⟩).takeWhile (fun e => e.1.txid = id) =
      pool.mapNextTx.entries.filter fun e => e.1.txid = id := by
    refine OrderedStore.takeWhile_seek_eq_filter _ _ (fun e _ he => ?_)
      fun a _ b _ hka hab hb => ?_
    · rw [decide_eq_true_eq] at he
      exact outPoint_le_iff.mpr (Or.inr ⟨he.symm, Nat.zero_le _⟩)
    · rw [decide_eq_true_eq] at hb ⊢
      rw [outPoint_le_iff] at hka
      rw [outPoint_lt_iff, hb] at hab
      rcases hka with hka | ⟨hka, -⟩
      · rcases hab with hab | ⟨hab, -⟩
        · exact absurd (hka.trans hab) (lt_irrefl _)
        · exact hab
      · exact hka.symm
  rw [spendersOf, hfilter, mem_map]
  constructor
  · rintro ⟨⟨o, next⟩, hmem, rfl⟩
    obtain ⟨hmem, hid⟩ := mem_filter.mp hmem
    exact ⟨o, by simpa using hid, OrderedStore.find?_eq_some_iff.mpr hmem⟩
  · rintro ⟨o, hid, hfind⟩
    exact ⟨(o, next), mem_filter.mpr ⟨OrderedStore.find?_eq_some_iff.mp hfind, by simpa⟩, rfl⟩

/-- Spenders of entries are found. -/
theorem foldlM_insertSpender_spec {nexts : List NextTx} (what : String)
    (hnexts : ∀ next ∈ nexts, ∃ e ∈ pool.mapTx.entries, e.tx = next.tx) {its : Finset TxIter} :
    ∃ its', nexts.foldlM (pool.insertSpender what) its = .ok its' ∧
      ∀ it, it ∈ its' ↔ it ∈ its ∨
        ∃ next ∈ nexts, ∃ e ∈ pool.mapTx.entries, e.tx = next.tx ∧ e.entryId = it := by
  induction nexts generalizing its with
  | nil => exact ⟨its, rfl, by simp⟩
  | cons next nexts ih =>
    rw [forall_mem_cons] at hnexts
    obtain ⟨e, he, htx⟩ := hnexts.1
    have hfind : pool.mapTx.find next.tx.tx.getId = some e :=
      find_eq_some_iff.mpr ⟨he, by rw [txid, htx]⟩
    have hstep : pool.insertSpender what its next = .ok (insert e.entryId its) := by
      rw [insertSpender, hfind]
    obtain ⟨its', hok, hmem⟩ := @ih hnexts.2 (insert e.entryId its)
    refine ⟨its', by rw [foldlM_cons, hstep, ok_bind, hok], fun it => ?_⟩
    rw [hmem, Finset.mem_insert]
    constructor
    · rintro ((rfl | hit) | ⟨next', hnext', hrest⟩)
      · exact Or.inr ⟨next, mem_cons_self .., e, he, htx, rfl⟩
      · exact Or.inl hit
      · exact Or.inr ⟨next', mem_cons_of_mem _ hnext', hrest⟩
    · rintro (hit | ⟨next', hnext', e', he', htx', rfl⟩)
      · exact Or.inl (Or.inr hit)
      · rcases mem_cons.mp hnext' with rfl | hnext'
        · have hid : e'.txid = e.txid := by rw [txid, htx', ← htx]; rfl
          rw [eq_of_txid he' he hid]
          exact Or.inl (Or.inl rfl)
        · exact Or.inr ⟨next', hnext', e', he', htx', rfl⟩

/-- The spenders of the outputs of a transaction are the entries with an input that names it. -/
theorem Indexed.spendersOf_spec (h : Indexed env pool) (id : TxId) (what : String) :
    ∃ its, (pool.spendersOf id).foldlM (pool.insertSpender what) ∅ = .ok its ∧
      ∀ it, it ∈ its ↔ ∃ e ∈ pool.mapTx.entries, e.entryId = it ∧
        id ∈ e.prevouts.map COutPoint.txid := by
  have hnexts : ∀ next ∈ pool.spendersOf id, ∃ e ∈ pool.mapTx.entries, e.tx = next.tx := by
    intro next hnext
    obtain ⟨o, -, hfind⟩ := mem_spendersOf.mp hnext
    obtain ⟨e, he, htx, -⟩ := (h.nextTx o next).mp hfind
    exact ⟨e, he, htx⟩
  obtain ⟨its, hok, hmem⟩ := @foldlM_insertSpender_spec _ pool _ what hnexts ∅
  refine ⟨its, hok, fun it => ?_⟩
  rw [hmem]
  constructor
  · rintro (hit | ⟨next, hnext, e, he, htx, rfl⟩)
    · cases hit
    · obtain ⟨o, ho, hfind⟩ := mem_spendersOf.mp hnext
      obtain ⟨e', he', htx', hinput⟩ := (h.nextTx o next).mp hfind
      have hid : e.txid = e'.txid := by rw [txid, htx, ← htx']; rfl
      rw [eq_of_txid he he' hid]
      exact ⟨e', he', rfl, mem_map.mpr ⟨o, mem_of_getElem? hinput, ho⟩⟩
  · rintro ⟨e, he, rfl, hin⟩
    obtain ⟨o, ho, hid⟩ := mem_map.mp hin
    obtain ⟨i, hi⟩ := mem_iff_getElem?.mp ho
    exact Or.inr ⟨⟨i, e.tx⟩, mem_spendersOf.mpr ⟨o, hid, (h.nextTx o _).mpr ⟨e, he, rfl, hi⟩⟩,
      e, he, rfl, rfl⟩

section

variable (h : Consistent env pool)

include h

theorem entriesToRemove_spec (tx : CTransaction) :
    ∃ its, pool.entriesToRemove tx = .ok its ∧ its ⊆ pool.ids ∧
      (∀ e ∈ pool.mapTx.entries, e.txid = tx.getId → e.entryId ∈ its) ∧
      ((∀ e ∈ pool.mapTx.entries, e.txid ≠ tx.getId) → ∀ e ∈ pool.mapTx.entries,
        tx.getId ∈ e.prevouts.map COutPoint.txid → e.entryId ∈ its) := by
  unfold entriesToRemove
  cases hfind : pool.mapTx.find tx.getId with
  | some e =>
    obtain ⟨he, hid⟩ := find_eq_some_iff.mp hfind
    refine ⟨{e.entryId}, rfl, Finset.singleton_subset_iff.mpr (entryId_mem_ids he), ?_, ?_⟩
    · intro e' he' hid'
      rw [eq_of_txid he' he (hid'.trans hid.symm)]
      exact Finset.mem_singleton_self _
    · exact fun hnone => absurd hid (hnone e he)
  | none =>
    obtain ⟨its, hok, hmem⟩ := h.spendersOf_spec tx.getId "nextit != mapTx.end()"
    refine ⟨its, hok, fun it hit => ?_, fun e he hid => ?_, fun _ e he hin => ?_⟩
    · obtain ⟨e, he, rfl, -⟩ := (hmem it).mp hit
      exact entryId_mem_ids he
    · exact absurd hid (find_eq_none_iff.mp hfind e he)
    · exact (hmem _).mpr ⟨e, he, rfl, hin⟩

/-- `removeRecursive` leaves neither the transaction nor a spender of its outputs. -/
theorem removeRecursive_spec (tx : CTransaction) :
    ∃ pool', pool.removeRecursive env tx = .ok pool' ∧ Consistent env pool' ∧ Prunes pool pool' ∧
      (∀ e ∈ pool'.mapTx.entries, e.txid ≠ tx.getId ∧
        tx.getId ∉ e.prevouts.map COutPoint.txid) ∧ pool'.mapDeltas = pool.mapDeltas := by
  obtain ⟨its, hits, hsub, hself, hspenders⟩ := entriesToRemove_spec h tx
  obtain ⟨stage, hstage, hids, hclosed, hin, -, -⟩ :=
    foldlM_calculateDescendants_spec h (its.sort (· ≤ ·))
      (fun it hit => hsub ((Finset.mem_sort _).mp hit)) (Finset.empty_subset _)
      (fun a ha => by cases ha)
  obtain ⟨pool', hok, hcons, hprunes, hout, hdeltas⟩ := removeStaged_closed h hids hclosed
  have hgone : ∀ e ∈ pool'.mapTx.entries, e.entryId ∉ its := fun e he hit =>
    hout e he (hin _ ((Finset.mem_sort _).mpr hit))
  refine ⟨pool', by rw [removeRecursive, hits, ok_bind, hstage, ok_bind, hok], hcons, hprunes,
    fun e he => ⟨fun hid => ?_, fun hspends => ?_⟩, hdeltas⟩
  · exact hgone e he (hself e (hprunes.sublist.subset he) hid)
  · by_cases hpool : ∃ p ∈ pool.mapTx.entries, p.txid = tx.getId
    · obtain ⟨p, hp, hid⟩ := hpool
      have hkept := hprunes.parents e he p hp (by rwa [CTxMemPoolEntry.Spends, hid])
      exact hgone p hkept (hself p hp hid)
    · push Not at hpool
      exact hgone e he (hspenders hpool e (hprunes.sublist.subset he) hspends)

/-! ## Removing the conflicts of a transaction -/

theorem Consistent.clearPrioritisation (id : TxId) :
    Consistent env (pool.clearPrioritisation id) :=
  ⟨⟨h.nextTx, h.total, h.usage⟩, h.links, h.older⟩

/-- After an input of a transaction no other transaction spends it. -/
theorem removeConflict_spec (tx : CTransaction) (o : COutPoint) :
    ∃ pool', removeConflict env tx pool o = .ok pool' ∧ Consistent env pool' ∧
      Prunes pool pool' ∧ ∀ e ∈ pool'.mapTx.entries, o ∈ e.prevouts → e.txid = tx.getId := by
  unfold removeConflict
  cases hfind : pool.mapNextTx.find? o with
  | none =>
    refine ⟨pool, rfl, h, .refl pool, fun e he ho => ?_⟩
    obtain ⟨i, hi⟩ := mem_iff_getElem?.mp ho
    cases hfind.symm.trans ((h.nextTx o ⟨i, e.tx⟩).mpr ⟨e, he, rfl, hi⟩)
  | some next =>
    obtain ⟨spender, hspender, htx, hinput⟩ := (h.nextTx o next).mp hfind
    have hid : spender.txid = next.tx.tx.getId := by rw [txid, htx]
    have honly : ∀ e ∈ pool.mapTx.entries, o ∈ e.prevouts → e = spender := fun e he ho =>
      h.spender_unique he hspender ho (mem_of_getElem? hinput)
    by_cases hsame : next.tx.tx.getId ≠ tx.getId
    · obtain ⟨pool', hok, hcons, hprunes, hgone, -⟩ :=
        removeRecursive_spec (h.clearPrioritisation next.tx.tx.getId) next.tx.tx
      have hprunes : Prunes pool pool' := ⟨hprunes.sublist, hprunes.parents, hprunes.nextEntryId⟩
      refine ⟨pool', by rw [← hok]; exact if_pos hsame, hcons, hprunes, fun e he ho => ?_⟩
      have heq := honly e (hprunes.sublist.subset he) ho
      exact absurd (heq ▸ hid) (hgone e he).1
    · refine ⟨pool, if_neg hsame, h, .refl pool, fun e he ho => ?_⟩
      rw [honly e he ho, hid]
      exact not_ne_iff.mp hsame

/-- `removeConflicts` leaves no other transaction that spends an input of the given one. -/
theorem removeConflicts_spec (tx : CTransaction) :
    ∃ pool', pool.removeConflicts env tx = .ok pool' ∧ Consistent env pool' ∧
      Prunes pool pool' ∧
      ∀ e ∈ pool'.mapTx.entries, ∀ o ∈ tx.prevouts, o ∈ e.prevouts → e.txid = tx.getId := by
  unfold removeConflicts
  generalize tx.prevouts = prevouts
  induction prevouts generalizing pool with
  | nil => exact ⟨pool, rfl, h, .refl pool, by simp⟩
  | cons o prevouts ih =>
    obtain ⟨pool₁, hok₁, hcons₁, hprunes₁, hfree₁⟩ := removeConflict_spec h tx o
    obtain ⟨pool₂, hok₂, hcons₂, hprunes₂, hfree₂⟩ := ih hcons₁
    refine ⟨pool₂, by rw [foldlM_cons, hok₁, ok_bind, hok₂], hcons₂,
      hprunes₁.trans hprunes₂, fun e he => forall_mem_cons.mpr ⟨?_, hfree₂ e he⟩⟩
    exact hfree₁ e (hprunes₂.sublist.subset he)

/-! ## Expiry and the size limit -/

/-- The stage of `Expire` holds the old entries, and every descendant of an entry in it. -/
theorem expireStage_spec (time : ℤ) (fast : Bool) (hentries : ∀ e ∈ entries, e ∈ pool.mapTx.entries)
    (hstage : stage ⊆ pool.ids) (hclosed : ClosedUnder pool.childrenOf stage) :
    ∃ found, pool.expireStage time fast entries stage = .ok found ∧ found ⊆ pool.ids ∧
      ClosedUnder pool.childrenOf found ∧ stage ⊆ found ∧
      (fast = false → ∀ e ∈ entries, e.nTime < time → e.entryId ∈ found) := by
  induction entries generalizing stage with
  | nil => exact ⟨stage, rfl, hstage, hclosed, subset_rfl, by simp⟩
  | cons e entries ih =>
    rw [forall_mem_cons] at hentries
    rw [expireStage]
    by_cases hold : e.nTime < time
    · obtain ⟨stage₁, hok₁, hsub₁, hclosed₁, hin₁, hgrow₁, -⟩ :=
        calculateDescendants_spec h (entryId_mem_ids hentries.1) hstage hclosed
      obtain ⟨found, hok, hsub, hclosed', hgrow, hall⟩ := ih hentries.2 hsub₁ hclosed₁
      refine ⟨found, by rw [if_pos hold, hok₁, ok_bind, hok], hsub, hclosed',
        hgrow₁.trans hgrow, fun hslow => ?_⟩
      exact forall_mem_cons.mpr ⟨fun _ => hgrow hin₁, hall hslow⟩
    · by_cases hfast : fast
      · exact ⟨stage, by rw [if_neg hold, if_pos hfast], hstage, hclosed, subset_rfl,
          fun hslow => absurd hfast (by simp [hslow])⟩
      · obtain ⟨found, hok, hsub, hclosed', hgrow, hall⟩ := ih hentries.2 hstage hclosed
        refine ⟨found, by rw [if_neg hold, if_neg hfast, hok], hsub, hclosed', hgrow,
          fun hslow => ?_⟩
        exact forall_mem_cons.mpr ⟨fun hlt => absurd hlt hold, hall hslow⟩

/-- `Expire` removes the old entries with their descendants. The fast search stops at the first
entry that is not old, in the order of insertion. -/
theorem expire_spec (time : ℤ) (fast : Bool) :
    ∃ res, pool.expire env time fast = .ok res ∧ Consistent env res.1 ∧ Prunes pool res.1 ∧
      (fast = false → ∀ e ∈ res.1.mapTx.entries, time ≤ e.nTime) := by
  obtain ⟨stage, hstage, hids, hclosed, -, hall⟩ :=
    expireStage_spec h time fast (fun e he => he) (Finset.empty_subset _) (fun a ha => by cases ha)
  obtain ⟨pool', hok, hcons, hprunes, hout, -⟩ := removeStaged_closed h hids hclosed
  refine ⟨(pool', stage.card), by rw [expire, hstage, ok_bind, hok]; rfl, hcons, hprunes,
    fun hslow e he => ?_⟩
  by_contra hlt
  exact hout e he (hall hslow e (hprunes.sublist.subset he) (not_le.mp hlt))

end

theorem lastByModifiedFeeRate_eq_none_iff :
    env.lastByModifiedFeeRate entries = none ↔ entries = [] := by
  cases entries with
  | nil => simp [MempoolEnv.lastByModifiedFeeRate]
  | cons e entries =>
    rw [MempoolEnv.lastByModifiedFeeRate]
    cases env.lastByModifiedFeeRate entries with
    | none => simp
    | some last =>
      dsimp only
      split_ifs <;> simp

theorem mem_of_lastByModifiedFeeRate {last : CTxMemPoolEntry}
    (h : env.lastByModifiedFeeRate entries = some last) : last ∈ entries := by
  induction entries generalizing last with
  | nil => cases h
  | cons e entries ih =>
    rw [MempoolEnv.lastByModifiedFeeRate] at h
    cases hrest : env.lastByModifiedFeeRate entries with
    | none =>
      rw [hrest] at h
      cases h
      exact mem_cons_self ..
    | some last' =>
      rw [hrest] at h
      dsimp only at h
      split_ifs at h <;> cases h
      · exact mem_cons_of_mem _ (ih hrest)
      · exact mem_cons_self ..

theorem noSpendsRemaining_spec (hstage : stage ⊆ pool.ids) :
    ∃ removed, pool.noSpendsRemaining stage = .ok removed := by
  have hderef : ∀ it ∈ stage.sort (· ≤ ·), ∃ e, pool.mapTx.deref it = .ok e := by
    intro it hit
    obtain ⟨e, he, rfl⟩ := mem_ids.mp (hstage ((Finset.mem_sort _).mp hit))
    exact ⟨e, deref_eq_ok he⟩
  obtain ⟨entries, hok⟩ := exists_mapM_eq_ok_iff.mpr hderef
  exact ⟨_, by rw [noSpendsRemaining, hok, ok_bind]; rfl⟩

/-- The loop of `TrimToSize` ends below the limit, or with an empty pool. -/
theorem trimLoop_spec (h : Consistent env pool) (sizelimit : UInt64) {fuel : ℕ}
    (hfuel : pool.mapTx.entries.length ≤ fuel) (removed : List COutPoint) :
    ∃ res, trimLoop env sizelimit fuel pool removed = .ok res ∧ Consistent env res.1 ∧
      Prunes pool res.1 ∧
      (res.1.mapTx.entries = [] ∨ res.1.dynamicMemoryUsage env ≤ sizelimit) := by
  induction fuel generalizing pool removed with
  | zero =>
    exact ⟨(pool, removed), rfl, h, .refl pool,
      Or.inl (length_eq_zero_iff.mp (Nat.le_zero.mp hfuel))⟩
  | succ fuel ih =>
    rw [trimLoop]
    cases hlast : env.lastByModifiedFeeRate pool.mapTx.entries with
    | none =>
      exact ⟨(pool, removed), rfl, h, .refl pool,
        Or.inl (lastByModifiedFeeRate_eq_none_iff.mp hlast)⟩
    | some e =>
      dsimp only
      by_cases hover : sizelimit < pool.dynamicMemoryUsage env
      · have he := mem_of_lastByModifiedFeeRate hlast
        obtain ⟨stage, hstage, hids, hclosed, hin, -, -⟩ :=
          calculateDescendants_spec h (entryId_mem_ids he) (Finset.empty_subset _)
            (fun a ha => by cases ha)
        obtain ⟨noSpends, hspends⟩ := noSpendsRemaining_spec hids
        obtain ⟨pool', hok, hcons, hprunes, hout, -⟩ := removeStaged_closed h hids hclosed
        have hlt : pool'.mapTx.entries.length < pool.mapTx.entries.length := by
          refine lt_of_le_of_ne hprunes.sublist.length_le fun heq => ?_
          rw [← hprunes.sublist.eq_of_length heq] at he
          exact hout e he hin
        obtain ⟨res, hres, hcons', hprunes', hend⟩ := ih hcons (by omega) (removed ++ noSpends)
        refine ⟨res, ?_, hcons', hprunes.trans hprunes', hend⟩
        rw [if_pos hover, hstage, ok_bind, hspends, ok_bind, hok, ok_bind, hres]
      · exact ⟨(pool, removed), if_neg hover, h, .refl pool, Or.inr (by simpa using hover)⟩

theorem trimToSize_spec (h : Consistent env pool) (sizelimit : UInt64) :
    ∃ res, pool.trimToSize env sizelimit = .ok res ∧ Consistent env res.1 ∧ Prunes pool res.1 ∧
      (res.1.mapTx.entries = [] ∨ res.1.dynamicMemoryUsage env ≤ sizelimit) :=
  trimLoop_spec h sizelimit le_rfl []

end TxMemPool

end Pool

end RadiantCore
