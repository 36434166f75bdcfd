import RadiantCore.MempoolRemoval

/-!
# Insertion into the memory pool

`addUnchecked` checks nothing about the transaction. It keeps a pool consistent when the transaction
is new, spends what no entry spends and each output once, and is spent by none of the entries nor by
itself (`Addable`) : then its entry is the youngest, has its parents among the entries and no
children (`addUnchecked_spec`).
-/

namespace RadiantCore

open List

section Pool

variable [Crypto] {env : MempoolEnv} {pool : TxMemPool}

/-- An entry younger than all others goes to the end. -/
theorem IndexedTransactionSet.insert_eq_some (s : IndexedTransactionSet) (entry : CTxMemPoolEntry)
    (hyoung : ∀ e ∈ s.entries, e.entryId < entry.entryId)
    (hnew : ∀ e ∈ s.entries, e.txid ≠ entry.txid) :
    ∃ s', s.insert entry = some s' ∧ s'.entries = s.entries ++ [entry] := by
  have hfree : ¬ s.Collides entry := by
    rintro ⟨e, he, hid | hid⟩
    · exact absurd hid (hyoung e he).ne
    · exact hnew e he hid
  refine ⟨_, dif_neg hfree, ?_⟩
  have hbelow : s.entries.filter (·.entryId < entry.entryId) = s.entries :=
    filter_eq_self.mpr fun e he => by simpa using hyoung e he
  have habove : s.entries.filter (entry.entryId < ·.entryId) = [] :=
    filter_eq_nil_iff.mpr fun e he => by simpa using (hyoung e he).le
  change place s.entries entry = _
  rw [place, hbelow, habove]

namespace TxMemPool

/-- What `addUnchecked` takes for granted of its entry. -/
structure Addable (pool : TxMemPool) (entry : CTxMemPoolEntry) : Prop where
  absent : ∀ e ∈ pool.mapTx.entries, e.txid ≠ entry.txid
  distinct : entry.prevouts.Nodup
  unspent : ∀ e ∈ pool.mapTx.entries, ∀ o ∈ entry.prevouts, o ∉ e.prevouts
  childless : ∀ e ∈ pool.mapTx.entries, ¬ e.Spends entry
  loopless : ¬ entry.Spends entry
  /-- The counter of the entries has not wrapped. -/
  youngest : ∀ e ∈ pool.mapTx.entries, e.entryId < pool.nextEntryId

/-- The inputs of a new entry, which are not in `mapNextTx`. -/
theorem foldl_emplaceNextTx_spec {tx : CTransactionRef} {inputs : List (COutPoint × ℕ)}
    {m : OrderedStore COutPoint NextTx} (hnodup : (inputs.map Prod.fst).Nodup)
    (hnew : ∀ input ∈ inputs, m.find? input.1 = none) (o : COutPoint) (next : NextTx) :
    (inputs.foldl (emplaceNextTx tx) m).find? o = some next ↔
      m.find? o = some next ∨ next.tx = tx ∧ (o, next.input) ∈ inputs := by
  induction inputs generalizing m with
  | nil => simp
  | cons input inputs ih =>
    obtain ⟨o', i⟩ := input
    rw [map_cons, nodup_cons] at hnodup
    rw [forall_mem_cons] at hnew
    have hstep : emplaceNextTx tx m (o', i) = m.put o' ⟨i, tx⟩ := by
      rw [emplaceNextTx, hnew.1, if_neg (by simp)]
    have hnew' : ∀ input ∈ inputs, (m.put o' ⟨i, tx⟩).find? input.1 = none := by
      intro input hin
      have hne : o' ≠ input.1 := fun heq => hnodup.1 (mem_map.mpr ⟨input, hin, heq.symm⟩)
      rw [OrderedStore.find?_put, if_neg hne]
      exact hnew.2 input hin
    rw [foldl_cons, hstep, ih hnodup.2 hnew', OrderedStore.find?_put, mem_cons]
    obtain ⟨j, tx'⟩ := next
    by_cases ho : o' = o
    · subst ho
      have hout : (o', j) ∉ inputs := fun hin => hnodup.1 (mem_map.mpr ⟨_, hin, rfl⟩)
      have hnone : m.find? o' = none := hnew.1
      rw [if_pos rfl, hnone]
      simp only [Option.some.injEq, NextTx.mk.injEq, Prod.mk.injEq, hout, reduceCtorEq, true_and,
        false_or, or_false, and_false]
      tauto
    · rw [if_neg ho]
      simp only [Prod.mk.injEq, Ne.symm ho, false_and, false_or]

theorem mem_getIterSet {txids : Finset TxId} {it : TxIter} :
    it ∈ pool.getIterSet txids ↔ ∃ p ∈ pool.mapTx.entries, p.txid ∈ txids ∧ p.entryId = it := by
  simp only [getIterSet, mem_toFinset, mem_filterMap, Finset.mem_sort,
    Option.map_eq_some_iff, IndexedTransactionSet.find_eq_some_iff]
  constructor
  · rintro ⟨id, hid, p, ⟨hp, rfl⟩, rfl⟩
    exact ⟨p, hp, hid, rfl⟩
  · rintro ⟨p, hp, hid, rfl⟩
    exact ⟨p.txid, hid, p, ⟨hp, rfl⟩, rfl⟩

/-- Linking an entry that has an element without links. -/
theorem linkEntry_spec {e : CTxMemPoolEntry} {m : LinkMap TxIter}
    (hlinks : pool.mapLinks = m.insert e.entryId .empty) (env : MempoolEnv) :
    ∃ pool', pool.linkEntry env e = .ok pool' ∧ LinksOnly env pool pool' ∧
      pool'.mapLinks = attach m e.entryId
        ((pool.getIterSet (e.prevouts.map COutPoint.txid).toFinset).sort (· ≤ ·)) := by
  unfold linkEntry
  dsimp only
  generalize (pool.getIterSet (e.prevouts.map COutPoint.txid).toFinset).sort (· ≤ ·) = parents
  generalize hpool : parents.foldl (fun pool pit => pool.updateParent env e.entryId pit true) pool =
    pool₁
  obtain ⟨honly₁, hlinks₁⟩ : LinksOnly env pool pool₁ ∧
      pool₁.mapLinks = addParents pool.mapLinks e.entryId parents :=
    hpool ▸ foldl_updateLink_spec env pool .parents (fun _ => e.entryId) id parents true
  have hin : e.entryId ∈ m.insert e.entryId Links.empty := Finmap.mem_insert.mpr (Or.inl rfl)
  have hmem : e.entryId ∈ pool₁.mapLinks := by
    rw [hlinks₁, hlinks, mem_addParents hin]
    exact hin
  obtain ⟨pool₂, hok, honly₂, hlinks₂⟩ := updateParentsOf_spec hmem env true
  refine ⟨pool₂, hok, honly₁.trans honly₂, ?_⟩
  rw [hlinks₂, hlinks₁, hlinks]
  rfl

/-- The spends between the entries with a new one. -/
theorem iterSpends_snoc {entries : List CTxMemPoolEntry} {e : CTxMemPoolEntry} {c p : TxIter}
    (hc : c ≠ e.entryId) (hp : p ≠ e.entryId) :
    IterSpends entries c p ↔ IterSpends (entries ++ [e]) c p := by
  constructor
  · rintro ⟨ec, hec, ep, hep, hrest⟩
    exact ⟨ec, mem_append_left _ hec, ep, mem_append_left _ hep, hrest⟩
  · rintro ⟨ec, hec, ep, hep, rfl, rfl, hspends⟩
    have hold : ∀ e' ∈ entries ++ [e], e'.entryId ≠ e.entryId → e' ∈ entries := by
      intro e' he' hne
      refine (mem_append.mp he').resolve_right fun hlast => hne ?_
      rw [mem_singleton.mp hlast]
    exact ⟨ec, hold ec hec hc, ep, hold ep hep hp, rfl, rfl, hspends⟩

/-- The links of a pool with a new entry. -/
theorem Consistent.attach_links (h : Consistent env pool) {e : CTxMemPoolEntry}
    {pool' : TxMemPool} (hentries : pool'.mapTx.entries = pool.mapTx.entries ++ [e])
    (hyoung : ∀ e' ∈ pool.mapTx.entries, e'.entryId < e.entryId)
    (hchildless : ∀ e' ∈ pool.mapTx.entries, ¬ e'.Spends e) (hloopless : ¬ e.Spends e) :
    Represents (attach pool.mapLinks e.entryId
        ((pool'.getIterSet (e.prevouts.map COutPoint.txid).toFinset).sort (· ≤ ·)))
      pool'.ids (IterSpends pool'.mapTx.entries) := by
  have hin : e ∈ pool'.mapTx.entries := by simp [hentries]
  have hold : ∀ e' ∈ pool.mapTx.entries, e' ∈ pool'.mapTx.entries := fun e' he' => by
    simp [hentries, he']
  have hne : ∀ it ∈ pool.ids, it ≠ e.entryId := by
    intro it hit
    obtain ⟨e', he', rfl⟩ := mem_ids.mp hit
    exact (hyoung e' he').ne
  have hids : pool'.ids = insert e.entryId pool.ids := by
    ext it
    rw [mem_ids, hentries, Finset.mem_insert, mem_ids]
    simp only [mem_append, mem_singleton, or_and_right, exists_or, exists_eq_left]
    rw [or_comm, eq_comm]
  rw [hids]
  refine (h.links.congr fun c hc p hp => ?_).attach (fun hmem => hne _ hmem rfl) (fun it => ?_)
    (fun hself => ?_) fun it hit hspends => ?_
  · rw [hentries]
    exact iterSpends_snoc (hne c hc) (hne p hp)
  · rw [Finset.mem_sort, mem_getIterSet]
    constructor
    · rintro ⟨p, hp, hid, rfl⟩
      have hspends : e.Spends p := mem_toFinset.mp hid
      rw [hentries] at hp
      rcases mem_append.mp hp with hp | hp
      · exact ⟨entryId_mem_ids hp, (iterSpends_iff hin (hold p hp)).mpr hspends⟩
      · rw [mem_singleton.mp hp] at hspends
        exact absurd hspends hloopless
    · rintro ⟨hit, hspends⟩
      obtain ⟨p, hp, rfl⟩ := mem_ids.mp hit
      exact ⟨p, hold p hp, mem_toFinset.mpr ((iterSpends_iff hin (hold p hp)).mp hspends), rfl⟩
  · exact hloopless ((iterSpends_iff hin hin).mp hself)
  · obtain ⟨p, hp, rfl⟩ := mem_ids.mp hit
    exact hchildless p hp ((iterSpends_iff (hold p hp) hin).mp hspends)

/-- The inputs of a pool with a new entry. -/
theorem Indexed.emplace_inputs (h : Indexed env pool) (e : CTxMemPoolEntry)
    (hdistinct : e.prevouts.Nodup)
    (hunspent : ∀ e' ∈ pool.mapTx.entries, ∀ o ∈ e.prevouts, o ∉ e'.prevouts)
    (o : COutPoint) (next : NextTx) :
    (e.prevouts.zipIdx.foldl (emplaceNextTx e.tx) pool.mapNextTx).find? o = some next ↔
      ∃ e' ∈ pool.mapTx.entries ++ [e], e'.tx = next.tx ∧ e'.prevouts[next.input]? = some o := by
  have hnew : ∀ input ∈ e.prevouts.zipIdx, pool.mapNextTx.find? input.1 = none := by
    intro input hinput
    by_contra hsome
    obtain ⟨next, hnext⟩ := Option.ne_none_iff_exists'.mp hsome
    obtain ⟨e', he', -, hat⟩ := (h.nextTx _ next).mp hnext
    exact hunspent e' he' input.1 (mem_of_getElem? (mem_zipIdx_iff_getElem?.mp hinput))
      (mem_of_getElem? hat)
  rw [foldl_emplaceNextTx_spec (by rwa [zipIdx_map_fst]) hnew, h.nextTx,
    mem_zipIdx_iff_getElem?]
  simp only [mem_append, mem_singleton, or_and_right, exists_or, exists_eq_left]
  rw [eq_comm (a := next.tx)]

/-- `addUnchecked` keeps a pool consistent, and puts its entry last. -/
theorem addUnchecked_spec (h : Consistent env pool) {entry : CTxMemPoolEntry}
    (ha : pool.Addable entry) :
    ∃ pool', pool.addUnchecked env entry = .ok pool' ∧ Consistent env pool' ∧
      pool'.mapTx.entries = pool.mapTx.entries ++ [pool.newEntry entry] ∧
      pool'.mapDeltas = pool.mapDeltas ∧
      pool'.nextEntryId = (pool.nextEntryId + 1) % 2 ^ 64 := by
  set e := pool.newEntry entry with he
  obtain ⟨mapTx, hinsert, hentries⟩ :=
    IndexedTransactionSet.insert_eq_some pool.mapTx e ha.youngest ha.absent
  have hnotin : e.entryId ∉ pool.mapLinks := by
    rw [h.links.keys]
    intro hmem
    obtain ⟨e', he', hid⟩ := mem_ids.mp hmem
    exact absurd hid (ha.youngest e' he').ne
  have hlinks₁ : (pool.insertEntry mapTx e).mapLinks = pool.mapLinks.insert e.entryId .empty :=
    if_neg hnotin
  obtain ⟨pool₂, hok, honly, hlinks⟩ := linkEntry_spec hlinks₁ env
  have hlast : mapTx.entries.getLast? = some e := by rw [hentries, getLast?_concat]
  have hentries₂ : pool₂.mapTx.entries = pool.mapTx.entries ++ [e] := by
    rw [honly.mapTx]
    exact hentries
  refine ⟨{ pool₂ with totalTxSize := pool₂.totalTxSize + e.nTxSize }, ?_, ⟨⟨?_, ?_, ?_⟩, ?_, ?_⟩,
    hentries₂, honly.mapDeltas, honly.nextEntryId⟩
  · unfold addUnchecked
    dsimp only
    rw [← he, hinsert]
    dsimp only
    rw [require_pos hlast, ok_bind, hok, ok_bind]
    rfl
  · intro o next
    change pool₂.mapNextTx.find? o = some next ↔ ∃ e' ∈ pool₂.mapTx.entries, _
    rw [hentries₂, honly.mapNextTx]
    exact h.emplace_inputs e ha.distinct ha.unspent o next
  · change pool₂.totalTxSize + e.nTxSize = (pool₂.mapTx.entries.map _).sum
    rw [hentries₂, honly.totalTxSize, map_append, sum_append, ← h.total]
    simp [insertEntry]
  · change pool₂.cachedInnerUsage =
      (pool₂.mapTx.entries.map _).sum + linkCount pool₂.mapLinks • env.setUsage
    have husage := honly.usage
    have hempty : linkCount (pool.mapLinks.insert e.entryId .empty) = linkCount pool.mapLinks := by
      rw [linkCount_insert, linksAt, Finmap.lookup_eq_none.mpr hnotin]
      simp
    rw [hlinks₁, hempty, sub_eq_iff_eq_add] at husage
    rw [husage, hentries₂, map_append, sum_append]
    change pool.cachedInnerUsage + e.nUsageSize - _ + _ = _
    rw [h.usage]
    simp only [map_cons, map_nil, sum_cons, sum_nil, add_zero]
    abel
  · change Represents pool₂.mapLinks pool₂.ids (IterSpends pool₂.mapTx.entries)
    rw [ids, hlinks, honly.mapTx]
    exact h.attach_links hentries ha.youngest ha.childless ha.loopless
  · change ∀ c ∈ pool₂.mapTx.entries, ∀ p ∈ pool₂.mapTx.entries, c.Spends p → p.entryId < c.entryId
    rw [hentries₂]
    intro c hc p hp hspends
    rcases mem_append.mp hc with hc | hc <;> rcases mem_append.mp hp with hp | hp
    · exact h.older c hc p hp hspends
    · rw [mem_singleton.mp hp] at hspends
      exact absurd hspends (ha.childless c hc)
    · rw [mem_singleton.mp hc]
      exact ha.youngest p hp
    · rw [mem_singleton.mp hc, mem_singleton.mp hp] at hspends
      exact absurd hspends ha.loopless

end TxMemPool

end Pool

end RadiantCore
