import RadiantCore.ReorgQueue

/-!
# The coins that pool transactions spend

Every input of an entry spends an output of another entry or a coin of the chain (`Funded`).
Removing entries with their descendants keeps that. A block is different : its transactions leave the
pool without their descendants, which then spend coins of the chain, and the coins the block spends
are gone. Both are right because `removeForBlock` removes every entry that conflicts with the block
(`removeForBlock_spec`), in whatever order it goes through it.
-/

namespace RadiantCore

open List

/-- `CCoinsViewCache::HaveCoin`, on the map a cache represents. -/
def haveCoin (view : CoinsMap) (o : COutPoint) : Bool := (view.lookup o).any fun c => !c.isSpent

theorem haveCoin_iff {view : CoinsMap} {o : COutPoint} :
    haveCoin view o = true ↔ ∃ c, view.lookup o = some c ∧ c.isSpent = false := by
  simp [haveCoin, Option.any_eq_true]

section Funding

variable [Crypto]

/-! ## Creating coins -/

/-- A transaction has the output at an outpoint, which becomes a coin : it is not null and can be
spent. -/
def CTransaction.Creates (tx : CTransaction) (o : COutPoint) : Prop :=
  ∃ out, (o, out) ∈ tx.outputs ∧ out.isNull = false ∧ isUnspendable out.scriptPubKey = false

variable {tx : CTransaction} {o : COutPoint}

theorem CTransaction.Creates.txid_eq (h : tx.Creates o) :
    o.txid = tx.getId := by
  obtain ⟨out, hout, -⟩ := h
  obtain ⟨i, -, hi⟩ := CTransaction.mem_outputs_iff.mp hout
  exact congrArg COutPoint.txid hi

variable {view view' : CoinsMap}

/-- `AddCoins` keeps the coins, and adds those the transaction creates. -/
theorem haveCoin_addCoins {nHeight : ℕ}
    (h : addCoins view tx nHeight false = .ok view') (o : COutPoint)
    (ho : haveCoin view o = true ∨ tx.Creates o) : haveCoin view' o = true := by
  obtain ⟨hnull, -, rfl⟩ := addCoins_eq_ok_iff.mp h
  have hnodup := nodup_coinsOf tx nHeight
  by_cases hnew : o ∈ (coinsOf tx nHeight).map Prod.fst
  · obtain ⟨⟨o, c⟩, hmem, rfl⟩ := mem_map.mp hnew
    obtain ⟨out, hout, -, rfl⟩ := mem_coinsOf_iff.mp hmem
    have hvout : out ∈ tx.vout := tx.map_snd_outputs ▸ mem_map_of_mem hout
    exact haveCoin_iff.mpr ⟨_, lookup_insertAll_of_mem hnodup hmem, hnull out hvout⟩
  · rcases ho with ho | ⟨out, hout, -, hun⟩
    · rwa [haveCoin, lookup_insertAll_of_notMem hnew]
    · exact absurd (mem_map.mpr ⟨_, mem_coinsOf_iff.mpr ⟨out, hout, hun, rfl⟩, rfl⟩) hnew

variable {vtx : List CTransaction}

theorem haveCoin_foldlM_addCoins {nHeight : ℕ}
    (h : vtx.foldlM (fun view tx => addCoins view tx nHeight false) view = .ok view')
    (o : COutPoint) (ho : haveCoin view o = true ∨ ∃ tx ∈ vtx, tx.Creates o) :
    haveCoin view' o = true := by
  induction vtx generalizing view with
  | nil =>
    cases pure_eq_ok_iff.mp h
    exact ho.resolve_right (by simp)
  | cons tx vtx ih =>
    rw [foldlM_cons, bind_eq_ok_iff] at h
    obtain ⟨view₁, hadd, hrest⟩ := h
    refine ih hrest ?_
    rcases ho with ho | ⟨tx', htx', hcreates⟩
    · exact Or.inl (haveCoin_addCoins hadd o (Or.inl ho))
    · rcases mem_cons.mp htx' with rfl | htx'
      · exact Or.inl (haveCoin_addCoins hadd o (Or.inr hcreates))
      · exact Or.inr ⟨tx', htx', hcreates⟩

variable {params : Params} {pindex : CBlockIndex} {coins : CoinsMap} {st : ConnectState Empty}

/-- The coins after a block : those from before and those it creates, unless it spends them. -/
theorem haveCoin_utxoStage (h : utxoStage params pindex vtx coins = .ok st)
    (ho : haveCoin coins o = true ∨ ∃ tx ∈ vtx, tx.Creates o)
    (hunspent : ∀ tx ∈ vtx, o ∉ tx.prevouts) : haveCoin st.view o = true := by
  rw [utxoStage, connectTxs, bind_eq_ok_iff] at h
  obtain ⟨view, hadd, hloop⟩ := h
  have hfold : vtx.foldlM (fun view tx => addCoins view tx pindex.nHeight false) coins =
      .ok view := by
    unfold addBlockCoins at hadd
    split at hadd
    · cases hadd
    · exact hadd
  obtain ⟨-, checks, -, rfl⟩ :=
    (connectLoop_eq_ok_iff (fun _ _ _ _ => rfl) moneyRange_zero).mp hloop
  have hout : o ∉ spentBy (regularTxs vtx) := by
    intro hin
    obtain ⟨tx, htx, hin⟩ := mem_flatMap.mp hin
    exact hunspent tx (mem_filter.mp htx).1 hin
  change haveCoin (eraseAll view (spentBy (regularTxs vtx))) o = true
  rw [haveCoin, lookup_eraseAll, if_neg hout]
  exact haveCoin_foldlM_addCoins hfold o ho

/-! ## Funded entries -/

/-- An outpoint is an output of the entry whose id it names, if there is one, and otherwise
available. -/
def InputFunded (avail : COutPoint → Prop) (entries : List CTxMemPoolEntry) (o : COutPoint) :
    Prop :=
  (∃ p ∈ entries, p.tx.tx.Creates o) ∨ avail o ∧ ∀ p ∈ entries, p.txid ≠ o.txid

/-- All inputs of the entries are funded. -/
def Funded (avail : COutPoint → Prop) (entries : List CTxMemPoolEntry) : Prop :=
  ∀ e ∈ entries, ∀ o ∈ e.prevouts, InputFunded avail entries o

variable {avail avail' : COutPoint → Prop} {entries : List CTxMemPoolEntry}

theorem Funded.imp (h : Funded avail entries)
    (himp : ∀ e ∈ entries, ∀ o ∈ e.prevouts, avail o → avail' o) : Funded avail' entries :=
  fun e he o ho => (h e he o ho).imp id fun ⟨hin, hnone⟩ => ⟨himp e he o ho hin, hnone⟩

theorem Funded.snoc (h : Funded avail entries) {e : CTxMemPoolEntry}
    (hchildless : ∀ e' ∈ entries, ¬ e'.Spends e) (hloopless : ¬ e.Spends e)
    (hfunded : ∀ o ∈ e.prevouts, InputFunded avail entries o) : Funded avail (entries ++ [e]) := by
  have hextend : ∀ o, e.txid ≠ o.txid → InputFunded avail entries o →
      InputFunded avail (entries ++ [e]) o := by
    rintro o hne (⟨p, hp, hcreates⟩ | ⟨hin, hnone⟩)
    · exact Or.inl ⟨p, mem_append_left _ hp, hcreates⟩
    · refine Or.inr ⟨hin, fun p hp => ?_⟩
      rcases mem_append.mp hp with hp | hp
      · exact hnone p hp
      · rwa [mem_singleton.mp hp]
  intro e' he' o ho
  rcases mem_append.mp he' with he' | he'
  · refine hextend o (fun hid => hchildless e' he' ?_) (h e' he' o ho)
    exact mem_map.mpr ⟨o, ho, hid.symm⟩
  · rw [mem_singleton.mp he'] at ho
    exact hextend o (fun hid => hloopless (mem_map.mpr ⟨o, ho, hid.symm⟩)) (hfunded o ho)

namespace TxMemPool

variable {env : MempoolEnv} {pool pool' : TxMemPool}

/-- Removing entries with their descendants keeps the others funded. -/
theorem Prunes.funded (h : Prunes pool pool') (hfunded : Funded avail pool.mapTx.entries) :
    Funded avail pool'.mapTx.entries := by
  intro e he o ho
  rcases hfunded e (h.sublist.subset he) o ho with ⟨p, hp, hcreates⟩ | ⟨hin, hnone⟩
  · have hspends : e.Spends p := mem_map.mpr ⟨o, ho, hcreates.txid_eq⟩
    exact Or.inl ⟨p, h.parents e he p hp hspends, hcreates⟩
  · exact Or.inr ⟨hin, fun p hp => hnone p (h.sublist.subset hp)⟩

/-! ## A block -/

/-- A transaction of a block whose coins are available : it leaves the pool, and so do the entries
that spend what it spends. -/
theorem removeMined_spec (h : Consistent env pool) (hfunded : Funded avail pool.mapTx.entries)
    {ref : CTransactionRef} (hsame : ∀ e ∈ pool.mapTx.entries, e.txid = ref.txid → e.tx.tx = ref.tx)
    (havail : ∀ o, ref.tx.Creates o → avail o) :
    ∃ pool', pool.removeMined env ref = .ok pool' ∧ Consistent env pool' ∧
      Funded avail pool'.mapTx.entries ∧ pool'.mapTx.entries.Sublist pool.mapTx.entries ∧
      pool'.nextEntryId = pool.nextEntryId ∧
      ∀ e ∈ pool'.mapTx.entries, ∀ o ∈ ref.tx.prevouts, o ∉ e.prevouts := by
  unfold removeMined
  cases hfind : pool.mapTx.find ref.txid with
  | none =>
    obtain ⟨pool', hok, hcons, hprunes, hfree⟩ := removeConflicts_spec h ref.tx
    refine ⟨pool', hok, hcons, hprunes.funded hfunded, hprunes.sublist, hprunes.nextEntryId, ?_⟩
    intro e he o ho hin
    exact IndexedTransactionSet.find_eq_none_iff.mp hfind e (hprunes.sublist.subset he)
      (hfree e he o ho hin)
  | some mined =>
    obtain ⟨hmined, hid⟩ := IndexedTransactionSet.find_eq_some_iff.mp hfind
    have htx := hsame mined hmined hid
    obtain ⟨pool', hok, hcons, hentries, -, hnext⟩ :=
      removeStaged_spec h (Finset.singleton_subset_iff.mpr (entryId_mem_ids hmined))
    have hkept : ∀ e, e ∈ pool'.mapTx.entries ↔ e ∈ pool.mapTx.entries ∧ e ≠ mined := by
      intro e
      rw [hentries, mem_filter]
      refine and_congr_right fun he => ?_
      simp only [Finset.mem_singleton, decide_eq_true_eq]
      exact not_congr ⟨IndexedTransactionSet.eq_of_entryId he hmined, fun heq => heq ▸ rfl⟩
    have hsub : pool'.mapTx.entries.Sublist pool.mapTx.entries := hentries ▸ filter_sublist
    refine ⟨pool', hok, hcons, fun e he o ho => ?_, hsub, hnext, fun e he o ho hin => ?_⟩
    · rcases hfunded e ((hkept e).mp he).1 o ho with ⟨p, hp, hcreates⟩ | ⟨hin, hnone⟩
      · by_cases heq : p = mined
        · rw [heq] at hcreates
          refine Or.inr ⟨havail o (htx ▸ hcreates), fun p' hp' hid' => ?_⟩
          obtain ⟨hp', hne⟩ := (hkept p').mp hp'
          exact hne (IndexedTransactionSet.eq_of_txid hp' hmined (hid'.trans hcreates.txid_eq))
        · exact Or.inl ⟨p, (hkept p).mpr ⟨hp, heq⟩, hcreates⟩
      · exact Or.inr ⟨hin, fun p hp => hnone p ((hkept p).mp hp).1⟩
    · obtain ⟨he, hne⟩ := (hkept e).mp he
      refine hne (h.spender_unique he hmined hin ?_)
      rwa [CTxMemPoolEntry.prevouts, htx]

/-- The loop of `removeForBlock`. -/
theorem foldlM_removeMined_spec (avail : COutPoint → Prop) (h : Consistent env pool)
    (hfunded : Funded avail pool.mapTx.entries) {visits : List CTransactionRef}
    (hsame : ∀ ref ∈ visits, ∀ e ∈ pool.mapTx.entries, e.txid = ref.txid → e.tx.tx = ref.tx)
    (havail : ∀ ref ∈ visits, ∀ o, ref.tx.Creates o → avail o) :
    ∃ pool', visits.foldlM (removeMined env) pool = .ok pool' ∧ Consistent env pool' ∧
      Funded avail pool'.mapTx.entries ∧ pool'.mapTx.entries.Sublist pool.mapTx.entries ∧
      pool'.nextEntryId = pool.nextEntryId ∧
      ∀ ref ∈ visits, ∀ e ∈ pool'.mapTx.entries, ∀ o ∈ ref.tx.prevouts, o ∉ e.prevouts := by
  induction visits generalizing pool with
  | nil => exact ⟨pool, rfl, h, hfunded, .refl _, rfl, by simp⟩
  | cons ref visits ih =>
    rw [forall_mem_cons] at hsame havail
    obtain ⟨pool₁, hok₁, hcons₁, hfunded₁, hsub₁, hnext₁, hfree₁⟩ :=
      removeMined_spec h hfunded hsame.1 havail.1
    obtain ⟨pool₂, hok₂, hcons₂, hfunded₂, hsub₂, hnext₂, hfree₂⟩ :=
      ih hcons₁ hfunded₁ (fun ref href e he => hsame.2 ref href e (hsub₁.subset he)) havail.2
    refine ⟨pool₂, by rw [foldlM_cons, hok₁, ok_bind, hok₂], hcons₂, hfunded₂,
      hsub₂.trans hsub₁, hnext₂.trans hnext₁, forall_mem_cons.mpr ⟨?_, hfree₂⟩⟩
    exact fun e he => hfree₁ e (hsub₂.subset he)

end TxMemPool

/-- The queue that sorts a block is small enough to hold all of it. -/
def FitsQueue (env : QueueEnv) (vtx : List CTransactionRef) : Prop :=
  (vtx.reverse.foldl (DisconnectedBlockTransactions.addTransaction env)
    (.empty env)).dynamicMemoryUsage env ≤ env.maxDynamicUsage

instance (env : QueueEnv) (vtx : List CTransactionRef) : Decidable (FitsQueue env vtx) :=
  inferInstanceAs (Decidable (_ ≤ _))

variable {env : QueueEnv}

/-- Nothing is dropped from a queue that is small enough. -/
theorem DisconnectedBlockTransactions.limitUsage_of_le
    {q : DisconnectedBlockTransactions} (h : q.dynamicMemoryUsage env ≤ env.maxDynamicUsage)
    (dropped : TxMemPool → CTransactionRef → Except Failure TxMemPool)
    (entries : List CTransactionRef) (pool : TxMemPool) :
    limitUsage env dropped entries q pool = .ok (q, pool) := by
  cases entries with
  | nil =>
    rw [limitUsage, require_pos h, ok_bind]
    rfl
  | cons ref rest =>
    rw [limitUsage]
    exact if_neg (UInt64.not_lt.mpr h)

/-- The transactions of two lists have the same ids only where they are the same. -/
def IdsAgree (txs txs' : List CTransaction) : Prop :=
  ∀ a ∈ txs, ∀ b ∈ txs', a.getId = b.getId → a = b

/-- `removeForBlock` of a block that is connected to the coins : the entries that stay are funded by
the coins after it. -/
theorem TxMemPool.removeForBlock_spec {pool : TxMemPool} (h : pool.Consistent env.toMempoolEnv)
    (hfunded : Funded (haveCoin coins · = true) pool.mapTx.entries) {vtx : List CTransactionRef}
    (hblock : IdsAgree (vtx.map CTransactionRef.tx) (vtx.map CTransactionRef.tx))
    (hpool : IdsAgree (pool.mapTx.entries.map fun e => e.tx.tx) (vtx.map CTransactionRef.tx))
    (hfits : FitsQueue env vtx)
    (hconnect : utxoStage params pindex (vtx.map CTransactionRef.tx) coins = .ok st) :
    ∃ pool', pool.removeForBlock env vtx = .ok pool' ∧ pool'.Consistent env.toMempoolEnv ∧
      Funded (haveCoin st.view · = true) pool'.mapTx.entries ∧
      pool'.mapTx.entries.Sublist pool.mapTx.entries ∧ pool'.nextEntryId = pool.nextEntryId := by
  unfold removeForBlock
  split_ifs with hempty
  · refine ⟨pool, rfl, h, ?_, .refl _, rfl⟩
    rw [hempty.1]
    simp [Funded]
  · set q := vtx.reverse.foldl (DisconnectedBlockTransactions.addTransaction env) (.empty env)
    have hadd : (DisconnectedBlockTransactions.empty env).addForBlock env pool vtx =
        .ok (q, pool) := DisconnectedBlockTransactions.limitUsage_of_le hfits _ _ _
    have hqueue := foldl_enqueue CTransactionRef.inputIds
      (DisconnectedBlockTransactions.empty env).unique vtx.reverse
    rw [← DisconnectedBlockTransactions.queuedTx_foldl_addTransaction env vtx.reverse] at hqueue
    obtain ⟨-, hsub, hkeys⟩ := hqueue
    have hvisits : ∀ ref ∈ q.reverseIterate, ref.tx ∈ vtx.map CTransactionRef.tx := by
      intro ref href
      have hmem := hsub (mem_reverse.mp href)
      exact mem_map_of_mem (by simpa [DisconnectedBlockTransactions.empty] using hmem)
    have hvisited : ∀ tx ∈ vtx.map CTransactionRef.tx, ∃ ref ∈ q.reverseIterate, ref.tx = tx := by
      intro tx htx
      obtain ⟨ref, href, rfl⟩ := mem_map.mp htx
      obtain ⟨ref', href', hid⟩ := mem_map.mp (hkeys ref (by simp [href]))
      have hin := mem_reverse.mpr href'
      exact ⟨ref', hin, hblock _ (hvisits ref' hin) _ htx hid⟩
    obtain ⟨pool', hok, hcons, hfunded', hsub', hnext, hfree⟩ :=
      foldlM_removeMined_spec
        (fun o => haveCoin coins o = true ∨ ∃ tx ∈ vtx.map CTransactionRef.tx, tx.Creates o) h
        (hfunded.imp fun _ _ _ _ => Or.inl)
        (fun ref href e he hid => hpool _ (mem_map_of_mem he) _ (hvisits ref href) hid)
        (fun ref href o hcreates => Or.inr ⟨ref.tx, hvisits ref href, hcreates⟩)
    have hcoins : Funded (haveCoin st.view · = true) pool'.mapTx.entries := by
      refine hfunded'.imp fun e he o ho hin =>
        haveCoin_utxoStage hconnect hin fun tx htx hspent => ?_
      obtain ⟨ref, href, rfl⟩ := hvisited tx htx
      exact hfree ref href e he o hspent ho
    let deltas := q.queuedTx.foldl (fun deltas ref => deltas.erase ref.txid) pool'.mapDeltas
    refine ⟨{ pool' with mapDeltas := deltas }, ?_,
      ⟨⟨hcons.nextTx, hcons.total, hcons.usage⟩, hcons.links, hcons.older⟩, hcoins, hsub', hnext⟩
    rw [hadd, ok_bind]
    dsimp only
    rw [hok, ok_bind]
    rfl

end Funding

end RadiantCore
