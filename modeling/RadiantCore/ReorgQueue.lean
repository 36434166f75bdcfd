import RadiantCore.DependencyQueue
import RadiantCore.MempoolInsertion
import RadiantCore.BlockOrder

/-!
# The queue of disconnected transactions

`DisconnectedBlockTransactions` of `txmempool.h` holds the transactions of disconnected blocks until
they are put back into the memory pool. Its `insertion_order` index lists a transaction before the
transactions it spends, so that going through it in reverse puts parents back before their children.

`addForBlock` puts the transactions of a block at the end, whatever their order in the block, and
moves their queued ancestors behind them (`enqueue`) ; `importMempool` sorts the transactions of the
pool in a second queue and splices them in front. Both drop transactions from the front while the
queue takes more memory than allowed. The queue stays ordered in every run without cyclic spends
(`QueueRun.ordered`).

The pool that `addForBlock` removes the descendants of dropped transactions from, `g_mempool`, is the
pool that is imported and the pool whose `removeForBlock` sorts its block with a queue of its own.
-/

namespace RadiantCore

open List CTransactionRef

section Queue

variable [Crypto]

/-! ## The queue -/

/-- `DisconnectedBlockTransactions::TxInfo`. -/
structure TxInfo where
  time : ℤ
  feeDelta : ℤ
deriving DecidableEq

namespace CTransactionRef

/-- `mempoolentry_txid`, of a reference. -/
def txid (ref : CTransactionRef) : TxId := ref.tx.getId

/-- The ids of the transactions an input of the transaction names. -/
def inputIds (ref : CTransactionRef) : List TxId := ref.tx.prevouts.map COutPoint.txid

/-- A transaction spends an output of another. -/
def Spends (c p : CTransactionRef) : Prop := p.txid ∈ c.inputIds

instance (c p : CTransactionRef) : Decidable (c.Spends p) :=
  inferInstanceAs (Decidable (p.txid ∈ c.inputIds))

end CTransactionRef

/-- What the queue takes from the platform and the options, beside what the pool takes. -/
structure QueueEnv extends MempoolEnv where
  /-- The allocation of an element of `queuedTx`. -/
  queuedUsage : UInt64
  /-- The allocation of an element of `txInfo`. -/
  infoUsage : UInt64
  /-- The allocation of the buckets of an empty `txInfo`. -/
  bucketUsage : UInt64
  /-- `maxDynamicUsage`. -/
  maxDynamicUsage : UInt64

/-- `DisconnectedBlockTransactions`, with `queuedTx` in its `insertion_order`. -/
structure DisconnectedBlockTransactions where
  queuedTx : List CTransactionRef
  unique : (queuedTx.map txid).Nodup
  txInfo : FMap TxId TxInfo
  /-- The allocation of the buckets of `txInfo`. -/
  infoBuckets : UInt64
  cachedInnerUsage : UInt64

namespace DisconnectedBlockTransactions

theorem nodup_ids_nil : (([] : List CTransactionRef).map txid).Nodup := .nil

/-- A new queue. -/
def empty (env : QueueEnv) : DisconnectedBlockTransactions :=
  ⟨[], nodup_ids_nil, ∅, env.bucketUsage, 0⟩

/-- `DynamicMemoryUsage`. -/
def dynamicMemoryUsage (env : QueueEnv) (q : DisconnectedBlockTransactions) : UInt64 :=
  env.queuedUsage * UInt64.ofNat q.queuedTx.length +
    (env.infoUsage * UInt64.ofNat q.txInfo.keys.card + q.infoBuckets) + q.cachedInnerUsage

/-- A transaction with the id is in the queue. -/
def Queued (q : DisconnectedBlockTransactions) (id : TxId) : Prop :=
  ∃ ref ∈ q.queuedTx, ref.txid = id

instance (q : DisconnectedBlockTransactions) (id : TxId) : Decidable (q.Queued id) :=
  inferInstanceAs (Decidable (∃ ref ∈ q.queuedTx, ref.txid = id))

/-- An iteration of the first loop of `addForBlock` : a transaction that is not queued is put at the
end with `addTransaction`, and its queued ancestors behind it. -/
def addTransaction (env : QueueEnv) (q : DisconnectedBlockTransactions) (ref : CTransactionRef) :
    DisconnectedBlockTransactions where
  queuedTx := enqueue txid inputIds q.queuedTx ref
  unique := nodup_enqueue inputIds q.unique ref
  txInfo := q.txInfo
  infoBuckets := q.infoBuckets
  cachedInnerUsage :=
    if q.Queued ref.txid then q.cachedInnerUsage else q.cachedInnerUsage + env.txUsage ref

/-- `removeEntry` of the earliest entry, `ref`. -/
def removeFirst (env : QueueEnv) (q : DisconnectedBlockTransactions) (ref : CTransactionRef) :
    DisconnectedBlockTransactions where
  queuedTx := q.queuedTx.tail
  unique := q.unique.sublist ((tail_sublist _).map _)
  txInfo := q.txInfo.erase ref.txid
  infoBuckets := q.infoBuckets
  cachedInnerUsage := q.cachedInnerUsage - env.txUsage ref

/-- The loops that keep the size under control : the entries of the queue, the earliest first, are
dropped from it until it is small enough. The queue, and the pool from which `dropped` removes. -/
def limitUsage (env : QueueEnv) (dropped : TxMemPool → CTransactionRef → Except Failure TxMemPool) :
    List CTransactionRef → DisconnectedBlockTransactions → TxMemPool →
      Except Failure (DisconnectedBlockTransactions × TxMemPool)
  | [], q, pool => do
    -- `begin()` of an empty container is not an entry.
    require (q.dynamicMemoryUsage env ≤ env.maxDynamicUsage)
      (.abort "it != queuedTx.get<insertion_order>().end()")
    return (q, pool)
  | ref :: rest, q, pool =>
    if env.maxDynamicUsage < q.dynamicMemoryUsage env then do
      let pool ← dropped pool ref
      limitUsage env dropped rest (q.removeFirst env ref) pool
    else .ok (q, pool)

/-- `addForBlock` : the queue, and `g_mempool`. -/
def addForBlock (env : QueueEnv) (q : DisconnectedBlockTransactions) (pool : TxMemPool)
    (vtx : List CTransactionRef) : Except Failure (DisconnectedBlockTransactions × TxMemPool) :=
  let q := vtx.reverse.foldl (addTransaction env) q
  limitUsage env (fun pool ref => pool.removeRecursive env.toMempoolEnv ref.tx) q.queuedTx q pool

/-- `try_emplace` of the time and the fee delta of an entry of the pool. -/
def saveInfo (txInfo : FMap TxId TxInfo) (e : CTxMemPoolEntry) :
    Except Failure (FMap TxId TxInfo) := do
  let modifiedFee ← addAmount e.nFee e.feeDelta
  let feeDelta ← addAmount modifiedFee (-e.nFee)
  return if e.txid ∈ txInfo then txInfo else txInfo.insert e.txid ⟨e.nTime, feeDelta⟩

theorem unique_splice {front queuedTx : List CTransactionRef} (hfront : (front.map txid).Nodup)
    (hqueued : (queuedTx.map txid).Nodup) :
    ((front.filter (fun ref => ref.txid ∉ queuedTx.map txid) ++ queuedTx).map
      txid).Nodup := by
  rw [map_append, nodup_append']
  refine ⟨hfront.sublist (filter_sublist.map _), hqueued, ?_⟩
  intro id hid hin
  obtain ⟨ref, href, rfl⟩ := mem_map.mp hid
  have hout : ref.txid ∉ queuedTx.map txid := by
    simpa only [decide_eq_true_eq] using (mem_filter.mp href).2
  exact hout hin

/-- `splice` of another queue in front, where an element with a queued id stays behind. -/
def splice (q ordered : DisconnectedBlockTransactions) : DisconnectedBlockTransactions where
  queuedTx := ordered.queuedTx.filter (fun ref => ref.txid ∉ q.queuedTx.map txid) ++
    q.queuedTx
  unique := unique_splice ordered.unique q.unique
  txInfo := q.txInfo
  infoBuckets := q.infoBuckets
  cachedInnerUsage := q.cachedInnerUsage + ordered.cachedInnerUsage

/-- `importMempool` of `g_mempool` : the queue and the pool. After the insertions the buckets of
`txInfo` take `buckets` bytes. -/
def importMempool (env : QueueEnv) (q : DisconnectedBlockTransactions) (pool : TxMemPool)
    (buckets : UInt64) : Except Failure (DisconnectedBlockTransactions × TxMemPool) := do
  let vtx := pool.mapTx.entries.map CTxMemPoolEntry.tx
  let txInfo ← pool.mapTx.entries.foldlM saveInfo q.txInfo
  let (ordered, pool) ← (empty env).addForBlock env pool.clear vtx
  let spliced := { q with txInfo := txInfo, infoBuckets := buckets }.splice ordered
  let res ← limitUsage env (fun pool _ => .ok pool) spliced.queuedTx spliced pool
  -- The destructor of `orderedTxnPool`.
  require (∀ ref ∈ ordered.queuedTx, ¬ q.Queued ref.txid) (.abort "queuedTx.empty()")
  return res

/-- An iteration of the loop of `removeForBlock`. -/
def removeQueued (env : QueueEnv) (q : DisconnectedBlockTransactions) (ref : CTransactionRef) :
    DisconnectedBlockTransactions :=
  if q.Queued ref.txid then
    { queuedTx := q.queuedTx.filter (·.txid ≠ ref.txid)
      unique := q.unique.sublist (filter_sublist.map _)
      txInfo := q.txInfo.erase ref.txid
      infoBuckets := q.infoBuckets
      cachedInnerUsage := q.cachedInnerUsage - env.txUsage ref }
  else q

/-- `removeForBlock`. -/
def removeForBlock (env : QueueEnv) (q : DisconnectedBlockTransactions)
    (vtx : List CTransactionRef) : DisconnectedBlockTransactions :=
  if q.queuedTx = [] then q else vtx.foldl (removeQueued env) q

/-- `reverse_iterate` over the `insertion_order` index. -/
def reverseIterate (q : DisconnectedBlockTransactions) : List CTransactionRef := q.queuedTx.reverse

/-- `clear`. -/
def clear (q : DisconnectedBlockTransactions) : DisconnectedBlockTransactions :=
  { q with queuedTx := [], unique := nodup_ids_nil, txInfo := ∅, cachedInnerUsage := 0 }

end DisconnectedBlockTransactions

namespace TxMemPool

/-- An iteration of the loop of `removeForBlock` : a transaction of the block is removed from the
pool, or the entries that conflict with it. -/
def removeMined (env : MempoolEnv) (pool : TxMemPool) (ref : CTransactionRef) :
    Except Failure TxMemPool :=
  match pool.mapTx.find ref.txid with
  | some e => pool.removeStaged env {e.entryId}
  | none => pool.removeConflicts env ref.tx

/-- `removeForBlock`. -/
def removeForBlock (env : QueueEnv) (pool : TxMemPool) (vtx : List CTransactionRef) :
    Except Failure TxMemPool :=
  if pool.mapTx.entries = [] ∧ pool.mapDeltas = ∅ then .ok pool
  else do
    let (disconnectpool, pool) ←
      (DisconnectedBlockTransactions.empty env).addForBlock env pool vtx
    let pool ← disconnectpool.reverseIterate.foldlM (removeMined env.toMempoolEnv) pool
    return { pool with
      mapDeltas := disconnectpool.queuedTx.foldl (fun deltas ref => deltas.erase ref.txid)
        pool.mapDeltas }

/-- `LimitSize`, where entries from before `expiry` are expired. The coins that `Uncache` drops from
the cache of the chain state are left out. -/
def limitSize (env : MempoolEnv) (pool : TxMemPool) (limit : UInt64) (expiry : ℤ) :
    Except Failure TxMemPool := do
  let (pool, _) ← pool.expire env expiry true
  let (pool, _) ← pool.trimToSize env limit
  return pool

end TxMemPool

namespace DisconnectedBlockTransactions

/-- `AcceptToMemoryPoolWithTime` without limits, of a transaction at a time : the pool, and whether
the transaction was accepted. -/
abbrev Accept := TxMemPool → CTransactionRef → ℤ → Except Failure (TxMemPool × Bool)

/-- An iteration of the loop of `updateMempoolForReorg`, at the time `now`. -/
def readd (accept : Accept) (now : ℤ) (q : DisconnectedBlockTransactions) (pool : TxMemPool)
    (ref : CTransactionRef) : Except Failure TxMemPool :=
  if ref.tx.isCoinBase then .ok pool
  else
    match q.txInfo.lookup ref.txid with
    | none => do
      let (pool, _) ← accept pool ref now
      return pool
    | some info => do
      let hasFeeDelta := info.feeDelta ≠ 0
      let deltas := pool.mapDeltas.insert ref.txid info.feeDelta
      let (pool, ok) ← accept (if hasFeeDelta then { pool with mapDeltas := deltas } else pool) ref
        info.time
      return if ¬ ok ∧ hasFeeDelta then pool.clearPrioritisation ref.txid else pool

/-- `updateMempoolForReorg`, of `g_mempool`. -/
def updateMempoolForReorg (env : QueueEnv) (accept : Accept) (now : ℤ)
    (q : DisconnectedBlockTransactions) (pool : TxMemPool) (fAddToMempool : Bool)
    (maxMempool : UInt64) (expiry : ℤ) :
    Except Failure (DisconnectedBlockTransactions × TxMemPool) := do
  let pool ← (if fAddToMempool then q.reverseIterate else []).foldlM (readd accept now q) pool
  let pool ← pool.limitSize env.toMempoolEnv maxMempool expiry
  return ({ q with queuedTx := [], unique := nodup_ids_nil, txInfo := ∅ }, pool)

end DisconnectedBlockTransactions

/-! ## The order -/

/-- Every transaction of the list stands before those of the list that it spends. -/
def ChildrenFirst (l : List CTransactionRef) : Prop :=
  ∀ before c after, l = before ++ c :: after → ∀ p ∈ l, c.Spends p → p ∈ after

/-- Every transaction of the list stands after those of the list that it spends. -/
def ParentsFirst (l : List CTransactionRef) : Prop :=
  ∀ before c after, l = before ++ c :: after → ∀ p ∈ l, c.Spends p → p ∈ before

/-- No transaction of the list spends itself, through transactions of the list. -/
def AcyclicSpends (l : List CTransactionRef) : Prop :=
  NoCycle txid inputIds l

theorem ChildrenFirst.reverse {l : List CTransactionRef} (h : ChildrenFirst l) :
    ParentsFirst l.reverse := by
  intro before c after heq p hp hspends
  have hsplit : l = after.reverse ++ c :: before.reverse := by
    rw [← reverse_reverse l, heq]
    simp
  have hmem := h _ _ _ hsplit p (mem_reverse.mp hp) hspends
  exact mem_reverse.mp hmem

namespace DisconnectedBlockTransactions

variable {env : QueueEnv} {q q' : DisconnectedBlockTransactions} {pool pool' : TxMemPool}
  {vtx : List CTransactionRef}

/-- The queue lists transactions before those they spend. -/
def Topological (q : DisconnectedBlockTransactions) : Prop :=
  Ordered txid inputIds (fun _ => False) q.queuedTx

theorem Topological.childrenFirst (h : q.Topological) : ChildrenFirst q.queuedTx := by
  intro before c after heq p hp hspends
  unfold Topological at h
  rw [heq] at h hp
  exact h.mem_after hp hspends

theorem limitUsage_sublist {dropped : TxMemPool → CTransactionRef → Except Failure TxMemPool}
    {entries : List CTransactionRef} (hentries : q.queuedTx = entries)
    (h : limitUsage env dropped entries q pool = .ok (q', pool')) :
    q'.queuedTx.Sublist q.queuedTx := by
  induction entries generalizing q pool with
  | nil =>
    simp only [limitUsage, bind_eq_ok_iff, exists_unit_iff, require_eq_ok_iff, pure_eq_ok_iff] at h
    cases h.2
    exact .refl _
  | cons ref rest ih =>
    rw [limitUsage] at h
    split_ifs at h
    · obtain ⟨pool₁, -, hrest⟩ := bind_eq_ok_iff.mp h
      have htail : (q.removeFirst env ref).queuedTx = rest := by
        change q.queuedTx.tail = rest
        rw [hentries, tail_cons]
      exact (ih htail hrest).trans (tail_sublist _)
    · cases h
      exact .refl _

theorem queuedTx_foldl_addTransaction (env : QueueEnv) (vtx : List CTransactionRef)
    (q : DisconnectedBlockTransactions) :
    (vtx.foldl (addTransaction env) q).queuedTx =
      vtx.foldl (enqueue txid inputIds) q.queuedTx := (foldl_hom queuedTx fun _ _ => rfl).symm

/-- What `addForBlock` leaves in the queue is in order, and was queued or in the block. -/
theorem addForBlock_spec (h : q.Topological) (hcycle : AcyclicSpends (q.queuedTx ++ vtx))
    (hok : q.addForBlock env pool vtx = .ok (q', pool')) :
    q'.Topological ∧ q'.queuedTx ⊆ q.queuedTx ++ vtx := by
  have hsub := limitUsage_sublist rfl hok
  rw [queuedTx_foldl_addTransaction] at hsub
  have hmem : q.queuedTx ++ vtx.reverse ⊆ q.queuedTx ++ vtx := fun ref href => by
    simpa using href
  refine ⟨(h.foldl_enqueue q.unique (hcycle.mono hmem)).sublist hsub, fun ref href => hmem ?_⟩
  exact (foldl_enqueue inputIds q.unique vtx.reverse).2.1 (hsub.subset href)

/-- What `importMempool` leaves in the queue is in order, when no queued transaction spends one of
the pool. -/
theorem importMempool_spec (h : q.Topological)
    (hcycle : AcyclicSpends (pool.mapTx.entries.map CTxMemPoolEntry.tx))
    (hspent : ∀ c ∈ q.queuedTx, ∀ e ∈ pool.mapTx.entries, ¬ c.Spends e.tx) {buckets : UInt64}
    (hok : q.importMempool env pool buckets = .ok (q', pool')) : q'.Topological := by
  unfold importMempool at hok
  simp only [bind_eq_ok_iff, exists_unit_iff, require_eq_ok_iff, pure_eq_ok_iff] at hok
  obtain ⟨txInfo, -, ⟨ordered, pool₁⟩, hadd, ⟨q₁, pool₂⟩, hlimit, -, heq⟩ := hok
  cases heq
  have hempty : (empty env).Topological := ⟨.nil, by simp [empty]⟩
  obtain ⟨hordered, hsub⟩ := addForBlock_spec hempty (by simpa [empty] using hcycle) hadd
  refine Ordered.sublist ?_ (limitUsage_sublist rfl hlimit)
  refine (hordered.sublist filter_sublist).append h fun ref href c hc hspends => ?_
  have hin := hsub (mem_filter.mp href).1
  obtain ⟨e, he, rfl⟩ := mem_map.mp (by simpa [empty] using hin)
  exact hspent c hc e he hspends

theorem removeQueued_sublist (env : QueueEnv) (q : DisconnectedBlockTransactions)
    (ref : CTransactionRef) : (q.removeQueued env ref).queuedTx.Sublist q.queuedTx := by
  unfold removeQueued
  split_ifs
  · exact filter_sublist
  · exact .refl _

theorem removeForBlock_sublist (env : QueueEnv) (q : DisconnectedBlockTransactions)
    (vtx : List CTransactionRef) :
    (q.removeForBlock env vtx).queuedTx.Sublist q.queuedTx := by
  unfold removeForBlock
  split_ifs
  · exact .refl _
  · refine foldlRecOn (motive := fun q' => (queuedTx q').Sublist q.queuedTx) _ _ (.refl _) ?_
    exact fun q' h ref _ => (removeQueued_sublist env q' ref).trans h

/-! ## Runs -/

/-- The queues that calls lead to from a new one. The pool may be any at each call. -/
inductive QueueRun (env : QueueEnv) : DisconnectedBlockTransactions → Prop
  | start : QueueRun env (empty env)
  /-- The transactions of a block, in any order, without cyclic spends. -/
  | addForBlock {q q' : DisconnectedBlockTransactions} {pool pool' : TxMemPool}
      {vtx : List CTransactionRef} (run : QueueRun env q)
      (acyclic : AcyclicSpends (q.queuedTx ++ vtx))
      (ok : q.addForBlock env pool vtx = .ok (q', pool')) : QueueRun env q'
  /-- A pool none of whose transactions is spent by a queued one. -/
  | importMempool {q q' : DisconnectedBlockTransactions} {pool pool' : TxMemPool}
      {buckets : UInt64} (run : QueueRun env q)
      (acyclic : AcyclicSpends (pool.mapTx.entries.map CTxMemPoolEntry.tx))
      (unspent : ∀ c ∈ q.queuedTx, ∀ e ∈ pool.mapTx.entries, ¬ c.Spends e.tx)
      (ok : q.importMempool env pool buckets = .ok (q', pool')) : QueueRun env q'
  | removeForBlock {q : DisconnectedBlockTransactions} (run : QueueRun env q)
      (vtx : List CTransactionRef) : QueueRun env (q.removeForBlock env vtx)

theorem QueueRun.topological (h : QueueRun env q) : q.Topological := by
  induction h with
  | start => exact ⟨.nil, by simp [empty]⟩
  | addForBlock _ hcycle hok ih => exact (addForBlock_spec ih hcycle hok).1
  | importMempool _ hcycle hunspent hok ih => exact importMempool_spec ih hcycle hunspent hok
  | removeForBlock _ vtx ih => exact ih.sublist (removeForBlock_sublist env _ vtx)

/-- In every run the queue has no transaction twice and lists every transaction before those it
spends. So the loop of `updateMempoolForReorg`, and the loop of the pool's `removeForBlock` over a
queue of its own, visit parents before children. -/
theorem insertionOrder_topological (env : QueueEnv) :
    (∀ q, QueueRun env q →
      (q.queuedTx.map txid).Nodup ∧ ChildrenFirst q.queuedTx ∧
      ∀ accept now pool maxMempool expiry st,
        q.updateMempoolForReorg env accept now pool true maxMempool expiry = .ok st →
        ∃ visits pool', visits.Perm q.queuedTx ∧ ParentsFirst visits ∧
          visits.foldlM (q.readd accept now) pool = .ok pool' ∧
          pool'.limitSize env.toMempoolEnv maxMempool expiry = .ok st.2) ∧
    ∀ (pool : TxMemPool) vtx pool', AcyclicSpends vtx → pool.removeForBlock env vtx = .ok pool' →
      (pool.mapTx.entries = [] ∧ pool.mapDeltas = ∅) ∨
        ∃ q pool₁ pool₂, (empty env).addForBlock env pool vtx = .ok (q, pool₁) ∧
          ∃ visits, visits.Perm q.queuedTx ∧ ParentsFirst visits ∧
            visits.foldlM (TxMemPool.removeMined env.toMempoolEnv) pool₁ = .ok pool₂ ∧
            pool'.mapTx = pool₂.mapTx := by
  refine ⟨fun q hrun => ⟨q.unique, hrun.topological.childrenFirst, ?_⟩, ?_⟩
  · intro accept now pool maxMempool expiry st hok
    simp only [updateMempoolForReorg, if_true, bind_eq_ok_iff, pure_eq_ok_iff] at hok
    obtain ⟨pool', hvisits, pool'', hlimit, rfl⟩ := hok
    exact ⟨q.reverseIterate, pool', reverse_perm _, hrun.topological.childrenFirst.reverse,
      hvisits, hlimit⟩
  · intro pool vtx pool' hcycle hok
    unfold TxMemPool.removeForBlock at hok
    split_ifs at hok with hempty
    · exact Or.inl hempty
    · simp only [bind_eq_ok_iff, pure_eq_ok_iff] at hok
      obtain ⟨⟨q, pool₁⟩, hadd, pool₂, hvisits, rfl⟩ := hok
      have hrun : QueueRun env q := .addForBlock .start (by simpa [empty] using hcycle) hadd
      exact Or.inr ⟨q, pool₁, pool₂, hadd, q.reverseIterate, reverse_perm _,
        hrun.topological.childrenFirst.reverse, hvisits, rfl⟩

end DisconnectedBlockTransactions

end Queue

section Sample

attribute [local instance] Crypto.toy

/-- Sizes with which nothing is dropped. -/
def sampleQueueEnv : QueueEnv where
  bytesPerSigCheck := 50
  rate e := (e.getModifiedFeeRate 50).toOption.getD 0
  rate_eq e r h := by rw [h]; rfl
  txUsage _ := 300
  entryUsage := 200
  nextTxUsage := 64
  deltaUsage := 64
  linksUsage := 128
  setUsage := 48
  queuedUsage := 80
  infoUsage := 64
  bucketUsage := 16
  maxDynamicUsage := 5368709120

/-- Spends the output of `sampleChild`. -/
def sampleGrandchild : CTransaction := sampleTx (sampleChild.outpoint 0) 5 [0x51]

/-- The entry of a transaction with a fee of 10. -/
def sampleEntry (tx : CTransaction) (object : ℕ) : CTxMemPoolEntry :=
  .ofTx sampleQueueEnv.toMempoolEnv ⟨tx, object⟩ 10 0 0

/-- A block with a child before its parent, then a pool with a child of that child, and at last a
block with the parent. -/
def sampleReorg : Except Failure (DisconnectedBlockTransactions × DisconnectedBlockTransactions ×
    DisconnectedBlockTransactions × TxMemPool) := do
  let pool ← TxMemPool.empty.addUnchecked sampleQueueEnv.toMempoolEnv (sampleEntry sampleGrandchild 2)
  let (q₁, _) ← (DisconnectedBlockTransactions.empty sampleQueueEnv).addForBlock sampleQueueEnv
    .empty [⟨sampleChild, 1⟩, ⟨sampleParent, 0⟩]
  let (q₂, _) ← q₁.importMempool sampleQueueEnv pool 128
  return (q₁, q₂, q₂.removeForBlock sampleQueueEnv [⟨sampleParent, 0⟩], pool)

/-- The queue after the three calls, without the parent. -/
theorem insertionOrder_topological_sample :
    ∃ q, DisconnectedBlockTransactions.QueueRun sampleQueueEnv q ∧
      q.queuedTx = [⟨sampleGrandchild, 2⟩, ⟨sampleChild, 1⟩] ∧ ChildrenFirst q.queuedTx := by
  have hvalues : sampleReorg.toOption.map (fun (q₁, _, q₃, pool) =>
      (q₁.queuedTx, pool.mapTx.entries.map CTxMemPoolEntry.tx, q₃.queuedTx)) =
      some ([⟨sampleChild, 1⟩, ⟨sampleParent, 0⟩], [⟨sampleGrandchild, 2⟩],
        [⟨sampleGrandchild, 2⟩, ⟨sampleChild, 1⟩]) := by decide +kernel
  have hrank : ∀ l : List CTransactionRef, (∀ c ∈ l, ∀ p ∈ l, c.Spends p → p.object < c.object) →
      AcyclicSpends l := fun l => noCycle_of_rank object
  obtain ⟨⟨q₁, q₂, q₃, pool⟩, hreorg, heq⟩ := Option.map_eq_some_iff.mp hvalues
  simp only [Prod.mk.injEq] at heq
  obtain ⟨hq₁, hpool, hq₃⟩ := heq
  rw [toOption_eq_some_iff] at hreorg
  unfold sampleReorg at hreorg
  simp only [bind_eq_ok_iff, pure_eq_ok_iff, Prod.mk.injEq] at hreorg
  obtain ⟨pool', -, ⟨q, p⟩, hadd, ⟨q', p'⟩, himport, rfl, rfl, rfl, rfl⟩ := hreorg
  have hunspent : ∀ c ∈ q.queuedTx, ∀ e ∈ pool'.mapTx.entries, ¬ c.Spends e.tx := by
    intro c hc e he
    have hmem : e.tx ∈ pool'.mapTx.entries.map CTxMemPoolEntry.tx := mem_map_of_mem he
    rw [hpool, mem_singleton] at hmem
    rw [hmem]
    rw [hq₁] at hc
    revert c hc
    decide +kernel
  have hrun : DisconnectedBlockTransactions.QueueRun sampleQueueEnv
      (q'.removeForBlock sampleQueueEnv [⟨sampleParent, 0⟩]) :=
    .removeForBlock (.importMempool (.addForBlock .start (hrank _ (by decide +kernel)) hadd)
      (hrank _ (by rw [hpool]; decide +kernel)) hunspent himport) _
  exact ⟨_, hrun, hq₃,
    ((DisconnectedBlockTransactions.insertionOrder_topological sampleQueueEnv).1 _ hrun).2.1⟩

end Sample

end RadiantCore
