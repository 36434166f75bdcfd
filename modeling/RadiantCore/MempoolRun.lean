import RadiantCore.MempoolCheck
import RadiantCore.DoubleSpendProof

/-!
# Runs of the memory pool

The pool and the coins of the chain under the operations that change the pool : insertion of a
transaction that can be connected on top of it, removal with all descendants, removal of conflicts,
a block, expiry and the size limit (`PoolRun`). In every reachable state all that the pool keeps
beside its entries agrees with them, every input is an output of an entry or a coin, every operation
returns, and the assertions of `check` about the pool hold (`poolRun_invariant`).

That a transaction spends outputs of entries and coins is not enough for it to be inserted
(`Connectable`). `mapNextTx` has one element for an input that occurs twice, and an output that
cannot be spent never becomes a coin, so that a transaction that spends it waits for ever
(`connectable_insufficient`).
-/

namespace RadiantCore

open CTransactionRef IndexedTransactionSet

section Run

variable [Crypto]

/-! ## What may be inserted -/

instance (tx : CTransaction) (o : COutPoint) : Decidable (tx.Creates o) :=
  decidable_of_iff (∃ p ∈ tx.outputs, p.1 = o ∧ p.2.isNull = false ∧
    isUnspendable p.2.scriptPubKey = false) <| by
      constructor
      · rintro ⟨⟨o, out⟩, hout, rfl, hrest⟩
        exact ⟨out, hout, hrest⟩
      · rintro ⟨out, hout, hrest⟩
        exact ⟨(o, out), hout, rfl, hrest⟩

instance (c p : CTxMemPoolEntry) : Decidable (c.Spends p) :=
  inferInstanceAs (Decidable (p.txid ∈ c.prevouts.map COutPoint.txid))

/-- A transaction that is not in the pool spends outputs of entries and coins, none of which an entry
spends, and no entry spends its outputs. -/
structure Connectable (coins : CoinsMap) (pool : TxMemPool) (entry : CTxMemPoolEntry) : Prop where
  absent : ∀ e ∈ pool.mapTx.entries, e.txid ≠ entry.txid
  unspent : ∀ e ∈ pool.mapTx.entries, ∀ o ∈ entry.prevouts, o ∉ e.prevouts
  unspentOutputs : ∀ e ∈ pool.mapTx.entries, ∀ p ∈ entry.tx.tx.outputs, p.1 ∉ e.prevouts
  inputs : ∀ o ∈ entry.prevouts,
    (∃ e ∈ pool.mapTx.entries, o ∈ e.tx.tx.outputs.map Prod.fst) ∨ haveCoin coins o = true

instance (coins : CoinsMap) (pool : TxMemPool) (entry : CTxMemPoolEntry) :
    Decidable (Connectable coins pool entry) :=
  decidable_of_iff ((∀ e ∈ pool.mapTx.entries, e.txid ≠ entry.txid) ∧
    (∀ e ∈ pool.mapTx.entries, ∀ o ∈ entry.prevouts, o ∉ e.prevouts) ∧
    (∀ e ∈ pool.mapTx.entries, ∀ p ∈ entry.tx.tx.outputs, p.1 ∉ e.prevouts) ∧
    ∀ o ∈ entry.prevouts,
      (∃ e ∈ pool.mapTx.entries, o ∈ e.tx.tx.outputs.map Prod.fst) ∨ haveCoin coins o = true)
    ⟨fun ⟨h₁, h₂, h₃, h₄⟩ => ⟨h₁, h₂, h₃, h₄⟩, fun ⟨h₁, h₂, h₃, h₄⟩ => ⟨h₁, h₂, h₃, h₄⟩⟩

/-- Its inputs are also distinct, the outputs of entries among them can be spent, no input of an
entry or of itself names it, and the counter of the entries has not wrapped. -/
structure Admissible (coins : CoinsMap) (pool : TxMemPool) (entry : CTxMemPoolEntry) : Prop
    extends Connectable coins pool entry where
  distinct : entry.prevouts.Nodup
  spendable : ∀ o ∈ entry.prevouts, ∀ p ∈ pool.mapTx.entries, p.txid = o.txid → p.tx.tx.Creates o
  childless : ∀ e ∈ pool.mapTx.entries, ¬ e.Spends entry
  loopless : ¬ entry.Spends entry
  counter : pool.nextEntryId ≠ 0

instance (coins : CoinsMap) (pool : TxMemPool) (entry : CTxMemPoolEntry) :
    Decidable (Admissible coins pool entry) :=
  decidable_of_iff (Connectable coins pool entry ∧ entry.prevouts.Nodup ∧
    (∀ o ∈ entry.prevouts, ∀ p ∈ pool.mapTx.entries, p.txid = o.txid → p.tx.tx.Creates o) ∧
    (∀ e ∈ pool.mapTx.entries, ¬ e.Spends entry) ∧ ¬ entry.Spends entry ∧ pool.nextEntryId ≠ 0)
    ⟨fun ⟨h, h₁, h₂, h₃, h₄, h₅⟩ => ⟨h, h₁, h₂, h₃, h₄, h₅⟩,
      fun ⟨h, h₁, h₂, h₃, h₄, h₅⟩ => ⟨h, h₁, h₂, h₃, h₄, h₅⟩⟩

theorem Admissible.inputFunded {coins : CoinsMap} {pool : TxMemPool} {entry : CTxMemPoolEntry}
    (h : Admissible coins pool entry) :
    ∀ o ∈ entry.prevouts, InputFunded (haveCoin coins · = true) pool.mapTx.entries o := by
  intro o ho
  by_cases hpool : ∃ p ∈ pool.mapTx.entries, p.txid = o.txid
  · obtain ⟨p, hp, hid⟩ := hpool
    exact Or.inl ⟨p, hp, h.spendable o ho p hp hid⟩
  · have hnone : ∀ p ∈ pool.mapTx.entries, p.txid ≠ o.txid := fun p hp hid => hpool ⟨p, hp, hid⟩
    refine Or.inr ⟨(h.inputs o ho).resolve_left ?_, hnone⟩
    rintro ⟨e, he, hout⟩
    obtain ⟨p, hp, rfl⟩ := List.mem_map.mp hout
    obtain ⟨i, -, hi⟩ := CTransaction.mem_outputs_iff.mp hp
    exact hnone e he (congrArg COutPoint.txid hi).symm

/-! ## Runs -/

/-- The operations on the pool. A block comes with its parameters for the coins. -/
inductive PoolEvent
  | addUnchecked (entry : CTxMemPoolEntry)
  | removeRecursive (tx : CTransaction)
  | removeConflicts (tx : CTransaction)
  | removeForBlock (params : Params) (pindex : CBlockIndex) (vtx : List CTransactionRef)
  | expire (time : ℤ) (fast : Bool)
  | trimToSize (sizelimit : UInt64)

/-- The pool and the coins of the chain after an operation. -/
def PoolEvent.run (env : QueueEnv) (pool : TxMemPool) (coins : CoinsMap) :
    PoolEvent → Except Failure (TxMemPool × CoinsMap)
  | addUnchecked entry => do
    let pool ← pool.addUnchecked env.toMempoolEnv entry
    return (pool, coins)
  | removeRecursive tx => do
    let pool ← pool.removeRecursive env.toMempoolEnv tx
    return (pool, coins)
  | removeConflicts tx => do
    let pool ← pool.removeConflicts env.toMempoolEnv tx
    return (pool, coins)
  | removeForBlock params pindex vtx => do
    let st ← utxoStage params pindex (vtx.map tx) coins
    let pool ← pool.removeForBlock env vtx
    return (pool, st.view)
  | expire time fast => do
    let (pool, _) ← pool.expire env.toMempoolEnv time fast
    return (pool, coins)
  | trimToSize sizelimit => do
    let (pool, _) ← pool.trimToSize env.toMempoolEnv sizelimit
    return (pool, coins)

/-- What is asked of an operation : a transaction can be inserted ; a block is valid on the coins, its
ids and those of the entries agree, and it fits the queue that sorts it. -/
def PoolEvent.Allowed (env : QueueEnv) (pool : TxMemPool) (coins : CoinsMap) : PoolEvent → Prop
  | addUnchecked entry => Admissible coins pool entry
  | removeForBlock params pindex vtx =>
    (∃ st, utxoStage params pindex (vtx.map tx) coins = .ok st) ∧
      IdsAgree (vtx.map tx) (vtx.map tx) ∧
      IdsAgree (pool.mapTx.entries.map fun e => e.tx.tx) (vtx.map tx) ∧
      FitsQueue env vtx
  | _ => True

instance (txs txs' : List CTransaction) : Decidable (IdsAgree txs txs') :=
  inferInstanceAs (Decidable (∀ a ∈ txs, ∀ b ∈ txs', a.getId = b.getId → a = b))

instance decidableExistsOk {ε α : Type} (x : Except ε α) : Decidable (∃ a, x = .ok a) :=
  match x with
  | .ok a => .isTrue ⟨a, rfl⟩
  | .error _ => .isFalse nofun

instance (env : QueueEnv) (pool : TxMemPool) (coins : CoinsMap) (event : PoolEvent) :
    Decidable (event.Allowed env pool coins) :=
  match event with
  | .addUnchecked entry => inferInstanceAs (Decidable (Admissible coins pool entry))
  | .removeForBlock params pindex vtx =>
    inferInstanceAs (Decidable (
      (∃ st, utxoStage params pindex (vtx.map tx) coins = .ok st) ∧
      IdsAgree (vtx.map tx) (vtx.map tx) ∧
      IdsAgree (pool.mapTx.entries.map fun e => e.tx.tx) (vtx.map tx) ∧
      FitsQueue env vtx))
  | .removeRecursive _ | .removeConflicts _ | .expire _ _ | .trimToSize _ => .isTrue trivial

/-- The pools and coins that allowed operations lead to from an empty pool. -/
inductive PoolRun (env : QueueEnv) : TxMemPool → CoinsMap → Prop
  | start (coins : CoinsMap) : PoolRun env .empty coins
  | step {pool pool' : TxMemPool} {coins coins' : CoinsMap} {event : PoolEvent}
      (run : PoolRun env pool coins) (allowed : event.Allowed env pool coins)
      (ok : event.run env pool coins = .ok (pool', coins')) : PoolRun env pool' coins'

/-- The invariant of a run. -/
structure PoolInvariant (env : QueueEnv) (pool : TxMemPool) (coins : CoinsMap) : Prop where
  consistent : pool.Consistent env.toMempoolEnv
  funded : Funded (haveCoin coins · = true) pool.mapTx.entries
  counter : pool.nextEntryId < 2 ^ 64
  youngest : pool.nextEntryId ≠ 0 → ∀ e ∈ pool.mapTx.entries, e.entryId < pool.nextEntryId

variable {env : QueueEnv} {pool pool' : TxMemPool} {coins coins' : CoinsMap}

theorem poolInvariant_empty (env : QueueEnv) (coins : CoinsMap) :
    PoolInvariant env .empty coins where
  consistent :=
    { nextTx := by simp [TxMemPool.empty, empty]
      total := rfl
      usage := by simp [TxMemPool.empty, empty, linkCount]
      links := ⟨fun a => iff_of_false Finmap.notMem_empty (Finset.notMem_empty a),
        fun a ha => absurd ha (Finset.notMem_empty a),
        fun a ha => absurd ha (Finset.notMem_empty a)⟩
      older := by simp [TxMemPool.empty, empty] }
  funded := by simp [Funded, TxMemPool.empty, empty]
  counter := by simp [TxMemPool.empty]
  youngest := by simp [TxMemPool.empty, empty]

section

variable (h : PoolInvariant env pool coins)

include h

/-- Removing entries keeps the counter ahead of the others. -/
theorem PoolInvariant.remove (hcons : pool'.Consistent env.toMempoolEnv)
    (hfunded : Funded (haveCoin coins' · = true) pool'.mapTx.entries)
    (hsub : pool'.mapTx.entries.Sublist pool.mapTx.entries)
    (hnext : pool'.nextEntryId = pool.nextEntryId) : PoolInvariant env pool' coins' where
  consistent := hcons
  funded := hfunded
  counter := hnext ▸ h.counter
  youngest := by
    rw [hnext]
    exact fun hne e he => h.youngest hne e (hsub.subset he)

theorem PoolInvariant.prunes (hcons : pool'.Consistent env.toMempoolEnv)
    (hprunes : pool.Prunes pool') :
    PoolInvariant env pool' coins :=
  h.remove hcons (hprunes.funded h.funded) hprunes.sublist hprunes.nextEntryId

theorem PoolInvariant.addUnchecked {entry : CTxMemPoolEntry}
    (hadmissible : Admissible coins pool entry) :
    ∃ pool', pool.addUnchecked env.toMempoolEnv entry = .ok pool' ∧
      PoolInvariant env pool' coins := by
  have haddable : pool.Addable entry :=
    ⟨hadmissible.absent, hadmissible.distinct, hadmissible.unspent, hadmissible.childless,
      hadmissible.loopless, h.youngest hadmissible.counter⟩
  obtain ⟨pool', hok, hcons, hentries, -, hnext⟩ :=
    TxMemPool.addUnchecked_spec h.consistent haddable
  refine ⟨pool', hok, hcons, ?_, ?_, fun hne e he => ?_⟩
  · rw [hentries]
    exact h.funded.snoc hadmissible.childless hadmissible.loopless hadmissible.inputFunded
  · rw [hnext]
    exact Nat.mod_lt _ (by norm_num)
  · have hlt := h.counter
    have hwrap : (pool.nextEntryId + 1) % 2 ^ 64 = pool.nextEntryId + 1 := by
      refine Nat.mod_eq_of_lt (lt_of_le_of_ne hlt fun heq => hne ?_)
      rw [hnext, heq, Nat.mod_self]
    rw [hnext, hwrap]
    rw [hentries] at he
    rcases List.mem_append.mp he with he | he
    · exact (haddable.youngest e he).trans (Nat.lt_succ_self _)
    · rw [List.mem_singleton.mp he]
      exact Nat.lt_succ_self _

/-- Every allowed operation returns, and keeps the invariant. -/
theorem PoolInvariant.run {event : PoolEvent} (hallowed : event.Allowed env pool coins) :
    ∃ pool' coins', event.run env pool coins = .ok (pool', coins') ∧
      PoolInvariant env pool' coins' := by
  cases event with
  | addUnchecked entry =>
    obtain ⟨pool', hok, hinv⟩ := h.addUnchecked hallowed
    exact ⟨pool', coins, by rw [PoolEvent.run, hok]; rfl, hinv⟩
  | removeRecursive tx =>
    obtain ⟨pool', hok, hcons, hprunes, -⟩ := TxMemPool.removeRecursive_spec h.consistent tx
    exact ⟨pool', coins, by rw [PoolEvent.run, hok]; rfl, h.prunes hcons hprunes⟩
  | removeConflicts tx =>
    obtain ⟨pool', hok, hcons, hprunes, -⟩ := TxMemPool.removeConflicts_spec h.consistent tx
    exact ⟨pool', coins, by rw [PoolEvent.run, hok]; rfl, h.prunes hcons hprunes⟩
  | removeForBlock params pindex vtx =>
    obtain ⟨⟨st, hconnect⟩, hblock, hpool, hfits⟩ := hallowed
    obtain ⟨pool', hok, hcons, hfunded, hsub, hnext⟩ :=
      TxMemPool.removeForBlock_spec h.consistent h.funded hblock hpool hfits hconnect
    exact ⟨pool', st.view, by rw [PoolEvent.run, hconnect, ok_bind, hok]; rfl,
      h.remove hcons hfunded hsub hnext⟩
  | expire time fast =>
    obtain ⟨res, hok, hcons, hprunes, -⟩ := TxMemPool.expire_spec h.consistent time fast
    exact ⟨res.1, coins, by rw [PoolEvent.run, hok]; rfl, h.prunes hcons hprunes⟩
  | trimToSize sizelimit =>
    obtain ⟨res, hok, hcons, hprunes, -⟩ := TxMemPool.trimToSize_spec h.consistent sizelimit
    exact ⟨res.1, coins, by rw [PoolEvent.run, hok]; rfl, h.prunes hcons hprunes⟩

end

theorem PoolRun.invariant (h : PoolRun env pool coins) : PoolInvariant env pool coins := by
  induction h with
  | start coins => exact poolInvariant_empty env coins
  | step _ hallowed hok ih =>
    obtain ⟨pool', coins', hok', hinv⟩ := ih.run hallowed
    cases hok.symm.trans hok'
    exact hinv

/-- In every run from an empty pool : `mapNextTx` has exactly the inputs of the entries, each with
its spender ; the links are the spends between the entries ; parents are older than their children ;
`totalTxSize` is the sum of the sizes ; every input is an output of an entry or a coin of the chain.
Every allowed operation returns, and `check` fails only where a single transaction fails whose inputs
are there. -/
theorem poolRun_invariant (h : PoolRun env pool coins) :
    (∀ o next, pool.mapNextTx.find? o = some next ↔
      ∃ e ∈ pool.mapTx.entries, e.tx = next.tx ∧ e.prevouts[next.input]? = some o) ∧
    (∀ it, it ∈ pool.mapLinks ↔ ∃ e ∈ pool.mapTx.entries, e.entryId = it) ∧
    (∀ c ∈ pool.mapTx.entries, ∀ it, it ∈ (linksAt pool.mapLinks c.entryId).parents ↔
      ∃ p ∈ pool.mapTx.entries, c.Spends p ∧ p.entryId = it) ∧
    (∀ p ∈ pool.mapTx.entries, ∀ it, it ∈ (linksAt pool.mapLinks p.entryId).children ↔
      ∃ c ∈ pool.mapTx.entries, c.Spends p ∧ c.entryId = it) ∧
    (∀ c ∈ pool.mapTx.entries, ∀ p ∈ pool.mapTx.entries, c.Spends p → p.entryId < c.entryId) ∧
    pool.totalTxSize = (pool.mapTx.entries.map CTxMemPoolEntry.nTxSize).sum ∧
    (∀ e ∈ pool.mapTx.entries, ∀ o ∈ e.prevouts,
      (∃ p ∈ pool.mapTx.entries, p.tx.tx.Creates o) ∨ haveCoin coins o = true) ∧
    (∀ event : PoolEvent, event.Allowed env pool coins →
      ∃ pool' coins', event.run env pool coins = .ok (pool', coins')) ∧
    ∀ spendheight (entries : List CTxMemPoolEntry), entries.Perm pool.mapTx.entries →
      Ends (pool.check env.toMempoolEnv coins spendheight entries)
        (pool.InputsFail spendheight) fun _ => True := by
  have hinv := h.invariant
  have hcons := hinv.consistent
  refine ⟨hcons.nextTx, fun it => ?_, fun c hc it => hcons.mem_parentsOf hc,
    fun p hp it => hcons.mem_childrenOf_iff hp, hcons.older, hcons.total,
    fun e he o ho => (hinv.funded e he o ho).imp id And.left, fun event hallowed => ?_,
    fun spendheight entries hperm => TxMemPool.check_spec hcons hinv.funded hperm⟩
  · rw [hcons.links.keys, TxMemPool.mem_ids]
  · obtain ⟨pool', coins', hok, -⟩ := hinv.run hallowed
    exact ⟨pool', coins', hok⟩

/-- The pool as the validation of double-spend proofs reads it. -/
def TxMemPool.view (pool : TxMemPool) : CTxMemPool where
  get id := (pool.mapTx.find id).map fun e => e.tx.tx
  mapNextTx o := (pool.mapNextTx.find? o).map fun next => next.tx.tx

/-- Run operations as long as they are allowed and return. -/
def PoolEvent.replay (env : QueueEnv) :
    List PoolEvent → TxMemPool → CoinsMap → Option (TxMemPool × CoinsMap)
  | [], pool, coins => some (pool, coins)
  | event :: events, pool, coins =>
    if event.Allowed env pool coins then
      (event.run env pool coins).toOption.bind fun (pool, coins) => replay env events pool coins
    else none

theorem PoolRun.replay {events : List PoolEvent} (h : PoolRun env pool coins)
    (hreplay : PoolEvent.replay env events pool coins = some (pool', coins')) :
    PoolRun env pool' coins' := by
  induction events generalizing pool coins with
  | nil =>
    cases hreplay
    exact h
  | cons event events ih =>
    rw [PoolEvent.replay] at hreplay
    split_ifs at hreplay with hallowed
    obtain ⟨⟨pool₁, coins₁⟩, hok, hrest⟩ := Option.bind_eq_some_iff.mp hreplay
    exact ih (h.step hallowed (toOption_eq_some_iff.mp hok)) hrest

end Run

section Sample

attribute [local instance] Crypto.toy

/-- A parent and its child come into the pool, then a block with the parent. -/
def samplePoolEvents : List PoolEvent :=
  [.addUnchecked (sampleEntry sampleParent 0), .addUnchecked (sampleEntry sampleChild 1),
    .removeForBlock sampleParams sampleIndex [⟨sampleCoinbase, 2⟩, ⟨sampleParent, 3⟩]]

/-- The child stays, and spends a coin of the chain. -/
theorem poolRun_invariant_sample :
    ∃ pool coins, PoolRun sampleQueueEnv pool coins ∧
      pool.mapTx.entries.map CTxMemPoolEntry.tx = [⟨sampleChild, 1⟩] ∧
      haveCoin coins (sampleParent.outpoint 0) = true ∧
      pool.totalTxSize = (pool.mapTx.entries.map CTxMemPoolEntry.nTxSize).sum := by
  have hvalues : (PoolEvent.replay sampleQueueEnv samplePoolEvents .empty sampleView).map
      (fun (pool, coins) => (pool.mapTx.entries.map CTxMemPoolEntry.tx,
        haveCoin coins (sampleParent.outpoint 0))) = some ([⟨sampleChild, 1⟩], true) := by
    decide +kernel
  obtain ⟨⟨pool, coins⟩, hreplay, heq⟩ := Option.map_eq_some_iff.mp hvalues
  rw [Prod.mk.injEq] at heq
  have hrun := (PoolRun.start sampleView).replay hreplay
  exact ⟨pool, coins, hrun, heq.1, heq.2, (poolRun_invariant hrun).2.2.2.2.2.1⟩

/-- Spends the coin of `sampleView` twice. -/
def sampleTwice : CTransaction :=
  .ofLegacy ⟨[⟨⟨Blob.null, 0⟩, [0x51], 0xffffffff⟩, ⟨⟨Blob.null, 0⟩, [0x51], 0xffffffff⟩],
    [⟨20, [0x51]⟩], 1, 0⟩ version_one one_lt_word

/-- Has an output that cannot be spent. -/
def sampleBurn : CTransaction := sampleTx ⟨Blob.null, 0⟩ 20 [0x00, 0x6a]

/-- Spends the output of `sampleBurn`. -/
def sampleUnburn : CTransaction := sampleTx (sampleBurn.outpoint 0) 10 [0x51]

/-- Insert a transaction into a pool and check it. Whether it was connectable, and the result. -/
def insertAndCheck (pool : TxMemPool) (entry : CTxMemPoolEntry) :
    Bool × Option Failure :=
  (decide (Connectable sampleView pool entry),
    match (do
      let pool ← pool.addUnchecked sampleQueueEnv.toMempoolEnv entry
      pool.check sampleQueueEnv.toMempoolEnv sampleView 200 pool.mapTx.entries) with
    | .ok () => none
    | .error f => some f)

/-- A transaction with an input twice, and one that spends an output of an entry that cannot be
spent, are connectable, but then `check` fails. -/
theorem connectable_insufficient :
    insertAndCheck .empty (sampleEntry sampleTwice 0) =
        (true, some (.abort "it3->first == &txin.prevout")) ∧
      (PoolEvent.replay sampleQueueEnv [.addUnchecked (sampleEntry sampleBurn 0)] .empty
          sampleView).map (fun (pool, _) => insertAndCheck pool (sampleEntry sampleUnburn 1)) =
        some (true, some (.abort "stepsSinceLastRemove < waitingOnDependants.size()")) := by
  decide +kernel

end Sample

end RadiantCore
