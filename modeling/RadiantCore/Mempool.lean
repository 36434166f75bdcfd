import RadiantCore.FeeRate
import RadiantCore.OrderedStore
import RadiantCore.LinkGraph
import RadiantCore.Worklist

/-!
# The memory pool

`CTxMemPool` of `txmempool.cpp`. The pool holds its entries in a container with three indexes
(`IndexedTransactionSet`) : by transaction id, by entry id, which counts the insertions, and by
modified fee rate. Beside it stand the map from the spent outpoints to their spenders, `mapNextTx`,
and the links of each entry to the entries it spends from and is spent by, `mapLinks`.

An iterator into the container is the id of the entry it points at. Pointers are kept apart from what
they point at where the source compares them : a `CTransactionRef` is a transaction with the object
that holds it, and the key of `mapNextTx` is the position of an input of that object.

The sizes that depend on the platform, the rates whose computation overflows and the memory that a
transaction object takes are parameters (`MempoolEnv`).
-/

namespace RadiantCore

open List

section Pool

variable [Crypto]

/-! ## Entries -/

/-- `CTransactionRef`, a pointer to a transaction : the transaction and the object that holds it. -/
structure CTransactionRef where
  tx : CTransaction
  object : ℕ
deriving DecidableEq

/-- `CTxMemPoolEntry`. -/
structure CTxMemPoolEntry where
  entryId : ℕ
  tx : CTransactionRef
  nFee : ℤ
  nTxSize : UInt64
  nUsageSize : UInt64
  nTime : ℤ
  sigChecks : ℤ
  feeDelta : ℤ
deriving DecidableEq

namespace CTxMemPoolEntry

/-- `mempoolentry_txid`. -/
def txid (e : CTxMemPoolEntry) : TxId := e.tx.tx.getId

/-- The outpoints an entry spends. -/
def prevouts (e : CTxMemPoolEntry) : List COutPoint := e.tx.tx.prevouts

/-- `GetModifiedFeeRate` : the rate of the fee with its delta, for the virtual size. -/
def getModifiedFeeRate (e : CTxMemPoolEntry) (bytesPerSigCheck : ℕ) : Except Failure ℤ := do
  let modifiedFee ← addAmount e.nFee e.feeDelta
  let sigChecksSize ← mulAmount e.sigChecks bytesPerSigCheck
  CFeeRate modifiedFee (max (e.nTxSize.toNat : ℤ) sigChecksSize).toNat

end CTxMemPoolEntry

/-- What the pool takes from the platform and the options. -/
structure MempoolEnv where
  /-- `nBytesPerSigCheck`. -/
  bytesPerSigCheck : ℕ
  /-- The rate of an entry in the fee rate index, which has no defined value when it overflows. -/
  rate : CTxMemPoolEntry → ℤ
  rate_eq : ∀ e r, e.getModifiedFeeRate bytesPerSigCheck = .ok r → rate e = r
  /-- `RecursiveDynamicUsage` of a transaction. -/
  txUsage : CTransactionRef → UInt64
  /-- The allocation of an element of `mapTx`. -/
  entryUsage : UInt64
  /-- The allocation of an element of `mapNextTx`. -/
  nextTxUsage : UInt64
  /-- The allocation of an element of `mapDeltas`. -/
  deltaUsage : UInt64
  /-- The allocation of an element of `mapLinks`. -/
  linksUsage : UInt64
  /-- `setEntriesIncrementalUsage`. -/
  setUsage : UInt64

/-- The constructor of `CTxMemPoolEntry`. -/
def CTxMemPoolEntry.ofTx (env : MempoolEnv) (tx : CTransactionRef) (nFee nTime sigChecks : ℤ) :
    CTxMemPoolEntry where
  entryId := 0
  tx := tx
  nFee := nFee
  nTxSize := UInt64.ofNat (tx.tx.getTotalSize % 2 ^ 32)
  nUsageSize := env.txUsage tx
  nTime := nTime
  sigChecks := sigChecks
  feeDelta := 0

/-- `CompareTxMemPoolEntryByModifiedFeeRate` : whether `a` comes before `b`. -/
def MempoolEnv.compareByModifiedFeeRate (env : MempoolEnv) (a b : CTxMemPoolEntry) : Bool :=
  if env.rate a = env.rate b then a.entryId < b.entryId else env.rate b < env.rate a

/-- The last entry of the fee rate index. -/
def MempoolEnv.lastByModifiedFeeRate (env : MempoolEnv) : List CTxMemPoolEntry →
    Option CTxMemPoolEntry
  | [] => none
  | e :: entries =>
    match env.lastByModifiedFeeRate entries with
    | none => some e
    | some last => if env.compareByModifiedFeeRate e last then some last else some e

/-! ## The container of the entries -/

/-- `txiter` : the id of the entry an iterator points at. -/
abbrev TxIter := ℕ

/-- `indexed_transaction_set`, in the order of its `entry_id` index. -/
structure IndexedTransactionSet where
  entries : List CTxMemPoolEntry
  sorted : entries.Pairwise fun a b => a.entryId < b.entryId
  unique : (entries.map CTxMemPoolEntry.txid).Nodup

namespace IndexedTransactionSet

/-- The container without entries. -/
def empty : IndexedTransactionSet := ⟨[], .nil, .nil⟩

/-- `find` by transaction id. -/
def find (s : IndexedTransactionSet) (id : TxId) : Option CTxMemPoolEntry :=
  s.entries.find? (·.txid = id)

/-- The entry an iterator points at. -/
def deref (s : IndexedTransactionSet) (it : TxIter) : Except Failure CTxMemPoolEntry :=
  match s.entries.find? (·.entryId = it) with
  | none => .error (.abort "it != mapTx.end()")
  | some e => .ok e

/-- The keys of an entry are in the container. -/
def Collides (s : IndexedTransactionSet) (entry : CTxMemPoolEntry) : Prop :=
  ∃ e ∈ s.entries, e.entryId = entry.entryId ∨ e.txid = entry.txid

instance (s : IndexedTransactionSet) (entry : CTxMemPoolEntry) : Decidable (s.Collides entry) :=
  inferInstanceAs (Decidable (∃ e ∈ s.entries, e.entryId = entry.entryId ∨ e.txid = entry.txid))

/-- The entries with a new one, at its place in the `entry_id` index. -/
def place (entries : List CTxMemPoolEntry) (entry : CTxMemPoolEntry) : List CTxMemPoolEntry :=
  entries.filter (·.entryId < entry.entryId) ++ entry :: entries.filter (entry.entryId < ·.entryId)

variable {entries : List CTxMemPoolEntry} {entry : CTxMemPoolEntry}

theorem place_perm (h : ∀ e ∈ entries, e.entryId ≠ entry.entryId) :
    (place entries entry).Perm (entry :: entries) := by
  have hsplit : entries.filter (entry.entryId < ·.entryId) =
      entries.filter fun e => !decide (e.entryId < entry.entryId) :=
    filter_congr fun e he => by
      rw [← decide_not, decide_eq_decide]
      have := h e he
      omega
  rw [place, hsplit]
  exact perm_middle.trans ((filter_append_perm _ _).cons entry)

theorem unique_place {s : IndexedTransactionSet}
    (h : ¬ s.Collides entry) : ((place s.entries entry).map CTxMemPoolEntry.txid).Nodup := by
  have hid : ∀ e ∈ s.entries, e.entryId ≠ entry.entryId := fun e he heq => h ⟨e, he, Or.inl heq⟩
  rw [((place_perm hid).map _).nodup_iff, map_cons, nodup_cons]
  refine ⟨fun hmem => ?_, s.unique⟩
  obtain ⟨e, he, heq⟩ := mem_map.mp hmem
  exact h ⟨e, he, Or.inr heq⟩

/-- `insert`, which refuses an entry with a key that is there. -/
def insert (s : IndexedTransactionSet) (entry : CTxMemPoolEntry) :
    Option IndexedTransactionSet :=
  if h : s.Collides entry then none
  else some ⟨place s.entries entry, OrderedStore.sorted_place s.sorted entry, unique_place h⟩

/-- `erase` of the entry an iterator points at. -/
def erase (s : IndexedTransactionSet) (it : TxIter) : IndexedTransactionSet where
  entries := s.entries.filter (·.entryId ≠ it)
  sorted := s.sorted.filter _
  unique := s.unique.sublist (filter_sublist.map _)

/-- `modify` of the fee delta of an entry, by `update_fee_delta`. -/
def updateFeeDelta (s : IndexedTransactionSet) (id : TxId) (feeDelta : ℤ) :
    IndexedTransactionSet where
  entries := s.entries.map fun e => if e.txid = id then { e with feeDelta := feeDelta } else e
  sorted := by
    refine pairwise_map.mpr (s.sorted.imp fun {a b} hlt => ?_)
    split_ifs <;> exact hlt
  unique := by
    rw [map_map]
    refine (congrArg List.Nodup (map_congr_left fun e _ => ?_)).mp s.unique
    simp only [Function.comp_apply]
    split_ifs <;> rfl

end IndexedTransactionSet

/-! ## The pool -/

/-- `operator<` of `COutPoint` : by id, then by index. -/
instance : LinearOrder COutPoint :=
  LinearOrder.lift' (fun o => toLex (o.txid, o.n.toNat)) fun a b h => by
    obtain ⟨id, n⟩ := a
    obtain ⟨id', n'⟩ := b
    simpa [UInt32.toNat_inj] using h

/-- An element of `mapNextTx` : the input its key points at, and the spender. -/
structure NextTx where
  input : ℕ
  tx : CTransactionRef
deriving DecidableEq

/-- `CTxMemPool`. The part of it that double-spend proofs read is `CTxMemPool.get` and
`CTxMemPool.mapNextTx`. -/
structure TxMemPool where
  mapTx : IndexedTransactionSet
  mapLinks : LinkMap TxIter
  mapNextTx : OrderedStore COutPoint NextTx
  mapDeltas : FMap TxId ℤ
  totalTxSize : UInt64
  cachedInnerUsage : UInt64
  nextEntryId : ℕ

namespace TxMemPool

/-- A pool without entries, as the constructor and `clear` leave it. -/
def clear (pool : TxMemPool) : TxMemPool :=
  { pool with
    mapTx := .empty
    mapLinks := ∅
    mapNextTx := .empty
    totalTxSize := 0
    cachedInnerUsage := 0 }

/-- The pool of the constructor. -/
def empty : TxMemPool := ⟨.empty, ∅, .empty, ∅, 0, 0, 1⟩

/-- `DynamicMemoryUsage`. -/
def dynamicMemoryUsage (env : MempoolEnv) (pool : TxMemPool) : UInt64 :=
  env.entryUsage * UInt64.ofNat pool.mapTx.entries.length +
    env.nextTxUsage * UInt64.ofNat pool.mapNextTx.entries.length +
    env.deltaUsage * UInt64.ofNat pool.mapDeltas.keys.card +
    env.linksUsage * UInt64.ofNat pool.mapLinks.keys.card + pool.cachedInnerUsage

/-- `DynamicUsage` of the two sets of an element of `mapLinks`. -/
def setsUsage (env : MempoolEnv) (links : Links TxIter) : UInt64 :=
  env.setUsage * UInt64.ofNat links.parents.card + env.setUsage * UInt64.ofNat links.children.card

/-! ### Links -/

/-- One side of the links of an entry, which is asserted to have an element in `mapLinks`. -/
def getMemPoolLinks (pool : TxMemPool) (side : Side) (entry : TxIter) :
    Except Failure (Finset TxIter) :=
  match pool.mapLinks.lookup entry with
  | none => .error (.abort "it != mapLinks.end()")
  | some links => .ok (links.get side)

/-- `GetMemPoolParents`. -/
def getMemPoolParents (pool : TxMemPool) (entry : TxIter) : Except Failure (Finset TxIter) :=
  pool.getMemPoolLinks .parents entry

/-- `GetMemPoolChildren`. -/
def getMemPoolChildren (pool : TxMemPool) (entry : TxIter) : Except Failure (Finset TxIter) :=
  pool.getMemPoolLinks .children entry

/-- Add an iterator to one side of the links of an entry, or remove it. `mapLinks[entry]` makes an
element where there is none. -/
def updateLink (env : MempoolEnv) (pool : TxMemPool) (side : Side) (entry it : TxIter)
    (add : Bool) : TxMemPool :=
  let links := linksAt pool.mapLinks entry
  if add ∧ it ∉ links.get side then
    { pool with
      mapLinks := pool.mapLinks.insert entry (links.set side (insert it (links.get side)))
      cachedInnerUsage := pool.cachedInnerUsage + env.setUsage }
  else if ¬ add ∧ it ∈ links.get side then
    { pool with
      mapLinks := pool.mapLinks.insert entry (links.set side ((links.get side).erase it))
      cachedInnerUsage := pool.cachedInnerUsage - env.setUsage }
  else { pool with mapLinks := pool.mapLinks.insert entry links }

/-- `UpdateChild`. -/
def updateChild (env : MempoolEnv) (pool : TxMemPool) (entry child : TxIter) (add : Bool) :
    TxMemPool := pool.updateLink env .children entry child add

/-- `UpdateParent`. -/
def updateParent (env : MempoolEnv) (pool : TxMemPool) (entry parent : TxIter) (add : Bool) :
    TxMemPool := pool.updateLink env .parents entry parent add

/-- `UpdateParentsOf`. -/
def updateParentsOf (env : MempoolEnv) (pool : TxMemPool) (add : Bool) (it : TxIter) :
    Except Failure TxMemPool := do
  let parents ← pool.getMemPoolParents it
  return (parents.sort (· ≤ ·)).foldl (fun pool piter => pool.updateChild env piter it add) pool

/-- `UpdateChildrenForRemoval`. -/
def updateChildrenForRemoval (env : MempoolEnv) (pool : TxMemPool) (it : TxIter) :
    Except Failure TxMemPool := do
  let children ← pool.getMemPoolChildren it
  return (children.sort (· ≤ ·)).foldl
    (fun pool updateIt => pool.updateParent env updateIt it false) pool

/-- `UpdateForRemoveFromMempool`. -/
def updateForRemoveFromMempool (env : MempoolEnv) (pool : TxMemPool)
    (entriesToRemove : List TxIter) : Except Failure TxMemPool := do
  let pool ← entriesToRemove.foldlM (fun pool it => pool.updateParentsOf env false it) pool
  entriesToRemove.foldlM (fun pool it => pool.updateChildrenForRemoval env it) pool

/-! ### Removal -/

/-- The pool without an entry. -/
def withoutEntry (env : MempoolEnv) (pool : TxMemPool) (it : TxIter) (entry : CTxMemPoolEntry) :
    TxMemPool :=
  { pool with
    mapNextTx := entry.prevouts.foldl OrderedStore.erase pool.mapNextTx
    totalTxSize := pool.totalTxSize - entry.nTxSize
    cachedInnerUsage :=
      pool.cachedInnerUsage - entry.nUsageSize - setsUsage env (linksAt pool.mapLinks it)
    mapLinks := pool.mapLinks.erase it
    mapTx := pool.mapTx.erase it }

/-- `removeUnchecked`. -/
def removeUnchecked (env : MempoolEnv) (pool : TxMemPool) (it : TxIter) :
    Except Failure TxMemPool := do
  let entry ← pool.mapTx.deref it
  return pool.withoutEntry env it entry

/-- `RemoveStaged`. -/
def removeStaged (env : MempoolEnv) (pool : TxMemPool) (stage : Finset TxIter) :
    Except Failure TxMemPool := do
  let pool ← pool.updateForRemoveFromMempool env (stage.sort (· ≤ ·))
  (stage.sort (· ≤ ·)).foldlM (removeUnchecked env) pool

/-- `CalculateDescendants`. Every step sees an element of `mapLinks` that was not seen. -/
def calculateDescendants (pool : TxMemPool) (entryit : TxIter) (setDescendants : Finset TxIter) :
    Except Failure (Finset TxIter) :=
  explore pool.getMemPoolChildren pool.mapLinks.keys.card
    (if entryit ∈ setDescendants then ∅ else {entryit}) setDescendants

/-- The spenders of the outputs of a transaction, from its first output on in the order of
`mapNextTx`. -/
def spendersOf (pool : TxMemPool) (id : TxId) : List NextTx :=
  ((pool.mapNextTx.seek ⟨id, 0⟩).takeWhile fun e => e.1.txid = id).map Prod.snd

/-- An iteration of a loop over spenders, which are asserted to be in the pool. -/
def insertSpender (pool : TxMemPool) (what : String) (its : Finset TxIter) (next : NextTx) :
    Except Failure (Finset TxIter) :=
  match pool.mapTx.find next.tx.tx.getId with
  | none => .error (.abort what)
  | some e => .ok (insert e.entryId its)

/-- The entries `removeRecursive` starts from : the transaction, or its spenders when it is not in
the pool. -/
def entriesToRemove (pool : TxMemPool) (origTx : CTransaction) :
    Except Failure (Finset TxIter) :=
  match pool.mapTx.find origTx.getId with
  | some e => .ok {e.entryId}
  | none => (pool.spendersOf origTx.getId).foldlM (pool.insertSpender "nextit != mapTx.end()") ∅

/-- `removeRecursive`. -/
def removeRecursive (env : MempoolEnv) (pool : TxMemPool) (origTx : CTransaction) :
    Except Failure TxMemPool := do
  let txToRemove ← pool.entriesToRemove origTx
  let setAllRemoves ← (txToRemove.sort (· ≤ ·)).foldlM
    (fun setAllRemoves it => pool.calculateDescendants it setAllRemoves) ∅
  pool.removeStaged env setAllRemoves

/-- `ClearPrioritisation`. -/
def clearPrioritisation (pool : TxMemPool) (id : TxId) : TxMemPool :=
  { pool with mapDeltas := pool.mapDeltas.erase id }

/-- One iteration of `removeConflicts`. Transactions are compared by their hashes. -/
def removeConflict (env : MempoolEnv) (tx : CTransaction) (pool : TxMemPool)
    (prevout : COutPoint) : Except Failure TxMemPool :=
  match pool.mapNextTx.find? prevout with
  | none => .ok pool
  | some next =>
    if next.tx.tx.getId ≠ tx.getId then
      (pool.clearPrioritisation next.tx.tx.getId).removeRecursive env next.tx.tx
    else .ok pool

/-- `removeConflicts`. -/
def removeConflicts (env : MempoolEnv) (pool : TxMemPool) (tx : CTransaction) :
    Except Failure TxMemPool :=
  tx.prevouts.foldlM (removeConflict env tx) pool

/-- The loop of `Expire` over the entries : the old ones and their descendants. -/
def expireStage (pool : TxMemPool) (time : ℤ) (fast : Bool) :
    List CTxMemPoolEntry → Finset TxIter → Except Failure (Finset TxIter)
  | [], stage => .ok stage
  | e :: entries, stage =>
    if e.nTime < time then do
      let stage ← pool.calculateDescendants e.entryId stage
      expireStage pool time fast entries stage
    else if fast then .ok stage
    else expireStage pool time fast entries stage

/-- `Expire` : the pool and the number of removed entries. -/
def expire (env : MempoolEnv) (pool : TxMemPool) (time : ℤ) (fast : Bool) :
    Except Failure (TxMemPool × ℕ) := do
  let stage ← pool.expireStage time fast pool.mapTx.entries ∅
  let pool ← pool.removeStaged env stage
  return (pool, stage.card)

/-- The outpoints of the staged entries that are no outputs of the pool. -/
def noSpendsRemaining (pool : TxMemPool) (stage : Finset TxIter) :
    Except Failure (List COutPoint) := do
  let entries ← (stage.sort (· ≤ ·)).mapM pool.mapTx.deref
  return (entries.flatMap CTxMemPoolEntry.prevouts).filter fun o =>
    (pool.mapTx.find o.txid).isNone

/-- The loop of `TrimToSize`, at most `fuel` times. -/
def trimLoop (env : MempoolEnv) (sizelimit : UInt64) :
    ℕ → TxMemPool → List COutPoint → Except Failure (TxMemPool × List COutPoint)
  | 0, pool, removed => .ok (pool, removed)
  | fuel + 1, pool, removed =>
    match env.lastByModifiedFeeRate pool.mapTx.entries with
    | none => .ok (pool, removed)
    | some e =>
      if sizelimit < pool.dynamicMemoryUsage env then do
        let stage ← pool.calculateDescendants e.entryId ∅
        let noSpends ← pool.noSpendsRemaining stage
        let pool ← pool.removeStaged env stage
        trimLoop env sizelimit fuel pool (removed ++ noSpends)
      else .ok (pool, removed)

/-- `TrimToSize` : the pool, and the outpoints that nothing in the pool spends any more. -/
def trimToSize (env : MempoolEnv) (pool : TxMemPool) (sizelimit : UInt64) :
    Except Failure (TxMemPool × List COutPoint) :=
  trimLoop env sizelimit pool.mapTx.entries.length pool []

/-! ### Insertion -/

/-- `GetIterSet`. -/
def getIterSet (pool : TxMemPool) (txids : Finset TxId) : Finset TxIter :=
  ((txids.sort (· ≤ ·)).filterMap fun id =>
    (pool.mapTx.find id).map CTxMemPoolEntry.entryId).toFinset

/-- `emplace` of an input into `mapNextTx`, which leaves an element that is there. -/
def emplaceNextTx (tx : CTransactionRef) (mapNextTx : OrderedStore COutPoint NextTx)
    (prevout : COutPoint × ℕ) : OrderedStore COutPoint NextTx :=
  if (mapNextTx.find? prevout.1).isSome then mapNextTx
  else mapNextTx.put prevout.1 ⟨prevout.2, tx⟩

/-- The entry `addUnchecked` inserts : with the next entry id and its fee delta. -/
def newEntry (pool : TxMemPool) (entry : CTxMemPoolEntry) : CTxMemPoolEntry :=
  { entry with
    entryId := pool.nextEntryId
    feeDelta := (pool.mapDeltas.lookup entry.txid).getD 0 }

/-- The pool with a new entry in its maps, without links. -/
def insertEntry (pool : TxMemPool) (mapTx : IndexedTransactionSet) (entry : CTxMemPoolEntry) :
    TxMemPool :=
  { pool with
    mapTx := mapTx
    mapLinks :=
      if entry.entryId ∈ pool.mapLinks then pool.mapLinks
      else pool.mapLinks.insert entry.entryId .empty
    cachedInnerUsage := pool.cachedInnerUsage + entry.nUsageSize
    mapNextTx := entry.prevouts.zipIdx.foldl (emplaceNextTx entry.tx) pool.mapNextTx
    nextEntryId := (pool.nextEntryId + 1) % 2 ^ 64 }

/-- Link a new entry to its parents in the pool. -/
def linkEntry (env : MempoolEnv) (pool : TxMemPool) (entry : CTxMemPoolEntry) :
    Except Failure TxMemPool :=
  let parents := pool.getIterSet (entry.prevouts.map COutPoint.txid).toFinset
  ((parents.sort (· ≤ ·)).foldl (fun pool pit => pool.updateParent env entry.entryId pit true)
    pool).updateParentsOf env true entry.entryId

/-- `addUnchecked`. -/
def addUnchecked (env : MempoolEnv) (pool : TxMemPool) (entry : CTxMemPoolEntry) :
    Except Failure TxMemPool :=
  let entry := pool.newEntry entry
  match pool.mapTx.insert entry with
  | none => .error (.abort "inserted")
  | some mapTx => do
    require (mapTx.entries.getLast? = some entry)
      (.abort "&*mapTx.get<entry_id>().rbegin() == &*newit")
    let pool ← (pool.insertEntry mapTx entry).linkEntry env entry
    return { pool with totalTxSize := pool.totalTxSize + entry.nTxSize }

/-- `PrioritiseTransaction`. -/
def prioritiseTransaction (pool : TxMemPool) (id : TxId) (nFeeDelta : ℤ) :
    Except Failure TxMemPool := do
  let delta ← addAmount ((pool.mapDeltas.lookup id).getD 0) nFeeDelta
  return { pool with
    mapDeltas := pool.mapDeltas.insert id delta
    mapTx := pool.mapTx.updateFeeDelta id delta }

end TxMemPool

end Pool

end RadiantCore
