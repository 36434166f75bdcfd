import Mathlib.Data.List.ReduceOption
import RadiantCore.SwapAd
import RadiantCore.SwapSlot

/-!
# The database of the swap index

`SwapIndex::WriteBlock` moves the open orders that a block spends to the history and stores the
offers that it advertises. `ProcessDisconnectedBlock` moves them back and deletes open orders that
an advertisement of the block matches, and `PruneOldHistory` deletes old history. All of them find
the records of a table with an iterator that starts at the first key of the table and stops at the
first key of another one.

The records that the index writes are well formed (`WellFormed`) : a record is stored under the key
of its offer. Then the iterators see the records of their table and no others (`mem_tableOffers_iff`),
and the steps of the index act on each slot as the steps of `SlotState` do
(`slotState_writeBlock`, `slotState_processDisconnectedBlock`, `slotState_deleteHistoryOlderThan`).
-/

namespace RadiantCore

open List OrderedStore

/-- The database of the index. -/
abbrev SwapDB := OrderedStore (List UInt8) (List UInt8)

/-! ## Iterators -/

/-- `CDBIterator::GetKey`, of a byte vector. -/
def getKey (key : List UInt8) : Option (List UInt8) := (Reader.bytes key).toOption.map Prod.fst

/-- `CDBIterator::GetValue`, of an offer. -/
def getValue (value : List UInt8) : Option SwapOffer :=
  (SwapOffer.unserialize value).toOption.map Prod.fst

/-- The records that a loop from `MakeTypeSeekKey` visits before it breaks. -/
def tableRecords (db : SwapDB) (table : UInt8) : List (List UInt8 × List UInt8) :=
  (db.seek (serializeBytes (makeTypeSeekKey table))).takeWhile fun record =>
    (getKey record.1).bind head? = some table

/-- The keys and the offers that such a loop reads. -/
def tableOffers (db : SwapDB) (table : UInt8) : List (List UInt8 × SwapOffer) :=
  (tableRecords db table).filterMap fun record => do
    let key ← getKey record.1
    let offer ← getValue record.2
    return (key, offer)

/-! ## Moving orders -/

/-- The updates of the two records of an offer. -/
def offerUpdates (table wantTable : UInt8) (offer : SwapOffer) (value : Option (List UInt8)) :
    List (List UInt8 × Option (List UInt8)) :=
  (serializeBytes (makeKey table offer), value) ::
    if offer.wantTokenID.isNull then [] else [(serializeBytes (makeWantKey wantTable offer), value)]

/-- An offer is deleted from two tables and added to two others. -/
def moveOrder (table wantTable table' wantTable' : UInt8) (db : SwapDB) (offer : SwapOffer) :
    SwapDB :=
  db.write (offerUpdates table wantTable offer none ++
    offerUpdates table' wantTable' offer (some offer.serialize))

/-- `MoveOrderToHistory`. -/
def moveOrderToHistory : SwapDB → SwapOffer → SwapDB :=
  moveOrder dbOpenOrder dbOpenWant dbHistory dbHistoryWant

/-- `MoveOrderToOpen`. -/
def moveOrderToOpen : SwapDB → SwapOffer → SwapDB :=
  moveOrder dbHistory dbHistoryWant dbOpenOrder dbOpenWant

/-- `DeleteHistoryOlderThan`. -/
def deleteHistoryOlderThan (db : SwapDB) (cutoffHeight : Int32) : SwapDB :=
  let older := fun table => (tableOffers db table).filter (·.2.blockHeight < cutoffHeight)
  db.write ((older dbHistory ++ older dbHistoryWant).map fun record =>
    (serializeBytes record.1, none))

/-! ## Well-formed records -/

/-- The records of the index. The value of an order can be read, and the key is that of its offer. -/
inductive IsRecord : List UInt8 × List UInt8 → Prop
  | bestBlock (value : List UInt8) : IsRecord ([dbBestBlock], value)
  | version (value : List UInt8) : IsRecord (serializeBytes [dbVersion], value)
  | order {table : UInt8} {offer : SwapOffer} {value : List UInt8} :
      table ∈ [dbOpenOrder, dbHistory] → getValue value = some offer →
      IsRecord (offer.slot.orderKey table, value)
  | want {table : UInt8} {offer : SwapOffer} {want : Uint256} {value : List UInt8} :
      table ∈ [dbOpenWant, dbHistoryWant] → getValue value = some offer → offer.Wants want →
      IsRecord (offer.slot.wantKey table want, value)

/-- Every record of the database is well formed. -/
def WellFormed (db : SwapDB) : Prop := ∀ record ∈ db.entries, IsRecord record

/-- The offer in a table of slots. -/
def order? (db : SwapDB) (table : UInt8) (slot : Slot) : Option SwapOffer :=
  (db.find? (slot.orderKey table)).bind getValue

/-- The offer in a table by wanted token. -/
def wantOrder? (db : SwapDB) (table : UInt8) (want : Uint256) (slot : Slot) : Option SwapOffer :=
  (db.find? (slot.wantKey table want)).bind getValue

/-- What the database holds for a slot. -/
def slotState (db : SwapDB) (slot : Slot) : SlotState where
  openOrder := order? db dbOpenOrder slot
  openWant want := wantOrder? db dbOpenWant want slot
  history := order? db dbHistory slot
  historyWant want := wantOrder? db dbHistoryWant want slot

/-! ## Reading records -/

@[simp] theorem getValue_serialize {offer : SwapOffer} (h : offer.Readable) :
    getValue offer.serialize = some offer := by
  have hread := SwapOffer.unserialize_reads h []
  rw [append_nil] at hread
  rw [getValue, hread]
  rfl

theorem getKey_serializeBytes {key : List UInt8} (h : key.length ≤ maxSize) :
    getKey (serializeBytes key) = some key := by
  have hread := Reader.bytes_reads h []
  rw [append_nil] at hread
  rw [getKey, hread]
  rfl

@[simp] theorem getKey_key (slot : Slot) (table : UInt8) (want? : Option Uint256) :
    getKey (slot.key table want?) = some (table :: slot.keyBytes want?) := by
  rw [← slot.serializeBytes_key]
  refine getKey_serializeBytes ?_
  rw [length_cons, slot.length_keyBytes]
  cases want? <;> norm_num [maxSize]

section WellFormed

variable {db : SwapDB} {table : UInt8} {slot : Slot} {offer : SwapOffer} {want? : Option Uint256}

/-- The letters of the tables. -/
def orderTables : List UInt8 := [dbOpenOrder, dbHistory, dbOpenWant, dbHistoryWant]

/-- The table of the open orders, by slot or by wanted token. -/
def openTable (byWant : Bool) : UInt8 := if byWant then dbOpenWant else dbOpenOrder

/-- The table of the history. -/
def historyTable (byWant : Bool) : UInt8 := if byWant then dbHistoryWant else dbHistory

/-- The two tables of slots, or those by wanted token. -/
def keyTables (byWant : Bool) : List UInt8 := [openTable byWant, historyTable byWant]

theorem forall_keyTables {p : Bool → UInt8 → Prop}
    (h : ∀ byWant, p byWant (openTable byWant) ∧ p byWant (historyTable byWant)) :
    ∀ byWant, ∀ table ∈ keyTables byWant, p byWant table := by
  simpa [keyTables] using h

theorem forall_orderTables {p : UInt8 → Prop}
    (h : p dbOpenOrder ∧ p dbHistory ∧ p dbOpenWant ∧ p dbHistoryWant) :
    ∀ table ∈ orderTables, p table := by
  simpa [orderTables] using h

theorem mem_orderTables : ∀ byWant, ∀ table ∈ keyTables byWant, table ∈ orderTables :=
  forall_keyTables (by decide)

theorem keyLenForPrefix_eq : ∀ byWant, ∀ table ∈ keyTables byWant,
    keyLenForPrefix table = if byWant then 101 else 69 :=
  forall_keyTables (by decide)

theorem eq_none_of_mem_keyTables {want? : Option Uint256} (h : table ∈ keyTables want?.isSome)
    (htable : table ∈ [dbOpenOrder, dbHistory]) : want? = none := by
  have hfalse : ∀ byWant, ∀ table ∈ keyTables byWant, table ∈ [dbOpenOrder, dbHistory] →
      byWant = false := forall_keyTables (by decide)
  simpa using hfalse _ _ h htable

/-- What the keys of a table start with. -/
def tableHead (table : UInt8) : List UInt8 := [UInt8.ofNat (keyLenForPrefix table), table]

/-- The offer under a key. -/
def offer? (db : SwapDB) (table : UInt8) (want? : Option Uint256) (slot : Slot) : Option SwapOffer :=
  (db.find? (slot.key table want?)).bind getValue

/-- The offer has what a key says it wants. -/
def SwapOffer.WantsKey (offer : SwapOffer) (want? : Option Uint256) : Prop :=
  ∀ want ∈ want?, offer.Wants want

@[simp] theorem SwapOffer.wantsKey_none (offer : SwapOffer) : offer.WantsKey none :=
  fun _ h => by cases h

@[simp] theorem SwapOffer.wantsKey_some (offer : SwapOffer) {want : Uint256} :
    offer.WantsKey (some want) ↔ offer.Wants want := by simp [WantsKey]

instance (offer : SwapOffer) : DecidablePred offer.WantsKey
  | none => isTrue offer.wantsKey_none
  | some _ => decidable_of_iff _ offer.wantsKey_some.symm

theorem key_eq (h : table ∈ keyTables want?.isSome) (slot : Slot) :
    slot.key table want? = tableHead table ++ slot.keyBytes want? := by
  rw [tableHead, keyLenForPrefix_eq _ _ h]
  cases want? <;> rfl

/-- A record is one of the two that are no orders, or it is an order. -/
theorem IsRecord.cases_key {record : List UInt8 × List UInt8} (h : IsRecord record) :
    record.1 = [dbBestBlock] ∨ record.1 = serializeBytes [dbVersion] ∨
      ∃ (table : UInt8) (want? : Option Uint256) (offer : SwapOffer), table ∈ keyTables want?.isSome ∧
        getValue record.2 = some offer ∧ offer.WantsKey want? ∧
        record.1 = offer.slot.key table want? := by
  cases h with
  | bestBlock => exact Or.inl rfl
  | version => exact Or.inr (Or.inl rfl)
  | @order table offer _ htable hread =>
    exact Or.inr (Or.inr ⟨table, none, offer, htable, hread, offer.wantsKey_none, rfl⟩)
  | @want table offer want _ htable hread hwants =>
    exact Or.inr (Or.inr ⟨table, some want, offer, htable, hread,
      offer.wantsKey_some.mpr hwants, rfl⟩)

theorem isRecord_key {value : List UInt8} (htable : table ∈ keyTables want?.isSome)
    (hread : getValue value = some offer) (hwants : offer.WantsKey want?) :
    IsRecord (offer.slot.key table want?, value) := by
  cases want? with
  | none => exact .order htable hread
  | some want => exact .want htable hread (hwants want rfl)

/-- The key of a record is of the table it starts with. -/
theorem IsRecord.table_iff {record : List UInt8 × List UInt8} (h : IsRecord record)
    (htable : table ∈ orderTables) :
    (getKey record.1).bind head? = some table ↔ tableHead table <+: record.1 := by
  obtain ⟨key, value⟩ := record
  obtain rfl | rfl | ⟨table', want?, offer, htable', -, -, rfl⟩ := h.cases_key
  · have hkey : getKey [dbBestBlock] = none := rfl
    simp [hkey, tableHead, cons_prefix_cons]
  · have hversion : ∀ table ∈ orderTables, (getKey (serializeBytes [dbVersion])).bind head? =
        some table ↔ tableHead table <+: serializeBytes [dbVersion] :=
      forall_orderTables (by decide)
    exact hversion table htable
  · rw [getKey_key, key_eq htable', Option.bind_some, head?_cons, Option.some_inj]
    constructor
    · rintro rfl
      exact prefix_append _ _
    · intro hprefix
      simp only [tableHead, cons_append, cons_prefix_cons] at hprefix
      exact hprefix.2.1.symm

/-- The first key of a table. -/
theorem serializeBytes_makeTypeSeekKey (htable : table ∈ orderTables) :
    serializeBytes (makeTypeSeekKey table) =
      tableHead table ++ replicate (keyLenForPrefix table - 1) 0 := by
  revert table
  exact @(forall_orderTables (by decide))

/-- The length of a key of a table. -/
theorem IsRecord.length_eq {record : List UInt8 × List UInt8} (h : IsRecord record)
    (htable : table ∈ orderTables) {rest : List UInt8} (hkey : record.1 = tableHead table ++ rest) :
    rest.length = keyLenForPrefix table - 1 := by
  obtain ⟨key, value⟩ := record
  obtain rfl | rfl | ⟨table', want?, offer, htable', -, -, rfl⟩ := h.cases_key
  · simp [tableHead] at hkey
  · obtain rfl : dbVersion = table := (cons.inj (cons.inj hkey).2).1
    exact absurd htable (by decide)
  · rw [key_eq htable'] at hkey
    obtain ⟨hhead, rfl⟩ := append_inj hkey rfl
    obtain rfl : table' = table := (cons.inj (cons.inj hhead).2).1
    rw [offer.slot.length_keyBytes, keyLenForPrefix_eq _ _ htable']
    cases want? <;> rfl

/-- A loop over a table visits the records of the table. -/
theorem tableRecords_eq (h : WellFormed db) (htable : table ∈ orderTables) :
    tableRecords db table =
      db.entries.filter fun record => (getKey record.1).bind head? = some table := by
  refine takeWhile_seek_eq_filter db _ (fun record hrecord htype => ?_)
    fun a ha b hb hka hab htype => ?_
  · obtain ⟨rest, hrest⟩ := ((h record hrecord).table_iff htable).mp (by simpa using htype)
    rw [serializeBytes_makeTypeSeekKey htable, ← hrest, append_le_append_iff_lex,
      ← (h record hrecord).length_eq htable hrest.symm]
    exact replicate_le (fun _ => UInt8.zero_le) rest
  · obtain ⟨rest, hrest⟩ := ((h b hb).table_iff htable).mp (by simpa using htype)
    rw [serializeBytes_makeTypeSeekKey htable] at hka
    have hle : a.1 ≤ tableHead table ++ rest := by
      rw [hrest]
      exact hab.le
    exact decide_eq_true (((h a ha).table_iff htable).mpr (isPrefix_of_between hka hle))

theorem WellFormed.offer?_eq_some_iff (h : WellFormed db) :
    offer? db table want? slot = some offer ↔ offer.slot = slot ∧ offer.WantsKey want? ∧
      ∃ value, (offer.slot.key table want?, value) ∈ db.entries ∧ getValue value = some offer := by
  rw [offer?, Option.bind_eq_some_iff]
  constructor
  · rintro ⟨value, hvalue, hread⟩
    have hmem := find?_eq_some_iff.mp hvalue
    obtain hkey | hkey | ⟨table', want?', offer', -, hread', hwants, hkey⟩ := (h _ hmem).cases_key
    · cases want? <;> simp [Slot.key, Slot.orderKey, Slot.wantKey] at hkey
    · cases want? <;> simp [Slot.key, Slot.orderKey, Slot.wantKey, serializeBytes,
        writeCompactSize, writeLE] at hkey
    · obtain ⟨rfl, rfl, rfl⟩ := Slot.key_inj.mp hkey
      obtain rfl : offer' = offer := Option.some.inj (hread'.symm.trans hread)
      exact ⟨rfl, hwants, value, hmem, hread⟩
  · rintro ⟨rfl, -, value, hmem, hread⟩
    exact ⟨value, find?_eq_some_iff.mpr hmem, hread⟩

theorem WellFormed.order?_eq_some_iff (h : WellFormed db) :
    order? db table slot = some offer ↔ offer.slot = slot ∧
      ∃ value, (offer.slot.orderKey table, value) ∈ db.entries ∧ getValue value = some offer :=
  (@WellFormed.offer?_eq_some_iff db table slot offer none h).trans
    (and_congr_right fun _ => and_iff_right offer.wantsKey_none)

theorem mem_tableOffers_iff {key : List UInt8} :
    (key, offer) ∈ tableOffers db table ↔ ∃ record ∈ tableRecords db table,
      getKey record.1 = some key ∧ getValue record.2 = some offer := by
  simp only [tableOffers, mem_filterMap]
  refine exists_congr fun record => and_congr_right fun _ => ?_
  cases getKey record.1 with
  | none => simp
  | some key' =>
    cases getValue record.2 with
    | none => simp
    | some offer' => simp

/-- The records of a table. -/
theorem IsRecord.cases_of_table {record : List UInt8 × List UInt8} (h : IsRecord record)
    (htable : table ∈ orderTables) (htype : (getKey record.1).bind head? = some table) :
    ∃ (want? : Option Uint256) (offer : SwapOffer), table ∈ keyTables want?.isSome ∧
      getValue record.2 = some offer ∧ offer.WantsKey want? ∧
      record.1 = offer.slot.key table want? := by
  obtain ⟨key, value⟩ := record
  obtain rfl | rfl | ⟨table', want?, offer, htable', hread, hwants, rfl⟩ := h.cases_key
  · cases htype
  · obtain rfl : dbVersion = table := Option.some.inj htype
    exact absurd htable (by decide)
  · rw [getKey_key, Option.bind_some, head?_cons, Option.some_inj] at htype
    subst htype
    exact ⟨want?, offer, htable', hread, hwants, rfl⟩

/-- The offers of a table. -/
theorem WellFormed.mem_tableOffers_iff (h : WellFormed db) (htable : table ∈ orderTables)
    {key : List UInt8} : (key, offer) ∈ tableOffers db table ↔
      ∃ want?, table ∈ keyTables want?.isSome ∧ key = table :: offer.slot.keyBytes want? ∧
        offer? db table want? offer.slot = some offer := by
  rw [RadiantCore.mem_tableOffers_iff, tableRecords_eq h htable]
  simp only [mem_filter, decide_eq_true_eq, h.offer?_eq_some_iff]
  constructor
  · rintro ⟨⟨key', value⟩, ⟨hrecord, htype⟩, hkey, hvalue⟩
    obtain ⟨want?, offer', htable', hread, hwants, rfl⟩ :=
      (h _ hrecord).cases_of_table htable htype
    obtain rfl : offer' = offer := Option.some.inj (hread.symm.trans hvalue)
    rw [getKey_key, Option.some_inj] at hkey
    exact ⟨want?, htable', hkey.symm, trivial, hwants, value, hrecord, hread⟩
  · rintro ⟨want?, htable', rfl, -, -, value, hrecord, hread⟩
    refine ⟨_, ⟨hrecord, ?_⟩, getKey_key _ _ _, hread⟩
    rw [getKey_key]
    rfl

/-- The offers of a table of slots. -/
theorem WellFormed.mem_orders_iff (h : WellFormed db) (htable : table ∈ [dbOpenOrder, dbHistory])
    {key : List UInt8} : (key, offer) ∈ tableOffers db table ↔
      key = table :: offer.slot.bytes ∧ order? db table offer.slot = some offer := by
  rw [h.mem_tableOffers_iff (mem_orderTables false _ htable)]
  constructor
  · rintro ⟨want?, htable', hkey, hoffer⟩
    obtain rfl := eq_none_of_mem_keyTables htable' htable
    exact ⟨hkey, hoffer⟩
  · rintro ⟨hkey, hoffer⟩
    exact ⟨none, htable, hkey, hoffer⟩

/-! ## Updates -/

theorem wellFormed_empty : WellFormed empty := fun _ h => absurd h not_mem_nil

theorem WellFormed.write (h : WellFormed db) {batch : List (List UInt8 × Option (List UInt8))}
    (hbatch : ∀ update ∈ batch, ∀ value ∈ update.2, IsRecord (update.1, value)) :
    WellFormed (db.write batch) := by
  induction batch generalizing db with
  | nil => exact h
  | cons update batch ih =>
    obtain ⟨hupdate, hbatch⟩ := forall_mem_cons.mp hbatch
    refine ih (fun record hrecord => ?_) hbatch
    obtain ⟨key, value?⟩ := update
    have hfind := find?_eq_some_iff.mpr hrecord
    rw [find?_update] at hfind
    split_ifs at hfind with hkey
    · subst hkey
      exact hupdate _ hfind
    · exact h _ (find?_eq_some_iff.mp hfind)

/-- An offer is stored under its slot, and under its slot and what it wants. -/
theorem mem_offerUpdates_iff {wantTable : UInt8} {value : Option (List UInt8)}
    {update : List UInt8 × Option (List UInt8)} :
    update ∈ offerUpdates table wantTable offer value ↔ ∃ want?, offer.WantsKey want? ∧
      update = (offer.slot.key (if want?.isSome then wantTable else table) want?, value) := by
  rw [offerUpdates, serializeBytes_makeKey, serializeBytes_makeWantKey, mem_cons]
  constructor
  · rintro (rfl | hupdate)
    · exact ⟨none, offer.wantsKey_none, rfl⟩
    · split_ifs at hupdate with hnull
      · cases hupdate
      · exact ⟨some offer.wantTokenID, offer.wantsKey_some.mpr ⟨by simpa using hnull, rfl⟩,
          mem_singleton.mp hupdate⟩
  · rintro ⟨_ | want, hwants, rfl⟩
    · exact Or.inl rfl
    · obtain ⟨hnull, rfl⟩ := offer.wantsKey_some.mp hwants
      rw [hnull, if_neg Bool.false_ne_true]
      exact Or.inr (mem_singleton_self _)

theorem isRecord_offerUpdates {wantTable : UInt8} (htable : table ∈ [dbOpenOrder, dbHistory])
    (hwantTable : wantTable ∈ [dbOpenWant, dbHistoryWant]) (hoffer : offer.Readable) :
    ∀ update ∈ offerUpdates table wantTable offer (some offer.serialize), ∀ value ∈ update.2,
      IsRecord (update.1, value) := by
  intro update hupdate value hvalue
  obtain ⟨want?, hwants, rfl⟩ := mem_offerUpdates_iff.mp hupdate
  obtain rfl := Option.some.inj hvalue
  refine isRecord_key ?_ (getValue_serialize hoffer) hwants
  cases want? with
  | none => exact htable
  | some want => exact hwantTable

theorem SwapOffer.Readable.atHeight {offer : SwapOffer} (h : offer.Readable) (nHeight : Int32) :
    (offer.atHeight nHeight).Readable := ⟨h.priceTerms, h.signature⟩

section Find

variable (db : SwapDB) (table wantTable table' wantTable' table'' : UInt8) (want? : Option Uint256)
  (slot : Slot)

theorem offer?_offerUpdates (value : Option (List UInt8)) :
    offer? (db.write (offerUpdates table wantTable offer value)) table' want? slot =
      if (if want?.isSome then wantTable else table) = table' ∧ offer.slot = slot ∧
        offer.WantsKey want? then value.bind getValue else offer? db table' want? slot := by
  unfold offer?
  obtain ⟨update, hupdate, hkey, hfind⟩ | ⟨hnone, hsame⟩ := db.find?_write_cases
    (offerUpdates table wantTable offer value) (slot.key table' want?)
  · obtain ⟨want?', hwants, rfl⟩ := mem_offerUpdates_iff.mp hupdate
    obtain ⟨htable, rfl, hslot⟩ := Slot.key_inj.mp hkey
    rw [hfind, htable, if_pos ⟨rfl, hslot, hwants⟩]
  · rw [hsame, if_neg]
    rintro ⟨rfl, rfl, hwants⟩
    exact hnone _ (mem_offerUpdates_iff.mpr ⟨want?, hwants, rfl⟩) rfl

theorem offer?_moveOrder (hoffer : offer.Readable) :
    offer? (moveOrder table wantTable table' wantTable' db offer) table'' want? slot =
      if (if want?.isSome then wantTable' else table') = table'' ∧ offer.slot = slot ∧
        offer.WantsKey want? then some offer
      else if (if want?.isSome then wantTable else table) = table'' ∧ offer.slot = slot ∧
        offer.WantsKey want? then none else offer? db table'' want? slot := by
  rw [moveOrder, write_append, offer?_offerUpdates, offer?_offerUpdates,
    Option.bind_some, getValue_serialize hoffer, Option.bind_none]

theorem slotState_eq : slotState db slot = ⟨offer? db dbOpenOrder none slot,
    fun want => offer? db dbOpenWant (some want) slot, offer? db dbHistory none slot,
    fun want => offer? db dbHistoryWant (some want) slot⟩ := rfl

theorem tables_ne : dbHistory ≠ dbOpenOrder ∧ dbHistoryWant ≠ dbOpenWant ∧
    dbOpenOrder ≠ dbHistory ∧ dbOpenWant ≠ dbHistoryWant := by decide

theorem slotState_moveOrderToHistory (hoffer : offer.Readable) (slot : Slot) :
    slotState (moveOrderToHistory db offer) slot =
      if offer.slot = slot then (slotState db slot).moveToHistory offer else slotState db slot := by
  rw [slotState_eq, slotState_eq, moveOrderToHistory]
  split_ifs with hslot
  · simp [offer?_moveOrder, hoffer, tables_ne, hslot]
    rfl
  · simp [offer?_moveOrder, hoffer, hslot]

theorem slotState_moveOrderToOpen (hoffer : offer.Readable) (slot : Slot) :
    slotState (moveOrderToOpen db offer) slot =
      if offer.slot = slot then (slotState db slot).moveToOpen offer else slotState db slot := by
  rw [slotState_eq, slotState_eq, moveOrderToOpen]
  split_ifs with hslot
  · simp [offer?_moveOrder, hoffer, tables_ne, hslot]
    rfl
  · simp [offer?_moveOrder, hoffer, hslot]

end Find

theorem WellFormed.moveOrder {wantTable table' wantTable' : UInt8} (h : WellFormed db)
    (htable : table' ∈ [dbOpenOrder, dbHistory])
    (hwantTable : wantTable' ∈ [dbOpenWant, dbHistoryWant]) (hoffer : offer.Readable) :
    WellFormed (moveOrder table wantTable table' wantTable' db offer) := by
  refine h.write fun update hupdate value hvalue => ?_
  rcases mem_append.mp hupdate with hupdate | hupdate
  · -- the first updates erase
    obtain ⟨_, -, rfl⟩ := mem_offerUpdates_iff.mp hupdate
    cases hvalue
  · exact isRecord_offerUpdates htable hwantTable hoffer update hupdate value hvalue

/-- Offers that are moved one after the other. -/
theorem slotState_foldl {move : SwapDB → SwapOffer → SwapDB}
    {step : SwapOffer → SlotState → SlotState} {offers : List SwapOffer}
    (hmove : ∀ db, ∀ offer ∈ offers, slotState (move db offer) slot =
      if offer.slot = slot then step offer (slotState db slot) else slotState db slot) :
    slotState (offers.foldl move db) slot =
      (offers.filter (·.slot = slot)).foldl (fun s offer => step offer s) (slotState db slot) := by
  induction offers generalizing db with
  | nil => rfl
  | cons offer offers ih =>
    obtain ⟨hfirst, hrest⟩ : (∀ db, slotState (move db offer) slot =
        if offer.slot = slot then step offer (slotState db slot) else slotState db slot) ∧ _ :=
      ⟨fun db => hmove db offer mem_cons_self,
        fun db o ho => hmove db o (mem_cons_of_mem offer ho)⟩
    rw [foldl_cons, ih hrest, hfirst, filter_cons]
    by_cases hslot : offer.slot = slot
    · rw [if_pos hslot, if_pos (decide_eq_true hslot), foldl_cons]
    · rw [if_neg hslot, if_neg (by simpa using hslot)]

theorem WellFormed.readable (h : WellFormed db) {record : List UInt8 × SwapOffer}
    (htable : table ∈ [dbOpenOrder, dbHistory]) (hrecord : record ∈ tableOffers db table) :
    record.2.Readable := by
  obtain ⟨-, value, -, hread⟩ := h.order?_eq_some_iff.mp ((h.mem_orders_iff htable).mp hrecord).2
  obtain ⟨p, hp, hfst⟩ := Option.map_eq_some_iff.mp hread
  rw [← hfst]
  exact SwapOffer.readable_of_unserialize (toOption_eq_some_iff.mp hp)

/-- The offers of a table whose outputs are in a set are moved. -/
theorem WellFormed.slotState_foldl (h : WellFormed db) (htable : table ∈ [dbOpenOrder, dbHistory])
    {move : SwapDB → SwapOffer → SwapDB} {step : SwapOffer → SlotState → SlotState}
    {change : SwapOffer → SwapOffer} {outpoints : List COutPoint}
    (hchange : ∀ offer : SwapOffer, (change offer).slot = offer.slot)
    (hmove : ∀ db, ∀ offer : SwapOffer, offer.Readable →
      slotState (move db (change offer)) slot = if offer.slot = slot
        then step (change offer) (slotState db slot) else slotState db slot)
    (hstep : ∀ offer s, step offer (step offer s) = step offer s) :
    slotState (((tableOffers db table).filter (·.2.slot.outpoint ∈ outpoints)).foldl
      (fun db record => move db (change record.2)) db) slot =
      if slot.outpoint ∈ outpoints then (order? db table slot).elim (slotState db slot)
        fun offer => step (change offer) (slotState db slot)
      else slotState db slot := by
  rw [← @List.foldl_map _ _ _ fun record : List UInt8 × SwapOffer => change record.2,
    RadiantCore.slotState_foldl]
  · have hmem : ∀ offer, offer ∈ (((tableOffers db table).filter
        (·.2.slot.outpoint ∈ outpoints)).map fun record => change record.2).filter (·.slot = slot) ↔
        (if slot.outpoint ∈ outpoints then (order? db table slot).map change else none) =
          some offer := by
      intro offer
      simp only [mem_filter, mem_map, decide_eq_true_eq, Prod.exists,
        h.mem_orders_iff htable]
      constructor
      · rintro ⟨⟨key, old, ⟨⟨-, horder⟩, hout⟩, rfl⟩, hslot⟩
        rw [hchange] at hslot
        subst hslot
        rw [if_pos hout, horder]
        rfl
      · intro heq
        split_ifs at heq with hout
        obtain ⟨old, horder, rfl⟩ := Option.map_eq_some_iff.mp heq
        obtain ⟨rfl, -⟩ := h.order?_eq_some_iff.mp horder
        exact ⟨⟨_, old, ⟨⟨rfl, horder⟩, hout⟩, rfl⟩, hchange old⟩
    rw [SlotState.foldl_eq_elim hstep hmem]
    split_ifs
    · cases order? db table slot with
      | none => rfl
      | some offer => rfl
    · rfl
  · intro db' offer hoffer
    obtain ⟨record, hrecord, rfl⟩ := mem_map.mp hoffer
    rw [hmove db' record.2 (h.readable htable (mem_filter.mp hrecord).1), hchange]

/-- Offers that are stored one after the other. -/
theorem slotState_write_offers (db : SwapDB) {offers : List SwapOffer}
    (hoffers : ∀ offer ∈ offers, offer.Readable) (slot : Slot) :
    slotState (db.write (offers.flatMap fun offer =>
      offerUpdates dbOpenOrder dbOpenWant offer (some offer.serialize))) slot =
      (offers.filter (·.slot = slot)).foldl SlotState.advertise (slotState db slot) := by
  rw [← foldl_write]
  refine slotState_foldl fun db offer hoffer => ?_
  simp only [slotState_eq, offer?_offerUpdates, Option.bind_some,
    getValue_serialize (hoffers offer hoffer), tables_ne, Option.isSome_none, Option.isSome_some,
    Bool.false_eq_true, if_true, if_false, false_and, true_and, SwapOffer.wantsKey_none,
    SwapOffer.wantsKey_some, and_true]
  split_ifs with hslot
  · simp only [hslot, true_and]
    rfl
  · simp only [hslot, false_and, if_false]

/-! ## Deleting old history -/

/-- What is left of a table when some keys are erased. -/
theorem offer?_write_erase (db : SwapDB) (keys : List (List UInt8)) (table : UInt8)
    (want? : Option Uint256) (slot : Slot) :
    offer? (db.write (keys.map fun key => (key, none))) table want? slot =
      if slot.key table want? ∈ keys then none else offer? db table want? slot := by
  rw [offer?, find?_write_erase]
  split_ifs
  · rfl
  · rfl

theorem WellFormed.write_erase (h : WellFormed db) (keys : List (List UInt8)) :
    WellFormed (db.write (keys.map fun key => (key, none))) := by
  refine h.write fun update hupdate value hvalue => ?_
  obtain ⟨key, -, rfl⟩ := mem_map.mp hupdate
  cases hvalue

/-- A filtered option, by an option that says what is dropped. -/
theorem ite_none_eq_filter {α : Type} {a : Option α} {p : α → Bool} {c : Prop} [Decidable c]
    (h : c ↔ ∃ x, a = some x ∧ p x = false) : (if c then none else a) = a.filter p := by
  cases a with
  | none =>
    rw [Option.filter_none, if_neg]
    rw [h]
    simp
  | some x =>
    rw [Option.filter_some]
    cases hp : p x with
    | true => simp [h, hp]
    | false => simp [h, hp]

/-- The keys that `DeleteHistoryOlderThan` deletes. -/
def oldKeys (db : SwapDB) (cutoffHeight : Int32) : List (List UInt8) :=
  let older := fun table => (tableOffers db table).filter (·.2.blockHeight < cutoffHeight)
  (older dbHistory ++ older dbHistoryWant).map fun record => serializeBytes record.1

theorem deleteHistoryOlderThan_eq (db : SwapDB) (cutoffHeight : Int32) :
    deleteHistoryOlderThan db cutoffHeight =
      db.write ((oldKeys db cutoffHeight).map fun key => (key, none)) := by
  rw [deleteHistoryOlderThan, oldKeys, map_map]
  rfl

theorem mem_oldKeys_iff {cutoffHeight : Int32} {key : List UInt8} :
    key ∈ oldKeys db cutoffHeight ↔ ∃ table ∈ [dbHistory, dbHistoryWant], ∃ record ∈
      tableOffers db table, record.2.blockHeight < cutoffHeight ∧ serializeBytes record.1 = key := by
  simp only [oldKeys, mem_map, mem_append, mem_filter, decide_eq_true_eq,
    mem_cons, not_mem_nil, or_false]
  constructor
  · rintro ⟨record, ⟨hmem, hlt⟩ | ⟨hmem, hlt⟩, hkey⟩
    · exact ⟨_, Or.inl rfl, record, hmem, hlt, hkey⟩
    · exact ⟨_, Or.inr rfl, record, hmem, hlt, hkey⟩
  · rintro ⟨_, rfl | rfl, record, hmem, hlt, hkey⟩
    · exact ⟨record, Or.inl ⟨hmem, hlt⟩, hkey⟩
    · exact ⟨record, Or.inr ⟨hmem, hlt⟩, hkey⟩

theorem WellFormed.key_mem_oldKeys_iff (h : WellFormed db) {cutoffHeight : Int32} :
    slot.key table want? ∈ oldKeys db cutoffHeight ↔ table = historyTable want?.isSome ∧
      ∃ offer, offer? db table want? slot = some offer ∧ offer.blockHeight < cutoffHeight := by
  have htables : ∀ table ∈ [dbHistory, dbHistoryWant], table ∈ orderTables ∧
      ∀ byWant, table ∈ keyTables byWant → table = historyTable byWant :=
    forall_mem_cons.mpr ⟨by decide, forall_mem_singleton.mpr (by decide)⟩
  have hhistory : ∀ byWant, historyTable byWant ∈ [dbHistory, dbHistoryWant] := by decide
  rw [mem_oldKeys_iff]
  constructor
  · rintro ⟨table', htable, ⟨key, offer⟩, hmem, hlt, hkey⟩
    obtain ⟨want?', htable', rfl, hoffer⟩ := (h.mem_tableOffers_iff (htables _ htable).1).mp hmem
    obtain ⟨rfl, rfl, rfl⟩ := Slot.key_inj.mp ((Slot.serializeBytes_key _ _ _).symm.trans hkey)
    exact ⟨(htables _ htable).2 _ htable', offer, hoffer, hlt⟩
  · rintro ⟨rfl, offer, hoffer, hlt⟩
    obtain ⟨rfl, -⟩ := h.offer?_eq_some_iff.mp hoffer
    exact ⟨_, hhistory _, (_, offer), (h.mem_tableOffers_iff (htables _ (hhistory _)).1).mpr
      ⟨want?, mem_cons_of_mem _ mem_cons_self, rfl, hoffer⟩, hlt, Slot.serializeBytes_key _ _ _⟩

theorem WellFormed.deleteHistoryOlderThan (h : WellFormed db) (cutoffHeight : Int32) :
    WellFormed (deleteHistoryOlderThan db cutoffHeight) := by
  rw [deleteHistoryOlderThan_eq]
  exact h.write_erase _

/-- Deleting old history prunes every slot. -/
theorem slotState_deleteHistoryOlderThan (h : WellFormed db) (cutoffHeight : Int32) (slot : Slot) :
    slotState (deleteHistoryOlderThan db cutoffHeight) slot =
      (slotState db slot).prune cutoffHeight := by
  have hheight : ∀ offer : SwapOffer, offer.blockHeight < cutoffHeight ↔
      decide (cutoffHeight ≤ offer.blockHeight) = false := fun offer => by
    rw [decide_eq_false_iff_not, Int32.not_le]
  rw [deleteHistoryOlderThan_eq]
  simp only [slotState_eq, SlotState.prune, offer?_write_erase, h.key_mem_oldKeys_iff, historyTable,
    Option.isSome_none, Option.isSome_some, Bool.false_eq_true, if_true, tables_ne, false_and,
    if_false, true_and]
  congr 1
  · exact ite_none_eq_filter (by simp only [hheight])
  · exact funext fun want => ite_none_eq_filter (by simp only [hheight])

end WellFormed

/-! ## Blocks -/

section Blocks

variable [Crypto]

/-- A block as it is read from a peer or from disk : no script is longer than a vector that can be
read. -/
structure ReadBlock where
  vtx : List CTransaction
  script_le : ∀ tx ∈ vtx, ∀ out ∈ tx.vout, out.scriptPubKey.length ≤ maxSize

/-- The outpoints a block spends. -/
def ReadBlock.spentOutpoints (block : ReadBlock) : List COutPoint := spentBy (regularTxs block.vtx)

/-- The output scripts of a block. -/
def ReadBlock.scripts (block : ReadBlock) : List CScript :=
  (block.vtx.flatMap fun tx => tx.vout).map CTxOut.scriptPubKey

/-- `ProcessSpentOrders`. -/
def processSpentOrders (db : SwapDB) (block : ReadBlock) (height : Int32) : SwapDB :=
  let spentOutpoints := block.spentOutpoints
  if spentOutpoints = [] then db
  else
    let toMove := (tableOffers db dbOpenOrder).filter (·.2.slot.outpoint ∈ spentOutpoints)
    toMove.foldl (fun db record => moveOrderToHistory db (record.2.atHeight height)) db

/-- The offers that a block advertises, in order. -/
def blockOffers (block : ReadBlock) (height : Int32) : Except Failure (List SwapOffer) := do
  let offers ← block.scripts.mapM (swapOffer? height)
  return offers.reduceOption

/-- `WriteBlock`. -/
def writeBlock (db : SwapDB) (block : ReadBlock) (height : Int32) : Except Failure SwapDB := do
  let db := processSpentOrders db block height
  let offers ← blockOffers block height
  return db.write (offers.flatMap fun offer =>
    offerUpdates dbOpenOrder dbOpenWant offer (some offer.serialize))

/-- The open orders that the advertisements of a block match, with repetitions. -/
def matchedOffers (db : SwapDB) (block : ReadBlock) : List (List UInt8 × SwapOffer) :=
  (tableOffers db dbOpenOrder).flatMap fun record => block.scripts.filterMap fun script =>
    if matchAd script = some (record.2.tokenID, record.2.offeredUTXOHash) then some record else none

/-- `ProcessDisconnectedBlock`. The iterator reads the database as it was when it was made, also in
the second loop. -/
def processDisconnectedBlock (db : SwapDB) (block : ReadBlock) : SwapDB :=
  let restoredOutpoints := block.spentOutpoints
  if restoredOutpoints = [] then db
  else
    let toRestore := (tableOffers db dbHistory).filter (·.2.slot.outpoint ∈ restoredOutpoints)
    let restored := toRestore.foldl (fun db record => moveOrderToOpen db record.2) db
    let toDelete := matchedOffers db block
    restored.write (toDelete.map (fun record => (serializeBytes record.1, none)) ++
      (toDelete.filter (!·.2.wantTokenID.isNull)).map fun record =>
        (serializeBytes (makeWantKey dbOpenWant record.2), none))

/-- The block spends the output of the slot. -/
def ReadBlock.spends (block : ReadBlock) (slot : Slot) : Bool :=
  slot.outpoint ∈ block.spentOutpoints

/-- An advertisement of the block matches the slot. -/
def ReadBlock.matchesSlot (block : ReadBlock) (slot : Slot) : Bool :=
  ∃ script ∈ block.scripts, matchAd script = some (slot.tokenID, slot.outpoint.txid)

section Refinement

variable {db db' : SwapDB} {block : ReadBlock} {height : Int32} {offers : List SwapOffer}

theorem blockOffers_eq_ok_iff : blockOffers block height = .ok offers ↔
    ∃ results, List.Forall₂ (fun script result => swapOffer? height script = .ok result)
      block.scripts results ∧ results.reduceOption = offers := by
  simp only [blockOffers, bind_eq_ok_iff, mapM_eq_ok_iff, pure_eq_ok_iff]

theorem mem_blockOffers_iff (h : blockOffers block height = .ok offers) {offer : SwapOffer} :
    offer ∈ offers ↔ ∃ script ∈ block.scripts, swapOffer? height script = .ok (some offer) := by
  obtain ⟨results, hall, rfl⟩ := blockOffers_eq_ok_iff.mp h
  rw [reduceOption_mem_iff]
  clear h
  generalize block.scripts = scripts at hall
  induction hall with
  | nil => simp
  | @cons script result scripts results hresult _ ih =>
    simp only [mem_cons, exists_eq_or_imp, ← ih, hresult, Except.ok.injEq]
    exact or_congr_left eq_comm

/-- The node survives a block without an index that is too long. -/
theorem exists_blockOffers_iff : (∃ offers, blockOffers block height = .ok offers) ↔
    ∀ script ∈ block.scripts, ¬ LongIndex script := by
  simp only [← @swapOffer?_isOk_iff height, ← exists_mapM_eq_ok_iff, blockOffers, bind_eq_ok_iff,
    pure_eq_ok_iff]
  constructor
  · rintro ⟨-, results, h, -⟩
    exact ⟨results, h⟩
  · rintro ⟨results, h⟩
    exact ⟨_, results, h, rfl⟩

theorem length_le_of_mem_scripts {script : CScript} (h : script ∈ block.scripts) :
    script.length ≤ maxSize := by
  obtain ⟨out, hout, rfl⟩ := mem_map.mp h
  obtain ⟨tx, htx, hout⟩ := mem_flatMap.mp hout
  exact block.script_le tx htx out hout

theorem readable_of_mem_blockOffers (h : blockOffers block height = .ok offers) {offer : SwapOffer}
    (hoffer : offer ∈ offers) : offer.Readable := by
  obtain ⟨script, hscript, hparse⟩ := (mem_blockOffers_iff h).mp hoffer
  exact readable_swapOffer? hparse (length_le_of_mem_scripts hscript)

theorem WellFormed.processSpentOrders (h : WellFormed db) :
    WellFormed (processSpentOrders db block height) := by
  unfold RadiantCore.processSpentOrders
  dsimp only
  split_ifs
  · exact h
  · refine foldlRecOn _ _ h fun db' h' record hrecord => ?_
    exact h'.moveOrder (by decide) (by decide)
      ((h.readable (by decide) (mem_filter.mp hrecord).1).atHeight height)

/-- The slots whose output is spent are spent. -/
theorem slotState_processSpentOrders (h : WellFormed db) (slot : Slot) :
    slotState (processSpentOrders db block height) slot =
      if block.spends slot then (slotState db slot).spend height else slotState db slot := by
  unfold processSpentOrders ReadBlock.spends
  dsimp only
  by_cases hnil : block.spentOutpoints = []
  · rw [if_pos hnil, hnil]
    rfl
  · rw [if_neg hnil, h.slotState_foldl (by decide) (fun _ => rfl)
      (fun db offer hoffer => slotState_moveOrderToHistory db (hoffer.atHeight height) slot)
      fun _ _ => SlotState.moveToHistory_moveToHistory _ _]
    simp only [decide_eq_true_eq]
    rfl

theorem writeBlock_eq_ok_iff : writeBlock db block height = .ok db' ↔
    ∃ offers, blockOffers block height = .ok offers ∧
      (processSpentOrders db block height).write (offers.flatMap fun offer =>
        offerUpdates dbOpenOrder dbOpenWant offer (some offer.serialize)) = db' := by
  simp only [writeBlock, bind_eq_ok_iff, pure_eq_ok_iff]

section

variable (h : WellFormed db)

include h

/-- `WriteBlock` stores well-formed records. -/
theorem WellFormed.writeBlock (hwrite : writeBlock db block height = .ok db') : WellFormed db' := by
  obtain ⟨offers, hoffers, rfl⟩ := writeBlock_eq_ok_iff.mp hwrite
  refine h.processSpentOrders.write fun update hupdate => ?_
  obtain ⟨offer, hoffer, hupdate⟩ := mem_flatMap.mp hupdate
  exact isRecord_offerUpdates (by decide) (by decide) (readable_of_mem_blockOffers hoffers hoffer)
    update hupdate

/-- `WriteBlock` writes every slot. -/
theorem slotState_writeBlock (hwrite : writeBlock db block height = .ok db')
    (hoffers : blockOffers block height = .ok offers) (slot : Slot) :
    slotState db' slot = (slotState db slot).write height (block.spends slot)
      (offers.filter (·.slot = slot)) := by
  obtain ⟨offers', hoffers', rfl⟩ := writeBlock_eq_ok_iff.mp hwrite
  obtain rfl := Except.ok.inj (hoffers.symm.trans hoffers')
  rw [slotState_write_offers _ (fun _ => readable_of_mem_blockOffers hoffers) slot,
    slotState_processSpentOrders h slot, SlotState.write]

/-! ### Disconnecting -/

theorem mem_matchedOffers_iff {key : List UInt8} {offer : SwapOffer} :
    (key, offer) ∈ matchedOffers db block ↔ key = dbOpenOrder :: offer.slot.bytes ∧
      order? db dbOpenOrder offer.slot = some offer ∧ block.matchesSlot offer.slot = true := by
  simp only [matchedOffers, mem_flatMap, mem_filterMap, Prod.exists,
    h.mem_orders_iff (show dbOpenOrder ∈ [dbOpenOrder, dbHistory] by decide), ReadBlock.matchesSlot,
    decide_eq_true_eq]
  constructor
  · rintro ⟨key', offer', ⟨rfl, horder⟩, script, hscript, hmatch⟩
    split_ifs at hmatch with heq
    cases hmatch
    exact ⟨rfl, horder, script, hscript, heq⟩
  · rintro ⟨rfl, horder, script, hscript, heq⟩
    exact ⟨_, offer, ⟨rfl, horder⟩, script, hscript, if_pos heq⟩

/-- The keys of the orders that are deleted. -/
def matchedKeys (db : SwapDB) (block : ReadBlock) : List (List UInt8) :=
  (matchedOffers db block).map (fun record => serializeBytes record.1) ++
    ((matchedOffers db block).filter (!·.2.wantTokenID.isNull)).map fun record =>
      serializeBytes (makeWantKey dbOpenWant record.2)

theorem key_mem_matchedKeys_iff {table : UInt8} {want? : Option Uint256} {slot : Slot} :
    slot.key table want? ∈ matchedKeys db block ↔ table = openTable want?.isSome ∧
      (∃ offer, order? db dbOpenOrder slot = some offer ∧ offer.WantsKey want?) ∧
      block.matchesSlot slot = true := by
  simp only [matchedKeys, mem_append, mem_map, mem_filter, Prod.exists,
    mem_matchedOffers_iff h, Bool.not_eq_true', serializeBytes_makeWantKey]
  constructor
  · rintro (⟨key, offer, ⟨rfl, horder, hmatch⟩, hkey⟩ |
      ⟨key, offer, ⟨⟨rfl, horder, hmatch⟩, hnull⟩, hkey⟩)
    · obtain ⟨rfl, rfl, rfl⟩ :=
        Slot.key_inj.mp ((Slot.serializeBytes_key _ _ none).symm.trans hkey)
      exact ⟨rfl, ⟨offer, horder, offer.wantsKey_none⟩, hmatch⟩
    · obtain ⟨rfl, rfl, rfl⟩ := Slot.key_inj.mp hkey
      exact ⟨rfl, ⟨offer, horder, offer.wantsKey_some.mpr ⟨hnull, rfl⟩⟩, hmatch⟩
  · rintro ⟨rfl, ⟨offer, horder, hwants⟩, hmatch⟩
    obtain ⟨rfl, -⟩ := h.order?_eq_some_iff.mp horder
    cases want? with
    | none => exact Or.inl ⟨_, offer, ⟨rfl, horder, hmatch⟩, Slot.serializeBytes_key _ _ none⟩
    | some want =>
      obtain ⟨hnull, rfl⟩ := offer.wantsKey_some.mp hwants
      exact Or.inr ⟨_, offer, ⟨⟨rfl, horder, hmatch⟩, hnull⟩, rfl⟩

end

/-- The database after the spent orders are restored. -/
def restoreSpentOrders (db : SwapDB) (block : ReadBlock) : SwapDB :=
  ((tableOffers db dbHistory).filter (·.2.slot.outpoint ∈ block.spentOutpoints)).foldl
    (fun db record => moveOrderToOpen db record.2) db

theorem processDisconnectedBlock_eq (db : SwapDB) (block : ReadBlock) :
    processDisconnectedBlock db block = if block.spentOutpoints = [] then db
      else (restoreSpentOrders db block).write
        ((matchedKeys db block).map fun key => (key, none)) := by
  rw [matchedKeys, map_append, map_map, map_map]
  rfl

section

variable (h : WellFormed db)

include h

theorem WellFormed.restoreSpentOrders : WellFormed (restoreSpentOrders db block) := by
  refine foldlRecOn _ _ h fun db' h' record hrecord => ?_
  exact h'.moveOrder (by decide) (by decide) (h.readable (by decide) (mem_filter.mp hrecord).1)

/-- `ProcessDisconnectedBlock` leaves well-formed records. -/
theorem WellFormed.processDisconnectedBlock : WellFormed (processDisconnectedBlock db block) := by
  rw [processDisconnectedBlock_eq]
  split_ifs
  · exact h
  · exact h.restoreSpentOrders.write_erase _

theorem slotState_restoreSpentOrders (slot : Slot) :
    slotState (restoreSpentOrders db block) slot =
      if block.spends slot then (slotState db slot).restore else slotState db slot := by
  unfold restoreSpentOrders ReadBlock.spends
  simp only [decide_eq_true_eq]
  exact @WellFormed.slotState_foldl db dbHistory slot h (by decide) moveOrderToOpen
    SlotState.moveToOpen id block.spentOutpoints (fun _ => rfl)
    (fun db _ hoffer => slotState_moveOrderToOpen db hoffer slot)
    (fun _ _ => SlotState.moveToOpen_moveToOpen _ _)

/-- `ProcessDisconnectedBlock` disconnects every slot. -/
theorem slotState_processDisconnectedBlock (slot : Slot) :
    slotState (processDisconnectedBlock db block) slot =
      (slotState db slot).disconnect (block.spends slot)
        (block.spentOutpoints ≠ [] && block.matchesSlot slot) := by
  rw [processDisconnectedBlock_eq]
  by_cases hnil : block.spentOutpoints = []
  · have hspends : block.spends slot = false := by simp [ReadBlock.spends, hnil]
    simp [hnil, hspends, SlotState.disconnect]
  · rw [if_neg hnil, SlotState.disconnect, ← slotState_restoreSpentOrders h]
    generalize restoreSpentOrders db block = restored
    have hkey := fun table want? => @key_mem_matchedKeys_iff _ db block h table want? slot
    simp only [slotState_eq, offer?_write_erase]
    cases hmatch : block.matchesSlot slot with
    | false => simp [hkey, hmatch]
    | true =>
      cases hopen : order? db dbOpenOrder slot with
      | none =>
        have hopen' : offer? db dbOpenOrder none slot = none := hopen
        simp [hkey, hopen, hopen']
      | some offer =>
        have hopen' : offer? db dbOpenOrder none slot = some offer := hopen
        have hset : (fun want => if offer.Wants want then none
            else offer? restored dbOpenWant (some want) slot) =
            WantIndex.set offer none fun want => offer? restored dbOpenWant (some want) slot := rfl
        simp [hkey, hopen, hopen', hmatch, tables_ne, openTable, hnil, SlotState.withdraw, hset]

end

end Refinement

end Blocks

end RadiantCore
