import RadiantCore.SwapIndex

/-!
# Migrating an old swap index

`SwapIndex::Init` brings the records of older versions to the current one. `MigrateLegacyData` moves
the records of the table `s`, which hold offers of version 1, to the open orders.
`MigrateOfferSchema` then reads every open order as an offer of version 1, and writes it back as a
current one if that succeeds.

The iterator of `MigrateLegacyData` breaks at the first key that is not of the table. The key of the
best block is the byte `B`, which reads as a vector of 66 bytes without its data, and it stands
before all keys of 66 bytes and more. So longer keys are not reached, although a key of the table
has 69 bytes when it is built as the other tables build theirs. And a record that was moved is read
a second time, now with the wrong format. The orders are kept exactly when neither happens to one of
them, and offers of one slot agree (`orders_migrated_iff`).
-/

namespace RadiantCore

open List Option OrderedStore

/-! ## Offers of version 1 -/

/-- `SwapOfferV1`. -/
structure SwapOfferV1 where
  version : UInt8
  type : UInt8
  tokenID : Uint256
  offeredUTXOHash : Uint256
  offeredUTXOIndex : UInt32
  priceTerms : List UInt8
  signature : List UInt8
  blockHeight : Int32 := 0
deriving DecidableEq

namespace SwapOfferV1

/-- The serialization of an offer of version 1. -/
def serialize (offer : SwapOfferV1) : List UInt8 :=
  writeLE 1 offer.version.toNat ++ writeLE 1 offer.type.toNat ++ offer.tokenID.data ++
    offer.offeredUTXOHash.data ++ writeLE 4 offer.offeredUTXOIndex.toNat ++
    serializeBytes offer.priceTerms ++ serializeBytes offer.signature ++
    writeLE 4 offer.blockHeight.toUInt32.toNat

/-- An offer of version 1, read from its record. -/
def unserialize : Reader SwapOfferV1 := do
  let version ← Reader.number 1
  let type ← Reader.number 1
  let tokenID ← Reader.blob 32
  let offeredUTXOHash ← Reader.blob 32
  let offeredUTXOIndex ← Reader.number 4
  let priceTerms ← Reader.bytes
  let signature ← Reader.bytes
  let blockHeight ← Reader.number 4
  return {
    version := UInt8.ofNat version
    type := UInt8.ofNat type
    tokenID := tokenID
    offeredUTXOHash := offeredUTXOHash
    offeredUTXOIndex := UInt32.ofNat offeredUTXOIndex
    priceTerms := priceTerms
    signature := signature
    blockHeight := (UInt32.ofNat blockHeight).toInt32 }

/-- The current form of an offer of version 1. -/
def toOffer (legacy : SwapOfferV1) : SwapOffer where
  version := legacy.version
  flags := 0
  offeredType := 0
  termsType := 0
  tokenID := legacy.tokenID
  wantTokenID := Blob.null
  offeredUTXOHash := legacy.offeredUTXOHash
  offeredUTXOIndex := legacy.offeredUTXOIndex
  priceTerms := legacy.priceTerms
  signature := legacy.signature
  blockHeight := legacy.blockHeight

/-- What a migration has to keep of an offer. -/
structure Kept (legacy : SwapOfferV1) (offer : SwapOffer) : Prop where
  version : offer.version = legacy.version
  tokenID : offer.tokenID = legacy.tokenID
  offeredUTXOHash : offer.offeredUTXOHash = legacy.offeredUTXOHash
  offeredUTXOIndex : offer.offeredUTXOIndex = legacy.offeredUTXOIndex
  priceTerms : offer.priceTerms = legacy.priceTerms
  signature : offer.signature = legacy.signature
  blockHeight : offer.blockHeight = legacy.blockHeight

theorem kept_toOffer_iff {legacy legacy' : SwapOfferV1} :
    legacy.Kept legacy'.toOffer ↔ legacy'.toOffer = legacy.toOffer := by
  constructor
  · rintro ⟨hversion, htoken, hhash, hindex, hterms, hsignature, hheight⟩
    simp_all [toOffer]
  · intro h
    rw [h]
    exact ⟨rfl, rfl, rfl, rfl, rfl, rfl, rfl⟩

end SwapOfferV1

/-- `CDBIterator::GetValue` and `CDBWrapper::Read`, of an offer of version 1. -/
def getLegacy (value : List UInt8) : Option SwapOfferV1 :=
  (SwapOfferV1.unserialize value).toOption.map Prod.fst

/-- What was read can be written in the current form and read again. -/
theorem readable_toOffer {value : List UInt8} {legacy : SwapOfferV1}
    (h : getLegacy value = some legacy) : legacy.toOffer.Readable := by
  obtain ⟨⟨legacy, rest⟩, hread, rfl⟩ := map_eq_some_iff.mp h
  have hread := toOption_eq_some_iff.mp hread
  simp only [SwapOfferV1.unserialize, stateT_bind_eq_ok_iff, stateT_pure_eq_ok_iff] at hread
  obtain ⟨_, _, -, _, _, -, _, _, -, _, _, -, _, _, -, terms, _, hterms, signature, _, hsignature,
    _, _, -, rfl, -⟩ := hread
  exact ⟨Reader.bytes_length_le hterms, Reader.bytes_length_le hsignature⟩

/-! ## The migration -/

/-- `SWAP_INDEX_VERSION`. -/
def swapIndexVersion : UInt8 := 2

/-- The batch for one record of `MigrateLegacyData`. -/
def legacyUpdates (record : List UInt8 × List UInt8) : List (List UInt8 × Option (List UInt8)) :=
  match getKey record.1, getLegacy record.2 with
  | some key, some legacy =>
    [(serializeBytes (makeKey dbOpenOrder legacy.toOffer), some legacy.toOffer.serialize),
      (serializeBytes key, none)]
  | _, _ => []

/-- `MigrateLegacyData`. The iterator sees the database as it was, and the loop starts at the key
`MakeTypeSeekKey` gives for the table. -/
def migrateLegacyData (db : SwapDB) : SwapDB :=
  (tableRecords db dbLegacy).foldl (fun db record => db.write (legacyUpdates record)) db

/-- `MigrateOfferSchema`. -/
def migrateOfferSchema (db : SwapDB) (oldVersion : UInt8) : SwapDB :=
  if oldVersion ≥ swapIndexVersion then db
  else
    let keysToRewrite :=
      (tableRecords db dbOpenOrder ++ tableRecords db dbHistory).filterMap fun record =>
        getKey record.1
    db.write (keysToRewrite.filterMap fun key => do
      let legacy ← (db.find? (serializeBytes key)).bind getLegacy
      return (serializeBytes key, some legacy.toOffer.serialize))

/-- `ReadVersion`. -/
def readVersion (db : SwapDB) : Option UInt8 := do
  let value ← db.find? (serializeBytes [dbVersion])
  let (version, _) ← (Reader.number 1 value).toOption
  return UInt8.ofNat version

/-- `WriteVersion`. -/
def writeVersion (db : SwapDB) (version : UInt8) : SwapDB :=
  db.write [(serializeBytes [dbVersion], some (writeLE 1 version.toNat))]

/-- What `SwapIndex::Init` does when the index has a version below the current one. -/
def upgradeIndex (db : SwapDB) (version : UInt8) : SwapDB :=
  if version < swapIndexVersion then writeVersion (migrateOfferSchema db version) swapIndexVersion
  else db

/-- The migration step of `SwapIndex::Init`. -/
def initIndex (db : SwapDB) : SwapDB :=
  match readVersion db with
  | some version => upgradeIndex db version
  | none => upgradeIndex (migrateLegacyData db) 1

/-! ## Old databases -/

/-- A record of the table `s` with an offer of version 1. -/
structure IsLegacy (record : List UInt8 × List UInt8) (key : List UInt8) (legacy : SwapOfferV1) :
    Prop where
  key_eq : record.1 = serializeBytes key
  size_lt : key.length < 2 ^ 64
  table : key.head? = some dbLegacy
  offer : getLegacy record.2 = some legacy

/-- The database holds a legacy record. -/
def HoldsLegacy (db : SwapDB) (key : List UInt8) (legacy : SwapOfferV1) : Prop :=
  ∃ record ∈ db.entries, IsLegacy record key legacy

/-- A database without a version : the best block and records of the table `s`. -/
structure LegacyIndex (db : SwapDB) : Prop where
  bestBlock : ∃ value, ([dbBestBlock], value) ∈ db.entries
  legacy : ∀ record ∈ db.entries, record.1 = [dbBestBlock] ∨ ∃ key legacy, IsLegacy record key legacy

/-- Every legacy offer is an open order now, and the table `s` is empty. -/
structure OrdersMigrated (db db' : SwapDB) : Prop where
  kept : ∀ key legacy, HoldsLegacy db key legacy →
    ∃ offer, order? db' dbOpenOrder legacy.toOffer.slot = some offer ∧ legacy.Kept offer
  removed : ∀ key : List UInt8, key.length < 2 ^ 64 → key.head? = some dbLegacy →
    db'.find? (serializeBytes key) = none

/-- What the migration needs of the legacy records : their keys stand before that of the best block,
the offers of one slot agree, and no offer in its current form reads as a different one of
version 1. -/
structure Migratable (db : SwapDB) : Prop where
  short : ∀ key legacy, HoldsLegacy db key legacy → key.length ≤ 65
  agree : ∀ key legacy key' legacy', HoldsLegacy db key legacy → HoldsLegacy db key' legacy' →
    legacy.toOffer.slot = legacy'.toOffer.slot → legacy.toOffer = legacy'.toOffer
  stable : ∀ key legacy, HoldsLegacy db key legacy →
    ∀ again, getLegacy legacy.toOffer.serialize = some again → again.toOffer = legacy.toOffer

/-! ## Keys -/

/-- A serialized key starts with its length, or with a marker for more than a byte. -/
theorem serializeBytes_cases (key : List UInt8) :
    (key.length < 253 ∧ serializeBytes key = UInt8.ofNat key.length :: key) ∨
      (253 ≤ key.length ∧ ∃ b rest, serializeBytes key = b :: rest ∧ 253 ≤ b) := by
  unfold serializeBytes writeCompactSize
  split_ifs with h1 h2 h3
  · refine Or.inl ⟨h1, ?_⟩
    simp [writeLE]
  · exact Or.inr ⟨not_lt.mp h1, 253, _, rfl, le_rfl⟩
  · exact Or.inr ⟨not_lt.mp h1, 254, _, rfl, by decide⟩
  · exact Or.inr ⟨not_lt.mp h1, 255, _, rfl, by decide⟩

/-- The keys before that of the best block. -/
theorem serializeBytes_lt_bestBlock_iff {key : List UInt8} :
    serializeBytes key < [dbBestBlock] ↔ key.length ≤ 65 := by
  obtain ⟨hlen, hkey⟩ | ⟨hlen, b, rest, hkey, hb⟩ := serializeBytes_cases key
  · rw [hkey, cons_lt_cons_iff_lex, UInt8.lt_iff_toNat_lt, UInt8.toNat_ofNat',
      Nat.mod_eq_of_lt (by omega)]
    have hnil : ¬key < [] := not_lt_nil key
    have hbest : dbBestBlock.toNat = 66 := rfl
    rw [hbest]
    constructor
    · rintro (h | ⟨-, h⟩)
      · omega
      · exact absurd h hnil
    · intro h
      exact Or.inl (by omega)
  · refine iff_of_false (fun h => ?_) (by omega)
    rw [hkey, cons_lt_cons_iff_lex] at h
    rcases h with h | ⟨rfl, -⟩
    · exact absurd (hb.trans h.le) (by decide)
    · exact absurd hb (by decide)

theorem serializeBytes_ne_bestBlock {key : List UInt8} (h : key ≠ []) :
    serializeBytes key ≠ [dbBestBlock] := by
  intro heq
  obtain ⟨-, hkey⟩ | ⟨-, b, rest, hkey, hb⟩ := serializeBytes_cases key
  · exact h (cons.inj (hkey.symm.trans heq)).2
  · obtain ⟨rfl, -⟩ := cons.inj (hkey.symm.trans heq)
    exact absurd hb (by decide)

theorem seek_le_serializeBytes {key : List UInt8} (h : key.head? = some dbLegacy) :
    serializeBytes (makeTypeSeekKey dbLegacy) ≤ serializeBytes key := by
  have hseek : serializeBytes (makeTypeSeekKey dbLegacy) = [1, dbLegacy] := rfl
  obtain ⟨key, rfl⟩ := head?_eq_some_iff.mp h
  obtain ⟨hlen, hkey⟩ | ⟨-, b, rest, hkey, hb⟩ := serializeBytes_cases (dbLegacy :: key)
  · rw [hseek, hkey, cons_le_cons_iff_lex, UInt8.lt_iff_toNat_lt, UInt8.toNat_ofNat',
      Nat.mod_eq_of_lt (by omega)]
    cases key with
    | nil => exact Or.inr ⟨rfl, le_rfl⟩
    | cons a key => exact Or.inl (by simp)
  · rw [hseek, hkey, cons_le_cons_iff_lex]
    exact Or.inl (lt_of_lt_of_le (by decide) hb)

/-! ## The records that are moved -/

section Legacy

variable {db : SwapDB} {record : List UInt8 × List UInt8} {key : List UInt8} {legacy : SwapOfferV1}

theorem IsLegacy.getKey_eq (h : IsLegacy record key legacy) (hshort : key.length ≤ 65) :
    getKey record.1 = some key := by
  rw [h.key_eq]
  exact getKey_serializeBytes (hshort.trans (by decide))

theorem IsLegacy.lt_bestBlock_iff (h : IsLegacy record key legacy) :
    record.1 < [dbBestBlock] ↔ key.length ≤ 65 := by
  rw [h.key_eq]
  exact serializeBytes_lt_bestBlock_iff

/-- The records before the best block are moved. -/
theorem LegacyIndex.mem_tableRecords_iff (h : LegacyIndex db) :
    record ∈ tableRecords db dbLegacy ↔ record ∈ db.entries ∧ record.1 < [dbBestBlock] := by
  obtain ⟨value, hbest⟩ := h.bestBlock
  have hfrom : ∀ record ∈ db.entries,
      serializeBytes (makeTypeSeekKey dbLegacy) ≤ record.1 := by
    intro record hrecord
    obtain hkey | ⟨key, legacy, hlegacy⟩ := h.legacy record hrecord
    · rw [hkey]
      decide
    · rw [hlegacy.key_eq]
      exact seek_le_serializeBytes hlegacy.table
  rw [tableRecords, takeWhile_seek_eq_filter_lt db _ hbest (hfrom _ hbest) rfl,
    mem_filter, seek_eq_filter, mem_filter]
  · simp only [decide_eq_true_eq]
    exact and_congr_left fun _ => and_iff_left_of_imp fun hrecord => hfrom record hrecord
  · intro a ha _ hlt
    obtain hkey | ⟨key, legacy, hlegacy⟩ := h.legacy a ha
    · rw [hkey] at hlt
      exact absurd hlt (lt_irrefl _)
    · rw [hlegacy.getKey_eq (hlegacy.lt_bestBlock_iff.mp hlt), bind_some, hlegacy.table]
      exact decide_eq_true rfl

theorem IsLegacy.legacyUpdates_eq (h : IsLegacy record key legacy) (hshort : key.length ≤ 65) :
    legacyUpdates record = [(legacy.toOffer.slot.key dbOpenOrder none,
      some legacy.toOffer.serialize), (record.1, none)] := by
  rw [legacyUpdates, h.getKey_eq hshort, h.offer, h.key_eq]
  simp only [serializeBytes_makeKey]

/-- All updates of `MigrateLegacyData`. -/
def migrationBatch (db : SwapDB) : List (List UInt8 × Option (List UInt8)) :=
  (tableRecords db dbLegacy).flatMap legacyUpdates

theorem migrateLegacyData_eq (db : SwapDB) : migrateLegacyData db = db.write (migrationBatch db) :=
  foldl_write _ _ _

theorem LegacyIndex.mem_migrationBatch_iff (h : LegacyIndex db)
    {update : List UInt8 × Option (List UInt8)} : update ∈ migrationBatch db ↔
      ∃ record ∈ db.entries, ∃ key legacy, IsLegacy record key legacy ∧ key.length ≤ 65 ∧
        (update = (legacy.toOffer.slot.key dbOpenOrder none, some legacy.toOffer.serialize) ∨
          update = (record.1, none)) := by
  rw [migrationBatch, mem_flatMap]
  constructor
  · rintro ⟨record, hrecord, hupdate⟩
    obtain ⟨hentry, hlt⟩ := h.mem_tableRecords_iff.mp hrecord
    obtain hkey | ⟨key, legacy, hlegacy⟩ := h.legacy record hentry
    · rw [hkey] at hlt
      exact absurd hlt (lt_irrefl _)
    · have hshort := hlegacy.lt_bestBlock_iff.mp hlt
      rw [hlegacy.legacyUpdates_eq hshort] at hupdate
      exact ⟨record, hentry, key, legacy, hlegacy, hshort, by simpa using hupdate⟩
  · rintro ⟨record, hentry, key, legacy, hlegacy, hshort, hupdate⟩
    refine ⟨record, h.mem_tableRecords_iff.mpr ⟨hentry, hlegacy.lt_bestBlock_iff.mpr hshort⟩, ?_⟩
    rw [hlegacy.legacyUpdates_eq hshort]
    simpa using hupdate

theorem serializeBytes_ne_orderKey (hsize : key.length < 2 ^ 64) (htable : key.head? = some dbLegacy)
    (slot : Slot) : serializeBytes key ≠ slot.key dbOpenOrder none := by
  rw [← slot.serializeBytes_key, Ne, serializeBytes_inj hsize (slot.length_cons_keyBytes_lt _ _)]
  rintro rfl
  exact absurd (some.inj htable) (by decide)

theorem IsLegacy.key_ne_orderKey (h : IsLegacy record key legacy) (slot : Slot) :
    record.1 ≠ slot.key dbOpenOrder none :=
  h.key_eq ▸ serializeBytes_ne_orderKey h.size_lt h.table slot

section

variable (h : LegacyIndex db)

include h

/-- A record that is not reached stays. -/
theorem LegacyIndex.find?_of_long (hrecord : record ∈ db.entries)
    (hlegacy : IsLegacy record key legacy) (hlong : 65 < key.length) :
    (migrateLegacyData db).find? record.1 = some record.2 := by
  rw [migrateLegacyData_eq]
  obtain ⟨update, hupdate, hkey, -⟩ | ⟨-, hfind⟩ :=
    db.find?_write_cases (migrationBatch db) record.1
  · obtain ⟨record', hrecord', key', legacy', hlegacy', hshort, rfl | rfl⟩ :=
      h.mem_migrationBatch_iff.mp hupdate
    · exact absurd hkey.symm (hlegacy.key_ne_orderKey _)
    · obtain rfl : key' = key := (serializeBytes_inj hlegacy'.size_lt hlegacy.size_lt).mp
        (hlegacy'.key_eq.symm.trans (hkey.trans hlegacy.key_eq))
      exact absurd hshort (not_le.mpr hlong)
  · rw [hfind]
    exact find?_eq_some_iff.mpr hrecord

/-- If all records are reached, none is left. -/
theorem LegacyIndex.find?_of_short
    (hshort : ∀ key legacy, HoldsLegacy db key legacy → key.length ≤ 65)
    (hsize : key.length < 2 ^ 64) (htable : key.head? = some dbLegacy) :
    (migrateLegacyData db).find? (serializeBytes key) = none := by
  rw [migrateLegacyData_eq]
  obtain ⟨update, hupdate, hkey, hfind⟩ | ⟨hnone, hsame⟩ :=
    db.find?_write_cases (migrationBatch db) (serializeBytes key)
  · obtain ⟨record, -, key', legacy, hlegacy, -, rfl | rfl⟩ := h.mem_migrationBatch_iff.mp hupdate
    · exact absurd hkey.symm (serializeBytes_ne_orderKey hsize htable _)
    · exact hfind
  · rw [hsame, eq_none_iff_forall_ne_some]
    intro value hvalue
    have hold := find?_eq_some_iff.mp hvalue
    obtain hbest | ⟨key', legacy, hlegacy⟩ := h.legacy _ hold
    · have hne : key ≠ [] := by
        rintro rfl
        cases htable
      exact serializeBytes_ne_bestBlock hne hbest
    · have hkey := hshort key' legacy ⟨_, hold, hlegacy⟩
      exact hnone _ (h.mem_migrationBatch_iff.mpr
        ⟨_, hold, key', legacy, hlegacy, hkey, Or.inr rfl⟩) rfl

/-- A slot with legacy offers gets one of them. -/
theorem LegacyIndex.find?_order (hrecord : record ∈ db.entries)
    (hlegacy : IsLegacy record key legacy) (hshort : key.length ≤ 65) :
    ∃ key' legacy', HoldsLegacy db key' legacy' ∧ legacy'.toOffer.slot = legacy.toOffer.slot ∧
      (migrateLegacyData db).find? (legacy.toOffer.slot.key dbOpenOrder none) =
        some legacy'.toOffer.serialize := by
  rw [migrateLegacyData_eq]
  obtain ⟨update, hupdate, hkey, hfind⟩ | ⟨hnone, -⟩ :=
    db.find?_write_cases (migrationBatch db) (legacy.toOffer.slot.key dbOpenOrder none)
  · obtain ⟨record', hrecord', key', legacy', hlegacy', -, rfl | rfl⟩ :=
      h.mem_migrationBatch_iff.mp hupdate
    · exact ⟨key', legacy', ⟨record', hrecord', hlegacy'⟩, ((@Slot.key_inj _ _ _ _ none none).mp hkey).2.2, hfind⟩
    · exact absurd hkey (hlegacy'.key_ne_orderKey _)
  · exact absurd rfl (hnone _ (h.mem_migrationBatch_iff.mpr
      ⟨record, hrecord, key, legacy, hlegacy, hshort, Or.inl rfl⟩))

/-- If all records are reached, those of the best block and of open orders are left. -/
theorem LegacyIndex.wellFormed_migrateLegacyData
    (hshort : ∀ key legacy, HoldsLegacy db key legacy → key.length ≤ 65) :
    WellFormed (migrateLegacyData db) := by
  rintro ⟨k, value⟩ hentry
  have hfind := find?_eq_some_iff.mpr hentry
  rw [migrateLegacyData_eq] at hfind
  obtain ⟨update, hupdate, rfl, hvalue⟩ | ⟨hnone, hsame⟩ := db.find?_write_cases (migrationBatch db) k
  · rw [hfind] at hvalue
    obtain ⟨record, hrecord, key, legacy, hlegacy, -, rfl | rfl⟩ :=
      h.mem_migrationBatch_iff.mp hupdate
    · obtain rfl := some.inj hvalue
      exact .order mem_cons_self (getValue_serialize (readable_toOffer hlegacy.offer))
    · cases hvalue
  · rw [hfind] at hsame
    have hold := find?_eq_some_iff.mp hsame.symm
    obtain rfl | ⟨key, legacy, hlegacy⟩ := h.legacy (k, value) hold
    · exact .bestBlock value
    · have hkey := hshort key legacy ⟨(k, value), hold, hlegacy⟩
      exact absurd rfl (hnone _ (h.mem_migrationBatch_iff.mpr
        ⟨(k, value), hold, key, legacy, hlegacy, hkey, Or.inr rfl⟩))

end

end Legacy

/-! ## The records that are rewritten -/

section Schema

variable {db : SwapDB} {version : UInt8} {record : List UInt8 × List UInt8} {key : List UInt8}

/-- The updates of `MigrateOfferSchema`. -/
def schemaBatch (db : SwapDB) : List (List UInt8 × Option (List UInt8)) :=
  ((tableRecords db dbOpenOrder ++ tableRecords db dbHistory).filterMap fun record =>
    getKey record.1).filterMap fun key => do
      let legacy ← (db.find? (serializeBytes key)).bind getLegacy
      return (serializeBytes key, some legacy.toOffer.serialize)

theorem migrateOfferSchema_eq (h : version < swapIndexVersion) :
    migrateOfferSchema db version = db.write (schemaBatch db) := by
  rw [migrateOfferSchema, if_neg (not_le.mpr h)]
  rfl

theorem mem_schemaBatch_iff {update : List UInt8 × Option (List UInt8)} :
    update ∈ schemaBatch db ↔
      ∃ record ∈ tableRecords db dbOpenOrder ++ tableRecords db dbHistory, ∃ key value legacy,
        getKey record.1 = some key ∧ db.find? (serializeBytes key) = some value ∧
          getLegacy value = some legacy ∧
          update = (serializeBytes key, some legacy.toOffer.serialize) := by
  simp only [schemaBatch, mem_filterMap, bind_eq_bind, bind_eq_some_iff,
    Option.pure_def, Option.some_inj]
  constructor
  · rintro ⟨key, ⟨record, hrecord, hkey⟩, legacy, ⟨value, hvalue, hlegacy⟩, rfl⟩
    exact ⟨record, hrecord, key, value, legacy, hkey, hvalue, hlegacy, rfl⟩
  · rintro ⟨record, hrecord, key, value, legacy, hkey, hvalue, hlegacy, rfl⟩
    exact ⟨key, ⟨record, hrecord, hkey⟩, legacy, ⟨value, hvalue, hlegacy⟩, rfl⟩

theorem head_of_mem_tableRecords {table : UInt8} (hrecord : record ∈ tableRecords db table)
    (hkey : getKey record.1 = some key) : key.head? = some table := by
  have htable := mem_takeWhile_imp hrecord
  rw [hkey, bind_some] at htable
  exact of_decide_eq_true htable

theorem getKey_length_le (hkey : getKey record.1 = some key) : key.length ≤ maxSize := by
  obtain ⟨⟨key, rest⟩, hread, rfl⟩ := map_eq_some_iff.mp hkey
  exact Reader.bytes_length_le (toOption_eq_some_iff.mp hread)

/-- The records of other tables stay as they are. -/
theorem find?_migrateOfferSchema_of_table (hversion : version < swapIndexVersion)
    (hsize : key.length < 2 ^ 64) (hopen : key.head? ≠ some dbOpenOrder)
    (hhistory : key.head? ≠ some dbHistory) :
    (migrateOfferSchema db version).find? (serializeBytes key) =
      db.find? (serializeBytes key) := by
  rw [migrateOfferSchema_eq hversion]
  obtain ⟨update, hupdate, hkey, -⟩ | ⟨-, hfind⟩ :=
    db.find?_write_cases (schemaBatch db) (serializeBytes key)
  · obtain ⟨record, hrecord, key', value, legacy, hread, -, -, rfl⟩ := mem_schemaBatch_iff.mp hupdate
    have hsize' : key'.length < 2 ^ 64 := (getKey_length_le hread).trans_lt (by decide)
    obtain rfl := (serializeBytes_inj hsize' hsize).mp hkey
    rcases mem_append.mp hrecord with hrecord | hrecord
    · exact absurd (head_of_mem_tableRecords hrecord hread) hopen
    · exact absurd (head_of_mem_tableRecords hrecord hread) hhistory
  · exact hfind

/-- What `MigrateOfferSchema` makes of the value of a record. -/
def rewrittenValue (value : List UInt8) : List UInt8 :=
  match getLegacy value with
  | some legacy => legacy.toOffer.serialize
  | none => value

/-- The open orders are read as offers of version 1. -/
theorem find?_migrateOfferSchema (h : WellFormed db) (hversion : version < swapIndexVersion)
    (slot : Slot) :
    (migrateOfferSchema db version).find? (slot.key dbOpenOrder none) =
      (db.find? (slot.key dbOpenOrder none)).map rewrittenValue := by
  rw [migrateOfferSchema_eq hversion]
  obtain ⟨update, hupdate, hkey, hfind⟩ | ⟨hnone, hfind⟩ :=
    db.find?_write_cases (schemaBatch db) (slot.key dbOpenOrder none)
  · obtain ⟨record, -, key, value, legacy, -, hvalue, hlegacy, rfl⟩ := mem_schemaBatch_iff.mp hupdate
    have hkey : serializeBytes key = slot.key dbOpenOrder none := hkey
    rw [hfind, ← hkey, hvalue, map_some, rewrittenValue, hlegacy]
  · rw [hfind]
    cases hvalue : db.find? (slot.key dbOpenOrder none) with
    | none => rfl
    | some value =>
      cases hlegacy : getLegacy value with
      | none => rw [map_some, rewrittenValue, hlegacy]
      | some legacy =>
        -- the record would have been rewritten
        have hrecord : (slot.key dbOpenOrder none, value) ∈ tableRecords db dbOpenOrder := by
          rw [tableRecords_eq h (by decide), mem_filter, getKey_key]
          exact ⟨find?_eq_some_iff.mp hvalue, decide_eq_true rfl⟩
        have hkey := slot.serializeBytes_key dbOpenOrder none
        refine absurd hkey (hnone _ (mem_schemaBatch_iff.mpr
          ⟨_, mem_append_left _ hrecord, _, value, legacy, getKey_key slot _ none, ?_, hlegacy, rfl⟩))
        rw [hkey, hvalue]

end Schema

/-! ## The whole step -/

section Init

variable {db : SwapDB} {record : List UInt8 × List UInt8} {key : List UInt8} {legacy : SwapOfferV1}

/-- What the second step makes of an offer that was moved. -/
def SwapOfferV1.again (legacy : SwapOfferV1) : SwapOfferV1 :=
  (getLegacy legacy.toOffer.serialize).getD legacy

theorem getValue_rewrittenValue (h : legacy.toOffer.Readable) :
    getValue (rewrittenValue legacy.toOffer.serialize) = some legacy.again.toOffer := by
  unfold rewrittenValue SwapOfferV1.again
  cases hread : getLegacy legacy.toOffer.serialize with
  | none => exact getValue_serialize h
  | some again => exact getValue_serialize (readable_toOffer hread)

theorem LegacyIndex.readVersion_eq (h : LegacyIndex db) : readVersion db = none := by
  have hnone : db.find? (serializeBytes [dbVersion]) = none := by
    rw [eq_none_iff_forall_ne_some]
    intro value hvalue
    obtain hkey | ⟨key, legacy, hlegacy⟩ :=
      h.legacy _ (find?_eq_some_iff.mp hvalue)
    · exact absurd hkey (serializeBytes_ne_bestBlock (cons_ne_nil _ _))
    · obtain rfl := (serializeBytes_inj (by decide) hlegacy.size_lt).mp hlegacy.key_eq
      exact absurd hlegacy.table (by decide)
  rw [readVersion, hnone]
  rfl

theorem LegacyIndex.initIndex_eq (h : LegacyIndex db) :
    initIndex db = writeVersion (migrateOfferSchema (migrateLegacyData db) 1) swapIndexVersion := by
  rw [initIndex, h.readVersion_eq]
  rfl

theorem find?_writeVersion {version : UInt8} {k : List UInt8} (h : serializeBytes [dbVersion] ≠ k) :
    (writeVersion db version).find? k = db.find? k := by
  rw [writeVersion, write, foldl_cons, foldl_nil, find?_update,
    if_neg h]

/-- The table `s` after the migration. -/
theorem LegacyIndex.find?_initIndex_legacy (h : LegacyIndex db) (hsize : key.length < 2 ^ 64)
    (htable : key.head? = some dbLegacy) :
    (initIndex db).find? (serializeBytes key) =
      (migrateLegacyData db).find? (serializeBytes key) := by
  rw [h.initIndex_eq, find?_writeVersion, find?_migrateOfferSchema_of_table (by decide) hsize]
  · rw [htable]
    decide
  · rw [htable]
    decide
  · rw [Ne, serializeBytes_inj (by decide) hsize]
    rintro rfl
    exact absurd htable (by decide)

/-- The open order of a slot with legacy offers. -/
theorem LegacyIndex.order?_initIndex (h : LegacyIndex db)
    (hshort : ∀ key legacy, HoldsLegacy db key legacy → key.length ≤ 65)
    (hlegacy : HoldsLegacy db key legacy) :
    ∃ key' legacy', HoldsLegacy db key' legacy' ∧ legacy'.toOffer.slot = legacy.toOffer.slot ∧
      order? (initIndex db) dbOpenOrder legacy.toOffer.slot = some legacy'.again.toOffer := by
  obtain ⟨record, hrecord, hrec⟩ := hlegacy
  obtain ⟨key', legacy', hholds, hslot, hfind⟩ :=
    h.find?_order hrecord hrec (hshort key legacy ⟨record, hrecord, hrec⟩)
  refine ⟨key', legacy', hholds, hslot, ?_⟩
  have hread : legacy'.toOffer.Readable := by
    obtain ⟨record', -, hrec'⟩ := hholds
    exact readable_toOffer hrec'.offer
  have hversion : serializeBytes [dbVersion] ≠ legacy.toOffer.slot.key dbOpenOrder none := by
    intro heq
    exact absurd (cons.inj heq).1 (by decide)
  change offer? _ _ none _ = _
  rw [offer?, h.initIndex_eq, find?_writeVersion hversion,
    find?_migrateOfferSchema (h.wellFormed_migrateLegacyData hshort) (by decide), hfind,
    map_some, bind_some, getValue_rewrittenValue hread]

theorem again_toOffer_iff : legacy.again.toOffer = legacy.toOffer ↔
    ∀ again, getLegacy legacy.toOffer.serialize = some again → again.toOffer = legacy.toOffer := by
  unfold SwapOfferV1.again
  cases getLegacy legacy.toOffer.serialize with
  | none => simp
  | some again => simp

end Init

/-- The migration keeps the orders of an old index exactly when it reaches all records, the offers
of one slot agree, and none of them is changed by the second step. -/
theorem orders_migrated_iff {db : SwapDB} (h : LegacyIndex db) :
    OrdersMigrated db (initIndex db) ↔ Migratable db := by
  constructor
  · intro hmigrated
    have hshort : ∀ key legacy, HoldsLegacy db key legacy → key.length ≤ 65 := by
      rintro key legacy ⟨record, hrecord, hlegacy⟩
      by_contra hlong
      have hnone := hmigrated.removed key hlegacy.size_lt hlegacy.table
      rw [h.find?_initIndex_legacy hlegacy.size_lt hlegacy.table, ← hlegacy.key_eq,
        h.find?_of_long hrecord hlegacy (not_le.mp hlong)] at hnone
      cases hnone
    -- one offer of a slot is stored, read again, and all offers of the slot are equal to it
    have hstored : ∀ {key legacy}, HoldsLegacy db key legacy → ∃ key' legacy',
        HoldsLegacy db key' legacy' ∧ legacy'.toOffer.slot = legacy.toOffer.slot ∧
        ∀ {key'' legacy''}, HoldsLegacy db key'' legacy'' →
          legacy''.toOffer.slot = legacy.toOffer.slot →
          legacy'.again.toOffer = legacy''.toOffer := by
      intro key legacy hlegacy
      obtain ⟨key', legacy', hlegacy', hslot', horder⟩ := h.order?_initIndex hshort hlegacy
      refine ⟨key', legacy', hlegacy', hslot', fun {key'' legacy''} hlegacy'' hslot => ?_⟩
      obtain ⟨offer, hoffer, hkept⟩ := hmigrated.kept key'' legacy'' hlegacy''
      rw [hslot, horder, some_inj] at hoffer
      subst hoffer
      exact SwapOfferV1.kept_toOffer_iff.mp hkept
    refine ⟨hshort, fun key legacy key' legacy' hlegacy hlegacy' hslot => ?_,
      fun key legacy hlegacy => ?_⟩
    · obtain ⟨_, _, -, -, hequal⟩ := hstored hlegacy
      exact (hequal hlegacy rfl).symm.trans (hequal hlegacy' hslot.symm)
    · obtain ⟨key', legacy', hlegacy', hslot, hequal⟩ := hstored hlegacy
      have hagain := hequal hlegacy' hslot
      have hsame : legacy'.toOffer = legacy.toOffer := hagain.symm.trans (hequal hlegacy rfl)
      rw [← hsame]
      exact again_toOffer_iff.mp hagain
  · intro hmig
    refine ⟨fun key legacy hlegacy => ?_, fun key hsize htable => ?_⟩
    · obtain ⟨key', legacy', hlegacy', hslot, horder⟩ := h.order?_initIndex hmig.short hlegacy
      refine ⟨_, horder, SwapOfferV1.kept_toOffer_iff.mpr ?_⟩
      rw [again_toOffer_iff.mpr (hmig.stable key' legacy' hlegacy')]
      exact hmig.agree key' legacy' key legacy hlegacy' hlegacy hslot
    · rw [h.find?_initIndex_legacy hsize htable]
      exact h.find?_of_short hmig.short hsize htable

section Sample

/-- An offer of version 1 for an output with the given hash. -/
def sampleLegacy (offeredUTXOHash : Uint256) : SwapOfferV1 where
  version := 1
  type := 0
  tokenID := Blob.fill 0x07
  offeredUTXOHash := offeredUTXOHash
  offeredUTXOIndex := 0
  priceTerms := [0x0a]
  signature := [0x0b]

/-- Read again, the offer is one for another token. -/
example : (sampleLegacy Blob.null).again.tokenID ≠ (sampleLegacy Blob.null).tokenID := by
  decide +kernel

/-- An offer that cannot be read again. -/
def sampleStable : SwapOfferV1 := sampleLegacy (Blob.fill 0xff)

/-- An old index with one offer. -/
def sampleLegacyIndex (key : List UInt8) : SwapDB :=
  empty.write [([dbBestBlock], some [0]), (serializeBytes key, some sampleStable.serialize)]

section Key

variable {key : List UInt8}

theorem getLegacy_sampleStable : getLegacy sampleStable.serialize = some sampleStable := by
  decide +kernel

theorem mem_sampleLegacyIndex_iff (hkey : key ≠ []) {record : List UInt8 × List UInt8} :
    record ∈ (sampleLegacyIndex key).entries ↔
      record = ([dbBestBlock], [0]) ∨ record = (serializeBytes key, sampleStable.serialize) := by
  obtain ⟨k, value⟩ := record
  have hne := serializeBytes_ne_bestBlock hkey
  rw [← find?_eq_some_iff, sampleLegacyIndex, write, foldl_cons,
    foldl_cons, foldl_nil, find?_update, find?_update,
    find?_empty]
  grind

theorem isLegacy_sample (hsize : key.length < 2 ^ 64) (htable : key.head? = some dbLegacy) :
    IsLegacy (serializeBytes key, sampleStable.serialize) key sampleStable :=
  ⟨rfl, hsize, htable, getLegacy_sampleStable⟩

theorem legacyIndex_sample (hsize : key.length < 2 ^ 64) (htable : key.head? = some dbLegacy) :
    LegacyIndex (sampleLegacyIndex key) := by
  have hkey : key ≠ [] := by
    rintro rfl
    cases htable
  refine ⟨⟨[0], (mem_sampleLegacyIndex_iff hkey).mpr (Or.inl rfl)⟩, fun record hrecord => ?_⟩
  rcases (mem_sampleLegacyIndex_iff hkey).mp hrecord with rfl | rfl
  · exact Or.inl rfl
  · exact Or.inr ⟨key, sampleStable, isLegacy_sample hsize htable⟩

theorem holdsLegacy_sample (hsize : key.length < 2 ^ 64) (hkey : key ≠ []) {key' : List UInt8}
    {legacy : SwapOfferV1} (h : HoldsLegacy (sampleLegacyIndex key) key' legacy) :
    key' = key ∧ legacy = sampleStable := by
  obtain ⟨record, hrecord, hlegacy⟩ := h
  rcases (mem_sampleLegacyIndex_iff hkey).mp hrecord with rfl | rfl
  · have hne : key' ≠ [] := by
      rintro rfl
      cases hlegacy.table
    exact absurd hlegacy.key_eq.symm (serializeBytes_ne_bestBlock hne)
  · exact ⟨((serializeBytes_inj hsize hlegacy.size_lt).mp hlegacy.key_eq).symm,
      some.inj (hlegacy.offer.symm.trans getLegacy_sampleStable)⟩

end Key

/-- A record under a short key is moved. -/
theorem orders_migrated_short :
    LegacyIndex (sampleLegacyIndex [dbLegacy]) ∧ Migratable (sampleLegacyIndex [dbLegacy]) ∧
      OrdersMigrated (sampleLegacyIndex [dbLegacy]) (initIndex (sampleLegacyIndex [dbLegacy])) := by
  have hindex := @legacyIndex_sample [dbLegacy] (by decide) rfl
  have hmig : Migratable (sampleLegacyIndex [dbLegacy]) := by
    refine ⟨fun key legacy h => ?_, fun key legacy key' legacy' h h' _ => ?_,
      fun key legacy h again hagain => ?_⟩
    · obtain ⟨rfl, -⟩ := holdsLegacy_sample (by decide) (cons_ne_nil _ _) h
      decide
    · obtain ⟨-, rfl⟩ := holdsLegacy_sample (by decide) (cons_ne_nil _ _) h
      obtain ⟨-, rfl⟩ := holdsLegacy_sample (by decide) (cons_ne_nil _ _) h'
      rfl
    · obtain ⟨-, rfl⟩ := holdsLegacy_sample (by decide) (cons_ne_nil _ _) h
      have hnone : getLegacy sampleStable.toOffer.serialize = none := by decide +kernel
      cases hnone.symm.trans hagain
  exact ⟨hindex, hmig, (orders_migrated_iff hindex).mpr hmig⟩

/-- A record under the key of its slot in the table `s` is not. -/
theorem slot_key_not_migrated :
    LegacyIndex (sampleLegacyIndex (makeKey dbLegacy sampleStable.toOffer)) ∧
      (initIndex (sampleLegacyIndex (makeKey dbLegacy sampleStable.toOffer))).find?
        (serializeBytes (makeKey dbLegacy sampleStable.toOffer)) = some sampleStable.serialize ∧
      ¬OrdersMigrated (sampleLegacyIndex (makeKey dbLegacy sampleStable.toOffer))
        (initIndex (sampleLegacyIndex (makeKey dbLegacy sampleStable.toOffer))) := by
  have hfind : (initIndex (sampleLegacyIndex (makeKey dbLegacy sampleStable.toOffer))).find?
      (serializeBytes (makeKey dbLegacy sampleStable.toOffer)) = some sampleStable.serialize := by
    decide +kernel
  refine ⟨legacyIndex_sample (by decide +kernel) rfl, hfind, fun h => ?_⟩
  have hnone := h.removed (makeKey dbLegacy sampleStable.toOffer) (by decide +kernel) rfl
  cases hfind.symm.trans hnone

end Sample

end RadiantCore
