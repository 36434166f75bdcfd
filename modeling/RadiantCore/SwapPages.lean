import RadiantCore.DerSignature
import RadiantCore.SwapIndex

/-!
# Reading the swap index page by page

`GetOpenOrders` and the other queries seek the first key of a token in a table and read on while the
keys have that token, leaving out as many records as the offset says and stopping at the limit. The
keys are ordered by the bytes of the hash and the index of the offered output, whose bytes stand
most significant first, and the keys of a token in a table stand next to each other. So the pages of
a query make up the orders of the token in that order (`open_orders_paged`).
-/

namespace RadiantCore

open List

/-! ## Queries -/

/-- `MAX_SWAP_QUERY_LIMIT`. -/
def maxSwapQueryLimit : ℕ := 1000

/-- `MAX_SWAP_COUNT_ITERATIONS`. -/
def maxSwapCountIterations : ℕ := 100000

/-- A key that is read has the token, so the loop goes on. -/
def hasPrefix (matchPrefix : List UInt8) (record : List UInt8 × List UInt8) : Bool :=
  (getKey record.1).any matchPrefix.isPrefixOf

/-- The loop of `ReadSwapsWithPrefix`, from the records at the iterator on. -/
def readSwaps (matchPrefix : List UInt8) (limit offset : ℕ) :
    List (List UInt8 × List UInt8) → ℕ → ℕ → List SwapOffer
  | [], _, _ => []
  | record :: records, skipped, collected =>
    if collected < limit then
      if hasPrefix matchPrefix record then
        if skipped < offset then readSwaps matchPrefix limit offset records (skipped + 1) collected
        else
          match getValue record.2 with
          | some offer => offer :: readSwaps matchPrefix limit offset records skipped (collected + 1)
          | none => readSwaps matchPrefix limit offset records skipped collected
      else []
    else []

/-- `ReadSwapsWithPrefix`. -/
def readSwapsWithPrefix (db : SwapDB) (table : UInt8) (tokenID : Uint256) (limit offset : ℕ) :
    List SwapOffer :=
  readSwaps (makeMatchPrefix table tokenID) limit offset
    (db.seek (serializeBytes (makeSeekKey table tokenID))) 0 0

/-- The loop of `CountSwapsWithPrefix`. -/
def countSwaps (matchPrefix : List UInt8) : List (List UInt8 × List UInt8) → ℕ → ℕ
  | [], count => count
  | record :: records, count =>
    if count < maxSwapCountIterations then
      if hasPrefix matchPrefix record then countSwaps matchPrefix records (count + 1) else count
    else count

/-- `CountSwapsWithPrefix`. -/
def countSwapsWithPrefix (db : SwapDB) (table : UInt8) (tokenID : Uint256) : ℕ :=
  countSwaps (makeMatchPrefix table tokenID) (db.seek (serializeBytes (makeSeekKey table tokenID))) 0

/-- A query of a table. -/
def getOrders (table : UInt8) (db : SwapDB) (tokenID : Uint256) (limit offset : ℕ) :
    List SwapOffer :=
  readSwapsWithPrefix db table tokenID (min limit maxSwapQueryLimit) offset

/-- `GetOpenOrders`. -/
def getOpenOrders : SwapDB → Uint256 → ℕ → ℕ → List SwapOffer := getOrders dbOpenOrder

/-- `GetHistoryOrders`. -/
def getHistoryOrders : SwapDB → Uint256 → ℕ → ℕ → List SwapOffer := getOrders dbHistory

/-- `GetOpenOrdersByWant`. -/
def getOpenOrdersByWant : SwapDB → Uint256 → ℕ → ℕ → List SwapOffer := getOrders dbOpenWant

/-- `GetHistoryOrdersByWant`. -/
def getHistoryOrdersByWant : SwapDB → Uint256 → ℕ → ℕ → List SwapOffer := getOrders dbHistoryWant

/-- `SwapOrderCounts`. -/
structure SwapOrderCounts where
  openCount : ℕ
  historyCount : ℕ

/-- `GetOrderCounts`. -/
def getOrderCounts (db : SwapDB) (tokenID : Uint256) : SwapOrderCounts :=
  ⟨countSwapsWithPrefix db dbOpenOrder tokenID, countSwapsWithPrefix db dbHistory tokenID⟩

/-- `GetOrderCountsByWant`. -/
def getOrderCountsByWant (db : SwapDB) (wantTokenID : Uint256) : SwapOrderCounts :=
  ⟨countSwapsWithPrefix db dbOpenWant wantTokenID, countSwapsWithPrefix db dbHistoryWant wantTokenID⟩

/-! ## The loops -/

section Loops

variable {matchPrefix : List UInt8} {records : List (List UInt8 × List UInt8)}

/-- The loop reads a slice of the records it can reach. -/
theorem readSwaps_eq {limit offset : ℕ}
    (h : ∀ record ∈ records.takeWhile (hasPrefix matchPrefix), ∃ offer, getValue record.2 = some offer)
    (skipped collected : ℕ) :
    readSwaps matchPrefix limit offset records skipped collected =
      (((records.takeWhile (hasPrefix matchPrefix)).drop (offset - skipped)).take
        (limit - collected)).filterMap fun record => getValue record.2 := by
  induction records generalizing skipped collected with
  | nil => simp [readSwaps]
  | cons record records ih =>
    rw [readSwaps]
    by_cases hlimit : collected < limit
    · rw [if_pos hlimit]
      cases hmatch : hasPrefix matchPrefix record with
      | false => simp [hmatch]
      | true =>
        rw [takeWhile_cons_of_pos hmatch] at h ⊢
        obtain ⟨⟨offer, hoffer⟩, hrest⟩ := forall_mem_cons.mp h
        rw [if_pos rfl]
        by_cases hskip : skipped < offset
        · rw [if_pos hskip, ih hrest]
          have hdrop : offset - skipped = offset - (skipped + 1) + 1 := by omega
          rw [hdrop, drop_succ_cons]
        · rw [if_neg hskip, hoffer]
          have hdrop : offset - skipped = 0 := by omega
          have htake : limit - collected = limit - (collected + 1) + 1 := by omega
          simp only [ih hrest, hdrop, drop_zero, htake, take_succ_cons,
            filterMap_cons, hoffer]
    · have htake : limit - collected = 0 := by omega
      rw [if_neg hlimit, htake, take_zero, filterMap_nil]

/-- The count stops at the limit. -/
theorem countSwaps_eq (count : ℕ) : countSwaps matchPrefix records count =
    count + min (records.takeWhile (hasPrefix matchPrefix)).length
      (maxSwapCountIterations - count) := by
  induction records generalizing count with
  | nil => simp [countSwaps]
  | cons record records ih =>
    rw [countSwaps]
    split_ifs with hlimit hmatch
    · rw [takeWhile_cons_of_pos hmatch, length_cons, ih]
      omega
    · rw [takeWhile_cons_of_neg hmatch, length_nil, Nat.zero_min, Nat.add_zero]
    · omega

end Loops

/-! ## The records of a token -/

section Token

variable {db : SwapDB} {table : UInt8} {tokenID : Uint256}

/-- What the keys of a token in a table start with. -/
def tokenHead (table : UInt8) (tokenID : Uint256) : List UInt8 := tableHead table ++ tokenID.data

theorem tokenHead_isPrefix_cons {a b : UInt8} {key : List UInt8} :
    tokenHead table tokenID <+: a :: b :: key ↔
      UInt8.ofNat (keyLenForPrefix table) = a ∧ table = b ∧ tokenID.data <+: key := by
  simp [tokenHead, tableHead, cons_prefix_cons]

variable {record : List UInt8 × List UInt8}

/-- The loops go on at the keys of the token. -/
theorem IsRecord.hasPrefix_iff (h : IsRecord record) :
    hasPrefix (makeMatchPrefix table tokenID) record = true ↔ tokenHead table tokenID <+: record.1 := by
  have hlen : (tokenHead table tokenID).length = 34 := by
    rw [tokenHead, length_append, tokenID.size_eq]
    rfl
  obtain ⟨key, value⟩ := record
  obtain rfl | rfl | ⟨table', want?, offer, htable', -, -, rfl⟩ := h.cases_key
  · refine iff_of_false (by simp [hasPrefix, show getKey [dbBestBlock] = none from rfl]) fun h => ?_
    have hle : 34 ≤ [dbBestBlock].length := hlen ▸ h.length_le
    exact absurd hle (by decide)
  · have hkey : getKey (serializeBytes [dbVersion]) = some [dbVersion] := rfl
    refine iff_of_false (fun h => ?_) fun h => ?_
    · rw [hasPrefix, hkey, Option.any_some, isPrefixOf_iff_prefix] at h
      have hle := h.length_le
      rw [makeMatchPrefix, length_cons, tokenID.size_eq] at hle
      exact absurd hle (by decide)
    · have hle : 34 ≤ (serializeBytes [dbVersion]).length := hlen ▸ h.length_le
      exact absurd hle (by decide)
  · rw [hasPrefix, getKey_key, Option.any_some, isPrefixOf_iff_prefix, makeMatchPrefix,
      cons_prefix_cons, key_eq htable', tableHead, cons_append, singleton_append,
      tokenHead_isPrefix_cons]
    refine ⟨?_, fun h => h.2⟩
    rintro ⟨rfl, hprefix⟩
    exact ⟨rfl, rfl, hprefix⟩

theorem serializeBytes_makeSeekKey (htable : table ∈ orderTables) (tokenID : Uint256) :
    serializeBytes (makeSeekKey table tokenID) =
      tokenHead table tokenID ++ replicate (keyLenForPrefix table - 33) 0 := by
  have hsizes : ∀ table ∈ orderTables, 1 + 32 ≤ keyLenForPrefix table ∧
      writeCompactSize (keyLenForPrefix table) = [UInt8.ofNat (keyLenForPrefix table)] :=
    forall_orderTables (by decide)
  obtain ⟨hle, hsize⟩ := hsizes table htable
  have hkey : makeSeekKey table tokenID =
      table :: (tokenID.data ++ replicate (keyLenForPrefix table - 33) 0) := if_pos hle
  have hlen : (makeSeekKey table tokenID).length = keyLenForPrefix table := by
    rw [hkey, length_cons, length_append, tokenID.size_eq, length_replicate]
    omega
  rw [serializeBytes, hlen, hsize, hkey, tokenHead, tableHead]
  rfl

/-- The loops of a query reach the records of the token in the table. -/
theorem takeWhile_hasPrefix (h : WellFormed db) (htable : table ∈ orderTables) (tokenID : Uint256) :
    (db.seek (serializeBytes (makeSeekKey table tokenID))).takeWhile
      (hasPrefix (makeMatchPrefix table tokenID)) =
      db.entries.filter (hasPrefix (makeMatchPrefix table tokenID)) := by
  refine OrderedStore.takeWhile_seek_eq_filter db _ (fun record hrecord hmatch => ?_)
    fun a ha b hb hka hab hmatch => ?_
  · obtain ⟨rest, hrest⟩ := ((h record hrecord).hasPrefix_iff).mp hmatch
    have hlen : rest.length = keyLenForPrefix table - 33 := by
      have hkey : record.1 = tableHead table ++ (tokenID.data ++ rest) := by
        rw [← hrest, tokenHead, append_assoc]
      have hlen := (h record hrecord).length_eq htable hkey
      rw [length_append, tokenID.size_eq] at hlen
      omega
    rw [serializeBytes_makeSeekKey htable, ← hrest, append_le_append_iff_lex, ← hlen]
    exact replicate_le (fun _ => UInt8.zero_le) rest
  · obtain ⟨rest, hrest⟩ := ((h b hb).hasPrefix_iff).mp hmatch
    rw [serializeBytes_makeSeekKey htable] at hka
    have hle : a.1 ≤ tokenHead table tokenID ++ rest := by
      rw [hrest]
      exact hab.le
    exact ((h a ha).hasPrefix_iff).mpr (isPrefix_of_between hka hle)

/-- The orders of a token in a table. -/
def tokenOrders (db : SwapDB) (table : UInt8) (tokenID : Uint256) : List SwapOffer :=
  (db.entries.filter (hasPrefix (makeMatchPrefix table tokenID))).filterMap fun record =>
    getValue record.2

theorem head_of_hasPrefix (h : hasPrefix (makeMatchPrefix table tokenID) record = true) :
    (getKey record.1).bind head? = some table := by
  unfold hasPrefix at h
  cases hkey : getKey record.1 with
  | none =>
    rw [hkey] at h
    cases h
  | some key =>
    rw [hkey, Option.any_some] at h
    obtain ⟨rest, rfl⟩ := isPrefixOf_iff_prefix.mp h
    rfl

theorem getValue_of_hasPrefix (h : WellFormed db) (htable : table ∈ orderTables)
    (hrecord : record ∈ db.entries.filter (hasPrefix (makeMatchPrefix table tokenID))) :
    ∃ offer, getValue record.2 = some offer := by
  obtain ⟨hmem, hmatch⟩ := mem_filter.mp hrecord
  obtain ⟨-, offer, -, hread, -⟩ := (h record hmem).cases_of_table htable (head_of_hasPrefix hmatch)
  exact ⟨offer, hread⟩

variable {α β : Type} {l : List α} {f : α → Option β}

theorem map_some_filterMap (h : ∀ a ∈ l, ∃ b, f a = some b) : (l.filterMap f).map some = l.map f := by
  rw [map_filterMap, ← filterMap_eq_map]
  refine filterMap_congr fun a ha => ?_
  obtain ⟨b, hb⟩ := h a ha
  simp [hb]

/-- The values of a slice are a slice of the values, if every element has one. -/
theorem filterMap_slice (h : ∀ a ∈ l, ∃ b, f a = some b) (i j : ℕ) :
    ((l.drop i).take j).filterMap f = ((l.filterMap f).drop i).take j := by
  refine map_injective_iff.mpr (Option.some_injective β) ?_
  rw [map_some_filterMap fun a ha => h a (mem_of_mem_drop (mem_of_mem_take ha)), map_take, map_drop,
    map_take, map_drop, map_some_filterMap h]

theorem length_filterMap_of_forall (h : ∀ a ∈ l, ∃ b, f a = some b) :
    (l.filterMap f).length = l.length := by
  simpa using congrArg length (map_some_filterMap h)

/-- A query reads a slice of the orders of the token. -/
theorem getOrders_eq (h : WellFormed db) (htable : table ∈ orderTables) (tokenID : Uint256)
    {limit : ℕ} (hlimit : limit ≤ maxSwapQueryLimit) (offset : ℕ) :
    getOrders table db tokenID limit offset =
      ((tokenOrders db table tokenID).drop offset).take limit := by
  have hreach := takeWhile_hasPrefix h htable tokenID
  rw [getOrders, readSwapsWithPrefix, readSwaps_eq, hreach, Nat.sub_zero, Nat.sub_zero,
    min_eq_left hlimit, tokenOrders]
  · exact filterMap_slice (fun record hrecord => getValue_of_hasPrefix h htable hrecord) _ _
  · rw [hreach]
    exact fun record hrecord => getValue_of_hasPrefix h htable hrecord

/-- A count is that of the orders of the token, up to the limit. -/
theorem countSwapsWithPrefix_eq (h : WellFormed db) (htable : table ∈ orderTables)
    (tokenID : Uint256) : countSwapsWithPrefix db table tokenID =
      min (tokenOrders db table tokenID).length maxSwapCountIterations := by
  rw [countSwapsWithPrefix, countSwaps_eq, takeWhile_hasPrefix h htable, tokenOrders,
    length_filterMap_of_forall fun record hrecord => getValue_of_hasPrefix h htable hrecord,
    Nat.sub_zero, Nat.zero_add]

theorem token_isPrefix_iff {slot : Slot} : tokenID.data <+: slot.bytes ↔ slot.tokenID = tokenID := by
  have hsplit : slot.bytes = slot.tokenID.data ++
      (slot.outpoint.txid.data ++ writeBE 4 slot.outpoint.n.toNat) := by
    rw [Slot.bytes, append_assoc]
  rw [hsplit]
  constructor
  · rintro ⟨rest, hrest⟩
    exact Blob.ext (append_inj hrest (tokenID.size_eq.trans slot.tokenID.size_eq.symm)).1.symm
  · rintro rfl
    exact prefix_append _ _

variable {offer : SwapOffer}

/-- The records of a token in a table of slots. -/
theorem record_of_hasPrefix (h : WellFormed db) (htable : table ∈ [dbOpenOrder, dbHistory])
    (hrecord : record ∈ db.entries.filter (hasPrefix (makeMatchPrefix table tokenID)))
    (hoffer : getValue record.2 = some offer) :
    record.1 = offer.slot.orderKey table ∧ offer.tokenID = tokenID := by
  have hmem := mem_orderTables false _ htable
  obtain ⟨hentry, hmatch⟩ := mem_filter.mp hrecord
  obtain ⟨want?, offer', htable', hread, -, hkey⟩ :=
    (h record hentry).cases_of_table hmem (head_of_hasPrefix hmatch)
  obtain rfl : offer' = offer := Option.some.inj (hread.symm.trans hoffer)
  obtain rfl := eq_none_of_mem_keyTables htable' htable
  refine ⟨hkey, ?_⟩
  have hprefix := ((h _ hentry).hasPrefix_iff).mp hmatch
  rw [hkey] at hprefix
  exact token_isPrefix_iff.mp (tokenHead_isPrefix_cons.mp hprefix).2.2

/-- The orders of a token in a table of slots. -/
theorem mem_tokenOrders_iff (h : WellFormed db) (htable : table ∈ [dbOpenOrder, dbHistory]) :
    offer ∈ tokenOrders db table tokenID ↔
      offer.tokenID = tokenID ∧ order? db table offer.slot = some offer := by
  have hmem := mem_orderTables false _ htable
  rw [tokenOrders, mem_filterMap, h.order?_eq_some_iff]
  constructor
  · rintro ⟨record, hrecord, hoffer⟩
    obtain ⟨hkey, htoken⟩ := record_of_hasPrefix h htable hrecord hoffer
    refine ⟨htoken, rfl, record.2, ?_, hoffer⟩
    rw [← hkey]
    exact (mem_filter.mp hrecord).1
  · rintro ⟨htoken, -, value, hentry, hread⟩
    refine ⟨_, mem_filter.mpr ⟨hentry, ((h _ hentry).hasPrefix_iff).mpr ?_⟩, hread⟩
    refine tokenHead_isPrefix_cons.mpr ⟨?_, rfl, token_isPrefix_iff.mpr htoken⟩
    rw [keyLenForPrefix_eq false table htable]
    rfl

/-! ## The order of the keys -/

/-- Byte strings of one length are ordered as the numbers they denote, the most significant byte
first. -/
theorem lt_iff_readBE_lt {x y : List UInt8} (h : x.length = y.length) :
    x < y ↔ readBE x < readBE y := by
  induction x generalizing y with
  | nil =>
    obtain rfl : y = [] := length_eq_zero_iff.mp h.symm
    simp
  | cons a x ih =>
    obtain ⟨b, y, rfl⟩ := exists_cons_of_length_eq_add_one h.symm
    have hlen : x.length = y.length := Nat.succ.inj h
    rw [cons_lt_cons_iff_lex, ih hlen, readBE_cons_lt_iff hlen]

/-- The order of offers by the bytes of the hash and the index of their outputs. -/
def SwapOffer.Before (offer offer' : SwapOffer) : Prop :=
  offer.offeredUTXOHash.data < offer'.offeredUTXOHash.data ∨
    offer.offeredUTXOHash = offer'.offeredUTXOHash ∧
      offer.offeredUTXOIndex < offer'.offeredUTXOIndex

theorem before_of_orderKey_lt {offer' : SwapOffer} (htoken : offer.tokenID = offer'.tokenID)
    (h : offer.slot.orderKey table < offer'.slot.orderKey table) : offer.Before offer' := by
  have hlen {k : ℕ} (a b : Blob k) : a.data.length = b.data.length :=
    a.size_eq.trans b.size_eq.symm
  have hindex (n : UInt32) : readBE (writeBE 4 n.toNat) = n.toNat :=
    readBE_writeBE n.toNat_lt
  simp only [Slot.orderKey, cons_lt_cons_iff_lex, lt_self_iff_false, true_and, false_or, Slot.bytes,
    SwapOffer.slot, append_assoc, append_lt_append_iff_lex (hlen _ _), htoken] at h
  obtain hhash | ⟨hhash, hlt⟩ := h
  · exact Or.inl hhash
  · rw [lt_iff_readBE_lt (by rw [length_writeBE, length_writeBE]), hindex, hindex] at hlt
    exact Or.inr ⟨Blob.ext hhash, UInt32.lt_iff_toNat_lt.mpr hlt⟩

/-- The orders of a token are read in order. -/
theorem pairwise_tokenOrders (h : WellFormed db) (htable : table ∈ [dbOpenOrder, dbHistory]) :
    (tokenOrders db table tokenID).Pairwise SwapOffer.Before := by
  rw [tokenOrders, pairwise_filterMap]
  refine (db.sorted.filter _).imp_of_mem fun {a b} ha hb hlt offer hoffer offer' hoffer' => ?_
  obtain ⟨hkey, htoken⟩ := record_of_hasPrefix h htable ha hoffer
  obtain ⟨hkey', htoken'⟩ := record_of_hasPrefix h htable hb hoffer'
  rw [hkey, hkey'] at hlt
  exact before_of_orderKey_lt (htoken.trans htoken'.symm) hlt

end Token

/-! ## Pages -/

section Pages

variable {α : Type} {limit : ℕ}

/-- A page of a list. -/
def page (limit : ℕ) (l : List α) (i : ℕ) : List α := (l.drop (i * limit)).take limit

theorem flatMap_page (l : List α) (n : ℕ) :
    (range n).flatMap (page limit l) = l.take (n * limit) := by
  induction n with
  | zero => simp
  | succ n ih =>
    rw [range_succ, flatMap_append, ih, flatMap_singleton, page, Nat.succ_mul,
      take_add]

theorem page_eq_nil_iff (hlimit : 1 ≤ limit) {l : List α} {i : ℕ} :
    page limit l i = [] ↔ l.length ≤ i * limit := by
  rw [page, take_eq_nil_iff, drop_eq_nil_iff]
  exact or_iff_right (by omega)

/-- The pages of a list make it up, up to the first empty page. -/
theorem exists_pages (hlimit : 1 ≤ limit) (l : List α) : ∃ n,
    (∀ i < n, page limit l i ≠ []) ∧ page limit l n = [] ∧
      (range n).flatMap (page limit l) = l := by
  have hex : ∃ n, page limit l n = [] :=
    ⟨l.length, (page_eq_nil_iff hlimit).mpr (Nat.le_mul_of_pos_right _ hlimit)⟩
  refine ⟨Nat.find hex, fun i hi => Nat.find_min hex hi, Nat.find_spec hex, ?_⟩
  rw [flatMap_page, take_of_length_le ((page_eq_nil_iff hlimit).mp (Nat.find_spec hex))]

end Pages

/-- The open orders of a token, in the order of the hashes and indices of their outputs, are the
pages of `GetOpenOrders` up to the first empty one, whatever the size of a page; and the open count
is their number up to its limit. -/
theorem open_orders_paged {db : SwapDB} (h : WellFormed db) (tokenID : Uint256) :
    ∃ orders : List SwapOffer,
      (∀ offer, offer ∈ orders ↔
        offer.tokenID = tokenID ∧ order? db dbOpenOrder offer.slot = some offer) ∧
      orders.Pairwise SwapOffer.Before ∧
      (∀ limit, 1 ≤ limit → limit ≤ maxSwapQueryLimit → ∃ n,
        (∀ i < n, getOpenOrders db tokenID limit (i * limit) ≠ []) ∧
        getOpenOrders db tokenID limit (n * limit) = [] ∧
        ((range n).flatMap fun i => getOpenOrders db tokenID limit (i * limit)) = orders) ∧
      (getOrderCounts db tokenID).openCount = min orders.length maxSwapCountIterations := by
  have htable : dbOpenOrder ∈ [dbOpenOrder, dbHistory] := mem_cons_self
  have hmem := mem_orderTables false _ htable
  refine ⟨tokenOrders db dbOpenOrder tokenID, fun offer => mem_tokenOrders_iff h htable,
    pairwise_tokenOrders h htable, fun limit hpos hlimit => ?_, countSwapsWithPrefix_eq h hmem tokenID⟩
  have hpage (i : ℕ) : getOpenOrders db tokenID limit (i * limit) =
      page limit (tokenOrders db dbOpenOrder tokenID) i := getOrders_eq h hmem tokenID hlimit _
  simp only [hpage]
  exact exists_pages hpos _

section Sample

/-- An offer of an output. -/
def sampleOffer (index : UInt32) : SwapOffer where
  version := 1
  tokenID := Blob.null
  wantTokenID := Blob.null
  offeredUTXOHash := Blob.null
  offeredUTXOIndex := index
  priceTerms := []
  signature := []

/-- An index with two orders, the later output written first. -/
def sampleBook : SwapDB :=
  OrderedStore.empty.write ([sampleOffer 2, sampleOffer 1].flatMap fun offer =>
    offerUpdates dbOpenOrder dbOpenWant offer (some offer.serialize))

theorem wellFormed_sampleBook : WellFormed sampleBook := by
  refine wellFormed_empty.write fun update hupdate => ?_
  obtain ⟨offer, hoffer, hupdate⟩ := mem_flatMap.mp hupdate
  have hread : offer.Readable := by
    simp only [mem_cons, not_mem_nil, or_false] at hoffer
    rcases hoffer with rfl | rfl <;> exact ⟨Nat.zero_le _, Nat.zero_le _⟩
  exact isRecord_offerUpdates (by decide) (by decide) hread update hupdate

/-- Pages of one order. -/
theorem open_orders_paged_sample :
    getOpenOrders sampleBook Blob.null 1 0 = [sampleOffer 1] ∧
    getOpenOrders sampleBook Blob.null 1 1 = [sampleOffer 2] ∧
    ∃ orders : List SwapOffer,
      (∀ offer, offer ∈ orders ↔
        offer.tokenID = Blob.null ∧ order? sampleBook dbOpenOrder offer.slot = some offer) ∧
      orders.Pairwise SwapOffer.Before ∧
      (∀ limit, 1 ≤ limit → limit ≤ maxSwapQueryLimit → ∃ n,
        (∀ i < n, getOpenOrders sampleBook Blob.null limit (i * limit) ≠ []) ∧
        getOpenOrders sampleBook Blob.null limit (n * limit) = [] ∧
        ((range n).flatMap fun i => getOpenOrders sampleBook Blob.null limit (i * limit)) =
          orders) ∧
      (getOrderCounts sampleBook Blob.null).openCount = min orders.length maxSwapCountIterations :=
  ⟨by decide +kernel, by decide +kernel, open_orders_paged wellFormed_sampleBook Blob.null⟩

end Sample

end RadiantCore
