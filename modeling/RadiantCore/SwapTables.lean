import RadiantCore.SwapIndex

/-!
# What the swap index keeps

`WriteBlock` stores the offer of a well-formed advertisement, but with the index zero when the index
of the output is pushed with `OP_1` to `OP_16` (`stored_index_iff`). Over a chain, open orders are
for outputs that are not spent, unless an advertisement comes too late (`open_orders_live_iff`), and
disconnecting a block undoes what it wrote only to slots that are `Undoable` (`disconnect_undoes_iff`).
The orders by wanted token mirror the orders in a run of the index as long as an offer that takes the
place of another wants the same token (`mirrored_run_iff`).
-/

namespace RadiantCore

open List Option Blob

section Index

variable [Crypto]

/-! ## The offers of a block -/

/-- The offers that a block advertises for a slot. -/
def ReadBlock.ads (block : ReadBlock) (height : Int32) (slot : Slot) : List SwapOffer :=
  (block.scripts.filterMap fun script => ((swapOffer? height script).toOption).join).filter
    (·.slot = slot)

/-- No advertisement of the block has an index that is too long. -/
def ReadBlock.Parses (block : ReadBlock) : Prop := ∀ script ∈ block.scripts, ¬ LongIndex script

instance (block : ReadBlock) : Decidable block.Parses :=
  inferInstanceAs (Decidable (∀ script ∈ block.scripts, _))

section Written

variable {db db' : SwapDB} {block : ReadBlock} {height : Int32} {offers : List SwapOffer}

theorem filter_blockOffers (h : blockOffers block height = .ok offers) (slot : Slot) :
    offers.filter (·.slot = slot) = block.ads height slot := by
  obtain ⟨results, hall, rfl⟩ := blockOffers_eq_ok_iff.mp h
  rw [ReadBlock.ads]
  refine congrArg (filter _) ?_
  clear h
  generalize block.scripts = scripts at hall
  induction hall with
  | nil => rfl
  | @cons script result scripts results hresult _ ih =>
    rw [filterMap_cons, hresult, ← ih]
    cases result with
    | none => rfl
    | some offer => rfl

theorem mem_ads_iff {slot : Slot} {offer : SwapOffer} : offer ∈ block.ads height slot ↔
    (∃ script ∈ block.scripts, swapOffer? height script = .ok (some offer)) ∧ offer.slot = slot := by
  rw [ReadBlock.ads, mem_filter, mem_filterMap, decide_eq_true_eq]
  refine and_congr_left fun _ => exists_congr fun script => and_congr_right fun _ => ?_
  cases swapOffer? height script with
  | error e => simp [Except.toOption]
  | ok offer? => cases offer? <;> simp [Except.toOption]

/-- `WriteBlock` returns, unless an index is too long. -/
theorem exists_writeBlock_iff : (∃ db', writeBlock db block height = .ok db') ↔ block.Parses := by
  rw [ReadBlock.Parses, ← exists_blockOffers_iff]
  constructor
  · rintro ⟨db', h⟩
    obtain ⟨offers, hoffers, -⟩ := writeBlock_eq_ok_iff.mp h
    exact ⟨offers, hoffers⟩
  · rintro ⟨offers, hoffers⟩
    exact ⟨_, writeBlock_eq_ok_iff.mpr ⟨offers, hoffers, rfl⟩⟩

/-- `WriteBlock` writes every slot. -/
theorem slotState_of_writeBlock (h : WellFormed db) (hwrite : writeBlock db block height = .ok db')
    (slot : Slot) : slotState db' slot =
      (slotState db slot).write height (block.spends slot) (block.ads height slot) := by
  obtain ⟨offers, hoffers, -⟩ := writeBlock_eq_ok_iff.mp hwrite
  rw [slotState_writeBlock h hwrite hoffers slot, filter_blockOffers hoffers]

end Written

/-! ## The index of an advertisement -/

/-- `WriteBlock` returns, and the offer it has stored for an output has an index. The record may be
that of a later advertisement of the same slot. -/
def StoresIndex (db : SwapDB) (block : ReadBlock) (height : Int32) (script : CScript)
    (index : UInt32) : Prop :=
  ∃ db' offer stored, writeBlock db block height = .ok db' ∧
    swapOffer? height script = .ok (some offer) ∧ offer.offeredUTXOIndex = index ∧
    order? db' dbOpenOrder offer.slot = some stored ∧ stored.slot = offer.slot

theorem exists_stored {db db' : SwapDB} {block : ReadBlock} {height : Int32} {script : CScript}
    {offer : SwapOffer} (hwrite : writeBlock db block height = .ok db')
    (hscript : script ∈ block.scripts) (hoffer : swapOffer? height script = .ok (some offer)) :
    ∃ stored, order? db' dbOpenOrder offer.slot = some stored ∧ stored.slot = offer.slot := by
  obtain ⟨offers, hoffers, rfl⟩ := writeBlock_eq_ok_iff.mp hwrite
  have hslot := congrArg SlotState.openOrder (slotState_write_offers
    (processSpentOrders db block height) (fun _ => readable_of_mem_blockOffers hoffers) offer.slot)
  rw [SlotState.openOrder_advertise] at hslot
  have hmem : offer ∈ offers.filter (·.slot = offer.slot) :=
    mem_filter.mpr ⟨(mem_blockOffers_iff hoffers).mpr ⟨script, hscript, hoffer⟩,
      decide_eq_true rfl⟩
  have hstored := getLast?_eq_some_getLast (ne_nil_of_mem hmem)
  generalize getLast _ _ = stored at hstored
  rw [hstored, some_or] at hslot
  have hlast := (mem_filter.mp (mem_of_getLast? hstored)).2
  exact ⟨stored, hslot, by simpa using hlast⟩

/-- The offer of a well-formed advertisement is stored with the index that is pushed, unless it is
pushed with `OP_1` to `OP_16` or the node aborts at another output of the block. -/
theorem stored_index_iff {tokenID offeredUTXOHash : Uint256} {n : ℕ} {script : CScript}
    {block : ReadBlock} (hn : n < 2 ^ 31)
    (had : IsAd tokenID offeredUTXOHash (pushInt64 n) script) (hscript : script ∈ block.scripts)
    (db : SwapDB) (height : Int32) :
    StoresIndex db block height script (UInt32.ofNat n) ↔ (n = 0 ∨ 17 ≤ n) ∧ block.Parses := by
  obtain ⟨offer, hoffer, hslot⟩ := had.swapOffer? (AdReader.index_reads hn) height
  have hindex : offer.offeredUTXOIndex = if 1 ≤ n ∧ n ≤ 16 then 0 else UInt32.ofNat n :=
    congrArg (fun slot => slot.outpoint.n) hslot
  have hiff : offer.offeredUTXOIndex = UInt32.ofNat n ↔ n = 0 ∨ 17 ≤ n := by
    rw [hindex]
    split_ifs with hsmall
    · refine iff_of_false (fun h => ?_) (by omega)
      have hnat := congrArg UInt32.toNat h
      rw [UInt32.toNat_ofNat', UInt32.toNat_zero] at hnat
      omega
    · exact iff_of_true rfl (by omega)
  rw [← hiff, ← @exists_writeBlock_iff _ db block height]
  constructor
  · rintro ⟨db', offer', stored, hwrite, hoffer', hindex', -⟩
    obtain rfl : offer = offer' := some.inj (Except.ok.inj (hoffer.symm.trans hoffer'))
    exact ⟨hindex', db', hwrite⟩
  · rintro ⟨hindex', db', hwrite⟩
    obtain ⟨stored, hstored, hslot'⟩ := exists_stored hwrite hscript hoffer
    exact ⟨db', offer, stored, hwrite, hoffer, hindex', hstored, hslot'⟩

end Index

section Sample

attribute [local instance] Crypto.toy

/-- A token. -/
def sampleToken : Uint256 := Blob.fill 0x07

/-- An advertisement of the legacy format, with the push of its index. -/
def sampleAd (offeredUTXOHash : Uint256) (index : List UInt8) : CScript :=
  0x6a :: ([4, 0x52, 0x53, 0x57, 0x50] ++ ([1, 1] ++ ([1, 0] ++ (0x20 :: sampleToken.data ++
    (0x20 :: offeredUTXOHash.data ++ (index ++ ([1, 0x0a] ++ [1, 0x0b])))))))

theorem isAd_sampleAd (index : List UInt8) :
    IsAd sampleToken null index (sampleAd null index) :=
  @IsAd.v1 sampleToken null index [4, 0x52, 0x53, 0x57, 0x50] [1, 1] [1, 0]
    (0x20 :: sampleToken.data) (0x20 :: null.data) [1, 0x0a] [1, 0x0b] 1 0 [0x0a] [0x0b]
    (by decide) (by decide) (by decide) (by decide) (by decide) (by decide) (by decide) (by decide)

/-- A coinbase that pays to a script. -/
def sampleCoinbaseTo (script : CScript) : CTransaction := sampleTx ⟨null, 0xffffffff⟩ 0 script

/-- A block that advertises output 17 of a transaction. -/
def sampleBlock17 : ReadBlock := ⟨[sampleCoinbaseTo (sampleAd null (pushInt64 17))], by decide⟩

theorem stored_index_seventeen :
    IsAd sampleToken null (pushInt64 17) (sampleAd null (pushInt64 17)) ∧
      StoresIndex .empty sampleBlock17 1 (sampleAd null (pushInt64 17)) 17 :=
  ⟨isAd_sampleAd _, (stored_index_iff (n := 17) (by decide) (isAd_sampleAd _) (by decide) _ _).mpr
    ⟨Or.inr le_rfl, by decide⟩⟩

/-- A block that advertises output 1 of a transaction, with `OP_1`. -/
def sampleBlock1 : ReadBlock := ⟨[sampleCoinbaseTo (sampleAd null (pushInt64 1))], by decide⟩

/-- The offer of output 1 is stored as one of output 0. -/
theorem small_index_lost :
    IsAd sampleToken null (pushInt64 1) (sampleAd null (pushInt64 1)) ∧
      sampleAd null (pushInt64 1) ∈ sampleBlock1.scripts ∧ sampleBlock1.Parses ∧
      StoresIndex .empty sampleBlock1 1 (sampleAd null (pushInt64 1)) 0 ∧
      ¬ StoresIndex .empty sampleBlock1 1 (sampleAd null (pushInt64 1)) 1 := by
  have hok : ∃ db' ∈ (writeBlock .empty sampleBlock1 1).toOption,
      ∃ offer ∈ (swapOffer? 1 (sampleAd null (pushInt64 1))).toOption.join,
      offer.offeredUTXOIndex = 0 ∧
      ∃ stored ∈ order? db' dbOpenOrder offer.slot, stored.slot = offer.slot := by decide +kernel
  obtain ⟨db', hdb', offer, hoffer, hindex, stored, hstored, hslot⟩ := hok
  have hparse : swapOffer? 1 (sampleAd null (pushInt64 1)) = .ok (some offer) :=
    toOption_eq_some_iff.mp (join_eq_some_iff.mp hoffer)
  refine ⟨isAd_sampleAd _, by decide, by decide, ?_, ?_⟩
  · exact ⟨db', offer, stored, toOption_eq_some_iff.mp hdb', hparse, hindex, hstored, hslot⟩
  · rintro ⟨_, offer', _, _, hparse', hindex', -⟩
    obtain rfl : offer = offer' := some.inj (Except.ok.inj (hparse.symm.trans hparse'))
    rw [hindex] at hindex'
    exact absurd hindex' (by decide)

end Sample

/-! ## Chains -/

section Chain

variable [Crypto]

/-- `WriteBlock` over the blocks of a chain, with their heights. -/
def writeBlocks (db : SwapDB) (chain : List (ReadBlock × Int32)) : Except Failure SwapDB :=
  chain.foldlM (fun db b => writeBlock db b.1 b.2) db

variable {db : SwapDB} {chain : List (ReadBlock × Int32)}

theorem writeBlocks_concat {db' : SwapDB} {b : ReadBlock × Int32} :
    writeBlocks db (chain ++ [b]) = .ok db' ↔
      ∃ mid, writeBlocks db chain = .ok mid ∧ writeBlock mid b.1 b.2 = .ok db' := by
  simp only [writeBlocks, foldlM_append, foldlM_cons, foldlM_nil, bind_eq_ok_iff,
    pure_eq_ok_iff, exists_eq_right]

theorem wellFormed_writeBlocks (h : writeBlocks .empty chain = .ok db) : WellFormed db :=
  foldlM_inv _ (fun _ _ _ _ hmid hwrite => hmid.writeBlock hwrite) wellFormed_empty h

omit [Crypto] in
/-- The ways to split a list with one more element. -/
theorem exists_split_concat_iff {α : Type} {l : List α} {x : α} {p : List α → α → List α → Prop} :
    (∃ before a after, l ++ [x] = before ++ a :: after ∧ p before a after) ↔
      p l x [] ∨ ∃ before a after, l = before ++ a :: after ∧ p before a (after ++ [x]) := by
  constructor
  · rintro ⟨before, a, after, heq, hp⟩
    rcases eq_nil_or_concat' after with rfl | ⟨init, last, rfl⟩
    · obtain ⟨rfl, hx⟩ := append_inj' heq rfl
      obtain rfl := singleton_inj.mp hx
      exact Or.inl hp
    · rw [← cons_append, ← append_assoc] at heq
      obtain ⟨rfl, hx⟩ := append_inj' heq rfl
      obtain rfl := singleton_inj.mp hx
      exact Or.inr ⟨before, a, init, rfl, hp⟩
  · rintro (hp | ⟨before, a, after, rfl, hp⟩)
    · exact ⟨l, x, [], rfl, hp⟩
    · exact ⟨before, a, after ++ [x], by simp, hp⟩

/-- The open orders after a chain : a block advertises the slot and no later block spends it. -/
theorem open_order_iff (h : writeBlocks .empty chain = .ok db) (slot : Slot) :
    (order? db dbOpenOrder slot).isSome ↔ ∃ before b after, chain = before ++ b :: after ∧
      b.1.ads b.2 slot ≠ [] ∧ ∀ b' ∈ after, slot.outpoint ∉ b'.1.spentOutpoints := by
  induction chain using reverseRecOn generalizing db with
  | nil =>
    obtain rfl := pure_eq_ok_iff.mp h
    simp [order?]
  | append_singleton chain b ih =>
    obtain ⟨mid, hmid, hwrite⟩ := writeBlocks_concat.mp h
    have hopen : order? db dbOpenOrder slot = _ := congrArg SlotState.openOrder
      (slotState_of_writeBlock (wellFormed_writeBlocks hmid) hwrite slot)
    rw [hopen, SlotState.openOrder_write, exists_split_concat_iff, isSome_or, Bool.or_eq_true]
    refine or_congr ?_ ?_
    · rw [isSome_iff_ne_none, Ne, getLast?_eq_none_iff]
      simp
    · have hmidOpen : (if b.1.spends slot = true then none
          else (slotState mid slot).openOrder).isSome ↔
          slot.outpoint ∉ b.1.spentOutpoints ∧ (order? mid dbOpenOrder slot).isSome := by
        by_cases hspends : slot.outpoint ∈ b.1.spentOutpoints
        · simp [ReadBlock.spends, hspends]
        · simp [ReadBlock.spends, hspends, slotState]
      rw [hmidOpen, ih hmid]
      simp only [mem_append, mem_singleton, or_imp, forall_and, forall_eq]
      constructor
      · rintro ⟨hnot, before, b', after, hchain, hads, hafter⟩
        exact ⟨before, b', after, hchain, hads, hafter, hnot⟩
      · rintro ⟨before, b', after, hchain, hads, hafter, hnot⟩
        exact ⟨hnot, before, b', after, hchain, hads, hafter⟩

/-- After a chain, the open orders are for outputs that no block of it spends. -/
def OpenOrdersLive (db : SwapDB) (chain : List (ReadBlock × Int32)) : Prop :=
  ∀ slot offer, order? db dbOpenOrder slot = some offer →
    ∀ b ∈ chain, slot.outpoint ∉ b.1.spentOutpoints

/-- Open orders are live, unless an output is advertised in the block that spends it last or in a
later one. -/
theorem open_orders_live_iff (h : writeBlocks .empty chain = .ok db) :
    OpenOrdersLive db chain ↔ ∀ before b after, chain = before ++ b :: after →
      ∀ slot, b.1.ads b.2 slot ≠ [] →
      (∃ b' ∈ before ++ [b], slot.outpoint ∈ b'.1.spentOutpoints) →
      ∃ b' ∈ after, slot.outpoint ∈ b'.1.spentOutpoints := by
  constructor
  · rintro hlive before b after rfl slot hads ⟨b', hb', hspent⟩
    by_contra hnot
    push Not at hnot
    obtain ⟨offer, hoffer⟩ := isSome_iff_exists.mp
      ((open_order_iff h slot).mpr ⟨before, b, after, rfl, hads, hnot⟩)
    refine hlive slot offer hoffer b' ?_ hspent
    rw [← singleton_append, ← append_assoc]
    exact mem_append_left after hb'
  · intro hcond slot offer hoffer b' hb' hspent
    obtain ⟨before, b, after, rfl, hads, hnot⟩ :=
      (open_order_iff h slot).mp (isSome_iff_exists.mpr ⟨offer, hoffer⟩)
    rw [← singleton_append, ← append_assoc] at hb'
    rcases mem_append.mp hb' with hearly | hlate
    · obtain ⟨b'', hb'', hlater⟩ := hcond before b after rfl slot hads ⟨b', hearly, hspent⟩
      exact hnot b'' hb'' hlater
    · exact hnot b' hlate hspent

end Chain

section Sample

attribute [local instance] Crypto.toy

/-- An output is advertised and not spent. -/
theorem open_orders_live_advertised : ∃ db, writeBlocks .empty [(sampleBlock17, 1)] = .ok db ∧
    (∃ offer, order? db dbOpenOrder ⟨sampleToken, ⟨null, 17⟩⟩ = some offer) ∧
    OpenOrdersLive db [(sampleBlock17, 1)] := by
  have hok : ∃ db ∈ (writeBlocks .empty [(sampleBlock17, 1)]).toOption,
      ∃ offer ∈ order? db dbOpenOrder ⟨sampleToken, ⟨null, 17⟩⟩, True := by decide +kernel
  obtain ⟨db, hdb, offer, hoffer, -⟩ := hok
  have hrun := toOption_eq_some_iff.mp hdb
  have hspent : ∀ b ∈ [(sampleBlock17, (1 : Int32))], b.1.spentOutpoints = [] := by decide
  refine ⟨db, hrun, ⟨offer, hoffer⟩, (open_orders_live_iff hrun).mpr ?_⟩
  rintro before b after heq slot - ⟨b', hb', hmem⟩
  have hchain : b' ∈ [(sampleBlock17, (1 : Int32))] := by
    rw [heq, ← singleton_append, ← append_assoc]
    exact mem_append_left after hb'
  rw [hspent b' hchain] at hmem
  cases hmem

/-- A first block. -/
def sampleRewardBlock : ReadBlock := ⟨[sampleReward], by decide⟩

/-- A block that spends the output of the first one and advertises it. -/
def sampleLateBlock : ReadBlock :=
  ⟨[sampleCoinbase, sampleTx (sampleReward.outpoint 0) 20 (sampleAd sampleReward.getId [0])],
    by decide +kernel⟩

/-- An accepted chain that leaves an open order for a spent output. -/
theorem spent_order_open : ∃ db view,
    writeBlocks .empty [(sampleRewardBlock, 1), (sampleLateBlock, 101)] = .ok db ∧
    UtxoRun sampleParams (sampleRewardBlock.vtx ++ sampleLateBlock.vtx) view ∧
    ¬ OpenOrdersLive db [(sampleRewardBlock, 1), (sampleLateBlock, 101)] := by
  have hdb : ∃ db ∈
      (writeBlocks .empty [(sampleRewardBlock, 1), (sampleLateBlock, 101)]).toOption,
      ∃ offer ∈ order? db dbOpenOrder ⟨sampleToken, sampleReward.outpoint 0⟩, True := by
    decide +kernel
  have hview : ∃ view ∈ ((do
      let st ← utxoStage sampleParams (sampleIndexAt 1) sampleRewardBlock.vtx ∅
      let st ← utxoStage sampleParams (sampleIndexAt 101) sampleLateBlock.vtx st.view
      return st.view).toOption), True := by decide +kernel
  obtain ⟨db, hdb, offer, hoffer, -⟩ := hdb
  obtain ⟨view, hview, -⟩ := hview
  simp only [mem_def, toOption_eq_some_iff, bind_eq_ok_iff, pure_eq_ok_iff] at hview
  obtain ⟨st₁, h₁, st₂, h₂, rfl⟩ := hview
  refine ⟨db, st₂.view, toOption_eq_some_iff.mp hdb, ?_, fun hlive => ?_⟩
  · exact (UtxoRun.empty.block (by decide +kernel) h₁).block (by decide +kernel) h₂
  · exact hlive _ offer hoffer (sampleLateBlock, 101) (by simp) (by decide +kernel)

end Sample

/-! ## Disconnecting a block -/

section Disconnect

variable [Crypto] {db : SwapDB} {chain : List (ReadBlock × Int32)}

variable {slot : Slot}

/-- What was not spent has no history. -/
theorem history_eq_none (h : writeBlocks .empty chain = .ok db)
    (hunspent : ∀ b ∈ chain, slot.outpoint ∉ b.1.spentOutpoints) :
    (slotState db slot).history = none ∧ ∀ want, (slotState db slot).historyWant want = none := by
  refine (foldlM_inv (fun db => WellFormed db ∧ (slotState db slot).history = none ∧
    ∀ want, (slotState db slot).historyWant want = none) (fun mid b hb db' hmid hwrite => ?_)
    ⟨wellFormed_empty, rfl, fun _ => rfl⟩ h).2
  have hspends : b.1.spends slot = false := decide_eq_false (hunspent b hb)
  refine ⟨hmid.1.writeBlock hwrite, ?_⟩
  rw [slotState_of_writeBlock hmid.1 hwrite, hspends, SlotState.write,
    SlotState.history_advertise, SlotState.historyWant_advertise]
  exact hmid.2

/-! ### Accepted chains -/

/-- The transactions of a chain. -/
def chainTxs (chain : List (ReadBlock × Int32)) : List CTransaction := chain.flatMap fun b => b.1.vtx

variable {params : Params} {view : CoinsMap}

/-- In a chain of accepted blocks with distinct transactions, what a block spends is not spent
again. -/
theorem UtxoRun.spent_once {before after : List (ReadBlock × Int32)}
    (hrun : UtxoRun params (chainTxs (before ++ after)) view)
    (hids : ((chainTxs (before ++ after)).map CTransaction.getId).Nodup) {o : COutPoint}
    (hbefore : ∃ b ∈ before, o ∈ b.1.spentOutpoints) : ∀ b ∈ after, o ∉ b.1.spentOutpoints := by
  have hmem : ∀ {chain : List (ReadBlock × Int32)} {b}, b ∈ chain → o ∈ b.1.spentOutpoints →
      o ∈ spentBy (regularTxs (chainTxs chain)) := by
    intro chain b hb ho
    obtain ⟨tx, htx, ho⟩ := mem_flatMap.mp ho
    obtain ⟨htx, hregular⟩ := mem_filter.mp htx
    exact mem_flatMap.mpr ⟨tx, mem_filter.mpr
      ⟨mem_flatMap.mpr ⟨b, hb, htx⟩, hregular⟩, ho⟩
  have hnodup := (hrun.inv hids).nodup
  rw [chainTxs, flatMap_append, regularTxs, filter_append, spentBy,
    flatMap_append] at hnodup
  obtain ⟨b', hb', ho'⟩ := hbefore
  intro b hb ho
  exact (disjoint_of_nodup_append hnodup) (hmem hb' ho') (hmem hb ho)

variable {block : ReadBlock}

/-- On a chain of accepted blocks, the next block finds no history of what it spends. -/
theorem UtxoRun.history_eq_none
    {height : Int32} (hrun : UtxoRun params (chainTxs (chain ++ [(block, height)])) view)
    (hids : ((chainTxs (chain ++ [(block, height)])).map CTransaction.getId).Nodup)
    (h : writeBlocks .empty chain = .ok db) (hspends : block.spends slot = true) :
    (slotState db slot).history = none ∧ ∀ want, (slotState db slot).historyWant want = none := by
  refine RadiantCore.history_eq_none h fun b hb hspent => ?_
  exact hrun.spent_once hids ⟨b, hb, hspent⟩ _ (mem_singleton.mpr rfl)
    (of_decide_eq_true hspends)

/-! ### Undoing a block -/

/-- `ProcessDisconnectedBlock` looks for orders that an advertisement of the block matches, if it
gets so far. -/
def ReadBlock.withdraws (block : ReadBlock) (slot : Slot) : Bool :=
  block.spentOutpoints ≠ [] && block.matchesSlot slot

/-- A block is written and disconnected again, and the tables are as before up to the heights. -/
def Undone (db : SwapDB) (block : ReadBlock) (height : Int32) : Prop :=
  ∃ db', writeBlock db block height = .ok db' ∧
    ∀ slot, (slotState (processDisconnectedBlock db' block) slot).Same (slotState db slot)

theorem openIndexed_writeBlocks {db : SwapDB} {chain : List (ReadBlock × Int32)}
    (h : writeBlocks .empty chain = .ok db) (slot : Slot) : (slotState db slot).OpenIndexed := by
  refine (foldlM_inv (fun db => WellFormed db ∧ (slotState db slot).OpenIndexed)
    (fun mid b _ db' hmid hwrite => ⟨hmid.1.writeBlock hwrite, ?_⟩)
    ⟨wellFormed_empty, fun _ hoffer => by cases hoffer⟩ h).2
  rw [slotState_of_writeBlock hmid.1 hwrite slot]
  exact hmid.2.write _ _ _

/-- An advertisement that names a wanted token is found again. -/
theorem not_wants_of_not_withdraws {height : Int32}
    (hspends : block.spends slot = true) (hwithdraws : block.withdraws slot = false) :
    ∀ ad ∈ block.ads height slot, ∀ want, ¬ ad.Wants want := by
  rintro ad had want ⟨hnull, rfl⟩
  obtain ⟨⟨script, hscript, hparse⟩, rfl⟩ := mem_ads_iff.mp had
  have hne : block.spentOutpoints ≠ [] := by
    intro hnil
    simp [ReadBlock.spends, hnil] at hspends
  have hmatches : block.matchesSlot ad.slot = false := by
    simpa [ReadBlock.withdraws, hne] using hwithdraws
  rcases matchAd_swapOffer? hparse with hmatch | hwant
  · have htrue : block.matchesSlot ad.slot = true := decide_eq_true ⟨script, hscript, hmatch⟩
    rw [htrue] at hmatches
    cases hmatches
  · rw [hwant] at hnull
    exact absurd hnull (by decide)

/-- When disconnecting a block undoes what it wrote. -/
theorem disconnect_undoes_iff {db : SwapDB} {chain : List (ReadBlock × Int32)}
    (h : writeBlocks .empty chain = .ok db) (block : ReadBlock) (height : Int32) :
    Undone db block height ↔ block.Parses ∧ ∀ slot, (slotState db slot).Undoable
      (block.spends slot) (block.withdraws slot) (block.ads height slot) := by
  have hwell := wellFormed_writeBlocks h
  have hslot : ∀ db', writeBlock db block height = .ok db' → ∀ slot,
      ((slotState (processDisconnectedBlock db' block) slot).Same (slotState db slot) ↔
        (slotState db slot).Undoable (block.spends slot) (block.withdraws slot)
          (block.ads height slot)) := by
    intro db' hwrite slot
    rw [slotState_processDisconnectedBlock (hwell.writeBlock hwrite),
      slotState_of_writeBlock hwell hwrite]
    exact SlotState.same_disconnect_write_iff (openIndexed_writeBlocks h slot)
      not_wants_of_not_withdraws
  rw [← @exists_writeBlock_iff _ db block height]
  constructor
  · rintro ⟨db', hwrite, hsame⟩
    exact ⟨⟨db', hwrite⟩, fun slot => (hslot db' hwrite slot).mp (hsame slot)⟩
  · rintro ⟨⟨db', hwrite⟩, hcond⟩
    exact ⟨db', hwrite, fun slot => (hslot db' hwrite slot).mpr (hcond slot)⟩

end Disconnect

section Sample

attribute [local instance] Crypto.toy

/-- A block that advertises an order for the output of the first block. -/
def sampleOrderBlock : ReadBlock :=
  ⟨[sampleCoinbaseTo (sampleAd sampleReward.getId [0])], by decide +kernel⟩

/-- A block that spends the output. -/
def sampleSpendBlock : ReadBlock :=
  ⟨[sampleCoinbase, sampleTx (sampleReward.outpoint 0) 20 [0x51]], by decide⟩

/-- An order is spent, and restored when the block is disconnected. -/
theorem disconnect_undoes_spend : ∃ db,
    writeBlocks .empty [(sampleRewardBlock, 1), (sampleOrderBlock, 2)] = .ok db ∧
    (∃ offer, order? db dbOpenOrder ⟨sampleToken, sampleReward.outpoint 0⟩ = some offer) ∧
    Undone db sampleSpendBlock 101 := by
  have hok : ∃ db ∈
      (writeBlocks .empty [(sampleRewardBlock, 1), (sampleOrderBlock, 2)]).toOption,
      ∃ offer ∈ order? db dbOpenOrder ⟨sampleToken, sampleReward.outpoint 0⟩, True := by
    decide +kernel
  obtain ⟨db, hdb, offer, hoffer, -⟩ := hok
  have hrun := toOption_eq_some_iff.mp hdb
  have hspent : ∀ b ∈ [(sampleRewardBlock, (1 : Int32)), (sampleOrderBlock, 2)],
      b.1.spentOutpoints = [] := by decide +kernel
  have hads : ∀ slot, sampleSpendBlock.ads 101 slot = [] := by
    intro slot
    have hnone : (sampleSpendBlock.scripts.filterMap fun script =>
        ((swapOffer? 101 script).toOption).join) = [] := by decide +kernel
    rw [ReadBlock.ads, hnone]
    rfl
  have hmatch : ∀ slot, sampleSpendBlock.withdraws slot = false := by
    intro slot
    have hnone : ∀ script ∈ sampleSpendBlock.scripts, matchAd script = none := by decide +kernel
    have hfalse : sampleSpendBlock.matchesSlot slot = false := by
      refine decide_eq_false ?_
      rintro ⟨script, hscript, hmatch⟩
      rw [hnone script hscript] at hmatch
      cases hmatch
    rw [ReadBlock.withdraws, hfalse, Bool.and_false]
  refine ⟨db, hrun, ⟨offer, hoffer⟩, (disconnect_undoes_iff hrun _ _).mpr ⟨by decide, fun slot => ?_⟩⟩
  rw [hads, hmatch]
  obtain ⟨hhistory, hwant⟩ := history_eq_none hrun fun b hb => by
    rw [hspent b hb]
    exact not_mem_nil
  exact ⟨fun _ => ⟨hhistory, fun _ _ want _ => hwant want⟩, by simp⟩

/-- The first block of a chain, a coinbase that advertises an offer, is not undone : nothing is done
when a block that spends nothing is disconnected. -/
theorem coinbase_ad_not_undone : ∃ view, UtxoRun sampleParams sampleBlock17.vtx view ∧
    ¬ Undone .empty sampleBlock17 1 := by
  have hview : ∃ st ∈ (utxoStage sampleParams (sampleIndexAt 1) sampleBlock17.vtx ∅).toOption,
      True := by decide +kernel
  have hok : ∃ db' ∈ (writeBlock .empty sampleBlock17 1).toOption,
      ∃ offer ∈ order? (processDisconnectedBlock db' sampleBlock17) dbOpenOrder
        ⟨sampleToken, ⟨null, 17⟩⟩, True := by decide +kernel
  obtain ⟨st, hst, -⟩ := hview
  obtain ⟨db', hdb', offer, hoffer, -⟩ := hok
  refine ⟨st.view, ?_, ?_⟩
  · exact UtxoRun.empty.block (by decide +kernel) (toOption_eq_some_iff.mp hst)
  · rintro ⟨db'', hwrite, hsame⟩
    obtain rfl : db' = db'' :=
      Except.ok.inj ((toOption_eq_some_iff.mp hdb').symm.trans hwrite)
    have hopen := (hsame ⟨sampleToken, ⟨null, 17⟩⟩).openOrder
    rw [show (slotState _ _).openOrder = some offer from hoffer] at hopen
    exact sameOrder_some_none hopen

end Sample

/-! ## Orders by wanted token -/

section Mirror

variable [Crypto]

/-- The steps of the index. -/
inductive SwapEvent
  | write (block : ReadBlock) (height : Int32)
  | disconnect (block : ReadBlock)
  | prune (cutoffHeight : Int32)

/-- The database after a step. -/
def SwapEvent.run (db : SwapDB) : SwapEvent → Except Failure SwapDB
  | write block height => writeBlock db block height
  | disconnect block => .ok (processDisconnectedBlock db block)
  | prune cutoffHeight => .ok (deleteHistoryOlderThan db cutoffHeight)

/-- The database after some steps from an empty one. -/
def runEvents (events : List SwapEvent) : Except Failure SwapDB :=
  events.foldlM SwapEvent.run .empty

/-- An offer is stored under the key of its wanted token exactly if it wants a token and is stored
under its own key. -/
def MirroredTables (db : SwapDB) : Prop := ∀ offer : SwapOffer,
  (wantOrder? db dbOpenWant offer.wantTokenID offer.slot = some offer ↔
    offer.wantTokenID.isNull = false ∧ order? db dbOpenOrder offer.slot = some offer) ∧
  (wantOrder? db dbHistoryWant offer.wantTokenID offer.slot = some offer ↔
    offer.wantTokenID.isNull = false ∧ order? db dbHistory offer.slot = some offer)

/-- When a step keeps the tables mirrored : an offer that takes the place of another one takes its
place in the table by wanted token. -/
def SwapEvent.KeepsMirror (db : SwapDB) : SwapEvent → Prop
  | write block height => ∀ slot,
    (block.spends slot = true → ∀ offer ∈ order? db dbOpenOrder slot,
      ∀ old ∈ order? db dbHistory slot, offer.Replaces old) ∧
    ∀ ad ∈ (block.ads height slot).getLast?, (∀ old ∈ block.ads height slot, ad.Replaces old) ∧
      (block.spends slot = false → ∀ old ∈ order? db dbOpenOrder slot, ad.Replaces old)
  | disconnect block => ∀ slot, block.spends slot = true →
    ∀ offer ∈ order? db dbOpenOrder slot, ∀ old ∈ order? db dbHistory slot,
      if block.withdraws slot then offer.Replaces old else old.Replaces offer
  | prune _ => True

variable {db db' : SwapDB} {event : SwapEvent} {events : List SwapEvent}

omit [Crypto] in
/-- The index by wanted token of a slot, offer by offer. -/
theorem mirrors_iff {index : WantIndex} {order : Option SwapOffer} {slot : Slot}
    (hindex : ∀ want offer, index want = some offer → offer.slot = slot ∧ offer.Wants want)
    (horder : ∀ offer, order = some offer → offer.slot = slot) :
    index.Mirrors order ↔ ∀ offer : SwapOffer, offer.slot = slot →
      (index offer.wantTokenID = some offer ↔
        offer.wantTokenID.isNull = false ∧ order = some offer) := by
  constructor
  · intro h offer _
    rw [h offer.wantTokenID, filter_eq_some_iff, decide_eq_true_eq, SwapOffer.Wants]
    tauto
  · intro h want
    refine ext fun offer => ?_
    rw [filter_eq_some_iff, decide_eq_true_eq]
    constructor
    · intro hoffer
      obtain ⟨hslot, hnull, rfl⟩ := hindex want offer hoffer
      exact ⟨((h offer hslot).mp hoffer).2, hnull, rfl⟩
    · rintro ⟨hoffer, hnull, rfl⟩
      exact (h offer (horder offer hoffer)).mpr ⟨hnull, hoffer⟩

omit [Crypto] in
theorem mirroredTables_iff (h : WellFormed db) :
    MirroredTables db ↔ ∀ slot, (slotState db slot).Mirrored := by
  have horder : ∀ table slot offer, order? db table slot = some offer → offer.slot = slot :=
    fun table slot offer ho => (h.order?_eq_some_iff.mp ho).1
  have hwant : ∀ table slot want offer, wantOrder? db table want slot = some offer →
      offer.slot = slot ∧ offer.Wants want := fun table slot want offer ho =>
    ((@WellFormed.offer?_eq_some_iff db table slot offer (some want) h).mp ho).imp id fun hrest =>
      offer.wantsKey_some.mp hrest.1
  have hopen := fun slot => mirrors_iff (hwant dbOpenWant slot) (horder dbOpenOrder slot)
  have hhistory := fun slot => mirrors_iff (hwant dbHistoryWant slot) (horder dbHistory slot)
  constructor
  · intro hm slot
    refine ⟨(hopen slot).mpr fun offer hslot => ?_, (hhistory slot).mpr fun offer hslot => ?_⟩
    · subst hslot
      exact (hm offer).1
    · subst hslot
      exact (hm offer).2
  · exact fun hm offer => ⟨(hopen offer.slot).mp (hm offer.slot).openOrder offer rfl,
      (hhistory offer.slot).mp (hm offer.slot).history offer rfl⟩

theorem WellFormed.run (h : WellFormed db) (hrun : event.run db = .ok db') : WellFormed db' := by
  cases event with
  | write block height => exact h.writeBlock hrun
  | disconnect block =>
    obtain rfl := Except.ok.inj hrun
    exact h.processDisconnectedBlock
  | prune cutoffHeight =>
    obtain rfl := Except.ok.inj hrun
    exact h.deleteHistoryOlderThan cutoffHeight

/-- A step from mirrored tables. -/
theorem mirrored_step_iff (h : WellFormed db) (hm : MirroredTables db)
    (hrun : event.run db = .ok db') : MirroredTables db' ↔ event.KeepsMirror db := by
  rw [mirroredTables_iff h] at hm
  rw [mirroredTables_iff (h.run hrun)]
  cases event with
  | write block height =>
    refine forall_congr' fun slot => ?_
    rw [slotState_of_writeBlock h hrun]
    exact (hm slot).write_iff _ _ _
  | disconnect block =>
    obtain rfl := Except.ok.inj hrun
    refine forall_congr' fun slot => ?_
    rw [slotState_processDisconnectedBlock h]
    exact (hm slot).disconnect_iff _ _
  | prune cutoffHeight =>
    obtain rfl := Except.ok.inj hrun
    refine iff_of_true (fun slot => ?_) trivial
    rw [slotState_deleteHistoryOlderThan h]
    exact (hm slot).prune cutoffHeight

theorem runEvents_concat : runEvents (events ++ [event]) = .ok db' ↔
    ∃ db, runEvents events = .ok db ∧ event.run db = .ok db' := by
  simp only [runEvents, foldlM_append, foldlM_cons, foldlM_nil, bind_eq_ok_iff,
    pure_eq_ok_iff, exists_eq_right]

theorem wellFormed_runEvents (h : runEvents events = .ok db) : WellFormed db :=
  foldlM_inv _ (fun _ _ _ _ hmid hrun => hmid.run hrun) wellFormed_empty h

/-- The tables are mirrored in all states of a run exactly if each of its steps keeps them
mirrored. -/
theorem mirrored_run_iff (events : List SwapEvent) :
    (∀ done, done <+: events → ∀ db, runEvents done = .ok db → MirroredTables db) ↔
      ∀ done event, done ++ [event] <+: events → ∀ db db', runEvents done = .ok db →
        event.run db = .ok db' → event.KeepsMirror db := by
  constructor
  · intro h done event hprefix db db' hdone hrun
    have hm := h done ((prefix_append done [event]).trans hprefix) db hdone
    exact (mirrored_step_iff (wellFormed_runEvents hdone) hm hrun).mp
      (h _ hprefix db' (runEvents_concat.mpr ⟨db, hdone, hrun⟩))
  · intro h done
    induction done using reverseRecOn with
    | nil =>
      intro _ db hdb
      obtain rfl := pure_eq_ok_iff.mp hdb
      exact (mirroredTables_iff wellFormed_empty).mpr fun _ => SlotState.mirrored_empty
    | append_singleton done event ih =>
      intro hprefix db' hdb'
      obtain ⟨db, hdone, hrun⟩ := runEvents_concat.mp hdb'
      have hm := ih ((prefix_append done [event]).trans hprefix) db hdone
      exact (mirrored_step_iff (wellFormed_runEvents hdone) hm hrun).mpr
        (h done event hprefix db db' hdone hrun)

end Mirror

section Sample

attribute [local instance] Crypto.toy

/-- An advertisement of version 2, that names a wanted token. -/
def sampleWantAd (want : Uint256) : CScript :=
  0x6a :: ([4, 0x52, 0x53, 0x57, 0x50] ++ [1, 2] ++ [1, 1] ++ [1, 0] ++ [1, 0] ++
    0x20 :: sampleToken.data ++ 0x20 :: want.data ++ 0x20 :: (null : Uint256).data ++ [0] ++
    [1, 0x0a] ++ [1, 0x0b])

/-- A block with an offer that wants a token. -/
def sampleWantBlock : ReadBlock :=
  ⟨[sampleCoinbaseTo (sampleWantAd sampleToken)], by decide +kernel⟩

/-- A block with an offer for the same slot that wants another token. -/
def sampleOtherWantBlock : ReadBlock :=
  ⟨[sampleCoinbaseTo (sampleWantAd ⟨replicate 32 0x08, by decide⟩)], by decide +kernel⟩

/-- When the order is overwritten, the order by the first wanted token stays. -/
theorem stale_want_order : ∃ db,
    runEvents [.write sampleWantBlock 1, .write sampleOtherWantBlock 2] = .ok db ∧
    ¬ MirroredTables db := by
  have hok : ∃ db ∈
      (runEvents [.write sampleWantBlock 1, .write sampleOtherWantBlock 2]).toOption,
      ∃ offer ∈ (swapOffer? 1 (sampleWantAd sampleToken)).toOption.join,
      wantOrder? db dbOpenWant offer.wantTokenID offer.slot = some offer ∧
      order? db dbOpenOrder offer.slot ≠ some offer := by decide +kernel
  obtain ⟨db, hdb, offer, -, hwant, horder⟩ := hok
  exact ⟨db, toOption_eq_some_iff.mp hdb, fun h => horder ((h offer).1.mp hwant).2⟩

end Sample

end RadiantCore
