import RadiantCore.CoinOrigin
import RadiantCore.Supply
import RadiantCore.TxCommitment
import RadiantCore.ScriptNumCodec

/-!
# The height in the coinbase

From `BIP34Height` on, `ContextualCheckBlock` wants the script of the coinbase to start with a
push of the height of the block. The pushes of two heights are never prefixes of one another
(`prefixFree_pushInt64`), so coinbases of different heights differ, and with collision-free
ids their outputs do too : adding the outputs of a coinbase, which may overwrite coins, replaces
no coin of another such height (`coinbase_unique`).
-/

namespace RadiantCore

open Opcode PrefixCode List Option

/-! ## Pushing a number -/

/-- `CScript::operator<<` of a byte string, the bytes it appends. -/
def pushData (b : List UInt8) : CScript :=
  (if b.length < 0x4c then [UInt8.ofNat b.length]
  else if b.length ≤ 0xff then [OP_PUSHDATA1.toByte, UInt8.ofNat b.length]
  else if b.length ≤ 0xffff then OP_PUSHDATA2.toByte :: writeLE 2 b.length
  else OP_PUSHDATA4.toByte :: writeLE 4 b.length) ++ b

/-- The opcode of a push of so many bytes. -/
def pushOpcode (n : ℕ) : UInt8 :=
  if n < 0x4c then UInt8.ofNat n else if n ≤ 0xff then OP_PUSHDATA1
  else if n ≤ 0xffff then OP_PUSHDATA2 else OP_PUSHDATA4

theorem pushOpcode_small : ∀ n < 0x4c, UInt8.ofNat n < OP_PUSHDATA1 ∧ (UInt8.ofNat n).toNat = n := by
  decide

theorem pushSize_writeLE {opcode : UInt8} {n : ℕ} (hop : ¬ opcode < OP_PUSHDATA1)
    (hn : n < 256 ^ sizeWidth opcode) (pc : CScript) :
    pushSize opcode (writeLE (sizeWidth opcode) n ++ pc) = some (n, pc) := by
  rw [pushSize, if_neg (by simp), if_neg hop, take_left' (by simp), drop_left' (by simp),
    readLE_writeLE, Nat.mod_eq_of_lt hn]

/-- The opcode of a push, which is followed by the size of the data. -/
theorem pushSize_pushOpcode {n : ℕ} (h : n < 2 ^ 32) (pc : CScript) :
    pushOpcode n ≤ OP_PUSHDATA4 ∧ pushSize (pushOpcode n) (writeLE (sizeWidth (pushOpcode n)) n ++ pc) =
      some (n, pc) := by
  unfold pushOpcode
  split_ifs with h1 h2 h3
  · obtain ⟨hlt, hn⟩ := pushOpcode_small n h1
    refine ⟨UInt8.le_trans (UInt8.le_of_lt hlt) (by decide), ?_⟩
    simp [pushSize, sizeWidth, hlt, hn, writeLE]
  · exact ⟨by decide, pushSize_writeLE (by decide) (Nat.lt_succ_of_le h2) pc⟩
  · exact ⟨by decide, pushSize_writeLE (by decide) (Nat.lt_succ_of_le h3) pc⟩
  · exact ⟨by decide, pushSize_writeLE (by decide) h pc⟩

theorem pushData_eq (data : List UInt8) : pushData data = pushOpcode data.length ::
    (writeLE (sizeWidth (pushOpcode data.length)) data.length ++ data) := by
  unfold pushData pushOpcode
  split_ifs with h1 h2 h3
  · simp [sizeWidth, (pushOpcode_small _ h1).1, writeLE]
  · rfl
  · rfl
  · rfl

/-- A push is read back. -/
theorem getScriptOp_pushData {data : List UInt8} (h : data.length < 2 ^ 32) (rest : CScript) :
    ∃ op, getScriptOp (pushData data ++ rest) = some op ∧
      op.opcode = pushOpcode data.length ∧ op.vch = data ∧ op.pc = rest := by
  obtain ⟨hle, hsize⟩ := pushSize_pushOpcode h (data ++ rest)
  have hlen : ¬ (data ++ rest).length < data.length := by simp
  rw [pushData_eq, cons_append, append_assoc, getScriptOp, dif_pos hle]
  simp only [hsize, if_neg hlen, some.injEq, exists_eq_left', take_left, drop_left, and_self]

/-- `CScript::push_int64`, the bytes it appends. -/
def pushInt64 (n : ℤ) : CScript :=
  if n = -1 ∨ 1 ≤ n ∧ n ≤ 16 then [UInt8.ofNat (n + 0x50).toNat]
  else if n = 0 then [0]
  else pushData (CScriptNum.serialize n)

namespace CScriptNum

theorem length_absBytes_le (k n : ℕ) : (absBytes k n).length ≤ k := by
  induction k generalizing n with
  | zero => simp [absBytes]
  | succ k ih =>
    unfold absBytes
    split_ifs
    · simp
    · simpa using ih (n / 256)

/-- A number that is not negative is its bytes, with a zero byte when the last one would carry
a sign. -/
theorem serialize_of_nonneg (n : ℕ) :
    serialize n = absBytes 8 n ∨ serialize n = absBytes 8 n ++ [0] := by
  unfold serialize
  rw [Int.natAbs_natCast]
  split
  · rename_i hnil
    left
    simpa using hnil.symm
  · rename_i last rest hrev
    have hbytes : absBytes 8 n = (last :: rest).reverse := by rw [← hrev, reverse_reverse]
    have hsign : ¬ (n : ℤ) < 0 := by omega
    rw [if_neg hsign, if_neg hsign, hbytes]
    split_ifs
    · right
      simp
    · left
      rfl

theorem readLE_serialize {n : ℕ} (hn : n < 2 ^ 64) : readLE (serialize n) = n := by
  have habs : readLE (absBytes 8 n) = n := readLE_absBytes (by omega)
  rcases serialize_of_nonneg n with h | h
  · rw [h, habs]
  · rw [h, readLE_concat, habs]
    simp

theorem length_serialize_le_nine (n : ℕ) : (serialize n).length ≤ 9 := by
  have hlen := length_absBytes_le 8 n
  rcases serialize_of_nonneg n with h | h
  · rw [h]
    omega
  · rw [h, length_append, length_singleton]
    omega

end CScriptNum

/-- Read the number a script starts with. -/
def readPush : CScript → Option (ℕ × CScript)
  | [] => none
  | b :: s =>
    if b = 0 then some (0, s)
    else if 0x51 ≤ b then some (b.toNat - 0x50, s)
    else some (readLE (s.take b.toNat), s.drop b.toNat)

/-- The first byte of a push tells its form, so no push is a prefix of another. -/
theorem prefixFree_pushInt64 : PrefixFree (fun n : ℕ => pushInt64 n) {n | n < 2 ^ 64} := by
  refine PrefixFree.of_read readPush ?_
  intro n (hn : n < 2 ^ 64) x
  rcases Nat.eq_zero_or_pos n with rfl | hpos
  · simp [pushInt64, readPush]
  · rcases Nat.lt_or_ge 16 n with hlarge | hsmall
    · -- The size of the number, which is not zero, and its bytes.
      have hread := CScriptNum.readLE_serialize hn
      have hle := CScriptNum.length_serialize_le_nine n
      have hne : (CScriptNum.serialize n).length ≠ 0 := by
        intro hnil
        rw [length_eq_zero_iff.mp hnil] at hread
        exact absurd hread (by simp [readLE]; omega)
      have hpush : pushInt64 n =
          UInt8.ofNat (CScriptNum.serialize n).length :: CScriptNum.serialize n := by
        rw [pushInt64, if_neg (by omega), if_neg (by omega), pushData, if_pos (by omega)]
        rfl
      generalize CScriptNum.serialize (n : ℤ) = bytes at hread hle hne hpush
      have hbyte : (UInt8.ofNat bytes.length).toNat = bytes.length := by
        rw [UInt8.toNat_ofNat', Nat.mod_eq_of_lt (by omega)]
      have hzero : UInt8.ofNat bytes.length ≠ 0 := by
        rw [← UInt8.toNat_inj.ne, hbyte]
        exact hne
      have hdata : ¬ 0x51 ≤ UInt8.ofNat bytes.length := by
        rw [UInt8.le_iff_toNat_le, hbyte]
        exact fun h => absurd (le_trans h hle) (by decide)
      simp [hpush, readPush, hzero, hdata, hbyte, hread]
    · have hpush : pushInt64 n = [UInt8.ofNat (n + 0x50)] := by
        rw [pushInt64, if_pos (by omega)]
        rfl
      have hbyte : (UInt8.ofNat (n + 0x50)).toNat = n + 0x50 := by
        rw [UInt8.toNat_ofNat', Nat.mod_eq_of_lt (by omega)]
      have hzero : UInt8.ofNat (n + 0x50) ≠ 0 := by
        rw [← UInt8.toNat_inj.ne, hbyte]
        simp
      have hdata : 0x51 ≤ UInt8.ofNat (n + 0x50) := by
        rw [UInt8.le_iff_toNat_le, hbyte]
        exact Nat.add_le_add_right hpos 0x50
      rw [hpush, singleton_append, readPush, if_neg hzero, if_pos hdata, hbyte,
        Nat.add_sub_cancel]

section Coinbase

variable [Crypto]

/-! ## The check -/

/-- `ContextualCheckBlock`. -/
def contextualCheckBlock (params : Params) (block : CBlock) (pindexPrev : Option CBlockIndex) :
    Except Failure Unit := do
  let nHeight := (pindexPrev.map fun index => index.nHeight + 1).getD 0
  require (params.CSVHeight ≤ nHeight → pindexPrev.isSome) (.abort "pindexPrev != nullptr")
  let nMedianTimePast := (pindexPrev.map CBlockIndex.getMedianTimePast).getD 0
  let nLockTimeCutoff : ℤ :=
    if params.CSVHeight ≤ nHeight then nMedianTimePast else block.nTime.toNat
  block.vtx.forM fun tx => contextualCheckTransaction tx nHeight nLockTimeCutoff
  if params.BIP34Height ≤ nHeight then
    match block.vtx.head?.bind fun tx => tx.vin.head? with
    | none => .error (.abort "block.vtx[0]->vin[0]")
    | some txin =>
      require (pushInt64 nHeight <+: txin.scriptSig) (rejectInvalid 100 "bad-cb-height")

/-- The coinbase of an accepted block starts with its height. -/
theorem startsWithHeight_of_contextualCheckBlock {params : Params} {block : CBlock} {pprev : CBlockIndex}
    (h : contextualCheckBlock params block (some pprev) = .ok ())
    (hheight : params.BIP34Height ≤ pprev.nHeight + 1) :
    ∃ coinbase ∈ block.vtx.head?, ∃ txin ∈ coinbase.vin.head?,
      pushInt64 (pprev.nHeight + 1 : ℕ) <+: txin.scriptSig := by
  simp only [contextualCheckBlock, map_some, getD_some, bind_eq_ok_iff,
    exists_unit_iff, if_pos hheight] at h
  obtain ⟨-, -, h⟩ := h
  split at h
  · cases h
  · rename_i txin htxin
    obtain ⟨coinbase, hcoinbase, hin⟩ := bind_eq_some_iff.mp htxin
    exact ⟨coinbase, hcoinbase, txin, hin, require_eq_ok_iff.mp h⟩

omit [Crypto] in
/-- Coinbases that start with two heights are different transactions. -/
theorem height_eq_of_vin_eq {h h' : ℕ} {vin : List CTxIn} {txin txin' : CTxIn} (hh : h < 2 ^ 64)
    (hh' : h' < 2 ^ 64) (hin : txin ∈ vin.head?) (hin' : txin' ∈ vin.head?)
    (hstart : pushInt64 h <+: txin.scriptSig) (hstart' : pushInt64 h' <+: txin'.scriptSig) :
    h = h' := by
  obtain rfl : txin = txin' := some.inj (hin.symm.trans hin')
  obtain ⟨rest, hrest⟩ := hstart
  obtain ⟨rest', hrest'⟩ := hstart'
  exact (prefixFree_pushInt64 hh hh' (hrest.trans hrest'.symm)).1

/-! ## Chains -/

/-- The transactions of some blocks. -/
def blockTxs (blocks : List (CBlockIndex × CBlock)) : List CTransaction :=
  blocks.flatMap fun p => p.2.vtx

/-- No two byte strings hashed for the ids of these transactions collide. -/
def CollisionFreeIds (txs : List CTransaction) : Prop :=
  ∀ tx ∈ txs, ∀ tx' ∈ txs, NoCollision tx.hashMessages tx'.hashMessages

instance (txs : List CTransaction) : Decidable (CollisionFreeIds txs) :=
  inferInstanceAs (Decidable (∀ tx ∈ txs, ∀ tx' ∈ txs, NoCollision tx.hashMessages tx'.hashMessages))

/-- A block of a chain : it passed `CheckBlock`, and `ContextualCheckBlock` after its parent. -/
structure ChainBlock (params : Params) (p : CBlockIndex × CBlock) : Prop where
  checked : ∃ options, checkBlock params options p.2 = .ok ()
  contextual : ∃ pprev, p.1.pprev? = some pprev ∧
    contextualCheckBlock params p.2 (some pprev) = .ok ()

variable {params : Params} {p p' : CBlockIndex × CBlock}

section

variable (h : ChainBlock params p)

include h

theorem ChainBlock.sized {tx : CTransaction} (htx : tx ∈ p.2.vtx) : tx.Sized := by
  obtain ⟨options, hchecked⟩ := h.checked
  obtain ⟨coinbase, txs, hvtx, hcb, htxs⟩ := checkBlock_eq_ok hchecked
  have hcommon : checkTransactionCommon tx.toCMutableTransaction = .ok () := by
    rw [hvtx] at htx
    rcases mem_cons.mp htx with rfl | htx
    · exact (checkCoinbase_eq_ok hcb).2
    · exact (checkRegularTransaction_eq_ok_iff.mp (htxs tx htx)).2.1
  have hsize := (checkTransactionCommon_eq_ok_iff.mp hcommon).2.2.1
  exact CMutableTransaction.sized_of_getTotalSize_lt (hsize.trans_lt (by decide))

/-- The coinbase of a block is its first transaction. -/
theorem ChainBlock.head?_eq_some_iff {tx : CTransaction} :
    p.2.vtx.head? = some tx ↔ tx ∈ p.2.vtx ∧ tx.isCoinBase = true := by
  obtain ⟨options, hchecked⟩ := h.checked
  obtain ⟨coinbase, txs, hvtx, hcb, htxs⟩ := checkBlock_coinbaseFirst hchecked
  rw [hvtx, head?_cons, some.injEq, mem_cons]
  constructor
  · rintro rfl
    exact ⟨.inl rfl, hcb⟩
  · rintro ⟨rfl | htx, hcbTx⟩
    · rfl
    · rw [htxs tx htx] at hcbTx
      cases hcbTx

theorem ChainBlock.startsWithHeight (hheight : params.BIP34Height ≤ p.1.nHeight) {tx : CTransaction}
    (htx : p.2.vtx.head? = some tx) :
    ∃ txin ∈ tx.vin.head?, pushInt64 p.1.nHeight <+: txin.scriptSig := by
  obtain ⟨pprev, hpprev, hcontextual⟩ := h.contextual
  have hnext : p.1.nHeight = pprev.nHeight + 1 := CBlockIndex.nHeight_of_pprev? hpprev
  rw [hnext] at hheight ⊢
  obtain ⟨coinbase, hcoinbase, hstart⟩ :=
    startsWithHeight_of_contextualCheckBlock hcontextual hheight
  obtain rfl : coinbase = tx := some.inj (hcoinbase.symm.trans htx)
  exact hstart

/-- A transaction with the id of a coinbase is in a block of the same height, if both heights
are in the coinbases. -/
theorem ChainBlock.nHeight_eq (h' : ChainBlock params p')
    (hheight : params.BIP34Height ≤ p.1.nHeight) (hheight' : params.BIP34Height ≤ p'.1.nHeight)
    (hint : p.1.nHeight < 2 ^ 31) (hint' : p'.1.nHeight < 2 ^ 31) {coinbase tx : CTransaction}
    (hcoinbase : p.2.vtx.head? = some coinbase) (htx : tx ∈ p'.2.vtx)
    (hfree : NoCollision coinbase.hashMessages tx.hashMessages) (hid : coinbase.getId = tx.getId) :
    p.1.nHeight = p'.1.nHeight := by
  have hmem : coinbase ∈ p.2.vtx := mem_of_mem_head? hcoinbase
  have hsame : coinbase.toCMutableTransaction = tx.toCMutableTransaction :=
    CMutableTransaction.eq_of_computeHash (h.sized hmem) (h'.sized htx) hfree coinbase.hash_eq
      (tx.hash_eq.trans (congrArg Except.ok hid.symm))
  have hcb : tx.isCoinBase = true := by
    rw [← hsame]
    exact (h.head?_eq_some_iff.mp hcoinbase).2
  obtain ⟨txin, hin, hstart⟩ := h.startsWithHeight hheight hcoinbase
  obtain ⟨txin', hin', hstart'⟩ := h'.startsWithHeight hheight'
    (h'.head?_eq_some_iff.mpr ⟨htx, hcb⟩)
  rw [hsame] at hin
  exact height_eq_of_vin_eq (hint.trans (by norm_num)) (hint'.trans (by norm_num)) hin hin' hstart
    hstart'

end

/-- In a chain of blocks accepted by `ContextualCheckBlock`, coinbases at different heights from
`BIP34Height` on have different ids ; and when the last block is connected, the outputs of its
coinbase replace no coin of another height from `BIP34Height` on. -/
theorem coinbase_unique {γ : Type} (scripts : CBlockIndex → ScriptStage γ) (wait : List γ → Bool)
    (params : Params) (pprev : CBlockIndex) (blocks : List (CBlockIndex × CBlock))
    (tip tip' : CoinsTip) (hash : Uint256) (nTime : UInt32) (options : BlockValidationOptions)
    (block : CBlock) (undo : List (List Coin))
    (hrun : ChainRun (fun pprev block => contextualCheckBlock params block (some pprev) = .ok ())
      scripts wait params pprev blocks tip)
    (haccept : contextualCheckBlock params block (some pprev) = .ok ())
    (hconnect : connectBlock (scripts (.next pprev hash nTime)) wait params options false block
      (.next pprev hash nTime) tip = .ok (tip', undo))
    (hint : pprev.nHeight + 1 < 2 ^ 31)
    (hfree : CollisionFreeIds (blockTxs ((.next pprev hash nTime, block) :: blocks))) :
    (∀ p ∈ (.next pprev hash nTime, block) :: blocks,
      ∀ p' ∈ (.next pprev hash nTime, block) :: blocks,
      params.BIP34Height ≤ p.1.nHeight → params.BIP34Height ≤ p'.1.nHeight →
      p.1.nHeight ≠ p'.1.nHeight → ∀ coinbase ∈ p.2.vtx.head?, ∀ coinbase' ∈ p'.2.vtx.head?,
        coinbase.getId ≠ coinbase'.getId) ∧
    (params.BIP34Height ≤ pprev.nHeight + 1 → ∀ coinbase ∈ block.vtx.head?,
      ∀ o ∈ coinbase.outputs.map Prod.fst, ∀ c, tip.coins.lookup o = some c →
        ¬ (params.BIP34Height ≤ c.nHeight ∧ c.nHeight ≠ pprev.nHeight + 1)) := by
  have hall := hrun.block haccept hconnect
  have hblock : ∀ p ∈ (.next pprev hash nTime, block) :: blocks, ChainBlock params p := by
    intro p hp
    obtain ⟨pprev, options, hpprev, hcontextual, hchecked⟩ := hall.accepted hp
    exact ⟨⟨options, hchecked⟩, pprev, hpprev, hcontextual⟩
  have hbound : ∀ p ∈ (.next pprev hash nTime, block) :: blocks, p.1.nHeight < 2 ^ 31 :=
    fun p hp => (hall.nHeight_le hp).trans_lt hint
  have hids : ∀ p ∈ (.next pprev hash nTime, block) :: blocks,
      ∀ p' ∈ (.next pprev hash nTime, block) :: blocks, ∀ tx ∈ p.2.vtx, ∀ tx' ∈ p'.2.vtx,
      NoCollision tx.hashMessages tx'.hashMessages := fun p hp p' hp' tx htx tx' htx' =>
    hfree tx (mem_flatMap.mpr ⟨p, hp, htx⟩) tx' (mem_flatMap.mpr ⟨p', hp', htx'⟩)
  constructor
  · intro p hp p' hp' hheight hheight' hne coinbase hcoinbase coinbase' hcoinbase' hid
    have hmem : coinbase ∈ p.2.vtx := mem_of_mem_head? hcoinbase
    have hmem' : coinbase' ∈ p'.2.vtx := mem_of_mem_head? hcoinbase'
    exact hne ((hblock p hp).nHeight_eq (hblock p' hp') hheight hheight' (hbound p hp)
      (hbound p' hp') hcoinbase hmem' (hids p hp p' hp' _ hmem _ hmem') hid)
  · rintro hheight coinbase hcoinbase o ho c hc ⟨hheight', hne⟩
    have hmem : coinbase ∈ block.vtx := mem_of_mem_head? hcoinbase
    -- The coin is an output of a transaction of the chain with the id of the coinbase.
    obtain ⟨p, hp, tx, htx, hcoin⟩ := hrun.origin hc
    obtain ⟨out, hout, -, rfl⟩ := mem_coinsOf_iff.mp hcoin
    have hid : coinbase.getId = tx.getId := by
      obtain ⟨⟨o', out'⟩, hmem', rfl⟩ := mem_map.mp ho
      obtain ⟨i, -, hi⟩ := CTransaction.mem_outputs_iff.mp hmem'
      obtain ⟨j, -, hj⟩ := CTransaction.mem_outputs_iff.mp hout
      exact congrArg COutPoint.txid (hi.symm.trans hj)
    have hp' := mem_cons_of_mem (CBlockIndex.next pprev hash nTime, block) hp
    have hself : (CBlockIndex.next pprev hash nTime, block) ∈
        (CBlockIndex.next pprev hash nTime, block) :: blocks := mem_cons_self
    exact hne ((hblock _ hself).nHeight_eq (hblock p hp') hheight hheight' (hbound _ hself)
      (hbound p hp') hcoinbase htx (hids _ hself p hp' _ hmem _ htx) hid).symm

end Coinbase

section Sample

attribute [local instance] Crypto.toy

/-- A block with only a coinbase, whose script is `script`. -/
def sampleHeightBlock (script : CScript) : CBlock :=
  sampleBlock [.ofLegacy ⟨[⟨⟨Blob.null, 0xffffffff⟩, script, 0xffffffff⟩], [⟨50, [0x51]⟩], 1, 0⟩
    version_one one_lt_word]

/-- The index of a block of height 1 or 2 over an empty genesis block. -/
def sampleHeightIndex : List CScript → CBlockIndex
  | [] => .genesis Blob.null 0
  | script :: scripts => .next (sampleHeightIndex scripts) (sampleHeightBlock script).getHash 0

theorem coinbase_unique_sample : ∃ coinbase ∈ (sampleHeightBlock [0x52]).vtx.head?,
    ∃ coinbase' ∈ (sampleHeightBlock [0x51]).vtx.head?, coinbase.getId ≠ coinbase'.getId := by
  have hfirst : ∃ res ∈ (connectBlock (fun _ _ => .ok ([] : List Empty)) (fun _ => true) sampleParams
      ⟨2000000, true, true⟩ false (sampleHeightBlock [0x51]) (sampleHeightIndex [[0x51]])
      ⟨∅, Blob.null⟩).toOption, ∃ res' ∈ (connectBlock (fun _ _ => .ok ([] : List Empty))
      (fun _ => true) sampleParams ⟨2000000, true, true⟩ false (sampleHeightBlock [0x52])
      (sampleHeightIndex [[0x52], [0x51]]) res.1).toOption, True := by decide +kernel
  obtain ⟨⟨tip, undo⟩, hres, ⟨tip', undo'⟩, hres', -⟩ := hfirst
  have hrun : ChainRun
      (fun pprev block => contextualCheckBlock sampleParams block (some pprev) = .ok ())
      (fun _ _ _ => .ok ([] : List Empty)) (fun _ => true) sampleParams
      (sampleHeightIndex [[0x51]]) [(sampleHeightIndex [[0x51]], sampleHeightBlock [0x51])] tip :=
    .block (.genesis Blob.null 0) (by decide +kernel) (toOption_eq_some_iff.mp hres)
  have hunique := coinbase_unique (fun _ _ _ => .ok ([] : List Empty)) (fun _ => true) sampleParams
    (sampleHeightIndex [[0x51]]) _ tip tip' (sampleHeightBlock [0x52]).getHash 0
    ⟨2000000, true, true⟩ (sampleHeightBlock [0x52]) undo' hrun (by decide +kernel)
    (toOption_eq_some_iff.mp hres') (by decide) (by decide +kernel)
  exact ⟨_, rfl, _, rfl, hunique.1 (sampleHeightIndex [[0x52], [0x51]], sampleHeightBlock [0x52])
    (by simp [sampleHeightIndex]) (sampleHeightIndex [[0x51]], sampleHeightBlock [0x51]) (by simp)
    (by decide) (by decide) (by decide) _ rfl _ rfl⟩

end Sample

end RadiantCore
