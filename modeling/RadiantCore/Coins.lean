import RadiantCore.Transaction
import RadiantCore.MapUpdate

/-!
# Coins and the map of unspent coins

`coins.h` : a coin is an output with the height of its block and whether a coinbase created
it. Validation sees the unspent coins as a map from outpoints (`CoinsMap`), which is what
a stack of coin caches represents. This file has the operations of validation on that
map : `addCoin`, `addCoins` for all outputs of a transaction, `spendCoin`.

`addCoins` is characterised as a batch insertion of the spendable outputs of the
transaction (`addCoins_eq_ok_iff`), `coinsOf`.
-/

namespace RadiantCore

open List CTransaction

/-! ## Coins -/

/-- `CTxOut::IsNull`. -/
def CTxOut.isNull (out : CTxOut) : Bool := out.nValue = -1

/-- `Coin`. The source packs the height and the flag in 32 bits ; a height is a non-negative
`int`, so the packing loses nothing. -/
structure Coin where
  out : CTxOut
  nHeight : ℕ
  fCoinBase : Bool
deriving DecidableEq

/-- `Coin()`, which is also what `Coin::Clear` leaves. -/
def Coin.empty : Coin := ⟨⟨-1, []⟩, 0, false⟩

/-- `Coin::IsSpent`. -/
def Coin.isSpent (coin : Coin) : Bool := coin.out.isNull

/-- The unspent coins. -/
abbrev CoinsMap := FMap COutPoint Coin

/-- A map of unspent coins that a coins view can hold : `AddCoin` takes no spent coin and
drops an unspendable one. -/
structure UtxoMap where
  coins : CoinsMap
  stored : ∀ o c, coins.lookup o = some c →
    c.isSpent = false ∧ isUnspendable c.out.scriptPubKey = false

/-- `CCoinsViewCache::AddCoin`, on the map a cache represents. -/
def addCoin (view : CoinsMap) (outpoint : COutPoint) (coin : Coin) (possibleOverwrite : Bool) :
    Except Failure CoinsMap := do
  require (¬ coin.isSpent) (.abort "!coin.IsSpent()")
  if isUnspendable coin.out.scriptPubKey then return view
  require (possibleOverwrite ∨ outpoint ∉ view)
    (.exception "Adding new coin that replaces non-pruned entry")
  return view.insert outpoint coin

/-- `CCoinsViewCache::SpendCoin`, on the map a cache represents : the coin and the map
without it, `none` when there is no such coin. -/
def spendCoin (view : CoinsMap) (outpoint : COutPoint) : Option (Coin × CoinsMap) :=
  (view.lookup outpoint).map fun coin => (coin, view.erase outpoint)

variable {view view' : CoinsMap}

theorem addCoin_eq_ok_iff {outpoint : COutPoint} {coin : Coin} {overwrite : Bool} :
    addCoin view outpoint coin overwrite = .ok view' ↔
      coin.isSpent = false ∧
        if isUnspendable coin.out.scriptPubKey then view' = view
        else (overwrite = true ∨ outpoint ∉ view) ∧ view' = view.insert outpoint coin := by
  unfold addCoin
  rw [require_bind_eq_ok_iff, Bool.not_eq_true]
  split_ifs with hun
  · rw [pure_eq_ok_iff, eq_comm (a := view)]
  · rw [require_bind_eq_ok_iff, pure_eq_ok_iff, eq_comm (b := view')]

/-- Adding outputs at distinct outpoints : none is null, a spendable one replaces no coin
unless overwriting is allowed, and the map gains the spendable ones. -/
theorem foldlM_addCoin_eq_ok_iff {f : CTxOut → Coin} (hf : ∀ out, (f out).out = out)
    {overwrite : Bool} {l : List (COutPoint × CTxOut)} (hnodup : (l.map Prod.fst).Nodup) :
    l.foldlM (fun view p => addCoin view p.1 (f p.2) overwrite) view = .ok view' ↔
      (∀ p ∈ l, p.2.isNull = false) ∧
        (overwrite = true ∨
          ∀ p ∈ l, isUnspendable p.2.scriptPubKey = false → p.1 ∉ view) ∧
        view' = insertAll view ((l.filter fun p => !isUnspendable p.2.scriptPubKey).map
          fun p => (p.1, f p.2)) := by
  induction l generalizing view with
  | nil =>
    rw [foldlM_nil, pure_eq_ok_iff, eq_comm]
    simp [insertAll]
  | cons p l ih =>
    rw [map_cons, nodup_cons] at hnodup
    have hne : ∀ q ∈ l, q.1 ≠ p.1 := fun q hq h => hnodup.1 (h ▸ mem_map_of_mem hq)
    simp only [foldlM_cons, bind_eq_ok_iff, addCoin_eq_ok_iff, hf, Coin.isSpent,
      forall_mem_cons, ih hnodup.2]
    by_cases hun : isUnspendable p.2.scriptPubKey = true
    · simp only [hun, if_true, filter_cons, Bool.not_true, Bool.false_eq_true, if_false]
      constructor
      · rintro ⟨m, ⟨hnull, rfl⟩, hrest, how, rfl⟩
        exact ⟨⟨hnull, hrest⟩, how.imp id fun h => ⟨by simp, h⟩, rfl⟩
      · rintro ⟨⟨hnull, hrest⟩, how, rfl⟩
        exact ⟨view, ⟨hnull, rfl⟩, hrest, how.imp id And.right, rfl⟩
    · rw [Bool.not_eq_true] at hun
      have hmem : (∀ q ∈ l, isUnspendable q.2.scriptPubKey = false →
            q.1 ∉ view.insert p.1 (f p.2)) ↔
          ∀ q ∈ l, isUnspendable q.2.scriptPubKey = false → q.1 ∉ view :=
        forall₂_congr fun q hq => by simp [Finmap.mem_insert, hne q hq]
      simp only [hun, Bool.false_eq_true, if_false, filter_cons, Bool.not_false, if_true,
        map_cons, insertAll]
      constructor
      · rintro ⟨m, ⟨hnull, how, rfl⟩, hrest, how', rfl⟩
        rw [hmem] at how'
        refine ⟨⟨hnull, hrest⟩, ?_, rfl⟩
        rcases how with how | hp
        · exact Or.inl how
        · exact how'.imp id fun h => ⟨fun _ => hp, h⟩
      · rintro ⟨⟨hnull, hrest⟩, how, rfl⟩
        refine ⟨_, ⟨hnull, how.imp id fun h => h.1 trivial, rfl⟩, hrest, ?_, rfl⟩
        rw [hmem]
        exact how.imp id And.right

/-! ## The outputs of a transaction -/

section Outputs

variable [Crypto]

/-- `CTransaction::GetId`. -/
def CTransaction.getId (tx : CTransaction) : TxId := tx.hash

/-- The outpoint of an output of a transaction. -/
def CTransaction.outpoint (tx : CTransaction) (i : ℕ) : COutPoint := ⟨tx.getId, UInt32.ofNat i⟩

/-- The outputs of a transaction with their outpoints. -/
def CTransaction.outputs (tx : CTransaction) : List (COutPoint × CTxOut) :=
  tx.vout.zipIdx.map fun p => (tx.outpoint p.2, p.1)

/-- The outpoints a transaction spends. -/
def CTransaction.prevouts (tx : CTransaction) : List COutPoint := tx.vin.map CTxIn.prevout

/-- The coin an output becomes. -/
def CTransaction.coin (tx : CTransaction) (nHeight : ℕ) (out : CTxOut) : Coin :=
  ⟨out, nHeight, tx.isCoinBase⟩

/-- `AddCoins` : add the outputs of a transaction. With `check`, an output may overwrite a
coin that is there ; without, only a coinbase may. -/
def addCoins (view : CoinsMap) (tx : CTransaction) (nHeight : ℕ) (check : Bool) :
    Except Failure CoinsMap :=
  tx.outputs.foldlM (fun view p => addCoin view p.1 (tx.coin nHeight p.2)
    (if check then p.1 ∈ view else tx.isCoinBase)) view

/-- The coins a transaction creates : its spendable outputs. -/
def coinsOf (tx : CTransaction) (nHeight : ℕ) : List (COutPoint × Coin) :=
  (tx.outputs.filter fun p => !isUnspendable p.2.scriptPubKey).map
    fun p => (p.1, tx.coin nHeight p.2)

variable {tx : CTransaction}

theorem CTransaction.outpoint_injOn {i j : ℕ} (hi : i < tx.vout.length)
    (hj : j < tx.vout.length) (h : tx.outpoint i = tx.outpoint j) : i = j := by
  have hn : UInt32.ofNat i = UInt32.ofNat j := congrArg COutPoint.n h
  have hlt := tx.vout_lt
  have hnat := congrArg UInt32.toNat hn
  rwa [UInt32.toNat_ofNat', UInt32.toNat_ofNat', Nat.mod_eq_of_lt (by omega),
    Nat.mod_eq_of_lt (by omega)] at hnat

theorem CTransaction.mem_outputs_iff {p : COutPoint × CTxOut} :
    p ∈ tx.outputs ↔ ∃ i, tx.vout[i]? = some p.2 ∧ p.1 = tx.outpoint i := by
  simp only [outputs, List.mem_map, Prod.exists, mem_zipIdx_iff_getElem?]
  constructor
  · rintro ⟨out, i, hi, rfl⟩
    exact ⟨i, hi, rfl⟩
  · rintro ⟨i, hi, hp⟩
    exact ⟨p.2, i, hi, Prod.ext hp.symm rfl⟩

theorem CTransaction.map_snd_outputs (tx : CTransaction) :
    tx.outputs.map Prod.snd = tx.vout := by
  rw [outputs, map_map]
  exact zipIdx_map_fst 0 tx.vout

theorem CTransaction.nodup_outputs (tx : CTransaction) : (tx.outputs.map Prod.fst).Nodup := by
  rw [outputs, map_map, nodup_map_iff_inj_on (List.Nodup.of_map Prod.snd
    (by simpa using nodup_range'))]
  rintro ⟨x, i⟩ hx ⟨y, j⟩ hy hxy
  rw [mem_zipIdx_iff_getElem?] at hx hy
  have hij : i = j := outpoint_injOn (List.getElem?_eq_some_iff.mp hx).1
    (List.getElem?_eq_some_iff.mp hy).1 hxy
  subst hij
  exact Prod.ext (Option.some.inj (hx.symm.trans hy)) rfl

variable {o : COutPoint}

theorem mem_coinsOf_iff {nHeight : ℕ} {c : Coin} :
    (o, c) ∈ coinsOf tx nHeight ↔ ∃ out, (o, out) ∈ tx.outputs ∧
      isUnspendable out.scriptPubKey = false ∧ c = tx.coin nHeight out := by
  simp only [coinsOf, List.mem_map, List.mem_filter, Prod.exists, Prod.mk.injEq,
    Bool.not_eq_true']
  constructor
  · rintro ⟨o, out, ⟨hmem, hun⟩, rfl, rfl⟩
    exact ⟨out, hmem, hun, rfl⟩
  · rintro ⟨out, hmem, hun, rfl⟩
    exact ⟨o, out, ⟨hmem, hun⟩, rfl, rfl⟩

/-- The outpoints of the coins of a transaction do not depend on the height. -/
theorem map_fst_coinsOf (tx : CTransaction) (nHeight : ℕ) :
    (coinsOf tx nHeight).map Prod.fst =
      (tx.outputs.filter fun p => !isUnspendable p.2.scriptPubKey).map Prod.fst := by
  rw [coinsOf, map_map]
  rfl

theorem nodup_coinsOf (tx : CTransaction) (nHeight : ℕ) :
    ((coinsOf tx nHeight).map Prod.fst).Nodup := by
  rw [map_fst_coinsOf]
  exact tx.nodup_outputs.sublist ((filter_sublist).map _)

theorem txid_of_mem_coinsOf {nHeight : ℕ}
    (h : o ∈ (coinsOf tx nHeight).map Prod.fst) : o.txid = tx.getId := by
  obtain ⟨⟨o, c⟩, hmem, rfl⟩ := List.mem_map.mp h
  obtain ⟨out, hout, -⟩ := mem_coinsOf_iff.mp hmem
  obtain ⟨i, -, hi⟩ := mem_outputs_iff.mp hout
  exact congrArg COutPoint.txid hi

/-- `AddCoins` of a transaction in a block : no output is null, the transaction is a coinbase
or replaces no coin, and the map gains its coins. -/
theorem addCoins_eq_ok_iff {view view' : CoinsMap} {nHeight : ℕ} :
    addCoins view tx nHeight false = .ok view' ↔
      (∀ out ∈ tx.vout, out.isNull = false) ∧
        (tx.isCoinBase = true ∨ ∀ o ∈ (coinsOf tx nHeight).map Prod.fst, o ∉ view) ∧
        view' = insertAll view (coinsOf tx nHeight) := by
  have hnull : (∀ p ∈ tx.outputs, p.2.isNull = false) ↔ ∀ out ∈ tx.vout, out.isNull = false := by
    rw [← tx.map_snd_outputs, forall_mem_map]
  simp only [addCoins, Bool.false_eq_true, if_false]
  rw [foldlM_addCoin_eq_ok_iff (fun _ => rfl) tx.nodup_outputs, hnull, map_fst_coinsOf]
  simp [coinsOf]

/-- `AddCoins` with `check` sets the coins of the transaction, whatever the map has there. -/
theorem addCoins_check {nHeight : ℕ}
    (hnull : ∀ out ∈ tx.vout, out.isNull = false) (view : CoinsMap) :
    addCoins view tx nHeight true = .ok (insertAll view (coinsOf tx nHeight)) := by
  rw [← tx.map_snd_outputs, forall_mem_map] at hnull
  simp only [addCoins, coinsOf, if_true]
  generalize tx.outputs = l at hnull ⊢
  induction l generalizing view with
  | nil => rfl
  | cons p l ih =>
    rw [forall_mem_cons] at hnull
    rw [foldlM_cons]
    cases hun : isUnspendable p.2.scriptPubKey with
    | true =>
      have hadd : addCoin view p.1 (tx.coin nHeight p.2) (decide (p.1 ∈ view)) = .ok view :=
        addCoin_eq_ok_iff.mpr ⟨hnull.1, by simp [coin, hun]⟩
      rw [hadd, ok_bind, ih _ hnull.2, filter_cons_of_neg (by simp [hun])]
    | false =>
      have hadd : addCoin view p.1 (tx.coin nHeight p.2) (decide (p.1 ∈ view)) =
          .ok (view.insert p.1 (tx.coin nHeight p.2)) :=
        addCoin_eq_ok_iff.mpr ⟨hnull.1, by simp [coin, hun, em]⟩
      rw [hadd, ok_bind, ih _ hnull.2, filter_cons_of_pos (by simp [hun])]
      rfl

end Outputs

end RadiantCore
