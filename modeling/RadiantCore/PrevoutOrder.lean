import RadiantCore.DerSignature
import RadiantCore.DoubleSpendProof

/-!
# The order of prevouts

`base_blob::Compare` reads from the most significant byte, so it compares the numbers of the blobs
(`Blob.compare_eq`), and `COutPoint` is ordered by its transaction and then by its index.
`CheckRegularTransaction` looks for equal prevouts pair by pair when there are few inputs; otherwise
it sorts the prevouts in this order and looks at the neighbours. Equal prevouts are neighbours once
sorted, whatever the algorithm (`adjacentFind_eq_false_iff`), so both ways decide the same.
-/

namespace RadiantCore

open List

/-! ## The order of blobs -/

theorem compareBytes_eq {xs ys : List UInt8} (hlen : xs.length = ys.length) :
    compareBytes xs ys =
      if readBE xs < readBE ys then -1 else if readBE ys < readBE xs then 1 else 0 := by
  induction xs generalizing ys with
  | nil =>
    obtain rfl := eq_nil_of_length_eq_zero hlen.symm
    simp [compareBytes]
  | cons x xs ih =>
    obtain ⟨y, ys, rfl⟩ := exists_cons_of_length_eq_add_one hlen.symm
    have hlen' : xs.length = ys.length := Nat.succ.inj hlen
    rw [compareBytes, ih hlen']
    simp only [readBE_cons_lt_iff hlen', readBE_cons_lt_iff hlen'.symm, gt_iff_lt,
      UInt8.lt_iff_toNat_lt, ← UInt8.toNat_inj]
    rcases lt_trichotomy x.toNat y.toNat with hlt | heq | hgt
    · simp [hlt, hlt.asymm]
    · simp [heq]
    · simp [hgt, hgt.asymm, hgt.ne']

theorem Blob.compare_eq {w : ℕ} (a b : Blob w) :
    a.compare b = if a < b then -1 else if b < a then 1 else 0 := by
  have hlen : a.data.reverse.length = b.data.reverse.length := by simp [a.size_eq, b.size_eq]
  rw [Blob.compare, compareBytes_eq hlen, readBE, readBE, reverse_reverse,
    reverse_reverse]
  rfl

/-- `operator<` of `COutPoint`. -/
def COutPoint.lt (a b : COutPoint) : Bool :=
  let cmp := a.txid.compare b.txid
  cmp < 0 || cmp = 0 && a.n < b.n

/-- The transaction and the index, in this order. -/
def COutPoint.key (a : COutPoint) : TxId ×ₗ ℕ := toLex (a.txid, a.n.toNat)

theorem COutPoint.key_injective : Function.Injective COutPoint.key := by
  rintro ⟨txid, n⟩ ⟨txid', n'⟩ h
  obtain ⟨htxid, hn⟩ := Prod.mk.inj (toLex.injective h)
  rw [COutPoint.mk.injEq]
  exact ⟨htxid, UInt32.toNat_inj.mp hn⟩

theorem COutPoint.lt_iff {a b : COutPoint} : a.lt b ↔ a.key < b.key := by
  simp only [lt, key, Blob.compare_eq, Prod.Lex.toLex_lt_toLex, Bool.or_eq_true, Bool.and_eq_true,
    decide_eq_true_eq, UInt32.lt_iff_toNat_lt]
  rcases lt_trichotomy a.txid b.txid with h | h | h
  · simp [h]
  · simp [h]
  · simp [h, h.not_gt, h.ne']

/-! ## Duplicate inputs -/

/-- `std::adjacent_find` with `==` : whether it finds an element. -/
def adjacentFind {α : Type*} [DecidableEq α] : List α → Bool
  | a :: b :: l => a = b || adjacentFind (b :: l)
  | _ => false

/-- The check of `CheckRegularTransaction` for many inputs. -/
def checkSortedInputs (vin : List CTxIn) : Except Failure Unit := do
  require (∀ txin ∈ vin, ¬ txin.prevout.isNull) (rejectInvalid 10 "bad-txns-prevout-null")
  let sortedPrevOuts := (vin.map CTxIn.prevout).mergeSort fun a b => !b.lt a
  require (¬ adjacentFind sortedPrevOuts) (rejectInvalid 100 "bad-txns-inputs-duplicate")

/-- `CheckRegularTransaction`, with the two ways to look for duplicate inputs. -/
def checkRegularTransactionSorting (tx : CMutableTransaction) : Except Failure Unit := do
  require (¬ tx.isCoinBase) (rejectInvalid 100 "bad-tx-coinbase")
  checkTransactionCommon tx
  if tx.vin.length < 120 then checkInputPairs tx.vin else checkSortedInputs tx.vin

/-- Equal elements of a sorted list are neighbours. -/
theorem adjacentFind_eq_false_iff {l : List COutPoint} (hsorted : l.Pairwise fun a b => ¬b.lt a) :
    adjacentFind l = false ↔ l.Nodup := by
  induction l with
  | nil => simp [adjacentFind]
  | cons a l ih =>
    obtain ⟨ha, hl⟩ := pairwise_cons.mp hsorted
    cases l with
    | nil => simp [adjacentFind]
    | cons b l =>
      rw [adjacentFind, Bool.or_eq_false_iff, ih hl, decide_eq_false_iff_not,
        nodup_cons (a := a)]
      refine and_congr_left fun _ => not_congr ⟨fun heq => heq ▸ mem_cons_self, fun hmem => ?_⟩
      -- The element is between itself and its neighbour, so it is the neighbour.
      rcases mem_cons.mp hmem with rfl | hmem
      · rfl
      · have hba := ha b mem_cons_self
        have hab := (pairwise_cons.mp hl).1 a hmem
        rw [COutPoint.lt_iff, not_lt] at hba hab
        exact COutPoint.key_injective (le_antisymm hba hab)

theorem adjacentFind_mergeSort (l : List COutPoint) :
    adjacentFind (l.mergeSort fun a b => !b.lt a) = false ↔ l.Nodup := by
  have hle : ∀ a b : COutPoint, (!b.lt a) = true ↔ a.key ≤ b.key := fun a b => by
    rw [Bool.not_eq_true', ← Bool.not_eq_true, COutPoint.lt_iff, not_lt]
  have htotal : ∀ a b : COutPoint, (!b.lt a || !a.lt b) = true := fun a b => by
    rw [Bool.or_eq_true, hle, hle]
    exact le_total _ _
  have hsorted := pairwise_mergeSort
    (fun a b c hab hbc => (hle a c).mpr (((hle a b).mp hab).trans ((hle b c).mp hbc))) htotal l
  rw [adjacentFind_eq_false_iff (hsorted.imp fun h => by simpa using h),
    (mergeSort_perm l _).nodup_iff]

theorem checkSortedInputs_eq (vin : List CTxIn) :
    checkSortedInputs vin =
      (require (∀ txin ∈ vin, ¬ txin.prevout.isNull) (rejectInvalid 10 "bad-txns-prevout-null") >>=
        fun _ => require (vin.map CTxIn.prevout).Nodup
          (rejectInvalid 100 "bad-txns-inputs-duplicate")) := by
  simp only [checkSortedInputs, Bool.not_eq_true, adjacentFind_mergeSort]

theorem checkRegularTransactionSorting_eq (tx : CMutableTransaction) :
    checkRegularTransactionSorting tx = checkRegularTransaction tx := by
  simp only [checkRegularTransactionSorting, checkSortedInputs_eq, checkRegularTransaction]

/-- The check for duplicate inputs is exact, and both ways to make it decide the same. -/
theorem input_uniqueness_exact (tx : CMutableTransaction) (hcoinbase : tx.isCoinBase = false)
    (hcommon : checkTransactionCommon tx = .ok ()) :
    (checkRegularTransactionSorting tx = .ok () ↔
      (∀ txin ∈ tx.vin, txin.prevout.isNull = false) ∧
      tx.vin.Pairwise fun txin txin' => txin.prevout ≠ txin'.prevout) ∧
    ∀ vin : List CTxIn, checkInputPairs vin = .ok () ↔ checkSortedInputs vin = .ok () := by
  refine ⟨?_, fun vin => ?_⟩
  · rw [checkRegularTransactionSorting_eq, checkRegularTransaction_eq_ok_iff, List.Nodup,
      pairwise_map]
    simp [hcoinbase, hcommon]
  · rw [checkInputPairs_eq_ok_iff, checkSortedInputs_eq, require_bind_eq_ok_iff, require_eq_ok_iff]
    simp only [Bool.not_eq_true]

/-- A transaction that spends one output twice is rejected. -/
theorem input_uniqueness_exact_twice :
    let txin : CTxIn := ⟨⟨Blob.null, 0⟩, [], 0⟩
    checkRegularTransactionSorting ⟨[txin, txin], [⟨0, []⟩], 1, 0⟩ ≠ .ok () :=
  (input_uniqueness_exact _ (by decide) (by decide)).1.not.mpr (by decide)

end RadiantCore
