import RadiantCore.SwapRecord

/-!
# The swap index, slot by slot

The tables of the swap index are indexed by slots, a token and an offered output. What a step of
the index does to a slot depends on the records of that slot only, so the index is a family of small
machines : each holds an open order and a historical one, and both indexed by wanted tokens
(`SlotState`).

A block spends the output of a slot or not and advertises offers for it (`SlotState.write`). When the
block is disconnected the order is restored, and an open order that an advertisement of the block
matches is withdrawn (`SlotState.disconnect`). The results say when disconnecting undoes writing
(`SlotState.same_disconnect_write_iff`), and when the orders by wanted token go on to mirror the
orders (`SlotState.Mirrored.write_iff`, `SlotState.Mirrored.disconnect_iff`).
-/

namespace RadiantCore

open List Option

/-! ## Offers -/

namespace SwapOffer

/-- The offer names this token as wanted. -/
def Wants (offer : SwapOffer) (want : Uint256) : Prop :=
  want.isNull = false ∧ offer.wantTokenID = want

instance (offer : SwapOffer) (want : Uint256) : Decidable (offer.Wants want) :=
  inferInstanceAs (Decidable (_ ∧ _))

/-- The offer with another height. -/
def atHeight (offer : SwapOffer) (nHeight : Int32) : SwapOffer :=
  { offer with blockHeight := nHeight }

@[simp] theorem wants_atHeight (offer : SwapOffer) (n : Int32) (want : Uint256) :
    (offer.atHeight n).Wants want ↔ offer.Wants want := Iff.rfl

end SwapOffer

/-- Orders indexed by the token they want. -/
abbrev WantIndex := Uint256 → Option SwapOffer

/-- The entry of an offer that wants a token is set. -/
def WantIndex.set (offer : SwapOffer) (value : Option SwapOffer) (index : WantIndex) : WantIndex :=
  fun want => if offer.Wants want then value else index want

theorem WantIndex.set_set (offer : SwapOffer) (a b : Option SwapOffer) (index : WantIndex) :
    (index.set offer a).set offer b = index.set offer b := by
  funext want
  unfold WantIndex.set
  split_ifs <;> rfl

/-- Two orders are the same up to their heights. -/
def SameOrder (a b : Option SwapOffer) : Prop :=
  a.map (SwapOffer.atHeight · 0) = b.map (SwapOffer.atHeight · 0)

@[refl] theorem SameOrder.refl (a : Option SwapOffer) : SameOrder a a := Eq.refl _

variable {a : Option SwapOffer}

@[simp] theorem sameOrder_none_iff : SameOrder none a ↔ a = none := by
  rw [SameOrder, map_none, eq_comm, map_eq_none_iff]

variable {offer : SwapOffer}

@[simp] theorem sameOrder_some_none : ¬ SameOrder (some offer) none := by
  simp [SameOrder]

variable {b : Option SwapOffer}

theorem SameOrder.symm (h : SameOrder a b) : SameOrder b a := Eq.symm h

theorem sameOrder_atHeight (offer : SwapOffer) (n : Int32) :
    SameOrder (some (offer.atHeight n)) (some offer) := rfl

theorem sameOrder_or_iff :
    SameOrder (a.or b) b ↔ ∀ offer ∈ a, SameOrder (some offer) b := by
  cases a with
  | none => simpa using SameOrder.refl b
  | some offer => simp

/-! ## Slots -/

/-- The records of a slot. -/
structure SlotState where
  openOrder : Option SwapOffer
  openWant : WantIndex
  history : Option SwapOffer
  historyWant : WantIndex

namespace SlotState

variable {s : SlotState}

/-- The slot without records. -/
def empty : SlotState := ⟨none, fun _ => none, none, fun _ => none⟩

/-- The records after an offer is moved to the history. -/
def moveToHistory (offer : SwapOffer) (s : SlotState) : SlotState where
  openOrder := none
  openWant := s.openWant.set offer none
  history := some offer
  historyWant := s.historyWant.set offer (some offer)

/-- The records after an offer is moved back. -/
def moveToOpen (offer : SwapOffer) (s : SlotState) : SlotState where
  openOrder := some offer
  openWant := s.openWant.set offer (some offer)
  history := none
  historyWant := s.historyWant.set offer none

/-- The records after an offer is advertised. -/
def advertise (s : SlotState) (offer : SwapOffer) : SlotState :=
  { s with openOrder := some offer, openWant := s.openWant.set offer (some offer) }

/-- The records after an open order is deleted. -/
def withdraw (offer : SwapOffer) (s : SlotState) : SlotState :=
  { s with openOrder := none, openWant := s.openWant.set offer none }

/-- The output of the slot is spent at a height. -/
def spend (nHeight : Int32) (s : SlotState) : SlotState :=
  s.openOrder.elim s fun offer => s.moveToHistory (offer.atHeight nHeight)

/-- The output of the slot is no longer spent. -/
def restore (s : SlotState) : SlotState := s.history.elim s fun offer => s.moveToOpen offer

/-- What a block does that advertises the offers for the slot. -/
def write (nHeight : Int32) (spent : Bool) (ads : List SwapOffer) (s : SlotState) : SlotState :=
  ads.foldl advertise (if spent then s.spend nHeight else s)

/-- What is done when a block is disconnected. An open order is matched by the advertisements of the
block as it was before the spent order is restored. -/
def disconnect (spent matched : Bool) (s : SlotState) : SlotState :=
  let restored := if spent then s.restore else s
  if matched then s.openOrder.elim restored fun offer => restored.withdraw offer else restored

/-- The history is forgotten below a height. -/
def prune (cutoff : Int32) (s : SlotState) : SlotState :=
  { s with
    history := s.history.filter (cutoff ≤ ·.blockHeight)
    historyWant := fun want => (s.historyWant want).filter (cutoff ≤ ·.blockHeight) }

@[simp] theorem moveToHistory_moveToHistory (offer : SwapOffer) (s : SlotState) :
    (s.moveToHistory offer).moveToHistory offer = s.moveToHistory offer := by
  simp only [moveToHistory, WantIndex.set_set]

@[simp] theorem moveToOpen_moveToOpen (offer : SwapOffer) (s : SlotState) :
    (s.moveToOpen offer).moveToOpen offer = s.moveToOpen offer := by
  simp only [moveToOpen, WantIndex.set_set]

/-- An offer that is moved again stays where it is. -/
theorem foldl_eq_elim {step : SwapOffer → SlotState → SlotState} {offers : List SwapOffer}
    {offer? : Option SwapOffer} (hstep : ∀ offer s, step offer (step offer s) = step offer s)
    (hmem : ∀ offer, offer ∈ offers ↔ offer? = some offer) (s : SlotState) :
    offers.foldl (fun s offer => step offer s) s = offer?.elim s fun offer => step offer s := by
  cases offer? with
  | none =>
    have hnil : offers = [] := eq_nil_iff_forall_not_mem.mpr fun offer hoffer =>
      absurd ((hmem offer).mp hoffer) (by simp)
    rw [hnil]
    rfl
  | some offer =>
    have hall : ∀ o ∈ offers, o = offer := fun o ho => (some.inj ((hmem o).mp ho)).symm
    have hne : offers ≠ [] := ne_nil_of_mem ((hmem offer).mpr rfl)
    clear hmem
    induction offers generalizing s with
    | nil => exact absurd rfl hne
    | cons o offers ih =>
      obtain ⟨rfl, hall⟩ := forall_mem_cons.mp hall
      rw [foldl_cons]
      by_cases hnil : offers = []
      · rw [hnil]
        rfl
      · rw [ih _ hall hnil]
        exact hstep o s

/-! ### Advertised offers -/

/-- The last of the offers that want a token. -/
def lastWanting (ads : List SwapOffer) (want : Uint256) : Option SwapOffer :=
  (ads.filter fun offer => offer.Wants want).getLast?

theorem getLast?_or_cons {α : Type} (a : α) (l : List α) (b : Option α) :
    ((a :: l).getLast?).or b = l.getLast?.or (some a) := by
  rw [getLast?_cons]
  cases l.getLast? with
  | none => rfl
  | some c => rfl

theorem openOrder_advertise (ads : List SwapOffer) (s : SlotState) :
    (ads.foldl advertise s).openOrder = ads.getLast?.or s.openOrder := by
  induction ads generalizing s with
  | nil => rfl
  | cons ad ads ih => rw [foldl_cons, ih, getLast?_or_cons, advertise]

theorem openWant_advertise (ads : List SwapOffer) (s : SlotState) (want : Uint256) :
    (ads.foldl advertise s).openWant want = (lastWanting ads want).or (s.openWant want) := by
  induction ads generalizing s with
  | nil => rfl
  | cons ad ads ih =>
    rw [foldl_cons, ih, lastWanting, lastWanting, filter_cons]
    by_cases hwant : ad.Wants want
    · rw [if_pos (decide_eq_true hwant), getLast?_or_cons, advertise]
      simp only [WantIndex.set, if_pos hwant]
    · rw [if_neg (by simpa using hwant), advertise]
      simp only [WantIndex.set, if_neg hwant]

@[simp] theorem history_advertise (ads : List SwapOffer) (s : SlotState) :
    (ads.foldl advertise s).history = s.history := by
  induction ads generalizing s with
  | nil => rfl
  | cons ad ads ih => rw [foldl_cons, ih, advertise]

@[simp] theorem historyWant_advertise (ads : List SwapOffer) (s : SlotState) :
    (ads.foldl advertise s).historyWant = s.historyWant := by
  induction ads generalizing s with
  | nil => rfl
  | cons ad ads ih => rw [foldl_cons, ih, advertise]

/-- An order is open after a block if the block advertises it, or if it was open and is not
spent. -/
theorem openOrder_write (nHeight : Int32) (spent : Bool) (ads : List SwapOffer) (s : SlotState) :
    (s.write nHeight spent ads).openOrder =
      ads.getLast?.or (if spent then none else s.openOrder) := by
  rw [write, openOrder_advertise]
  cases spent with
  | false => rfl
  | true =>
    simp only [if_true, spend]
    cases hopen : s.openOrder with
    | none => rw [elim_none, hopen]
    | some offer => rfl

/-! ## Disconnecting what was written -/

/-- The records are the same up to the heights. -/
structure Same (s s' : SlotState) : Prop where
  openOrder : SameOrder s.openOrder s'.openOrder
  openWant : ∀ want, SameOrder (s.openWant want) (s'.openWant want)
  history : SameOrder s.history s'.history
  historyWant : ∀ want, SameOrder (s.historyWant want) (s'.historyWant want)

/-- The open order is found under the token it wants. -/
def OpenIndexed (s : SlotState) : Prop :=
  ∀ offer ∈ s.openOrder, ∀ want, offer.Wants want → s.openWant want = some offer

/-- Only the last order of a slot is open, and it is found. -/
theorem OpenIndexed.write {s : SlotState} (h : s.OpenIndexed) (nHeight : Int32) (spent : Bool)
    (ads : List SwapOffer) : (s.write nHeight spent ads).OpenIndexed := by
  rw [SlotState.write]
  have hstart : (if spent = true then s.spend nHeight else s).OpenIndexed := by
    split_ifs
    · have hnone : (s.spend nHeight).openOrder = none := openOrder_write nHeight true [] s
      intro offer hoffer
      rw [hnone] at hoffer
      cases hoffer
    · exact h
  generalize (if spent = true then s.spend nHeight else s) = start at hstart
  induction ads generalizing start with
  | nil => exact hstart
  | cons ad ads ih =>
    refine ih _ fun offer hoffer want hwant => ?_
    obtain rfl := some.inj hoffer
    exact if_pos hwant

/-- When disconnecting a block undoes what it wrote to a slot. -/
def Undoable (s : SlotState) (spent matched : Bool) (ads : List SwapOffer) : Prop :=
  -- the history the order is moved to is overwritten, and deleted when it is restored
  (spent = true → s.history = none ∧
    ∀ offer ∈ s.openOrder, ∀ want, offer.Wants want → s.historyWant want = none) ∧
  match ads.getLast? with
  | none => matched = true → spent = true ∨ s.openOrder = none
  | some ad =>
    if matched then
      -- the open order is deleted, and the last offer that wants another token stays
      s.openOrder = none ∧ ∀ want, if ad.Wants want then s.openWant want = none
        else ∀ offer ∈ lastWanting ads want, SameOrder (some offer) (s.openWant want)
    else if spent then s.openOrder ≠ none
    else
      -- the advertised offers stay
      SameOrder (some ad) s.openOrder ∧
        ∀ want, ∀ offer ∈ lastWanting ads want, SameOrder (some offer) (s.openWant want)

theorem Same.refl (s : SlotState) : s.Same s :=
  ⟨SameOrder.refl _, fun _ => SameOrder.refl _, SameOrder.refl _, fun _ => SameOrder.refl _⟩

theorem same_iff {s s' : SlotState} : s.Same s' ↔ SameOrder s.openOrder s'.openOrder ∧
    (∀ want, SameOrder (s.openWant want) (s'.openWant want)) ∧ SameOrder s.history s'.history ∧
    ∀ want, SameOrder (s.historyWant want) (s'.historyWant want) :=
  ⟨fun h => ⟨h.openOrder, h.openWant, h.history, h.historyWant⟩,
    fun h => ⟨h.1, h.2.1, h.2.2.1, h.2.2.2⟩⟩

variable {ads : List SwapOffer}

theorem lastWanting_eq_none {want : Uint256}
    (h : ∀ ad ∈ ads, ¬ ad.Wants want) : lastWanting ads want = none := by
  rw [lastWanting, getLast?_eq_none_iff, filter_eq_nil_iff]
  exact fun ad had => by simpa using h ad had

variable {spent matched : Bool}

/-- A slot whose output is not spent, or that has neither an open order nor a history. -/
theorem same_disconnect_advertise_iff {s : SlotState}
    (hspent : spent = true → s.openOrder = none ∧ s.history = none) :
    ((ads.foldl advertise s).disconnect spent matched).Same s ↔ s.Undoable spent matched ads := by
  have hrestore : (if spent = true then (ads.foldl advertise s).restore else ads.foldl advertise s) =
      ads.foldl advertise s := by
    split_ifs with h
    · rw [restore, history_advertise, (hspent h).2, elim_none]
    · rfl
  have hhistory : spent = true → s.history = none ∧
      ∀ offer ∈ s.openOrder, ∀ want, offer.Wants want → s.historyWant want = none := by
    intro h
    refine ⟨(hspent h).2, fun offer hoffer => ?_⟩
    rw [(hspent h).1] at hoffer
    cases hoffer
  rw [disconnect, hrestore, openOrder_advertise, Undoable, and_iff_right hhistory]
  cases hlast : ads.getLast? with
  | none =>
    obtain rfl := getLast?_eq_none_iff.mp hlast
    cases matched with
    | false => exact iff_of_true (Same.refl s) (by simp)
    | true =>
      cases hopen : s.openOrder with
      | none => exact iff_of_true (Same.refl s) (by simp)
      | some offer =>
        have hnot : ¬ spent = true := fun h => by
          rw [(hspent h).1] at hopen
          cases hopen
        refine iff_of_false (fun h => ?_) (by simp [hnot])
        have hsame := h.openOrder
        rw [hopen] at hsame
        exact sameOrder_some_none hsame.symm
  | some ad =>
    have hwant : ∀ want, SameOrder ((ads.foldl advertise s).openWant want) (s.openWant want) ↔
        ∀ offer ∈ lastWanting ads want, SameOrder (some offer) (s.openWant want) := fun want => by
      rw [openWant_advertise, sameOrder_or_iff]
    cases matched with
    | false =>
      simp only [Bool.false_eq_true, if_false, same_iff, openOrder_advertise, hlast, some_or,
        hwant, history_advertise, historyWant_advertise, SameOrder.refl, implies_true, and_true]
      split_ifs with h
      · simp [(hspent h).1]
      · rfl
    | true =>
      have hset : ∀ want, SameOrder ((ads.foldl advertise s).openWant.set ad none want)
          (s.openWant want) ↔ if ad.Wants want then s.openWant want = none
            else ∀ offer ∈ lastWanting ads want, SameOrder (some offer) (s.openWant want) := by
        intro want
        rw [WantIndex.set]
        split_ifs
        · exact sameOrder_none_iff
        · exact hwant want
      simp only [if_true, some_or, elim_some, same_iff, withdraw, sameOrder_none_iff,
        hset, history_advertise, historyWant_advertise, SameOrder.refl, implies_true, and_true]

/-- What was spent has no history once it is disconnected. -/
theorem history_disconnect (s : SlotState) (matched : Bool) :
    (s.disconnect true matched).history = none := by
  have hrestore : s.restore.history = none := by
    rw [restore]
    cases hhistory : s.history with
    | none => exact hhistory
    | some offer => rfl
  rw [disconnect, if_pos rfl]
  split_ifs
  · cases s.openOrder with
    | none => exact hrestore
    | some offer => exact hrestore
  · exact hrestore

/-- An order that is spent and restored, when no offer advertised in between wants a token. -/
theorem same_restore_iff {s : SlotState} {nHeight : Int32} {offer : SwapOffer}
    (hopen : s.openOrder = some offer) (hindexed : s.OpenIndexed)
    (hads : ∀ ad ∈ ads, ∀ want, ¬ ad.Wants want) :
    ((ads.foldl advertise (s.spend nHeight)).restore).Same s ↔ s.history = none ∧
      ∀ want, offer.Wants want → s.historyWant want = none := by
  have hspend : s.spend nHeight = s.moveToHistory (offer.atHeight nHeight) := by
    rw [spend, hopen, elim_some]
  have hopenWant : ∀ want, SameOrder (WantIndex.set (offer.atHeight nHeight)
      (some (offer.atHeight nHeight))
      (ads.foldl advertise (s.moveToHistory (offer.atHeight nHeight))).openWant want)
      (s.openWant want) := by
    intro want
    rw [WantIndex.set, openWant_advertise, lastWanting_eq_none fun ad had => hads ad had want,
      none_or]
    simp only [moveToHistory, WantIndex.set, SwapOffer.wants_atHeight]
    split_ifs with hwant
    · rw [hindexed offer hopen want hwant]
      exact sameOrder_atHeight offer nHeight
    · exact SameOrder.refl _
  have hhistoryWant : ∀ want, SameOrder (WantIndex.set (offer.atHeight nHeight) none
      (s.historyWant.set (offer.atHeight nHeight) (some (offer.atHeight nHeight))) want)
      (s.historyWant want) ↔ (offer.Wants want → s.historyWant want = none) := by
    intro want
    simp only [WantIndex.set, SwapOffer.wants_atHeight]
    split_ifs with hwant
    · simp [hwant]
    · simpa [hwant] using SameOrder.refl _
  rw [hspend, restore, history_advertise]
  simp only [moveToHistory, elim_some, moveToOpen, same_iff, hopen, historyWant_advertise,
    sameOrder_atHeight, true_and, sameOrder_none_iff, hhistoryWant]
  exact and_iff_right hopenWant

/-- When disconnecting a block undoes what it wrote to a slot. An offer that wants a token is matched
by the advertisement it comes from. -/
theorem same_disconnect_write_iff {s : SlotState} {nHeight : Int32} (hindexed : s.OpenIndexed)
    (hmatched : spent = true → matched = false → ∀ ad ∈ ads, ∀ want, ¬ ad.Wants want) :
    ((s.write nHeight spent ads).disconnect spent matched).Same s ↔ s.Undoable spent matched ads := by
  cases spent with
  | false => exact same_disconnect_advertise_iff (by simp)
  | true =>
    cases hopen : s.openOrder with
    | none =>
      have hspend : s.spend nHeight = s := by rw [spend, hopen, elim_none]
      rw [write, if_pos rfl, hspend]
      by_cases hhistory : s.history = none
      · exact same_disconnect_advertise_iff fun _ => ⟨hopen, hhistory⟩
      · refine iff_of_false (fun h => hhistory ?_) fun h => hhistory (h.1 rfl).1
        have hsame := h.history
        rwa [history_disconnect, sameOrder_none_iff] at hsame
    | some offer =>
      have hwritten : (s.write nHeight true ads).openOrder = ads.getLast? := by
        rw [openOrder_write, if_pos rfl, or_none]
      have hcond : s.Undoable true matched ads ↔ (s.history = none ∧
          ∀ want, offer.Wants want → s.historyWant want = none) ∧
          (matched = true → ads = []) := by
        simp only [Undoable, hopen, mem_some_iff, forall_eq', forall_const]
        refine and_congr_right fun _ => ?_
        cases hlast : ads.getLast? with
        | none => simp [getLast?_eq_none_iff.mp hlast]
        | some ad =>
          have hne : ads ≠ [] := by
            rintro rfl
            cases hlast
          cases matched with
          | false => simp
          | true => simp [hne]
      rw [hcond, disconnect, if_pos rfl, hwritten, write, if_pos rfl]
      cases matched with
      | false =>
        simp only [Bool.false_eq_true, if_false, false_implies, and_true]
        exact same_restore_iff hopen hindexed (hmatched rfl rfl)
      | true =>
        cases hlast : ads.getLast? with
        | none =>
          obtain rfl := getLast?_eq_none_iff.mp hlast
          simp only [if_true, elim_none, implies_true, and_true]
          exact same_restore_iff hopen hindexed (by simp)
        | some ad =>
          refine iff_of_false (fun h => ?_) fun h => ?_
          · have hsame := h.openOrder
            rw [hopen] at hsame
            exact sameOrder_some_none hsame.symm
          · rw [h.2 rfl] at hlast
            cases hlast

end SlotState

/-! ## Orders by wanted token -/

/-- The offer takes the place of another in the index by wanted token. -/
def SwapOffer.Replaces (offer old : SwapOffer) : Prop :=
  old.wantTokenID.isNull = true ∨ offer.wantTokenID = old.wantTokenID

theorem SwapOffer.replaces_iff {old : SwapOffer} :
    offer.Replaces old ↔ ∀ want, old.Wants want → offer.Wants want := by
  constructor
  · rintro (hnull | heq) want ⟨hwant, rfl⟩
    · rw [hwant] at hnull
      cases hnull
    · exact ⟨hwant, heq⟩
  · intro h
    cases hnull : old.wantTokenID.isNull with
    | true => exact Or.inl hnull
    | false => exact Or.inr (h _ ⟨hnull, rfl⟩).2

namespace WantIndex

variable {index : WantIndex} {order : Option SwapOffer} {offer : SwapOffer}

/-- The index has the order, under the token it wants, and nothing else. -/
def Mirrors (index : WantIndex) (order : Option SwapOffer) : Prop :=
  ∀ want, index want = order.filter fun offer => offer.Wants want

theorem Mirrors.eq_none_iff (h : index.Mirrors order) (want : Uint256) :
    index want = none ↔ ∀ old ∈ order, ¬ old.Wants want := by
  rw [h want, filter_eq_none_iff]
  simp

/-- What is left of the index without the entry of an offer. -/
theorem Mirrors.others_none_iff (h : index.Mirrors order) :
    (∀ want, ¬ offer.Wants want → index want = none) ↔ ∀ old ∈ order, offer.Replaces old := by
  simp only [h.eq_none_iff, SwapOffer.replaces_iff]
  exact ⟨fun h old hold want hwant => by_contra fun hnot => h want hnot old hold hwant,
    fun h want hnot old hold hwant => hnot (h old hold want hwant)⟩

theorem mirrors_set_some_iff : (index.set offer (some offer)).Mirrors (some offer) ↔
    ∀ want, ¬ offer.Wants want → index want = none := by
  refine forall_congr' fun want => ?_
  rw [set, filter_some]
  by_cases hwant : offer.Wants want
  · simp [hwant]
  · simp [hwant]

theorem mirrors_set_none_iff : (index.set offer none).Mirrors none ↔
    ∀ want, ¬ offer.Wants want → index want = none := by
  refine forall_congr' fun want => ?_
  rw [set, filter_none]
  by_cases hwant : offer.Wants want
  · simp [hwant]
  · simp [hwant]

end WantIndex

namespace SlotState

/-- The orders by wanted token mirror the orders of the slot. -/
structure Mirrored (s : SlotState) : Prop where
  openOrder : s.openWant.Mirrors s.openOrder
  history : s.historyWant.Mirrors s.history

theorem mirrored_empty : empty.Mirrored := ⟨fun _ => rfl, fun _ => rfl⟩

variable {s : SlotState}

theorem Mirrored.prune (h : s.Mirrored) (cutoff : Int32) :
    (s.prune cutoff).Mirrored where
  openOrder := h.openOrder
  history want := by
    simp only [SlotState.prune, h.history want, Option.filter_filter]
    exact congrArg (Option.filter · s.history) (funext fun offer => Bool.and_comm _ _)

/-- The history after a spend, and that nothing is open. -/
theorem Mirrored.spend_iff (h : s.Mirrored) (nHeight : Int32) :
    (s.spend nHeight).openWant.Mirrors none ∧ ((s.spend nHeight).historyWant.Mirrors
      (s.spend nHeight).history ↔ ∀ offer ∈ s.openOrder, ∀ old ∈ s.history, offer.Replaces old) := by
  have hopenOrder := h.openOrder
  rw [spend]
  cases hopen : s.openOrder with
  | none =>
    rw [hopen] at hopenOrder
    exact ⟨hopenOrder, iff_of_true h.history (by simp)⟩
  | some offer =>
    rw [hopen] at hopenOrder
    refine ⟨WantIndex.mirrors_set_none_iff.mpr (hopenOrder.others_none_iff.mpr ?_), ?_⟩
    · rintro _ ⟨⟩
      exact Or.inr rfl
    · simp only [elim_some, moveToHistory]
      rw [WantIndex.mirrors_set_some_iff, h.history.others_none_iff]
      simp only [mem_some_iff, forall_eq']
      exact Iff.rfl

/-- Offers that are advertised in turn replace each other in the index if the last one does. -/
theorem mirrors_advertise_iff (h : s.openWant.Mirrors s.openOrder) (ads : List SwapOffer) :
    (ads.foldl advertise s).openWant.Mirrors (ads.foldl advertise s).openOrder ↔
      ∀ ad ∈ ads.getLast?, (∀ old ∈ ads, ad.Replaces old) ∧ ∀ old ∈ s.openOrder, ad.Replaces old := by
  rw [openOrder_advertise]
  cases hlast : ads.getLast? with
  | none =>
    obtain rfl := getLast?_eq_none_iff.mp hlast
    exact iff_of_true h (by simp)
  | some ad =>
    simp only [mem_some_iff, forall_eq', some_or]
    have hmem : ad ∈ ads := mem_of_getLast? hlast
    have hads : (∀ want, ¬ ad.Wants want → lastWanting ads want = none) ↔
        ∀ old ∈ ads, ad.Replaces old := by
      simp only [lastWanting, getLast?_eq_none_iff, filter_eq_nil_iff, decide_eq_true_eq,
        SwapOffer.replaces_iff]
      exact ⟨fun h old hold want hwant => by_contra fun hnot => h want hnot old hold hwant,
        fun h want hnot old hold hwant => hnot (h old hold want hwant)⟩
    rw [← hads, ← h.others_none_iff, ← forall₂_and]
    refine forall_congr' fun want => ?_
    rw [openWant_advertise, filter_some]
    by_cases hwant : ad.Wants want
    · -- the last offer is the last that wants its token
      have hlastWanting : lastWanting ads want = some ad := by
        obtain ⟨front, rfl⟩ := getLast?_eq_some_iff.mp hlast
        rw [lastWanting, filter_append, filter_cons_of_pos (by simpa using hwant),
          filter_nil, getLast?_concat]
      simp [hwant, hlastWanting]
    · simp [hwant, or_eq_none_iff]

/-- When the orders by wanted token still mirror the orders after a block. -/
theorem Mirrored.write_iff (h : s.Mirrored) (nHeight : Int32) (spent : Bool)
    (ads : List SwapOffer) : (s.write nHeight spent ads).Mirrored ↔
      (spent = true → ∀ offer ∈ s.openOrder, ∀ old ∈ s.history, offer.Replaces old) ∧
      ∀ ad ∈ ads.getLast?, (∀ old ∈ ads, ad.Replaces old) ∧
        (spent = false → ∀ old ∈ s.openOrder, ad.Replaces old) := by
  have hsplit : ∀ t : SlotState, t.Mirrored ↔
      t.historyWant.Mirrors t.history ∧ t.openWant.Mirrors t.openOrder := fun t =>
    ⟨fun h => ⟨h.history, h.openOrder⟩, fun h => ⟨h.2, h.1⟩⟩
  rw [hsplit, write, history_advertise, historyWant_advertise]
  cases spent with
  | false =>
    rw [if_neg (by decide), mirrors_advertise_iff h.openOrder]
    simp [h.history]
  | true =>
    obtain ⟨hopen, hhistory⟩ := h.spend_iff nHeight
    have hnone : (s.spend nHeight).openOrder = none := openOrder_write nHeight true [] s
    rw [if_pos rfl, mirrors_advertise_iff (by rwa [hnone]), hhistory, hnone]
    simp

theorem mirrored_withdraw_iff (h : s.historyWant.Mirrors s.history) (offer : SwapOffer) :
    (s.withdraw offer).Mirrored ↔ ∀ want, ¬ offer.Wants want → s.openWant want = none :=
  ⟨fun hs => WantIndex.mirrors_set_none_iff.mp hs.openOrder,
    fun hs => ⟨WantIndex.mirrors_set_none_iff.mpr hs, h⟩⟩

variable {offer : SwapOffer}

theorem Mirrored.withdraw (h : s.Mirrored)
    (hopen : s.openOrder = some offer) : (s.withdraw offer).Mirrored := by
  have hopenOrder := h.openOrder
  rw [hopen] at hopenOrder
  refine (mirrored_withdraw_iff h.history offer).mpr (hopenOrder.others_none_iff.mpr ?_)
  rintro _ ⟨⟩
  exact Or.inr rfl

theorem Mirrored.moveToOpen_iff (h : s.Mirrored) (hhistory : s.history = some offer) :
    (s.moveToOpen offer).historyWant.Mirrors none ∧
      ((s.moveToOpen offer).Mirrored ↔ ∀ old ∈ s.openOrder, offer.Replaces old) := by
  have hmirrors := h.history
  rw [hhistory] at hmirrors
  have hnone : (s.moveToOpen offer).historyWant.Mirrors none := by
    refine WantIndex.mirrors_set_none_iff.mpr (hmirrors.others_none_iff.mpr ?_)
    rintro _ ⟨⟩
    exact Or.inr rfl
  refine ⟨hnone, ?_⟩
  rw [← h.openOrder.others_none_iff, ← WantIndex.mirrors_set_some_iff]
  exact ⟨fun hs => hs.openOrder, fun hs => ⟨hs, hnone⟩⟩

/-- When the orders by wanted token still mirror the orders after a block is disconnected. -/
theorem Mirrored.disconnect_iff (h : s.Mirrored) (spent matched : Bool) :
    (s.disconnect spent matched).Mirrored ↔
      (spent = true → ∀ offer ∈ s.openOrder, ∀ old ∈ s.history,
        if matched then offer.Replaces old else old.Replaces offer) := by
  have hkept : (if matched = true then s.openOrder.elim s fun offer => s.withdraw offer
      else s).Mirrored := by
    split_ifs
    · cases hopen : s.openOrder with
      | none => exact h
      | some offer => exact h.withdraw hopen
    · exact h
  rw [disconnect]
  cases spent with
  | false => exact iff_of_true hkept (by simp)
  | true =>
    rw [if_pos rfl, restore]
    cases hhistory : s.history with
    | none => exact iff_of_true hkept (by simp)
    | some old =>
      obtain ⟨hnone, hopened⟩ := h.moveToOpen_iff hhistory
      simp only [elim_some, forall_const, mem_some_iff, forall_eq']
      cases matched with
      | false => simpa using hopened
      | true =>
        cases hopen : s.openOrder with
        | none => exact iff_of_true (hopened.mpr (by simp [hopen])) (by simp)
        | some offer =>
          simp only [if_true, elim_some, mem_some_iff, forall_eq']
          rw [mirrored_withdraw_iff hnone, SwapOffer.replaces_iff]
          have hmirrors := h.openOrder
          rw [hopen] at hmirrors
          -- without the token of the open order, only the restored order can be found
          have hothers : ∀ want, ¬ offer.Wants want → s.openWant want = none :=
            hmirrors.others_none_iff.mpr (by simp [SwapOffer.Replaces])
          refine forall_congr' fun want => ?_
          simp only [moveToOpen, WantIndex.set]
          split_ifs with hold
          · simp [hold]
          · simpa [hold] using hothers want

end SlotState

end RadiantCore
