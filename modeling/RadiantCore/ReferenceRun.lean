import RadiantCore.BlockOrder
import RadiantCore.TokenFlow

/-!
# References over a run of blocks

The stage of `ConnectBlock` that changes the coins, over any sequence of blocks from the
empty map (`UtxoRun`). The transactions of a run form a ledger (`runLedger`) in which a
reference is a token whose origin is the outpoint it names : the reference rules, checked
by each block against the coins at that time, become rules about the outputs that were
spent, whenever they were created (`RunInv`).

The results are those of the ledger. Every coin that pushes a reference comes from the
outpoint the reference names, through a finite chain of transactions of the run
(`provenance_of_pushes`), and at most one coin pushes a reference that some coin holds as
a singleton (`singleton_unique`).
-/

namespace RadiantCore

open List CTransaction

section Run

variable [Crypto]

/-- A run of the stage over blocks, from the empty map : the transactions of the connected
blocks and the coins after them. -/
inductive UtxoRun (params : Params) : List CTransaction → CoinsMap → Prop
  | empty : UtxoRun params [] ∅
  | block {txs vtx : List CTransaction} {view : CoinsMap} {pindex : CBlockIndex}
      {st : ConnectState Empty} : UtxoRun params txs view →
      (∀ tx ∈ vtx, checkCoinbaseRefs tx = .ok ()) →
      utxoStage params pindex vtx view = .ok st → UtxoRun params (txs ++ vtx) st.view

/-- An output of some transaction of the list. -/
def IsOutput (txs : List CTransaction) (o : COutPoint) (out : CTxOut) : Prop :=
  ∃ tx ∈ txs, (o, out) ∈ tx.outputs

/-- What the reference rules say about a transaction, in terms of the outputs it spends :
an output gets what it has from a spent outpoint or from a spent script. -/
structure RunRules (txs : List CTransaction) (tx : CTransaction) : Prop where
  push : ∀ out ∈ tx.vout, ∀ r, Pushes out.scriptPubKey r → ∃ o ∈ tx.prevouts,
    r = fromOutpoint o ∨ ∃ out', IsOutput txs o out' ∧ Pushes out'.scriptPubKey r
  singleton : ∀ out ∈ tx.vout, ∀ r, HoldsSingleton out.scriptPubKey r → ∃ o ∈ tx.prevouts,
    r = fromOutpoint o ∨ ∃ out', IsOutput txs o out' ∧ HoldsSingleton out'.scriptPubKey r
  alone : ∀ o o' out out', (o, out) ∈ tx.outputs → (o', out') ∈ tx.outputs →
    ∀ r, HoldsSingleton out.scriptPubKey r → Pushes out'.scriptPubKey r → o = o'

/-- What holds after every run whose transactions have distinct identifiers. -/
structure RunInv (txs : List CTransaction) (view : CoinsMap) : Prop where
  created : ∀ o c, view.lookup o = some c → IsOutput txs o c.out
  unspent : ∀ o ∈ view, o ∉ spentBy (regularTxs txs)
  spent : ∀ o ∈ spentBy (regularTxs txs), ∃ out, IsOutput txs o out
  nodup : (spentBy (regularTxs txs)).Nodup
  rules : ∀ tx ∈ regularTxs txs, RunRules txs tx
  coinbase : ∀ tx ∈ txs, tx.isCoinBase = true → ∀ out ∈ tx.vout, ∀ r,
    ¬ Pushes out.scriptPubKey r

/-! ## The invariant -/

section Invariant

variable {params : Params} {txs vtx : List CTransaction} {view : CoinsMap}

variable {o : COutPoint} {out : CTxOut}

theorem IsOutput.mono (h : IsOutput txs o out) (hsub : txs ⊆ vtx) : IsOutput vtx o out :=
  let ⟨tx, htx, hout⟩ := h
  ⟨tx, hsub htx, hout⟩

theorem IsOutput.txid_mem (h : IsOutput txs o out) :
    o.txid ∈ txs.map getId := by
  obtain ⟨tx, htx, hout⟩ := h
  obtain ⟨i, -, hi⟩ := mem_outputs_iff.mp hout
  exact mem_map.mpr ⟨tx, htx, (congrArg COutPoint.txid hi).symm⟩

variable {tx : CTransaction}

theorem RunRules.mono (h : RunRules txs tx) (hsub : txs ⊆ vtx) :
    RunRules vtx tx where
  push out hout r hr :=
    let ⟨o, ho, hfrom⟩ := h.push out hout r hr
    ⟨o, ho, hfrom.imp id fun ⟨out', hout', hp⟩ => ⟨out', hout'.mono hsub, hp⟩⟩
  singleton out hout r hr :=
    let ⟨o, ho, hfrom⟩ := h.singleton out hout r hr
    ⟨o, ho, hfrom.imp id fun ⟨out', hout', hp⟩ => ⟨out', hout'.mono hsub, hp⟩⟩
  alone := h.alone

/-- The rules checked against coins that are outputs of the run. -/
theorem ReferenceRules.runRules (h : ReferenceRules tx view)
    (hview : ∀ o c, view.lookup o = some c → IsOutput txs o c.out) : RunRules txs tx where
  push out hout r hr :=
    let ⟨o, ho, hfrom⟩ := h.push out hout r hr
    ⟨o, ho, hfrom.imp id fun ⟨c, hc, hp⟩ => ⟨c.out, hview o c hc, hp⟩⟩
  singleton out hout r hr :=
    let ⟨o, ho, hfrom⟩ := h.singleton out hout r hr
    ⟨o, ho, hfrom.imp id fun ⟨c, hc, hp⟩ => ⟨c.out, hview o c hc, hp⟩⟩
  alone o o' out out' hout hout' r hs hp := by
    obtain ⟨i, hi, rfl⟩ := mem_outputs_iff.mp hout
    obtain ⟨j, hj, rfl⟩ := mem_outputs_iff.mp hout'
    rw [h.alone i j out out' hi hj r hs hp]

theorem not_pushes_of_checkCoinbaseRefs (hcb : tx.isCoinBase = true)
    (h : checkCoinbaseRefs tx = .ok ()) : ∀ out ∈ tx.vout, ∀ r, ¬ Pushes out.scriptPubKey r := by
  rintro out hout r ⟨refs, hrefs, hr⟩
  have hout' := forM_eq_ok_iff.mp h out hout
  simp only [hcb, if_true, hrefs, require_eq_ok_iff] at hout'
  simp [hout'.1] at hr

/-- Coins of a run and new identifiers make a new block. -/
theorem RunInv.freshBlock (h : RunInv txs view)
    (hids : ((txs ++ vtx).map getId).Nodup) : FreshBlock view vtx := by
  rw [map_append, nodup_append'] at hids
  refine ⟨hids.2.1, fun tx htx p hp hmem => ?_⟩
  obtain ⟨c, hc⟩ := Finmap.mem_iff.mp hmem
  obtain ⟨i, -, hi⟩ := mem_outputs_iff.mp hp
  exact hids.2.2 (h.created p.1 c hc).txid_mem
    (mem_map.mpr ⟨tx, htx, (congrArg COutPoint.txid hi).symm⟩)

theorem regularTxs_append (txs vtx : List CTransaction) :
    regularTxs (txs ++ vtx) = regularTxs txs ++ regularTxs vtx :=
  filter_append ..

theorem spentBy_append (txs vtx : List CTransaction) :
    spentBy (txs ++ vtx) = spentBy txs ++ spentBy vtx :=
  flatMap_append

variable {c : Coin}

/-- The coins of a run with those a block creates are outputs of the run and the block. -/
theorem RunInv.created_insertAll (h : RunInv txs view) {nHeight : ℕ}
    (hnodup : (vtx.map getId).Nodup)
    (hc : (insertAll view (blockCoins vtx nHeight)).lookup o = some c) :
    IsOutput (txs ++ vtx) o c.out := by
  rcases (lookup_insertAll (nodup_blockCoins hnodup)).mp hc with hnew | ⟨-, hold⟩
  · obtain ⟨tx, htx, hcoin⟩ := mem_blockCoins_iff.mp hnew
    obtain ⟨out, hout, -, rfl⟩ := mem_coinsOf_iff.mp hcoin
    exact ⟨tx, mem_append_right _ htx, hout⟩
  · exact (h.created o c hold).mono (subset_append_left _ _)

/-- None of them was spent before the block. -/
theorem RunInv.unspent_insertAll (h : RunInv txs view) {nHeight : ℕ}
    (hids : ((txs ++ vtx).map getId).Nodup)
    (ho : o ∈ insertAll view (blockCoins vtx nHeight)) : o ∉ spentBy (regularTxs txs) := by
  rw [map_append, nodup_append'] at hids
  intro hspent
  obtain ⟨c, hc⟩ := Finmap.mem_iff.mp ho
  rcases (lookup_insertAll (nodup_blockCoins hids.2.1)).mp hc with hnew | ⟨-, hold⟩
  · obtain ⟨tx, htx, hcoin⟩ := mem_blockCoins_iff.mp hnew
    obtain ⟨out, hout⟩ := h.spent o hspent
    refine hids.2.2 hout.txid_mem ?_
    rw [txid_of_mem_coinsOf (mem_map_of_mem hcoin)]
    exact mem_map_of_mem htx
  · exact h.unspent o (Finmap.mem_of_lookup_eq_some hold) hspent

/-- A block keeps the invariant. -/
theorem RunInv.block (h : RunInv txs view) {pindex : CBlockIndex} {st : ConnectState Empty}
    (hids : ((txs ++ vtx).map getId).Nodup) (hcb : ∀ tx ∈ vtx, checkCoinbaseRefs tx = .ok ())
    (hst : utxoStage params pindex vtx view = .ok st) : RunInv (txs ++ vtx) st.view := by
  have hfresh := h.freshBlock hids
  obtain ⟨-, hloop, checks, -, rfl⟩ := (connectTxs_eq_ok_iff (fun _ _ _ _ => rfl) hfresh).mp hst
  have hcreated : ∀ o c, (insertAll view (blockCoins vtx pindex.nHeight)).lookup o = some c →
      IsOutput (txs ++ vtx) o c.out := fun o c hc => h.created_insertAll hfresh.nodup hc
  refine ⟨fun o c hc => hcreated o c (lookup_eraseAll_eq_some.mp hc).2, ?_, ?_, ?_, ?_, ?_⟩
  · intro o ho
    obtain ⟨c, hc⟩ := Finmap.mem_iff.mp ho
    obtain ⟨hnew, hold⟩ := lookup_eraseAll_eq_some.mp hc
    rw [regularTxs_append, spentBy_append, mem_append, not_or]
    exact ⟨h.unspent_insertAll hids (Finmap.mem_of_lookup_eq_some hold), hnew⟩
  · intro o ho
    rw [regularTxs_append, spentBy_append, mem_append] at ho
    rcases ho with hold | hnew
    · obtain ⟨out, hout⟩ := h.spent o hold
      exact ⟨out, hout.mono (subset_append_left _ _)⟩
    · obtain ⟨c, hc⟩ := Finmap.mem_iff.mp (hloop.mem_view hnew)
      exact ⟨c.out, hcreated o c hc⟩
  · rw [regularTxs_append, spentBy_append, nodup_append']
    exact ⟨h.nodup, hloop.nodup, fun o hold hnew => h.unspent_insertAll hids (hloop.mem_view hnew) hold⟩
  · intro tx htx
    rw [regularTxs_append, mem_append] at htx
    rcases htx with hold | hnew
    · exact (h.rules tx hold).mono (subset_append_left _ _)
    · exact (validateTransactionReferenceOperations_eq_true
        (hloop.accepted tx hnew).refs).runRules hcreated
  · intro tx htx hcoinbase
    rcases mem_append.mp htx with hold | hnew
    · exact h.coinbase tx hold hcoinbase
    · exact not_pushes_of_checkCoinbaseRefs hcoinbase (hcb tx hnew)

/-- The invariant holds after every run. -/
theorem UtxoRun.inv (h : UtxoRun params txs view) (hids : (txs.map getId).Nodup) :
    RunInv txs view := by
  induction h with
  | empty =>
    refine ⟨fun o c hc => ?_, ?_, ?_, ?_, ?_, ?_⟩
    · simp at hc
    all_goals simp [regularTxs, spentBy]
  | block _ hcb hst ih =>
    have hids' := hids
    rw [map_append, nodup_append'] at hids'
    exact (ih hids'.1).block hids hcb hst

/-! ## The ledger of a run -/

/-- The transactions of a run as a ledger : a coinbase spends nothing. -/
def runLedger (txs : List CTransaction) (h : (spentBy (regularTxs txs)).Nodup) :
    Ledger CTransaction COutPoint where
  creates tx o := tx ∈ txs ∧ ∃ out, (o, out) ∈ tx.outputs
  spends tx o := tx ∈ regularTxs txs ∧ o ∈ tx.prevouts
  spender_unique := by
    rintro tx tx' o ⟨htx, ho⟩ ⟨htx', ho'⟩
    by_contra hne
    have hpair := (nodup_flatMap.mp h).2
    have : Std.Symm (Function.onFun List.Disjoint prevouts) := ⟨fun _ _ h => h.symm⟩
    exact hpair.forall htx htx' hne ho ho'

/-- A transaction spends an output of another, both of the run. -/
def SpendsOutputOf (txs : List CTransaction) (tx' tx : CTransaction) : Prop :=
  tx' ∈ txs ∧ tx ∈ regularTxs txs ∧ ∃ o ∈ tx.prevouts, ∃ out, (o, out) ∈ tx'.outputs

/-- No transaction depends on an output of its own. -/
def Acyclic (txs : List CTransaction) : Prop :=
  ∀ tx, ¬ Relation.TransGen (SpendsOutputOf txs) tx tx

theorem acyclic_of_rank (rank : CTransaction → ℕ)
    (h : ∀ tx' tx, SpendsOutputOf txs tx' tx → rank tx' < rank tx) : Acyclic txs := by
  intro tx hcycle
  have hlt : Relation.TransGen (· < ·) (rank tx) (rank tx) := hcycle.lift rank h
  exact lt_irrefl _ (Relation.transGen_eq_self (r := (· < · : ℕ → ℕ → Prop)) ▸ hlt)

theorem Acyclic.wellFounded (hacyclic : Acyclic txs) (h : (spentBy (regularTxs txs)).Nodup) :
    WellFounded (runLedger txs h).SpendsOutputOf := by
  have : IsStrictOrder CTransaction (Relation.TransGen (SpendsOutputOf txs)) :=
    { irrefl := hacyclic, trans := fun _ _ _ => Relation.TransGen.trans }
  have hfinite : {tx | tx ∈ txs}.Finite := finite_toSet txs
  refine Subrelation.wf (fun {tx' tx} hrel => ?_)
    (Set.wellFoundedOn_iff.mp (hfinite.wellFoundedOn (r := Relation.TransGen (SpendsOutputOf txs))))
  obtain ⟨o, ⟨htx', out, hout⟩, htx, ho⟩ := hrel
  exact ⟨.single ⟨htx', htx, o, ho, out, hout⟩, htx', mem_of_mem_filter htx⟩

/-- A finite chain of transactions that brings a reference from the outpoint it names to an
output : the first spends that outpoint, and each other one spends an output of the one
before whose script has the reference in the set `carries`. -/
inductive RefChain (txs : List CTransaction) (carries : CScript → Uint288 → Prop) (r : Uint288) :
    COutPoint → CTxOut → Prop
  | mint {tx : CTransaction} {o₀ o : COutPoint} {out : CTxOut} : tx ∈ regularTxs txs →
      o₀ ∈ tx.prevouts → fromOutpoint o₀ = r → (o, out) ∈ tx.outputs →
      carries out.scriptPubKey r → RefChain txs carries r o out
  | pass {tx : CTransaction} {o' o : COutPoint} {out' out : CTxOut} :
      RefChain txs carries r o' out' → tx ∈ regularTxs txs → o' ∈ tx.prevouts →
      (o, out) ∈ tx.outputs → carries out.scriptPubKey r → RefChain txs carries r o out

/-- The output at an outpoint, among the outputs of the run, has the reference in the set
`carries` of its script. -/
def CarriesAt (txs : List CTransaction) (carries : CScript → Uint288 → Prop) (r : Uint288)
    (o : COutPoint) : Prop :=
  ∃ out, IsOutput txs o out ∧ carries out.scriptPubKey r

/-- Distinct identifiers make an output unique. -/
theorem IsOutput.unique (hids : (txs.map getId).Nodup) {out' : CTxOut} (htx : tx ∈ txs) (hout : (o, out) ∈ tx.outputs)
    (hout' : IsOutput txs o out') : (o, out') ∈ tx.outputs := by
  obtain ⟨tx', htx', hmem⟩ := hout'
  obtain ⟨i, -, hi⟩ := mem_outputs_iff.mp hout
  obtain ⟨j, -, hj⟩ := mem_outputs_iff.mp hmem
  have hid : tx.getId = tx'.getId := congrArg COutPoint.txid (hi.symm.trans hj)
  rwa [inj_on_of_nodup_map hids htx htx' hid]

variable {carries : CScript → Uint288 → Prop} {r : Uint288}

/-- A lineage in the ledger of a run is a chain of its transactions. -/
theorem refChain_of_lineage (hids : (txs.map getId).Nodup)
    (hnodup : (spentBy (regularTxs txs)).Nodup)
    (h : (runLedger txs hnodup).Lineage (fun o₀ => fromOutpoint o₀ = r) (CarriesAt txs carries r)
      o) : ∀ out, IsOutput txs o out → carries out.scriptPubKey r →
      RefChain txs carries r o out := by
  induction h with
  | mint h₀ hspend hcreate _ =>
    intro out hout hc
    obtain ⟨htx, _, hmem⟩ := hcreate
    exact .mint hspend.1 hspend.2 h₀ (hout.unique hids htx hmem) hc
  | pass hfrom hspend hcreate _ ih =>
    intro out hout hc
    obtain ⟨htx, _, hmem⟩ := hcreate
    obtain ⟨out', hout', hc'⟩ := hfrom.carries_last
    exact .pass (ih out' hout' hc') hspend.1 hspend.2 (hout.unique hids htx hmem) hc

/-- A coinbase pushes nothing. -/
theorem RunInv.mem_regularTxs (h : RunInv txs view) (htx : tx ∈ txs) (hout : out ∈ tx.vout) (hr : Pushes out.scriptPubKey r) :
    tx ∈ regularTxs txs := by
  refine mem_filter.mpr ⟨htx, ?_⟩
  rw [Bool.not_eq_true', ← Bool.not_eq_true]
  exact fun hcb => h.coinbase tx htx hcb out hout r hr

/-- An output of a run that has a reference in a set which an output gets from a spent
outpoint or from the same set of a spent script. -/
theorem RunInv.lineage (h : RunInv txs view) (hids : (txs.map getId).Nodup) (hacyclic : Acyclic txs)
    (hpush : ∀ s, carries s r → Pushes s r)
    (hrule : ∀ tx ∈ regularTxs txs, ∀ out ∈ tx.vout, carries out.scriptPubKey r →
      ∃ o ∈ tx.prevouts, r = fromOutpoint o ∨ CarriesAt txs carries r o) (ho : CarriesAt txs carries r o) :
    (runLedger txs h.nodup).Lineage (fun o₀ => fromOutpoint o₀ = r) (CarriesAt txs carries r)
      o := by
  obtain ⟨out, ⟨tx, htx, hout⟩, hc⟩ := ho
  refine Ledger.lineage (hacyclic.wellFounded h.nodup) ?_ ⟨htx, out, hout⟩ ⟨out, ⟨tx, htx, hout⟩, hc⟩
  rintro tx o ⟨htx, _, hmem⟩ ⟨out, hout', hc⟩
  obtain ⟨i, hi, -⟩ := mem_outputs_iff.mp (hout'.unique hids htx hmem)
  have hvout : out ∈ tx.vout := mem_of_getElem? hi
  have hregular : tx ∈ regularTxs txs := h.mem_regularTxs htx hvout (hpush _ hc)
  obtain ⟨o', ho', horigin | hcarry⟩ := hrule tx hregular out hvout hc
  · exact ⟨o', ⟨hregular, ho'⟩, Or.inl horigin.symm⟩
  · obtain ⟨out', ⟨tx', htx', hout'⟩, hc'⟩ := hcarry
    exact ⟨o', ⟨hregular, ho'⟩, Or.inr ⟨⟨out', ⟨tx', htx', hout'⟩, hc'⟩, tx', htx', out', hout'⟩⟩

theorem RunInv.lineage_pushes (h : RunInv txs view) (hids : (txs.map getId).Nodup)
    (hacyclic : Acyclic txs) (hc : view.lookup o = some c)
    (hr : Pushes c.out.scriptPubKey r) : (runLedger txs h.nodup).Lineage
      (fun o₀ => fromOutpoint o₀ = r) (CarriesAt txs Pushes r) o :=
  h.lineage hids hacyclic (fun _ hp => hp)
    (fun tx htx out hout hp => (h.rules tx htx).push out hout r hp) ⟨c.out, h.created o c hc, hr⟩

theorem RunInv.lineage_singleton (h : RunInv txs view)
    (hids : (txs.map getId).Nodup) (hacyclic : Acyclic txs) (hc : view.lookup o = some c)
    (hr : HoldsSingleton c.out.scriptPubKey r) : (runLedger txs h.nodup).Lineage
      (fun o₀ => fromOutpoint o₀ = r) (CarriesAt txs HoldsSingleton r) o :=
  h.lineage hids hacyclic (fun _ hp => hp.pushes)
    (fun tx htx out hout hp => (h.rules tx htx).singleton out hout r hp)
    ⟨c.out, h.created o c hc, hr⟩

/-! ## Provenance and uniqueness -/

/-- A coin that pushes a reference comes from the outpoint the reference names through
outputs that push it, and through outputs that hold it as a singleton if it does. -/
theorem provenance_of_pushes (hrun : UtxoRun params txs view)
    (hids : (txs.map getId).Nodup) (hacyclic : Acyclic txs) {o : COutPoint}
    {c : Coin} (hc : view.lookup o = some c) {r : Uint288} (hr : Pushes c.out.scriptPubKey r) :
    RefChain txs Pushes r o c.out ∧
      (HoldsSingleton c.out.scriptPubKey r → RefChain txs HoldsSingleton r o c.out) := by
  have hinv := hrun.inv hids
  have hout := hinv.created o c hc
  refine ⟨?_, fun hs => ?_⟩
  · exact refChain_of_lineage hids hinv.nodup (hinv.lineage_pushes hids hacyclic hc hr) _ hout hr
  · exact refChain_of_lineage hids hinv.nodup (hinv.lineage_singleton hids hacyclic hc hs) _ hout hs

/-- A coin that holds a reference as a singleton is the only coin that pushes it. -/
theorem singleton_unique (hrun : UtxoRun params txs view)
    (hids : (txs.map getId).Nodup) (hacyclic : Acyclic txs) {o o' : COutPoint}
    {c c' : Coin} (hc : view.lookup o = some c) (hc' : view.lookup o' = some c') {r : Uint288}
    (hs : HoldsSingleton c.out.scriptPubKey r) :
    (HoldsSingleton c'.out.scriptPubKey r → o = o') ∧ (Pushes c'.out.scriptPubKey r → o = o') := by
  have hinv := hrun.inv hids
  have hunspent : ∀ {o c}, view.lookup o = some c → (runLedger txs hinv.nodup).Unspent o :=
    fun hc tx hspend => hinv.unspent _ (Finmap.mem_of_lookup_eq_some hc)
      (mem_flatMap.mpr ⟨tx, hspend.1, hspend.2⟩)
  have hpush : Pushes c'.out.scriptPubKey r → o = o' := by
    intro hp
    refine (hinv.lineage_singleton hids hacyclic hc hs).unique (fun h h' => ?_) ?_
      (hinv.lineage_pushes hids hacyclic hc' hp) (hunspent hc) (hunspent hc')
    · exact fromOutpoint_injective (h.trans h'.symm)
    · rintro tx a b ⟨htx, _, ha⟩ ⟨-, _, hb⟩ ⟨outa, houta, hsa⟩ ⟨outb, houtb, hpb⟩
      have hma := houta.unique hids htx ha
      have hmb := houtb.unique hids htx hb
      obtain ⟨i, hi, -⟩ := mem_outputs_iff.mp hmb
      exact (hinv.rules tx (hinv.mem_regularTxs htx (mem_of_getElem? hi) hpb)).alone
        a b outa outb hma hmb r hsa hpb
  exact ⟨fun hs' => hpush hs'.pushes, hpush⟩

end Invariant

end Run

section Sample

attribute [local instance] Crypto.toy

/-- A block index at any height. -/
def sampleIndexAt : ℕ → CBlockIndex
  | 0 => .genesis Blob.null 0
  | n + 1 => .next (sampleIndexAt n) Blob.null 0

/-- The coinbase of a first block. -/
def sampleReward : CTransaction := sampleTx ⟨Blob.null, 0xffffffff⟩ 50 [0x51]

/-- The reference that names the output of the first block. -/
def sampleRef : Uint288 := fromOutpoint (sampleReward.outpoint 0)

/-- Spends the output of the first block and mints its reference as a singleton. -/
def sampleMint : CTransaction :=
  sampleTx (sampleReward.outpoint 0) 20
    (Opcode.OP_PUSHINPUTREFSINGLETON.toByte :: sampleRef.data ++
      [Opcode.OP_DROP.toByte, Opcode.OP_1.toByte])

/-- The transactions of two blocks. -/
def sampleTxs : List CTransaction := [sampleReward, sampleCoinbase, sampleMint]

theorem acyclic_sampleTxs : Acyclic sampleTxs := by
  refine acyclic_of_rank (fun tx => if tx = sampleMint then 1 else 0) fun tx' tx h => ?_
  have hall : ∀ tx' ∈ sampleTxs, ∀ tx ∈ regularTxs sampleTxs, ∀ o ∈ tx.prevouts,
      ∀ p ∈ tx'.outputs, p.1 = o → (if tx' = sampleMint then 1 else 0) <
        if tx = sampleMint then 1 else 0 := by decide +kernel
  obtain ⟨htx', htx, o, ho, out, hout⟩ := h
  exact hall tx' htx' tx htx o ho _ hout rfl

/-- The two blocks are accepted, the second at a height where the reward is mature. -/
theorem sampleRun : ∃ view c, UtxoRun sampleParams sampleTxs view ∧
    view.lookup (sampleMint.outpoint 0) = some c ∧ HoldsSingleton c.out.scriptPubKey sampleRef := by
  have hok : ∃ c ∈ ((do
      let st ← utxoStage sampleParams (sampleIndexAt 1) [sampleReward] ∅
      let st ← utxoStage sampleParams (sampleIndexAt 101) [sampleCoinbase, sampleMint] st.view
      return st.view.lookup (sampleMint.outpoint 0)).toOption.bind id),
      HoldsSingleton c.out.scriptPubKey sampleRef := by decide +kernel
  obtain ⟨c, hc, hs⟩ := hok
  obtain ⟨_, hview, rfl⟩ := Option.bind_eq_some_iff.mp hc
  simp only [toOption_eq_some_iff, bind_eq_ok_iff, pure_eq_ok_iff] at hview
  obtain ⟨st₁, h₁, st₂, h₂, hc⟩ := hview
  have hrun₁ := UtxoRun.empty.block (by decide +kernel) h₁
  exact ⟨st₂.view, c, hrun₁.block (by decide +kernel) h₂, hc, hs⟩

theorem provenance_of_pushes_sample : ∃ view o c, UtxoRun sampleParams sampleTxs view ∧
    view.lookup o = some c ∧ HoldsSingleton c.out.scriptPubKey sampleRef ∧
    RefChain sampleTxs HoldsSingleton sampleRef o c.out := by
  obtain ⟨view, c, hrun, hc, hs⟩ := sampleRun
  have hchain := provenance_of_pushes hrun (by decide +kernel) acyclic_sampleTxs hc hs.pushes
  exact ⟨view, _, c, hrun, hc, hs, hchain.2 hs⟩

theorem singleton_unique_sample : ∃ view o c, UtxoRun sampleParams sampleTxs view ∧
    view.lookup o = some c ∧ HoldsSingleton c.out.scriptPubKey sampleRef ∧
    ∀ o' c', view.lookup o' = some c' → Pushes c'.out.scriptPubKey sampleRef → o = o' := by
  obtain ⟨view, c, hrun, hc, hs⟩ := sampleRun
  exact ⟨view, _, c, hrun, hc, hs, fun o' c' hc' =>
    (singleton_unique hrun (by decide +kernel) acyclic_sampleTxs hc hc' hs).2⟩

end Sample

end RadiantCore
