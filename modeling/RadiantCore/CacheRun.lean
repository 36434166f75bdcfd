import RadiantCore.CoinsCache

/-!
# Runs of operations on a stack of caches

The operations on the top layer of a stack (`CacheOp`), with pushing a new layer and
flushing the top one. A run over any stack answers like the same run over a plain map, and
no `BatchWrite` fails (`cacheRun_refines`). The other files may therefore work on the map.
-/

namespace RadiantCore

/-! ## The operations on the top layer -/

/-- The operations on the top layer of a stack. A flush iterates over the entries of the
layer in some order, and the layer is dropped after it. -/
inductive CacheOp
  | getCoin (outpoint : COutPoint)
  | haveCoin (outpoint : COutPoint)
  | accessCoin (outpoint : COutPoint)
  | addCoin (outpoint : COutPoint) (coin : Coin) (possibleOverwrite : Bool)
  | spendCoin (outpoint : COutPoint)
  | uncache (outpoint : COutPoint)
  | push
  | flush (entries : List (COutPoint × CCoinsCacheEntry))

/-- What an operation returns. -/
inductive CacheReply
  | none
  | coin (coin : Option Coin)
  | found (found : Bool)
  | moved (coin : Option Coin)
deriving DecidableEq

namespace CCoinsView

variable {cacheCoins : CCoinsMap} {base : CCoinsView}

/-- One operation on the top layer. Without a layer there is only a push. -/
def exec : CCoinsView → CacheOp → Except Failure (CacheReply × CCoinsView)
  | view, .push => .ok (.none, cache ∅ view)
  | backing _, _ => .error (.abort "no cache")
  | cache cacheCoins base, .getCoin outpoint =>
    let (coin, view) := (cache cacheCoins base).getCoin outpoint
    .ok (.coin coin, view)
  | cache cacheCoins base, .haveCoin outpoint =>
    let (entry, cacheCoins, base) := fetchCoin outpoint cacheCoins base
    .ok (.found (entry.any fun entry => !entry.coin.isSpent), cache cacheCoins base)
  | cache cacheCoins base, .accessCoin outpoint =>
    let (entry, cacheCoins, base) := fetchCoin outpoint cacheCoins base
    .ok (.coin (some ((entry.map CCoinsCacheEntry.coin).getD Coin.empty)), cache cacheCoins base)
  | cache cacheCoins base, .addCoin outpoint coin possibleOverwrite => do
    let view ← addCoin outpoint coin possibleOverwrite cacheCoins base
    return (.none, view)
  | cache cacheCoins base, .spendCoin outpoint =>
    let (coin, view) := spendCoin outpoint cacheCoins base
    .ok (.moved coin, view)
  | cache cacheCoins base, .uncache outpoint => .ok (.none, uncache outpoint cacheCoins base)
  | cache _ base, .flush entries => do
    let view ← base.batchWrite entries
    return (.none, view)

/-- The view is a stack with at least one layer. -/
def IsCache : CCoinsView → Prop
  | backing _ => False
  | cache _ _ => True

/-- A coherent stack represents a map. -/
structure Represents (view : CCoinsView) (coins : CoinsMap) : Prop where
  coherent : view.Coherent
  coinAt_eq : ∀ o, view.coinAt o = coins.lookup o

theorem Represents.same {view view' : CCoinsView} {coins : CoinsMap} (h : view.Represents coins)
    (hsame : view.Same view') : view'.Represents coins :=
  ⟨hsame.coherent, fun o => (hsame.coinAt_eq o).trans (h.coinAt_eq o)⟩

end CCoinsView

/-! ## Runs -/

namespace CacheOp

/-- An operation on a plain map. -/
def apply : CacheOp → CoinsMap → CoinsMap
  | addCoin outpoint coin _, coins =>
    if isUnspendable coin.out.scriptPubKey then coins else coins.insert outpoint coin
  | spendCoin outpoint, coins => coins.erase outpoint
  | _, coins => coins

/-- What the caller of an operation has to ensure, where `coins` is the represented map : there
is a layer, an added coin is unspent and replaces a coin only if it says so, and a flush
iterates over the entries of the layer. -/
def Allowed : CacheOp → CCoinsView → CoinsMap → Prop
  | push, _, _ => True
  | addCoin outpoint coin possibleOverwrite, view, coins => view.IsCache ∧
    coin.isSpent = false ∧ (possibleOverwrite = true ∨ outpoint ∉ coins)
  | flush entries, .cache cacheCoins _, _ => Enumerates entries cacheCoins
  | flush _, .backing _, _ => False
  | _, view, _ => view.IsCache

/-- The reply of an operation, where `coins` is the represented map. `AccessCoin` and
`SpendCoin` return a spent coin, or nothing, when there is no coin. -/
def Answers : CacheOp → CoinsMap → CacheReply → Prop
  | getCoin outpoint, coins, reply => reply = .coin (coins.lookup outpoint)
  | haveCoin outpoint, coins, reply => reply = .found (coins.lookup outpoint).isSome
  | accessCoin outpoint, coins, reply =>
    ∃ coin, reply = .coin (some coin) ∧ coin.unspent? = coins.lookup outpoint
  | spendCoin outpoint, coins, reply =>
    ∃ coin, reply = .moved coin ∧ coin.bind Coin.unspent? = coins.lookup outpoint
  | _, _, reply => reply = .none

end CacheOp

/-- A run of allowed operations on a stack over the map `base`, and the same run on a plain
map. -/
inductive CacheRun (base : CoinsMap) : CCoinsView → CoinsMap → Prop
  | start {coins : CoinsMap} : (∀ o, coins.lookup o = (base.lookup o).bind Coin.unspent?) →
      CacheRun base (.backing base) coins
  | step {view view' : CCoinsView} {coins : CoinsMap} {op : CacheOp} {reply : CacheReply} :
      CacheRun base view coins → op.Allowed view coins → view.exec op = .ok (reply, view') →
      CacheRun base view' (op.apply coins)

namespace CCoinsView

variable {coins : CoinsMap}

theorem Represents.addCoin {o : COutPoint} {coin : Coin}
    {possibleOverwrite : Bool} (h : (cache cacheCoins base).Represents coins)
    (hspent : coin.isSpent = false) (habsent : possibleOverwrite = true ∨ o ∉ coins) :
    ∃ view', CCoinsView.addCoin o coin possibleOverwrite cacheCoins base = .ok view' ∧
      view'.Represents ((CacheOp.addCoin o coin possibleOverwrite).apply coins) := by
  have habsent' : possibleOverwrite = true ∨ (cache cacheCoins base).coinAt o = none := by
    rwa [h.coinAt_eq, Finmap.lookup_eq_none]
  obtain ⟨view', hadd, hcoh, hcoin⟩ := addCoin_spec h.coherent hspent habsent'
  refine ⟨view', hadd, hcoh, fun a => ?_⟩
  rw [hcoin, h.coinAt_eq, CacheOp.apply]
  by_cases hun : isUnspendable coin.out.scriptPubKey = true
  · simp [hun]
  · by_cases ha : a = o
    · rw [ha]
      simp [hun]
    · simp [hun, ha, Finmap.lookup_insert_of_ne]

theorem Represents.spendCoin (o : COutPoint) (h : (cache cacheCoins base).Represents coins) :
    (CCoinsView.spendCoin o cacheCoins base).2.Represents (coins.erase o) ∧
      (CCoinsView.spendCoin o cacheCoins base).1.bind Coin.unspent? = coins.lookup o := by
  obtain ⟨hcoh, hcoin, hmoved⟩ := spendCoin_spec h.coherent o
  refine ⟨⟨hcoh, fun a => ?_⟩, hmoved.trans (h.coinAt_eq o)⟩
  rw [hcoin, h.coinAt_eq]
  split_ifs with ha
  · rw [ha, Finmap.lookup_erase]
  · rw [Finmap.lookup_erase_ne ha]

variable {view : CCoinsView}

theorem Represents.push (h : view.Represents coins) :
    (cache ∅ view).Represents coins := by
  refine ⟨⟨h.coherent, fun o entry hentry => ?_⟩, fun o => ?_⟩
  · simp at hentry
  · rw [coinAt_of_lookup_none (Finmap.lookup_empty o), h.coinAt_eq]

/-- An operation on a stack succeeds, answers as the represented map says and changes it as
the plain operation does. -/
theorem exec_spec {op : CacheOp} (h : view.Represents coins) (hop : op.Allowed view coins) :
    ∃ reply view', view.exec op = .ok (reply, view') ∧ op.Answers coins reply ∧
      view'.Represents (op.apply coins) := by
  match op, view, hop with
  | .push, view, _ =>
    refine ⟨.none, cache ∅ view, ?_, rfl, h.push⟩
    cases view <;> rfl
  | .getCoin o, cache cacheCoins base, _ =>
    have hfetch := fetchCoin_spec o h.coherent
    refine ⟨_, _, rfl, ?_, h.same hfetch.same⟩
    rw [CacheOp.Answers, ← h.coinAt_eq, ← hfetch.coin]
    rfl
  | .haveCoin o, cache cacheCoins base, _ =>
    have hfetch := fetchCoin_spec o h.coherent
    refine ⟨.found ((fetchCoin o cacheCoins base).1.any fun entry => !entry.coin.isSpent), _, rfl,
      ?_, h.same hfetch.same⟩
    rw [CacheOp.Answers, ← h.coinAt_eq, ← hfetch.coin]
    cases (fetchCoin o cacheCoins base).1 with
    | none => rfl
    | some entry => simp [Coin.isSome_unspent?]
  | .accessCoin o, cache cacheCoins base, _ =>
    have hfetch := fetchCoin_spec o h.coherent
    refine ⟨_, _, rfl, ⟨((fetchCoin o cacheCoins base).1.map CCoinsCacheEntry.coin).getD Coin.empty,
      rfl, ?_⟩, h.same hfetch.same⟩
    rw [← h.coinAt_eq, ← hfetch.coin]
    cases (fetchCoin o cacheCoins base).1 <;> rfl
  | .addCoin o coin possibleOverwrite, cache cacheCoins base, ⟨_, hspent, habsent⟩ =>
    obtain ⟨view', hadd, hrep⟩ := h.addCoin hspent habsent
    exact ⟨.none, view', by simp [exec, hadd, pure, Except.pure], rfl, hrep⟩
  | .spendCoin o, cache cacheCoins base, _ =>
    obtain ⟨hrep, hmoved⟩ := h.spendCoin o
    exact ⟨_, _, rfl, ⟨_, rfl, hmoved⟩, hrep⟩
  | .uncache o, cache cacheCoins base, _ =>
    exact ⟨.none, _, rfl, rfl, h.same (uncache_spec h.coherent o)⟩
  | .flush entries, cache cacheCoins base, hentries =>
    obtain ⟨view', hwrite, hsame⟩ := flush_spec h.coherent hentries
    exact ⟨.none, view', by simp [exec, hwrite, pure, Except.pure], rfl, h.same hsame⟩

end CCoinsView

/-- The stack of caches represents the plain map in every run. -/
theorem CacheRun.represents {base : CoinsMap} {view : CCoinsView} {coins : CoinsMap}
    (h : CacheRun base view coins) : view.Represents coins := by
  induction h with
  | start hcoins => exact ⟨trivial, fun o => (hcoins o).symm⟩
  | step _ hop hexec ih =>
    obtain ⟨reply, view', hexec', -, hrep⟩ := CCoinsView.exec_spec ih hop
    rw [hexec] at hexec'
    cases hexec'
    exact hrep

/-- Every run over a stack of caches is a run over a plain map : the coins are the same, and
every allowed operation succeeds, a flush included, with the reply of the plain map and
the coins of the plain operation. -/
theorem cacheRun_refines {base : CoinsMap} {view : CCoinsView} {coins : CoinsMap}
    (h : CacheRun base view coins) :
    (∀ o, view.coinAt o = coins.lookup o) ∧ ∀ op : CacheOp, op.Allowed view coins →
      ∃ reply view', view.exec op = .ok (reply, view') ∧ op.Answers coins reply ∧
        ∀ o, view'.coinAt o = (op.apply coins).lookup o := by
  have hrep := h.represents
  refine ⟨hrep.coinAt_eq, fun op hop => ?_⟩
  obtain ⟨reply, view', hexec, hanswer, hrep'⟩ := CCoinsView.exec_spec hrep hop
  exact ⟨reply, view', hexec, hanswer, hrep'.coinAt_eq⟩

/-- A coin of value 50. -/
def sampleCoin : Coin := ⟨⟨50, [0x51]⟩, 1, false⟩

/-- A layer is pushed over an empty map, a coin is added and the layer is flushed. -/
theorem cacheRun_refines_sample : ∃ view coins entries reply view',
    CacheRun ∅ view coins ∧ (CacheOp.flush entries).Allowed view coins ∧
      view.exec (.flush entries) = .ok (reply, view') ∧
      view'.coinAt ⟨Blob.null, 0⟩ = some sampleCoin := by
  have hrun₀ : CacheRun ∅ (.backing ∅) ∅ := .start fun o => by simp
  have hpush : CacheOp.push.Allowed (.backing ∅) ∅ := trivial
  have hrun₁ := hrun₀.step hpush rfl
  have hadd : (CacheOp.addCoin ⟨Blob.null, 0⟩ sampleCoin false).Allowed (.cache ∅ (.backing ∅)) ∅ :=
    ⟨trivial, by decide, Or.inr Finmap.notMem_empty⟩
  have hrun₂ := hrun₁.step hadd rfl
  have hflush : Enumerates _ ((∅ : CCoinsMap).insert ⟨Blob.null, 0⟩ ⟨sampleCoin, true, true⟩) :=
    enumerates_singleton _ _
  obtain ⟨reply, view', hexec, -, hcoins⟩ := (cacheRun_refines hrun₂).2 (.flush _) hflush
  refine ⟨_, _, _, reply, view', hrun₂, hflush, hexec, ?_⟩
  rw [hcoins]
  decide +kernel

end RadiantCore
