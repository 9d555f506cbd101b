import Dingir.Proof.Match

/-!
# Two executions in step

The same operation on two markets with the same orders but for their times, with
the same balances and counters, at two moments and with two persistors: when the
first returns, so does the second, and they are again alike. A call and its replay
run in step this way, and so do a real call and one that persists nothing.

What else the two sides have in common is a `Pairing`: how the last trades of their
markets go together, and how their duplicate filters do. The filters need not
agree. The first one let its trades pass; the second one does because it holds no
key of a newer trade (`Filtered`).
-/

namespace Dingir

open Keyed Outcome Market

/-! ## Orders and markets -/

/-- `o'` is `o` but for the times. -/
def Order.Twin (o o' : Order) : Prop := ∃ a b, o' = { o with createTime := a, updateTime := b }

/-- **How the two sides go together** in what an operation on orders does not read: the keys the
second filter may hold besides those of trades, the price and the number of trades of a market by
its name, and the filters. -/
structure Pairing where
  known : BalanceUpdateKey → Prop
  last : String → Decimal × ℕ → Decimal × ℕ → Prop
  filters : TtlCache BalanceUpdateKey → TtlCache BalanceUpdateKey → Prop

/-- A pairing that trades keep, those of the first side at `now` and of the second at `τ`. -/
structure Pairing.OK (Q : Pairing) (now τ : Timestamp) : Prop where
  traded : ∀ name a a' price, Q.last name a a' → Q.last name (price, a.2 + 1) (price, a'.2 + 1)
  inserted : ∀ f f' k, Q.filters f f' →
    Q.filters (f.insert now k filterTtl) (f'.insert τ k filterTtl)

/-- The same last trades, whatever is in the filters. -/
def Pairing.exact (K : BalanceUpdateKey → Prop) : Pairing := ⟨K, fun _ => Eq, fun _ _ => True⟩

/-- `m'` is `m` but for the times of its orders, and its last trades go with those of `m`. -/
def Market.Twin (Q : Pairing) (m m' : Market) : Prop :=
  ∃ h price n, m' = { m with rcs := h, price := price, tradeCount := n } ∧ h.next = m.rcs.next ∧
    (∀ rc, (m.rcs.read rc).Twin (h.read rc)) ∧ Q.last m.name (m.price, m.tradeCount) (price, n)

variable {E : Env} {now τ : Timestamp} {m m' m₁ : Market} {o o' p p' : Order} {t t' : Trade}
  {Q : Pairing}

theorem Pairing.exact_ok (K : BalanceUpdateKey → Prop) : (Pairing.exact K).OK now τ := by
  refine ⟨fun name a a' price h => ?_, fun _ _ _ _ => trivial⟩
  obtain rfl : a = a' := h
  rfl

namespace Order.Twin

theorem refl (o : Order) : o.Twin o := ⟨_, _, rfl⟩

theorem touched (h : o.Twin o') : (o.touched now).Twin (o'.touched τ) := by
  obtain ⟨a, b, rfl⟩ := h
  exact ⟨a, τ, rfl⟩

theorem rested (h : o.Twin o') : o.rested.Twin o'.rested := by
  obtain ⟨a, b, rfl⟩ := h
  exact ⟨a, b, rfl⟩

theorem fill (h : o.Twin o') (t t' : Trade) (ha : t'.amount = t.amount)
    (hq : t'.quoteAmount = t.quoteAmount) (fee : Decimal) :
    (fillOrder o t fee).Twin (fillOrder o' t' fee) := by
  obtain ⟨a, b, rfl⟩ := h
  exact ⟨a, b, by simp only [fillOrder, ha, hq]⟩

theorem release (h : o.Twin o') (v : Decimal) : (releaseOrder o v).Twin (releaseOrder o' v) := by
  obtain ⟨a, b, rfl⟩ := h
  exact ⟨a, b, rfl⟩

theorem isAsk (h : o.Twin o') : o'.isAsk = o.isAsk := by
  obtain ⟨a, b, rfl⟩ := h; rfl

theorem remain (h : o.Twin o') : o'.remain = o.remain := by
  obtain ⟨a, b, rfl⟩ := h; rfl

theorem type_ (h : o.Twin o') : o'.type_ = o.type_ := by
  obtain ⟨a, b, rfl⟩ := h; rfl

theorem postOnly (h : o.Twin o') : o'.postOnly = o.postOnly := by
  obtain ⟨a, b, rfl⟩ := h; rfl

theorem price (h : o.Twin o') : o'.price = o.price := by
  obtain ⟨a, b, rfl⟩ := h; rfl

theorem user (h : o.Twin o') : o'.user = o.user := by
  obtain ⟨a, b, rfl⟩ := h; rfl

theorem id (h : o.Twin o') : o'.id = o.id := by
  obtain ⟨a, b, rfl⟩ := h; rfl

theorem askOf (h : o.Twin o') (h' : p.Twin p') : (askOf o p).Twin (askOf o' p') := by
  unfold Market.askOf
  rw [h.isAsk]
  split <;> assumption

theorem bidOf (h : o.Twin o') (h' : p.Twin p') : (bidOf o p).Twin (bidOf o' p') := by
  unfold Market.bidOf
  rw [h.isAsk]
  split <;> assumption

end Order.Twin

namespace Market.Twin

theorem refl (K : BalanceUpdateKey → Prop) (m : Market) : m.Twin (.exact K) m :=
  ⟨m.rcs, m.price, m.tradeCount, rfl, rfl, fun _ => Order.Twin.refl _, rfl⟩

theorem read (h : m.Twin Q m') (rc : OrderRc) : (m.rcs.read rc).Twin (m'.rcs.read rc) := by
  obtain ⟨h, price, n, rfl, -, hread, -⟩ := h
  exact hread rc

/-- The resting orders differ in times only. -/
theorem resting (h : m.Twin Q m') (id : ℕ) :
    Option.Rel Order.Twin (m.resting id) (m'.resting id) := by
  obtain ⟨h, price, n, rfl, -, hread, -⟩ := h
  unfold Market.resting
  cases hr : m.orders[id]? with
  | none => exact .none
  | some rc => exact .some (hread rc)

theorem without (h : m.Twin Q m') (ho : o.Twin o') : (m.without o).Twin Q (m'.without o') := by
  obtain ⟨h, price, n, rfl, hnext, hread, hlast⟩ := h
  obtain ⟨a, b, rfl⟩ := ho
  exact ⟨h, price, n, rfl, hnext, hread, hlast⟩

theorem withRest (h : m.Twin Q m') (ho : o.Twin o') : (m.withRest o).Twin Q (m'.withRest o') := by
  obtain ⟨h, price, n, rfl, hnext, hread, hlast⟩ := h
  obtain ⟨a, b, rfl⟩ := ho
  refine ⟨(h.alloc { o with createTime := a, updateTime := b }).2, price, n,
    ?_, by simp [Market.withRest, hnext], fun rc => ?_,
    hlast⟩
  · simp only [Market.withRest, hnext]
    rfl
  · simp only [Market.withRest, Heap.alloc, hnext]
    by_cases hrc : rc = m.rcs.next
    · subst hrc
      simp only [Function.update_self]
      exact ⟨a, b, rfl⟩
    · simp only [Function.update_of_ne hrc]
      exact hread rc

theorem afterTrade (h : m.Twin Q m') (hQ : Q.OK now τ) (ho : o.Twin o') (rc : OrderRc)
    (price : Decimal) : (m.afterTrade rc o price).Twin Q (m'.afterTrade rc o' price) := by
  obtain ⟨h, old, n, rfl, hnext, hread, hlast⟩ := h
  refine ⟨h.write rc o', price, n + 1, rfl, hnext, fun r => ?_, hQ.traded _ _ _ _ hlast⟩
  simp only [Market.afterTrade, Heap.write_read]
  split
  · exact ho
  · exact hread r

end Market.Twin

/-! ## Balances -/

/-- `bm'` holds the balances of `bm` and knows the same assets, in whatever order it learnt them. -/
structure BalanceManager.Twin (bm bm' : BalanceManager) : Prop where
  balances : bm'.balances = bm.balances
  assets : ∀ id, bm'.assetManager.assetGet id = bm.assetManager.assetGet id

namespace BalanceManager.Twin

variable {bm bm' bm₁ : BalanceManager}

theorem refl (bm : BalanceManager) : bm.Twin bm := ⟨rfl, fun _ => rfl⟩

theorem eq (h : bm.Twin bm') (ha : bm'.assetManager = bm.assetManager) : bm' = bm := by
  obtain ⟨am, balances⟩ := bm
  obtain ⟨am', balances'⟩ := bm'
  exact congrArg₂ BalanceManager.mk ha h.balances

theorem assetPrec (h : bm.Twin bm') (id : String) :
    bm'.assetManager.assetPrec id = bm.assetManager.assetPrec id := by
  simp only [AssetManager.assetPrec, h.assets]

theorem assetPrecShow (h : bm.Twin bm') (id : String) :
    bm'.assetManager.assetPrecShow id = bm.assetManager.assetPrecShow id := by
  simp only [AssetManager.assetPrecShow, h.assets]

theorem assetExist (h : bm.Twin bm') (id : String) :
    bm'.assetManager.assetExist id = bm.assetManager.assetExist id :=
  congrArg Option.isSome (h.assets id)

theorem getByKey (h : bm.Twin bm') (k : BalanceMapKey) : bm'.getByKey k = bm.getByKey k := by
  simp only [BalanceManager.getByKey, h.balances]

theorem get (h : bm.Twin bm') (u : Uuid) (t : BalanceType) (a : String) :
    bm'.get u t a = bm.get u t a := h.getByKey _

theorem setByKey (h : bm.Twin bm') {k : BalanceMapKey} {v : Decimal}
    (hset : bm.setByKey E k v = .ok bm₁) :
    ∃ bm₁', bm'.setByKey E k v = .ok bm₁' ∧ bm₁.Twin bm₁' := by
  simp only [BalanceManager.setByKey, bind_ok, pure_ok, h.assetPrec] at hset ⊢
  obtain ⟨_, hassert, p, hp, rfl⟩ := hset
  exact ⟨_, ⟨(), hassert, p, hp, rfl⟩, by simp only [h.balances], h.assets⟩

theorem add (h : bm.Twin bm') {u : Uuid} {t : BalanceType} {a : String} {v w : Decimal}
    (hadd : bm.add E u t a v = .ok (w, bm₁)) :
    ∃ bm₁', bm'.add E u t a v = .ok (w, bm₁') ∧ bm₁.Twin bm₁' := by
  simp only [BalanceManager.add, bind_ok, pure_ok, Prod.mk.injEq, h.assetPrec, h.getByKey] at hadd ⊢
  obtain ⟨_, hassert, p, hp, bm₂, hset, rfl, rfl⟩ := hadd
  obtain ⟨bm₂', hset', htwin⟩ := h.setByKey hset
  exact ⟨bm₂', ⟨(), hassert, p, hp, bm₂', hset', rfl, rfl⟩, htwin⟩

theorem sub (h : bm.Twin bm') {u : Uuid} {t : BalanceType} {a : String} {v w : Decimal}
    (hsub : bm.sub E u t a v = .ok (w, bm₁)) :
    ∃ bm₁', bm'.sub E u t a v = .ok (w, bm₁') ∧ bm₁.Twin bm₁' := by
  simp only [BalanceManager.sub, bind_ok, pure_ok, Prod.mk.injEq, h.assetPrec, h.getByKey] at hsub ⊢
  obtain ⟨_, hassert, p, hp, _, hcover, _, hpos, bm₂, hset, rfl, rfl⟩ := hsub
  obtain ⟨bm₂', hset', htwin⟩ := h.setByKey hset
  exact ⟨bm₂', ⟨(), hassert, p, hp, (), hcover, (), hpos, bm₂', hset', rfl, rfl⟩, htwin⟩

theorem frozen (h : bm.Twin bm') {u : Uuid} {a : String} {v : Decimal}
    (hfreeze : bm.frozen E u a v = .ok bm₁) :
    ∃ bm₁', bm'.frozen E u a v = .ok bm₁' ∧ bm₁.Twin bm₁' := by
  simp only [BalanceManager.frozen, bind_ok, pure_ok, h.assetPrec, h.getByKey] at hfreeze ⊢
  obtain ⟨_, hassert, p, hp, _, hcover, ⟨w, bm₂⟩, hsub, ⟨w', bm₃⟩, hadd, rfl⟩ := hfreeze
  obtain ⟨bm₂', hsub', htwin⟩ := h.sub hsub
  obtain ⟨bm₃', hadd', htwin'⟩ := htwin.add hadd
  exact ⟨bm₃', ⟨(), hassert, p, hp, (), hcover, (w, bm₂'), hsub', (w', bm₃'), hadd', rfl⟩, htwin'⟩

theorem unfrozen (h : bm.Twin bm') {u : Uuid} {a : String} {v : Decimal}
    (hfree : bm.unfrozen E u a v = .ok bm₁) :
    ∃ bm₁', bm'.unfrozen E u a v = .ok bm₁' ∧ bm₁.Twin bm₁' := by
  simp only [BalanceManager.unfrozen, bind_ok, pure_ok, h.assetPrec, h.getByKey] at hfree ⊢
  obtain ⟨_, hassert, p, hp, _, hcover, ⟨w, bm₂⟩, hadd, ⟨w', bm₃⟩, hsub, rfl⟩ := hfree
  obtain ⟨bm₂', hadd', htwin⟩ := h.add hadd
  obtain ⟨bm₃', hsub', htwin'⟩ := htwin.sub hsub
  exact ⟨bm₃', ⟨(), hassert, p, hp, (), hcover, (w, bm₂'), hadd', (w', bm₃'), hsub', rfl⟩, htwin'⟩

theorem applyChange (h : bm.Twin bm') {p : BalanceUpdateParams}
    (hchange : applyChange E bm p = .ok (.ok bm₁)) :
    ∃ bm₁', Dingir.applyChange E bm' p = .ok (.ok bm₁') ∧ bm₁.Twin bm₁' := by
  unfold Dingir.applyChange at hchange ⊢
  simp only [h.get] at hchange ⊢
  by_cases hpos : 0 ≤ p.change
  · rw [if_pos hpos] at hchange ⊢
    simp only [bind_ok, pure_ok, Except.ok.injEq] at hchange
    obtain ⟨⟨w, bm₂⟩, hadd, rfl⟩ := hchange
    obtain ⟨bm₂', hadd', htwin⟩ := h.add hadd
    exact ⟨bm₂', bind_ok.2 ⟨(w, bm₂'), hadd', rfl⟩, htwin⟩
  rw [if_neg hpos] at hchange ⊢
  by_cases hcover : bm.get p.userId p.balanceType p.asset < |p.change|
  · simp [if_pos hcover, pure, Except.pure] at hchange
  · rw [if_neg hcover] at hchange ⊢
    simp only [bind_ok, pure_ok, Except.ok.injEq] at hchange
    obtain ⟨⟨w, bm₂⟩, hsub, rfl⟩ := hchange
    obtain ⟨bm₂', hsub', htwin⟩ := h.sub hsub
    exact ⟨bm₂', bind_ok.2 ⟨(w, bm₂'), hsub', rfl⟩, htwin⟩

end BalanceManager.Twin

/-! ## The settlement -/

/-- The filter `x` holds no trade newer than its counter, and else only keys in `K`. -/
structure Filtered (K : BalanceUpdateKey → Prop) (x : Ctx) : Prop where
  trade : ∀ a ∈ x.updateController.cache.entries, a.1.businessType = .trade →
    a.1.businessId ≤ x.sequencer.tradeId
  other : ∀ a ∈ x.updateController.cache.entries, a.1.businessType ≠ .trade → K a.1

/-- `y` has the balances and the counters of `x`, and a filter of its own. -/
structure Ctx.Twin (Q : Pairing) (x y : Ctx) : Prop where
  balances : x.balanceManager.Twin y.balanceManager
  orderId : y.sequencer.orderId = x.sequencer.orderId
  tradeId : y.sequencer.tradeId = x.sequencer.tradeId
  capacity : 4 ≤ x.updateController.cache.capacity
  filtered : Filtered Q.known y
  filters : Q.filters x.updateController.cache y.updateController.cache

variable {K : BalanceUpdateKey → Prop} {x x' y : Ctx}

/-- Balances replaced on both sides; each side has its own persistor. -/
theorem Ctx.Twin.withBalances (h : x.Twin Q y) {bm bm' : BalanceManager} (hbm : bm.Twin bm')
    (pe pe' : PersistExector) :
    ({ x with balanceManager := bm, persistor := pe } : Ctx).Twin Q
      { y with balanceManager := bm', persistor := pe' } :=
  ⟨hbm, h.orderId, h.tradeId, h.capacity, ⟨h.filtered.trade, h.filtered.other⟩, h.filters⟩

/-- Each side hands messages to its own persistor. -/
theorem Ctx.Twin.withPersistor (h : x.Twin Q y) (pe pe' : PersistExector) :
    ({ x with persistor := pe } : Ctx).Twin Q { y with persistor := pe' } :=
  ⟨h.balances, h.orderId, h.tradeId, h.capacity, ⟨h.filtered.trade, h.filtered.other⟩, h.filters⟩

/-- An update without details is persisted in every case. -/
theorem persistUpdate_null (E : Env) (now : Timestamp) (bm : BalanceManager) (pe : PersistExector)
    (p : BalanceUpdateParams) (hp : p.detail = .null) :
    ∃ pe', persistUpdate E now bm pe p = .ok pe' := by
  unfold persistUpdate
  split
  · rw [hp]
    cases p.businessType <;> exact ⟨_, rfl⟩
  · exact ⟨_, rfl⟩

/-- One leg of a settlement. -/
structure SettleLeg where
  balanceType : BalanceType
  user : Uuid
  asset : String
  change : Decimal

def SettleLeg.key (l : SettleLeg) (tradeId : ℕ) : BalanceUpdateKey :=
  tradeKey tradeId l.balanceType l.user l.asset

def Trade.legs (t : Trade) (m : Market) (takerIsAsk : Bool) : List SettleLeg :=
  [⟨.available, t.bidUserId, m.base, afterFee t.amount t.bidFee⟩,
   ⟨if takerIsAsk then .available else .freeze, t.askUserId, m.base, -t.amount⟩,
   ⟨.available, t.askUserId, m.quote, afterFee t.quoteAmount t.askFee⟩,
   ⟨if takerIsAsk then .freeze else .available, t.bidUserId, m.quote, -t.quoteAmount⟩]

def settleLeg (E : Env) (now : Timestamp) (m : Market) (tradeId : ℕ) (x : Ctx)
    (l : SettleLeg) : Except Panic Ctx :=
  settleOne E now x m tradeId l.balanceType l.user l.asset l.change

/-- A settlement goes through the legs of its trade. -/
theorem settle_eq_legs (takerIsAsk : Bool) (t : Trade) :
    settle E now x m takerIsAsk t = (t.legs m takerIsAsk).foldlM (settleLeg E now m t.id) x := by
  simp only [settle, Trade.legs, List.foldlM_cons, List.foldlM_nil, settleLeg, bind_pure]

theorem legs_nodup {takerIsAsk : Bool} (hu : t.askUserId ≠ t.bidUserId) (ha : m.base ≠ m.quote) :
    ((t.legs m takerIsAsk).map fun l => l.key t.id).Nodup := by
  simp [Trade.legs, SettleLeg.key, tradeKey_inj, hu, hu.symm, ha]

theorem settleLeg_twin {n : Market} {l : SettleLeg} {tradeId : ℕ} (hQ : Q.OK now τ)
    (hbm : x.balanceManager.Twin y.balanceManager)
    (hfilters : Q.filters x.updateController.cache y.updateController.cache)
    (hfresh : ∀ a ∈ y.updateController.cache.entries, a.1 ≠ l.key tradeId)
    (h : settleLeg E now m tradeId x l = .ok x') : x'.sequencer = x.sequencer ∧
      ∃ y', settleLeg E τ n tradeId y l = .ok y' ∧ x'.balanceManager.Twin y'.balanceManager ∧
        y'.sequencer = y.sequencer ∧ Q.filters x'.updateController.cache y'.updateController.cache ∧
        y'.updateController.cache =
          y.updateController.cache.insert τ (l.key tradeId) filterTtl := by
  unfold settleLeg settleOne at h
  obtain ⟨⟨res, z⟩, hu, h⟩ := bind_ok.1 h
  rcases updateUserBalance_cases hu with ⟨⟨e, rfl⟩, -⟩ | ⟨rfl, happ⟩
  · exact absurd h throw_ok
  simp only [pure_ok] at h
  subst h
  refine ⟨happ.sequencer, ?_⟩
  -- the change does not read the price
  obtain ⟨bm, hchange, htwin⟩ : ∃ bm, applyChange E y.balanceManager
      { balanceType := l.balanceType, businessType := .trade, userId := l.user,
        businessId := tradeId, asset := l.asset,
        business := "trade", marketPrice := n.price, change := l.change,
        detail := .null } = .ok (.ok bm) ∧
      z.balanceManager.Twin bm := hbm.applyChange happ.change
  have hfilters' : Q.filters z.updateController.cache
      (y.updateController.cache.insert τ (l.key tradeId) filterTtl) := by
    rw [happ.cache]
    exact hQ.inserted _ _ _ hfilters
  have hkey : y.updateController.cache.containsKey τ (l.key tradeId) = false :=
    TtlCache.containsKey_eq_false hfresh
  obtain ⟨pe, hpe⟩ := persistUpdate_null E τ bm y.persistor
    { balanceType := l.balanceType, businessType := .trade, userId := l.user, businessId := tradeId,
      asset := l.asset, business := "trade", marketPrice := n.price, change := l.change,
      detail := .null } rfl
  refine ⟨{ y with balanceManager := bm, persistor := pe,
                   updateController := ⟨y.updateController.cache.insert τ (l.key tradeId) filterTtl⟩ },
    bind_ok.2 ⟨(.ok (), _), ?_, rfl⟩, htwin, rfl, hfilters', rfl⟩
  unfold updateUserBalance
  rw [if_neg (by rw [show BalanceUpdateParams.key _ = l.key tradeId from rfl, hkey]; simp)]
  exact bind_ok.2 ⟨_, hchange, bind_ok.2 ⟨pe, hpe, rfl⟩⟩

/-- **Settlements run in step**: the second filter holds none of the keys. -/
theorem settleLegs_twin {n : Market} {legs : List SettleLeg} {tradeId : ℕ} (hQ : Q.OK now τ) :
    ∀ {x x' y : Ctx}, (legs.map fun l => l.key tradeId).Nodup →
      x.balanceManager.Twin y.balanceManager →
      Q.filters x.updateController.cache y.updateController.cache →
      (∀ a ∈ y.updateController.cache.entries, ∀ l ∈ legs, a.1 ≠ l.key tradeId) →
      legs.foldlM (settleLeg E now m tradeId) x = .ok x' → x'.sequencer = x.sequencer ∧
        ∃ y', legs.foldlM (settleLeg E τ n tradeId) y = .ok y' ∧
          x'.balanceManager.Twin y'.balanceManager ∧
          y'.sequencer = y.sequencer ∧
          Q.filters x'.updateController.cache y'.updateController.cache ∧
          TtlCache.Inserted (TradeKeys tradeId) y.updateController.cache legs.length
            y'.updateController.cache := by
  induction legs with
  | nil =>
    intro x x' y _ hbm hfilters _ h
    rw [List.foldlM_nil, pure_ok] at h
    subst h
    exact ⟨rfl, y, rfl, hbm, rfl, hfilters, .refl⟩
  | cons l legs ih =>
    intro x x' y hnodup hbm hfilters hfresh h
    rw [List.foldlM_cons, bind_ok] at h
    obtain ⟨x₁, h₁, h⟩ := h
    rw [List.map_cons, List.nodup_cons] at hnodup
    obtain ⟨hseq, y₁, hy₁, hbm₁, hseq₁, hfilters₁, hcache₁⟩ :=
      settleLeg_twin (n := n) hQ hbm hfilters (fun a ha => hfresh a ha l (by simp)) h₁
    have hone : TtlCache.Inserted (· = l.key tradeId) y.updateController.cache 1
        y₁.updateController.cache := by
      rw [hcache₁]
      exact .insert .refl rfl
    have hfresh₁ : ∀ a ∈ y₁.updateController.cache.entries, ∀ l' ∈ legs, a.1 ≠ l'.key tradeId := by
      intro a ha l' hl'
      rcases hone.mem ha with ha | ha
      · exact hfresh a ha l' (List.mem_cons_of_mem _ hl')
      · rw [ha]
        exact fun he => hnodup.1 (he ▸ List.mem_map.2 ⟨l', hl', rfl⟩)
    obtain ⟨hseq', y', hy', hbm', hseqy, hfilters', hins⟩ := ih hnodup.2 hbm₁ hfilters₁ hfresh₁ h
    refine ⟨hseq'.trans hseq, y', by rw [List.foldlM_cons, hy₁]; exact hy', hbm', hseqy.trans hseq₁,
      hfilters', ?_⟩
    rw [List.length_cons, Nat.add_comm]
    exact (hone.mono fun k hk => hk ▸ ⟨rfl, rfl⟩).trans hins

/-! ## The matching loop -/

/-- An assertion depends only on what it asserts. -/
theorem debugAssert_congr {c : Panic} {q q' : Prop} [Decidable q] [Decidable q'] (h : q ↔ q') :
    E.debugAssert c q = E.debugAssert c q' := by
  simp only [Env.debugAssert, h]

/-- Trades between twins differ in their time. -/
theorem createTrade_twin (hm : m.Twin Q m') (ho : o.Twin o') (hp : p.Twin p') (id : ℕ)
    (amount : Decimal) :
    createTrade τ m' id o' p' amount = { createTrade now m id o p amount with timestamp := τ } := by
  obtain ⟨h, price, n, rfl, -, -, -⟩ := hm
  obtain ⟨a, b, rfl⟩ := ho
  obtain ⟨c, d, rfl⟩ := hp
  cases hs : o.isAsk <;> simp [createTrade, askOf, bidOf, Order.isAsk] at hs ⊢ <;> simp [hs]

/-- The state of a matching loop and its twin. -/
structure Market.MatchState.Twin (Q : Pairing) (s s' : MatchState) : Prop where
  market : s.market.Twin Q s'.market
  ctx : s.ctx.Twin Q s'.ctx
  taker : s.taker.Twin s'.taker
  quoteSum : s'.quoteSum = s.quoteSum
  finished : List.Forall₂ Order.Twin s.finishedOrders s'.finishedOrders
  needCancel : s'.needCancel = s.needCancel

namespace Market

variable {ql amount : Decimal} {rc : OrderRc} {s s' r : MatchState}

/-- After a settlement the filter holds trades up to the one settled. -/
theorem Filtered.settled {y' : Ctx} {id : ℕ} (h : Filtered K y) (hid : id = y.sequencer.tradeId + 1)
    (hins : TtlCache.Inserted (TradeKeys id) y.updateController.cache 4 y'.updateController.cache)
    (hseq : y'.sequencer.tradeId = id) : Filtered K y' := by
  refine ⟨fun a ha ht => ?_, fun a ha ht => ?_⟩
  · rcases hins.mem ha with ha | ha
    · exact (h.trade a ha ht).trans (by omega)
    · rw [ha.2, hseq]
  · rcases hins.mem ha with ha | ha
    · exact h.other a ha ht
    · exact absurd ha.1 ht

/-- A filled maker is put aside on both sides. -/
theorem forall₂_finished {l l' : List Order} (hl : List.Forall₂ Order.Twin l l') (ho : o.Twin o') :
    List.Forall₂ Order.Twin (if o.remain = 0 then l ++ [o] else l)
    (if o'.remain = 0 then l' ++ [o'] else l') := by
  rw [ho.remain]
  split
  · exact List.rel_append hl (.cons ho .nil)
  · exact hl

theorem executeTrade_twin (hQ : Q.OK now τ) (hs : s.Twin Q s')
    (h : executeTrade E now ql rc amount s = .ok r) :
    ∃ r', executeTrade E τ ql rc amount s' = .ok r' ∧ r.Twin Q r' := by
  unfold executeTrade at h
  simp only [bind_ok] at h
  obtain ⟨_, d₁, _, d₂, _, d₃, _, d₄, _, d₅, _, d₆, x₁, hsettle, h⟩ := h
  rw [pure_ok] at h
  set maker := s.market.rcs.read rc with hmaker
  set t := createTrade now s.market s.ctx.sequencer.nextTradeId.1 (s.taker.touched now)
    (maker.touched now) amount with ht
  have hread : maker.Twin (s'.market.rcs.read rc) := hs.market.read rc
  have htaker : (s.taker.touched now).Twin (s'.taker.touched τ) := hs.taker.touched
  have hmk : (maker.touched now).Twin ((s'.market.rcs.read rc).touched τ) := hread.touched
  have hid : s'.ctx.sequencer.nextTradeId.1 = s.ctx.sequencer.nextTradeId.1 :=
    congrArg (· + 1) hs.ctx.tradeId
  have hisAsk : (s'.taker.touched τ).isAsk = (s.taker.touched now).isAsk := htaker.isAsk
  have ht' : createTrade τ s'.market s'.ctx.sequencer.nextTradeId.1 (s'.taker.touched τ)
      ((s'.market.rcs.read rc).touched τ) amount = { t with timestamp := τ } := by
    rw [hid, createTrade_twin hs.market htaker hmk]
  obtain ⟨hcache, husers, hassets⟩ :=
    settle_cache (x := { s.ctx with sequencer := s.ctx.sequencer.nextTradeId.2 })
    hs.ctx.capacity hsettle
  -- the second settlement
  have hlegs : ({ t with timestamp := τ } : Trade).legs s'.market (s.taker.touched now).isAsk =
      t.legs s.market (s.taker.touched now).isAsk := by
    obtain ⟨hp, price, n, hm, -, -, -⟩ := hs.market
    rw [hm]; rfl
  rw [settle_eq_legs] at hsettle
  obtain ⟨hseq, y₁, hy₁, hbm₁, hseqy, hfilters, hins⟩ := settleLegs_twin (n := s'.market) hQ
    (x := { s.ctx with sequencer := s.ctx.sequencer.nextTradeId.2 })
    (y := { s'.ctx with sequencer := s'.ctx.sequencer.nextTradeId.2 }) (legs_nodup husers hassets)
    hs.ctx.balances hs.ctx.filters
    (fun a ha l _ he => by
      have hold := hs.ctx.filtered.trade a ha (he ▸ rfl)
      have hnew : a.1.businessId = s'.ctx.sequencer.tradeId + 1 := by rw [he]; exact hid.symm
      omega) hsettle
  have htaker' := htaker.fill t { t with timestamp := τ } rfl rfl
    (if (s.taker.touched now).isAsk = true then t.askFee else t.bidFee)
  have hmk' := hmk.fill t { t with timestamp := τ } rfl rfl
    (if (s.taker.touched now).isAsk = true then t.bidFee else t.askFee)
  unfold executeTrade
  simp only [bind_ok]
  rw [ht', hisAsk]
  refine ⟨_, ⟨(), d₁, (), d₂, (), ?_, (), ?_, (), ?_, (), ?_, y₁, ?_, rfl⟩, ?_⟩
  · refine (debugAssert_congr ?_).trans d₃
    obtain ⟨a, b, hk⟩ := hs.taker
    rw [hs.quoteSum, hk]; rfl
  · refine (debugAssert_congr ?_).trans d₄
    obtain ⟨hp, price, n, hm, -, -, -⟩ := hs.market
    rw [hm]
  · refine (debugAssert_congr ?_).trans d₅
    rw [(htaker'.askOf hmk').remain]
  · refine (debugAssert_congr ?_).trans d₆
    rw [(htaker'.bidOf hmk').remain]
  · rw [settle_eq_legs, hlegs]; exact hy₁
  · have hrel := hmk'.release
      (if (s.taker.touched now).isAsk = true then t.quoteAmount else t.amount)
    subst h
    refine ⟨hs.market.afterTrade hQ hrel rc t.price, ⟨hbm₁, ?_, ?_, ?_, ?_, hfilters⟩, htaker', ?_,
      ?_, hs.needCancel⟩
    · exact (congrArg Sequencer.orderId hseqy).trans
        (hs.ctx.orderId.trans (congrArg Sequencer.orderId hseq).symm)
    · refine (congrArg Sequencer.tradeId hseqy).trans ?_
      exact (congrArg (· + 1) hs.ctx.tradeId).trans (congrArg Sequencer.tradeId hseq).symm
    · exact hcache.capacity ▸ hs.ctx.capacity
    · refine Filtered.settled (y := s'.ctx) hs.ctx.filtered hid.symm hins ?_
      exact (congrArg Sequencer.tradeId hseqy).trans hid
    · show s'.quoteSum + _ = s.quoteSum + _
      rw [hs.quoteSum]
    · exact forall₂_finished hs.finished hrel

theorem tradedBaseAmount_twin (hm : m.Twin Q m') (hk : o.Twin o') (hp : p.Twin p')
    (ql qs : Decimal) :
    m'.tradedBaseAmount o' (askOf o' p') (bidOf o' p') p'.price ql qs =
      m.tradedBaseAmount o (askOf o p) (bidOf o p) p.price ql qs := by
  unfold tradedBaseAmount
  rw [(hk.askOf hp).remain, (hk.bidOf hp).remain]
  obtain ⟨h, price, n, rfl, -, -, -⟩ := hm
  obtain ⟨a, b, rfl⟩ := hk
  obtain ⟨c, d, rfl⟩ := hp
  rfl

theorem matchMaker_twin {r : ForInStep MatchState} (hQ : Q.OK now τ) (hs : s.Twin Q s')
    (h : matchMaker E now ql rc s = .ok r) :
    ∃ r', matchMaker E τ ql rc s' = .ok r' ∧ StepRel (MatchState.Twin Q) r r' := by
  have hmk := hs.market.read rc
  have hask := hs.taker.askOf hmk
  have hbid := hs.taker.bidOf hmk
  have hself : s'.market.disableSelfTrade = s.market.disableSelfTrade := by
    obtain ⟨hp, price, n, hm, -, -, -⟩ := hs.market
    rw [hm]
  have hamount : s'.market.tradedBaseAmount s'.taker (askOf s'.taker (s'.market.rcs.read rc))
      (bidOf s'.taker (s'.market.rcs.read rc)) (s'.market.rcs.read rc).price ql s'.quoteSum =
      s.market.tradedBaseAmount s.taker (askOf s.taker (s.market.rcs.read rc))
        (bidOf s.taker (s.market.rcs.read rc)) (s.market.rcs.read rc).price ql s.quoteSum := by
    rw [hs.quoteSum]
    exact tradedBaseAmount_twin hs.market hs.taker hmk ql s.quoteSum
  have hneed : ∀ b, ({ s with needCancel := b } : MatchState).Twin Q { s' with needCancel := b } :=
    fun _ =>
    ⟨hs.market, hs.ctx, hs.taker, hs.quoteSum, hs.finished, rfl⟩
  unfold matchMaker at h ⊢
  simp only [hamount, hself, hs.taker.remain, hs.taker.type_,
    hs.taker.postOnly, hask.price, hbid.price, hask.user, hbid.user] at h ⊢
  split at h
  · rename_i hc
    rw [if_pos hc]
    rw [pure_ok] at h
    exact ⟨_, rfl, h ▸ .done hs⟩
  rename_i hc
  rw [if_neg hc]
  split at h
  · rename_i hc
    rw [if_pos hc]
    rw [pure_ok] at h
    exact ⟨_, rfl, h ▸ .done hs⟩
  rename_i hc
  rw [if_neg hc]
  split at h
  · rename_i hc
    rw [if_pos hc]
    rw [pure_ok] at h
    exact ⟨_, rfl, h ▸ .done (hneed true)⟩
  rename_i hc
  rw [if_neg hc]
  split at h
  · rename_i hc
    rw [if_pos hc]
    rw [pure_ok] at h
    exact ⟨_, rfl, h ▸ .done (hneed true)⟩
  rename_i hc
  rw [if_neg hc]
  obtain ⟨a, ha, h⟩ := bind_ok.1 h
  rw [ha]
  cases a with
  | none =>
    simp only [pure_ok] at h
    exact ⟨_, rfl, h ▸ .done hs⟩
  | some amount =>
    simp only [bind_ok, pure_ok] at h
    obtain ⟨t, ht, rfl⟩ := h
    obtain ⟨t', ht', htt⟩ := executeTrade_twin hQ hs ht
    exact ⟨.yield t', bind_ok.2 ⟨_, rfl, by simp only [ht']; rfl⟩, .yield htt⟩

/-! ## Removal and insertion -/

theorem unfrozenBalance_twin {bm bm' bm₁ : BalanceManager} (hm : m.Twin Q m') (ho : o.Twin o')
    (hbm : bm.Twin bm') (h : m.unfrozenBalance E bm o = .ok bm₁) :
    ∃ bm₁', m'.unfrozenBalance E bm' o' = .ok bm₁' ∧ bm₁.Twin bm₁' := by
  obtain ⟨hp, price, n, rfl, -, -, -⟩ := hm
  obtain ⟨a, b, rfl⟩ := ho
  unfold unfrozenBalance at h ⊢
  obtain ⟨_, hassert, h⟩ := bind_ok.1 h
  by_cases hzero : o.remain = 0
  · rw [if_pos hzero, pure_ok] at h
    subst h
    exact ⟨bm', bind_ok.2 ⟨(), hassert, by rw [if_pos hzero]; rfl⟩, hbm⟩
  · rw [if_neg hzero] at h
    obtain ⟨bm₁', hfree, htwin⟩ := hbm.unfrozen h
    exact ⟨bm₁', bind_ok.2 ⟨(), hassert, by rw [if_neg hzero]; exact hfree⟩, htwin⟩

theorem orderFinish_twin (hm : m.Twin Q m') (hx : x.Twin Q y) (ho : o.Twin o')
    (h : m.orderFinish E x o = .ok (m₁, x')) :
    ∃ m₁' y', m'.orderFinish E y o' = .ok (m₁', y') ∧ m₁.Twin Q m₁' ∧ x'.Twin Q y' := by
  obtain ⟨hrem, bm, hbm, rfl, rfl⟩ := orderFinish_iff.1 h
  obtain ⟨bm', hbm', htwin⟩ := unfrozenBalance_twin hm ho hx.balances hbm
  refine ⟨m'.without o', _, orderFinish_iff.2 ⟨?_, bm', hbm', rfl, rfl⟩, hm.without ho,
    hx.withBalances htwin _ _⟩
  obtain ⟨hp, price, n, rfl, -, -, -⟩ := hm
  obtain ⟨a, b, rfl⟩ := ho
  exact ⟨hrem.side, hrem.order, hrem.user, hrem.userOrder⟩

theorem insertOrder_twin {o₁ : Order} (hm : m.Twin Q m') (ho : o.Twin o')
    (h : m.insertOrderIntoOrderbook E o = .ok (o₁, m₁)) :
    ∃ o₁' m₁', m'.insertOrderIntoOrderbook E o' = .ok (o₁', m₁') ∧ o₁.Twin o₁' ∧ m₁.Twin Q m₁' := by
  obtain ⟨hins, rfl, rfl⟩ := insertOrder_iff.1 h
  refine ⟨_, _, insertOrder_iff.2 ⟨?_, rfl, rfl⟩, ho.rested, hm.withRest ho.rested⟩
  obtain ⟨hp, price, n, rfl, -, -, -⟩ := hm
  obtain ⟨a, b, rfl⟩ := ho
  exact ⟨hins.limit, hins.order, hins.userOrder, hins.side⟩

/-! ## The methods of a market -/

theorem deep_twin {id : ℕ} (hm : m.Twin Q m') (h : m.deep id = .ok o) :
    ∃ o', m'.deep id = .ok o' ∧ o.Twin o' := by
  simp only [deep, bind_ok, pure_ok, unwrap_ok] at h ⊢
  obtain ⟨rc, hrc, rfl⟩ := h
  have horders : m'.orders = m.orders := by
    obtain ⟨hp, price, n, hm, -, -, -⟩ := hm
    rw [hm]
  exact ⟨_, ⟨rc, by rw [horders]; exact hrc, rfl⟩, hm.read rc⟩

/-- A market and its context, and their twins. -/
def PairTwin (Q : Pairing) (a b : Market × Ctx) : Prop := a.1.Twin Q b.1 ∧ a.2.Twin Q b.2

theorem cancel_twin {id : ℕ} (hm : m.Twin Q m') (hx : x.Twin Q y)
    (h : m.cancel E x id = .ok (o, m₁, x')) :
    ∃ o' m₁' y', m'.cancel E y id = .ok (o', m₁', y') ∧ o.Twin o' ∧ m₁.Twin Q m₁' ∧
      x'.Twin Q y' := by
  simp only [cancel, bind_ok, pure_ok, Prod.mk.injEq] at h ⊢
  obtain ⟨p, hp, ⟨m₂, x₂⟩, hfin, rfl, rfl, rfl⟩ := h
  obtain ⟨p', hp', hpp⟩ := deep_twin hm hp
  obtain ⟨m₂', y₂, hfin', hmm, hxx⟩ := orderFinish_twin hm hx hpp hfin
  exact ⟨_, _, _, ⟨p', hp', ⟨m₂', y₂⟩, hfin', rfl, rfl, rfl⟩, hpp, hmm, hxx⟩

theorem cancelAllForUser_twin {user : Uuid} {n : ℕ} (hm : m.Twin Q m') (hx : x.Twin Q y)
    (h : m.cancelAllForUser E x user = .ok (n, m₁, x')) :
    ∃ m₁' y', m'.cancelAllForUser E y user = .ok (n, m₁', y') ∧ m₁.Twin Q m₁' ∧ x'.Twin Q y' := by
  have husers : m'.users = m.users := by
    obtain ⟨hp, price, n, hm, -, -, -⟩ := hm
    rw [hm]
  simp only [cancelAllForUser, bind_ok, pure_ok, Prod.mk.injEq, husers] at h ⊢
  obtain ⟨s, hloop, rfl, rfl, rfl⟩ := h
  have hround : ∀ (id id' : ℕ) (a b : Market × Ctx) (a' : Market × Ctx), id = id' → PairTwin Q a b →
      (do let order ← a.1.deep id
          a.1.orderFinish E a.2 order) = .ok a' →
      ∃ b', (do let order ← b.1.deep id'
                b.1.orderFinish E b.2 order) = .ok b' ∧ PairTwin Q a' b' := by
    rintro id _ a b a' rfl ⟨hab, hxy⟩ hstep
    obtain ⟨p, hp, hfin⟩ := bind_ok.1 hstep
    obtain ⟨p', hp', hpp⟩ := deep_twin hab hp
    obtain ⟨m₂', y₂, hfin', hmm, hxx⟩ := orderFinish_twin hab hxy hpp hfin
    exact ⟨(m₂', y₂), bind_ok.2 ⟨p', hp', hfin'⟩, hmm, hxx⟩
  obtain ⟨b', hb', hmm, hxx⟩ := foldlM_sim (R := PairTwin Q) (S := Eq) hround _ _ (m, x) (m', y) s
    (List.forall₂_eq_eq_eq ▸ rfl) ⟨hm, hx⟩ hloop
  exact ⟨_, _, ⟨b', hb', rfl, rfl, rfl⟩, hmm, hxx⟩

theorem loop_twin {rcs : List OrderRc} (hQ : Q.OK now τ) (hs : s.Twin Q s')
    (h : forBreak (matchMaker E now ql) rcs s = .ok r) :
    ∃ r', forBreak (matchMaker E τ ql) rcs s' = .ok r' ∧ r.Twin Q r' := by
  refine forBreak_sim (R := MatchState.Twin Q) (fun rc a b r hab hr => ?_) rcs s s' r hs h
  exact matchMaker_twin hQ hab hr

/-- The filled makers leave the indexes on both sides. -/
theorem finish_twin {items items' : List Order} (hitems : List.Forall₂ Order.Twin items items')
    {a b a' : Market × Ctx} (hab : PairTwin Q a b)
    (h : items.foldlM (fun (mx : Market × Ctx) item => mx.1.orderFinish E mx.2 item) a = .ok a') :
    ∃ b', items'.foldlM (fun (mx : Market × Ctx) item => mx.1.orderFinish E mx.2 item) b = .ok b' ∧
      PairTwin Q a' b' := by
  refine foldlM_sim (R := PairTwin Q) (S := Order.Twin) ?_ _ _ a b a' hitems hab h
  rintro p p' a b ⟨m₁, x₁⟩ hpp hab hfin
  obtain ⟨m₂, y₂, hfin', hmm, hxx⟩ := orderFinish_twin hab.1 hab.2 hpp hfin
  exact ⟨(m₂, y₂), hfin', hmm, hxx⟩

/-- The end of an order on both sides: it is closed, or what is left of it rests. -/
def endOrder (E : Env) (s : MatchState) (m : Market) (x : Ctx) :
    Except Panic (Order × Market × Ctx) :=
  if s.needCancel then return (s.taker, m,
    { x with persistor := x.persistor.putOrder s.taker .finish })
  else if s.taker.type_ = .market then
    return (s.taker, m, { x with persistor := x.persistor.putOrder s.taker .finish })
  else if s.taker.remain = 0 then
    return (s.taker, m, { x with persistor := x.persistor.putOrder s.taker .finish })
  else do
    let (taker, m) ← m.insertOrderIntoOrderbook E s.taker
    let bm ← m.frozenBalance E x.balanceManager taker
    return (taker, m, { x with balanceManager := bm })

theorem executeOrder_eq (m : Market) (x : Ctx) (o : Order) (ql : Decimal) :
    m.executeOrder E now x o ql = (do
    let s ← forBreak (matchMaker E now ql) (m.counterOrders o)
      { market := m
        ctx := { x with persistor := x.persistor.putOrder o .put }
        taker := o
        quoteSum := 0
        finishedOrders := []
        needCancel := false }
    let mx ← s.finishedOrders.foldlM (fun (mx : Market × Ctx) item => mx.1.orderFinish E mx.2 item)
        (s.market, s.ctx)
    endOrder E s mx.1 mx.2) := rfl

theorem endOrder_twin {o₁ : Order} (hs : s.Twin Q s') (hm : m.Twin Q m') (hx : x.Twin Q y)
    (h : endOrder E s m x = .ok (o₁, m₁, x')) :
    ∃ o₁' m₁' y', endOrder E s' m' y = .ok (o₁', m₁', y') ∧ o₁.Twin o₁' ∧ m₁.Twin Q m₁' ∧
      x'.Twin Q y' := by
  have hdone : ∀ {o₁ m₁ x'},
      (s.taker, m, ({ x with persistor := x.persistor.putOrder s.taker .finish } : Ctx)) =
      (o₁, m₁, x') → o₁.Twin s'.taker ∧ m₁.Twin Q m' ∧
        x'.Twin Q { y with persistor := y.persistor.putOrder s'.taker .finish } := by
    rintro _ _ _ he
    simp only [Prod.mk.injEq] at he
    obtain ⟨rfl, rfl, rfl⟩ := he
    exact ⟨hs.taker, hm, hx.withPersistor _ _⟩
  unfold endOrder at h ⊢
  rw [hs.needCancel, hs.taker.type_, hs.taker.remain]
  split at h
  · rename_i hc
    rw [pure_ok] at h
    rw [if_pos hc]
    exact ⟨_, _, _, rfl, hdone h⟩
  rename_i hc
  rw [if_neg hc]
  split at h
  · rename_i hc
    rw [pure_ok] at h
    rw [if_pos hc]
    exact ⟨_, _, _, rfl, hdone h⟩
  rename_i hc
  rw [if_neg hc]
  split at h
  · rename_i hc
    rw [pure_ok] at h
    rw [if_pos hc]
    exact ⟨_, _, _, rfl, hdone h⟩
  rename_i hc
  rw [if_neg hc]
  simp only [bind_ok, pure_ok, Prod.mk.injEq] at h
  obtain ⟨⟨o₂, m₂⟩, hins, bm, hbm, rfl, rfl, rfl⟩ := h
  obtain ⟨o₂', m₂', hins', hoo, hmm⟩ := insertOrder_twin hm hs.taker hins
  obtain ⟨bm', hbm', htwin⟩ : ∃ bm', m₂'.frozenBalance E y.balanceManager o₂' = .ok bm' ∧
      bm.Twin bm' := by
    obtain ⟨hp, price, n, rfl, -, -, -⟩ := hmm
    obtain ⟨a, b, rfl⟩ := hoo
    exact hx.balances.frozen hbm
  refine ⟨o₂', m₂', _, ?_, hoo, hmm, hx.withBalances htwin x.persistor y.persistor⟩
  exact bind_ok.2 ⟨(o₂', m₂'), hins', bind_ok.2 ⟨bm', hbm', rfl⟩⟩

theorem executeOrder_twin {o₁ : Order} (hQ : Q.OK now τ) (hm : m.Twin Q m') (hx : x.Twin Q y)
    (ho : o.Twin o')
    (h : m.executeOrder E now x o ql = .ok (o₁, m₁, x')) :
    ∃ o₁' m₁' y', m'.executeOrder E τ y o' ql = .ok (o₁', m₁', y') ∧ o₁.Twin o₁' ∧ m₁.Twin Q m₁' ∧
      x'.Twin Q y' := by
  rw [executeOrder_eq] at h ⊢
  obtain ⟨s, hloop, h⟩ := bind_ok.1 h
  obtain ⟨⟨m₂, x₂⟩, hfinish, h⟩ := bind_ok.1 h
  have hcounter : m'.counterOrders o' = m.counterOrders o := by
    unfold counterOrders
    rw [ho.isAsk]
    obtain ⟨hp, price, n, rfl, -, -, -⟩ := hm
    rfl
  have hbegin : ({ market := m, ctx := { x with persistor := x.persistor.putOrder o .put },
                   taker := o, quoteSum := 0,
                   finishedOrders := [], needCancel := false } : MatchState).Twin Q
      { market := m', ctx := { y with persistor := y.persistor.putOrder o' .put }, taker := o',
        quoteSum := 0,
        finishedOrders := [], needCancel := false } := ⟨hm, hx.withPersistor _ _, ho, rfl, .nil,
        rfl⟩
  obtain ⟨s', hloop', hss⟩ := loop_twin hQ hbegin hloop
  have hstart : PairTwin Q (s.market, s.ctx) (s'.market, s'.ctx) := ⟨hss.market, hss.ctx⟩
  obtain ⟨⟨m₂', y₂⟩, hfinish', hmm, hxx⟩ := finish_twin hss.finished hstart hfinish
  obtain ⟨o₁', m₁', y', hend, htwin⟩ := endOrder_twin hss hmm hxx h
  refine ⟨o₁', m₁', y', ?_, htwin⟩
  rw [hcounter, hloop']
  exact bind_ok.2 ⟨s', rfl, bind_ok.2 ⟨_, hfinish', hend⟩⟩

/-! ## `put_order` -/

theorem checkInput_twin {bm bm' : BalanceManager} (hm : m.Twin Q m') (hbm : bm.Twin bm')
    (input : OrderInput) (user : Uuid) :
    m'.checkInput E bm' input user = m.checkInput E bm input user := by
  obtain ⟨h, price, n, rfl, -, -, -⟩ := hm
  simp only [checkInput, checkBalance, hbm.get]
  rfl

theorem quoteLimit_twin {bm bm' : BalanceManager} (hm : m.Twin Q m') (hbm : bm.Twin bm')
    (input : OrderInput) (user : Uuid) :
    m'.quoteLimit bm' input user = m.quoteLimit bm input user := by
  obtain ⟨h, price, n, rfl, -, -, -⟩ := hm
  simp only [quoteLimit, hbm.get, hbm.assetPrec]

/-- Two replies to an order: the same error, or orders that differ in times only. -/
inductive ReplyTwin {ε : Type} : Except ε Order → Except ε Order → Prop
  | error (e : ε) : ReplyTwin (.error e) (.error e)
  | ok {o o' : Order} : o.Twin o' → ReplyTwin (.ok o) (.ok o')

/-- **`put_order` runs in step with itself.** -/
theorem putOrder_twin {input : OrderInput} {user : Uuid} {res : Except String Order}
    (hQ : Q.OK now τ) (hm : m.Twin Q m') (hx : x.Twin Q y)
    (h : m.putOrder E now x input user = .ok (res, m₁, x')) :
    ∃ res' m₁' y', m'.putOrder E τ y input user = .ok (res', m₁', y') ∧ ReplyTwin res res' ∧
      m₁.Twin Q m₁' ∧
      x'.Twin Q y' := by
  have hcheck :
      m'.checkInput E y.balanceManager input user = m.checkInput E x.balanceManager input user :=
    checkInput_twin hm hx.balances input user
  have hlimit :
      m'.quoteLimit y.balanceManager input user = m.quoteLimit x.balanceManager input user :=
    quoteLimit_twin hm hx.balances input user
  unfold putOrder at h ⊢
  rw [hcheck]
  split at h
  · simp only [pure_ok, Prod.mk.injEq] at h
    obtain ⟨rfl, rfl, rfl⟩ := h
    exact ⟨_, _, _, rfl, .error _, hm, hx⟩
  · obtain ⟨ql, hql, h⟩ := bind_ok.1 h
    simp only [bind_ok, pure_ok, Prod.mk.injEq] at h
    obtain ⟨⟨o₁, m₂, x₂⟩, hex, rfl, rfl, rfl⟩ := h
    have hid : y.sequencer.nextOrderId.1 = x.sequencer.nextOrderId.1 := congrArg (· + 1) hx.orderId
    have hnew : (m.newOrder x.sequencer.nextOrderId.1 now input user).Twin
        (m'.newOrder y.sequencer.nextOrderId.1 τ input user) := by
      rw [hid]
      obtain ⟨hp, price, n, rfl, -, -, -⟩ := hm
      exact ⟨τ, τ, rfl⟩
    have hx' : ({ x with sequencer := x.sequencer.nextOrderId.2 } : Ctx).Twin Q
        { y with sequencer := y.sequencer.nextOrderId.2 } :=
      ⟨hx.balances, hid, hx.tradeId, hx.capacity, ⟨hx.filtered.trade, hx.filtered.other⟩,
        hx.filters⟩
    obtain ⟨o₁', m₁', y', hex', hoo, hmm, hxx⟩ := executeOrder_twin hQ hm hx' hnew hex
    refine ⟨.ok o₁', m₁', y', bind_ok.2 ⟨ql, hlimit.trans hql, ?_⟩, .ok hoo, hmm, hxx⟩
    exact bind_ok.2 ⟨(o₁', m₁', y'), hex', rfl⟩

end Market

end Dingir
