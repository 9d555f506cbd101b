import Dingir.Proof.Reload
import Dingir.Proof.Recovery

/-!
# Reloading in place, and restarting

`debug_reload` resets the controller and loads the database into it; a restart loads
the same database into a new controller. Both begin without orders and balances
(`Controller.Cleared`) and run in step from there, whatever the database holds
(`initFromDb_twin`). They end alike but for one thing: a reset leaves every market
its last price and its number of trades, and the replay counts on from there.

So the two are the same where no market had a trade before, and nowhere else
(`Operated.reload_in_place`, `not_reload_in_place`).
-/

namespace Dingir

open Keyed Outcome Market

variable {E : Env} {settings settings' : Settings} {now τ : Timestamp} {slice : Option Slice}
  {log : List OperationLog} {Q : Pairing} {b c c' r r' : Controller} {m m' : Market}

/-! ## The same state -/

/-- The same market but for the times of its orders. -/
def Market.Same (m m' : Market) : Prop :=
  ∃ h, m' = { m with rcs := h } ∧ h.next = m.rcs.next ∧ ∀ rc, (m.rcs.read rc).Twin (h.read rc)

/-- **The same state**: the same balances, markets and counters, and so the same summary and the
same prices for the updates to come. -/
structure SameState (r c' : Controller) : Prop where
  balances : c'.balanceManager.balances = r.balanceManager.balances
  orderId : c'.sequencer.orderId = r.sequencer.orderId
  tradeId : c'.sequencer.tradeId = r.sequencer.tradeId
  operationLogId : c'.sequencer.operationLogId = r.sequencer.operationLogId
  markets : ∀ name, Option.Rel Market.Same (r.markets.find? name) (c'.markets.find? name)
  summary : ∀ name,
    (c'.markets.find? name).map Market.status = (r.markets.find? name).map Market.status
  prices : ∀ asset, c'.marketPrice asset = r.marketPrice asset

/-- `b` has the settings, the assets and the markets of `c`. -/
structure SameSetup (c b : Controller) : Prop where
  limit : b.settings.userOrderNumLimit = c.settings.userOrderNumLimit
  names : ∀ pair, b.assetMarketNames.find? pair = c.assetMarketNames.find? pair
  assets : ∀ id,
    b.balanceManager.assetManager.assetGet id = c.balanceManager.assetManager.assetGet id
  markets : ∀ name, Option.Rel Market.SameTerms (c.markets.find? name) (b.markets.find? name)

theorem SameSetup.symm (h : SameSetup c b) : SameSetup b c := by
  refine ⟨h.limit.symm, fun pair => (h.names pair).symm, fun id => (h.assets id).symm,
    fun name => ?_⟩
  have hrel := h.markets name
  generalize c.markets.find? name = o at hrel ⊢
  generalize b.markets.find? name = o' at hrel ⊢
  cases hrel with
  | none => exact .none
  | some hm => exact .some hm.symm

theorem Market.Same.status (h : m.Same m') : m'.status = m.status := by
  obtain ⟨h, rfl, -, hread⟩ := h
  have hremain : ∀ rc, (h.read rc).remain = (m.rcs.read rc).remain := fun rc => (hread rc).remain
  simp only [Market.status, hremain]

/-! ## Recovery in step -/

theorem loadBalance_twin {bm bm' bm₁ : BalanceManager} {row : BalanceSlice} (h : bm.Twin bm')
    (hload : loadBalance E bm row = .ok bm₁) :
    ∃ bm₁', loadBalance E bm' row = .ok bm₁' ∧ bm₁.Twin bm₁' :=
  h.setByKey hload

theorem loadOrder_twin {markets markets' markets₁ : HashMap String Market} {row : OrderSlice}
    (h : ∀ name, Option.Rel (Market.Twin Q) (markets.find? name) (markets'.find? name))
    (hload : loadOrder E markets row = .ok markets₁) :
    ∃ markets₁', loadOrder E markets' row = .ok markets₁' ∧
      ∀ name, Option.Rel (Market.Twin Q) (markets₁.find? name) (markets₁'.find? name) := by
  simp only [loadOrder, bind_ok, pure_ok, unwrap_ok] at hload ⊢
  obtain ⟨m, hm, ⟨o, m₁⟩, hinsert, rfl⟩ := hload
  have hrel := h row.market
  rw [hm] at hrel
  generalize hm' : markets'.find? row.market = a at hrel
  cases hrel with
  | @some _ m' htwin =>
    have horder : (row.toOrder m).Twin (row.toOrder m') := by
      obtain ⟨h, price, n, rfl, -, -, -⟩ := htwin
      exact .refl _
    obtain ⟨o', m₁', hinsert', -, htwin'⟩ := insertOrder_twin htwin horder hinsert
    refine ⟨_, ⟨m', rfl, (o', m₁'), hinsert', rfl⟩, fun name => ?_⟩
    rw [find?_insert, find?_insert]
    by_cases hname : name = row.market
    · rw [if_pos hname, if_pos hname]
      exact .some htwin'
    · rw [if_neg hname, if_neg hname]
      exact h name

theorem loadSlice_twin {s : Slice} (h : c.Twin Q r) (hload : c.loadSlice E s = .ok c') :
    ∃ r', r.loadSlice E s = .ok r' ∧ c'.Twin Q r' ∧ r'.updateController = r.updateController := by
  simp only [Controller.loadSlice, bind_ok, pure_ok] at hload ⊢
  obtain ⟨bm, hbm, markets, hmarkets, rfl⟩ := hload
  obtain ⟨bm', hbm', hbalances⟩ := foldlM_sim (R := BalanceManager.Twin) (S := Eq)
    (fun _ row _ _ _ he hone hload => he ▸ loadBalance_twin hone hload) _ _ _ _ _
    (List.forall₂_eq_eq_eq ▸ rfl) h.balances hbm
  obtain ⟨markets', hmarkets', hmarkets⟩ := foldlM_sim
    (R := fun ms ms' : HashMap String Market => ∀ name,
      Option.Rel (Market.Twin Q) (ms.find? name) (ms'.find? name)) (S := Eq)
    (fun _ row _ _ _ he hone hload => he ▸ loadOrder_twin hone hload) _ _ _ _ _
    (List.forall₂_eq_eq_eq ▸ rfl) h.markets hmarkets
  exact ⟨_, ⟨bm', hbm', markets', hmarkets', rfl⟩,
    ⟨h.limit, h.names, hbalances, h.orderId, h.tradeId, h.capacity,
      ⟨h.filtered.trade, h.filtered.other⟩, h.filters, hmarkets⟩, rfl⟩

/-- Both filters hold the keys of the log so far, and those of the first are alive. -/
def Pairing.InStep (Q : Pairing) (now : Timestamp) : Prop :=
  (∀ k, Q.known k) ∧ ∀ f f', Q.filters f f' → f.SameKeys f' ∧ ∀ a ∈ f.entries, now ≤ a.2

/-- **An entry of the log is replayed on both sides or on none.** -/
theorem replay_twin {entry : OperationLog} (hQ : Q.OK now τ) (hstep : Q.InStep now) (h : c.Twin Q r)
    (hreplay : c.replay E now entry = .ok c') :
    ∃ r', r.replay E τ entry = .ok r' ∧ c'.Twin Q r' := by
  obtain ⟨response, hcall⟩ := replay_call hreplay
  by_cases hup : entry.operation.Updates
  · obtain ⟨id, user, time, op⟩ := entry
    cases op with
    | balanceUpdate req =>
      -- what the first filter has let pass is not in the second one
      have hpasses : ∀ k, UpdateKey E c.balanceManager.assetManager req user k →
          r.updateController.cache.containsKey τ k = false ∧ Q.known k := by
        intro k hk
        rcases Controller.updateBalance_cases hcall with ⟨⟨st, hst⟩, -⟩ |
          ⟨-, prec, price, change, detail, x', hprec, hparse,
          -, happ, -⟩
        · simp at hst
        have hfresh := happ.fresh
        rw [← hk.unique ⟨prec, price, change, detail, hprec, hparse, rfl⟩] at hfresh
        obtain ⟨hkeys, halive⟩ := hstep.2 _ _ h.filters
        exact ⟨TtlCache.containsKey_eq_false (hkeys.fresh halive hfresh), hstep.1 k⟩
      obtain ⟨r', hr', htwin⟩ := Controller.updateBalance_twin (τ := τ) hQ h hcall hpasses
      exact ⟨r', bind_ok.2 ⟨(.ok response, r'), hr', rfl⟩, htwin⟩
    | _ => exact hup.elim
  · obtain ⟨reply', r', hr', hkind, -, htwin⟩ :=
      Controller.call_twin (τ := τ) (ρ := false) hQ h hup hcall
    cases reply' with
    | error st => exact absurd hkind (by simp [SameKind, Except.isOk, Except.toBool])
    | ok response' => exact ⟨r', bind_ok.2 ⟨(.ok response', r'), hr', rfl⟩, htwin⟩

theorem loadOperationLog_twin {start : ℕ} (hQ : Q.OK now τ) (hstep : Q.InStep now) (h : c.Twin Q r)
    (hload : c.loadOperationLog E now log start = .ok c') :
    ∃ r', r.loadOperationLog E τ log start = .ok r' ∧ c'.Twin Q r' ∧
      r'.sequencer.operationLogId = c'.sequencer.operationLogId := by
  simp only [Controller.loadOperationLog, bind_ok, pure_ok] at hload ⊢
  obtain ⟨c₁, hfold, rfl⟩ := hload
  obtain ⟨r₁, hfold', htwin⟩ := foldlM_sim (R := Controller.Twin Q) (S := Eq)
    (fun _ entry _ _ _ he hone hreplay => he ▸ replay_twin hQ hstep hone hreplay) _ _ _ _ _
    (List.forall₂_eq_eq_eq ▸ rfl) h hfold
  exact ⟨_, ⟨r₁, hfold', rfl⟩,
    ⟨htwin.limit, htwin.names, htwin.balances, htwin.orderId, htwin.tradeId, htwin.capacity,
    ⟨htwin.filtered.trade, htwin.filtered.other⟩, htwin.filters, htwin.markets⟩, rfl⟩

/-- **The same database loaded into two controllers in step**, the second with an empty filter. -/
theorem initFromDb_twin (hQ : Q.OK now τ) (hstep : Q.InStep now) (h : c.Twin Q r)
    (hempty : r.updateController.cache.entries = [])
    (hload : c.initFromDb E now slice log = .ok c') :
    ∃ r', r.initFromDb E τ slice log = .ok r' ∧ c'.Twin Q r' ∧
      r'.sequencer.operationLogId = c'.sequencer.operationLogId := by
  cases slice with
  | none => exact loadOperationLog_twin hQ hstep h hload
  | some s =>
    simp only [Controller.initFromDb, bind_ok] at hload ⊢
    obtain ⟨c₁, hslice, hload⟩ := hload
    obtain ⟨r₁, hslice', htwin, hfilter⟩ := loadSlice_twin h hslice
    have hnone : ∀ a, a ∉ r₁.updateController.cache.entries := by
      intro a
      rw [hfilter, hempty]
      simp
    have hcounters : (c₁.withCounters s.history).Twin Q (r₁.withCounters s.history) :=
      ⟨htwin.limit, htwin.names, htwin.balances, rfl, rfl, htwin.capacity,
        ⟨fun a ha => absurd ha (hnone a), fun a ha => absurd ha (hnone a)⟩, htwin.filters,
        htwin.markets⟩
    obtain ⟨r', hload', hrest⟩ := loadOperationLog_twin hQ hstep hcounters hload
    exact ⟨r', ⟨r₁, hslice', hload'⟩, hrest⟩

/-! ## The two beginnings -/

/-- No balances, no orders, nothing in the filter, all counters at 0. -/
structure Controller.Cleared (c : Controller) : Prop where
  sequencer : c.sequencer = ⟨0, 0, 0, 0⟩
  balances : c.balanceManager.balances = ∅
  filter : c.updateController.cache = TtlCache.new 1000000
  markets : ∀ name m, c.markets.find? name = some m → m.name = name ∧ m.NoOrders ∧
    m.rcs = Heap.empty default

/-- The last price and the number of trades of a market. -/
def Controller.lastOf (c : Controller) (name : String) : Decimal × ℕ :=
  ((c.markets.find? name).map fun m => (m.price, m.tradeCount)).getD (0, 0)

/-- **Two sides that make the same trades**, each counting on from the last trades it began with,
and with the same keys in their filters. -/
def Pairing.fromStart (start start' : String → Decimal × ℕ) (now : Timestamp) : Pairing where
  known := fun _ => True
  last := fun name a a' => (a = start name ∧ a' = start' name) ∨
    ∃ price n, 0 < n ∧ a = (price, (start name).2 + n) ∧ a' = (price, (start' name).2 + n)
  filters := fun f f' => f.SameKeys f' ∧ ∀ a ∈ f.entries, now ≤ a.2

theorem Pairing.fromStart_ok (start start' : String → Decimal × ℕ) (now τ : Timestamp) :
    (Pairing.fromStart start start' now).OK now τ := by
  refine ⟨fun name a a' price h => .inr ?_,
    fun f f' k h => ⟨h.1.insert, TtlCache.alive_insert (by norm_num [filterTtl]) h.2⟩⟩
  rcases h with ⟨rfl, rfl⟩ | ⟨_, n, -, rfl, rfl⟩
  · exact ⟨price, 1, Nat.one_pos, rfl, rfl⟩
  · exact ⟨price, n + 1, Nat.succ_pos n, rfl, rfl⟩

theorem Pairing.fromStart_inStep (start start' : String → Decimal × ℕ) (now : Timestamp) :
    (Pairing.fromStart start start' now).InStep now := ⟨fun _ => trivial, fun _ _ h => h⟩

/-- Markets of the same terms, both without orders. -/
theorem Market.SameTerms.twin (h : m.SameTerms m') (hm : m.NoOrders) (hm' : m'.NoOrders)
    (hrcs : m.rcs = Heap.empty default) (hrcs' : m'.rcs = Heap.empty default)
    (hlast : Q.last m.name (m.price, m.tradeCount) (m'.price, m'.tradeCount)) : m.Twin Q m' := by
  obtain ⟨h₁, h₂, h₃, h₄, h₅, h₆, h₇, h₈, h₉, h₁₀, h₁₁⟩ := h
  obtain ⟨k₁, k₂, k₃, k₄⟩ := hm
  obtain ⟨k₁', k₂', k₃', k₄'⟩ := hm'
  refine ⟨m'.rcs, m'.price, m'.tradeCount, ?_, by rw [hrcs, hrcs'], fun rc => ?_, hlast⟩
  · cases m
    cases m'
    simp_all only
  · rw [hrcs, hrcs']
    exact .refl _

/-- **Two cleared controllers of the same setup are in step.** -/
theorem Controller.Cleared.twin (hc : c.Cleared) (hr : r.Cleared) (hsame : SameSetup c r) :
    c.Twin (.fromStart c.lastOf r.lastOf now) r := by
  have hnone : ∀ a, a ∉ r.updateController.cache.entries := by
    intro a
    rw [hr.filter]
    simp [TtlCache.new]
  refine ⟨hsame.limit, hsame.names,
    ⟨hr.balances.trans hc.balances.symm, hsame.assets⟩, by rw [hc.sequencer, hr.sequencer],
    by rw [hc.sequencer, hr.sequencer], by rw [hc.filter]; decide,
    ⟨fun a ha => absurd ha (hnone a), fun _ _ _ => trivial⟩, ?_,
    fun name => ?_⟩
  · rw [hc.filter, hr.filter]
    exact ⟨⟨rfl, rfl⟩, by simp [TtlCache.new]⟩
  · have hrel := hsame.markets name
    cases hm : c.markets.find? name with
    | none =>
      rw [hm] at hrel
      generalize r.markets.find? name = a at hrel ⊢
      cases hrel
      exact .none
    | some m =>
      rw [hm] at hrel
      cases hm' : r.markets.find? name with
      | none =>
        rw [hm'] at hrel
        cases hrel
      | some m' =>
        rw [hm'] at hrel
        cases hrel with
        | some hterms =>
          obtain ⟨hname, horders, hrcs⟩ := hc.markets name m hm
          obtain ⟨-, horders', hrcs'⟩ := hr.markets name m' hm'
          refine .some (hterms.twin horders horders' hrcs hrcs' (.inl ⟨?_, ?_⟩))
          · rw [hname, Controller.lastOf, hm]
            rfl
          · rw [hname, Controller.lastOf, hm']
            rfl

theorem createController_cleared (h : createController settings = .ok c) :
    c.Cleared ∧ ∀ name, c.lastOf name = (0, 0) := by
  obtain ⟨hok, -, hcreated⟩ := createController_ok h
  refine ⟨?_, fun name => ?_⟩
  · have hbegun := createController_begun h
    refine ⟨hbegun.sequencer, hbegun.balances, by rw [hbegun.filter]; rfl, fun name m hm => ?_⟩
    obtain ⟨conf, -, hcr⟩ := hcreated name m hm
    exact ⟨(hok.desk name m hm).1, hcr.noOrders, hcr.rcs⟩
  · unfold Controller.lastOf
    cases hm : c.markets.find? name with
    | none => rfl
    | some m =>
      obtain ⟨conf, -, hcr⟩ := hcreated name m hm
      simp only [Option.map_some, Option.getD_some, hcr.price, hcr.tradeCount]

/-- What a reset needs of a controller: markets under their names, priced by trades, and a filter of
full size. -/
structure Controller.Resettable (c : Controller) : Prop where
  capacity : c.updateController.cache.capacity = 1000000
  markets : ∀ name m, c.markets.find? name = some m → m.name = name ∧ m.PricedByTrades

/-- **Every state of an engine in operation can be reset.** -/
theorem Operated.resettable {P : Controller → Fetch AssetDesc → Prop} {recovers : Prop}
    (h : Operated E settings P recovers c) : c.Resettable := by
  refine h.rule (I := Controller.Resettable) (fun d hd => ?_) (fun d d' hd hframe => ?_)
    (fun d assets d' hd _ hload => ?_)
  · obtain ⟨hok, -, hcreated⟩ := createController_ok hd
    refine ⟨hok.capacity, fun name m hm => ?_⟩
    obtain ⟨conf, -, hcr⟩ := hcreated name m hm
    exact ⟨(hok.desk name m hm).1, fun _ => hcr.price⟩
  · refine ⟨hframe.ctx.capacity.trans hd.capacity, fun name m' hm' => ?_⟩
    have hrel := hframe.markets name
    rw [hm'] at hrel
    generalize ha : d.markets.find? name = a at hrel
    cases hrel with
    | @some m _ hm =>
      obtain ⟨hname, hpriced⟩ := hd.markets name m ha
      exact ⟨hm.terms.name.trans hname, hm.priced hpriced⟩
  · refine ⟨by rw [hload.filter]; exact hd.capacity, fun name m hm => ?_⟩
    rcases hload.markets name m hm with hold | ⟨-, hname, conf, hcr⟩
    · exact hd.markets name m hold
    · exact ⟨hname, fun _ => hcr.price⟩

theorem Controller.Resettable.cleared (h : c.Resettable) : c.resetState.Cleared := by
  refine ⟨rfl, rfl, ?_, fun name m hm => ?_⟩
  · show c.updateController.cache.clear = _
    unfold TtlCache.clear TtlCache.new
    rw [h.capacity]
  · rw [show c.resetState.markets.find? name =
      (c.markets.find? name).map Market.reset from find?_mapValues _ _ _] at hm
    obtain ⟨m₀, hm₀, rfl⟩ := Option.map_eq_some_iff.1 hm
    exact ⟨(h.markets name m₀ hm₀).1, m₀.reset_noOrders, rfl⟩

/-- **A reset leaves the last trades as they were.** -/
theorem Controller.lastOf_resetState (c : Controller) (name : String) :
    c.resetState.lastOf name = c.lastOf name := by
  unfold lastOf
  rw [show c.resetState.markets.find? name =
    (c.markets.find? name).map Market.reset from find?_mapValues _ _ _]
  cases c.markets.find? name <;> rfl

theorem SameSetup.resetState (h : SameSetup c b) : SameSetup c.resetState b := by
  refine ⟨h.limit, h.names, h.assets, fun name => ?_⟩
  rw [show c.resetState.markets.find? name =
    (c.markets.find? name).map Market.reset from find?_mapValues _ _ _]
  have hrel := h.markets name
  generalize c.markets.find? name = a at hrel ⊢
  generalize b.markets.find? name = a' at hrel ⊢
  cases hrel with
  | none => exact .none
  | some hm => exact .some ⟨hm.name, hm.base, hm.quote, hm.amountPrec, hm.pricePrec, hm.basePrec,
      hm.quotePrec, hm.feePrec,
      hm.minAmount, hm.disableSelfTrade, hm.disableMarketOrder⟩

/-! ## Where the two ends agree -/

/-- Two sides that began with the same last trades end in the same state. -/
theorem Controller.Twin.sameState {start start' : String → Decimal × ℕ}
    (h : c.Twin (.fromStart start start' now) c') (hstart : ∀ name, start' name = start name)
    (hid : c'.sequencer.operationLogId = c.sequencer.operationLogId) : SameState c c' := by
  have hmarkets :
      ∀ name, Option.Rel Market.Same (c.markets.find? name) (c'.markets.find? name) := by
    intro name
    have hrel := h.markets name
    generalize c.markets.find? name = a at hrel ⊢
    generalize c'.markets.find? name = a' at hrel ⊢
    cases hrel with
    | none => exact .none
    | @some m _ hm =>
      obtain ⟨h, price, n, rfl, hnext, hread, hlast⟩ := hm
      have hsame : (price, n) = (m.price, m.tradeCount) := by
        rcases hlast with ⟨ha, ha'⟩ | ⟨p, k, -, ha, ha'⟩
        · rw [ha, ha', hstart]
        · rw [ha, ha', hstart]
      obtain ⟨rfl, rfl⟩ := Prod.mk.inj hsame
      exact .some ⟨h, rfl, hnext, hread⟩
  refine ⟨h.balances.balances, h.orderId, h.tradeId, hid, hmarkets, fun name => ?_, fun asset => ?_⟩
  · have hrel := hmarkets name
    generalize c.markets.find? name = a at hrel ⊢
    generalize c'.markets.find? name = a' at hrel ⊢
    cases hrel with
    | none => rfl
    | some hm => exact congrArg Option.some hm.status
  · unfold Controller.marketPrice
    rw [h.names]
    cases hname : c.assetMarketNames.find? (asset, "USDT") with
    | none => rfl
    | some name =>
      dsimp only
      have hrel := hmarkets name
      generalize c.markets.find? name = a at hrel ⊢
      generalize c'.markets.find? name = a' at hrel ⊢
      cases hrel with
      | none => rfl
      | some hm =>
        obtain ⟨_, rfl, -, -⟩ := hm
        rfl

/-- **Restart and reload in step**: when one of them returns so does the other, and they differ in
the last trades they began with. -/
theorem restart_twin (hc : c.Resettable) (hb : createController settings' = .ok b)
    (hsame : SameSetup c b)
    (hreturns : (∃ r, b.initFromDb E τ slice log = .ok r) ∨
      ∃ c', c.resetState.initFromDb E now slice log = .ok c') :
    ∃ r c', b.initFromDb E τ slice log = .ok r ∧ c.resetState.initFromDb E now slice log = .ok c' ∧
      r.Twin (.fromStart b.lastOf c.lastOf τ) c' ∧
      c'.sequencer.operationLogId = r.sequencer.operationLogId := by
  have hfresh := (createController_cleared hb).1
  have hempty : ∀ {d : Controller}, d.Cleared → d.updateController.cache.entries = [] := by
    intro d hd
    rw [hd.filter]
    rfl
  have hlast : c.resetState.lastOf = c.lastOf := funext c.lastOf_resetState
  obtain ⟨r, hr⟩ : ∃ r, b.initFromDb E τ slice log = .ok r := by
    rcases hreturns with hr | ⟨c', hc'⟩
    · exact hr
    · -- the reload leads, and the restart follows
      obtain ⟨r, hr, -⟩ :=
        initFromDb_twin (Pairing.fromStart_ok _ _ now τ) (Pairing.fromStart_inStep _ _ now)
        (hc.cleared.twin hfresh hsame.resetState) (hempty hfresh) hc'
      exact ⟨r, hr⟩
  obtain ⟨c', hc', htwin, hid⟩ :=
    initFromDb_twin (Pairing.fromStart_ok _ _ τ now) (Pairing.fromStart_inStep _ _ τ)
    (hfresh.twin hc.cleared hsame.resetState.symm) (hempty hc.cleared) hr
  exact ⟨r, c', hr, hc', hlast ▸ htwin, hid⟩

/-- **Reloading in place equals restarting exactly where no market had a trade.** As soon as one of
the two returns, so does the other; and they end in the same state if and only if the number of
trades of every market was 0 before the reload. -/
theorem Operated.reload_in_place {P : Controller → Fetch AssetDesc → Prop} {recovers : Prop}
    (h : Operated E settings P recovers c) (hb : createController settings' = .ok b)
    (hsame : SameSetup c b)
    (hreturns : (∃ r, b.initFromDb E τ slice log = .ok r) ∨
      ∃ c', c.resetState.initFromDb E now slice log = .ok c') :
    (∃ r c', b.initFromDb E τ slice log = .ok r ∧ c.resetState.initFromDb E now slice log = .ok c' ∧
      SameState r c') ↔
      ∀ name m, c.markets.find? name = some m → m.tradeCount = 0 := by
  have hc := h.resettable
  have hzero := (createController_cleared hb).2
  obtain ⟨r, c', hr, hc', htwin, hid⟩ := restart_twin hc hb hsame hreturns
  constructor
  · rintro ⟨r', c'', hr', hc'', hstate⟩ name m hm
    obtain rfl := Except.ok.inj (hr.symm.trans hr')
    obtain rfl := Except.ok.inj (hc'.symm.trans hc'')
    -- the market of that name in all four controllers
    have hlast : (c.lastOf name).2 = m.tradeCount := by
      unfold Controller.lastOf
      rw [hm]
      rfl
    have hsetup := hsame.markets name
    rw [hm] at hsetup
    generalize hmb : b.markets.find? name = a at hsetup
    cases hsetup with
    | @some _ mb hterms =>
      have hframed := (Controller.initFromDb_framed hr).markets name
      rw [hmb] at hframed
      have hrel := htwin.markets name
      have hsame := hstate.markets name
      generalize r.markets.find? name = ar at hframed hrel hsame
      generalize c'.markets.find? name = ac at hrel hsame
      cases hframed with
      | @some _ mr hmr =>
        cases hrel with
        | @some _ mc htwin =>
          cases hsame with
          | some hsame =>
            have hname : mr.name = name :=
              hmr.terms.name.trans (hterms.name.trans (hc.markets name m hm).1)
            have hcount : mc.tradeCount = mr.tradeCount := by
              obtain ⟨_, rfl, -, -⟩ := hsame
              rfl
            obtain ⟨_, price, n, rfl, -, -, hlasts⟩ := htwin
            rw [hname] at hlasts
            have hn : n = mr.tradeCount := hcount
            have hstart : (b.lastOf name).2 = 0 := congrArg Prod.snd (hzero name)
            -- both sides have counted the same trades, from 0 and from what the market had
            rcases hlasts with ⟨ha, ha'⟩ | ⟨p, k, -, ha, ha'⟩
            · have h₁ : mr.tradeCount = (b.lastOf name).2 := congrArg Prod.snd ha
              have h₂ : n = (c.lastOf name).2 := congrArg Prod.snd ha'
              omega
            · have h₁ : mr.tradeCount = (b.lastOf name).2 + k := congrArg Prod.snd ha
              have h₂ : n = (c.lastOf name).2 + k := congrArg Prod.snd ha'
              omega
  · intro hnone
    refine ⟨r, c', hr, hc', htwin.sameState (fun name => ?_) hid⟩
    rw [hzero]
    unfold Controller.lastOf
    cases hm : c.markets.find? name with
    | none => rfl
    | some m =>
      have hcount := hnone name m hm
      have hprice : m.price = 0 := (hc.markets name m hm).2 hcount
      simp only [Option.map_some, Option.getD_some, hprice, hcount]

/-- The states of a run have the setup of a new controller of their settings. -/
theorem Reachable.sameSetup (h : Reachable E settings c) :
    ∃ b, createController settings = .ok b ∧ SameSetup c b := by
  obtain ⟨b, hb, hok⟩ := h.ok
  refine ⟨b, hb, by rw [hok.settings], fun pair => by rw [hok.names], fun id => by rw [hok.assets],
    fun name => ?_⟩
  cases hm : c.markets.find? name with
  | none =>
    cases hmb : b.markets.find? name with
    | none => exact .none
    | some m₀ =>
      have hkept := hok.kept name m₀ hmb
      rw [hm] at hkept
      simp at hkept
  | some m =>
    obtain ⟨m₀, hm₀, hterms⟩ := hok.terms name m hm
    rw [hm₀]
    exact .some hterms.symm

/-- A deposit, then a reload and a restart from its log. -/
theorem Operated.reload_in_place_sample :
    ∃ c b r c', Operated releaseEnv sampleSettings (fun _ _ => True) True c ∧
    createController sampleSettings = .ok b ∧ c.logHandler.length = 1 ∧
      b.initFromDb releaseEnv 7200 none c.logHandler = .ok r ∧
      c.resetState.initFromDb releaseEnv 3600 none c.logHandler = .ok c' ∧ SameState r c' := by
  have h : (sampleRun releaseEnv [requestAt 0 bob (depositOf "ETH" 1 "10")] >>=
      fun c => createController sampleSettings >>= fun b =>
      b.initFromDb releaseEnv 7200 none c.logHandler >>= fun _ =>
        pure (c.logHandler.length, c.markets.entries.map fun e => e.2.tradeCount)) =
      (.ok (1, [0]) : Except Panic (ℕ × List ℕ)) := by decide +kernel
  simp only [bind_ok, pure_ok, Prod.mk.injEq] at h
  obtain ⟨c, hc, b, hb, r, hr, hlen, hcounts⟩ := h
  obtain ⟨b', hb', hsetup⟩ := (sampleRun_reachable hc).sameSetup
  obtain rfl := Except.ok.inj (hb.symm.trans hb')
  have hoperated : Operated releaseEnv sampleSettings (fun _ _ => True) True c := by
    obtain ⟨c₀, replies, h₀, hcalls⟩ := sampleRun_ok hc
    exact (Operated.init h₀).calls hcalls
  have hnone : ∀ name m, c.markets.find? name = some m → m.tradeCount = 0 := by
    intro name m hm
    have hmem := List.mem_map_of_mem (f := fun e => e.2.tradeCount) (mem_entries_iff.2 hm)
    rw [hcounts, List.mem_singleton] at hmem
    exact hmem
  have hreturns : (∃ r, b.initFromDb releaseEnv 7200 none c.logHandler = .ok r) ∨
      ∃ c', c.resetState.initFromDb releaseEnv 3600 none c.logHandler = .ok c' := .inl ⟨r, hr⟩
  obtain ⟨r', c', hr', hc', hstate⟩ := (hoperated.reload_in_place hb hsetup hreturns).2 hnone
  exact ⟨c, b, r', c', hoperated, hb, hlen, hr', hc', hstate⟩

/-- After one trade, a reload from an empty database still counts it. -/
theorem not_reload_in_place :
    ¬ ∀ E settings c b now τ slice log, Operated E settings (fun _ _ => True) True c →
    createController settings = .ok b → SameSetup c b → (∃ r, b.initFromDb E τ slice log = .ok r) →
    ∃ r c', b.initFromDb E τ slice log = .ok r ∧ c.resetState.initFromDb E now slice log = .ok c' ∧
      SameState r c' := by
  intro hall
  have h : (sampleRun releaseEnv sampleTrade >>= fun c => createController sampleSettings >>=
      fun b =>
      b.initFromDb releaseEnv 7200 none [] >>=
        fun r => c.resetState.initFromDb releaseEnv 7200 none [] >>= fun c' =>
        pure ((r.markets.find? "ETH_USDT").map Market.tradeCount,
          (c'.markets.find? "ETH_USDT").map Market.tradeCount)) =
      (.ok (some 0, some 1) : Except Panic (Option ℕ × Option ℕ)) := by decide +kernel
  simp only [bind_ok, pure_ok, Prod.mk.injEq] at h
  obtain ⟨c, hc, b, hb, r, hr, c', hc', hrestarted, hreloaded⟩ := h
  obtain ⟨b', hb', hsetup⟩ := (sampleRun_reachable hc).sameSetup
  obtain rfl := Except.ok.inj (hb.symm.trans hb')
  have hoperated : Operated releaseEnv sampleSettings (fun _ _ => True) True c := by
    obtain ⟨c₀, replies, h₀, hcalls⟩ := sampleRun_ok hc
    exact (Operated.init h₀).calls hcalls
  obtain ⟨r', c'', hr', hc'', hstate⟩ := hall _ _ _ _ 7200 7200 none [] hoperated hb hsetup ⟨r, hr⟩
  obtain rfl := Except.ok.inj (hr.symm.trans hr')
  obtain rfl := Except.ok.inj (hc'.symm.trans hc'')
  obtain ⟨m, hm, hzero⟩ := Option.map_eq_some_iff.1 hrestarted
  obtain ⟨m', hm', hone⟩ := Option.map_eq_some_iff.1 hreloaded
  have hrel := hstate.summary "ETH_USDT"
  rw [hm, hm'] at hrel
  have hcount : m'.tradeCount = m.tradeCount :=
    congrArg MarketStatus.tradeCount (Option.some.inj hrel)
  omega

end Dingir
