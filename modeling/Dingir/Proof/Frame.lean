import Dingir.Proof.Reach
import Dingir.Proof.Twin

/-!
# What no operation touches

The frame of the engine, in any state at all: not only in those a run without
failures can reach, but also in what a recovery makes of a database with any
content. Whatever call returns, the assets and the capacity of the filter are
what they were, no balance of an unknown asset comes up, and every market keeps
its terms and has a last price only when it had a trade (`Controller.Framed`).

One lemma for each method, bottom up: balances, updates, the matching loop, the
methods of a market, the operations, recovery. `CallRules` are the rules for any
relation that is to hold across every call.
-/

namespace Dingir

open Keyed Outcome

/-- A market that had no trade has no last price. -/
def Market.PricedByTrades (m : Market) : Prop := m.tradeCount = 0 → m.price = 0

/-- What stays of the balances. -/
structure BalanceManager.Framed (bm bm' : BalanceManager) : Prop where
  assets : bm'.assetManager = bm.assetManager
  known : bm.Known → bm'.Known

/-- What stays of a market. -/
structure Market.Framed (m m' : Market) : Prop where
  terms : m.SameTerms m'
  priced : m.PricedByTrades → m'.PricedByTrades

/-- What stays of the parts the markets share. -/
structure Ctx.Framed (x x' : Ctx) : Prop where
  balances : x.balanceManager.Framed x'.balanceManager
  capacity : x'.updateController.cache.capacity = x.updateController.cache.capacity

/-- **What stays of a controller.** -/
structure Controller.Framed (c c' : Controller) : Prop where
  settings : c'.settings = c.settings
  names : c'.assetMarketNames = c.assetMarketNames
  ctx : (c.ctx true).Framed (c'.ctx true)
  markets : ∀ name, Option.Rel Market.Framed (c.markets.find? name) (c'.markets.find? name)

variable {E : Env} {now : Timestamp} {real : Bool} {u : Uuid} {bm bm' bm'' : BalanceManager}
  {m m' m'' : Market} {x x' x'' : Ctx} {o o' : Order} {c c' c'' : Controller}

/-! ## Balances -/

namespace BalanceManager

theorem Framed.refl (bm : BalanceManager) : bm.Framed bm := ⟨rfl, id⟩

theorem Framed.trans (h : bm.Framed bm') (h' : bm'.Framed bm'') : bm.Framed bm'' :=
  ⟨h'.assets.trans h.assets, fun hk => h'.known (h.known hk)⟩

theorem setByKey_framed {k : BalanceMapKey} {v : Decimal}
    (h : bm.setByKey E k v = .ok bm') : bm.Framed bm' := by
  refine ⟨?_, fun hk => setByKey_known hk h⟩
  obtain ⟨p, -, rfl⟩ := setByKey_ok h
  rfl

theorem add_framed {t : BalanceType} {a : String} {v w : Decimal}
    (h : bm.add E u t a v = .ok (w, bm')) : bm.Framed bm' := by
  simp only [add, bind_ok, pure_ok, Prod.mk.injEq] at h
  obtain ⟨-, -, p, -, bm₁, h, -, rfl⟩ := h
  exact setByKey_framed h

theorem sub_framed {t : BalanceType} {a : String} {v w : Decimal}
    (h : bm.sub E u t a v = .ok (w, bm')) : bm.Framed bm' := by
  simp only [sub, bind_ok, pure_ok, Prod.mk.injEq] at h
  obtain ⟨-, -, p, -, -, -, -, -, bm₁, h, -, rfl⟩ := h
  exact setByKey_framed h

theorem frozen_framed {a : String} {v : Decimal}
    (h : bm.frozen E u a v = .ok bm') : bm.Framed bm' := by
  simp only [frozen, bind_ok, pure_ok] at h
  obtain ⟨-, -, p, -, -, -, ⟨w, bm₁⟩, h₁, ⟨w', bm₂⟩, h₂, rfl⟩ := h
  exact (sub_framed h₁).trans (add_framed h₂)

theorem unfrozen_framed {a : String} {v : Decimal}
    (h : bm.unfrozen E u a v = .ok bm') : bm.Framed bm' := by
  simp only [unfrozen, bind_ok, pure_ok] at h
  obtain ⟨-, -, p, -, -, -, ⟨w, bm₁⟩, h₁, ⟨w', bm₂⟩, h₂, rfl⟩ := h
  exact (add_framed h₁).trans (sub_framed h₂)

end BalanceManager

theorem applyChange_framed {p : BalanceUpdateParams}
    (h : applyChange E bm p = .ok (.ok bm')) : bm.Framed bm' := by
  refine ⟨?_, fun hk => applyChange_known hk h⟩
  unfold applyChange at h
  simp only at h
  split at h
  · simp only [bind_ok, pure_ok, Except.ok.injEq] at h
    obtain ⟨⟨w, bm₁⟩, h, rfl⟩ := h
    exact (BalanceManager.add_framed h).assets
  split at h
  · simp [pure, Except.pure] at h
  · simp only [bind_ok, pure_ok, Except.ok.injEq] at h
    obtain ⟨⟨w, bm₁⟩, h, rfl⟩ := h
    exact (BalanceManager.sub_framed h).assets

/-! ## The shared parts -/

namespace Ctx.Framed

theorem refl (x : Ctx) : x.Framed x := ⟨.refl _, rfl⟩

theorem trans (h : x.Framed x') (h' : x'.Framed x'') : x.Framed x'' :=
  ⟨h.balances.trans h'.balances, h'.capacity.trans h.capacity⟩

end Ctx.Framed

theorem updateUserBalance_framed {p : BalanceUpdateParams} {res : Except String Unit}
    (h : updateUserBalance E now x p = .ok (res, x')) : x.Framed x' := by
  rcases updateUserBalance_cases h with ⟨-, rfl⟩ | ⟨-, happ⟩
  · exact .refl _
  · refine ⟨applyChange_framed happ.change, ?_⟩
    rw [happ.cache]
    rfl

namespace Market

theorem settleOne_framed {tradeId : ℕ} {t : BalanceType} {a : String} {v : Decimal}
    (h : settleOne E now x m tradeId t u a v = .ok x') : x.Framed x' := by
  unfold settleOne at h
  obtain ⟨⟨res, y⟩, hu, h⟩ := bind_ok.1 h
  cases res with
  | error e => exact absurd h throw_ok
  | ok _ =>
    simp only [pure_ok] at h
    subst h
    exact updateUserBalance_framed hu

theorem settle_framed {takerIsAsk : Bool} {t : Trade}
    (h : settle E now x m takerIsAsk t = .ok x') : x.Framed x' := by
  simp only [settle, bind_ok] at h
  obtain ⟨x₁, h₁, x₂, h₂, x₃, h₃, h₄⟩ := h
  exact ((settleOne_framed h₁).trans (settleOne_framed h₂)).trans
    ((settleOne_framed h₃).trans (settleOne_framed h₄))

/-! ## A market -/

namespace Framed

theorem refl (m : Market) : m.Framed m := ⟨.refl m, id⟩

theorem trans (h : m.Framed m') (h' : m'.Framed m'') : m.Framed m'' :=
  ⟨h.terms.trans h'.terms, fun hp => h'.priced (h.priced hp)⟩

/-- Orders come and go. -/
theorem of_orders {rcs : Heap Order} {orders : Std.TreeMap ℕ OrderRc}
    {users : Std.TreeMap Uuid (Std.TreeMap ℕ OrderRc)} {asks : Std.TreeMap MarketKeyAsk OrderRc}
    {bids : Std.TreeMap MarketKeyBid OrderRc} :
    m.Framed { m with rcs, orders, users, asks, bids } :=
  ⟨⟨rfl, rfl, rfl, rfl, rfl, rfl, rfl, rfl, rfl, rfl, rfl⟩, id⟩

/-- A trade is counted, so it may set the price. -/
theorem of_trade (rc : OrderRc) (o : Order) (price : Decimal) :
    m.Framed (m.afterTrade rc o price) := by
  refine ⟨⟨rfl, rfl, rfl, rfl, rfl, rfl, rfl, rfl, rfl, rfl, rfl⟩, fun _ hzero => ?_⟩
  have hcount : m.tradeCount + 1 = 0 := hzero
  omega

end Framed

/-- A market and what it borrows. -/
def PairFramed (a b : Market × Ctx) : Prop := a.1.Framed b.1 ∧ a.2.Framed b.2

theorem PairFramed.trans {a b d : Market × Ctx} (h : PairFramed a b)
    (h' : PairFramed b d) : PairFramed a d :=
  ⟨h.1.trans h'.1, h.2.trans h'.2⟩

variable {ql amount : Decimal} {rc : OrderRc} {s s' : MatchState}

theorem executeTrade_framed (h : executeTrade E now ql rc amount s = .ok s') :
    PairFramed (s.market, s.ctx) (s'.market, s'.ctx) := by
  unfold executeTrade at h
  simp only [bind_ok] at h
  obtain ⟨_, -, _, -, _, -, _, -, _, -, _, -, y, hsettle, h⟩ := h
  have hframed := settle_framed hsettle
  rw [pure_ok] at h
  subst h
  exact ⟨.of_trade _ _ _, hframed.balances, hframed.capacity⟩

theorem loop_framed {rcs : List OrderRc} (h : forBreak (matchMaker E now ql) rcs s = .ok s') :
    PairFramed (s.market, s.ctx) (s'.market, s'.ctx) := by
  refine forBreak_rule (P := fun _ t => PairFramed (s.market, s.ctx) (t.market, t.ctx))
    (Q := fun t => PairFramed (s.market, s.ctx) (t.market, t.ctx)) (fun _ ht => ht) ?_ ?_ _ _ _
    ⟨.refl _, .refl _⟩ h
  · intro rc _ t t' ht hround
    rcases matchMaker_cases hround with ⟨b, hd, -⟩ | ⟨amount, t₁, hy, -, htrade⟩
    · cases hd
    · obtain rfl : t' = t₁ := ForInStep.yield.inj hy
      exact ht.trans (executeTrade_framed htrade)
  · intro rc _ t t' ht hround
    rcases matchMaker_cases hround with ⟨b, hd, -⟩ | ⟨amount, t₁, hy, -, -⟩
    · obtain rfl := ForInStep.done.inj hd
      exact ht
    · cases hy

theorem unfrozenBalance_framed (h : m.unfrozenBalance E bm o = .ok bm') : bm.Framed bm' := by
  unfold unfrozenBalance at h
  obtain ⟨-, -, h⟩ := bind_ok.1 h
  split at h
  · rw [pure_ok] at h
    exact h ▸ .refl bm
  · exact BalanceManager.unfrozen_framed h

theorem orderFinish_framed (h : m.orderFinish E x o = .ok (m', x')) :
    PairFramed (m, x) (m', x') := by
  obtain ⟨rfl, bm, hbm, rfl⟩ := orderFinish_ok h
  exact ⟨.of_orders, unfrozenBalance_framed hbm, rfl⟩

theorem finish_framed {items : List Order} {a a' : Market × Ctx}
    (h : items.foldlM (fun (mx : Market × Ctx) item => mx.1.orderFinish E mx.2 item) a = .ok a') :
    PairFramed a a' :=
  foldlM_rule (P := fun _ b => PairFramed a b)
    (fun _ _ b _ hb hone => hb.trans (orderFinish_framed (m := b.1) (x := b.2) hone)) _ _ _
    ⟨.refl _, .refl _⟩ h

theorem insertOrder_framed (h : m.insertOrderIntoOrderbook E o = .ok (o', m')) : m.Framed m' := by
  obtain ⟨-, -, rfl⟩ := insertOrder_iff.1 h
  exact .of_orders

theorem endOrder_framed (h : endOrder E s m x = .ok (o, m', x')) : PairFramed (m, x) (m', x') := by
  have hclosed : ∀ {o m' x'},
      (pure (s.taker, m, ({ x with persistor := x.persistor.putOrder s.taker .finish } : Ctx)) :
      Except Panic (Order × Market × Ctx)) = .ok (o, m', x') → PairFramed (m, x) (m', x') := by
    intro o m' x' he
    simp only [pure_ok, Prod.mk.injEq] at he
    obtain ⟨-, rfl, rfl⟩ := he
    exact ⟨.refl _, .refl _, rfl⟩
  unfold endOrder at h
  split at h
  · exact hclosed h
  split at h
  · exact hclosed h
  split at h
  · exact hclosed h
  simp only [bind_ok, pure_ok, Prod.mk.injEq] at h
  obtain ⟨⟨o₁, m₁⟩, hinsert, bm, hfreeze, -, rfl, rfl⟩ := h
  exact ⟨insertOrder_framed hinsert, BalanceManager.frozen_framed hfreeze, rfl⟩

theorem executeOrder_framed (h : m.executeOrder E now x o ql = .ok (o', m', x')) :
    PairFramed (m, x) (m', x') := by
  rw [executeOrder_eq] at h
  obtain ⟨s, hloop, h⟩ := bind_ok.1 h
  obtain ⟨mx, hfinish, h⟩ := bind_ok.1 h
  have hloop := loop_framed hloop
  have hput : PairFramed (m, x) (s.market, s.ctx) := ⟨hloop.1, hloop.2.balances, hloop.2.capacity⟩
  exact (hput.trans (finish_framed hfinish)).trans (endOrder_framed h)

theorem putOrder_framed {input : OrderInput} {res : Except String Order}
    (h : m.putOrder E now x input u = .ok (res, m', x')) : PairFramed (m, x) (m', x') := by
  unfold putOrder at h
  split at h
  · simp only [pure_ok, Prod.mk.injEq] at h
    obtain ⟨-, rfl, rfl⟩ := h
    exact ⟨.refl _, .refl _⟩
  · simp only [bind_ok, pure_ok, Prod.mk.injEq] at h
    obtain ⟨ql, -, ⟨o, m₁, x₁⟩, hexec, -, rfl, rfl⟩ := h
    have hframed := executeOrder_framed hexec
    exact ⟨hframed.1, hframed.2.balances, hframed.2.capacity⟩

theorem cancel_framed {id : ℕ} (h : m.cancel E x id = .ok (o, m', x')) :
    PairFramed (m, x) (m', x') := by
  simp only [cancel, bind_ok, pure_ok, Prod.mk.injEq] at h
  obtain ⟨p, -, ⟨m₁, x₁⟩, hfinish, -, rfl, rfl⟩ := h
  exact orderFinish_framed hfinish

theorem cancelAllForUser_framed {n : ℕ} (h : m.cancelAllForUser E x u = .ok (n, m', x')) :
    PairFramed (m, x) (m', x') := by
  simp only [cancelAllForUser, bind_ok, pure_ok, Prod.mk.injEq] at h
  obtain ⟨mx, hloop, -, rfl, rfl⟩ := h
  refine foldlM_rule (P := fun _ b => PairFramed (m, x) b) (fun id _ b b' hb hone => ?_) _ _ _
    ⟨.refl _, .refl _⟩ hloop
  obtain ⟨p, -, hfinish⟩ := bind_ok.1 hone
  exact hb.trans (orderFinish_framed (m := b.1) (x := b.2) hfinish)

end Market

/-! ## The operations -/

/-- A method of a market has returned. -/
inductive Market.Method (E : Env) (m : Market) (x : Ctx) (m' : Market) (x' : Ctx) : Prop
  | put {now : Timestamp} {u : Uuid} {input : OrderInput} {res : Except String Order} :
      m.putOrder E now x input u = .ok (res, m', x') → Method E m x m' x'
  | cancel {id : ℕ} {o : Order} : m.cancel E x id = .ok (o, m', x') → Method E m x m' x'
  | cancelAll {u : Uuid} {n : ℕ} : m.cancelAllForUser E x u = .ok (n, m', x') → Method E m x m' x'

theorem Market.Method.framed (h : m.Method E x m' x') : Market.PairFramed (m, x) (m', x') := by
  cases h with
  | put h => exact Market.putOrder_framed h
  | cancel h => exact Market.cancel_framed h
  | cancelAll h => exact Market.cancelAllForUser_framed h

/-- `c'` is `c` but for the counters and the log. -/
structure Controller.Alike (c c' : Controller) : Prop where
  settings : c'.settings = c.settings
  names : c'.assetMarketNames = c.assetMarketNames
  balances : c'.balanceManager = c.balanceManager
  filter : c'.updateController = c.updateController
  messages : c'.persistor = c.persistor
  markets : ∀ name, c'.markets.find? name = c.markets.find? name

/-- **What a relation needs to hold across every call**: it goes along with an update that is
applied, with a method of a market, and with what neither of them touches. -/
structure CallRules (E : Env) (R : Controller → Controller → Prop) : Prop where
  trans : ∀ {c c' c''}, R c c' → R c' c'' → R c c''
  alike : ∀ {c c'}, c.Alike c' → R c c'
  update : ∀ {c now real p x}, Applied E now (c.ctx real) p x → R c (c.withCtx x)
  method : ∀ {c name m real m' x}, c.markets.find? name = some m → m.Method E (c.ctx real) m' x →
    R c (c.withMarket name m' x)

namespace CallRules

variable {R : Controller → Controller → Prop}

theorem refl (hR : CallRules E R) (c : Controller) : R c c :=
  hR.alike ⟨rfl, rfl, rfl, rfl, rfl, fun _ => rfl⟩

theorem logged (hR : CallRules E R) (h : R c c') (op : Operation) :
    R c (c'.logged now real op u) := by
  refine hR.trans h (hR.alike ?_)
  unfold Controller.logged
  split <;> exact ⟨rfl, rfl, rfl, rfl, rfl, fun _ => rfl⟩

theorem putOrder (hR : CallRules E R) {req : OrderPutRequest} {res : Except Status Order}
    (h : c.putOrder E now real req u = .ok (res, c')) : R c c' := by
  rcases Controller.putOrder_cases h with ⟨-, rfl | ⟨m, hm, rfl⟩⟩ |
    ⟨o, m, input, m', x', -, hm, -, hput, rfl⟩
  · exact hR.refl _
  · exact hR.alike ⟨rfl, rfl, rfl, rfl, rfl, Controller.find?_rewritten hm⟩
  · exact hR.method hm (.put hput)

theorem cancelAllIn (hR : CallRules E R) {name : String} {n : ℕ}
    (hm : c.markets.find? name = some m)
    (h : c.cancelAllIn E real name m u = .ok (n, c')) : R c c' := by
  simp only [Controller.cancelAllIn, bind_ok, pure_ok, Prod.mk.injEq] at h
  obtain ⟨⟨k, m₁, x₁⟩, hcancel, -, rfl⟩ := h
  exact hR.method hm (.cancelAll hcancel)

theorem batchReset (hR : CallRules E R) {name : String} {orders : List OrderPutRequest}
    {res : Except Status Unit}
    (h : c.batchReset E real name u orders = .ok (res, c')) : R c c' := by
  induction orders generalizing c with
  | nil =>
    simp only [Controller.batchReset, Except.ok.injEq, Prod.mk.injEq] at h
    exact h.2 ▸ hR.refl c
  | cons o orders ih =>
    unfold Controller.batchReset at h
    split at h
    · simp only [pure_ok, Prod.mk.injEq] at h
      exact h.2 ▸ hR.refl c
    · obtain ⟨m, hm, h⟩ := bind_ok.1 h
      obtain ⟨⟨n, c₁⟩, hcancel, h⟩ := bind_ok.1 h
      exact hR.trans (hR.cancelAllIn (unwrap_ok.1 hm) hcancel) (ih h)

theorem batchPut (hR : CallRules E R) {name : String} {orders : List OrderPutRequest} {ids : List ℕ}
    {res : Except Status BatchOrderPutResponse}
    (h : c.batchPut E now real name u orders ids = .ok (res, c')) : R c c' := by
  induction orders generalizing c ids with
  | nil =>
    simp only [Controller.batchPut, Except.ok.injEq, Prod.mk.injEq] at h
    exact h.2 ▸ hR.refl c
  | cons o orders ih =>
    unfold Controller.batchPut at h
    split at h
    · simp only [pure_ok, Prod.mk.injEq] at h
      exact h.2 ▸ hR.refl c
    · obtain ⟨⟨res₁, c₁⟩, hput, h⟩ := bind_ok.1 h
      have hone := hR.putOrder hput
      cases res₁ with
      | error st =>
        simp only [pure_ok, Prod.mk.injEq] at h
        exact h.2 ▸ hone
      | ok order => exact hR.trans hone (ih h)

theorem batchOrderPut (hR : CallRules E R) {available : Bool} {req : BatchOrderPutRequest}
    {reply : Except Status Response}
    (h : c.batchOrderPut E now available real req u = .ok (reply, c')) : R c c' := by
  unfold Controller.batchOrderPut at h
  split at h
  · simp only [pure_ok, Prod.mk.injEq] at h
    exact h.2 ▸ hR.refl c
  split at h
  · simp only [pure_ok, Prod.mk.injEq] at h
    exact h.2 ▸ hR.refl c
  obtain ⟨⟨res, c₁⟩, hstart, h⟩ := bind_ok.1 h
  have hfirst : R c c₁ := by
    unfold Controller.batchStart at hstart
    split at hstart
    · exact hR.batchReset hstart
    · simp only [Except.ok.injEq, Prod.mk.injEq] at hstart
      exact hstart.2 ▸ hR.refl c
  cases res with
  | error st =>
    simp only [pure_ok, Prod.mk.injEq] at h
    exact h.2 ▸ hfirst
  | ok _ =>
    obtain ⟨⟨res, c₂⟩, hloop, h⟩ := bind_ok.1 h
    have hboth := hR.trans hfirst (hR.batchPut hloop)
    cases res with
    | error st =>
      simp only [pure_ok, Prod.mk.injEq] at h
      exact h.2 ▸ hboth
    | ok response =>
      simp only [pure_ok, Prod.mk.injEq] at h
      exact h.2 ▸ hR.logged hboth _

theorem orderPut (hR : CallRules E R) {available : Bool} {req : OrderPutRequest}
    {reply : Except Status Response}
    (h : c.orderPut E now available real req u = .ok (reply, c')) : R c c' := by
  unfold Controller.orderPut at h
  split at h
  · simp only [pure_ok, Prod.mk.injEq] at h
    exact h.2 ▸ hR.refl c
  obtain ⟨⟨res, c₁⟩, hput, h⟩ := bind_ok.1 h
  have hone := hR.putOrder hput
  cases res with
  | error st =>
    simp only [pure_ok, Prod.mk.injEq] at h
    exact h.2 ▸ hone
  | ok order =>
    simp only [pure_ok, Prod.mk.injEq] at h
    exact h.2 ▸ hR.logged hone _

/-- **The relation holds across every call**, in any state and whatever the reply. -/
theorem call (hR : CallRules E R) {q : Request} {reply : Except Status Response}
    (h : c.call E q = .ok (reply, c')) : R c c' := by
  obtain ⟨now, available, real, user, op⟩ := q
  cases op with
  | balanceUpdate req =>
    rcases Controller.updateBalance_cases h with ⟨-, rfl⟩ |
      ⟨-, prec, price, change, detail, x', -, -, -, happ, rfl⟩
    · exact hR.refl _
    · exact hR.logged (hR.update happ) _
  | orderPut req => exact hR.orderPut h
  | batchOrderPut req => exact hR.batchOrderPut h
  | orderCancel req =>
    rcases orderCancel_cases h with ⟨-, rfl⟩ | ⟨m, rc, o, m', x', hm, -, -, hcancel, -, rfl⟩
    · exact hR.refl _
    · exact hR.logged (hR.method hm (.cancel hcancel)) _
  | orderCancelAll req =>
    rcases orderCancelAll_cases h with ⟨-, rfl⟩ | ⟨m, n, c₁, hm, hcancel, -, rfl⟩
    · exact hR.refl _
    · exact hR.logged (hR.cancelAllIn hm hcancel) _

end CallRules

namespace Controller

theorem Framed.refl (c : Controller) : c.Framed c := by
  refine ⟨rfl, rfl, .refl _, fun name => ?_⟩
  cases c.markets.find? name with
  | none => exact .none
  | some m => exact .some (.refl m)

theorem Framed.trans (h : c.Framed c') (h' : c'.Framed c'') : c.Framed c'' := by
  refine ⟨h'.settings.trans h.settings, h'.names.trans h.names, h.ctx.trans h'.ctx, fun name => ?_⟩
  have hrel := h.markets name
  have hrel' := h'.markets name
  generalize c.markets.find? name = a at hrel
  generalize c'.markets.find? name = a' at hrel hrel'
  generalize c''.markets.find? name = a'' at hrel'
  cases hrel with
  | none => exact hrel'
  | some hm =>
    cases hrel' with
    | some hm' => exact .some (hm.trans hm')

theorem Alike.framed (h : c.Alike c') : c.Framed c' := by
  refine ⟨h.settings, h.names, ⟨?_, ?_⟩, fun name => h.markets name ▸ (Framed.refl c).markets name⟩
  · show c.balanceManager.Framed c'.balanceManager
    rw [h.balances]
    exact .refl _
  · show c'.updateController.cache.capacity = c.updateController.cache.capacity
    rw [h.filter]

theorem framed_rules : CallRules E Framed where
  trans := Framed.trans
  alike := Alike.framed
  update := fun {c now real p x} happ => by
    refine ⟨rfl, rfl, ⟨applyChange_framed happ.change, ?_⟩, (Framed.refl c).markets⟩
    show x.updateController.cache.capacity = c.updateController.cache.capacity
    rw [happ.cache]
    rfl
  method := fun {c name m real m' x} hm hmethod => by
    have hframed := hmethod.framed
    refine ⟨rfl, rfl, ⟨hframed.2.balances, hframed.2.capacity⟩, fun other => ?_⟩
    rw [find?_withMarket]
    by_cases hn : other = name
    · rw [if_pos hn, hn, hm]
      exact .some hframed.1
    · rw [if_neg hn]
      exact (Framed.refl c).markets other

/-- **A call leaves the frame alone**, whatever its reply. -/
theorem call_framed {q : Request} {reply : Except Status Response}
    (h : c.call E q = .ok (reply, c')) : c.Framed c' :=
  framed_rules.call h

/-! ## Reset and recovery -/

theorem resetState_framed (c : Controller) : c.Framed c.resetState := by
  refine ⟨rfl, rfl, ⟨⟨rfl, fun _ => known_empty _⟩, rfl⟩, fun name => ?_⟩
  rw [show c.resetState.markets.find? name =
    (c.markets.find? name).map Market.reset from find?_mapValues _ _ _]
  cases c.markets.find? name with
  | none => exact .none
  | some m => exact .some ⟨⟨rfl, rfl, rfl, rfl, rfl, rfl, rfl, rfl, rfl, rfl, rfl⟩, id⟩

theorem loadBalance_framed {row : BalanceSlice}
    (h : loadBalance E bm row = .ok bm') : bm.Framed bm' :=
  BalanceManager.setByKey_framed h

theorem loadOrder_framed {row : OrderSlice} {markets markets' : HashMap String Market}
    (h : loadOrder E markets row = .ok markets') (name : String) :
    Option.Rel Market.Framed (markets.find? name) (markets'.find? name) := by
  simp only [loadOrder, bind_ok, pure_ok, unwrap_ok] at h
  obtain ⟨m, hm, ⟨o, m₁⟩, hinsert, rfl⟩ := h
  rw [find?_insert]
  by_cases hn : name = row.market
  · rw [if_pos hn, hn, hm]
    exact .some (Market.insertOrder_framed hinsert)
  · rw [if_neg hn]
    cases markets.find? name with
    | none => exact .none
    | some m => exact .some (.refl m)

theorem loadSlice_framed {slice : Slice} (h : c.loadSlice E slice = .ok c') : c.Framed c' := by
  simp only [loadSlice, bind_ok, pure_ok] at h
  obtain ⟨bm, hbm, markets, hmarkets, rfl⟩ := h
  have hbalances : c.balanceManager.Framed bm :=
    foldlM_rule (P := fun _ b => c.balanceManager.Framed b)
    (fun row _ b b' hb hone => hb.trans (loadBalance_framed hone)) _ _ _ (.refl _) hbm
  -- the markets row by row, each row through the controller they would make
  have horders : c.Framed { c with markets } :=
    foldlM_rule (P := fun _ ms => c.Framed { c with markets := ms })
    (fun row _ ms ms' hms hone => hms.trans ⟨rfl, rfl, .refl _, loadOrder_framed hone⟩) _ _ _
    (.refl _) hmarkets
  exact ⟨rfl, rfl, ⟨hbalances, rfl⟩, horders.markets⟩

theorem loadOperationLog_framed {log : List OperationLog} {start : ℕ}
    (h : c.loadOperationLog E now log start = .ok c') : c.Framed c' :=
  loadOperationLog_rule (P := c.Framed) (fun _ _ _ _ hd hcall => hd.trans (call_framed hcall))
    (fun _ _ hd => hd.trans (Alike.framed ⟨rfl, rfl, rfl, rfl, rfl, fun _ => rfl⟩)) (.refl c) h

/-- **A recovery leaves the frame alone**, whatever the database holds. -/
theorem initFromDb_framed {slice : Option Slice} {log : List OperationLog}
    (h : c.initFromDb E now slice log = .ok c') : c.Framed c' := by
  cases slice with
  | none => exact loadOperationLog_framed h
  | some slice =>
    simp only [initFromDb, bind_ok] at h
    obtain ⟨c₁, hslice, h⟩ := h
    have hcounters : c₁.Framed (c₁.withCounters slice.history) :=
      Alike.framed ⟨rfl, rfl, rfl, rfl, rfl, fun _ => rfl⟩
    exact ((loadSlice_framed hslice).trans hcounters).trans (loadOperationLog_framed h)

end Controller

end Dingir
