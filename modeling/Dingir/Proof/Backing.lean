import Dingir.Spec.Sample
import Dingir.Proof.Reach

/-!
# Frozen funds are the funds that back resting orders

The `FREEZE` balance of a user in an asset is the sum of what the resting orders
of that user freeze in it, over all markets (`Backing`). The two move together:
the difference between them does not change in any step (`Step.excess`), and is
zero in a fresh controller and after a restart. **`Reachable.backing`**.
-/

namespace Dingir

open Keyed Posting Outcome Market

/-- What an order freezes of an asset of a user. -/
def Order.frozenOf (o : Order) (m : Market) (u : Uuid) (a : String) : Decimal :=
  if o.user = u ∧ (if o.side = .ask then m.base else m.quote) = a then o.frozen else 0

/-- What the resting orders of a market freeze of an asset of a user. -/
def Market.frozenOf (m : Market) (u : Uuid) (a : String) : Decimal :=
  tally (fun _ rc => (m.rcs.read rc).frozenOf m u a) m.orders

/-- The same over all markets. -/
def Controller.frozenOf (c : Controller) (u : Uuid) (a : String) : Decimal :=
  hashTally (fun _ m => m.frozenOf u a) c.markets

/-- Every `FREEZE` balance is what the resting orders freeze. -/
def Controller.Backing (c : Controller) : Prop :=
  ∀ u a, c.balanceManager.get u .freeze a = c.frozenOf u a

variable {E : Env} {settings : Settings} {now : Timestamp} {real : Bool} {w : Prop} {user u : Uuid}
  {a : String} {m m' : Market} {o : Order} {d d' : Desk} {c c' b : Controller}
  {A : Market → Ctx → OrderInput → Prop}

/-! ## One market -/

/-- The sum of `f` over the orders of a market. -/
def Market.sumOf (f : Order → Decimal) (m : Market) : Decimal :=
  tally (fun _ rc => f (m.rcs.read rc)) m.orders

/-- The order at `id` in the sum over a market. -/
def Market.sumAt (f : Order → Decimal) (m : Market) (id : ℕ) : Decimal :=
  ((m.resting id).map f).getD 0

theorem sumOf_eq (f : Order → Decimal) (m : Market) (id : ℕ) :
    m.sumOf f = m.sumAt f id + tally (fun _ rc => f (m.rcs.read rc)) (m.orders.erase id) := by
  unfold Market.sumOf Market.sumAt resting
  cases h : m.orders[id]? with
  | none => simp [tally_of_perm (erase_eq_of_none h)]
  | some rc => simpa using tally_erase h

/-- When one order changes, the sum changes by that order. -/
theorem sumOf_change (f : Order → Decimal) (id : ℕ) (h : ∀ j, j ≠ id → m'.resting j = m.resting j) :
    m'.sumOf f - m.sumOf f = m'.sumAt f id - m.sumAt f id := by
  rw [sumOf_eq f m' id, sumOf_eq f m id]
  have hrest : tally (fun _ rc => f (m'.rcs.read rc)) (m'.orders.erase id) =
      tally (fun _ rc => f (m.rcs.read rc)) (m.orders.erase id) := by
    refine tally_eq_of_map fun j => ?_
    rw [getElem?_erase, getElem?_erase]
    split
    · rfl
    · rename_i hne
      have hj := congrArg (Option.map f) (h j (Ne.symm hne))
      unfold resting at hj
      simpa [Option.map_map, Function.comp_def] using hj
  rw [hrest]
  ring

/-- The order at `id` in the frozen sum. -/
def Market.frozenAt (m : Market) (id : ℕ) (u : Uuid) (a : String) : Decimal :=
  ((m.resting id).map fun o => o.frozenOf m u a).getD 0

theorem frozenOf_eq (m : Market) (id : ℕ) (u : Uuid) (a : String) : m.frozenOf u a =
    m.frozenAt id u a + tally (fun _ rc => (m.rcs.read rc).frozenOf m u a) (m.orders.erase id) :=
  sumOf_eq (fun o => o.frozenOf m u a) m id

theorem frozenOf_change (hterms : m.SameTerms m') (id : ℕ)
    (h : ∀ j, j ≠ id → m'.resting j = m.resting j) :
    m'.frozenOf u a - m.frozenOf u a = m'.frozenAt id u a - m.frozenAt id u a := by
  have hsame : ∀ o : Order, o.frozenOf m' u a = o.frozenOf m u a := by
    intro o
    simp [Order.frozenOf, hterms.base, hterms.quote]
  have hchange := sumOf_change (fun o => o.frozenOf m u a) id h
  unfold Market.frozenOf Market.frozenAt
  simp only [hsame]
  exact hchange

/-- Markets with the same resting orders freeze the same. -/
theorem frozenOf_congr (hterms : m.SameTerms m') (h : ∀ id, m'.resting id = m.resting id) :
    m'.frozenOf u a = m.frozenOf u a := by
  have hchange := frozenOf_change (u := u) (a := a) hterms 0 fun j _ => h j
  rw [← sub_eq_zero, hchange, Market.frozenAt, Market.frozenAt, h]
  simp [Order.frozenOf, hterms.base, hterms.quote]

theorem NoOrders.frozenOf (h : m.NoOrders) : m.frozenOf u a = 0 := by
  unfold Market.frozenOf
  rw [h.orders]; rfl

/-- What an order freezes is posted to the account that backs it. -/
theorem Order.frozenOf_eq (o : Order) (m : Market) (u : Uuid) (a : String) :
    o.frozenOf m u a = if m.backAccount o = ⟨u, .freeze, a⟩ then o.frozen else 0 := by
  simp [Order.frozenOf, Market.backAccount, Market.payAsset, Order.isAsk]

/-! ## The steps -/

/-- A backed order with nothing left froze for nothing. -/
theorem Order.Backed.frozen_zero (h : o.Backed m) (hz : o.remain = 0) : o.frozen = 0 := by
  rw [h.frozen]
  simp [Order.restFrozen, hz]

/-- The part of a `FREEZE` balance that the resting orders of a market do not explain. -/
def Desk.excess (d : Desk) (u : Uuid) (a : String) : Decimal :=
  d.ctx.balanceManager.getByKey ⟨u, .freeze, a⟩ - d.market.frozenOf u a

/-- Where the balances and the orders change by the same amount, nothing else is left. -/
theorem excess_eq
    (hb : d'.ctx.balanceManager.getByKey ⟨u, .freeze, a⟩ - d.ctx.balanceManager.getByKey ⟨u,
      .freeze, a⟩ = d'.market.frozenOf u a - d.market.frozenOf u a) :
    d'.excess u a = d.excess u a := by
  unfold Desk.excess
  linarith

/-- The maker's side of a trade is paid from what the maker froze. -/
theorem Trades.freeze {x x' : Ctx} {k : Taking} {rc : OrderRc} {t : Trade} (hmeet : Meets m k rc)
    (ht : Trades now m x k rc t m' x') :
    x'.balanceManager.getByKey ⟨u, .freeze, a⟩ - x.balanceManager.getByKey ⟨u, .freeze, a⟩ =
      (filledMaker now k.order.isAsk (m.rcs.read rc) t).frozenOf m u a -
        (m.rcs.read rc).frozenOf m u a := by
  rw [ht.posted.balance, add_sub_cancel_left]
  rcases hmeet.sides with ⟨hk, hs⟩ | ⟨hk, hs⟩
  · have huser : t.bidUserId = (m.rcs.read rc).user := by rw [ht.bidUser]; simp [bidOf, hk]
    by_cases hu : (m.rcs.read rc).user = u <;> by_cases ha : m.quote = a <;>
      simp [Trade.postings, Order.frozenOf, filledMaker, releaseOrder, fillOrder, Order.touched, hk,
        hs, huser, hu, ha]
  · have huser : t.askUserId = (m.rcs.read rc).user := by rw [ht.askUser]; simp [askOf, hk]
    by_cases hu : (m.rcs.read rc).user = u <;> by_cases ha : m.base = a <;>
      simp [Trade.postings, Order.frozenOf, filledMaker, releaseOrder, fillOrder, Order.touched, hk,
        hs, huser, hu, ha]

/-- **In every step `FREEZE` and the resting orders move together.** -/
theorem Step.excess (h : Step E now user A d d') (hd : DeskOK d) :
    d'.excess u a = d.excess u a := by
  have hterms := h.sameTerms
  cases h with
  | accept _ _ _ => rfl
  | close _ => rfl
  | @trade m m' x x' k rc t hmeet ht =>
    refine excess_eq ((ht.freeze hmeet).trans ?_)
    have hrest := ht.resting hmeet hd.index
    have hbase : m'.base = m.base := hterms.base
    have hquote : m'.quote = m.quote := hterms.quote
    rw [frozenOf_change hterms (m.rcs.read rc).id fun j hj => by rw [hrest, if_neg hj.symm]]
    simp [Market.frozenAt, hrest, hmeet.resting, Order.frozenOf, hbase, hquote]
  | @finish m x k rc hrc hz =>
    have ho : m.resting (m.rcs.read rc).id = some (m.rcs.read rc) := resting_some.2 ⟨rc, hrc, rfl⟩
    have hzero := (hd.backed _ _ ho).frozen_zero hz
    refine excess_eq ?_
    rw [frozenOf_change hterms (m.rcs.read rc).id fun j hj => by rw [resting_without,
      if_neg hj.symm]]
    simp [Market.frozenAt, resting_without, ho, Order.frozenOf, hzero]
  | @rest m x k bm hq hlim hopen hfreeze _ =>
    have hk := hd.taking k rfl
    have hp := frozenBalance_posted hd.gridded hd.prec hk.fits hfreeze
    have hrest := resting_withRest (o := k.order.rested) hd.index
    have hnone : m.resting k.order.id = none := by
      cases hr : m.resting k.order.id with
      | none => rfl
      | some o => exact absurd (hk.fresh _ _ hr) (by rw [hk.id]; exact lt_irrefl _)
    refine excess_eq ?_
    rw [frozenOf_change hterms k.order.id fun j hj => by
      rw [hrest, if_neg (show k.order.rested.id ≠ j from Ne.symm hj)]]
    rw [hp.balance, add_sub_cancel_left]
    have hid : k.order.rested.id = k.order.id := rfl
    simp only [Market.frozenAt, hrest, hid, if_true, hnone, Option.map_some, Option.map_none,
      Option.getD_some,
      Option.getD_none, sub_zero, Order.frozenOf_eq, amountIn_cons, amountIn_nil, add_zero]
    rw [if_neg (by simp [Market.payAccount]), zero_add]
    rfl
  | @cancel m x rc bm hrc hu hfree =>
    have ho : m.resting (m.rcs.read rc).id = some (m.rcs.read rc) := resting_some.2 ⟨rc, hrc, rfl⟩
    have hback := hd.backed _ _ ho
    have hp := unfrozenBalance_posted hd.gridded hd.prec hback hfree
    refine excess_eq ?_
    rw [frozenOf_change hterms (m.rcs.read rc).id fun j hj => by rw [resting_without,
      if_neg hj.symm]]
    rw [hp.balance, add_sub_cancel_left]
    simp only [Market.frozenAt, resting_without, if_true, ho, Option.map_some, Option.map_none,
      Option.getD_some,
      Option.getD_none, zero_sub, Order.frozenOf_eq, amountIn_cons, amountIn_nil, add_zero,
      hback.frozen]
    rw [if_neg (by simp [Market.payAccount]), zero_add]
    split <;> simp

theorem Steps.excess (h : Steps E now user A d d') (hd : DeskOK d) : d'.excess u a = d.excess u a :=
  Steps.rule (P := fun e => e.excess u a = d.excess u a)
    (fun _ _ he hP hstep => (hstep.excess he).trans hP) h hd rfl

/-! ## The controller -/

/-- Replacing a market changes the sum by that market. -/
theorem frozenOf_withMarket {name : String} {x : Ctx} (hm : c.markets.find? name = some m) :
    (c.withMarket name m' x).frozenOf u a = c.frozenOf u a +
      (m'.frozenOf u a - m.frozenOf u a) := by
  unfold Controller.frozenOf Controller.withMarket
  rw [hashTally_insert_sub, hm]
  rfl

theorem Moves.backed (h : Moves E now real user w A c c') (hc : ControllerOK b c)
    (hb : c.Backing) : c'.Backing := by
  induction h with
  | refl => exact hb
  | @tail c₁ _ hmoves hmove ih =>
    have hc₁ := Moves.ok hmoves hc
    intro u a
    cases hmove with
    | @market name m m' x' hm hsteps =>
      have hexcess := hsteps.excess (u := u) (a := a) ((hc₁.desk _ _ hm).2 real)
      have hold : c₁.balanceManager.getByKey ⟨u, .freeze, a⟩ = c₁.frozenOf u a := ih u a
      rw [frozenOf_withMarket hm, ← hold]
      unfold Desk.excess at hexcess
      have hx : (c₁.withMarket name m' x').balanceManager.get u .freeze a =
          x'.balanceManager.getByKey ⟨u, .freeze, a⟩ := rfl
      rw [hx]
      have hctx : (c₁.ctx real).balanceManager.getByKey ⟨u, .freeze, a⟩ =
          c₁.balanceManager.getByKey ⟨u, .freeze, a⟩ := rfl
      rw [hctx] at hexcess
      simp only at hexcess
      linarith
    | @update p x' _ _ hp _ ha =>
      obtain ⟨d, hd⟩ := applyChange_ok hc₁.gridded ha.change
      have hsame : x'.balanceManager.getByKey ⟨u, .freeze, a⟩ =
          c₁.balanceManager.getByKey ⟨u, .freeze, a⟩ := by
        rw [hd.posted.balance, amountIn_cons, if_neg (by simp [BalanceUpdateParams.account, hp]),
          amountIn_nil, add_zero,
          add_zero]
      exact hsame.trans (ih u a)

theorem call_backing {q : Request} {reply : Except Status Response} (hc : ControllerOK b c)
    (hb : c.Backing) (h : c.call E q = .ok (reply, c')) : c'.Backing := by
  obtain ⟨c₁, hmoves, hends⟩ := call_moves hc h
  have hb₁ := hmoves.backed hc hb
  cases hends with
  | refused => exact hb₁
  | logged =>
    obtain ⟨s, l, hl, -, -⟩ := logged_eq c₁ q.now q.real q.operation q.user
    rw [hl]
    exact hb₁

theorem Blank.backed (h : c.Blank) : c.Backing := by
  intro u a
  have hzero : c.frozenOf u a = hashTally (fun _ _ => (0 : Decimal)) c.markets :=
    hashTally_congr fun name m hm => NoOrders.frozenOf (h.markets name m hm)
  have hsum : hashTally (fun _ _ => (0 : Decimal)) c.markets = 0 := by simp [hashTally]
  rw [hzero, hsum]
  exact h.balances _

/-- A loaded slice freezes what the dumped state froze. -/
theorem SameBooks.backed (h : SameBooks c c') (hb : c.Backing) : c'.Backing := by
  intro u a
  have hsum : c'.frozenOf u a = c.frozenOf u a := by
    refine hashTally_eq_of_map fun name => ?_
    cases hm : c.markets.find? name with
    | none =>
      cases hm' : c'.markets.find? name with
      | none => rfl
      | some m' => simpa [hm] using h.only name m' hm'
    | some m =>
      obtain ⟨m', hm', hterms, -, hrest⟩ := h.markets name m hm
      rw [hm']
      exact congrArg some (frozenOf_congr hterms hrest)
  rw [hsum, ← hb u a]
  exact h.balances _

theorem Reachable.frozen (h : Reachable E settings c) : c.Backing := by
  refine Reachable.rule (P := Controller.Backing)
    (fun e he => Blank.backed (createController_ok he).2.1) ?_
    (fun _ _ he => he) (fun b e hok _ => Blank.backed (resetState_ok hok).2) ?_ h
  · exact fun b e q reply e' hok hb hcall => call_backing hok hb hcall
  · exact fun b e d b' c₁ hok hb hb' hblank _ _ hload =>
      (loadSlice_dump hok hb' hblank hload).1.backed hb

/-! ## Finished orders -/

/-- The orders whose end a controller has handed to the persistor. -/
def Controller.finished (c : Controller) : List Order := c.persistor.filterMap Message.finished?

/-- An order that is finished with nothing left to trade has nothing frozen. -/
def ReleasedAtEnd (os : List Order) : Prop := ∀ o ∈ os, o.remain = 0 → o.frozen = 0

/-- The order being put has frozen nothing, and what was finished is released. -/
structure Desk.Released (d : Desk) : Prop where
  finished : ReleasedAtEnd d.ctx.persistor.finished
  taking : ∀ k, d.taking = some k → k.order.frozen = 0

theorem ReleasedAtEnd.putOrder {pe : PersistExector} (h : ReleasedAtEnd pe.finished)
    {e : OrderEventType} (ho : o.remain = 0 → o.frozen = 0) :
    ReleasedAtEnd (pe.putOrder o e).finished := by
  intro p hp hz
  rcases pe.mem_finished_putOrder hp with hp | ⟨-, rfl⟩
  · exact h p hp hz
  · exact ho hz

theorem Step.released (h : Step E now user A d d') (hd : DeskOK d)
    (hr : d.Released) : d'.Released := by
  have hkept : ∀ {k k' : Taking}, d.taking = some k → k'.order.frozen = k.order.frozen →
      ∀ j, some k' = some j → j.order.frozen = 0 := by
    intro k k' hk he j hj
    rw [← Option.some.inj hj]
    exact he.trans (hr.taking k hk)
  have hback : ∀ {rc}, d.market.orders[(d.market.rcs.read rc).id]? = some rc →
      (d.market.rcs.read rc).remain = 0 → (d.market.rcs.read rc).frozen = 0 := fun hrc hz =>
    (hd.backed _ _ (resting_some.2 ⟨_, hrc, rfl⟩)).frozen_zero hz
  cases h with
  | accept _ _ _ =>
    exact ⟨hr.finished.putOrder fun _ => rfl, fun k hk => by rw [← Option.some.inj hk]; rfl⟩
  | trade _ ht => exact ⟨by rw [ht.finished]; exact hr.finished, hkept rfl rfl⟩
  | finish hrc _ => exact ⟨hr.finished.putOrder (hback hrc), hkept rfl rfl⟩
  | close _ => exact ⟨hr.finished.putOrder fun _ => hr.taking _ rfl, by simp⟩
  | rest _ _ _ _ _ => exact ⟨hr.finished, by simp⟩
  | cancel hrc _ _ => exact ⟨hr.finished.putOrder (hback hrc), by simp⟩

theorem Moves.released (h : Moves E now real user w A c c') (hc : ControllerOK b c)
    (hr : ReleasedAtEnd c.finished) : ReleasedAtEnd c'.finished := by
  induction h with
  | refl => exact hr
  | @tail c₁ _ hmoves hmove ih =>
    have hc₁ := Moves.ok hmoves hc
    -- what is put back is what the move left, or nothing for a replay
    have hback : ∀ {x : Ctx}, ReleasedAtEnd x.persistor.finished →
        ReleasedAtEnd (c₁.withCtx x).finished := by
      rintro ⟨s, bm, uc, pe⟩ hx
      cases pe with
      | real ms => exact hx
      | dummy => exact ih
    have hstart : ReleasedAtEnd (c₁.ctx real).persistor.finished := by
      cases real with
      | true => exact ih
      | false => exact fun o ho => by simp [Controller.ctx, PersistExector.finished] at ho
    cases hmove with
    | @market name m m' x' hm hsteps =>
      exact hback (Steps.rule (P := Desk.Released) (fun e e' he hP hstep => hstep.released he hP)
        hsteps ((hc₁.desk _ _ hm).2 real) ⟨hstart, by simp⟩).finished
    | update _ _ _ _ ha =>
      refine hback ?_
      rw [(persistUpdate_trades ha.persistor).2.1]
      exact hstart

theorem call_released {q : Request} {reply : Except Status Response} (hc : ControllerOK b c)
    (hr : ReleasedAtEnd c.finished) (h : c.call E q = .ok (reply, c')) :
    ReleasedAtEnd c'.finished := by
  obtain ⟨c₁, hmoves, hends⟩ := call_moves hc h
  have hr₁ := hmoves.released hc hr
  cases hends with
  | refused => exact hr₁
  | logged =>
    obtain ⟨s, l, hl, -, -⟩ := logged_eq c₁ q.now q.real q.operation q.user
    rw [hl]
    exact hr₁

theorem Reachable.released (h : Reachable E settings c) : ReleasedAtEnd c.finished := by
  refine Reachable.rule (P := fun e => ReleasedAtEnd e.finished) (fun e he => ?_) ?_
    (fun _ _ he => he) (fun _ _ _ he => he) ?_ h
  · exact fun o ho => by simp [Controller.finished, (createController_begun he).persistor] at ho
  · exact fun b e q reply e' hok hr hcall => call_released hok hr hcall
  · intro b e d b' c₁ hok _ hb' hblank _ hr hload
    obtain ⟨-, bm, markets, rfl, -⟩ := loadSlice_dump hok hb' hblank hload
    exact hr

/-! ## Cancelling -/

/-- A cancellation moves what the order froze, and nothing else. -/
theorem orderCancel_releases {available : Bool} {req : OrderCancelRequest} {response : Response}
    (hc : ControllerOK b c)
    (h : c.orderCancel E now available real req user = .ok (.ok response, c')) :
    ∃ m o, c.markets.find? req.market = some m ∧ m.resting req.orderId = some o ∧
      response = .orderInfo o ∧
      Posted c.balanceManager c'.balanceManager [(m.payAccount o, o.frozen),
        (m.backAccount o, -o.frozen)] := by
  rcases orderCancel_cases h with ⟨⟨st, hst⟩, -⟩ |
    ⟨m, rc, o, m', x', hm, hrc, -, hcancel, hreply, rfl⟩
  · simp at hst
  have hd := (hc.desk _ _ hm).2 real
  have ho : m.resting req.orderId = some (m.rcs.read rc) := resting_some.2 ⟨rc, hrc, rfl⟩
  have hback := hd.backed _ _ ho
  simp only [cancel, deep, bind_ok, pure_ok, unwrap_ok, Prod.mk.injEq] at hcancel
  obtain ⟨_, ⟨rc', hrc', rfl⟩, ⟨m₁, x₁⟩, hfin, -, rfl, rfl⟩ := hcancel
  rw [hd.index.ownId _ _ hrc] at hrc'
  obtain rfl := Option.some.inj (hrc.symm.trans hrc')
  obtain ⟨-, bm, hbm, rfl⟩ := orderFinish_ok hfin
  have hp := unfrozenBalance_posted hd.gridded hd.prec hback hbm
  obtain ⟨s, l, hl, -, -⟩ := logged_eq (c.withMarket req.market m₁ { c.ctx real with
    balanceManager := bm,
    persistor := (c.ctx real).persistor.putOrder (m.rcs.read rc) .finish }) now real
    (.orderCancel req) user
  rw [hl]
  rw [← hback.frozen] at hp
  exact ⟨m, m.rcs.read rc, hm, ho, Except.ok.inj hreply, hp⟩

/-- **In every reachable state the frozen funds are those that back resting orders.**
Each resting order freezes what is left of it, an order finished with nothing left
has nothing frozen, and a cancellation moves what its order freezes. -/
theorem Reachable.backing (h : Reachable E settings c) :
    (∀ u a, c.balanceManager.get u .freeze a = c.frozenOf u a) ∧
    (∀ name m id o, c.markets.find? name = some m → m.resting id = some o →
      o.frozen = if o.side = .ask then o.remain else o.remain * o.price) ∧
    (∀ o ∈ c.finished, o.remain = 0 → o.frozen = 0) ∧
    ∀ q req response c', q.operation = .orderCancel req → c.call E q = .ok (.ok response, c') →
      ∃ m o, c.markets.find? req.market = some m ∧ m.resting req.orderId = some o ∧
        response = .orderInfo o ∧
        Posted c.balanceManager c'.balanceManager [(m.payAccount o, o.frozen),
          (m.backAccount o, -o.frozen)] := by
  obtain ⟨b, -, hc⟩ := h.ok
  refine ⟨h.frozen, fun name m id o hm ho => ((hc.desk _ _ hm).2 true |>.backed id o ho).frozen,
    h.released, ?_⟩
  rintro ⟨now, available, real, user, op⟩ req response c' rfl hcall
  exact orderCancel_releases hc hcall

/-- A resting bid, half of it bought. -/
theorem Reachable.backing_partial : ∃ c, Reachable releaseEnv sampleSettings c ∧
    c.balanceManager.get alice .freeze "USDT" = 100 ∧ c.frozenOf alice "USDT" = 100 := by
  have h : (sampleRun releaseEnv [requestAt 0 bob (depositOf "ETH" 1 "10"),
      requestAt 0 alice (depositOf "USDT" 2 "1000"),
      requestAt 1 alice (.orderPut (limitOrder .bid "2" "100")),
      requestAt 2 bob (.orderPut (limitOrder .ask "1" "100"))]
      >>= fun c => pure (c.balanceManager.get alice .freeze "USDT")) = (.ok 100 :
        Except Panic Decimal) := by decide +kernel
  simp only [bind_ok, pure_ok] at h
  obtain ⟨c, hc, hfrozen⟩ := h
  have hreach := sampleRun_reachable hc
  exact ⟨c, hreach, hfrozen, (hreach.backing.1 _ _).symm.trans hfrozen⟩

end Dingir
