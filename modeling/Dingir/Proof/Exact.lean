import Dingir.Proof.Grids
import Dingir.Proof.Rounds
import Dingir.Proof.Slices
import Dingir.Proof.CancelAll

/-!
# The balance manager rounds nothing

The balance manager rounds every amount it takes and every balance it sets. In a market
this changes nothing: balances lie on the grid of their asset, and so does every amount
that trades, resting and cancelling pass to it. Prices and amounts are on the grids that
`Market::new` has checked once against those of the assets, fees and the amounts of
market bids are truncated to them.

- `BalanceManager.Exact`: adding an amount to a balance, and taking it away, rounds nothing.
- `Market.PutExact`: so it is wherever an order that is put comes to, also where a later
  step does not return.
- **`Reachable.amounts_exact`**: in every reachable state.
-/

namespace Dingir

open Keyed Rounding Posting Outcome Market

variable {E : Env} {settings : Settings} {now : Timestamp} {real : Bool} {u : Uuid}
  {ql amount v : Decimal} {p : ℕ} {bm : BalanceManager} {k : BalanceMapKey} {m : Market} {x : Ctx}
  {rc : OrderRc} {s : MatchState} {o : Order} {t : Trade} {input : OrderInput} {c b : Controller}

/-! ## One change of a balance -/

/-- Nothing is rounded where the amount `v` is added to the balance `k`, or taken from it. -/
structure BalanceManager.RoundsNothing (bm : BalanceManager) (k : BalanceMapKey) (v : Decimal)
    (p : ℕ) : Prop where
  prec : bm.assetManager.assetPrec k.asset = .ok p
  grid : OnGrid p v
  amount : roundDp v p = v
  sum : roundDp (bm.getByKey k + v) p = bm.getByKey k + v
  difference : roundDp (bm.getByKey k - v) p = bm.getByKey k - v

def BalanceManager.Exact (bm : BalanceManager) (k : BalanceMapKey) (v : Decimal) : Prop :=
  ∃ p, bm.RoundsNothing k v p

theorem Gridded.exact (hg : Gridded bm) (hp : bm.assetManager.assetPrec k.asset = .ok p)
    (hv : OnGrid p v) : bm.Exact k v :=
  ⟨p, hp, hv, hv.roundDp_eq, ((hg k p hp).add hv).roundDp_eq, ((hg k p hp).sub hv).roundDp_eq⟩

/-- What a resting order freezes is exact on both accounts, before and after. -/
structure Market.BacksExactly (m : Market) (bm : BalanceManager) (o : Order) : Prop where
  pay : bm.Exact (m.payAccount o) o.frozen
  back : bm.Exact (m.backAccount o) o.frozen

theorem Order.Backed.exact (ho : o.Backed m) (hg : Gridded bm)
    (hp : m.PrecOK bm.assetManager) : m.BacksExactly bm o := by
  have hgrid : OnGrid (m.payPrec o) o.frozen := by
    rw [ho.frozen]
    exact ho.fits.restFrozen hp
  exact ⟨hg.exact (hp.pay o) hgrid, hg.exact (hp.pay o) hgrid⟩

/-! ## A settlement -/

/-- Each leg of a settlement is exact when its turn comes. -/
def SettlesExactly (E : Env) (now : Timestamp) (m : Market) (x : Ctx) (tradeId : ℕ)
    (legs : List SettleLeg) : Prop :=
  ∀ before l after y, legs = before ++ l :: after →
    before.foldlM (settleLeg E now m tradeId) x = .ok y →
    y.balanceManager.Exact ⟨l.user, l.balanceType, l.asset⟩ |l.change|

/-- Legs on the grids of their assets are exact, whatever came before. -/
theorem settlesExactly_of_grids {tradeId : ℕ} {legs : List SettleLeg}
    (hg : Gridded x.balanceManager)
    (hlegs : ∀ l ∈ legs, ∃ p, x.balanceManager.assetManager.assetPrec l.asset = .ok p ∧
      OnGrid p l.change) :
    SettlesExactly E now m x tradeId legs := by
  rintro before l after y rfl hbefore
  let P (rest : List SettleLeg) (y : Ctx) : Prop :=
    rest ⊆ before ++ l :: after ∧ Gridded y.balanceManager ∧
    y.balanceManager.assetManager = x.balanceManager.assetManager
  obtain ⟨-, hgy, hassets⟩ : P [] y := by
    refine foldlM_rule (P := P) ?_ before x y ⟨by simp, hg, rfl⟩ hbefore
    rintro l' rest y y' ⟨hsub, hgy, hassets⟩ hleg
    obtain ⟨p, hp, hgrid⟩ := hlegs l' (hsub List.mem_cons_self)
    have hdone := settleOne_ok hgy (by rw [hassets]; exact hp) hgrid hleg
    exact ⟨fun l hl => hsub (List.mem_cons_of_mem _ hl), hdone.gridded,
      hdone.posted.assets.trans hassets⟩
  obtain ⟨p, hp, hgrid⟩ := hlegs l (by simp)
  exact hgy.exact (by rw [hassets]; exact hp) hgrid.abs

/-- The legs of a trade on the grids of its market are on those of the assets. -/
theorem Trade.OnGrids.legs {am : AssetManager} (h : t.OnGrids m) (hp : m.PrecOK am)
    (takerIsAsk : Bool) :
    ∀ l ∈ t.legs m takerIsAsk, ∃ p, am.assetPrec l.asset = .ok p ∧ OnGrid p l.change := by
  have hbase : OnGrid m.basePrec t.amount := h.amount.mono hp.amount_le
  have hquote : OnGrid m.quotePrec t.quoteAmount := h.quoteAmount.mono hp.sum_le
  intro l hl
  simp only [Trade.legs, List.mem_cons, List.not_mem_nil, or_false] at hl
  rcases hl with rfl | rfl | rfl | rfl
  · exact ⟨_, hp.base, onGrid_afterFee hbase h.bidFee⟩
  · exact ⟨_, hp.base, hbase.neg⟩
  · exact ⟨_, hp.quote, onGrid_afterFee hquote h.askFee⟩
  · exact ⟨_, hp.quote, hquote.neg⟩

/-- The trade of a round: an amount on the grid at the price of a resting order. -/
theorem createTrade_onGrids {tradeId : ℕ} {taker maker : Order}
    (hamount : OnGrid m.amountPrec amount) (hprice : OnGrid m.pricePrec maker.price) :
    (createTrade now m tradeId taker maker amount).OnGrids m := by
  refine ⟨rfl, hamount, ?_, onGrid_truncDp _ _, onGrid_truncDp _ _⟩
  show OnGrid _ (maker.price * amount)
  rw [mul_comm]
  exact hamount.mul hprice

/-! ## An order that is put -/

/-- The trade of `amount` a round makes. -/
def Market.MatchState.nextTrade (s : MatchState) (now : Timestamp) (rc : OrderRc)
    (amount : Decimal) : Trade :=
  createTrade now s.market s.ctx.sequencer.nextTradeId.1 (s.taker.touched now)
    ((s.market.rcs.read rc).touched now) amount

/-- The loop of an accepted order has ended in the state `s`. -/
structure Loops (E : Env) (now : Timestamp) (u : Uuid) (m : Market) (x : Ctx) (input : OrderInput)
    (ql : Decimal) (s : MatchState) : Prop where
  accepted : m.checkInput E x.balanceManager input u = .ok ()
  budget : m.quoteLimit x.balanceManager input u = .ok ql
  ended : forBreak (matchMaker E now ql) (m.counterOrders (m.putTaker now x input u))
    (m.putState now x input u) = .ok s

/-- **All that an order passes to the balance manager is exact**: the four updates of each trade,
and what it freezes when it rests. A filled maker has nothing left to unfreeze. -/
structure Market.PutExact (E : Env) (now : Timestamp) (u : Uuid) (m : Market) (x : Ctx)
    (input : OrderInput) : Prop where
  trade : ∀ ql rc s amount, Comes E now u m x input ql rc s → Generates s ql rc amount →
    SettlesExactly E now s.market { s.ctx with sequencer := s.ctx.sequencer.nextTradeId.2 }
      (s.nextTrade now rc amount).id ((s.nextTrade now rc amount).legs s.market s.taker.isAsk)
  finish : ∀ ql s, Loops E now u m x input ql s → ∀ o ∈ s.finishedOrders, o.remain = 0
  rest : ∀ ql s mx o m', Loops E now u m x input ql s →
    s.finishedOrders.foldlM (fun (mx : Market × Ctx) item => mx.1.orderFinish E mx.2 item)
      (s.market, s.ctx) = .ok mx →
    mx.1.insertOrderIntoOrderbook E s.taker = .ok (o, m') → m'.BacksExactly mx.2.balanceManager o

/-- A round that trades is one of a well-formed market, and its trade is on the grids. -/
theorem DeskOK.generates (hd : DeskOK ⟨m, x, none⟩) (hcomes : Comes E now u m x input ql rc s)
    (hg : Generates s ql rc amount) :
    DeskOK (s.desk ql) ∧ Meets s.market (s.taking ql) rc ∧
    (s.nextTrade now rc amount).OnGrids s.market := by
  have hstart := putState_ok now hd hcomes.accepted hcomes.budget
  obtain ⟨done, rest, ts, hrounds, -⟩ :=
    hcomes.rounds (P := fun _ _ _ _ => True) hd ⟨trivial, fun _ _ _ _ _ _ => trivial⟩
  have hds := Steps.deskOK hrounds.loop.works.steps hstart
  have hmeet := (hrounds.meets hstart (hd.quiet rfl)).2 amount hg.toTries
  have hmaker := hds.backed _ _ hmeet.resting
  have hamount : OnGrid s.market.amountPrec amount := by
    refine tradedBaseAmount_grid ?_ ?_ hg.amount
    · unfold askOf
      split
      · exact (hds.taking _ rfl).fits.remain
      · exact hmaker.fits.remain
    · unfold bidOf
      split
      · exact hmaker.fits.remain
      · exact (hds.taking _ rfl).fits.remain
  exact ⟨hds, hmeet, createTrade_onGrids hamount hmaker.fits.price⟩

theorem DeskOK.tradeExact (hd : DeskOK ⟨m, x, none⟩) (hcomes : Comes E now u m x input ql rc s)
    (hg : Generates s ql rc amount) :
    SettlesExactly E now s.market { s.ctx with sequencer := s.ctx.sequencer.nextTradeId.2 }
    (s.nextTrade now rc amount).id
      ((s.nextTrade now rc amount).legs s.market s.taker.isAsk) := by
  obtain ⟨hds, -, hgrids⟩ := hd.generates hcomes hg
  exact settlesExactly_of_grids hds.gridded (hgrids.legs hds.prec _)

theorem DeskOK.putExact (hd : DeskOK ⟨m, x, none⟩) (input : OrderInput) :
    m.PutExact E now u x input := by
  have hends : ∀ {ql s}, Loops E now u m x input ql s → ∃ d₀, DeskOK d₀ ∧
      LoopEnd E now u AnyOrder ql d₀ s := by
    intro ql s h
    have hstart := putState_ok now hd h.accepted h.budget
    exact ⟨_, hstart,
      loop_steps (s := m.putState now x input u) hstart (hd.quiet rfl) rfl rfl rfl h.ended⟩
  refine ⟨fun ql rc s amount hcomes hg => hd.tradeExact hcomes hg, fun ql s hloop o ho => ?_,
    fun ql s mx o m' hloop hfinish hinsert => ?_⟩
  · obtain ⟨d₀, -, hend⟩ := hends hloop
    exact (hend.stored o ho).1
  · obtain ⟨d₀, hd₀, hend⟩ := hends hloop
    obtain ⟨hsteps, -, -⟩ := finish_steps hd₀ hend.works hend.stored hend.nodup hend.all hfinish
    have hmx := Steps.deskOK hsteps.steps hd₀
    obtain ⟨rfl, rfl⟩ := insertOrder_ok hinsert
    have hgrid := (hmx.taking _ rfl).fits.restFrozen hmx.prec
    exact ⟨hmx.gridded.exact (hmx.prec.pay s.taker) hgrid,
      hmx.gridded.exact (hmx.prec.pay s.taker) hgrid⟩

/-! ## Every reachable state -/

/-- Cancelling all orders of a user is exact at each of them. -/
theorem DeskOK.cancelsExactly (hd : DeskOK ⟨m, x, none⟩) {before after : List Order}
    {y : Market × Ctx} (hos : m.getOrderOfUser u = before ++ o :: after)
    (hbefore : (before.map Order.id).foldlM (cancelNext E) (m, x) = .ok y) :
    m.BacksExactly y.2.balanceManager o := by
  have hall : ∀ p ∈ m.getOrderOfUser u, m.resting p.id = some p :=
    fun p hp => ((mem_getOrderOfUser hd.index).1 hp).1
  -- the entries of the orders that come before
  have hentries : ∀ l : List Order, (∀ p ∈ l, m.resting p.id = some p) →
      ∃ entries : List (ℕ × OrderRc),
      entries.map Prod.fst = l.map Order.id ∧ ∀ e ∈ entries, m.orders[e.1]? = some e.2 := by
    intro l hl
    induction l with
    | nil => exact ⟨[], rfl, by simp⟩
    | cons p l ih =>
      obtain ⟨entries, hids, hstored⟩ := ih fun q hq => hl q (List.mem_cons_of_mem _ hq)
      obtain ⟨rc, hrc, -⟩ := resting_some.1 (hl p (by simp))
      exact ⟨(p.id, rc) ::
        entries, by simp [hids], by simpa using ⟨hrc, fun a b hab => hstored (a, b) hab⟩⟩
  obtain ⟨entries, hids, hstored⟩ :=
    hentries before fun p hp => hall p (by rw [hos]; exact List.mem_append_left _ hp)
  have hnodup : (before.map Order.id).Nodup := by
    have hnodup : ((m.getOrderOfUser u).map Order.id).Nodup := by
      rw [getOrderOfUser_ids hd.index]
      exact nodup_keys _
    rw [hos, List.map_append] at hnodup
    exact (List.nodup_append.1 hnodup).1
  rw [← hids] at hbefore hnodup
  obtain ⟨hremoved, hd'⟩ := cancelNext_removed hd ⟨hnodup, hstored⟩ hbefore
  have hprec : m.PrecOK y.2.balanceManager.assetManager := by
    rw [hremoved.posted.assets]
    exact hd.prec
  exact (hd.backed _ _ (hall o (by rw [hos]; simp))).exact hd'.gridded hprec

/-- **Market amounts are always on the grid**, and nothing in a market is ever rounded by the
balance manager. -/
theorem Reachable.amounts_exact (h : Reachable E settings c) :
    (∀ k, (c.balanceManager.balances.find? k).isSome →
      ∃ p, c.balanceManager.assetManager.assetPrec k.asset = .ok p ∧
      OnGrid p (c.balanceManager.getByKey k)) ∧
    (∀ name m id o, c.markets.find? name = some m → m.resting id = some o →
      OnGrid m.amountPrec o.remain ∧ OnGrid m.pricePrec o.price ∧
      m.BacksExactly c.balanceManager o) ∧
    (∀ q, c.EachPut E (Market.PutExact E q.now q.user) q) ∧
    ∀ name m real u before o after y, c.markets.find? name = some m →
      m.getOrderOfUser u = before ++ o :: after →
      (before.map Order.id).foldlM (cancelNext E) (m, c.ctx real) = .ok y →
      m.BacksExactly y.2.balanceManager o := by
  obtain ⟨b, -, hc⟩ := h.ok
  refine ⟨fun k hk => ?_, fun name m id o hm ho => ?_, fun q => ?_,
    fun name m real u before o after y hm hos hbefore => ?_⟩
  · obtain ⟨p, hp⟩ := h.storable.known k hk
    exact ⟨p, hp, hc.gridded k p hp⟩
  · have hd := (hc.desk name m hm).2 true
    have hback := hd.backed id o ho
    exact ⟨hback.fits.remain, hback.fits.price, hback.exact hd.gridded hd.prec⟩
  · exact eachPut_of_ok hc fun c' name m input hc' hm =>
      ((hc'.desk name m hm).2 q.real).putExact input
  · exact ((hc.desk name m hm).2 real).cancelsExactly hos hbefore

/-- A resting bid of alice, half of it bought. -/
theorem Reachable.amounts_exact_partial : ∃ c m o, Reachable releaseEnv sampleSettings c ∧
    c.markets.find? "ETH_USDT" = some m ∧ o.remain = 1 ∧ OnGrid m.amountPrec o.remain ∧
    OnGrid m.pricePrec o.price ∧
    m.BacksExactly c.balanceManager o := by
  have h : (sampleRun releaseEnv [requestAt 0 bob (depositOf "ETH" 1 "10"),
      requestAt 0 alice (depositOf "USDT" 2 "1000"),
      requestAt 1 alice (.orderPut (limitOrder .bid "2" "100")),
      requestAt 2 bob (.orderPut (limitOrder .ask "1" "100"))]
      >>= fun c => pure (((c.markets.find? "ETH_USDT").bind fun m => m.resting 1).map
        Order.remain)) =
      (.ok (some 1) : Except Panic (Option Decimal)) := by decide +kernel
  simp only [bind_ok, pure_ok, Option.map_eq_some_iff, Option.bind_eq_some_iff] at h
  obtain ⟨c, hc, o, ⟨m, hm, ho⟩, hremain⟩ := h
  have hreach := sampleRun_reachable hc
  obtain ⟨hgrid, hprice, hexact⟩ := hreach.amounts_exact.2.1 _ m 1 o hm ho
  exact ⟨c, m, o, hreach, hm, hremain, hgrid, hprice, hexact⟩

end Dingir
