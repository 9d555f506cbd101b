import Dingir.Proof.Settle
import Dingir.Proof.Index

/-!
# The steps of a market at work

A market with what it borrowed and the order being put is a `Desk`. Everything
`put_order`, `cancel` and `cancel_all_for_user` do is a sequence of six steps:
an order is *accepted*; it *trades* with a maker; a filled maker is *finished*;
the order is *closed*, or what is left of it *rests*; a resting order is
*cancelled*. Each step says what it needs and all it changes, so that what
holds along a run is proved one step at a time.

**`Step.deskOK`**: every step keeps `DeskOK`, the indexes in agreement and each
resting order frozen for exactly what is left of it.
-/

namespace Dingir

open Keyed Rounding Posting Outcome Market

/-- The order being put, its quote budget and what it has spent. -/
structure Taking where
  order : Order
  quoteLimit : Decimal
  quoteSum : Decimal

structure Desk where
  market : Market
  ctx : Ctx
  taking : Option Taking

/-! ## A trade -/

/-- The maker after a trade: filled, and what it froze for the trade released. -/
def filledMaker (now : Timestamp) (takerIsAsk : Bool) (maker : Order) (t : Trade) : Order :=
  releaseOrder (fillOrder (maker.touched now) t (if takerIsAsk then t.bidFee else t.askFee))
    (if takerIsAsk then t.quoteAmount else t.amount)

/-- The taking order after a trade. -/
def filledTaking (now : Timestamp) (k : Taking) (t : Trade) : Taking :=
  { order := fillOrder (k.order.touched now) t (if k.order.isAsk then t.askFee else t.bidFee)
    quoteLimit := k.quoteLimit
    quoteSum := k.quoteSum + t.quoteAmount }

/-- The orders `k` and the one behind `rc` meet: the tests before a trade have passed. -/
structure Meets (m : Market) (k : Taking) (rc : OrderRc) : Prop where
  stored : m.orders[(m.rcs.read rc).id]? = some rc
  counter : (m.rcs.read rc).side ≠ k.order.side
  makerOpen : (m.rcs.read rc).remain ≠ 0
  takerOpen : k.order.remain ≠ 0
  notPostOnly : k.order.postOnly = false
  crosses : k.order.type_ = .limit →
    (askOf k.order (m.rcs.read rc)).price ≤ (bidOf k.order (m.rcs.read rc)).price

/-- **A trade** `t` of the order `k` with the maker behind `rc`, all it reads and all it changes. -/
structure Trades (now : Timestamp) (m : Market) (x : Ctx) (k : Taking) (rc : OrderRc) (t : Trade)
    (m' : Market) (x' : Ctx) : Prop where
  id : t.id = x.sequencer.tradeId + 1
  price : t.price = (m.rcs.read rc).price
  amount : m.tradedBaseAmount k.order (askOf k.order (m.rcs.read rc))
    (bidOf k.order (m.rcs.read rc)) t.price k.quoteLimit k.quoteSum = .ok (some t.amount)
  quoteAmount : t.quoteAmount = t.price * t.amount
  askUser : t.askUserId = (askOf k.order (m.rcs.read rc)).user
  bidUser : t.bidUserId = (bidOf k.order (m.rcs.read rc)).user
  askOrder : t.askOrderId = (askOf k.order (m.rcs.read rc)).id
  bidOrder : t.bidOrderId = (bidOf k.order (m.rcs.read rc)).id
  askFee : t.askFee = truncDp (t.quoteAmount *
    if k.order.isAsk then k.order.takerFee else (m.rcs.read rc).makerFee) m.quotePrec
  bidFee : t.bidFee = truncDp (t.amount *
    if k.order.isAsk then (m.rcs.read rc).makerFee else k.order.takerFee) m.basePrec
  askRole : t.askRole = if k.order.isAsk then .taker else .maker
  bidRole : t.bidRole = if k.order.isAsk then .maker else .taker
  askCarried : ∀ o, t.askOrder = some o → o = (askOf k.order (m.rcs.read rc)).touched now
  bidCarried : ∀ o, t.bidOrder = some o → o = (bidOf k.order (m.rcs.read rc)).touched now
  name : t.market = m.name
  base : t.base = m.base
  quote : t.quote = m.quote
  users_ne : t.askUserId ≠ t.bidUserId
  assets_ne : m.base ≠ m.quote
  market : m' = m.afterTrade rc (filledMaker now k.order.isAsk (m.rcs.read rc) t) t.price
  posted : Posted x.balanceManager x'.balanceManager (t.postings m k.order.isAsk)
  gridded : Gridded x'.balanceManager
  keeps : ∀ j, 0 ≤ x.balanceManager.getByKey j → 0 ≤ x'.balanceManager.getByKey j
  known : x.balanceManager.Known → x'.balanceManager.Known
  cache : TtlCache.Inserted (TradeKeys (x.sequencer.tradeId + 1)) x.updateController.cache 4
    x'.updateController.cache
  sequencer : x'.sequencer = { x.sequencer with tradeId := x.sequencer.tradeId + 1 }
  trades : x.persistor.realPersist = true → x'.persistor.trades = x.persistor.trades ++ [t]
  finished : x'.persistor.finished = x.persistor.finished
  real : x'.persistor.realPersist = x.persistor.realPersist
  messages : ∀ ms, x.persistor = .real ms → ∃ bs,
    x'.persistor = .real (ms ++ bs ++ t.told (filledMaker now k.order.isAsk (m.rcs.read rc) t)) ∧
      (∀ b ∈ bs, b.isBalance = true) ∧
      bs.length = (t.postings m k.order.isAsk).countP fun e => e.2 ≠ 0
  carries : x.Carries x'

/-! ## The steps -/

/-- The prices of a taker and a maker do not meet. -/
def Order.Apart (taker maker : Order) : Prop :=
  (bidOf taker maker).price < (askOf taker maker).price

/-- No resting order of the other side meets the price of `o`. -/
def Market.Clear (m : Market) (o : Order) : Prop :=
  ∀ id p, m.resting id = some p → p.side ≠ o.side → o.Apart p

/-- Every bid is below every ask. -/
def Market.Uncrossed (m : Market) : Prop :=
  ∀ id id' a b, m.resting id = some a → m.resting id' = some b → a.side = .ask → b.side = .bid →
    b.price < a.price

/-- No resting order is filled. -/
def Market.Quiet (m : Market) : Prop := ∀ id o, m.resting id = some o → o.remain ≠ 0

/-- **One step of a market at work** for the user `u`, who puts orders that meet `A`. -/
inductive Step (E : Env) (now : Timestamp) (u : Uuid)
    (A : Market → Ctx → OrderInput → Prop) : Desk → Desk → Prop
  | accept {m : Market} {x : Ctx} {input : OrderInput} {ql : Decimal} :
      A m x input → m.checkInput E x.balanceManager input u = .ok () →
      m.quoteLimit x.balanceManager input u = .ok ql →
      Step E now u A ⟨m, x, none⟩
        ⟨m, { x with
              sequencer := x.sequencer.nextOrderId.2
              persistor :=
                x.persistor.putOrder (m.newOrder (x.sequencer.orderId + 1) now input u) .put },
          some ⟨m.newOrder (x.sequencer.orderId + 1) now input u, ql, 0⟩⟩
  | trade {m m' : Market} {x x' : Ctx} {k : Taking} {rc : OrderRc} {t : Trade} :
      Meets m k rc → Trades now m x k rc t m' x' →
      Step E now u A ⟨m, x, some k⟩ ⟨m', x', some (filledTaking now k t)⟩
  | finish {m : Market} {x : Ctx} {k : Taking} {rc : OrderRc} :
      m.orders[(m.rcs.read rc).id]? = some rc → (m.rcs.read rc).remain = 0 →
      Step E now u A ⟨m, x, some k⟩
        ⟨m.without (m.rcs.read rc),
          { x with persistor := x.persistor.putOrder (m.rcs.read rc) .finish }, some k⟩
  | close {m : Market} {x : Ctx} {k : Taking} : m.Quiet →
      Step E now u A ⟨m, x, some k⟩ ⟨m,
        { x with persistor := x.persistor.putOrder k.order .finish }, none⟩
  | rest {m : Market} {x : Ctx} {k : Taking} {bm : BalanceManager} : m.Quiet →
      k.order.type_ = .limit → k.order.remain ≠ 0 →
      m.frozenBalance E x.balanceManager k.order.rested = .ok bm → m.Clear k.order →
      Step E now u A ⟨m, x, some k⟩ ⟨m.withRest k.order.rested, { x with balanceManager := bm },
        none⟩
  | cancel {m : Market} {x : Ctx} {rc : OrderRc} {bm : BalanceManager} :
      m.orders[(m.rcs.read rc).id]? = some rc → (m.rcs.read rc).user = u →
      m.unfrozenBalance E x.balanceManager (m.rcs.read rc) = .ok bm →
      Step E now u A ⟨m, x, none⟩
        ⟨m.without (m.rcs.read rc),
          { x with
            balanceManager := bm
            persistor := x.persistor.putOrder (m.rcs.read rc) .finish }, none⟩

/-- No condition on the orders. -/
abbrev AnyOrder : Market → Ctx → OrderInput → Prop := fun _ _ _ => True

/-- Any number of steps. -/
abbrev Steps (E : Env) (now : Timestamp) (u : Uuid)
    (A : Market → Ctx → OrderInput → Prop) : Desk → Desk → Prop :=
  Relation.ReflTransGen (Step E now u A)

/-- A step while an order is being tried: it trades, or a filled maker is finished. -/
def Work (E : Env) (now : Timestamp) (u : Uuid) (A : Market → Ctx → OrderInput → Prop)
    (d d' : Desk) : Prop :=
  Step E now u A d d' ∧ d.taking.isSome ∧ d'.taking.isSome

abbrev Works (E : Env) (now : Timestamp) (u : Uuid)
    (A : Market → Ctx → OrderInput → Prop) : Desk → Desk → Prop :=
  Relation.ReflTransGen (Work E now u A)

/-! ## What every step keeps -/

/-- The precisions a market was created with fit its assets. -/
structure Market.PrecOK (m : Market) (am : AssetManager) : Prop where
  base : am.assetPrec m.base = .ok m.basePrec
  quote : am.assetPrec m.quote = .ok m.quotePrec
  amount_le : m.amountPrec ≤ m.basePrec
  sum_le : m.amountPrec + m.pricePrec ≤ m.quotePrec

/-- The amounts of an order lie on the grids of its market. -/
structure Order.Fits (o : Order) (m : Market) : Prop where
  market : o.market = m.name
  base : o.base = m.base
  quote : o.quote = m.quote
  remain : OnGrid m.amountPrec o.remain
  price : OnGrid m.pricePrec o.price

/-- A resting order backed by what it froze. -/
structure Order.Backed (o : Order) (m : Market) : Prop where
  fits : o.Fits m
  limit : o.type_ = .limit
  frozen : o.frozen = o.restFrozen

/-- The order being put. -/
structure Taking.OK (k : Taking) (m : Market) (orderId : ℕ) : Prop where
  fits : k.order.Fits m
  id : k.order.id = orderId
  fresh : ∀ id o, m.resting id = some o → id < orderId

/-- **The invariant of a market at work.** -/
structure DeskOK (d : Desk) : Prop where
  index : d.market.IndexOK
  prec : d.market.PrecOK d.ctx.balanceManager.assetManager
  gridded : Gridded d.ctx.balanceManager
  capacity : 4 ≤ d.ctx.updateController.cache.capacity
  backed : ∀ id o, d.market.resting id = some o → o.Backed d.market
  ids : ∀ id o, d.market.resting id = some o → id ≤ d.ctx.sequencer.orderId
  uncrossed : d.market.Uncrossed
  quiet : d.taking = none → d.market.Quiet
  taking : ∀ k, d.taking = some k → k.OK d.market d.ctx.sequencer.orderId

variable {E : Env} {now : Timestamp} {u : Uuid} {m m' : Market} {x x' : Ctx} {o : Order}
  {rc : OrderRc} {k : Taking} {t : Trade} {bm bm' : BalanceManager}
  {A : Market → Ctx → OrderInput → Prop}

theorem isAsk_iff : o.isAsk = true ↔ o.side = .ask := by simp [Order.isAsk]

/-- The digits of the asset an order pays with. -/
def Market.payPrec (m : Market) (o : Order) : ℕ := if o.isAsk then m.basePrec else m.quotePrec

theorem Market.PrecOK.pay {am : AssetManager} (h : m.PrecOK am) (o : Order) :
    am.assetPrec (m.payAsset o) = .ok (m.payPrec o) := by
  unfold payAsset payPrec
  split
  · exact h.base
  · exact h.quote

/-- What an order freezes lies on the grid of the asset it pays with. -/
theorem Order.Fits.restFrozen {am : AssetManager} (h : o.Fits m) (hm : m.PrecOK am) :
    OnGrid (m.payPrec o) o.restFrozen := by
  unfold Order.restFrozen Market.payPrec
  by_cases hs : o.side = .ask
  · rw [if_pos hs, if_pos (isAsk_iff.2 hs)]
    exact h.remain.mono hm.amount_le
  · rw [if_neg hs, if_neg (fun hc => hs (isAsk_iff.1 hc))]
    exact (h.remain.mul h.price).mono hm.sum_le

/-- The balance an order pays from before it rests. -/
def Market.payAccount (m : Market) (o : Order) : BalanceMapKey := ⟨o.user, .available, m.payAsset o⟩

/-- The balance that backs an order while it rests. -/
def Market.backAccount (m : Market) (o : Order) : BalanceMapKey := ⟨o.user, .freeze, m.payAsset o⟩

/-- Coming to rest moves what an order freezes to `FREEZE`. -/
theorem frozenBalance_posted (hg : Gridded bm) (hm : m.PrecOK bm.assetManager) (ho : o.Fits m)
    (h : m.frozenBalance E bm o.rested = .ok bm') :
    Posted bm bm' [(m.payAccount o, -o.restFrozen), (m.backAccount o, o.restFrozen)] :=
  BalanceManager.frozen_posted hg (hm.pay o) (ho.restFrozen hm) h

/-- Cancelling moves it back, and a filled order has nothing to move. -/
theorem unfrozenBalance_posted (hg : Gridded bm) (hm : m.PrecOK bm.assetManager) (ho : o.Backed m)
    (h : m.unfrozenBalance E bm o = .ok bm') :
    Posted bm bm' [(m.payAccount o, o.restFrozen), (m.backAccount o, -o.restFrozen)] := by
  unfold Market.unfrozenBalance at h
  obtain ⟨-, -, h⟩ := bind_ok.1 h
  split at h
  · rename_i hz
    rw [pure_ok] at h
    subst h
    have hr : o.restFrozen = 0 := by simp [Order.restFrozen, hz]
    refine ⟨rfl, fun j => ?_, fun a => ?_⟩ <;> simp [hr]
  · rw [ho.frozen] at h
    exact BalanceManager.unfrozen_posted hg (hm.pay o) (ho.fits.restFrozen hm) h

theorem unfrozenBalance_gridded (hg : Gridded bm)
    (h : m.unfrozenBalance E bm o = .ok bm') : Gridded bm' := by
  unfold Market.unfrozenBalance at h
  obtain ⟨-, -, h⟩ := bind_ok.1 h
  split at h
  · rw [pure_ok] at h
    exact h ▸ hg
  · exact BalanceManager.unfrozen_gridded hg h

/-! ## The checks of `put_order` -/

/-- What an input that passes the checks of `put_order` satisfies. -/
structure Accepted (m : Market) (bm : BalanceManager) (input : OrderInput)
    (user : Uuid) : Prop where
  min : m.minAmount ≤ input.amount
  amountGrid : OnGrid m.amountPrec input.amount
  priceGrid : OnGrid m.pricePrec input.price
  market : input.type_ = .market → input.price = 0 ∧ input.postOnly = false
  limit : input.type_ = .limit → input.price ≠ 0
  ask : input.side = .ask → input.amount ≤ bm.get user .available m.base
  bid : input.side = .bid → input.type_ = .limit →
    input.amount * input.price ≤ bm.get user .available m.quote
  marketOrder : m.disableMarketOrder = true → input.type_ = .limit
  fees : m.feePrec = 0 → input.takerFee = 0 ∧ input.makerFee = 0

theorem bailIf_ok {c : Prop} [Decidable c] {e : String} {r : Unit} :
    Market.bailIf c e = .ok r ↔ ¬ c := by
  unfold Market.bailIf
  split <;> simp_all

theorem checkInput_ok {input : OrderInput} {user : Uuid}
    (h : m.checkInput E bm input user = .ok ()) : Accepted m bm input user := by
  simp only [Market.checkInput, bind_ok, bailIf_ok, not_not, not_lt] at h
  obtain ⟨-, hdisabled, -, hmin, -, hfees, -, hamount, -, hprice, _, htype, hbal⟩ := h
  unfold Market.checkType at htype
  unfold Market.checkBalance at hbal
  refine ⟨hmin, hamount ▸ onGrid_truncDp _ _, hprice ▸ onGrid_roundDp _ _, fun ht => ?_,
    fun ht => ?_,
    fun hs => ?_, fun hs ht => ?_, fun hd => ?_, fun hf => ?_⟩
  · rw [if_pos ht] at htype
    simp only [bind_ok, bailIf_ok, not_not] at htype
    obtain ⟨-, hp, -, hpost, -⟩ := htype
    exact ⟨hp, by simpa using hpost⟩
  · rw [if_neg (by simp [ht]), bailIf_ok] at htype
    exact htype
  · rw [if_pos hs, bailIf_ok] at hbal
    exact not_lt.1 hbal
  · rw [if_neg (by simp [hs]), bailIf_ok] at hbal
    exact not_lt.1 fun hlt => hbal ⟨ht, hlt⟩
  · cases ht : input.type_ with
    | limit => rfl
    | market => exact absurd ⟨ht, hd⟩ hdisabled
  · by_contra hne
    exact hfees ⟨hf, by tauto⟩

/-! ## The terms of a market never change -/

/-- Two markets with the same names and precisions. -/
structure Market.SameTerms (m m' : Market) : Prop where
  name : m'.name = m.name
  base : m'.base = m.base
  quote : m'.quote = m.quote
  amountPrec : m'.amountPrec = m.amountPrec
  pricePrec : m'.pricePrec = m.pricePrec
  basePrec : m'.basePrec = m.basePrec
  quotePrec : m'.quotePrec = m.quotePrec
  feePrec : m'.feePrec = m.feePrec
  minAmount : m'.minAmount = m.minAmount
  disableSelfTrade : m'.disableSelfTrade = m.disableSelfTrade
  disableMarketOrder : m'.disableMarketOrder = m.disableMarketOrder

theorem Market.SameTerms.refl (m : Market) : m.SameTerms m :=
  ⟨rfl, rfl, rfl, rfl, rfl, rfl, rfl, rfl, rfl, rfl, rfl⟩

theorem Market.SameTerms.trans {m'' : Market} (h : m.SameTerms m')
    (h' : m'.SameTerms m'') : m.SameTerms m'' :=
  ⟨h'.name.trans h.name, h'.base.trans h.base, h'.quote.trans h.quote,
    h'.amountPrec.trans h.amountPrec,
    h'.pricePrec.trans h.pricePrec, h'.basePrec.trans h.basePrec, h'.quotePrec.trans h.quotePrec,
    h'.feePrec.trans h.feePrec, h'.minAmount.trans h.minAmount,
    h'.disableSelfTrade.trans h.disableSelfTrade,
    h'.disableMarketOrder.trans h.disableMarketOrder⟩

theorem Market.SameTerms.symm (h : m.SameTerms m') : m'.SameTerms m :=
  ⟨h.name.symm, h.base.symm, h.quote.symm, h.amountPrec.symm, h.pricePrec.symm, h.basePrec.symm,
    h.quotePrec.symm,
    h.feePrec.symm, h.minAmount.symm, h.disableSelfTrade.symm, h.disableMarketOrder.symm⟩

theorem Market.PrecOK.of_terms {am : AssetManager} (h : m.SameTerms m')
    (hm : m.PrecOK am) : m'.PrecOK am := by
  obtain ⟨h₁, h₂, h₃, h₄⟩ := hm
  constructor
  · rw [h.base, h.basePrec]; exact h₁
  · rw [h.quote, h.quotePrec]; exact h₂
  · rw [h.amountPrec, h.basePrec]; exact h₃
  · rw [h.amountPrec, h.pricePrec, h.quotePrec]; exact h₄

theorem Order.Fits.of_terms (h : m.SameTerms m') (ho : o.Fits m) : o.Fits m' := by
  obtain ⟨h₁, h₂, h₃, h₄, h₅⟩ := ho
  constructor
  · rw [h.name]; exact h₁
  · rw [h.base]; exact h₂
  · rw [h.quote]; exact h₃
  · rw [h.amountPrec]; exact h₄
  · rw [h.pricePrec]; exact h₅

theorem Order.Backed.of_terms (h : m.SameTerms m') (ho : o.Backed m) : o.Backed m' :=
  ⟨ho.fits.of_terms h, ho.limit, ho.frozen⟩

variable {d d' : Desk}

theorem Step.sameTerms (h : Step E now u A d d') : d.market.SameTerms d'.market := by
  cases h with
  | trade _ ht => rw [ht.market]; exact ⟨rfl, rfl, rfl, rfl, rfl, rfl, rfl, rfl, rfl, rfl, rfl⟩
  | _ => exact ⟨rfl, rfl, rfl, rfl, rfl, rfl, rfl, rfl, rfl, rfl, rfl⟩

/-! ## The steps keep the invariant -/

theorem sameKeys_filledMaker (takerIsAsk : Bool) :
    Market.SameKeys o (filledMaker now takerIsAsk o t) :=
  ⟨rfl, rfl, rfl, rfl⟩

/-- The base amount of a trade lies on a grid that both orders are on, and the market's if a budget
cuts it. -/
theorem tradedBaseAmount_onGrid {taker ask bid : Order} {price ql qs amount : Decimal} {n : ℕ}
    (hask : OnGrid n ask.remain) (hbid : OnGrid n bid.remain)
    (hcut : taker.side = .bid → taker.type_ = .market → m.amountPrec ≤ n)
    (h : m.tradedBaseAmount taker ask bid price ql qs = .ok (some amount)) : OnGrid n amount := by
  unfold Market.tradedBaseAmount at h
  simp only at h
  split_ifs at h with hover <;>
    simp only [Except.ok.injEq, Option.some.injEq, reduceCtorEq] at h <;> subst h
  · exact (onGrid_truncDp _ _).mono (hcut hover.1 hover.2.1)
  · exact hask.min hbid

/-- The base amount of a trade lies on the market's grid. -/
theorem tradedBaseAmount_grid {taker ask bid : Order} {price ql qs amount : Decimal}
    (hask : OnGrid m.amountPrec ask.remain) (hbid : OnGrid m.amountPrec bid.remain)
    (h : m.tradedBaseAmount taker ask bid price ql qs = .ok (some amount)) :
    OnGrid m.amountPrec amount :=
  tradedBaseAmount_onGrid hask hbid (fun _ _ => le_rfl) h

/-- The maker and the taker of a trade, by side. -/
theorem Meets.sides (h : Meets m k rc) :
    (k.order.isAsk = true ∧ (m.rcs.read rc).side = .bid) ∨
      (k.order.isAsk = false ∧ (m.rcs.read rc).side = .ask) := by
  have hne := h.counter
  unfold Order.isAsk
  cases hm : (m.rcs.read rc).side <;> cases hk : k.order.side <;> simp_all

theorem Meets.resting (h : Meets m k rc) : m.resting (m.rcs.read rc).id = some (m.rcs.read rc) :=
  Market.resting_some.2 ⟨rc, h.stored, rfl⟩

theorem Trades.amountGrid (h : Trades now m x k rc t m' x')
    (hk : OnGrid m.amountPrec k.order.remain) (hm : OnGrid m.amountPrec (m.rcs.read rc).remain) :
    OnGrid m.amountPrec t.amount := by
  refine tradedBaseAmount_grid ?_ ?_ h.amount
  · unfold askOf; split <;> assumption
  · unfold bidOf; split <;> assumption

/-- A trade releases from the maker what it takes from its account. -/
theorem filledMaker_restFrozen (h : Meets m k rc) (ht : Trades now m x k rc t m' x') :
    (filledMaker now k.order.isAsk (m.rcs.read rc) t).restFrozen =
      (m.rcs.read rc).restFrozen - if k.order.isAsk then t.quoteAmount else t.amount := by
  have hq : t.quoteAmount = (m.rcs.read rc).price * t.amount := by rw [ht.quoteAmount, ht.price]
  rcases h.sides with ⟨hk, hs⟩ | ⟨hk, hs⟩
  · simp only [Order.restFrozen, filledMaker, releaseOrder, fillOrder, Order.touched, hs, hk,
      if_true, hq]
    simp only [reduceCtorEq, if_false]
    ring
  · simp [Order.restFrozen, filledMaker, releaseOrder, fillOrder, Order.touched, hs, hk]

/-- A trade leaves the maker backed. -/
theorem Meets.backed (h : Meets m k rc) (ht : Trades now m x k rc t m' x') (hk : k.order.Fits m)
    (hm : (m.rcs.read rc).Backed m) :
    (filledMaker now k.order.isAsk (m.rcs.read rc) t).Backed m := by
  have hgrid := ht.amountGrid hk.remain hm.fits.remain
  refine ⟨⟨hm.fits.market, hm.fits.base, hm.fits.quote, hm.fits.remain.sub hgrid, hm.fits.price⟩,
    hm.limit, ?_⟩
  rw [filledMaker_restFrozen h ht, ← hm.frozen]
  rfl

theorem Trades.resting (h : Meets m k rc) (ht : Trades now m x k rc t m' x') (hm : m.IndexOK)
    (id : ℕ) :
    m'.resting id = if (m.rcs.read rc).id =
      id then some (filledMaker now k.order.isAsk (m.rcs.read rc) t)
      else m.resting id := by
  rw [ht.market]
  exact Market.resting_withOrder hm h.stored id

/-- **Every step keeps the indexes in agreement.** -/
theorem Step.indexOK (h : Step E now u A d d') (hd : DeskOK d) : d'.market.IndexOK := by
  cases h with
  | accept _ _ _ => exact hd.index
  | @trade m m' x x' k rc t hmeet ht =>
    have hkeys : Market.SameKeys (m.rcs.read rc)
        (filledMaker now k.order.isAsk (m.rcs.read rc) t) :=
      sameKeys_filledMaker k.order.isAsk
    have hindex := hd.index.withOrder hkeys
    rw [ht.market]
    exact ⟨hindex.alloc, hindex.ownId, hindex.users, hindex.sides⟩
  | finish hrc _ => exact hd.index.without hrc
  | close _ => exact hd.index
  | @rest m x k bm _ _ _ _ _ =>
    have hk := hd.taking k rfl
    refine hd.index.withRest ?_
    cases hr : m.orders[k.order.rested.id]? with
    | none => rfl
    | some r =>
      have hlt := hk.fresh _ _ (Market.resting_some.2 ⟨r, hr, rfl⟩)
      exact absurd hk.id hlt.ne
  | cancel hrc _ _ => exact hd.index.without hrc

/-- Where the resting orders of the market after a step come from. -/
theorem Step.resting (h : Step E now u A d d') (hd : DeskOK d) {id : ℕ} {o : Order}
    (ho : d'.market.resting id = some o) :
    d.market.resting id = some o ∨
      (∃ m' x' k rc t, d.taking = some k ∧ d'.taking = some (filledTaking now k t) ∧
        Meets d.market k rc ∧
        Trades now d.market d.ctx k rc t m' x' ∧ (d.market.rcs.read rc).id = id ∧
        o = filledMaker now k.order.isAsk (d.market.rcs.read rc) t) ∨
      (∃ k, d.taking = some k ∧ d'.taking = none ∧ k.order.type_ = .limit ∧ k.order.remain ≠ 0 ∧
        k.order.id = id ∧ o = k.order.rested) := by
  cases h with
  | accept _ _ _ => exact .inl ho
  | @trade m m' x x' k rc t hmeet ht =>
    rw [ht.resting hmeet hd.index] at ho
    split at ho
    · exact .inr (.inl ⟨m', x', k, rc, t, rfl, rfl, hmeet, ht, ‹_›, (Option.some.inj ho).symm⟩)
    · exact .inl ho
  | @finish m x k rc hrc hz =>
    rw [Market.resting_without] at ho
    split at ho
    · simp at ho
    · exact .inl ho
  | close _ => exact .inl ho
  | @rest m x k bm hq hlim hopen hfreeze hclear =>
    rw [Market.resting_withRest hd.index] at ho
    split at ho
    · exact .inr (.inr ⟨k, rfl, rfl, hlim, hopen, ‹_›, (Option.some.inj ho).symm⟩)
    · exact .inl ho
  | @cancel m x rc bm hrc hu hfree =>
    rw [Market.resting_without] at ho
    split at ho
    · simp at ho
    · exact .inl ho

/-- A resting order had its side and price before the step, or has just come to rest. -/
theorem Step.restingKey (h : Step E now u A d d') (hd : DeskOK d) {id : ℕ} {o : Order}
    (ho : d'.market.resting id = some o) :
    (∃ p, d.market.resting id = some p ∧ p.side = o.side ∧ p.price = o.price) ∨
      ∃ k, d.taking = some k ∧ o = k.order.rested ∧ d.market.Clear k.order := by
  rcases h.resting hd ho with ho | ⟨m', x', k, rc, t, -, -, hmeet, -, rfl, rfl⟩ |
    ⟨k, hk, hnone, -, -, hid, rfl⟩
  · exact .inl ⟨o, ho, rfl, rfl⟩
  · exact .inl ⟨_, hmeet.resting, rfl, rfl⟩
  · cases h with
    | @rest m x k' bm _ _ _ _ hclear =>
      obtain rfl : k' = k := Option.some.inj hk
      exact .inr ⟨k', rfl, rfl, hclear⟩
    | close _ => exact .inl ⟨_, ho, rfl, rfl⟩
    | _ => simp at hk hnone

/-- **No step crosses the book.** -/
theorem Step.uncrossed (h : Step E now u A d d') (hd : DeskOK d) : d'.market.Uncrossed := by
  intro id id' a b ha hb hask hbid
  rcases h.restingKey hd ha with ⟨a', ha', hs, hp⟩ | ⟨k, hk, rfl, hclear⟩ <;>
    rcases h.restingKey hd hb with ⟨b', hb', hs', hp'⟩ | ⟨k', hk', rfl, hclear'⟩
  · rw [← hp, ← hp']
    exact hd.uncrossed id id' a' b' ha' hb' (hs.trans hask) (hs'.trans hbid)
  · have hside : k'.order.side = .bid := hbid
    have hapart := hclear' id a' ha' (by rw [hs, hask, hside]; decide)
    simp only [Order.Apart, bidOf, askOf, Order.isAsk, hside, reduceCtorEq, decide_false,
      Bool.false_eq_true, if_false] at hapart
    rw [← hp]
    exact hapart
  · have hside : k.order.side = .ask := hask
    have hapart := hclear id' b' hb' (by rw [hs', hbid, hside]; decide)
    simp only [Order.Apart, bidOf, askOf, Order.isAsk, hside, decide_true, if_true] at hapart
    rw [← hp']
    exact hapart
  · obtain rfl : k = k' := Option.some.inj (hk.symm.trans hk')
    have hside : k.order.side = .ask := hask
    exact absurd (hside.symm.trans hbid) (by decide)

/-- A step changes no asset's precision and keeps the balances on their grids. -/
theorem Step.ledger (h : Step E now u A d d') (hd : DeskOK d) :
    d'.ctx.balanceManager.assetManager = d.ctx.balanceManager.assetManager ∧
    Gridded d'.ctx.balanceManager := by
  cases h with
  | accept _ _ _ => exact ⟨rfl, hd.gridded⟩
  | trade _ ht => exact ⟨ht.posted.assets, ht.gridded⟩
  | finish _ _ => exact ⟨rfl, hd.gridded⟩
  | close _ => exact ⟨rfl, hd.gridded⟩
  | rest _ _ _ hfreeze _ =>
    exact ⟨(frozenBalance_posted hd.gridded hd.prec (hd.taking _ rfl).fits hfreeze).assets,
      BalanceManager.frozen_gridded hd.gridded hfreeze⟩
  | cancel hrc _ hfree =>
    have hb := hd.backed _ _ (Market.resting_some.2 ⟨_, hrc, rfl⟩)
    exact ⟨(unfrozenBalance_posted hd.gridded hd.prec hb hfree).assets,
      unfrozenBalance_gridded hd.gridded hfree⟩

/-- What a step does to the counter of orders and to the size of the filter. -/
theorem Step.counters (h : Step E now u A d d') :
    d.ctx.sequencer.orderId ≤ d'.ctx.sequencer.orderId ∧
      d'.ctx.updateController.cache.capacity = d.ctx.updateController.cache.capacity := by
  cases h with
  | accept _ _ _ => exact ⟨Nat.le_succ _, rfl⟩
  | trade _ ht => exact ⟨by rw [ht.sequencer], ht.cache.capacity⟩
  | _ => exact ⟨le_rfl, rfl⟩

/-- Between orders no resting order is filled. -/
theorem Step.quiet (h : Step E now u A d d') (hd : DeskOK d)
    (hnone : d'.taking = none) : d'.market.Quiet := by
  intro id o ho
  rcases h.resting hd ho with hold | ⟨m', x', k, rc, t, -, hk', -⟩ | ⟨k, -, -, -, hopen, -, rfl⟩
  · cases h with
    | accept _ _ _ => simp at hnone
    | trade _ _ => simp at hnone
    | finish _ _ => simp at hnone
    | close hq => exact hq id o hold
    | rest hq _ _ _ _ => exact hq id o hold
    | cancel _ _ _ => exact hd.quiet rfl id o hold
  · simp [hk'] at hnone
  · exact hopen

/-- The order being put has the newest id. -/
theorem Step.takingOK (h : Step E now u A d d') (hd : DeskOK d) {k' : Taking}
    (hk' : d'.taking = some k') : k'.OK d'.market d'.ctx.sequencer.orderId := by
  -- while an order is put, the resting orders stay among those there before
  have hfresh : ∀ k, d.taking = some k → ∀ id o, d'.market.resting id = some o →
      id < d.ctx.sequencer.orderId := by
    intro k hk id o ho
    rcases h.resting hd ho with ho | ⟨m', x', k, rc, t, hk, -, hmeet, ht, rfl, rfl⟩ |
      ⟨k, -, hnone, -⟩
    · exact (hd.taking k hk).fresh id o ho
    · exact (hd.taking k hk).fresh _ _ hmeet.resting
    · simp [hnone] at hk'
  have hterms := h.sameTerms
  cases h with
  | @accept m x input ql _ hcheck hql =>
    have ha := checkInput_ok hcheck
    obtain rfl := Option.some.inj hk'
    exact ⟨⟨rfl, rfl, rfl, ha.amountGrid, ha.priceGrid⟩, rfl,
      fun id o ho => Nat.lt_succ_of_le (hd.ids id o ho)⟩
  | @trade m m' x x' k rc t hmeet ht =>
    obtain rfl := Option.some.inj hk'
    have hk := hd.taking k rfl
    have hgrid := ht.amountGrid hk.fits.remain (hd.backed _ _ hmeet.resting).fits.remain
    have hs : x'.sequencer.orderId = x.sequencer.orderId := by rw [ht.sequencer]
    refine ⟨Order.Fits.of_terms hterms ?_, hk.id.trans hs.symm,
      fun id o ho => hs ▸ hfresh k rfl id o ho⟩
    exact ⟨hk.fits.market, hk.fits.base, hk.fits.quote, hk.fits.remain.sub hgrid, hk.fits.price⟩
  | @finish m x k rc hrc hz =>
    obtain rfl := Option.some.inj hk'
    have hk := hd.taking k rfl
    exact ⟨hk.fits.of_terms hterms, hk.id, hfresh k rfl⟩
  | _ => simp at hk'

/-- **Every step keeps the invariant.** -/
theorem Step.deskOK (h : Step E now u A d d') (hd : DeskOK d) : DeskOK d' := by
  obtain ⟨hassets, hgridded⟩ := h.ledger hd
  obtain ⟨hseq, hcap⟩ := h.counters
  refine ⟨h.indexOK hd, ?_, hgridded, hcap ▸ hd.capacity, fun id o ho => ?_, fun id o ho => ?_,
    h.uncrossed hd,
    h.quiet hd, fun _ => h.takingOK hd⟩
  · rw [hassets]; exact hd.prec.of_terms h.sameTerms
  · refine Order.Backed.of_terms h.sameTerms ?_
    rcases h.resting hd ho with ho | ⟨m', x', k, rc, t, hk, -, hmeet, ht, -, rfl⟩ |
      ⟨k, hk, -, hlim, -, -, rfl⟩
    · exact hd.backed id o ho
    · exact hmeet.backed ht (hd.taking k hk).fits (hd.backed _ _ hmeet.resting)
    · have hf := (hd.taking k hk).fits
      exact ⟨⟨hf.market, hf.base, hf.quote, hf.remain, hf.price⟩, hlim, rfl⟩
  · refine le_trans ?_ hseq
    rcases h.resting hd ho with ho | ⟨m', x', k, rc, t, hk, -, hmeet, ht, rfl, rfl⟩ |
      ⟨k, hk, -, -, -, rfl, rfl⟩
    · exact hd.ids id o ho
    · exact hd.ids _ _ hmeet.resting
    · exact (hd.taking k hk).id.le

/-- **The invariant holds along every run of steps.** -/
theorem Steps.deskOK (h : Steps E now u A d d') (hd : DeskOK d) : DeskOK d' := by
  induction h with
  | refl => exact hd
  | tail _ hstep ih => exact hstep.deskOK ih

/-- **The rule for a property of runs**: each step keeps it, given the invariant. -/
theorem Steps.rule {P : Desk → Prop} (hP : ∀ a b, DeskOK a → P a → Step E now u A a b → P b)
    (h : Steps E now u A d d') (hd : DeskOK d) (hd' : P d) : P d' := by
  induction h with
  | refl => exact hd'
  | tail hsteps hstep ih => exact hP _ _ (Steps.deskOK hsteps hd) ih hstep

theorem Works.steps (h : Works E now u A d d') : Steps E now u A d d' := by
  induction h with
  | refl => exact .refl
  | tail _ hwork ih => exact ih.tail hwork.1

/-- The rule for a property of an order being tried: trades and finished makers keep it. -/
theorem Works.rule {P : Desk → Prop}
    (htrade : ∀ m m' x x' k rc t, DeskOK ⟨m, x, some k⟩ → P ⟨m, x, some k⟩ → Meets m k rc →
      Trades now m x k rc t m' x' →
      P ⟨m', x', some (filledTaking now k t)⟩)
    (hfinish : ∀ m x k rc, DeskOK ⟨m, x, some k⟩ → P ⟨m, x, some k⟩ →
      m.orders[(m.rcs.read rc).id]? = some rc →
      (m.rcs.read rc).remain = 0 →
      P ⟨m.without (m.rcs.read rc),
        { x with persistor := x.persistor.putOrder (m.rcs.read rc) .finish }, some k⟩)
    (h : Works E now u A d d') (hd : DeskOK d) (hP : P d) : P d' := by
  induction h with
  | refl => exact hP
  | tail hworks hwork ih =>
    obtain ⟨hstep, hbefore, hafter⟩ := hwork
    have hok := Steps.deskOK (Works.steps hworks) hd
    cases hstep with
    | @trade m m' x x' k rc t hmeet ht => exact htrade m m' x x' k rc t hok ih hmeet ht
    | @finish m x k rc hrc hz => exact hfinish m x k rc hok ih hrc hz
    | _ => simp at hbefore hafter

theorem Steps.sameTerms (h : Steps E now u A d d') : d.market.SameTerms d'.market := by
  induction h with
  | refl => exact Market.SameTerms.refl _
  | tail _ hstep ih => exact ih.trans hstep.sameTerms

/-- What the steps of one market leave for the others. -/
structure Undisturbed (x x' : Ctx) : Prop where
  assets : x'.balanceManager.assetManager = x.balanceManager.assetManager
  gridded : Gridded x'.balanceManager
  capacity : x'.updateController.cache.capacity = x.updateController.cache.capacity
  orderId : x.sequencer.orderId ≤ x'.sequencer.orderId

theorem Steps.undisturbed (h : Steps E now u A d d')
    (hd : DeskOK d) : Undisturbed d.ctx d'.ctx := by
  refine Steps.rule (P := fun a => Undisturbed d.ctx a.ctx) (fun a b ha hP hstep => ?_) h hd
    ⟨rfl, hd.gridded, rfl, le_rfl⟩
  obtain ⟨hassets, hgridded⟩ := hstep.ledger ha
  obtain ⟨hseq, hcap⟩ := hstep.counters
  exact ⟨hassets.trans hP.assets, hgridded, hcap.trans hP.capacity, hP.orderId.trans hseq⟩

/-- A market at rest stays well formed while others are at work. -/
theorem DeskOK.undisturbed (hd : DeskOK ⟨m, x, none⟩)
    (h : Undisturbed x x') : DeskOK ⟨m, x', none⟩ :=
  ⟨hd.index, h.assets ▸ hd.prec, h.gridded, h.capacity ▸ hd.capacity, hd.backed,
    fun id o ho => (hd.ids id o ho).trans h.orderId, hd.uncrossed, hd.quiet,
    fun k hk => by simp at hk⟩

/-- The ids a run brings to rest are new. -/
theorem Steps.newIds (h : Steps E now u A ⟨m, x, none⟩ d') (hd : DeskOK ⟨m, x, none⟩) {id : ℕ}
    (ho : d'.market.resting id = some o) : (m.resting id).isSome ∨ x.sequencer.orderId < id := by
  let P (a : Desk) : Prop :=
    (∀ id o, a.market.resting id = some o → (m.resting id).isSome ∨ x.sequencer.orderId < id) ∧
    (∀ k, a.taking = some k → x.sequencer.orderId < k.order.id) ∧
    x.sequencer.orderId ≤ a.ctx.sequencer.orderId
  have hP : P d' := by
    refine Steps.rule (P := P) (fun a b ha hP hstep => ⟨fun id o ho => ?_, fun k hk => ?_, ?_⟩) h hd
      ⟨fun id o ho => .inl (by rw [show m.resting id = some o from ho]; rfl),
        fun k hk => by simp at hk, le_rfl⟩
    · rcases hstep.resting ha ho with
        ho | ⟨_, _, k, rc, t, -, -, hmeet, -, rfl, -⟩ | ⟨k, hk, -, -, -, rfl, -⟩
      · exact hP.1 id o ho
      · exact hP.1 _ _ hmeet.resting
      · exact .inr (hP.2.1 k hk)
    · have hid := (hstep.takingOK ha hk).id
      cases hstep with
      | accept _ _ _ => exact hid ▸ Nat.lt_succ_of_le hP.2.2
      | @trade m m' x x' k₁ rc t _ _ =>
        obtain rfl := Option.some.inj hk
        exact hP.2.1 k₁ rfl
      | finish _ _ =>
        obtain rfl := Option.some.inj hk
        exact hP.2.1 _ rfl
      | _ => simp at hk
    · exact hP.2.2.trans hstep.counters.1
  exact hP.1 id o ho

end Dingir
