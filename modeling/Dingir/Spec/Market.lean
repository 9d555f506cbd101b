import Dingir.Spec.Update

/-!
# The market

`market/mod.rs`: one market with its four indexes of resting orders, `put_order`
with its checks, the matching loop of `execute_order`, and the removal of
orders. `executeOrder` is cut at the loop: `matchMaker` is one round of it, made
of the abort tests and of `executeTrade` (Steps 3 to 7 of the source).

The clock is read once for a request (`now`).
-/

namespace Dingir

open Std Keyed Rounding

structure MarketConf where
  name : String
  base : String
  quote : String
  amountPrec : ℕ
  pricePrec : ℕ
  feePrec : ℕ
  minAmount : Decimal

/-- `config::Settings`, the fields the engine reads. -/
structure Settings where
  assets : List AssetConf
  markets : List MarketConf
  disableSelfTrade : Bool
  disableMarketOrder : Bool
  userOrderNumLimit : ℕ

structure Market where
  name : String
  base : String
  quote : String
  amountPrec : ℕ
  pricePrec : ℕ
  basePrec : ℕ
  quotePrec : ℕ
  feePrec : ℕ
  minAmount : Decimal
  price : Decimal
  /-- the orders behind the handles -/
  rcs : Heap Order
  orders : TreeMap ℕ OrderRc
  users : TreeMap Uuid (TreeMap ℕ OrderRc)
  asks : TreeMap MarketKeyAsk OrderRc
  bids : TreeMap MarketKeyBid OrderRc
  tradeCount : ℕ
  disableSelfTrade : Bool
  disableMarketOrder : Bool

/-- What `market_summary` shows of a market. -/
structure MarketStatus where
  name : String
  askCount : ℕ
  askAmount : Decimal
  bidCount : ℕ
  bidAmount : Decimal
  tradeCount : ℕ
  deriving DecidableEq

/-- Who pays a trade, as `get_trade_state` records it. -/
def getTradeState (ask bid : Order) (bm : BalanceManager)
    (base quote : String) : VerboseTradeState :=
  let orderState (o : Order) : VerboseOrderState :=
    { userId := o.user, orderId := o.id, orderSide := o.side, finishedBase := o.finishedBase,
      finishedQuote := o.finishedQuote, finishedFee := o.finishedFee }
  let balanceState (o : Order) (asset : String) : VerboseBalanceState :=
    { userId := o.user, asset, balance := bm.total o.user asset }
  { orderStates := [orderState ask, orderState bid],
    balanceStates := [balanceState ask base, balanceState ask quote, balanceState bid base,
      balanceState bid quote] }

namespace Market

/-- The `u32` sum of two precisions does not wrap: they are `SMALLINT` columns. -/
def new (conf : MarketConf) (settings : Settings) (bm : BalanceManager) :
    Except Panic (Except String Market) := do
  if !bm.assetManager.assetExist conf.quote || !bm.assetManager.assetExist conf.base then
    return .error ("invalid assert id " ++ conf.quote ++ " " ++ conf.base)
  let basePrec ← bm.assetManager.assetPrec conf.base
  let quotePrec ← bm.assetManager.assetPrec conf.quote
  if conf.amountPrec > basePrec || conf.amountPrec + conf.pricePrec > quotePrec then
    return .error "invalid precision"
  return .ok
    { name := conf.name, base := conf.base, quote := conf.quote, amountPrec := conf.amountPrec,
      pricePrec := conf.pricePrec, basePrec, quotePrec, feePrec := conf.feePrec,
      minAmount := conf.minAmount, price := 0, rcs := Heap.empty default, orders := ∅, users := ∅,
      asks := ∅, bids := ∅, tradeCount := 0, disableSelfTrade := settings.disableSelfTrade,
      disableMarketOrder := settings.disableMarketOrder }

/-- The indexes hold the only handles of the orders, so the orders are dropped with them. -/
def reset (m : Market) : Market :=
  { m with bids := ∅, asks := ∅, users := ∅, orders := ∅, rcs := Heap.empty default }

/-- The asset an order pays with. -/
def payAsset (m : Market) (o : Order) : String := if o.isAsk then m.base else m.quote

def frozenBalance (E : Env) (m : Market) (bm : BalanceManager)
    (o : Order) : Except Panic BalanceManager :=
  bm.frozen E o.user (m.payAsset o) o.frozen

def unfrozenBalance (E : Env) (m : Market) (bm : BalanceManager) (o : Order) :
    Except Panic BalanceManager := do
  E.debugAssert .debugAssert (0 ≤ o.remain)
  if o.remain = 0 then return bm
  bm.unfrozen E o.user (m.payAsset o) o.frozen

/-! ## The indexes -/

def insertOrderIntoOrderbook (E : Env) (m : Market) (order : Order) :
    Except Panic (Order × Market) := do
  let order := order.rested
  E.debugAssert .debugAssert (order.type_ = .limit)
  E.debugAssert .lookup (order.id ∉ m.orders)
  let (rc, rcs) := m.rcs.alloc order
  let m := { m with rcs, orders := m.orders.insert order.id rc }
  let userMap := (m.users[order.user]?).getD ∅
  E.debugAssert .lookup (order.id ∉ userMap)
  let m := { m with users := m.users.insert order.user (userMap.insert order.id rc) }
  if order.side = .ask then
    E.debugAssert .lookup (order.askKey ∉ m.asks)
    return (m.rcs.read rc, { m with asks := m.asks.insert order.askKey rc })
  else
    E.debugAssert .lookup (order.bidKey ∉ m.bids)
    return (m.rcs.read rc, { m with bids := m.bids.insert order.bidKey rc })

/-- The first statement of `order_finish`: the order leaves the map of its side. -/
def removeFromSide (E : Env) (m : Market) (order : Order) : Except Panic Market := do
  if order.side = .ask then
    E.debugAssert .lookup (order.askKey ∈ m.asks)
    return { m with asks := m.asks.erase order.askKey }
  else
    E.debugAssert .lookup (order.bidKey ∈ m.bids)
    return { m with bids := m.bids.erase order.bidKey }

def orderFinish (E : Env) (m : Market) (x : Ctx) (order : Order) : Except Panic (Market × Ctx) := do
  let m ← m.removeFromSide E order
  let bm ← m.unfrozenBalance E x.balanceManager order
  E.debugAssert .lookup (order.id ∈ m.orders)
  let m := { m with orders := m.orders.erase order.id }
  let userMap ← unwrap .lookup m.users[order.user]?
  E.debugAssert .lookup (order.id ∈ userMap)
  let m := { m with users := m.users.insert order.user (userMap.erase order.id) }
  return (m, { x with balanceManager := bm, persistor := x.persistor.putOrder order .finish })

/-- `OrderRc::deep` of an order that must be in `orders`. -/
def deep (m : Market) (orderId : ℕ) : Except Panic Order := do
  return m.rcs.read (← unwrap .lookup m.orders[orderId]?)

def cancel (E : Env) (m : Market) (x : Ctx) (orderId : ℕ) : Except Panic (Order × Market × Ctx) :=
  do
  let order ← m.deep orderId
  let (m, x) ← m.orderFinish E x order
  return (order, m, x)

def cancelAllForUser (E : Env) (m : Market) (x : Ctx) (user : Uuid) :
    Except Panic (ℕ × Market × Ctx) := do
  let orderIds := ((m.users[user]?).getD ∅).toList.map Prod.fst
  let s ← orderIds.foldlM (fun (s : Market × Ctx) orderId => do
    let order ← s.1.deep orderId
    s.1.orderFinish E s.2 order) (m, x)
  return (orderIds.length, s.1, s.2)

def status (m : Market) : MarketStatus :=
  { name := m.name, askCount := m.asks.size,
    askAmount := ((values m.asks).map fun rc => (m.rcs.read rc).remain).sum,
    bidCount := m.bids.size,
    bidAmount := ((values m.bids).map fun rc => (m.rcs.read rc).remain).sum,
    tradeCount := m.tradeCount }

def getOrderNumOfUser (m : Market) (user : Uuid) : ℕ := ((m.users[user]?).getD ∅).toList.length

/-! ## Matching -/

/-- The ask among a taker and a maker. -/
def askOf (taker maker : Order) : Order := if taker.isAsk then taker else maker

/-- The bid among a taker and a maker. -/
def bidOf (taker maker : Order) : Order := if taker.isAsk then maker else taker

/-- The state of the matching loop. -/
structure MatchState where
  market : Market
  ctx : Ctx
  taker : Order
  quoteSum : Decimal
  finishedOrders : List Order
  needCancel : Bool

/-- The base amount to trade, or `none` where the loop ends because the quote
budget of a market bid buys nothing more. -/
def tradedBaseAmount (m : Market) (taker ask bid : Order) (price quoteLimit quoteSum : Decimal) :
    Except Panic (Option Decimal) :=
  let amount := min ask.remain bid.remain
  if taker.side = .bid ∧ taker.type_ = .market ∧ quoteLimit < quoteSum + price * amount then
    if price = 0 then .error .divByZero
    else
      let amount := truncDp ((quoteLimit - quoteSum) / price) m.amountPrec
      .ok (if amount = 0 then none else some amount)
  else .ok (some amount)

/-- Step 4: the trade, before the states around it are known. -/
def createTrade (now : Timestamp) (m : Market) (tradeId : ℕ) (taker maker : Order)
    (amount : Decimal) : Trade :=
  let takerIsAsk := taker.isAsk
  let ask := askOf taker maker
  let bid := bidOf taker maker
  let askFeeRate := if takerIsAsk then taker.takerFee else maker.makerFee
  let bidFeeRate := if takerIsAsk then maker.makerFee else taker.takerFee
  -- of course, price should be counter order price
  let price := maker.price
  let quoteAmount := price * amount
  { id := tradeId, timestamp := now, market := m.name, base := m.base, quote := m.quote, price,
    amount,
    quoteAmount, askUserId := ask.user, askOrderId := ask.id,
    askRole := if takerIsAsk then .taker else .maker,
    askFee := truncDp (quoteAmount * askFeeRate) m.quotePrec, bidUserId := bid.user,
    bidOrderId := bid.id,
    bidRole := if takerIsAsk then .maker else .taker,
    bidFee := truncDp (amount * bidFeeRate) m.basePrec,
    askOrder := none, bidOrder := none, stateBefore := ⟨[], []⟩, stateAfter := ⟨[], []⟩ }

/-- Step 5, for one of the two orders. -/
def fillOrder (o : Order) (t : Trade) (fee : Decimal) : Order :=
  { o with remain := o.remain - t.amount, finishedBase := o.finishedBase + t.amount,
           finishedQuote := o.finishedQuote + t.quoteAmount, finishedFee := o.finishedFee + fee }

/-- One `update_user_balance(..).unwrap()` of Step 6. -/
def settleOne (E : Env) (now : Timestamp) (x : Ctx) (m : Market) (tradeId : ℕ)
    (balanceType : BalanceType) (user : Uuid) (asset : String)
    (change : Decimal) : Except Panic Ctx := do
  let (res, x) ← updateUserBalance E now x
    { balanceType, businessType := .trade, userId := user, businessId := tradeId, asset,
      business := "trade", marketPrice := m.price, change, detail := .null }
  match res with
  | .error _ => throw .settlement
  | .ok () => return x

/-- What a credited amount keeps after its fee: a negative fee is not paid out. -/
def afterFee (amount fee : Decimal) : Decimal := if 0 ≤ fee then amount - fee else amount

/-- Step 6: the four balance updates of a trade. -/
def settle (E : Env) (now : Timestamp) (x : Ctx) (m : Market) (takerIsAsk : Bool) (t : Trade) :
    Except Panic Ctx := do
  let x ← settleOne E now x m t.id .available t.bidUserId m.base (afterFee t.amount t.bidFee)
  let x ← settleOne E now x m t.id (if takerIsAsk then .available else .freeze) t.askUserId m.base
      (-t.amount)
  let x ← settleOne E now x m t.id .available t.askUserId m.quote (afterFee t.quoteAmount t.askFee)
  settleOne E now x m t.id (if takerIsAsk then .freeze else .available) t.bidUserId m.quote
    (-t.quoteAmount)

/-- The trade as it is persisted: with the states around it, and with an order at its first
trade. -/
def completeTrade (t : Trade) (ask bid : Order)
    (stateBefore stateAfter : VerboseTradeState) : Trade :=
  { t with stateBefore, stateAfter, askOrder := if ask.finishedBase = 0 then some ask else none,
           bidOrder := if bid.finishedBase = 0 then some bid else none }

/-- What a trade releases is no longer frozen. -/
def releaseOrder (o : Order) (amount : Decimal) : Order := { o with frozen := o.frozen - amount }

/-- The messages of Step 7; a finished maker gets its message from `order_finish`. -/
def persistTrade (persistor : PersistExector) (t : Trade) (maker : Order) : PersistExector :=
  let persistor := persistor.putTrade t
  if maker.remain = 0 then persistor else persistor.putOrder maker .update

/-- The market after a trade at `price` that leaves the maker behind `rc` as `maker`. -/
def afterTrade (m : Market) (rc : OrderRc) (maker : Order) (price : Decimal) : Market :=
  { m with rcs := m.rcs.write rc maker, tradeCount := m.tradeCount + 1, price }

/-- Steps 3 (its end) to 7 for the maker behind `rc`, at the base amount `amount`. -/
def executeTrade (E : Env) (now : Timestamp) (quoteLimit : Decimal) (rc : OrderRc)
    (amount : Decimal) (s : MatchState) : Except Panic MatchState := do
  let m := s.market
  let taker := s.taker.touched now
  let maker := (m.rcs.read rc).touched now
  let takerIsAsk := taker.isAsk
  let (tradeId, sequencer) := s.ctx.sequencer.nextTradeId
  let trade := createTrade now m tradeId taker maker amount
  E.debugAssert .debugAssert (amount ≠ 0)
  E.debugAssert .debugAssert (trade.quoteAmount ≠ 0)
  let quoteSum := s.quoteSum + trade.quoteAmount
  E.debugAssert .debugAssert (taker.side = .bid ∧ taker.type_ = .market → quoteSum ≤ quoteLimit)
  -- Step 4: create the trade
  let x := { s.ctx with sequencer }
  let stateBefore :=
    getTradeState (askOf taker maker) (bidOf taker maker) x.balanceManager m.base m.quote
  E.debugAssert .debugAssert (m.disableSelfTrade → trade.askUserId ≠ trade.bidUserId)
  -- Step 5: update orders
  let taker' := fillOrder taker trade (if takerIsAsk then trade.askFee else trade.bidFee)
  let maker' := fillOrder maker trade (if takerIsAsk then trade.bidFee else trade.askFee)
  E.debugAssert .debugAssert (0 ≤ (askOf taker' maker').remain)
  E.debugAssert .debugAssert (0 ≤ (bidOf taker' maker').remain)
  -- Step 6: update balances
  let x ← settle E now x m takerIsAsk trade
  let stateAfter :=
    getTradeState (askOf taker' maker') (bidOf taker' maker') x.balanceManager m.base m.quote
  -- Step 7: persist trade and order
  let trade := completeTrade trade (askOf taker maker) (bidOf taker maker) stateBefore stateAfter
  let maker' := releaseOrder maker' (if takerIsAsk then trade.quoteAmount else trade.amount)
  return { s with
    market := m.afterTrade rc maker' trade.price
    ctx := { x with persistor := persistTrade x.persistor trade maker' }
    taker := taker'
    quoteSum
    finishedOrders := if maker'.remain = 0 then s.finishedOrders ++ [maker'] else s.finishedOrders }

/-- One round of the matching loop, for the maker behind `rc`. -/
def matchMaker (E : Env) (now : Timestamp) (quoteLimit : Decimal) (rc : OrderRc) (s : MatchState) :
    Except Panic (ForInStep MatchState) := do
  let maker := s.market.rcs.read rc
  let taker := s.taker
  if taker.remain = 0 then return .done s
  let ask := askOf taker maker
  let bid := bidOf taker maker
  -- Step 2: abort if needed
  if taker.type_ = .limit ∧ bid.price < ask.price then return .done s
  if taker.postOnly then return .done { s with needCancel := true }
  if ask.user = bid.user ∧ s.market.disableSelfTrade then return .done { s with needCancel := true }
  -- Step 3: get trade amount
  match ← s.market.tradedBaseAmount taker ask bid maker.price quoteLimit s.quoteSum with
  | none => return .done s
  | some amount => return .yield (← executeTrade E now quoteLimit rc amount s)

/-- The handles of the orders a taker can match, in the order they are tried. -/
def counterOrders (m : Market) (taker : Order) : List OrderRc :=
  if taker.isAsk then values m.bids else values m.asks

def executeOrder (E : Env) (now : Timestamp) (m : Market) (x : Ctx) (taker : Order)
    (quoteLimit : Decimal) : Except Panic (Order × Market × Ctx) := do
  let x := { x with persistor := x.persistor.putOrder taker .put }
  let s ← Outcome.forBreak (matchMaker E now quoteLimit) (m.counterOrders taker)
    { market := m, ctx := x, taker, quoteSum := 0, finishedOrders := [], needCancel := false }
  let (m, x) ← s.finishedOrders.foldlM
      (fun (mx : Market × Ctx) item => mx.1.orderFinish E mx.2 item)
    (s.market, s.ctx)
  let taker := s.taker
  -- a self trade, or a post_only order that would trade
  if s.needCancel then return (taker, m, { x with persistor := x.persistor.putOrder taker .finish })
  -- a market order, filled or not
  if taker.type_ = .market then return (taker, m,
    { x with persistor := x.persistor.putOrder taker .finish })
  if taker.remain = 0 then return (taker, m,
    { x with persistor := x.persistor.putOrder taker .finish })
  let (taker, m) ← m.insertOrderIntoOrderbook E taker
  let bm ← m.frozenBalance E x.balanceManager taker
  return (taker, m, { x with balanceManager := bm })

/-! ## `put_order` -/

/-- `if c { bail!(e) }` -/
def bailIf (c : Prop) [Decidable c] (e : String) : Except String Unit :=
  if c then .error e else .ok ()

/-- The checks that depend on the type of the order. -/
def checkType (m : Market) (input : OrderInput) : Except String Unit :=
  if input.type_ = .market then do
    bailIf (input.price ≠ 0) "market order should not have a price"
    bailIf (input.postOnly = true) "market order cannot be post only"
    bailIf ((input.side = .ask ∧ m.bids.isEmpty) ∨ (input.side = .bid ∧ m.asks.isEmpty))
      "no counter orders"
  else bailIf (input.price = 0) "invalid price for limit order"

/-- The check of the balance the order pays from; a market bid has none. -/
def checkBalance (E : Env) (m : Market) (bm : BalanceManager) (input : OrderInput) (user : Uuid) :
    Except String Unit :=
  if input.side = .ask then
    bailIf (bm.get user .available m.base < input.amount) "balance not enough"
  else
    let balance := bm.get user .available m.quote
    bailIf (input.type_ = .limit ∧ balance < input.amount * input.price)
      ("balance not enough: balance(" ++ E.decimalToString balance ++ ") < amount(" ++
        E.decimalToString input.amount ++ ") * price(" ++ E.decimalToString input.price ++ ")")

/-- The checks of `put_order`, in the order of the source. -/
def checkInput (E : Env) (m : Market) (bm : BalanceManager) (input : OrderInput) (user : Uuid) :
    Except String Unit := do
  bailIf (input.type_ = .market ∧ m.disableMarketOrder = true) "market orders disabled"
  bailIf (input.amount < m.minAmount) "invalid amount"
  -- fee_prec == 0 means no fee allowed
  bailIf (m.feePrec = 0 ∧ (input.takerFee ≠ 0 ∨ input.makerFee ≠ 0)) "only 0 fee is supported now"
  bailIf (truncDp input.amount m.amountPrec ≠ input.amount) "invalid amount precision"
  bailIf (roundDp input.price m.pricePrec ≠ input.price) "invalid price precision"
  m.checkType input
  m.checkBalance E bm input user

/-- The quote budget of a market bid; not used for other orders. -/
def quoteLimit (m : Market) (bm : BalanceManager) (input : OrderInput) (user : Uuid) :
    Except Panic Decimal := do
  if input.type_ = .market ∧ input.side = .bid then
    let balance := bm.get user .available m.quote
    -- quote_limit == 0 means no extra limit
    if input.quoteLimit = 0 then return balance
    let prec ← bm.assetManager.assetPrec m.quote
    return min balance (truncDp input.quoteLimit prec)
  else
    return 0

/-- The order `put_order` builds from an accepted input. -/
def newOrder (m : Market) (id : ℕ) (now : Timestamp) (input : OrderInput) (user : Uuid) : Order :=
  { id, type_ := input.type_, side := input.side, createTime := now, updateTime := now,
    market := m.name,
    base := m.base, quote := m.quote, user, price := input.price, amount := input.amount,
    takerFee := input.takerFee, makerFee := input.makerFee, remain := input.amount, frozen := 0,
    finishedBase := 0, finishedQuote := 0, finishedFee := 0, postOnly := input.postOnly }

def putOrder (E : Env) (now : Timestamp) (m : Market) (x : Ctx) (input : OrderInput) (user : Uuid) :
    Except Panic (Except String Order × Market × Ctx) := do
  match m.checkInput E x.balanceManager input user with
  | .error e => return (.error e, m, x)
  | .ok () =>
    let quoteLimit ← m.quoteLimit x.balanceManager input user
    let (id, sequencer) := x.sequencer.nextOrderId
    let (order, m, x) ← m.executeOrder E now { x with sequencer } (m.newOrder id now input user)
        quoteLimit
    return (.ok order, m, x)

end Market

end Dingir
