import Dingir.Spec.Market

/-!
# The controller

`dto.rs` and `controller.rs`: the entrance of every operation. A call takes the
clock reading `now`, and whether `check_service_available` let it through
(`available`: the queues of the log writer and of the persistor are not full).
A call with `real = false` is a replay: it talks to the dummy persistor and
writes no log.
-/

namespace Dingir

open Keyed

structure BalanceUpdateRequest where
  asset : String
  business : String
  businessId : ℕ
  delta : String
  detail : String

structure OrderPutRequest where
  market : String
  orderSide : ℤ
  orderType : ℤ
  amount : String
  price : String
  quoteLimit : String
  takerFee : String
  makerFee : String
  postOnly : Bool

structure BatchOrderPutRequest where
  market : String
  reset : Bool
  orders : List OrderPutRequest

structure OrderCancelRequest where
  market : String
  orderId : ℕ

structure OrderCancelAllRequest where
  market : String

/-- The logged operations with their params. -/
inductive Operation
  | balanceUpdate (req : BalanceUpdateRequest)
  | orderPut (req : OrderPutRequest)
  | batchOrderPut (req : BatchOrderPutRequest)
  | orderCancel (req : OrderCancelRequest)
  | orderCancelAll (req : OrderCancelAllRequest)

/-- `models::OperationLog`, its `method` and `params` as one operation. -/
structure OperationLog where
  id : ℕ
  userId : Uuid
  time : Timestamp
  operation : Operation

inductive ResultCode
  | success
  | internalError
  deriving DecidableEq

structure BatchOrderPutResponse where
  resultCode : ResultCode
  errorMessage : String
  orderIds : List ℕ

/-- The responses, with an order where the source renders it as an `OrderInfo`. -/
inductive Response
  | balanceUpdate
  | orderInfo (o : Order)
  | batchOrderPut (r : BatchOrderPutResponse)
  | orderCancelAll (total : ℕ)

/-! ## `dto.rs` -/

def strToDecimal (E : Env) (s : String) (allowEmpty : Bool) : Option Decimal :=
  if allowEmpty && s.isEmpty then some 0 else E.decimalFromStr s

/-- A field that must parse, or the text of the error. -/
def orError {α : Type} (e : String) : Option α → Except String α
  | none => .error e
  | some a => .ok a

/-- `TryFrom<OrderPutRequest> for OrderInput`. `Ask` and `Limit` are 0, `Bid` and `Market` 1. -/
def OrderInput.tryFrom (E : Env) (req : OrderPutRequest) : Except String OrderInput := do
  let amount ← orError "invalid amount" (strToDecimal E req.amount false)
  let price ← orError "invalid price" (strToDecimal E req.price (req.orderType = 1))
  let quoteLimit ← orError "invalid quote limit" (strToDecimal E req.quoteLimit true)
  let takerFee ← orError "invalid taker fee" (strToDecimal E req.takerFee true)
  let makerFee ← orError "invalid maker fee" (strToDecimal E req.makerFee true)
  return { side := if req.orderSide = 0 then .ask else .bid,
           type_ := if req.orderType = 0 then .limit else .market,
           amount, price, quoteLimit, takerFee, makerFee, market := req.market,
           postOnly := req.postOnly }

/-! ## The state -/

structure Controller where
  settings : Settings
  sequencer : Sequencer
  balanceManager : BalanceManager
  updateController : BalanceUpdateController
  markets : HashMap String Market
  assetMarketNames : HashMap (String × String) String
  /-- the entries handed to the log writer, in order -/
  logHandler : List OperationLog
  /-- the messages handed to the real persistor, in order -/
  persistor : List Message

/-- What a call gives back: a response or a `Status`, with the state left behind. -/
abbrev Reply (α : Type) := Except Status α × Controller

def unavailable (message : String) : Status := ⟨.unavailable, message⟩

def invalidArgument (message : String) : Status := ⟨.invalidArgument, message⟩

def unknown (message : String) : Status := ⟨.unknown, message⟩

/-- One market of `create_controller`. -/
def createMarket (settings : Settings) (bm : BalanceManager)
    (s : HashMap String Market × HashMap (String × String) String) (entry : MarketConf) :
    Except Panic (HashMap String Market × HashMap (String × String) String) := do
  match ← Market.new entry settings bm with
  | .error _ => throw .marketNew
  | .ok market =>
    return (s.1.insert entry.name market, s.2.insert (entry.base, entry.quote) entry.name)

def createController (settings : Settings) : Except Panic Controller := do
  let balanceManager ← BalanceManager.new settings.assets
  let (markets, assetMarketNames) ← settings.markets.foldlM (createMarket settings balanceManager)
      (∅, ∅)
  return { settings, sequencer := ⟨0, 0, 0, 0⟩, balanceManager,
           updateController := BalanceUpdateController.new, markets, assetMarketNames,
           logHandler := [], persistor := [] }

namespace Controller

/-- The parts a market method borrows, with the persistor the call uses. -/
def ctx (c : Controller) (real : Bool) : Ctx :=
  { sequencer := c.sequencer, balanceManager := c.balanceManager,
    updateController := c.updateController,
    persistor := if real then .real c.persistor else .dummy }

/-- The borrowed parts put back. -/
def withCtx (c : Controller) (x : Ctx) : Controller :=
  { c with sequencer := x.sequencer, balanceManager := x.balanceManager,
           updateController := x.updateController,
           persistor := match x.persistor with
             | .real ms => ms
             | .dummy => c.persistor }

def withMarket (c : Controller) (name : String) (m : Market) (x : Ctx) : Controller :=
  { c.withCtx x with markets := c.markets.insert name m }

def appendOperationLog (c : Controller) (now : Timestamp) (operation : Operation)
    (user : Uuid) : Controller :=
  let (id, sequencer) := c.sequencer.nextOperationLogId
  { c with sequencer, logHandler := c.logHandler ++ [{ id, userId := user, time := now, operation }] }

/-- The log entry of a call that succeeded, written by real calls only. -/
def logged (c : Controller) (now : Timestamp) (real : Bool) (operation : Operation) (user : Uuid) :
    Controller :=
  if real then c.appendOperationLog now operation user else c

/-- The last price of the market of an asset against `USDT`. -/
def marketPrice (c : Controller) (asset : String) : Except Panic Decimal :=
  match c.assetMarketNames.find? (asset, "USDT") with
  | some name => do return (← unwrap .marketName (c.markets.find? name)).price
  | none => .ok 0

/-- The change and the detail of a balance update request. -/
def parseUpdate (E : Env) (prec : ℕ) (req : BalanceUpdateRequest) :
    Except Status (Decimal × Value) := do
  let some delta := E.decimalFromStr req.delta | throw (invalidArgument "invalid amount")
  let change := Rounding.roundDp delta prec
  if req.detail.isEmpty then return (change, .object [])
  let some detail := E.jsonFromStr req.detail | throw (invalidArgument "invalid detail")
  return (change, detail)

/-- What `update_balance` asks of `update_user_balance`. -/
def updateParams (req : BalanceUpdateRequest) (user : Uuid) (marketPrice change : Decimal)
    (detail : Value) : BalanceUpdateParams :=
  { balanceType := .available, businessType := if 0 ≤ change then .deposit else .withdraw,
    userId := user,
    asset := req.asset, business := req.business, businessId := req.businessId, marketPrice, change,
    detail }

def updateBalance (E : Env) (now : Timestamp) (available real : Bool) (c : Controller)
    (req : BalanceUpdateRequest) (user : Uuid) : Except Panic (Reply Response) := do
  if !available then return (.error (unavailable ""), c)
  if !c.balanceManager.assetManager.assetExist req.asset then
    return (.error (invalidArgument "invalid asset"), c)
  let prec ← c.balanceManager.assetManager.assetPrecShow req.asset
  match parseUpdate E prec req with
  | .error status => return (.error status, c)
  | .ok (change, detail) =>
    let marketPrice ← c.marketPrice req.asset
    let (res, x) ← updateUserBalance E now (c.ctx real)
        (updateParams req user marketPrice change detail)
    match res with
    | .error e => return (.error (invalidArgument e), c.withCtx x)
    | .ok () => return (.ok .balanceUpdate, (c.withCtx x).logged now real (.balanceUpdate req) user)

/-- The open orders of a user, over all markets. -/
def totalOrderNum (c : Controller) (user : Uuid) : ℕ :=
  hashTally (fun _ market => market.getOrderNumOfUser user) c.markets

/-- The private `put_order`: the part `order_put` and `batch_order_put` share. -/
def putOrder (E : Env) (now : Timestamp) (real : Bool) (c : Controller) (req : OrderPutRequest)
    (user : Uuid) : Except Panic (Reply Order) := do
  let some market :=
    c.markets.find? req.market | return (.error (invalidArgument "invalid market"), c)
  let totalOrderNum := c.totalOrderNum user
  E.debugAssert .debugAssert (totalOrderNum ≤ c.settings.userOrderNumLimit)
  if totalOrderNum = c.settings.userOrderNumLimit then
    return (.error (unavailable "too many active orders for user"), c)
  match OrderInput.tryFrom E req with
  | .error e => return (.error (invalidArgument ("invalid decimal " ++ e)), c)
  | .ok input =>
    let (res, market, x) ← market.putOrder E now (c.ctx real) input user
    let c := c.withMarket req.market market x
    match res with
    | .error e => return (.error (unknown e), c)
    | .ok order => return (.ok order, c)

def orderPut (E : Env) (now : Timestamp) (available real : Bool) (c : Controller)
    (req : OrderPutRequest) (user : Uuid) : Except Panic (Reply Response) := do
  if !available then return (.error (unavailable ""), c)
  let (res, c) ← c.putOrder E now real req user
  match res with
  | .error status => return (.error status, c)
  | .ok order => return (.ok (.orderInfo order), c.logged now real (.orderPut req) user)

/-- `cancel_all_for_user` on a market of the controller. -/
def cancelAllIn (E : Env) (real : Bool) (c : Controller) (name : String) (market : Market)
    (user : Uuid) : Except Panic (ℕ × Controller) := do
  let (total, market, x) ← market.cancelAllForUser E (c.ctx real) user
  return (total, c.withMarket name market x)

/-- The `reset` loop of `batch_order_put`. -/
def batchReset (E : Env) (real : Bool) (name : String) (user : Uuid) :
    List OrderPutRequest → Controller → Except Panic (Reply Unit)
  | [], c => .ok (.ok (), c)
  | orderReq :: rest, c => do
    if name ≠ orderReq.market then
      return (.error (invalidArgument "inconsistent order markets"), c)
    let market ← unwrap .marketName (c.markets.find? name)
    let (_, c) ← c.cancelAllIn E real name market user
    batchReset E real name user rest c

/-- The loop of `batch_order_put` over its orders; a refused order ends it. -/
def batchPut (E : Env) (now : Timestamp) (real : Bool) (name : String) (user : Uuid) :
    List OrderPutRequest → List ℕ → Controller → Except Panic (Reply BatchOrderPutResponse)
  | [], ids, c => .ok (.ok ⟨.success, "", ids⟩, c)
  | orderReq :: rest, ids, c => do
    if name ≠ orderReq.market then
      return (.error (invalidArgument "inconsistent order markets"), c)
    let (res, c) ← c.putOrder E now real orderReq user
    match res with
    | .ok order => batchPut E now real name user rest (ids ++ [order.id]) c
    | .error status => return (.ok ⟨.internalError, E.statusToString status, ids⟩, c)

/-- The first part of `batch_order_put`: with `reset` the user's orders are cancelled. -/
def batchStart (E : Env) (real : Bool) (c : Controller) (req : BatchOrderPutRequest) (user : Uuid) :
    Except Panic (Reply Unit) :=
  if req.reset then batchReset E real req.market user req.orders c else .ok (.ok (), c)

def batchOrderPut (E : Env) (now : Timestamp) (available real : Bool) (c : Controller)
    (req : BatchOrderPutRequest) (user : Uuid) : Except Panic (Reply Response) := do
  if !available then return (.error (unavailable ""), c)
  if (c.markets.find? req.market).isNone then return (.error (invalidArgument "invalid market"), c)
  let (res, c) ← c.batchStart E real req user
  match res with
  | .error status => return (.error status, c)
  | .ok () =>
    let (res, c) ← batchPut E now real req.market user req.orders [] c
    match res with
    | .error status => return (.error status, c)
    | .ok response =>
      return (.ok (.batchOrderPut response), c.logged now real (.batchOrderPut req) user)

def orderCancel (E : Env) (now : Timestamp) (available real : Bool) (c : Controller)
    (req : OrderCancelRequest) (user : Uuid) : Except Panic (Reply Response) := do
  if !available then return (.error (unavailable ""), c)
  let some market :=
    c.markets.find? req.market | return (.error (invalidArgument "invalid market"), c)
  let some rc :=
    market.orders[req.orderId]? | return (.error (invalidArgument "invalid order_id"), c)
  let order := market.rcs.read rc
  if order.user ≠ user then return (.error (invalidArgument "invalid user"), c)
  let (_, market, x) ← market.cancel E (c.ctx real) order.id
  return (.ok (.orderInfo order),
    (c.withMarket req.market market x).logged now real (.orderCancel req) user)

def orderCancelAll (E : Env) (now : Timestamp) (available real : Bool) (c : Controller)
    (req : OrderCancelAllRequest) (user : Uuid) : Except Panic (Reply Response) := do
  if !available then return (.error (unavailable ""), c)
  let some market :=
    c.markets.find? req.market | return (.error (invalidArgument "invalid market"), c)
  let (total, c) ← c.cancelAllIn E real req.market market user
  return (.ok (.orderCancelAll total), c.logged now real (.orderCancelAll req) user)

/-! ## What is reported of the assets -/

/-- `asset_list_response::AssetInfo` -/
structure ListedAsset where
  symbol : String
  name : String
  precision : ℕ
  deriving DecidableEq

def assetList (c : Controller) : List ListedAsset :=
  c.settings.assets.map fun item =>
    { symbol := item.symbol, name := item.name, precision := item.precShow }

/-- `balance_query_response::AssetBalance` -/
structure AssetBalance where
  assetId : String
  available : String
  frozen : String
  deriving DecidableEq

def assetBalance (E : Env) (c : Controller) (user : Uuid) (assetId : String) :
    Except Panic AssetBalance := do
  let available ← c.balanceManager.getWithRound user .available assetId
  let frozen ← c.balanceManager.getWithRound user .freeze assetId
  return { assetId, available := E.decimalToString available, frozen := E.decimalToString frozen }

/-- `balance_query`; without a filter it asks for every asset of the settings. -/
def balanceQuery (E : Env) (c : Controller) (assets : List String) (user : Uuid) :
    Except Panic (Except Status (List AssetBalance)) := do
  if !assets.all (fun param => c.settings.assets.any fun asset => asset.id = param) then
    return .error (invalidArgument "invalid asset")
  let queryAssets := if assets.isEmpty then c.settings.assets.map AssetConf.id else assets
  return .ok (← queryAssets.mapM (c.assetBalance E user))

/-- `reset_state`. -/
def resetState (c : Controller) : Controller :=
  { c with sequencer := c.sequencer.reset, balanceManager := c.balanceManager.reset,
           updateController := c.updateController.reset,
           markets := mapValues Market.reset c.markets }

end Controller

/-- One call of the controller. -/
structure Request where
  now : Timestamp
  available : Bool
  real : Bool
  user : Uuid
  operation : Operation

/-- **A call of the controller.** -/
def Controller.call (E : Env) (c : Controller) (q : Request) : Except Panic (Reply Response) :=
  match q.operation with
  | .balanceUpdate req => c.updateBalance E q.now q.available q.real req q.user
  | .orderPut req => c.orderPut E q.now q.available q.real req q.user
  | .batchOrderPut req => c.batchOrderPut E q.now q.available q.real req q.user
  | .orderCancel req => c.orderCancel E q.now q.available q.real req q.user
  | .orderCancelAll req => c.orderCancelAll E q.now q.available q.real req q.user

/-- `replay` of a log entry, then its `unwrap` in `load_operation_log_from_db`. The
queues are empty during recovery. -/
def Controller.replay (E : Env) (now : Timestamp) (c : Controller) (log : OperationLog) :
    Except Panic Controller := do
  let (res, c) ← c.call E { now, available := true, real := false, user := log.userId,
                            operation := log.operation }
  match res with
  | .error _ => throw .replay
  | .ok _ => return c

end Dingir
