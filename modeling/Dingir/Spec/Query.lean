import Dingir.Spec.Depth

/-!
# The queries

The read side of `controller.rs`: the open orders of a user page by page, one order,
the list of the markets and their summaries, with `From<market::Order> for OrderInfo`
of `dto.rs` and `status` of `balance_manager.rs`.

Two things these call lie outside the repository, and are parameters (`QueryEnv`):
`FTimestamp::as_milliseconds`, and `MergeSortIterator::compare_by`, which merges the
lists of the markets into one.
-/

namespace Dingir

open Keyed

/-- What the queries call besides the engine. -/
structure QueryEnv extends Env where
  /-- `FTimestamp::as_milliseconds` -/
  asMilliseconds : Timestamp → ℤ
  /-- `MergeSortIterator::compare_by`, in `SortOrder::Desc` by id -/
  compareBy : List (List Order) → List Order

/-- An iterator that merges: it yields what its inputs do, and in descending order when
they come in descending order. -/
structure QueryEnv.Merges (R : QueryEnv) : Prop where
  perm : ∀ ls, (R.compareBy ls).Perm ls.flatten
  sorted : ∀ ls, (∀ l ∈ ls, l.Pairwise fun a b => b.id ≤ a.id) →
    (R.compareBy ls).Pairwise fun a b => b.id ≤ a.id

structure OrderInfo where
  id : ℕ
  market : String
  orderType : ℤ
  orderSide : ℤ
  createTime : ℤ
  updateTime : ℤ
  price : String
  amount : String
  takerFee : String
  makerFee : String
  remain : String
  finishedBase : String
  finishedQuote : String
  finishedFee : String
  postOnly : Bool
  deriving DecidableEq

/-- `From<market::Order> for OrderInfo`. -/
def OrderInfo.fromOrder (R : QueryEnv) (o : Order) : OrderInfo :=
  { id := o.id
    market := o.market
    orderType := if o.type_ = .limit then 0 else 1
    orderSide := if o.side = .ask then 0 else 1
    createTime := R.asMilliseconds o.createTime
    updateTime := R.asMilliseconds o.updateTime
    price := R.decimalToString o.price
    amount := R.decimalToString o.amount
    takerFee := R.decimalToString o.takerFee
    makerFee := R.decimalToString o.makerFee
    remain := R.decimalToString o.remain
    finishedBase := R.decimalToString o.finishedBase
    finishedQuote := R.decimalToString o.finishedQuote
    finishedFee := R.decimalToString o.finishedFee
    postOnly := o.postOnly }

/-- `as i32` of a `usize`. -/
def asI32 (n : ℕ) : ℤ := (n : ℤ).bmod (2 ^ 32)

/-! ## One market -/

/-- `Market::get` -/
def Market.get (m : Market) (orderId : ℕ) : Option Order := (m.orders[orderId]?).map m.rcs.read

/-- The open orders of a user on a market, the newest first. -/
def Market.openOrders (m : Market) (user : Uuid) : List Order :=
  ((m.users[user]?).map fun orderMap => (values orderMap).reverse.map m.rcs.read).getD []

/-! ## Orders -/

structure OrderQueryRequest where
  market : String
  offset : ℤ
  limit : ℤ

structure OrderQueryResponse where
  offset : ℤ
  limit : ℤ
  total : ℤ
  orders : List OrderInfo
  deriving DecidableEq

structure OrderDetailRequest where
  market : String
  orderId : ℕ

/-- How many orders a page has: 10 where the request does not say, and never more than 100. -/
def orderLimit (limit : ℤ) : ℤ :=
  let maxOrderNum := 100
  let defaultOrderNum := 10
  if limit ≤ 0 then defaultOrderNum else if maxOrderNum < limit then maxOrderNum else limit

namespace Controller

/-- The markets a query is about. -/
def marketsOf (c : Controller) (market : String) : List Market :=
  (c.markets.entries.filter fun e => market = "all" ∨ market = e.1).map Sigma.snd

/-- The open orders of a user on these markets, merged. -/
def openOrders (R : QueryEnv) (c : Controller) (market : String) (user : Uuid) : List Order :=
  R.compareBy ((c.marketsOf market).map fun m => m.openOrders user)

def orderQuery (R : QueryEnv) (c : Controller) (req : OrderQueryRequest) (user : Uuid) :
    Except Status OrderQueryResponse := do
  if req.market ≠ "all" ∧ (c.markets.find? req.market).isNone then
    throw (invalidArgument "invalid market")
  let limit := orderLimit req.limit
  let totalOrderCount := ((c.marketsOf req.market).map fun m =>
    ((m.users[user]?).map fun orderMap => orderMap.size).getD 0).sum
  let orders :=
    (((c.openOrders R req.market user).drop (asUsize req.offset)).take (asUsize limit)).map
    (OrderInfo.fromOrder R)
  return { offset := req.offset, limit, total := asI32 totalOrderCount, orders }

def orderDetail (R : QueryEnv) (c : Controller)
    (req : OrderDetailRequest) : Except Status OrderInfo := do
  let some market := c.markets.find? req.market | throw (invalidArgument "invalid market")
  let some order := market.get req.orderId | throw (invalidArgument "invalid order_id")
  return .fromOrder R order

end Controller

/-! ## Markets -/

structure MarketSummary where
  name : String
  askCount : ℤ
  askAmount : String
  bidCount : ℤ
  bidAmount : String
  tradeCount : ℕ
  deriving DecidableEq

def MarketStatus.summary (E : Env) (status : MarketStatus) : MarketSummary :=
  { name := status.name
    askCount := asI32 status.askCount
    askAmount := E.decimalToString status.askAmount
    bidCount := asI32 status.bidCount
    bidAmount := E.decimalToString status.bidAmount
    tradeCount := status.tradeCount }

namespace Controller

/-- The `unwrap` of a market that is not there is a panic. -/
def marketSummary (E : Env) (c : Controller) (markets : List String) :
    Except Panic (Except Status (List MarketSummary)) := do
  if markets.any fun market => (c.markets.find? market).isNone then
    return .error (invalidArgument "invalid market")
  let markets := if markets.isEmpty then c.markets.keys else markets
  let summaries ← markets.mapM fun market => do
    let m ← unwrap .marketName (c.markets.find? market)
    return m.status.summary E
  return .ok summaries

end Controller

/-! ## The balances of an asset -/

structure BalanceStatus where
  total : Decimal
  availableCount : ℕ
  available : Decimal
  frozenCount : ℕ
  frozen : Decimal
  deriving DecidableEq

namespace BalanceStatus

def default : BalanceStatus := ⟨0, 0, 0, 0, 0⟩

/-- One entry of the loop of `status`. -/
def count (asset : String) (result : BalanceStatus) (k : BalanceMapKey)
    (amount : Decimal) : BalanceStatus :=
  if k.asset = asset ∧ amount ≠ 0 then
    if k.balanceType = .available then
      { result with
        total := result.total + amount
        availableCount := result.availableCount + 1
        available := result.available + amount }
    else
      { result with
        total := result.total + amount
        frozenCount := result.frozenCount + 1
        frozen := result.frozen + amount }
  else result

end BalanceStatus

def BalanceManager.status (bm : BalanceManager) (asset : String) : BalanceStatus :=
  bm.balances.entries.foldl (fun result e => result.count asset e.1 e.2) .default

end Dingir
