import Dingir.Lib.Grouping
import Dingir.Spec.Range

/-!
# The depth of a book

`depth` of `market/mod.rs` and `order_book_depth` of the controller: the resting
orders of each side, grouped by price, or by the price rounded to a multiple of an
interval. The quotients, multiples and totals are `Decimal`s, rounded and bounded as
such; where one is out of range the call panics (`none`).
-/

namespace Dingir

open Keyed Grouping

structure PriceInfo where
  price : Decimal
  amount : Decimal
  deriving DecidableEq

structure MarketDepth where
  asks : List PriceInfo
  bids : List PriceInfo
  deriving DecidableEq

namespace Market

/-- The orders behind the handles of an index, in its order. -/
def ordersOf (m : Market) (rcs : List OrderRc) : List Order := rcs.map m.rcs.read

/-- What is shown of the orders of one level. -/
def priceInfo (level : Decimal × List Order) : Option PriceInfo :=
  (sumDecimal (level.2.map Order.remain)).map (PriceInfo.mk level.1)

/-- `group_by` looks at the prices one after the other, up to the first behind the last level
taken. -/
def groupOrdebookByFn (orderbook : List Order) (limit : ℕ)
    (f : Order → Option Decimal) : Option (List PriceInfo) :=
  (groupUpTo f limit orderbook).bind fun levels => levels.mapM priceInfo

/-- `ask_group_fn`, or `id_fn`. -/
def askGroupFn (interval : Decimal) (order : Order) : Option Decimal :=
  if interval = 0 then some order.price
  else (divDecimal order.price interval).bind fun quotient => mulDecimal ⌈quotient⌉ interval

/-- `bid_group_fn`, or `id_fn`. -/
def bidGroupFn (interval : Decimal) (order : Order) : Option Decimal :=
  if interval = 0 then some order.price
  else (divDecimal order.price interval).bind fun quotient => mulDecimal ⌊quotient⌋ interval

def depth (m : Market) (limit : ℕ) (interval : Decimal) : Option MarketDepth := do
  let asks ← groupOrdebookByFn (m.ordersOf (values m.asks)) limit (askGroupFn interval)
  let bids ← groupOrdebookByFn (m.ordersOf (values m.bids)) limit (bidGroupFn interval)
  return { asks, bids }

end Market

structure OrderBookDepthRequest where
  market : String
  limit : ℤ
  interval : String

/-- A price and an amount as they are printed. -/
structure OrderBookDepthInfo where
  price : String
  amount : String
  deriving DecidableEq

structure OrderBookDepthResponse where
  asks : List OrderBookDepthInfo
  bids : List OrderBookDepthInfo
  deriving DecidableEq

/-- `as usize` of an `i32`. -/
def asUsize (n : ℤ) : ℕ := (n % 2 ^ 64).toNat

/-- The interval of a request; an empty one does not group. -/
def parseInterval (E : Env) (interval : String) : Option Decimal :=
  if interval.isEmpty then some 0 else E.decimalFromStr interval

def PriceInfo.convert (E : Env) (info : PriceInfo) : OrderBookDepthInfo :=
  ⟨E.decimalToString info.price, E.decimalToString info.amount⟩

def MarketDepth.convert (E : Env) (depth : MarketDepth) : OrderBookDepthResponse :=
  { asks := depth.asks.map (PriceInfo.convert E), bids := depth.bids.map (PriceInfo.convert E) }

def Controller.orderBookDepth (E : Env) (c : Controller) (req : OrderBookDepthRequest) :
    Option (Except Status OrderBookDepthResponse) :=
  match c.markets.find? req.market with
  | none => some (.error (invalidArgument "invalid market"))
  | some market =>
    match parseInterval E req.interval with
    | none => some (.error (invalidArgument "invalid interval"))
    | some interval => (market.depth (asUsize req.limit) interval).map fun depth =>
      .ok (depth.convert E)

end Dingir
