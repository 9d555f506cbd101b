import Dingir.Spec.Types
import Dingir.Lib.Heap

/-!
# Orders, trades and the messages about them

`market/order.rs`, `market/trade.rs`, and the calls of `PersistExector` that
`persistor.rs` records. An `OrderRc` is a handle into a heap of orders: the
`orders`, `users`, `asks` and `bids` maps of a market share the order behind it.
-/

namespace Dingir

open Std

structure Order where
  id : ℕ
  base : String
  quote : String
  market : String
  type_ : OrderType
  side : OrderSide
  user : Uuid
  postOnly : Bool
  price : Decimal
  amount : Decimal
  makerFee : Decimal
  takerFee : Decimal
  createTime : Timestamp
  -- the changeable part
  remain : Decimal
  frozen : Decimal
  finishedBase : Decimal
  finishedQuote : Decimal
  finishedFee : Decimal
  updateTime : Timestamp
  deriving DecidableEq, Inhabited

/-- A handle of an order in the heap of its market. -/
abbrev OrderRc := ℕ

structure MarketKeyAsk where
  orderPrice : Decimal
  orderId : ℕ
  deriving DecidableEq

structure MarketKeyBid where
  orderPrice : Decimal
  orderId : ℕ
  deriving DecidableEq

/-- Asks by ascending price, then by id. -/
instance : Ord MarketKeyAsk where
  compare a b := (compare a.orderPrice b.orderPrice).then (compare a.orderId b.orderId)

/-- Bids by descending price, then by id. -/
instance : Ord MarketKeyBid where
  compare a b := (compare a.orderPrice b.orderPrice).swap.then (compare a.orderId b.orderId)

instance : TransOrd MarketKeyAsk :=
  inferInstanceAs
    (TransCmp (compareLex (compareOn MarketKeyAsk.orderPrice) (compareOn MarketKeyAsk.orderId)))

instance : LawfulEqOrd MarketKeyAsk where
  eq_of_compare {a b} h := by
    obtain ⟨hp, hi⟩ := Ordering.then_eq_eq.1 h
    cases a; cases b
    exact congrArg₂ MarketKeyAsk.mk (LawfulEqCmp.eq_of_compare hp) (LawfulEqCmp.eq_of_compare hi)

theorem compare_bid (a b : MarketKeyBid) :
    compare a b = compareLex (fun a b : MarketKeyBid => compare b.orderPrice a.orderPrice)
      (compareOn MarketKeyBid.orderId) a b := by
  show ((compare a.orderPrice b.orderPrice).swap.then _) = _
  have hswap : compare a.orderPrice b.orderPrice = (compare b.orderPrice a.orderPrice).swap :=
    OrientedCmp.eq_swap
  rw [hswap, Ordering.swap_swap]
  rfl

instance : TransOrd MarketKeyBid := by
  have : (compare : MarketKeyBid → MarketKeyBid → Ordering) =
      compareLex (fun a b : MarketKeyBid => compare b.orderPrice a.orderPrice)
        (compareOn MarketKeyBid.orderId) := by
    funext a b; exact compare_bid a b
  have h1 : TransCmp (fun a b : MarketKeyBid => compare b.orderPrice a.orderPrice) :=
    @TransCmp.opposite _ (compareOn MarketKeyBid.orderPrice) _
  unfold TransOrd
  rw [this]
  infer_instance

instance : LawfulEqOrd MarketKeyBid where
  eq_of_compare {a b} h := by
    obtain ⟨hp, hi⟩ := Ordering.then_eq_eq.1 h
    cases a; cases b
    exact congrArg₂ MarketKeyBid.mk (LawfulEqCmp.eq_of_compare (Ordering.swap_eq_eq.1 hp))
      (LawfulEqCmp.eq_of_compare hi)

namespace Order

def askKey (o : Order) : MarketKeyAsk := ⟨o.price, o.id⟩

def bidKey (o : Order) : MarketKeyBid := ⟨o.price, o.id⟩

def isAsk (o : Order) : Bool := o.side = .ask

/-- What an order freezes while it rests. -/
def restFrozen (o : Order) : Decimal := if o.side = .ask then o.remain else o.remain * o.price

/-- An order as it comes to rest. -/
def rested (o : Order) : Order := { o with frozen := o.restFrozen }

def touched (o : Order) (now : Timestamp) : Order := { o with updateTime := now }

end Order

structure OrderInput where
  side : OrderSide
  type_ : OrderType
  amount : Decimal
  price : Decimal
  quoteLimit : Decimal
  takerFee : Decimal
  makerFee : Decimal
  market : String
  postOnly : Bool

/-! ## Trades -/

structure VerboseOrderState where
  userId : Uuid
  orderId : ℕ
  orderSide : OrderSide
  finishedBase : Decimal
  finishedQuote : Decimal
  finishedFee : Decimal
  deriving DecidableEq

structure VerboseBalanceState where
  userId : Uuid
  asset : String
  balance : Decimal
  deriving DecidableEq

structure VerboseTradeState where
  orderStates : List VerboseOrderState
  balanceStates : List VerboseBalanceState
  deriving DecidableEq

structure Trade where
  id : ℕ
  timestamp : Timestamp
  market : String
  base : String
  quote : String
  price : Decimal
  amount : Decimal
  quoteAmount : Decimal
  askUserId : Uuid
  askOrderId : ℕ
  askRole : MarketRole
  askFee : Decimal
  bidUserId : Uuid
  bidOrderId : ℕ
  bidRole : MarketRole
  bidFee : Decimal
  -- only at the first trade of the order
  askOrder : Option Order
  bidOrder : Option Order
  stateBefore : VerboseTradeState
  stateAfter : VerboseTradeState
  deriving DecidableEq

/-! ## What the persistor is given -/

structure BalanceHistory where
  time : Timestamp
  userId : Uuid
  businessId : ℕ
  asset : String
  business : String
  marketPrice : Decimal
  change : Decimal
  balance : Decimal
  balanceAvailable : Decimal
  balanceFrozen : Decimal
  detail : String
  deriving DecidableEq

structure OrderMessage where
  event : OrderEventType
  order : Order
  base : String
  quote : String
  deriving DecidableEq

def OrderMessage.fromOrder (o : Order) (atStep : OrderEventType) : OrderMessage :=
  { event := atStep, order := o, base := o.base, quote := o.quote }

inductive Message
  | balanceMessage (b : BalanceHistory)
  | depositMessage (b : BalanceHistory)
  | withdrawMessage (b : BalanceHistory)
  | orderMessage (o : OrderMessage)
  | tradeMessage (t : Trade)
  deriving DecidableEq

/-- A `PersistExector`: a real one, with the messages it was given in order, or
`DummyPersistor`, which drops them. -/
inductive PersistExector
  | real (messages : List Message)
  | dummy

namespace PersistExector

def realPersist : PersistExector → Bool
  | real _ => true
  | dummy => false

def push (m : Message) : PersistExector → PersistExector
  | real ms => real (ms ++ [m])
  | dummy => dummy

def putBalance (p : PersistExector) (b : BalanceHistory) : PersistExector :=
  p.push (.balanceMessage b)

def putDeposit (p : PersistExector) (b : BalanceHistory) : PersistExector :=
  p.push (.depositMessage b)

def putWithdraw (p : PersistExector) (b : BalanceHistory) : PersistExector :=
  p.push (.withdrawMessage b)

def putOrder (p : PersistExector) (o : Order) (atStep : OrderEventType) : PersistExector :=
  p.push (.orderMessage (OrderMessage.fromOrder o atStep))

def putTrade (p : PersistExector) (t : Trade) : PersistExector := p.push (.tradeMessage t)

end PersistExector

end Dingir
