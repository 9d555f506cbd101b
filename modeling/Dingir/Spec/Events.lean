import Dingir.Spec.Run
import Dingir.Lib.Stream

/-!
# The stream of messages, retold

What somebody who sees only the messages of the persistor knows: `Story` is the
set of open orders that the messages tell, and `ClosedOrder` is the part of
`message/persist.rs` that turns a message about a finished order into a row of
`order_history` (`history.rs`).

A call that is replayed persists nothing. `Controller.tells` is what it would
have told, and `History` the messages of all that led to a state: loading a slice
goes back to the messages of the state that was dumped.
-/

namespace Dingir

/-! ## The rows of `order_history` -/

inductive OrderStatus
  | active
  | filled
  | cancelled
  | expired
  deriving DecidableEq

/-- `models::OrderHistory`. -/
structure OrderHistory where
  id : ℕ
  createTime : Timestamp
  finishTime : Timestamp
  userId : Uuid
  status : OrderStatus
  market : String
  orderType : OrderType
  orderSide : OrderSide
  price : Decimal
  amount : Decimal
  takerFee : Decimal
  makerFee : Decimal
  finishedBase : Decimal
  finishedQuote : Decimal
  finishedFee : Decimal
  postOnly : Bool
  deriving DecidableEq

def OrderHistory.fromOrder (order : Order) : OrderHistory :=
  { id := order.id, createTime := order.createTime, finishTime := order.updateTime,
    userId := order.user,
    status := if order.remain = 0 then .filled else .cancelled, market := order.market,
    orderType := order.type_,
    orderSide := order.side, price := order.price, amount := order.amount,
    takerFee := order.takerFee,
    makerFee := order.makerFee, finishedBase := order.finishedBase,
    finishedQuote := order.finishedQuote,
    finishedFee := order.finishedFee, postOnly := order.postOnly }

/-- `ClosedOrder::into`. -/
def ClosedOrder.into (m : OrderMessage) : Option OrderHistory :=
  match m.event with
  | .finish => some (.fromOrder m.order)
  | _ => none

/-- The rows the order messages of a stream become. -/
def orderHistoryRows (ms : List Message) : List OrderHistory :=
  ms.filterMap fun
    | .orderMessage m => ClosedOrder.into m
    | _ => none

/-! ## The rows of `market_trade` -/

/-- `models::MarketTrade`. -/
structure MarketTrade where
  time : Timestamp
  market : String
  tradeId : ℕ
  price : Decimal
  amount : Decimal
  quoteAmount : Decimal
  takerSide : OrderSide
  deriving DecidableEq

/-- `MarketTrade::from`: the side of the taker is told by the ids alone. -/
def MarketTrade.fromTrade (origin : Trade) : MarketTrade :=
  { time := origin.timestamp, market := origin.market, tradeId := origin.id, price := origin.price,
    amount := origin.amount, quoteAmount := origin.quoteAmount,
    takerSide := if origin.askOrderId < origin.bidOrderId then .bid else .ask }

/-! ## The ids that were issued -/

/-- The ids of the orders that were put, in turn. -/
def orderIds (ms : List Message) : List ℕ :=
  ms.filterMap fun
    | .orderMessage m => if m.event = .put then some m.order.id else none
    | _ => none

/-- The ids of the trades that were made, in turn. -/
def tradeIds (ms : List Message) : List ℕ :=
  ms.filterMap fun
    | .tradeMessage t => some t.id
    | _ => none

/-- The ids were issued strictly increasing, all from 1 up to `last`. -/
structure IssuedInTurn (ids : List ℕ) (last : ℕ) : Prop where
  increasing : ids.Pairwise (· < ·)
  all : ∀ id, id ∈ ids ↔ 0 < id ∧ id ≤ last

/-- One side of the trade took, the other made, and the order of the one that took is the newer. -/
def Trade.TakenByNewer (t : Trade) : Prop :=
  (t.askRole = .taker ∧ t.bidRole = .maker ∧ t.bidOrderId < t.askOrderId) ∨
    (t.askRole = .maker ∧ t.bidRole = .taker ∧ t.askOrderId < t.bidOrderId)

/-- The states in which a request puts an order: for a batch, when it starts and after each of its
orders. -/
inductive Controller.PutsIn (E : Env) (c : Controller) (q : Request) : Controller → Prop
  | order {req : OrderPutRequest} : q.operation = .orderPut req → c.PutsIn E q c
  | batch {req : BatchOrderPutRequest} {e : Controller} : q.operation = .batchOrderPut req →
      c.batchStart E q.real req q.user = .ok (.ok (), e) → c.PutsIn E q e
  | next {req : OrderPutRequest} {o : Order} {e e' : Controller} : c.PutsIn E q e →
      e.putOrder E q.now q.real req q.user = .ok (.ok o, e') → c.PutsIn E q e'

/-! ## The open orders the messages tell -/

/-- An order as the messages tell it: the times and what it froze are left out. -/
def Order.told (o : Order) : Order := { o with createTime := 0, updateTime := 0, frozen := 0 }

/-- The share of an order in a trade. -/
def Order.plusTrade (o : Order) (amount quoteAmount fee : Decimal) : Order :=
  { o with remain := o.remain - amount, finishedBase := o.finishedBase + amount,
           finishedQuote := o.finishedQuote + quoteAmount, finishedFee := o.finishedFee + fee }

/-- The newest id that was put, and the open orders by their id. -/
structure Story where
  last : ℕ
  book : ℕ → Option Order

namespace Story

def empty : Story := ⟨0, fun _ => none⟩

def set (s : Story) (id : ℕ) (o : Option Order) : Story :=
  { s with book := fun i => if i = id then o else s.book i }

/-- A put adds the order with nothing filled, a finish takes it away. -/
def applyOrder (s : Story) : OrderEventType → Order → Story
  | .put, o => { s.set o.id (some { o.told with remain := o.amount }) with last := o.id }
  | .finish, o => s.set o.id none
  | _, _ => s

/-- A trade fills the two orders it names, each with the fee of its side. -/
def applyTrade (s : Story) (t : Trade) : Story :=
  { s with book := fun id =>
      if id = t.askOrderId then (s.book id).map fun o => o.plusTrade t.amount t.quoteAmount t.askFee
      else if id = t.bidOrderId then
        (s.book id).map fun o => o.plusTrade t.amount t.quoteAmount t.bidFee
      else s.book id }

def apply (s : Story) : Message → Story
  | .orderMessage m => s.applyOrder m.event m.order
  | .tradeMessage t => s.applyTrade t
  | _ => s

/-- A put comes with the next id and nothing filled; an update or a finish carries
the order as the messages before it tell it. -/
def admitsOrder (s : Story) : OrderEventType → Order → Prop
  | .put, o => o.id = s.last + 1 ∧ o.remain = o.amount ∧ o.finishedBase = 0 ∧ o.finishedQuote = 0 ∧
      o.finishedFee = 0
  | .update, o => s.book o.id = some o.told
  | .finish, o => s.book o.id = some o.told
  | .expired, _ => False

/-- A trade names two open orders, and carries them as they are told. -/
structure AdmitsTrade (s : Story) (t : Trade) : Prop where
  ask : (s.book t.askOrderId).isSome
  bid : (s.book t.bidOrderId).isSome
  ne : t.askOrderId ≠ t.bidOrderId
  askOrder : ∀ o, t.askOrder = some o → o.id = t.askOrderId ∧ s.book o.id = some o.told
  bidOrder : ∀ o, t.bidOrder = some o → o.id = t.bidOrderId ∧ s.book o.id = some o.told

def admits (s : Story) : Message → Prop
  | .orderMessage m => s.admitsOrder m.event m.order
  | .tradeMessage t => s.AdmitsTrade t
  | _ => True

/-- The rules of the story. -/
def rules : Stream.Rules Story Message := ⟨apply, admits⟩

end Story

/-- The story the messages tell from the beginning. -/
abbrev retold (ms : List Message) : Story := Stream.after Story.rules Story.empty ms

/-! ## What a message says about an order -/

/-- The message is about the order with this id. -/
def Message.Names (id : ℕ) : Message → Prop
  | .orderMessage m => m.order.id = id
  | .tradeMessage t => t.askOrderId = id ∨ t.bidOrderId = id
  | _ => False

/-- The message puts, or finishes, the order with this id. -/
def Message.Marks (event : OrderEventType) (id : ℕ) : Message → Prop
  | .orderMessage m => m.event = event ∧ m.order.id = id
  | _ => False

/-- The orders a message carries. -/
def Message.orders : Message → List Order
  | .orderMessage m => [m.order]
  | .tradeMessage t => t.askOrder.toList ++ t.bidOrder.toList
  | _ => []

/-- The trades of a stream that name an order. -/
def tradesOf (id : ℕ) (ms : List Message) : List Trade :=
  ms.filterMap fun
    | .tradeMessage t => if t.askOrderId = id ∨ t.bidOrderId = id then some t else none
    | _ => none

/-- The fee of the side of an order in a trade that names it. -/
def Trade.feeOf (t : Trade) (id : ℕ) : Decimal := if t.askOrderId = id then t.askFee else t.bidFee

/-- The same terms: all of an order that is fixed when it is created, but for the time. -/
structure Order.SameTerms (o p : Order) : Prop where
  id : o.id = p.id
  base : o.base = p.base
  quote : o.quote = p.quote
  market : o.market = p.market
  type_ : o.type_ = p.type_
  side : o.side = p.side
  user : o.user = p.user
  postOnly : o.postOnly = p.postOnly
  price : o.price = p.price
  amount : o.amount = p.amount
  makerFee : o.makerFee = p.makerFee
  takerFee : o.takerFee = p.takerFee

/-- What is filled of an order is what the trades that name it sum to. -/
structure Order.Sums (o : Order) (ts : List Trade) : Prop where
  remain : o.remain + o.finishedBase = o.amount
  finishedBase : o.finishedBase = (ts.map Trade.amount).sum
  finishedQuote : o.finishedQuote = (ts.map Trade.quoteAmount).sum
  finishedFee : o.finishedFee = (ts.map fun t => t.feeOf o.id).sum

/-- The order is filled by the trades told so far, on the terms it was put with. -/
structure Order.Accounted (o : Order) (ms : List Message) : Prop where
  sums : o.Sums (tradesOf o.id ms)
  terms : ∃ m, Message.orderMessage m ∈ ms ∧ m.event = .put ∧ o.SameTerms m.order

/-- What had been told of the orders a message carries: a trade carries them as they were before
it. -/
def toldUpTo (pre : List Message) : Message → List Message
  | .tradeMessage _ => pre
  | m => pre ++ [m]

/-- An order put after the messages `ms` is accounted for when it is handed out; the
persistor held `before` when the call began. -/
def PutAccounted (E : Env) (now : Timestamp) (u : Uuid) (before ms : List Message) (m : Market)
    (x : Ctx) (input : OrderInput) : Prop :=
  ∀ o m' x' new, m.putOrder E now x input u = .ok (.ok o, m', x') →
    x'.persistor = .real (before ++ new) →
    o.Accounted (ms ++ new)

/-! ## The messages that led to a state -/

/-- What a call tells, or would tell if it were not replayed. -/
def Controller.tells (E : Env) (c : Controller) (q : Request) : List Message :=
  match c.call E { q with real := true } with
  | .ok (_, c') => c'.persistor.drop c.persistor.length
  | .error _ => []

/-- **The messages behind a state**: those of its calls, real or replayed, up to the
slice it was loaded from, and those that had led to that slice. -/
inductive History (E : Env) (settings : Settings) : Controller → List Message → Prop
  | init {c : Controller} : createController settings = .ok c → History E settings c []
  | call {c c' : Controller} {ms : List Message} {q : Request} {reply : Except Status Response} :
      History E settings c ms → c.call E q = .ok (reply, c') →
      History E settings c' (ms ++ c.tells E q)
  | reset {c : Controller} {ms : List Message} : History E settings c ms →
      History E settings c.resetState []
  | load {c d b c' : Controller} {ms ms' : List Message} : History E settings c ms →
      History E settings d ms' →
      Startable settings d b → b.loadSlice E c.dump = .ok c' →
      History E settings
        { c' with
          sequencer := (c'.sequencer.setOrderId c.dump.history.endOrderId).setTradeId
            c.dump.history.endTradeId } ms
  | logId {c : Controller} {ms : List Message} {id : ℕ} : History E settings c ms →
      History E settings { c with sequencer := c.sequencer.setOperationLogId id } ms

end Dingir
