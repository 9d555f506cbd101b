import Dingir.Spec.Controller
import Dingir.Lib.Paging

/-!
# Snapshots and recovery

`persist/state_save_load.rs`: a slice of the database holds the balances, the
resting orders and the counters of a controller (`dump_to_db`); recovery loads
the last slice and replays the operation log after it (`init_from_db`). Tables
are read in pages of `QUERY_LIMIT` rows.

The columns of a slice hold what is written into them.
-/

namespace Dingir

open Keyed Paging

def QUERY_LIMIT : ℕ := 1000

/-- A row of `balance_slice`; `id` is a serial. -/
structure BalanceSlice where
  id : ℕ
  userId : Uuid
  asset : String
  t : BalanceType
  balance : Decimal

/-- A row of `order_slice`. -/
structure OrderSlice where
  id : ℕ
  orderType : OrderType
  orderSide : OrderSide
  createTime : Timestamp
  updateTime : Timestamp
  userId : Uuid
  market : String
  price : Decimal
  amount : Decimal
  takerFee : Decimal
  makerFee : Decimal
  remain : Decimal
  frozen : Decimal
  finishedBase : Decimal
  finishedQuote : Decimal
  finishedFee : Decimal
  postOnly : Bool

structure SliceHistory where
  endOperationLogId : ℕ
  endOrderId : ℕ
  endTradeId : ℕ

/-- The rows of one slice. -/
structure Slice where
  balances : List BalanceSlice
  orders : List OrderSlice
  history : SliceHistory

/-! ## Dumping -/

def OrderSlice.fromOrder (o : Order) : OrderSlice :=
  { id := o.id, orderType := o.type_, orderSide := o.side, createTime := o.createTime,
    updateTime := o.updateTime, userId := o.user, market := o.market, price := o.price,
    amount := o.amount,
    takerFee := o.takerFee, makerFee := o.makerFee, remain := o.remain, frozen := o.frozen,
    finishedBase := o.finishedBase, finishedQuote := o.finishedQuote, finishedFee := o.finishedFee,
    postOnly := o.postOnly }

def dumpBalance (bm : BalanceManager) : List BalanceSlice :=
  bm.balances.entries.zipIdx.map fun e =>
    { id := e.2 + 1, userId := e.1.1.userId, asset := e.1.1.asset, t := e.1.1.balanceType,
      balance := e.1.2 }

def dumpOrders (c : Controller) : List OrderSlice :=
  c.markets.entries.flatMap fun e => (values e.2.orders).map fun rc =>
    OrderSlice.fromOrder (e.2.rcs.read rc)

/-- `dump_to_db`. -/
def Controller.dump (c : Controller) : Slice :=
  { balances := dumpBalance c.balanceManager
    orders := dumpOrders c
    history :=
      { endOperationLogId := c.sequencer.operationLogId, endOrderId := c.sequencer.orderId,
        endTradeId := c.sequencer.tradeId } }

/-! ## Loading -/

/-- The order of a row, as it is built before it is inserted. -/
def OrderSlice.toOrder (row : OrderSlice) (m : Market) : Order :=
  { id := row.id, type_ := row.orderType, side := row.orderSide, createTime := row.createTime,
    updateTime := row.updateTime, market := m.name, base := m.base, quote := m.quote,
    user := row.userId,
    price := row.price, amount := row.amount, takerFee := row.takerFee, makerFee := row.makerFee,
    remain := row.remain, frozen := row.frozen, finishedBase := row.finishedBase,
    finishedQuote := row.finishedQuote, finishedFee := row.finishedFee, postOnly := row.postOnly }

def loadBalance (E : Env) (bm : BalanceManager)
    (row : BalanceSlice) : Except Panic BalanceManager :=
  bm.set E row.userId row.t row.asset row.balance

def loadOrder (E : Env) (markets : HashMap String Market) (row : OrderSlice) :
    Except Panic (HashMap String Market) := do
  let market ← unwrap .marketName (markets.find? row.market)
  let (_, market) ← market.insertOrderIntoOrderbook E (row.toOrder market)
  return markets.insert row.market market

namespace Controller

/-- `load_slice_from_db`. -/
def loadSlice (E : Env) (c : Controller) (slice : Slice) : Except Panic Controller := do
  let balanceManager ← (pages BalanceSlice.id QUERY_LIMIT false slice.balances 0).flatten.foldlM
      (loadBalance E)
    c.balanceManager
  let markets ← (pages OrderSlice.id QUERY_LIMIT false slice.orders 0).flatten.foldlM (loadOrder E)
      c.markets
  return { c with balanceManager, markets }

/-- `load_operation_log_from_db`, from an exclusive start. -/
def loadOperationLog (E : Env) (now : Timestamp) (c : Controller) (log : List OperationLog)
    (start : ℕ) : Except Panic Controller := do
  let rows := (pages OperationLog.id QUERY_LIMIT true log start).flatten
  let c ← rows.foldlM (replay E now) c
  return { c with
    sequencer := c.sequencer.setOperationLogId ((rows.getLast?.map OperationLog.id).getD start) }

/-- `init_from_db`. -/
def initFromDb (E : Env) (now : Timestamp) (c : Controller) (lastSlice : Option Slice)
    (log : List OperationLog) : Except Panic Controller := do
  match lastSlice with
  | none => c.loadOperationLog E now log 0
  | some slice =>
    let c ← c.loadSlice E slice
    let sequencer :=
      (c.sequencer.setOrderId slice.history.endOrderId).setTradeId slice.history.endTradeId
    loadOperationLog E now { c with sequencer } log slice.history.endOperationLogId

end Controller

end Dingir
