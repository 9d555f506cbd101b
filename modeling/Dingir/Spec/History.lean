import Dingir.Lib.Table
import Dingir.Spec.Pipeline

/-!
# The history as it is read

The tables that the writers of the persistor fill, and the handlers of the REST server
that read them: `my_orders` (`restapi/personal_history.rs`) and `order_trades`
(`restapi/public_history.rs`).

The key of `order_history` is the id of the order, and every insert ends in
`ON CONFLICT DO NOTHING`; `user_trade` has no key but its serial number.

Left out are the texts of numbers and times in an answer, the digits that a column keeps,
and what a query answers when the database fails.
-/

namespace Dingir

/-! ## The tables -/

/-- A row of the writer `persistor_trade`. -/
def TradeRow.userTrade? : TradeRow → Option UserTrade
  | .userTrade row => some row
  | .marketTrade _ => none

namespace Pipeline

/-- `order_history` -/
def orderHistory (s : Pipeline OrderMessage OrderHistory) : Table.Unique OrderHistory.id :=
  Table.Unique.empty.insertAll ((s.rows 0).map MessageRow.row)

/-- `user_trade` -/
def userTrades (s : Pipeline Trade TradeRow) : List UserTrade :=
  (s.rows 1).filterMap fun r => r.row.userTrade?

end Pipeline

/-! ## `my_orders` -/

/-- The path and the query of a request; `limit` and `offset` are what they are parsed to. -/
structure MyOrdersRequest where
  market : String
  limit : Option ℕ
  offset : Option ℕ

/-- `OrderResponse` of `personal_history.rs`. -/
structure OrderResponse where
  total : ℕ
  orders : List OrderHistory

/-- The rows of a user, on a market or on all of them. -/
def ordersWhere (table : List OrderHistory) (market : String) (userId : Uuid) : List OrderHistory :=
  table.filter fun row => (market = "all" ∨ row.market = market) ∧ row.userId = userId

def myOrders (table : List OrderHistory) (req : MyOrdersRequest) (userId : Uuid) : OrderResponse :=
  let limit := min 100 (req.limit.getD 20)
  let offset := req.offset.getD 0
  -- order by id desc
  let rows := (ordersWhere table req.market userId).insertionSort fun row row' => row'.id ≤ row.id
  { total := (ordersWhere table req.market userId).length, orders := (rows.drop offset).take limit }

/-! ## `order_trades` -/

/-- `types::MarketTrade`. -/
structure OrderTrade where
  tradeId : ℕ
  time : Timestamp
  amount : Decimal
  quoteAmount : Decimal
  price : Decimal
  fee : Decimal
  deriving DecidableEq

/-- What is shown of a row of `user_trade`. -/
def UserTrade.shown (row : UserTrade) : OrderTrade :=
  { tradeId := row.tradeId, time := row.time, amount := row.amount, quoteAmount := row.quoteAmount,
    price := row.price,
    fee := row.fee }

def orderTrades (table : List UserTrade) (market : String) (orderId : ℕ) : List OrderTrade :=
  -- order by trade_id, time asc
  ((table.filter fun row => row.market = market ∧ row.orderId = orderId).insertionSort
    fun row row' =>
    row.tradeId < row'.tradeId ∨ row.tradeId = row'.tradeId ∧
      row.time ≤ row'.time).map UserTrade.shown

end Dingir
