import Dingir.Spec.Types
import Dingir.Lib.Sql

/-!
# The records of the tables recovery reads

`storage/models.rs` on the migration `trade_log.sql`, through `sqlxextend.rs`: a
record says how many arguments its insert has and where `DEFAULT` stands among
them (`TableSchemas`), which arguments they are (`BindQueryArg`), and how it is
read back by column name (`FromRow`).

Decimals and times are held exactly. Records go to one table each and are read
by the field names of their structure.
-/

namespace Dingir

open Sql

/-! ## `sqlxextend.rs` -/

class TableSchemas (R : Type) where
  tableName : String
  argn : ℕ
  /-- the places of the values that are `DEFAULT`, from 1 -/
  defaultArgsn : List ℕ

class BindQueryArg (R : Type) where
  bindArgs : R → List Cell

/-- `sqlx::FromRow`. -/
class FromRow (R : Type) where
  fromRow : Row → Option R

/-- `IterHelper`: the arguments `t1`, with a `DEFAULT` at each place in `t2`. It ends
when an argument is due and there is none. -/
def iterHelper : List ℕ → List ℕ → ℕ → List (Option ℕ)
  | t1, [], _ => t1.map some
  | [], i :: t2, pos => if pos + 1 < i then [] else none :: iterHelper [] t2 (pos + 1)
  | a :: t1, i :: t2, pos =>
    if pos + 1 < i then some a :: iterHelper t1 (i :: t2) (pos + 1)
    else none :: iterHelper (a :: t1) t2 (pos + 1)
termination_by t1 t2 => t1.length + t2.length

def expandArgsnGen (first last : ℕ) (defaults : List ℕ) : List (Option ℕ) :=
  iterHelper (List.range' first (last - first)) defaults 0

def expandArgsn (argn : ℕ) (defaults : List ℕ) : List (Option ℕ) :=
  expandArgsnGen 1 (argn + 1) defaults

example : expandArgsn 4 [1, 6, 7] = [none, some 1, some 2, some 3, some 4, none, none] := by
  simp [expandArgsn, expandArgsnGen, iterHelper, List.range']

/-! ## `trade_log.sql` -/

def balanceSliceColumns : List Column :=
  [{ name := "id", type := .serial }, { name := "slice_id", type := .bigint },
    { name := "user_id", type := .varchar 36 }, { name := "asset", type := .varchar 30 },
    { name := "t", type := .smallint, nonneg := true }, { name := "balance", type := .decimal }]

def orderSliceColumns : List Column :=
  [{ name := "id", type := .bigint, nonneg := true }, { name := "slice_id", type := .bigint },
    { name := "order_type", type := .varchar 30 }, { name := "order_side", type := .varchar 30 },
    { name := "create_time", type := .timestamp }, { name := "update_time", type := .timestamp },
    { name := "user_id", type := .varchar 36 }, { name := "market", type := .varchar 30 },
    { name := "price", type := .decimal }, { name := "amount", type := .decimal },
    { name := "taker_fee", type := .decimal }, { name := "maker_fee", type := .decimal },
    { name := "remain", type := .decimal }, { name := "frozen", type := .decimal },
    { name := "finished_base", type := .decimal }, { name := "finished_quote", type := .decimal },
    { name := "finished_fee", type := .decimal },
    { name := "post_only", type := .bool, default? := some (.bool false) }]

def sliceHistoryColumns : List Column :=
  [{ name := "id", type := .serial }, { name := "time", type := .bigint },
    { name := "end_operation_log_id", type := .bigint, nonneg := true },
    { name := "end_order_id", type := .bigint, nonneg := true },
    { name := "end_trade_id", type := .bigint, nonneg := true }]

def operationLogColumns : List Column :=
  [{ name := "id", type := .bigint, nonneg := true }, { name := "time", type := .timestamp },
    { name := "method", type := .text }, { name := "params", type := .text }]

/-- The tables of the migration. -/
def migration : List (String × List Column) :=
  [("balance_slice", balanceSliceColumns), ("order_slice", orderSliceColumns),
    ("slice_history", sliceHistoryColumns), ("operation_log", operationLogColumns)]

/-! ## `models.rs` -/

/-- The enumerations are stored as lowercase text. -/
def OrderType.toSql : OrderType → Cell
  | .limit => .text "limit"
  | .market => .text "market"

def OrderType.ofSql : Cell → Option OrderType
  | .text "limit" => some .limit
  | .text "market" => some .market
  | _ => none

def OrderSide.toSql : OrderSide → Cell
  | .ask => .text "ask"
  | .bid => .text "bid"

def OrderSide.ofSql : Cell → Option OrderSide
  | .text "ask" => some .ask
  | .text "bid" => some .bid
  | _ => none

namespace Models

structure OperationLog where
  id : Int64
  userId : String
  time : Timestamp
  method : String
  params : String

structure BalanceSlice where
  id : Int32
  sliceId : Int64
  userId : String
  asset : String
  t : Int16
  balance : Decimal

structure BalanceSliceInsert where
  sliceId : Int64
  userId : String
  asset : String
  t : Int16
  balance : Decimal

structure OrderSlice where
  id : Int64
  sliceId : Int64
  orderType : OrderType
  orderSide : OrderSide
  createTime : Timestamp
  updateTime : Timestamp
  userId : String
  market : String
  price : Decimal
  amount : Decimal
  takerFee : Decimal
  makerFee : Decimal
  remain : Decimal
  frozen : Decimal
  finishedBase : Decimal
  finishedQuote : Decimal
  finishedFee : Decimal
  postOnly : Bool

structure SliceHistory where
  time : Int64
  endOperationLogId : Int64
  endOrderId : Int64
  endTradeId : Int64

instance : TableSchemas OperationLog := ⟨"operation_log", 4, []⟩

instance : BindQueryArg OperationLog :=
  ⟨fun r => [.bigint r.id, .timestamp r.time, .text r.method, .text r.params]⟩

instance : FromRow OperationLog where
  fromRow row := do
    return {
      id := ← row.get "id" Cell.toI64
      userId := ← row.get "user_id" Cell.toText
      time := ← row.get "time" Cell.toTimestamp
      method := ← row.get "method" Cell.toText
      params := ← row.get "params" Cell.toText }

instance : TableSchemas OrderSlice := ⟨"order_slice", 18, []⟩

instance : BindQueryArg OrderSlice where
  bindArgs r :=
    [.bigint r.id, .bigint r.sliceId, r.orderType.toSql, r.orderSide.toSql, .timestamp r.createTime,
      .timestamp r.updateTime, .text r.userId, .text r.market, .decimal r.price, .decimal r.amount,
      .decimal r.takerFee, .decimal r.makerFee, .decimal r.remain, .decimal r.frozen,
      .decimal r.finishedBase,
      .decimal r.finishedQuote, .decimal r.finishedFee, .bool r.postOnly]

instance : FromRow OrderSlice where
  fromRow row := do
    return {
      id := ← row.get "id" Cell.toI64
      sliceId := ← row.get "slice_id" Cell.toI64
      orderType := ← row.get "order_type" OrderType.ofSql
      orderSide := ← row.get "order_side" OrderSide.ofSql
      createTime := ← row.get "create_time" Cell.toTimestamp
      updateTime := ← row.get "update_time" Cell.toTimestamp
      userId := ← row.get "user_id" Cell.toText
      market := ← row.get "market" Cell.toText
      price := ← row.get "price" Cell.toDecimal
      amount := ← row.get "amount" Cell.toDecimal
      takerFee := ← row.get "taker_fee" Cell.toDecimal
      makerFee := ← row.get "maker_fee" Cell.toDecimal
      remain := ← row.get "remain" Cell.toDecimal
      frozen := ← row.get "frozen" Cell.toDecimal
      finishedBase := ← row.get "finished_base" Cell.toDecimal
      finishedQuote := ← row.get "finished_quote" Cell.toDecimal
      finishedFee := ← row.get "finished_fee" Cell.toDecimal
      postOnly := ← row.get "post_only" Cell.toBool }

instance : TableSchemas BalanceSliceInsert := ⟨"balance_slice", 5, [1]⟩

instance : BindQueryArg BalanceSliceInsert :=
  ⟨fun r => [.bigint r.sliceId, .text r.userId, .text r.asset, .smallint r.t, .decimal r.balance]⟩

instance : FromRow BalanceSlice where
  fromRow row := do
    return {
      id := ← row.get "id" Cell.toI32
      sliceId := ← row.get "slice_id" Cell.toI64
      userId := ← row.get "user_id" Cell.toText
      asset := ← row.get "asset" Cell.toText
      t := ← row.get "t" Cell.toI16
      balance := ← row.get "balance" Cell.toDecimal }

instance : TableSchemas SliceHistory := ⟨"slice_history", 4, [1]⟩

instance : BindQueryArg SliceHistory :=
  ⟨fun r => [.bigint r.time, .bigint r.endOperationLogId, .bigint r.endOrderId,
    .bigint r.endTradeId]⟩

instance : FromRow SliceHistory where
  fromRow row := do
    return {
      time := ← row.get "time" Cell.toI64
      endOperationLogId := ← row.get "end_operation_log_id" Cell.toI64
      endOrderId := ← row.get "end_order_id" Cell.toI64
      endTradeId := ← row.get "end_trade_id" Cell.toI64 }

/-- What was inserted of a balance row. -/
def BalanceSlice.inserted (row : BalanceSlice) : BalanceSliceInsert :=
  { sliceId := row.sliceId, userId := row.userId, asset := row.asset, t := row.t,
    balance := row.balance }

end Models

/-! ## Inserting -/

section Insert

variable {R : Type} [TableSchemas R] [BindQueryArg R]

open TableSchemas BindQueryArg

/-- The insert of the statement `values` into the table of `R`. -/
def insertValues (R : Type) [TableSchemas R] (serial : Int32) (args : List Cell)
    (values : List (Option ℕ)) : Option Row :=
  (migration.lookup (tableName R)).bind fun cols => insertRow serial args cols values

/-- `InsertTable`: the row of one record. -/
def insertTable (serial : Int32) (r : R) : Option Row :=
  insertValues R serial (bindArgs r) (expandArgsn (argn R) (defaultArgsn R))

/-- The values of the `i`th record of a batch: `sql_statement_rt`. -/
def batchValues (R : Type) [TableSchemas R] (i : ℕ) : List (Option ℕ) :=
  expandArgsnGen (i * argn R + 1) ((i + 1) * argn R + 1) (defaultArgsn R)

/-- `InsertTableBatch`: the row of the `i`th record of a batch. -/
def insertTableBatch (serial : Int32) (rs : List R) (i : ℕ) : Option Row :=
  insertValues R serial (rs.flatMap bindArgs) (batchValues R i)

end Insert

/-! ## Reading back -/

/-- The records recovery depends on. -/
inductive Record
  | operationLog (r : Models.OperationLog)
  | orderSlice (r : Models.OrderSlice)
  | balanceSlice (r : Models.BalanceSliceInsert)
  | sliceHistory (r : Models.SliceHistory)

/-- **Inserted into its table and read back, the record is unchanged**, whatever the
serial number of its row. -/
def Record.ReadsBack : Record → Prop
  | operationLog r => ∀ serial, (insertTable serial r).bind FromRow.fromRow = some r
  | orderSlice r => ∀ serial, (insertTable serial r).bind FromRow.fromRow = some r
  | balanceSlice r => ∀ serial,
      ((insertTable serial r).bind FromRow.fromRow).map Models.BalanceSlice.inserted = some r
  | sliceHistory r => ∀ serial, (insertTable serial r).bind FromRow.fromRow = some r

/-- The texts fit into the `VARCHAR` columns of the table, and its `CHECK`s pass. -/
def Record.Fits : Record → Prop
  | operationLog r => 0 ≤ r.id
  | orderSlice r => 0 ≤ r.id ∧ r.userId.length ≤ 36 ∧ r.market.length ≤ 30
  | balanceSlice r => r.userId.length ≤ 36 ∧ r.asset.length ≤ 30 ∧ 0 ≤ r.t
  | sliceHistory r => 0 ≤ r.endOperationLogId ∧ 0 ≤ r.endOrderId ∧ 0 ≤ r.endTradeId

def Record.IsLog : Record → Prop
  | operationLog _ => True
  | _ => False

end Dingir
