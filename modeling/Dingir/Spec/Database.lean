import Dingir.Spec.Run
import Dingir.Lib.Table

/-!
# The database of the slices

`persist/state_save_load.rs` on the tables of the migration: `balance_slice` and
`slice_history` number their rows, `order_slice` has the key `(slice_id, id)` and
its rows are inserted `ON CONFLICT DO NOTHING`. A slice is named by the second it
was taken in (`slice_id`), and nothing keeps two slices from the same second.

An insert that fails has no effect and is tried again, so a dump that is over has
inserted all its records. A decimal column holds what is written into it; a time
column holds whole seconds.
-/

namespace Dingir

open Table

def SLICE_KEEP_TIME : ℤ := 30

/-- What is inserted into `balance_slice`. -/
structure BalanceSliceInsert where
  sliceId : ℤ
  userId : Uuid
  asset : String
  t : BalanceType
  balance : Decimal

/-- A row of `order_slice` with its `slice_id`. -/
structure OrderRecord where
  sliceId : ℤ
  row : OrderSlice

def OrderRecord.key (r : OrderRecord) : ℤ × ℕ := (r.sliceId, r.row.id)

/-- A row of `slice_history` with its `time`, the id of the slice. -/
structure HistoryRecord where
  time : ℤ
  history : SliceHistory

/-- The tables of the slices. -/
structure Database where
  balanceSlice : Serial BalanceSliceInsert
  orderSlice : Unique OrderRecord.key
  sliceHistory : Serial HistoryRecord

/-- A `TIMESTAMP(0)` column. -/
def wholeSecond (t : Timestamp) : Timestamp := ⌊t + 1 / 2⌋

/-- A row as its columns hold it. -/
def OrderSlice.stored (row : OrderSlice) : OrderSlice :=
  { row with createTime := wholeSecond row.createTime, updateTime := wholeSecond row.updateTime }

/-! ## Dumping -/

def balanceRecords (sliceId : ℤ) (bm : BalanceManager) : List BalanceSliceInsert :=
  bm.balances.entries.map fun e =>
    { sliceId, userId := e.1.userId, asset := e.1.asset, t := e.1.balanceType, balance := e.2 }

def orderRecords (sliceId : ℤ) (c : Controller) : List OrderRecord :=
  (dumpOrders c).map fun row => ⟨sliceId, row.stored⟩

namespace Database

def empty : Database := ⟨.empty, .empty, .empty⟩

/-- `dump_to_db`: the orders, the balances, and the entry of `slice_history`. -/
def dumpToDb (db : Database) (sliceId : ℤ) (c : Controller) : Database :=
  { orderSlice := db.orderSlice.insertAll (orderRecords sliceId c)
    balanceSlice := db.balanceSlice.insertAll (balanceRecords sliceId c.balanceManager)
    sliceHistory := db.sliceHistory.insert ⟨sliceId, c.dump.history⟩ }

/-- `delete_slice`. -/
def deleteSlice (db : Database) (sliceId : ℤ) : Database :=
  { balanceSlice := db.balanceSlice.delete fun r => r.sliceId = sliceId
    orderSlice := db.orderSlice.delete fun r => r.sliceId = sliceId
    sliceHistory := db.sliceHistory.delete fun r => r.time = sliceId }

/-- `clear_slice`: the slices taken `SLICE_KEEP_TIME` before `sliceId` or earlier are deleted. -/
def clearSlice (db : Database) (sliceId : ℤ) : Database :=
  let slices := (db.sliceHistory.rows.map fun e => e.2.time).filter fun time => time ≤
    sliceId - SLICE_KEEP_TIME
  slices.foldl deleteSlice db

/-- `make_slice`, in the second `sliceId`. -/
def makeSlice (db : Database) (sliceId : ℤ) (c : Controller) : Database :=
  (db.dumpToDb sliceId c).clearSlice sliceId

/-! ## Reading -/

/-- `get_last_slice`. -/
def getLastSlice (db : Database) : Option HistoryRecord := db.sliceHistory.newest

/-- The balance rows of a slice. -/
def balancesOf (db : Database) (sliceId : ℤ) : List BalanceSlice :=
  (db.balanceSlice.rows.filter fun e => e.2.sliceId = sliceId).map fun e =>
    { id := e.1, userId := e.2.userId, asset := e.2.asset, t := e.2.t, balance := e.2.balance }

/-- The order rows of a slice. -/
def ordersOf (db : Database) (sliceId : ℤ) : List OrderSlice :=
  (db.orderSlice.rows.filter fun r => r.sliceId = sliceId).map OrderRecord.row

/-- The slice a recovery loads. -/
def lastSlice (db : Database) : Option Slice :=
  db.getLastSlice.map fun r =>
    { balances := db.balancesOf r.time, orders := db.ordersOf r.time, history := r.history }

end Database

/-- **The databases** that dumps and slices of reachable controllers leave, taken in
any order and at any readings of the clock. -/
inductive Stored (E : Env) (settings : Settings) : Database → Prop
  | empty : Stored E settings .empty
  | dumpToDb {db : Database} {c : Controller} (sliceId : ℤ) :
      Stored E settings db → Reachable E settings c → Stored E settings (db.dumpToDb sliceId c)
  | makeSlice {db : Database} {c : Controller} (sliceId : ℤ) :
      Stored E settings db → Reachable E settings c → Stored E settings (db.makeSlice sliceId c)

end Dingir
