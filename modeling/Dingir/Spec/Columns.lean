import Dingir.Spec.Snapshot

/-!
# The decimal columns of a slice

`migrations/20200123090047_trade_log.sql`: `balance_slice` and `order_slice` keep their
decimals in columns `DECIMAL(precision, scale)`, whatever precisions the settings give to
assets and markets. A number with more digits behind the point is rounded to the scale, and
one with more digits before it is an error.
-/

namespace Dingir

open Rounding

/-- `DECIMAL(precision, scale)`. -/
structure DecimalColumn where
  precision : ℕ
  scale : ℕ

/-- The column holds the number as it is. -/
structure DecimalColumn.Holds (column : DecimalColumn) (x : Decimal) : Prop where
  digits : OnGrid column.scale x
  range : |x| < 10 ^ (column.precision - column.scale)

/-- The columns of `balance_slice` hold a row as it is. -/
def BalanceSlice.Exact (row : BalanceSlice) : Prop := DecimalColumn.Holds ⟨30, 16⟩ row.balance

/-- The columns of `order_slice` hold a row as it is. Its `frozen` is not asked for: it is computed
again when the order is loaded. -/
structure OrderSlice.Exact (row : OrderSlice) : Prop where
  price : DecimalColumn.Holds ⟨30, 8⟩ row.price
  amount : DecimalColumn.Holds ⟨30, 8⟩ row.amount
  takerFee : DecimalColumn.Holds ⟨30, 4⟩ row.takerFee
  makerFee : DecimalColumn.Holds ⟨30, 4⟩ row.makerFee
  remain : DecimalColumn.Holds ⟨30, 8⟩ row.remain
  finishedBase : DecimalColumn.Holds ⟨30, 8⟩ row.finishedBase
  finishedQuote : DecimalColumn.Holds ⟨30, 16⟩ row.finishedQuote
  finishedFee : DecimalColumn.Holds ⟨30, 12⟩ row.finishedFee

/-- **The database holds a slice as it was dumped.** -/
structure Slice.Exact (slice : Slice) : Prop where
  balances : ∀ row ∈ slice.balances, row.Exact
  orders : ∀ row ∈ slice.orders, row.Exact

end Dingir
