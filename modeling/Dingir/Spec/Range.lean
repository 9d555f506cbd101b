import Dingir.Lib.Mantissa
import Dingir.Spec.Controller

/-!
# The range of a `Decimal`

`rust_decimal` keeps 96 bits of mantissa and at most 28 digits behind the point, and its operators
panic on a result that is out of range. The engine calls them on what a request says before anything
bounds it. The model computes with rationals; below are the values the operators give while a
balance is updated and while an order is put, where `update_user_balance`, `put_order` and
`execute_order` use them. The operators `depth` uses are here as they round.
-/

namespace Dingir

open Keyed Rounding

/-- `Decimal::MAX` -/
def maxDecimal : Decimal := 2 ^ 96 - 1

/-- An operator with this result does not panic. -/
def InRange (v : Decimal) : Prop := |v| ≤ maxDecimal

/-- The numbers a `Decimal` can be. -/
def decimalFormat : Mantissa.Format := ⟨2 ^ 96 - 1, 28, by decide⟩

/-- `a + b`, `none` where it panics. -/
def addDecimal (a b : Decimal) : Option Decimal := decimalFormat.fit (a + b)

/-- `a * b`, `none` where it panics. -/
def mulDecimal (a b : Decimal) : Option Decimal := decimalFormat.fit (a * b)

/-- `a / b` for a `b` other than zero, `none` where it panics. -/
def divDecimal (a b : Decimal) : Option Decimal := decimalFormat.fit (a / b)

/-- `sum` of an iterator, `none` where it panics. -/
def sumDecimal (l : List Decimal) : Option Decimal := l.foldlM addDecimal 0

/-- `Decimal::from_str` gives a `Decimal`. -/
def Env.ReadsDecimals (E : Env) : Prop := ∀ s d, E.decimalFromStr s = some d → decimalFormat.Holds d

namespace Market

/-- The checks of `put_order` up to that of the balance. -/
def checkTerms (m : Market) (input : OrderInput) : Except String Unit := do
  bailIf (input.type_ = .market ∧ m.disableMarketOrder = true) "market orders disabled"
  bailIf (input.amount < m.minAmount) "invalid amount"
  bailIf (m.feePrec = 0 ∧ (input.takerFee ≠ 0 ∨ input.makerFee ≠ 0)) "only 0 fee is supported now"
  bailIf (truncDp input.amount m.amountPrec ≠ input.amount) "invalid amount precision"
  bailIf (roundDp input.price m.pricePrec ≠ input.price) "invalid price precision"
  m.checkType input

/-- The results in Step 3 of a round of a market bid: what the trade would cost, and, when that is
too much, what the budget still buys. -/
def budgetValues (maker : Order) (amount quoteLimit quoteSum : Decimal) : List Decimal :=
  let cost := maker.price * amount
  [cost, quoteSum + cost] ++
    if quoteLimit < quoteSum + cost then [quoteLimit - quoteSum,
      (quoteLimit - quoteSum) / maker.price] else []

/-- The results of Step 5 for one of the two orders. -/
def fillValues (o : Order) (t : Trade) (fee : Decimal) : List Decimal :=
  [o.remain - t.amount, o.finishedBase + t.amount, o.finishedQuote + t.quoteAmount,
    o.finishedFee + fee]

/-- The result of `afterFee`. -/
def afterFeeValues (amount fee : Decimal) : List Decimal := if 0 ≤ fee then [amount - fee] else []

/-- The results in Steps 3 (its end) to 7 of a round that makes the trade `t`, those of the balance
updates apart. -/
def tradeValues (t : Trade) (taker maker : Order) (quoteSum : Decimal) : List Decimal :=
  let takerIsAsk := taker.isAsk
  let askFeeRate := if takerIsAsk then taker.takerFee else maker.makerFee
  let bidFeeRate := if takerIsAsk then maker.makerFee else taker.takerFee
  [t.price * t.amount, quoteSum + t.quoteAmount, t.amount * bidFeeRate,
    t.quoteAmount * askFeeRate] ++ fillValues taker t (if takerIsAsk then t.askFee else t.bidFee) ++
    fillValues maker t (if takerIsAsk then t.bidFee else t.askFee) ++
    afterFeeValues t.amount t.bidFee ++ afterFeeValues t.quoteAmount t.askFee ++
    [maker.frozen - if takerIsAsk then t.quoteAmount else t.amount]

end Market

/-- The results of `update_user_balance`: the size of the change, the balance after it, and the sum
of both balances that a real persistor records of a change that is not zero. A duplicate is refused
before any of them. -/
inductive UpdateComputes (E : Env) (now : Timestamp) (x : Ctx)
    (p : BalanceUpdateParams) : Decimal → Prop
  | size : x.updateController.cache.containsKey now p.key = false →
      UpdateComputes E now x p |p.change|
  | added {prec : ℕ} : x.updateController.cache.containsKey now p.key = false →
      x.balanceManager.assetManager.assetPrec p.asset = .ok prec → 0 ≤ p.change →
      UpdateComputes E now x p
        (x.balanceManager.get p.userId p.balanceType p.asset + roundDp |p.change| prec)
  | taken {prec : ℕ} : x.updateController.cache.containsKey now p.key = false →
      x.balanceManager.assetManager.assetPrec p.asset = .ok prec → p.change < 0 →
      |p.change| ≤ x.balanceManager.get p.userId p.balanceType p.asset →
      UpdateComputes E now x p
        (x.balanceManager.get p.userId p.balanceType p.asset - roundDp |p.change| prec)
  | recorded {bm : BalanceManager} : x.updateController.cache.containsKey now p.key = false →
      applyChange E x.balanceManager p = .ok (.ok bm) → x.persistor.realPersist = true →
      p.change ≠ 0 →
      UpdateComputes E now x p (bm.total p.userId p.asset)

/-- The results of `update_balance`: those of the update it asks for, once the request is read. -/
inductive Controller.BalanceComputes (E : Env) (now : Timestamp) (available : Bool) (c : Controller)
    (req : BalanceUpdateRequest) (u : Uuid) : Decimal → Prop
  | update {prec : ℕ} {price change v : Decimal} {detail : Value} : available = true →
      c.balanceManager.assetManager.assetPrecShow req.asset = .ok prec →
      parseUpdate E prec req = .ok (change, detail) →
      c.marketPrice req.asset = .ok price →
      UpdateComputes E now (c.ctx true) (updateParams req u price change detail) v →
      BalanceComputes E now available c req u v

end Dingir
