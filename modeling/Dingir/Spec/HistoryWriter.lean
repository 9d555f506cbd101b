import Dingir.Spec.History

/-!
# Two ways to the history

What the engine gives its persistor reaches the tables of the history in one of two ways:
as messages, through the topics and the process that consumes them (`bin/persistor.rs`), or
from a `DBBasedPersistor` (`persist/persistor.rs`), which appends rows to the database
writers of `history.rs`. The first is to have writers equal to those of the second.

For the topic of the balances the message itself is modelled, since it does not hold all of
the row it is made from: the time is told in whole seconds, and the id of the business is
not read back.

Left out are the texts of the numbers in a message, and a writer that takes no more rows.
-/

namespace Dingir

/-! ## The topic of the balances -/

/-- `BalanceMessage` -/
structure BalanceMessage where
  timestamp : ℤ
  userId : Uuid
  businessId : ℕ
  asset : String
  business : String
  marketPrice : Decimal
  change : Decimal
  balance : Decimal
  balanceAvailable : Decimal
  balanceFrozen : Decimal
  detail : String

/-- `From<&BalanceHistory> for BalanceMessage` -/
def BalanceMessage.fromHistory (balance : BalanceHistory) : BalanceMessage :=
  { timestamp := ⌊balance.time⌋, userId := balance.userId, businessId := balance.businessId,
    asset := balance.asset,
    business := balance.business, marketPrice := balance.marketPrice, change := balance.change,
    balance := balance.balance,
    balanceAvailable := balance.balanceAvailable, balanceFrozen := balance.balanceFrozen,
    detail := balance.detail }

/-- `From<&BalanceMessage> for models::BalanceHistory` -/
def BalanceHistory.fromMessage (origin : BalanceMessage) : BalanceHistory :=
  { time := origin.timestamp, userId := origin.userId,
    -- dummy data, a reserve field
    businessId := 0,
    asset := origin.asset, business := origin.business, marketPrice := origin.marketPrice,
    change := origin.change,
    balance := origin.balance, balanceAvailable := origin.balanceAvailable,
    balanceFrozen := origin.balanceFrozen,
    detail := origin.detail }

/-- `balance_cfg` -/
def balanceCfg : List (PersistTo BalanceMessage BalanceHistory) :=
  [⟨0, fun message => some (.fromMessage message)⟩]

def balanceTopic : Topic BalanceMessage BalanceHistory where
  name := balancesTopic
  parse
    | .balanceMessage balance => some (.fromHistory balance)
    | _ => none
  chain := balanceCfg
  simple := by decide
  reads message := by cases message <;> simp [Message.topic, balancesTopic]

/-! ## The writers of the engine itself -/

/-- The rows that were appended to each of the writers. -/
structure DatabaseHistoryWriter where
  balanceWriter : List BalanceHistory
  tradeWriter : List UserTrade
  orderWriter : List OrderHistory

namespace DatabaseHistoryWriter

def new : DatabaseHistoryWriter := ⟨[], [], []⟩

def appendBalanceHistory (writer : DatabaseHistoryWriter)
    (data : BalanceHistory) : DatabaseHistoryWriter :=
  { writer with balanceWriter := writer.balanceWriter ++ [data] }

def appendOrderHistory (writer : DatabaseHistoryWriter) (order : Order) : DatabaseHistoryWriter :=
  { writer with orderWriter := writer.orderWriter ++ [.fromOrder order] }

def appendExpiredOrderHistory (writer : DatabaseHistoryWriter)
    (order : Order) : DatabaseHistoryWriter :=
  let orderForDb := OrderHistory.fromOrder order
  { writer with orderWriter := writer.orderWriter ++ [{ orderForDb with status := .expired }] }

def appendPairUserTrade (writer : DatabaseHistoryWriter) (trade : Trade) : DatabaseHistoryWriter :=
  let askTrade : UserTrade :=
    { time := trade.timestamp, userId := trade.askUserId, market := trade.market,
      tradeId := trade.id,
      orderId := trade.askOrderId, counterOrderId := trade.bidOrderId, side := .ask,
      role := trade.askRole,
      price := trade.price, amount := trade.amount, quoteAmount := trade.quoteAmount,
      fee := trade.askFee,
      counterOrderFee := trade.bidFee }
  let bidTrade : UserTrade :=
    { time := trade.timestamp, userId := trade.bidUserId, market := trade.market,
      tradeId := trade.id,
      orderId := trade.bidOrderId, counterOrderId := trade.askOrderId, side := .bid,
      role := trade.bidRole,
      price := trade.price, amount := trade.amount, quoteAmount := trade.quoteAmount,
      fee := trade.bidFee,
      counterOrderFee := trade.askFee }
  { writer with tradeWriter := writer.tradeWriter ++ [askTrade] ++ [bidTrade] }

end DatabaseHistoryWriter

structure DBBasedPersistor where
  inner : DatabaseHistoryWriter

namespace DBBasedPersistor

def putBalance (persistor : DBBasedPersistor) (balance : BalanceHistory) : DBBasedPersistor :=
  ⟨persistor.inner.appendBalanceHistory balance⟩

/-- `// TODO` -/
def putDeposit (persistor : DBBasedPersistor) (_ : BalanceHistory) : DBBasedPersistor := persistor

/-- `// TODO` -/
def putWithdraw (persistor : DBBasedPersistor) (_ : BalanceHistory) : DBBasedPersistor := persistor

def putOrder (persistor : DBBasedPersistor) (order : Order)
    (atStep : OrderEventType) : DBBasedPersistor :=
  -- only persist on finish
  match atStep with
  | .finish => ⟨persistor.inner.appendOrderHistory order⟩
  | .expired => ⟨persistor.inner.appendExpiredOrderHistory order⟩
  | _ => persistor

def putTrade (persistor : DBBasedPersistor) (trade : Trade) : DBBasedPersistor :=
  ⟨persistor.inner.appendPairUserTrade trade⟩

/-- The call that a message tells of. -/
def put (persistor : DBBasedPersistor) : Message → DBBasedPersistor
  | .balanceMessage balance => persistor.putBalance balance
  | .depositMessage balance => persistor.putDeposit balance
  | .withdrawMessage balance => persistor.putWithdraw balance
  | .orderMessage message => persistor.putOrder message.order message.event
  | .tradeMessage trade => persistor.putTrade trade

/-- The rows of an engine that gave its persistor these messages. -/
def fed (ms : List Message) : DatabaseHistoryWriter := (ms.foldl put ⟨.new⟩).inner

end DBBasedPersistor

/-- The tables that both ways lead to: a topic with a writer of its chain, and the rows of the
direct writer as they are told there. -/
inductive WrittenTwice : {M T : Type} → Topic M T → ℕ → (DatabaseHistoryWriter → List T) → Prop
  | orders : WrittenTwice orderTopic 0 DatabaseHistoryWriter.orderWriter
  | trades : WrittenTwice tradeTopic 1 fun writer => writer.tradeWriter.map .userTrade
  | balances : WrittenTwice balanceTopic 0 fun writer =>
      writer.balanceWriter.map fun row => { row with time := ⌊row.time⌋, businessId := 0 }

end Dingir
