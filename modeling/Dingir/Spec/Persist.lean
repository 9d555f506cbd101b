import Dingir.Spec.Events
import Dingir.Spec.Tracker

/-!
# The persistor of a topic

`message/persist.rs` and `bin/persistor.rs`: the messages of a topic are handed to a
chain of handlers, each with a transformer and the database writer its rows go to
(`persist_to`, `with_tr`). A row is appended with the offset of its message. What the
writers are done with goes through the trackers of the chain to `auto_commit_start`,
which commits the offset behind it.

The consumer, the writers and the task that commits run side by side. A step
(`Persistor.step`) is a message delivered, a message handed to the next handler of
the chain, a step of a writer, or a listener that has seen a change; they fall in any
order.
-/

namespace Dingir

open Keyed

/-! ## The rows of a trade -/

/-- `models::UserTrade`. -/
structure UserTrade where
  time : Timestamp
  userId : Uuid
  market : String
  tradeId : ℕ
  orderId : ℕ
  counterOrderId : ℕ
  side : OrderSide
  role : MarketRole
  price : Decimal
  amount : Decimal
  quoteAmount : Decimal
  fee : Decimal
  counterOrderFee : Decimal
  deriving DecidableEq

/-- `AskTrade::into`. -/
def AskTrade.into (trade : Trade) : Option UserTrade :=
  some { time := trade.timestamp, userId := trade.askUserId, market := trade.market,
         tradeId := trade.id,
         orderId := trade.askOrderId, counterOrderId := trade.bidOrderId, side := .ask,
         role := trade.askRole,
         price := trade.price, amount := trade.amount, quoteAmount := trade.quoteAmount,
         fee := trade.askFee,
         counterOrderFee := trade.bidFee }

/-- `BidTrade::into`. -/
def BidTrade.into (trade : Trade) : Option UserTrade :=
  some { time := trade.timestamp, userId := trade.bidUserId, market := trade.market,
         tradeId := trade.id,
         orderId := trade.bidOrderId, counterOrderId := trade.askOrderId, side := .bid,
         role := trade.bidRole,
         price := trade.price, amount := trade.amount, quoteAmount := trade.quoteAmount,
         fee := trade.bidFee,
         counterOrderFee := trade.askFee }

/-! ## Chains of handlers -/

/-- A message of a topic with its place there. -/
structure TopicMessage (M : Type) where
  partition : ℤ
  offset : ℕ
  message : M
  deriving DecidableEq

/-- One `persist_to` of a chain: the writer, and `MsgDataTransformer::into`. The last one comes
first. -/
structure PersistTo (M T : Type) where
  writer : ℕ
  into : M → Option T

/-- A row with the message and the handler that it comes from. A writer looks at neither. -/
structure MessageRow (T : Type) where
  partition : ℤ
  offset : ℕ
  handler : ℕ
  row : T
  deriving DecidableEq

/-- A row of the topic of the trades. -/
inductive TradeRow
  | marketTrade (row : MarketTrade)
  | userTrade (row : UserTrade)
  deriving DecidableEq

/-- `trade_cfg`: writer 0 is `persistor_kline`, writer 1 is `persistor_trade`. -/
def tradeCfg : List (PersistTo Trade TradeRow) :=
  [⟨1, fun trade => (BidTrade.into trade).map .userTrade⟩,
    ⟨1, fun trade => (AskTrade.into trade).map .userTrade⟩,
    ⟨0, fun trade => some (.marketTrade (.fromTrade trade))⟩]

/-- `order_cfg`. -/
def orderCfg : List (PersistTo OrderMessage OrderHistory) := [⟨0, ClosedOrder.into⟩]

variable {M T : Type}

namespace TopicMessage

def notification (m : TopicMessage M) : TaskNotification :=
  { partition := m.partition, offset := m.offset }

def rowOf (m : TopicMessage M) (handler : ℕ) (row : T) : MessageRow T :=
  { partition := m.partition, offset := m.offset, handler, row }

/-- The rows for the writer `w` that handlers of the chain make of a message, the first one at place
`i`. -/
def rowsFor (m : TopicMessage M) (w : ℕ) : ℕ → List (PersistTo M T) → List (MessageRow T)
  | _, [] => []
  | i, link :: rest =>
    (if link.writer = w then ((link.into m.message).map (m.rowOf i)).toList else []) ++
      m.rowsFor w (i + 1) rest

end TopicMessage

/-! ## The persistor at work -/

structure Persistor (M T : Type) where
  writers : ℕ → Writing (MessageRow T)
  delivered : List (TopicMessage M)
  /-- The message being handled, and the place of the handler that is next. -/
  handling : Option (TopicMessage M × ℕ)
  tracker : NotifyTrackerReceiver
  /-- The version each listener has seen. -/
  seen : ℕ → ℕ
  /-- The offsets committed for the partitions. -/
  commits : List (HashMap ℤ ℕ)

inductive PersistorAction (M T : Type)
  | deliver (m : TopicMessage M)
  | handle
  | write (w : ℕ) (a : WriterAction (MessageRow T))
  /-- The listener of a handler's writer has seen the version. -/
  | changed (i version : ℕ)

namespace Persistor

/-- A persistor at its start; without a writer there is nothing to track (`expect`). -/
def start (chain : List (PersistTo M T)) : Option (Persistor M T) :=
  (NotifyTrackerReceiver.getTracker chain.length).map fun tracker =>
    { writers := fun _ => .start, delivered := [], handling := none, tracker, seen := fun _ => 0,
      commits := [] }

def withWriter (s : Persistor M T) (w : ℕ) (writing : Writing (MessageRow T)) : Persistor M T :=
  { s with writers := Function.update s.writers w writing }

/-- One step, or `none` where the action cannot be taken. -/
def step (config : DatabaseWriterConfig) (chain : List (PersistTo M T)) (s : Persistor M T) :
    PersistorAction M T → Option (Persistor M T)
  | .deliver m =>
    -- the offsets of a partition ascend, and a message is handled before the next one is asked for
    if s.handling.isNone ∧ ∀ m' ∈ s.delivered, m'.partition = m.partition →
      m'.offset < m.offset then
      some { s with delivered := s.delivered ++ [m], handling := some (m, 0) }
    else none
  | .handle =>
    match s.handling with
    | none => none
    | some (m, i) =>
      match chain[i]? with
      | none => some { s with handling := none }
      | some link =>
        match link.into m.message with
        | none => some { s with handling := some (m, i + 1) }
        | some row =>
          ((s.writers link.writer).step config (.append (m.rowOf i row) (some m.notification))).map
            ({ s with handling := some (m, i + 1) }.withWriter link.writer)
  | .write _ (.append _ _) => none
  | .write w a => ((s.writers w).step config a).map (s.withWriter w)
  | .changed i version =>
    match chain[i]? with
    | none => none
    | some link =>
      let notify := (s.writers link.writer).writer.completeNotify
      if s.seen i < version ∧ version ≤ notify.version then
        let (ret, tracker) := s.tracker.changed i notify.value
        some { s with
          tracker
          seen := Function.update s.seen i version
          commits := s.commits ++ (ret.map (mapValues (· + 1))).toList }
      else none

/-- **No message is lost by a commit**: what is behind a committed offset has its rows in the
database. -/
def NothingLost (chain : List (PersistTo M T)) (s : Persistor M T) : Prop :=
  ∀ tplist ∈ s.commits, ∀ p c, tplist.find? p = some c → ∀ m ∈ s.delivered, m.partition = p →
    m.offset < c →
    ∀ i link row, chain[i]? = some link → link.into m.message = some row →
      m.rowOf i row ∈ (s.writers link.writer).inserted

/-! ## Orderly steps -/

/-- The rows on their way to a writer: in its channel, or to be appended by the handlers that are
next. -/
def coming (chain : List (PersistTo M T)) (s : Persistor M T) (w : ℕ) : List (MessageRow T) :=
  (s.writers w).writer.ctrlChn.queue.filterMap (fun
    | .data item _ => some item
    | _ => none) ++
  match s.handling with
  | some (m, i) => m.rowsFor w i (chain.drop i)
  | none => []

/-- No row on its way to the writer is of a message that has a row in the task. -/
def Complete (chain : List (PersistTo M T)) (s : Persistor M T) (w : ℕ)
    (task : DatabaseWriterTask (MessageRow T)) : Prop :=
  ∀ row ∈ task.data, ∀ other ∈ s.coming chain w,
    ¬ (other.partition = row.partition ∧ other.offset = row.offset)

instance (chain : List (PersistTo M T)) (s : Persistor M T) (w : ℕ)
    (task : DatabaseWriterTask (MessageRow T)) : Decidable (s.Complete chain w task) :=
  inferInstanceAs (Decidable (∀ row ∈ task.data, ∀ other ∈ s.coming chain w, ¬ (_ ∧ _)))

/-- **The orderly steps**: a row to be appended finds room, and a task is closed, by being spawned
or for being full when a row is received, only when it is complete. -/
def Orderly (chain : List (PersistTo M T)) (s : Persistor M T) : PersistorAction M T → Prop
  | .handle =>
    match s.handling with
    | none => True
    | some (m, i) => ∀ link ∈ chain[i]?, (link.into m.message).isSome →
        (s.writers link.writer).writer.left = false ∧
        (s.writers link.writer).writer.ctrlChn.queue.length < channelLimit
  | .write w .acquire => (s.writers w).writer.errorTaskStack.isEmpty →
      ∀ task ∈ (s.writers w).writer.nextTaskStack.getLast?, s.Complete chain w task
  | .write w .recv =>
    match (s.writers w).writer.ctrlChn.queue with
    | .data _ _ :: _ => ∀ task ∈ (s.writers w).writer.nextTaskStack.head?, task.isLimited →
        s.Complete chain w task
    | _ => True
  | _ => True

instance (chain : List (PersistTo M T)) (s : Persistor M T) (a : PersistorAction M T) :
    Decidable (s.Orderly chain a) :=
  match a with
  | .deliver _ => .isTrue trivial
  | .handle =>
    match h : s.handling with
    | none => decidable_of_iff True (by simp [Orderly, h])
    | some (m, i) => decidable_of_iff (∀ link ∈ chain[i]?, (link.into m.message).isSome →
        (s.writers link.writer).writer.left = false ∧
        (s.writers link.writer).writer.ctrlChn.queue.length < channelLimit) (by simp [Orderly, h])
  | .write w .acquire =>
    inferInstanceAs (Decidable (_ → ∀ task ∈ (s.writers w).writer.nextTaskStack.getLast?,
    s.Complete chain w task))
  | .write w .recv =>
    match h : (s.writers w).writer.ctrlChn.queue with
    | .data _ _ :: _ => decidable_of_iff (∀ task ∈ (s.writers w).writer.nextTaskStack.head?,
        task.isLimited → s.Complete chain w task) (by simp [Orderly, h])
    | .done _ :: _ | .fail _ :: _ | .exit _ :: _ | [] =>
      decidable_of_iff True (by simp [Orderly, h])
  | .write _ .finish | .write _ .yieldNow | .write _ (.append _ _) | .write _ (.statement _ _) |
      .write _ (.report _) => .isTrue trivial
  | .changed _ _ => .isTrue trivial

end Persistor

end Dingir
