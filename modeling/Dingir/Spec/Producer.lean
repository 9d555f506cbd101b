import Dingir.Lib.Channel
import Dingir.Spec.Run

/-!
# The channels to the message producers

`message/mod.rs`: a message of the persistor goes to every `RdProducerStub`, a
bounded channel that a producer thread empties; a full channel panics. A call is
let through while the channel `isBlock`s not. Serialization is left out: a
channel carries the message with its topic.
-/

namespace Dingir

open Keyed Rounding

/-- The topic of a message. -/
def Message.topic : Message → String
  | .balanceMessage _ => "balances"
  | .depositMessage _ => "deposits"
  | .withdrawMessage _ => "withdraws"
  | .orderMessage _ => "orders"
  | .tradeMessage _ => "trades"

/-- `RdProducerStub`: its channel. -/
abbrev RdProducerStub := Channel (String × Message) 2048

namespace RdProducerStub

def isBlock (stub : RdProducerStub) : Bool := 2048 - 1000 ≤ stub.queue.length

/-- `push_message_and_topic`; `none` is the panic of its `unwrap`. -/
def pushMessageAndTopic (stub : RdProducerStub) (message : Message) : Option RdProducerStub :=
  stub.trySend (message.topic, message)

/-- The messages are pushed without a panic, however the producer thread runs beside it. -/
def NeverPanics (stub : RdProducerStub) (messages : List Message) : Prop :=
  ∀ sent message rest (stub' : RdProducerStub), messages = sent ++ message :: rest →
    stub.Sends (sent.map fun m => (m.topic, m)) stub' → (stub'.pushMessageAndTopic message).isSome

end RdProducerStub

namespace Controller

/-- The open orders of a user on one market. -/
def orderNumIn (c : Controller) (name : String) (user : Uuid) : ℕ :=
  ((c.markets.find? name).map fun m => m.getOrderNumOfUser user).getD 0

end Controller

end Dingir
