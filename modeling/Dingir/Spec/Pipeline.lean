import Dingir.Spec.MessageScheme
import Dingir.Spec.Persist

/-!
# From the engine to the history

The processes of the exchange on both sides of the broker, for one topic. A call of the
engine pushes its messages, one after the other, into the channel of the stub
(`message/mod.rs`); the producer thread hands them to the broker (`message/producer.rs`);
the persistor consumes the topic and writes the history (`bin/persistor.rs`,
`message/persist.rs`). A persistor that dies is started again where the broker was last
told to.

The broker is the environment. It puts a record of the topic behind the others of some
partition, or loses it; it delivers the records of a partition in order, from the offset
committed for the group when the consumer came (`auto.offset.reset` is `earliest`); and it
takes the offsets it is asked to commit at any time, and in any order.

Left out are the second producer, which the same calls push to, the text of the messages,
a consumer that is moved back while it lives, and the final commit of a persistor.
-/

namespace Dingir

open Keyed

/-! ## The topics -/

/-- A topic of the simple scheme, and the chain its messages are persisted by. -/
structure Topic (M T : Type) where
  name : String
  /-- what the persistor reads a message as -/
  parse : Message → Option M
  chain : List (PersistTo M T)
  simple : name ∈ simpleTopics
  reads : ∀ message, (parse message).isSome ↔ message.topic = name

/-- `trade_cfg` -/
def tradeTopic : Topic Trade TradeRow where
  name := tradesTopic
  parse
    | .tradeMessage trade => some trade
    | _ => none
  chain := tradeCfg
  simple := by decide
  reads message := by cases message <;> simp [Message.topic, tradesTopic]

/-- `order_cfg` -/
def orderTopic : Topic OrderMessage OrderHistory where
  name := ordersTopic
  parse
    | .orderMessage message => some message
    | _ => none
  chain := orderCfg
  simple := by decide
  reads message := by cases message <;> simp [Message.topic, ordersTopic]

/-! ## The pipeline -/

structure Pipeline (M T : Type) where
  engine : Controller
  /-- the messages that the call under way has still to push -/
  pushing : List Message
  stub : RdProducerStub
  producer : RdProducer (SimpleMessageScheme Message) Message Unit
  /-- for each record of the topic, in the order they were sent, the partition it was put on;
  `none` where it was lost -/
  placed : List (Option ℤ)
  persistor : Persistor M T
  /-- where the consumer began -/
  position : ℤ → ℕ
  /-- the rows that earlier persistors inserted, by writer -/
  stored : ℕ → List (MessageRow T)
  /-- what earlier persistors asked to commit -/
  asked : List (HashMap ℤ ℕ)
  /-- the offsets the broker keeps for the group -/
  committed : ℤ → ℕ

inductive PipelineAction (M T : Type)
  /-- a call of the engine -/
  | call (q : Request)
  /-- its next message is pushed -/
  | push
  /-- a round of the producer thread, with what `send` and `poll` answer -/
  | round (sendRet : Except KafkaError Unit) (lastPoll : ℤ) (reports : List SimpleDeliverResult)
  /-- the broker takes the next record of the topic, or loses it -/
  | place (partition : Option ℤ)
  /-- the next record of a partition is delivered to the persistor -/
  | deliver (p : ℤ)
  /-- any other step of the persistor -/
  | persist (a : PersistorAction M T)
  /-- a commit arrives at the broker -/
  | commit (i : ℕ)
  /-- the persistor dies, and is started again -/
  | restart

namespace Pipeline

variable {M T : Type}

/-- The engine and the persistor at their start, the topic empty. -/
def start (topic : Topic M T) (engine : Controller) : Option (Pipeline M T) :=
  (Persistor.start topic.chain).map fun persistor =>
    { engine, pushing := [], stub := Channel.empty _ _, producer := .start, placed := [], persistor,
      position := fun _ => 0, stored := fun _ => [], asked := [], committed := fun _ => 0 }

/-- The records of the topic that were sent. -/
def records (topic : Topic M T) (s : Pipeline M T) : List Message :=
  s.producer.sent.filterMap fun r => if r.topic = topic.name then some r.payload else none

/-- A partition of the topic. -/
def log (topic : Topic M T) (s : Pipeline M T) (p : ℤ) : List Message :=
  ((s.records topic).zip s.placed).filterMap fun e => if e.2 = some p then some e.1 else none

/-- The rows in the database, by writer. -/
def rows (s : Pipeline M T) (w : ℕ) : List (MessageRow T) :=
  s.stored w ++ (s.persistor.writers w).inserted

/-- The offset that the consumer is to have next. -/
def next (s : Pipeline M T) (p : ℤ) : ℕ :=
  s.position p + (s.persistor.delivered.filter fun m => m.partition = p).length

/-- What `try_recv` answers. -/
def received (s : Pipeline M T) : Except TryRecvError (String × Message) :=
  match s.stub.queue with
  | [] => .error .empty
  | message :: _ => .ok message

/-- One step, or `none` where the action cannot be taken. -/
def step (E : Env) (config : DatabaseWriterConfig) (topic : Topic M T) (s : Pipeline M T) :
    PipelineAction M T → Option (Pipeline M T)
  | .call q =>
    if s.pushing.isEmpty ∧ q.real = true then
      match s.engine.call E q with
      | .ok (_, engine) =>
        some { s with engine, pushing := engine.persistor.drop s.engine.persistor.length }
      | .error _ => none
    else none
  | .push =>
    match s.pushing with
    | [] => none
    | message :: pushing => (s.stub.pushMessageAndTopic message).map fun stub =>
      { s with stub, pushing }
  | .round sendRet lastPoll reports =>
    (s.producer.turn (.round ⟨s.received, sendRet, lastPoll, reports⟩)).map fun producer =>
      { s with
        producer
        stub := if MessageScheme.isFull s.producer.scheme then s.stub else s.stub.recv }
  | .place partition =>
    if s.placed.length <
      (s.records topic).length then some { s with placed := s.placed ++ [partition] } else none
  | .deliver p =>
    match (s.log topic p)[s.next p]?.bind topic.parse with
    | none => none
    | some message =>
      (s.persistor.step config topic.chain (.deliver ⟨p, s.next p, message⟩)).map fun persistor =>
        { s with persistor }
  | .persist (.deliver _) => none
  | .persist a => (s.persistor.step config topic.chain a).map fun persistor => { s with persistor }
  | .commit i =>
    (s.asked ++ s.persistor.commits)[i]?.map fun tplist =>
      { s with committed := fun p => (tplist.find? p).getD (s.committed p) }
  | .restart =>
    (Persistor.start topic.chain).map fun persistor =>
      { s with
        persistor
        position := s.committed
        stored := s.rows
        asked := s.asked ++ s.persistor.commits }

end Pipeline

end Dingir
