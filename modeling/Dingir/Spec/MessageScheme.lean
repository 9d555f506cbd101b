import Dingir.Spec.Producer

/-!
# The producer thread

`message/producer.rs`: `run_loop` empties the channel of a stub into a
`MessageScheme`, hands the records the scheme pops up to the Kafka producer, and
passes the delivery reports on. When the channel is disconnected, `run` hands
over what is left. The settings of the producer, waiting and the log are left out.

The channel, the producer and its reports are the environment: a `Round` holds
what they answer in one round of the loop. Counters wrap, as in a release build.
-/

namespace Dingir

inductive KafkaError
  /-- `MessageProduction(QueueFull)` -/
  | queueFull
  | other
  deriving DecidableEq

abbrev SimpleDeliverResult := Except KafkaError Unit

inductive TryRecvError
  | empty
  | disconnected
  deriving DecidableEq

/-- A record with the opaque that its delivery report carries. -/
structure BaseRecord (V Opaque : Type) where
  topic : String
  key : String
  payload : V
  deliveryOpaque : Opaque
  deriving DecidableEq

/-- `trait MessageScheme`; `none` is a panic. -/
class MessageScheme (T : Type) (V Opaque : outParam Type) where
  new : T
  isFull : T → Bool
  onMessage : T → String → V → T
  popUp : T → Option (BaseRecord V Opaque) × T
  commit : T → Option Opaque → Option T
  deliverCommit : T → SimpleDeliverResult → Opaque → Option T

def balancesTopic := "balances"

def depositsTopic := "deposits"

def ordersTopic := "orders"

def tradesTopic := "trades"

def unifyTopic := "unifyevents"

def userTopic := "registeruser"

def withdrawsTopic := "withdraws"

/-! ## The full order -/

structure FullOrderMessageScheme (V : Type) where
  orderedList : List (String × V)
  deliverCnt : UInt64
  commitedCnt : UInt64

namespace FullOrderMessageScheme

variable {V : Type}

def new : FullOrderMessageScheme V := ⟨[], 0, 0⟩

def isFull (s : FullOrderMessageScheme V) : Bool := 100 ≤ s.orderedList.length

/-- The topics `on_message` does not ignore. -/
def unified (topic : String) : Bool :=
  topic ∈ [depositsTopic, ordersTopic, tradesTopic, userTopic, withdrawsTopic]

def onMessage (s : FullOrderMessageScheme V) (titleTip : String)
    (message : V) : FullOrderMessageScheme V :=
  if unified titleTip then { s with orderedList := s.orderedList ++ [(titleTip, message)] } else s

/-- The front stays in the list, under the number it is to have. -/
def popUp (s : FullOrderMessageScheme V) :
    Option (BaseRecord V UInt64) × FullOrderMessageScheme V :=
  match s.orderedList with
  | [] => (none, s)
  | (titleTip, message) :: _ => (some ⟨unifyTopic, titleTip, message, s.deliverCnt⟩, s)

def commit (s : FullOrderMessageScheme V) : Option UInt64 → Option (FullOrderMessageScheme V)
  | none => some { s with orderedList := s.orderedList.tail, deliverCnt := s.deliverCnt + 1 }
  | some isfailed => if isfailed = s.deliverCnt then some s else none

/-- A lost message is only logged. -/
def deliverCommit (s : FullOrderMessageScheme V) (_result : SimpleDeliverResult)
    (opaqueCnt : UInt64) : Option (FullOrderMessageScheme V) :=
  if opaqueCnt = s.commitedCnt then some { s with commitedCnt := s.commitedCnt + 1 } else none

instance : MessageScheme (FullOrderMessageScheme V) V UInt64 where
  new := new
  isFull := isFull
  onMessage := onMessage
  popUp := popUp
  commit := commit
  deliverCommit := deliverCommit

end FullOrderMessageScheme

/-! ## The simple scheme -/

/-- A list for each topic, and the message popped last. -/
structure SimpleMessageScheme (V : Type) where
  balancesList : List V
  ordersList : List V
  tradesList : List V
  usersList : List V
  lastPoped : Option (String × V)

/-- The topics of the lists. -/
def simpleTopics : List String := [balancesTopic, ordersTopic, tradesTopic, userTopic]

namespace SimpleMessageScheme

variable {V : Type}

def new : SimpleMessageScheme V := ⟨[], [], [], [], none⟩

/-- The list of a topic. -/
def listOf (s : SimpleMessageScheme V) (topic : String) : List V :=
  if topic = balancesTopic then s.balancesList
  else if topic = ordersTopic then s.ordersList
  else if topic = tradesTopic then s.tradesList
  else if topic = userTopic then s.usersList
  else []

def setList (s : SimpleMessageScheme V) (topic : String) (list : List V) : SimpleMessageScheme V :=
  if topic = balancesTopic then { s with balancesList := list }
  else if topic = ordersTopic then { s with ordersList := list }
  else if topic = tradesTopic then { s with tradesList := list }
  else if topic = userTopic then { s with usersList := list }
  else s

def isFull (s : SimpleMessageScheme V) : Bool :=
  100 ≤ s.balancesList.length || 100 ≤ s.ordersList.length || 100 ≤ s.tradesList.length || 100 ≤
    s.usersList.length

def onMessage (s : SimpleMessageScheme V) (titleTip : String)
    (message : V) : SimpleMessageScheme V :=
  if titleTip ∈ simpleTopics then s.setList titleTip (s.listOf titleTip ++ [message]) else s

/-- The topic of the longest list, the first one of several. -/
def longest (s : SimpleMessageScheme V) : String :=
  [ordersTopic, tradesTopic, userTopic].foldl
    (fun topicName tpName => if (s.listOf tpName).length > (s.listOf topicName).length then tpName
      else topicName)
    balancesTopic

def popUp (s : SimpleMessageScheme V) : Option (BaseRecord V Unit) × SimpleMessageScheme V :=
  match s.listOf s.longest with
  | [] => (none, { s with lastPoped := none })
  | message :: rest =>
    (some ⟨s.longest, "", message, ()⟩,
      { s.setList s.longest rest with lastPoped := some (s.longest, message) })

/-- A message that was not sent is taken in once more. -/
def commit (s : SimpleMessageScheme V) : Option Unit → Option (SimpleMessageScheme V)
  | none => some s
  | some () => s.lastPoped.map fun (topicName, message) =>
    { s with lastPoped := none }.onMessage topicName message

instance : MessageScheme (SimpleMessageScheme V) V Unit where
  new := new
  isFull := isFull
  onMessage := onMessage
  popUp := popUp
  commit := commit
  deliverCommit s _ _ := some s

end SimpleMessageScheme

/-! ## The loop -/

inductive ProducerPhase
  | looping
  | flushing
  | terminated
  deriving DecidableEq

/-- A producer thread, with what it received, the records that `send` took, and how many of
these were reported. -/
structure RdProducer (T V Opaque : Type) where
  scheme : T
  lastPoll : ℤ
  producerQueueFull : Bool
  phase : ProducerPhase
  received : List (String × V)
  sent : List (BaseRecord V Opaque)
  reported : ℕ

/-- What one round of the loop meets: the answer of the channel, of `send` and of `poll`, and the
results of the delivery reports, which come in the order of the records. -/
structure Round (V : Type) where
  recvRet : Except TryRecvError (String × V)
  sendRet : Except KafkaError Unit
  lastPoll : ℤ
  reports : List SimpleDeliverResult

namespace RdProducer

variable {T V Opaque : Type} [MessageScheme T V Opaque]

def start : RdProducer T V Opaque :=
  { scheme := MessageScheme.new, lastPoll := 0, producerQueueFull := false, phase := .looping,
    received := [],
    sent := [], reported := 0 }

/-- First, a message is received, unless the scheme is full. -/
def recv (p : RdProducer T V Opaque)
    (recvRet : Except TryRecvError (String × V)) : RdProducer T V Opaque :=
  if MessageScheme.isFull p.scheme then p
  else match recvRet with
    | .ok (topic, message) =>
      { p with
        scheme := MessageScheme.onMessage p.scheme topic message
        received := p.received ++ [(topic, message)] }
    | .error .empty => p
    | .error .disconnected => { p with phase := .flushing }

/-- `send` and `commit` of a record. -/
def send (p : RdProducer T V Opaque) (msg : BaseRecord V Opaque) :
    Except KafkaError Unit → Option (RdProducer T V Opaque)
  | .ok () => (MessageScheme.commit p.scheme none).map fun scheme =>
    { p with scheme, sent := p.sent ++ [msg] }
  | .error _ => (MessageScheme.commit p.scheme (some msg.deliveryOpaque)).map fun scheme =>
    { p with scheme }

def isQueueFull : Except KafkaError Unit → Bool
  | .error .queueFull => true
  | _ => false

/-- Then a record is sent, unless the queue of the producer was full. -/
def trySend (p : RdProducer T V Opaque) (sendRet : Except KafkaError Unit) :
    Option (RdProducer T V Opaque) :=
  if p.producerQueueFull then some p
  else match MessageScheme.popUp p.scheme with
    | (none, scheme) => some { p with scheme }
    | (some msg, scheme) =>
      { p with scheme, producerQueueFull := isQueueFull sendRet }.send msg sendRet

/-- The next delivery report, if there is a record to report. -/
def deliver (p : RdProducer T V Opaque) (result : SimpleDeliverResult) :
    Option (RdProducer T V Opaque) :=
  match p.sent[p.reported]? with
  | none => some p
  | some msg => (MessageScheme.deliverCommit p.scheme result msg.deliveryOpaque).map fun scheme =>
      { p with scheme, reported := p.reported + 1 }

/-- Finally, `poll`. -/
def poll (p : RdProducer T V Opaque) (lastPoll : ℤ) : RdProducer T V Opaque :=
  { p with lastPoll, producerQueueFull := p.producerQueueFull && lastPoll == 0 }

/-- A round of `run_loop`. -/
def round (p : RdProducer T V Opaque) (r : Round V) : Option (RdProducer T V Opaque) :=
  let p := p.recv r.recvRet
  if p.phase = .flushing then some p
  else (p.trySend r.sendRet).bind fun p => r.reports.foldlM deliver (p.poll r.lastPoll)

/-- A round of the loop of `run` that hands over what is left. -/
def flush (p : RdProducer T V Opaque) (sendRet : Except KafkaError Unit) :
    Option (RdProducer T V Opaque) :=
  match MessageScheme.popUp p.scheme with
  | (none, scheme) => some { p with scheme, phase := .terminated }
  | (some msg, scheme) =>
    match sendRet with
    | .error .other => some { p with scheme, phase := .terminated }
    | _ => { p with scheme }.send msg sendRet

/-- A round of one of the two loops. -/
inductive Turn (V : Type)
  | round (r : Round V)
  | flush (sendRet : Except KafkaError Unit)

/-- What a turn leads to, in the phase it belongs to. -/
def turn (p : RdProducer T V Opaque) : Turn V → Option (RdProducer T V Opaque)
  | .round r => if p.phase = .looping then p.round r else none
  | .flush sendRet => if p.phase = .flushing then p.flush sendRet else none

/-- The states of a producer thread, between the rounds of its loops. -/
inductive Reachable : RdProducer T V Opaque → Prop
  | start : Reachable start
  | round {p p' : RdProducer T V Opaque} {r : Round V} : Reachable p → p.phase = .looping →
      p.round r = some p' →
      Reachable p'
  | flush {p p' : RdProducer T V Opaque} {sendRet : Except KafkaError Unit} :
      Reachable p → p.phase = .flushing →
      p.flush sendRet = some p' → Reachable p'

end RdProducer

end Dingir
