import Dingir.Lib.Service
import Dingir.Spec.Authentication
import Dingir.Spec.Handler
import Dingir.Spec.Reload

/-!
# The gRPC server

`server.rs`: the interceptor finds the user of a call, the handler checks it, and a call that writes
is sent to the dispatcher as a closure over its request and its user (`Task`). The dispatcher runs
one closure after the other under the write lock, and forks a slice under the read lock in between;
queries take the read lock whenever they come; `reload_markets` takes the write lock itself. On
`ServerLeave::leave` the dispatcher closes its channel, runs what is in it, and is gone.

This is the service of `GrpcHandler.service`. A read, be it a query or a slice, looks at the
controller. A reload that panics, and the `debug_*` calls of a debug build, are left out. The
amounts of a call are exact numbers and its messages go into a list without an end, so a call does
not panic here where a `Decimal` gets out of range (`Proof.Headroom`, `Proof.Sized`) or a channel of
messages is found full (`Proof.Producer`).
-/

namespace Dingir

/-- The calls that write, as they come in. The `user_id` of a balance update is a text of its
request. -/
inductive WriteCall
  | balanceUpdate (userId : String) (req : BalanceUpdateRequest)
  | orderPut (req : OrderPutRequest)
  | batchOrderPut (req : BatchOrderPutRequest)
  | orderCancel (req : OrderCancelRequest)
  | orderCancelAll (req : OrderCancelAllRequest)

/-- A call with its `authorization`, and the second it comes in. -/
structure Arrival where
  authorization : Authorization
  now : ℕ
  call : WriteCall

/-- What the dispatcher is sent: an operation for a user. -/
structure Task where
  user : Uuid
  operation : Operation

/-- The server besides its controller: what it authenticates with, and the functions of libraries
the handlers call. -/
structure Gateway where
  keycloak : Keycloak
  toU64 : ToU64
  /-- `is_sign_positive` of the decimal a text stands for; a zero has a sign, too -/
  isSignPositive : String → Bool
  /-- `Uuid::parse_str` -/
  parseUuid : String → Option Uuid

namespace GrpcHandler

/-- The user of a call that has one. -/
def getUserIdFromRequest (user : Option UserExtension) : Except Rejected Uuid :=
  match user with
  | some user => .ok user.userId
  | none => .error .panic

/-- How a call is stopped by a check on the stub. -/
def Stopped.rejected : Stopped → Rejected
  | .status st => .status st
  | .panic => .panic

/-- The handlers up to the `send` to the dispatcher. -/
def handle (G : Gateway) (E : Env) (stub : Controller) (user : Option UserExtension) :
    WriteCall → Except Rejected Task
  | .balanceUpdate userId req => do
    grpcBlockAnonymous user
    if (E.decimalFromStr req.delta).isNone then throw (.status (invalidArgument "invalid amount"))
    let block := if G.isSignPositive req.delta then grpcBlockNonDepositAdmins
      else grpcBlockNonWithdrawalAdmins
    block user
    match G.parseUuid userId with
    | none => throw (.status (invalidArgument "User id is not a valid UUID"))
    | some userId => return ⟨userId, .balanceUpdate req⟩
  | .orderPut req => do
    grpcBlockAnonymous user
    let userId ← getUserIdFromRequest user
    match checkOrder E G.toU64 stub req with
    | .error e => throw e.rejected
    | .ok () => return ⟨userId, .orderPut req⟩
  | .batchOrderPut req => do
    grpcBlockAnonymous user
    let userId ← getUserIdFromRequest user
    if maxBatchOrderNum < req.orders.length then
      throw (.status (invalidArgument
        ("out of maximum support order number (" ++ toString maxBatchOrderNum ++ ")")))
    return ⟨userId, .batchOrderPut req⟩
  | .orderCancel req => do
    grpcBlockAnonymous user
    return ⟨← getUserIdFromRequest user, .orderCancel req⟩
  | .orderCancelAll req => do
    grpcBlockAnonymous user
    return ⟨← getUserIdFromRequest user, .orderCancelAll req⟩

/-- A call from its arrival to the `send`: the interceptor, then its handler. -/
def receive (G : Gateway) (E : Env) (stub : Controller)
    (arrival : Arrival) : Except Rejected Task := do
  let user ← grpcInterceptor G.keycloak arrival.now arrival.authorization
  handle G E stub user arrival.call

end GrpcHandler

/-- What is done under the write lock: a call of the controller, or a reload of the markets for a
caller, with what its two queries give. -/
inductive ServerAction
  | call (q : Request)
  | reload (authorization : Authorization) (now : ℕ) (fromScratch : Bool) (assets : Fetch AssetDesc)
      (markets : Fetch MarketDesc)

inductive Answer
  | call (reply : Except Status Response)
  | reload (reply : Except Status Unit)

/-- An action on the controller. -/
def Configured.act (E : Env) (s : Configured) : ServerAction → Except Panic (Answer × Configured)
  | .call q => do
    let (reply, controller) ← s.controller.call E q
    return (.call reply, { s with controller })
  | .reload _ _ fromScratch assets markets => do
    let (reply, s) ← s.marketReload fromScratch assets markets
    return (.reload reply, s)

/-- **The sequential engine**: actions one after the other, with what each gives back. -/
def Configured.acts (E : Env) :
    Configured → List ServerAction → Except Panic (List Answer × Configured)
  | s, [] => .ok ([], s)
  | s, a :: as => do
    let (answer, s) ← s.act E a
    let (answers, s) ← s.acts E as
    return (answer :: answers, s)

namespace GrpcHandler

/-- The channel of the dispatcher. -/
def channelSize : ℕ := 16

/-- The call a task makes, at the reading `now` of the clock, with what `check_service_available`
says. -/
def Task.request (task : Task) (now : Timestamp) (available : Bool) : Request :=
  { now, available, real := true, user := task.user, operation := task.operation }

/-- `reload_markets` is open to admins. -/
def mayReload (keycloak : Keycloak) (now : ℕ)
    (authorization : Authorization) : Except Rejected Unit := do
  grpcBlockNonAdmins (← grpcInterceptor keycloak now authorization)

/-- **The server as a service.** -/
def service (G : Gateway) (E : Env) :
    Service.Rules Configured Arrival Task (Timestamp × Bool) ServerAction Answer where
  capacity := channelSize
  enter s arrival := (receive G E s.controller arrival).toOption
  act task e := .call (Task.request task e.1 e.2)
  exec s a := (s.act E a).toOption
  beside
    | .call _ => false
    | .reload authorization now _ _ _ => (mayReload G.keycloak now authorization).isOk

end GrpcHandler

/-- A server that runs; readers are told apart by `κ`. -/
abbrev Serving (κ : Type) := Service.State Configured Task ServerAction Answer κ

/-- The states a server reaches from others. -/
abbrev Serving.Runs {κ : Type} (G : Gateway) (E : Env) (s s' : Serving κ) : Prop :=
  Service.Runs (GrpcHandler.service G E) s s'

end Dingir
