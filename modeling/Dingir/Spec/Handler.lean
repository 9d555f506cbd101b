import Dingir.Spec.Run

/-!
# Orders through the gRPC handler

`AssetManager::commit_order` and `GrpcHandler::order_put` (`server.rs`). The handler
reads the stub, checks that the order can be committed, and queues the call of
`order_put`, which runs when its turn comes: the state it finds need not be the one
the check has read. The commitment itself is dropped.

`DecimalExt::to_u64` is a parameter, `none` where it panics. That panic ends the task
of the handler, and the engine never hears of the order.
-/

namespace Dingir

open Rounding Outcome

/-- `DecimalExt::to_u64` with a number of digits. -/
abbrev ToU64 := Decimal → ℕ → Option ℕ

structure OrderCommitment where
  tokenSell : ℕ
  tokenBuy : ℕ
  totalSell : ℕ
  totalBuy : ℕ
  deriving DecidableEq

/-- How an order is not committed. -/
inductive NotCommitted
  | bail (message : String)
  | panic
  deriving DecidableEq

def bail {α : Type} (message : String) : Except NotCommitted α := .error (.bail message)

/-- A value that must be there, or the text of the error. -/
def orBail {α : Type} (message : String) : Option α → Except NotCommitted α
  | none => bail message
  | some a => .ok a

/-- A call that panics where it has no value. -/
def orPanic {α : Type} : Option α → Except NotCommitted α
  | none => .error .panic
  | some a => .ok a

theorem orBail_ok {α : Type} {message : String} {v : Option α} {a : α} :
    orBail message v = .ok a ↔ v = some a := by
  cases v <;> simp [orBail, bail]

theorem orPanic_ok {α : Type} {v : Option α} {a : α} : orPanic v = .ok a ↔ v = some a := by
  cases v <;> simp [orPanic]

/-- `split('_')` -/
def splitName (name : String) : List String := (name.toList.splitOn '_').map String.ofList

namespace AssetManager

/-- The totals of an order, by its side. -/
def commitTotals (toU64 : ToU64) (market : Market) (orderSide : ℤ)
    (baseToken quoteToken : AssetInfo) (amount price : Decimal) :
    Except NotCommitted OrderCommitment := do
  if orderSide = 0 then
    let totalBuy ← orPanic (toU64 (amount * price) (market.amountPrec + market.pricePrec))
    let totalSell ← orPanic (toU64 amount market.amountPrec)
    return { tokenBuy := quoteToken.innerId, tokenSell := baseToken.innerId, totalBuy, totalSell }
  else if orderSide = 1 then
    let totalBuy ← orPanic (toU64 amount market.amountPrec)
    let totalSell ← orPanic (toU64 (amount * price) (market.amountPrec + market.pricePrec))
    return { tokenBuy := baseToken.innerId, tokenSell := quoteToken.innerId, totalBuy, totalSell }
  else bail "market error"

def commitOrder (E : Env) (toU64 : ToU64) (am : AssetManager) (o : OrderPutRequest)
    (market : Market) : Except NotCommitted OrderCommitment :=
  match splitName o.market with
  | [base, quote] => do
    let baseToken ← orBail "market base_token error" (am.assetGet base)
    let quoteToken ← orBail "market quote_token error" (am.assetGet quote)
    let amount ← orBail "amount error" (E.decimalFromStr o.amount)
    let price ← orBail "price error" (E.decimalFromStr o.price)
    commitTotals toU64 market o.orderSide baseToken quoteToken (truncDp amount market.amountPrec)
      (roundDp price market.pricePrec)
  | _ => bail "market error"

end AssetManager

/-! ## The handler -/

namespace GrpcHandler

/-- How the task of the handler ends without a call of the engine. -/
inductive Stopped
  | status (status : Status)
  | panic

/-- What `order_put` checks on the stub before it queues the call. -/
def checkOrder (E : Env) (toU64 : ToU64) (stub : Controller)
    (req : OrderPutRequest) : Except Stopped Unit :=
  match stub.markets.find? req.market with
  | none => .error (.status (invalidArgument "invalid market"))
  | some market =>
    match stub.balanceManager.assetManager.commitOrder E toU64 req market with
    | .error (.bail _) => .error (.status (invalidArgument "invalid order params"))
    | .error .panic => .error .panic
    | .ok _ => .ok ()

/-- `order_put`, checked on `stub` and run on `c`. -/
def orderPut (E : Env) (toU64 : ToU64) (now : Timestamp) (available : Bool) (stub c : Controller)
    (req : OrderPutRequest) (user : Uuid) : Except Stopped (Except Panic (Reply Response)) :=
  match checkOrder E toU64 stub req with
  | .error e => .error e
  | .ok () => .ok (c.orderPut E now available true req user)

def maxBatchOrderNum : ℕ := 40

/-- `batch_order_put` checks the number of its orders only. -/
def batchOrderPut (E : Env) (now : Timestamp) (available : Bool) (c : Controller)
    (req : BatchOrderPutRequest) (user : Uuid) : Except Stopped (Except Panic (Reply Response)) :=
  if maxBatchOrderNum < req.orders.length then
    .error (.status (invalidArgument
      ("out of maximum support order number (" ++ toString maxBatchOrderNum ++ ")")))
  else .ok (c.batchOrderPut E now available true req user)

end GrpcHandler

/-! ## Runs whose orders come through the handler -/

/-- An operation let in by the handler with `stub` at hand: an order passed its check, and no batch
puts one. -/
def Operation.Entered (E : Env) (toU64 : ToU64) (stub : Controller) : Operation → Prop
  | .orderPut req => GrpcHandler.checkOrder E toU64 stub req = .ok ()
  | .batchOrderPut req => req.orders = []
  | _ => True

/-- **The states reached when all orders come through the handler.** The stub read for a check is
any state of such a run, and an entry of a log that is replayed was let in with some such stub. -/
inductive HandledReachable (E : Env) (toU64 : ToU64) (settings : Settings) : Controller → Prop
  | init {c : Controller} : createController settings = .ok c → HandledReachable E toU64 settings c
  | call {stub c c' : Controller} {q : Request} {reply : Except Status Response} :
      HandledReachable E toU64 settings stub → HandledReachable E toU64 settings c →
      q.operation.Entered E toU64 stub →
      c.call E q = .ok (reply, c') → HandledReachable E toU64 settings c'
  | reset {c : Controller} : HandledReachable E toU64 settings c →
      HandledReachable E toU64 settings c.resetState
  | restart {c d b c' : Controller} {slice : Option Slice} {now : Timestamp}
      {log : List OperationLog} {stub : OperationLog → Controller} :
      HandledReachable E toU64 settings c → HandledReachable E toU64 settings d →
      Startable settings d b →
      (slice = none ∨ slice = some c.dump) →
      (∀ row ∈ log, HandledReachable E toU64 settings (stub row)) →
      (∀ row ∈ log, row.operation.Entered E toU64 (stub row)) →
      b.initFromDb E now slice log = .ok c' →
      HandledReachable E toU64 settings c'

variable {E : Env} {toU64 : ToU64} {settings : Settings}

/-- An order that the handler queues runs as a call of the engine. -/
theorem GrpcHandler.orderPut_ok {now : Timestamp} {available : Bool} {stub c : Controller}
    {req : OrderPutRequest} {user : Uuid} {r : Except Panic (Reply Response)}
    (h : orderPut E toU64 now available stub c req user = .ok r) :
    (Operation.orderPut req).Entered E toU64 stub ∧
      r = c.call E { now, available, real := true, user, operation := .orderPut req } := by
  unfold orderPut at h
  cases hcheck : checkOrder E toU64 stub req with
  | error e => simp [hcheck] at h
  | ok _ =>
    rw [hcheck] at h
    exact ⟨hcheck, (Except.ok.inj h).symm⟩

/-- **The handler leads from such states to such states.** -/
theorem HandledReachable.orderPut {now : Timestamp} {available : Bool} {stub c c' : Controller}
    {req : OrderPutRequest} {user : Uuid} {reply : Except Status Response}
    (hstub : HandledReachable E toU64 settings stub) (hc : HandledReachable E toU64 settings c)
    (h : GrpcHandler.orderPut E toU64 now available stub c req user = .ok (.ok (reply, c'))) :
    HandledReachable E toU64 settings c' := by
  obtain ⟨hentered, hcall⟩ := GrpcHandler.orderPut_ok h
  exact hstub.call hc hentered hcall.symm

/-- **The shipped configuration**: no trade with oneself, no market orders, no fees, no negative
minimum, and two assets in each market. -/
structure Settings.Shipped (settings : Settings) : Prop where
  disableSelfTrade : settings.disableSelfTrade = true
  disableMarketOrder : settings.disableMarketOrder = true
  feePrec : ∀ conf ∈ settings.markets, conf.feePrec = 0
  minAmount : ∀ conf ∈ settings.markets, 0 ≤ conf.minAmount
  assets : ∀ conf ∈ settings.markets, conf.base ≠ conf.quote

end Dingir
