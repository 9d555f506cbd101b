import Dingir.Spec.Snapshot

/-!
# Runs of the engine

The states a controller can be in: created from the settings, after calls that
returned (with a response or a `Status`), after a reset, and after a restart.
A restart begins with a new controller or a reset one (`debug_reload`), loads
the slice of an earlier state, if there is one, and replays any log it can.
-/

namespace Dingir

open Keyed Outcome

/-- Calls one after the other, with what each gives back. -/
def Controller.calls (E : Env) :
    Controller → List Request → Except Panic (List (Except Status Response) × Controller)
  | c, [] => .ok ([], c)
  | c, q :: qs => do
    let (reply, c) ← c.call E q
    let (replies, c) ← c.calls E qs
    return (reply :: replies, c)

/-- Every request of a run meets `P` in the state it is made in. -/
def Controller.Along (E : Env) (P : Controller → Request → Prop) : Controller → List Request → Prop
  | _, [] => True
  | c, q :: qs => P c q ∧ ∀ reply c', c.call E q = .ok (reply, c') → c'.Along E P qs

/-- Where an order is accepted, its market and its input meet `A`. -/
def Controller.Admits (E : Env) (A : Market → Ctx → OrderInput → Prop) (real : Bool)
    (c : Controller) (req : OrderPutRequest) (user : Uuid) : Prop :=
  ∀ m input, c.markets.find? req.market = some m → OrderInput.tryFrom E req = .ok input →
    m.checkInput E c.balanceManager input user = .ok () → A m (c.ctx real) input

/-- Every order of a batch meets `A` in the state it is put in. -/
def Controller.BatchAlong (E : Env) (now : Timestamp) (A : Market → Ctx → OrderInput → Prop)
    (real : Bool) (name : String) (user : Uuid) : List OrderPutRequest → Controller → Prop
  | [], _ => True
  | orderReq :: rest, c => name = orderReq.market → c.Admits E A real orderReq user ∧
      ∀ order c', c.putOrder E now real orderReq user = .ok (.ok order, c') →
        BatchAlong E now A real name user rest c'

/-- Every order a request puts meets `A` in the state it is put in. -/
def Controller.EachPut (E : Env) (A : Market → Ctx → OrderInput → Prop) (c : Controller)
    (q : Request) : Prop :=
  match q.operation with
  | .orderPut req => c.Admits E A q.real req q.user
  | .batchOrderPut req => ∀ c', c.batchStart E q.real req q.user = .ok (.ok (), c') →
      BatchAlong E q.now A q.real req.market q.user req.orders c'
  | _ => True

/-- The orders a batch puts, with the states it puts them in: a refused one is the last. -/
inductive Controller.BatchPuts (E : Env) (now : Timestamp) (real : Bool) (name : String)
    (user : Uuid) : List OrderPutRequest → Controller → Controller → OrderPutRequest → Prop
  | here {orderReq : OrderPutRequest} {rest : List OrderPutRequest} {c : Controller} :
      name = orderReq.market → BatchPuts E now real name user (orderReq :: rest) c c orderReq
  | next {orderReq req : OrderPutRequest} {rest : List OrderPutRequest} {c c' c₁ : Controller}
      {order : Order} :
      name = orderReq.market → c.putOrder E now real orderReq user = .ok (.ok order, c') →
      BatchPuts E now real name user rest c' c₁ req →
      BatchPuts E now real name user (orderReq :: rest) c c₁ req

/-- **The orders a request puts**, with the states it puts them in. -/
inductive Controller.Puts (E : Env) (c : Controller) (q : Request) :
    Controller → OrderPutRequest → Prop
  | order {req : OrderPutRequest} : q.operation = .orderPut req → q.available = true →
      Puts E c q c req
  | batch {req : BatchOrderPutRequest} {c' c₁ : Controller} {orderReq : OrderPutRequest} :
      q.operation = .batchOrderPut req → q.available = true → (c.markets.find? req.market).isSome →
      c.batchStart E q.real req q.user = .ok (.ok (), c') →
      BatchPuts E q.now q.real req.market q.user req.orders c' c₁ orderReq → Puts E c q c₁ orderReq

/-- A controller a restart can begin with: a new one, or the reset `d`. -/
def Startable (settings : Settings) (d b : Controller) : Prop :=
  createController settings = .ok b ∨ b = d.resetState

/-- **The reachable states of a controller.** `market_reload` is no step:
runs that reload are `Operated`, in `Spec.Reload`. -/
inductive Reachable (E : Env) (settings : Settings) : Controller → Prop
  | init {c : Controller} : createController settings = .ok c → Reachable E settings c
  | call {c c' : Controller} {q : Request} {reply : Except Status Response} :
      Reachable E settings c → c.call E q = .ok (reply, c') → Reachable E settings c'
  | reset {c : Controller} : Reachable E settings c → Reachable E settings c.resetState
  | restart {c d b c' : Controller} {slice : Option Slice} {now : Timestamp}
      {log : List OperationLog} :
      Reachable E settings c → Reachable E settings d → Startable settings d b →
      (slice = none ∨ slice = some c.dump) → b.initFromDb E now slice log = .ok c' →
      Reachable E settings c'

variable {E : Env} {settings : Settings} {c c' : Controller} {qs : List Request}
  {replies : List (Except Status Response)}

/-- What every request of a list meets in every state is met along the run. -/
theorem Controller.along_each {A : Controller → Request → Prop} (h : ∀ q ∈ qs, ∀ c, A c q)
    (c : Controller) : c.Along E A qs := by
  induction qs generalizing c with
  | nil => trivial
  | cons q qs ih =>
    exact ⟨h q List.mem_cons_self c,
      fun _ c' _ => ih (fun p hp => h p (List.mem_cons_of_mem _ hp)) c'⟩

theorem Controller.along_of {A : Request → Prop} (h : ∀ q ∈ qs, A q) (c : Controller) :
    c.Along E (fun _ q => A q) qs :=
  along_each (fun q hq _ => h q hq) c

theorem Controller.Along.and {A B : Controller → Request → Prop} (h : c.Along E A qs)
    (h' : c.Along E B qs) : c.Along E (fun c q => A c q ∧ B c q) qs := by
  induction qs generalizing c with
  | nil => trivial
  | cons q qs ih =>
    exact ⟨⟨h.1, h'.1⟩, fun reply c' hcall => ih (h.2 reply c' hcall) (h'.2 reply c' hcall)⟩

/-- **What every call keeps, a run of calls keeps**, when its requests meet `A`. -/
theorem Controller.calls_rule {P : Controller → Prop} {A : Controller → Request → Prop}
    (hstep : ∀ c c' q reply, P c → A c q → c.call E q = .ok (reply, c') → P c') (hP : P c)
    (hA : c.Along E A qs) (h : c.calls E qs = .ok (replies, c')) : P c' := by
  induction qs generalizing c replies with
  | nil =>
    obtain ⟨-, rfl⟩ := by simpa [Controller.calls] using h
    exact hP
  | cons q qs ih =>
    simp only [Controller.calls, bind_ok, pure_ok, Prod.mk.injEq] at h
    obtain ⟨⟨reply, c₁⟩, hcall, ⟨rest, c₂⟩, hrest, -, rfl⟩ := h
    exact ih (hstep c c₁ q reply hP hA.1 hcall) (hA.2 reply c₁ hcall) hrest

/-- Calls lead from reachable states to reachable states. -/
theorem Reachable.calls (h : Reachable E settings c)
    (hcalls : c.calls E qs = .ok (replies, c')) : Reachable E settings c' :=
  Controller.calls_rule (fun _ _ _ _ h _ hcall => h.call hcall) h
    (Controller.along_of (fun _ _ => trivial) c) hcalls

/-- The settings with another limit on the open orders of a user. -/
def Settings.limited (settings : Settings) (limit : ℕ) : Settings :=
  { settings with userOrderNumLimit := limit }

/-- **The reachable states of a controller whose limit is changed between two lives**: a restart
loads what was dumped under another limit. The number is the limit it has now. -/
inductive Relimited (E : Env) (settings : Settings) : ℕ → Controller → Prop
  | init {limit : ℕ} {c : Controller} : createController (settings.limited limit) = .ok c →
      Relimited E settings limit c
  | call {limit : ℕ} {c c' : Controller} {q : Request} {reply : Except Status Response} :
      Relimited E settings limit c → c.call E q = .ok (reply, c') → Relimited E settings limit c'
  | reset {limit : ℕ} {c : Controller} : Relimited E settings limit c →
      Relimited E settings limit c.resetState
  | restart {limit limit' : ℕ} {c d b c' : Controller} {slice : Option Slice} {now : Timestamp}
      {log : List OperationLog} :
      Relimited E settings limit' c → Relimited E settings limit d →
      Startable (settings.limited limit) d b →
      (slice = none ∨ slice = some c.dump) → b.initFromDb E now slice log = .ok c' →
      Relimited E settings limit c'

/-- **The states along a run**, those in the middle of a recovery included: a recovery loads a
slice, if there is one, makes the calls of the log, and sets the counter of the log. -/
inductive Running (E : Env) (settings : Settings) : Controller → Prop
  | init {c : Controller} : createController settings = .ok c → Running E settings c
  | call {c c' : Controller} {q : Request} {reply : Except Status Response} :
      Running E settings c → c.call E q = .ok (reply, c') → Running E settings c'
  | reset {c : Controller} : Running E settings c → Running E settings c.resetState
  | load {c d b c₁ : Controller} : Running E settings c → Running E settings d →
      Startable settings d b →
      b.loadSlice E c.dump = .ok c₁ → Running E settings { c₁ with
        sequencer :=
          (c₁.sequencer.setOrderId c.dump.history.endOrderId).setTradeId c.dump.history.endTradeId }
  | recovered {c : Controller} (id : ℕ) : Running E settings c →
      Running E settings { c with sequencer := c.sequencer.setOperationLogId id }

/-- **The states along a run whose orders meet a condition**: `A` says what an order of a user is to
meet on the market it is put on. The states in the middle of a recovery are included. -/
inductive PutRun (E : Env) (settings : Settings)
    (A : Uuid → Market → Ctx → OrderInput → Prop) : Controller → Prop
  | init {c : Controller} : createController settings = .ok c → PutRun E settings A c
  | call {c c' : Controller} {q : Request} {reply : Except Status Response} :
      PutRun E settings A c → c.EachPut E (A q.user) q → c.call E q = .ok (reply, c') →
      PutRun E settings A c'
  | reset {c : Controller} : PutRun E settings A c → PutRun E settings A c.resetState
  | load {c d b c₁ : Controller} : PutRun E settings A c → PutRun E settings A d →
      Startable settings d b →
      b.loadSlice E c.dump = .ok c₁ → PutRun E settings A { c₁ with
        sequencer :=
          (c₁.sequencer.setOrderId c.dump.history.endOrderId).setTradeId c.dump.history.endTradeId }
  | recovered {c : Controller} (id : ℕ) : PutRun E settings A c →
      PutRun E settings A { c with sequencer := c.sequencer.setOperationLogId id }

theorem PutRun.calls {A : Uuid → Market → Ctx → OrderInput → Prop} (h : PutRun E settings A c)
    (hput : c.Along E (fun c q => c.EachPut E (A q.user) q) qs)
    (hcalls : c.calls E qs = .ok (replies, c')) : PutRun E settings A c' :=
  Controller.calls_rule (fun _ _ _ _ h hput hcall => h.call hput hcall) h hput hcalls

/-- The balance updates a call has made. -/
def Request.updates (q : Request) (reply : Except Status Response) : ℕ :=
  match q.operation, reply with
  | .balanceUpdate _, .ok _ => 1
  | _, _ => 0

/-- **A life of the engine** from the state `c`, without a reset or a restart: calls, those of a
recovery included, and the end of the recovery. It counts the balance updates made. -/
inductive Life (E : Env) (c : Controller) : ℕ → Controller → Prop
  | start : Life E c 0 c
  | call {n : ℕ} {c' c'' : Controller} {q : Request} {reply : Except Status Response} :
      Life E c n c' → c'.call E q = .ok (reply, c'') → Life E c (n + q.updates reply) c''
  | recovered {n : ℕ} {c' : Controller} (id : ℕ) : Life E c n c' →
      Life E c n { c' with sequencer := c'.sequencer.setOperationLogId id }

/-- The identity of a deposit or a withdrawal, as the filter knows it; `none` for a request that is
refused before the filter is asked. -/
def Controller.updateKey (E : Env) (c : Controller) (req : BalanceUpdateRequest) (user : Uuid) :
    Option BalanceUpdateKey :=
  match c.balanceManager.assetManager.assetPrecShow req.asset with
  | .error _ => none
  | .ok prec =>
    match Controller.parseUpdate E prec req with
    | .error _ => none
    | .ok (change, detail) => some (Controller.updateParams req user 0 change detail).key

/-- **The states the methods of the markets reach**, called one by one. -/
inductive MarketRun (E : Env) (settings : Settings) : Controller → Prop
  | init {c : Controller} : createController settings = .ok c → MarketRun E settings c
  | updateBalance {c c' : Controller} {now : Timestamp} {available real : Bool}
      {req : BalanceUpdateRequest} {user : Uuid} {reply : Except Status Response} :
      MarketRun E settings c → c.updateBalance E now available real req user = .ok (reply, c') →
      MarketRun E settings c'
  | putOrder {c : Controller} {now : Timestamp} {real : Bool} {name : String} {m m' : Market}
      {x' : Ctx} {input : OrderInput} {user : Uuid} {res : Except String Order} :
      MarketRun E settings c → c.markets.find? name = some m →
      m.putOrder E now (c.ctx real) input user = .ok (res, m', x') →
      MarketRun E settings (c.withMarket name m' x')
  | cancel {c : Controller} {real : Bool} {name : String} {m m' : Market} {x' : Ctx} {id : ℕ}
      {o : Order} :
      MarketRun E settings c → c.markets.find? name = some m →
      m.cancel E (c.ctx real) id = .ok (o, m', x') →
      MarketRun E settings (c.withMarket name m' x')
  | cancelAllForUser {c : Controller} {real : Bool} {name : String} {m m' : Market} {x' : Ctx}
      {user : Uuid} {n : ℕ} : MarketRun E settings c → c.markets.find? name = some m →
      m.cancelAllForUser E (c.ctx real) user = .ok (n, m', x') →
      MarketRun E settings (c.withMarket name m' x')
  | resetMarket {c : Controller} {name : String} {m : Market} :
      MarketRun E settings c → c.markets.find? name = some m →
      MarketRun E settings (c.withMarket name m.reset (c.ctx true))
  | resetState {c : Controller} : MarketRun E settings c → MarketRun E settings c.resetState
  | restart {c d b c' : Controller} {slice : Option Slice} {now : Timestamp}
      {log : List OperationLog} :
      MarketRun E settings c → MarketRun E settings d → Startable settings d b →
      (slice = none ∨ slice = some c.dump) → b.initFromDb E now slice log = .ok c' →
      MarketRun E settings c'

end Dingir
