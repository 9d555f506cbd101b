import Dingir.Proof.CancelAll
import Dingir.Proof.Halting
import Dingir.Proof.Recovery
import Dingir.Proof.Server

/-!
# What the dispatcher writes, and what it dies of

* **`Serving.Runs.journaled`**: the log of a server holds the calls that got a response, each once,
  in the order they were run, numbered without a gap. A refused call is not in it, even where it has
  changed the engine.
* **`Serving.Runs.survives`**: in the release build, with the shipped settings and orders that come
  one by one, the dispatcher panics of nothing but a balance update whose detail is neither a JSON
  object nor null. An order that was checked on an older state, a cancellation, or a call that is
  refused never stops it. This is about the run of `Spec.Server`, in which amounts are exact and no
  channel of messages is full.
-/

namespace Dingir

open Service Outcome Keyed Market

variable {κ : Type} {G : Gateway} {E : Env} {settings : Settings} {s₀ v v' : Configured}
  {s : Serving κ} {n : ℕ} {e : Entry Task ServerAction Answer}
  {es es' : List (Entry Task ServerAction Answer)} {b c c' stub : Controller} {q : Request}
  {reply : Except Status Response}

/-! ## The log -/

/-- The row of an entry that got a response. -/
def entryRow (id : ℕ) (e : Entry Task ServerAction Answer) : Option OperationLog :=
  match e.action, e.reply with
  | .call q, .call (.ok _) => some { id, userId := q.user, time := q.now, operation := q.operation }
  | _, _ => none

/-- The rows of the entries, numbered from `n`. -/
def rowsFrom (n : ℕ) : List (Entry Task ServerAction Answer) → List OperationLog
  | [] => []
  | e :: es =>
    match entryRow (n + 1) e with
    | some row => row :: rowsFrom (n + 1) es
    | none => rowsFrom n es

/-- Whether an entry has a row does not depend on its number. -/
theorem entryRow_id {row : OperationLog} (m : ℕ) (h : entryRow n e = some row) :
    entryRow m e = some { row with id := m } := by
  obtain ⟨task, action, answer⟩ := e
  unfold entryRow at h ⊢
  cases action with
  | reload => cases h
  | call q =>
    cases answer with
    | reload => cases h
    | call reply =>
      cases reply with
      | error st => cases h
      | ok response =>
        obtain rfl := Option.some.inj h
        rfl

/-- The rows of more entries are numbered on. -/
theorem rowsFrom_append (n : ℕ) (es es' : List (Entry Task ServerAction Answer)) :
    rowsFrom n (es ++ es') = rowsFrom n es ++ rowsFrom (n + (rowsFrom n es).length) es' := by
  induction es generalizing n with
  | nil => rfl
  | cons e es ih =>
    rw [List.cons_append]
    simp only [rowsFrom]
    split
    · rw [ih, List.cons_append, List.length_cons]
      congr 3
      omega
    · rw [ih]

/-- The rows have the numbers from `n + 1` on. -/
theorem rowsFrom_ids (n : ℕ) (es : List (Entry Task ServerAction Answer)) :
    (rowsFrom n es).map OperationLog.id = List.range' (n + 1) (rowsFrom n es).length := by
  induction es generalizing n with
  | nil => rfl
  | cons e es ih =>
    simp only [rowsFrom]
    split
    · rename_i row hrow
      rw [List.map_cons, ih, List.length_cons, List.range'_succ]
      have hid := entryRow_id (n + 1) hrow
      rw [hrow] at hid
      rw [Option.some.inj hid]
    · exact ih n

/-- A call adds its row to the log, or leaves the log alone. -/
theorem ControllerOK.logs (hc : ControllerOK b c) (hreal : q.real = true)
    (h : c.call E q = .ok (reply, c')) {task : Task} (hran : Ran e task q reply) :
    c'.logHandler = c.logHandler ++ rowsFrom c.sequencer.operationLogId [e] ∧
      c'.sequencer.operationLogId = c.sequencer.operationLogId +
        (rowsFrom c.sequencer.operationLogId [e]).length := by
  simp only [rowsFrom, entryRow, hran.action, hran.reply]
  cases reply with
  | error st =>
    -- a call that fails has no row
    obtain ⟨c₁, hmoves, hends⟩ := call_moves hc h
    obtain ⟨hlog, hid⟩ := hmoves.log
    cases hends with
    | refused => exact ⟨by rw [hlog, List.append_nil], hid⟩
  | ok response =>
    obtain ⟨hid, hlog⟩ := call_logged hc hreal h
    exact ⟨hlog, hid⟩

/-- **The operation log is exact.** -/
theorem Serving.Runs.journaled (h : Serving.Runs G E (.start s₀) s) (hs : s.Unreloaded)
    (h₀ : Reachable E settings s₀.controller) :
    s.state.controller.logHandler = s₀.controller.logHandler ++
      rowsFrom s₀.controller.sequencer.operationLogId s.log ∧
      (rowsFrom s₀.controller.sequencer.operationLogId s.log).map OperationLog.id =
        List.range' (s₀.controller.sequencer.operationLogId + 1)
        (rowsFrom s₀.controller.sequencer.operationLogId s.log).length ∧
      s.state.controller.sequencer.operationLogId =
        s₀.controller.sequencer.operationLogId +
          (rowsFrom s₀.controller.sequencer.operationLogId s.log).length := by
  have hsound : Serving.Sound G E s₀ s := Service.Runs.sound h
  obtain ⟨hlog, hid⟩ := hsound.rule (P := fun n v =>
    v.controller.logHandler = s₀.controller.logHandler ++
      rowsFrom s₀.controller.sequencer.operationLogId (s.log.take n) ∧
      v.controller.sequencer.operationLogId =
        s₀.controller.sequencer.operationLogId +
          (rowsFrom s₀.controller.sequencer.operationLogId (s.log.take n)).length)
    hs ⟨(List.append_nil _).symm, rfl⟩ (fun n e v v' task q reply hat hran hcall _ hkept => by
      obtain ⟨b, -, hok⟩ := (hsound.reachable hs h₀ hat.before).ok
      obtain ⟨hlog, hid⟩ := hkept n le_rfl v hat.before
      obtain ⟨hlog', hid'⟩ := hok.logs hran.real hcall hran
      rw [hid] at hlog' hid'
      rw [List.take_add_one, hat.entry, Option.toList_some, rowsFrom_append, List.length_append]
      exact ⟨by rw [hlog', hlog, List.append_assoc], by rw [hid', Nat.add_assoc]⟩) _ _ hsound.stands
  rw [List.take_length] at hlog hid
  exact ⟨hlog, rowsFrom_ids _ _, hid⟩

/-- The deposit and the ask of the sample day have a row each. -/
theorem Serving.Runs.journaled_sample : ∃ (c : Controller) (s : Serving ℕ), s.log.length = 2 ∧
    s.state.controller.logHandler = c.logHandler ++ rowsFrom c.sequencer.operationLogId s.log ∧
    s.state.controller.sequencer.operationLogId = 2 := by
  have h : (sampleServing releaseEnv).map
      (fun t => (t.2.2.log.all fun e => e.task.isSome, t.2.2.log.length,
      t.2.2.state.controller.sequencer.operationLogId)) = some (true, 2, 2) := by decide +kernel
  obtain ⟨⟨c, s', s⟩, hday, hread⟩ := Option.map_eq_some_iff.1 h
  obtain ⟨hcalls, htwo, hid⟩ : _ ∧ s.log.length = 2 ∧
      s.state.controller.sequencer.operationLogId = 2 := by
    simpa only [Prod.mk.injEq] using hread
  obtain ⟨hc, hruns, hruns'⟩ := sampleServing_runs hday
  obtain ⟨hlog, -, -⟩ :=
    Serving.Runs.journaled (hruns.trans hruns') (fun e he => List.all_eq_true.1 hcalls e he)
    (.init hc)
  exact ⟨c, s, htwo, hlog, hid⟩

/-! ## What a call needs to return -/

/-- Without assertions a cancellation returns. -/
theorem orderCancel_returns {available : Bool} {req : OrderCancelRequest}
    (hE : E.debugAssertions = false) (hc : ControllerOK b c) (now : Timestamp) (real : Bool)
    (u : Uuid) : ∃ reply c', c.orderCancel E now available real req u = .ok (reply, c') := by
  unfold Controller.orderCancel
  split
  · exact ⟨_, _, rfl⟩
  split
  case h_2 => exact ⟨_, _, rfl⟩
  rename_i m hm
  split
  case h_2 => exact ⟨_, _, rfl⟩
  rename_i rc hrc
  have hd := (hc.desk _ _ hm).2 real
  -- the index gives the handle of the order itself
  have hid : (m.rcs.read rc).id = req.orderId := hd.index.ownId _ _ hrc
  rw [← hid] at hrc
  simp only
  split
  · exact ⟨_, _, rfl⟩
  obtain ⟨⟨m', x'⟩, hfinish⟩ := orderFinish_returns hE hd hrc
  have hcancel : m.cancel E (c.ctx real) (m.rcs.read rc).id = .ok (m.rcs.read rc, m', x') := by
    unfold Market.cancel Market.deep
    rw [hrc]
    exact bind_ok.2 ⟨_, rfl, bind_ok.2 ⟨(m', x'), hfinish, rfl⟩⟩
  exact ⟨_, _, bind_ok.2 ⟨_, hcancel, rfl⟩⟩

/-- A batch without orders returns. -/
theorem batchOrderPut_returns {available : Bool} {req : BatchOrderPutRequest}
    (hreq : req.orders = []) (now : Timestamp) (real : Bool) (u : Uuid) :
    ∃ reply c', c.batchOrderPut E now available real req u = .ok (reply, c') := by
  have hstart : c.batchStart E real req u = .ok (.ok (), c) := by
    unfold Controller.batchStart
    rw [hreq]
    split <;> rfl
  unfold Controller.batchOrderPut
  split
  · exact ⟨_, _, rfl⟩
  split
  · exact ⟨_, _, rfl⟩
  rw [hstart, hreq]
  exact ⟨_, _, rfl⟩

/-- An order that was checked is put or refused. -/
theorem HandledReachable.orderPut_returns {toU64 : ToU64} {available : Bool} {req : OrderPutRequest}
    (hU : toU64.Unsigned) (hs : settings.Shipped) (hE : E.debugAssertions = false)
    (hstub : HandledReachable E toU64 settings stub) (hc : HandledReachable E toU64 settings c)
    (hcheck : GrpcHandler.checkOrder E toU64 stub req = .ok ()) (now : Timestamp) (real : Bool)
    (u : Uuid) : ∃ reply c', c.orderPut E now available real req u = .ok (reply, c') := by
  obtain ⟨res, c₁, hput⟩ : ∃ res c₁, c.putOrder E now real req u = .ok (res, c₁) := by
    unfold Controller.putOrder
    split
    case h_2 => exact ⟨_, _, rfl⟩
    rename_i m hm
    simp only [Env.debugAssert_release hE]
    split
    · exact ⟨_, _, rfl⟩
    split
    · exact ⟨_, _, rfl⟩
    rename_i input hinput
    -- what the handler checked is enough for the market
    obtain ⟨⟨res, m', x'⟩, hmarket, -⟩ := putOrder_total (u := u) E now (hc.desk hU hs hm real)
      fun hchecked => hstub.entered hU hs hc hcheck hm hinput hchecked
    cases res with
    | error e => exact ⟨_, _, bind_ok.2 ⟨(), rfl, bind_ok.2 ⟨_, hmarket, rfl⟩⟩⟩
    | ok o => exact ⟨_, _, bind_ok.2 ⟨(), rfl, bind_ok.2 ⟨_, hmarket, rfl⟩⟩⟩
  unfold Controller.orderPut
  split
  · exact ⟨_, _, rfl⟩
  cases res with
  | error st => exact ⟨_, _, bind_ok.2 ⟨_, hput, rfl⟩⟩
  | ok o => exact ⟨_, _, bind_ok.2 ⟨_, hput, rfl⟩⟩

/-- **A call that came through the handler returns**, or stops at the detail of a balance update. -/
theorem HandledReachable.call_returns {toU64 : ToU64} (hU : toU64.Unsigned) (hs : settings.Shipped)
    (hE : E.debugAssertions = false) (hstub : HandledReachable E toU64 settings stub)
    (hc : HandledReachable E toU64 settings c) (hq : q.operation.Entered E toU64 stub)
    (hreal : q.real = true) : (∃ reply c', c.call E q = .ok (reply, c')) ∨
      ∃ req, q.operation = .balanceUpdate req ∧ c.HaltsAt E q.now q.available req q.user := by
  obtain ⟨b, -, hok⟩ := hc.reachable.ok
  obtain ⟨now, available, real, user, op⟩ := q
  obtain rfl : real = true := hreal
  cases op with
  | balanceUpdate req =>
    rcases hc.reachable.updateBalance_returns now available req user with ⟨-, hreturns⟩ |
      ⟨hhalts, -⟩
    · exact .inl hreturns
    · exact .inr ⟨req, rfl, hhalts⟩
  | orderPut req =>
    exact .inl (HandledReachable.orderPut_returns hU hs hE hstub hc hq now true user)
  | batchOrderPut req => exact .inl (batchOrderPut_returns hq now true user)
  | orderCancel req => exact .inl (orderCancel_returns hE hok now true user)
  | orderCancelAll req =>
    refine .inl ?_
    cases available with
    | false => exact ⟨_, _, rfl⟩
    | true =>
      cases hm : c.markets.find? req.market with
      | none => exact ⟨_, _, by simp only [Controller.call, Controller.orderCancelAll, hm]; rfl⟩
      | some m => exact orderCancelAll_returns hE hok hm now true user

/-! ## The dispatcher -/

/-- No batch that was accepted puts an order: these are the orders the handler does not check. -/
def Serving.OneByOne (s : Serving κ) : Prop :=
  ∀ task ∈ s.accepted, ∀ req, task.operation = .batchOrderPut req → req.orders = []

/-- A task that was admitted came through the handler. -/
theorem Task.entered {task : Task} {k : ℕ}
    (hh : ∀ j ≤ k, ∀ w, Stands (GrpcHandler.service G E) s₀ es j w →
      HandledReachable E G.toU64 settings w.controller)
    (hbatch : ∀ req, task.operation = .batchOrderPut req → req.orders = [])
    (h : AdmittedBy (GrpcHandler.service G E) s₀ es k task) :
    ∃ stub, HandledReachable E G.toU64 settings stub ∧ task.operation.Entered E G.toU64 stub := by
  obtain ⟨j, hj, stub, hstub, arrival, user, hadmitted⟩ := Task.admitted h
  refine ⟨stub.controller, hh j hj stub hstub, ?_⟩
  obtain ⟨user, op⟩ := task
  cases op with
  | orderPut req => exact hadmitted.allowed.order req rfl
  | batchOrderPut req => exact hbatch req rfl
  | balanceUpdate req => trivial
  | orderCancel req => trivial
  | orderCancelAll req => trivial

/-- Every state of the server is reached by calls that came through the handler. -/
theorem Serving.Sound.handled (h : Serving.Sound G E s₀ s) (hs : s.Unreloaded) (hone : s.OneByOne)
    (h₀ : HandledReachable E G.toU64 settings s₀.controller) (n : ℕ) (v : Configured)
    (hv : Stands (GrpcHandler.service G E) s₀ s.log n v) :
    HandledReachable E G.toU64 settings v.controller := by
  refine h.rule (P := fun _ v => HandledReachable E G.toU64 settings v.controller) hs h₀ ?_ n v hv
  intro n e v v' task q reply hat hran hq hadmitted hkept
  have haccepted : task ∈ s.accepted := by
    rw [← h.inTurn]
    exact List.mem_append_left _
      (List.mem_filterMap.2 ⟨e, List.mem_of_getElem? hat.entry, hran.task⟩)
  -- the stub its handler looked at is one of the states before
  obtain ⟨stub, hstub, hentered⟩ := Task.entered hkept (hone task haccepted) hadmitted
  exact .call hstub (hkept n le_rfl v hat.before) (hran.operation ▸ hentered) hq

/-- **What the dispatcher dies of**, besides an amount out of range and a full channel of messages,
which the run leaves out. The shipped settings, the release build, and orders that come one by one:
when the dispatcher has panicked, it was at a balance update whose detail is neither a JSON object
nor null, and which would have been applied otherwise. -/
theorem Serving.Runs.survives (hU : G.toU64.Unsigned) (hsettings : settings.Shipped)
    (hE : E.debugAssertions = false) (h₀ : HandledReachable E G.toU64 settings s₀.controller)
    (h : Serving.Runs G E (.start s₀) s) (hs : s.Unreloaded) (hone : s.OneByOne)
    (hdead : s.phase = .dead) :
    ∃ (task : Task) (rest : List Task) (req : BalanceUpdateRequest) (now : Timestamp)
    (available : Bool), s.queue = task :: rest ∧
      task.operation = .balanceUpdate req ∧
      s.state.controller.HaltsAt E now available req task.user := by
  have hsound : Serving.Sound G E s₀ s := Service.Runs.sound h
  obtain ⟨task, rest, ⟨now, available⟩, hqueue, hexec⟩ := hsound.dies hdead
  have hhandled := hsound.handled hs hone h₀
  have haccepted : task ∈ s.accepted := by
    rw [← hsound.inTurn, hqueue]
    simp
  obtain ⟨stub, hstub, hentered⟩ := Task.entered (fun k _ => hhandled k) (hone task haccepted)
    (hsound.admitted task (by rw [hqueue]; simp))
  rcases HandledReachable.call_returns (q := GrpcHandler.Task.request task now available) hU
    hsettings hE hstub
    (hhandled _ s.state hsound.stands) hentered rfl with ⟨reply, c', hcall⟩ | ⟨req, hop, hhalts⟩
  · -- a call that returns is performed
    have hact : s.state.act E (.call (GrpcHandler.Task.request task now available)) =
        .ok (.call reply, { s.state with controller := c' }) :=
      bind_ok.2 ⟨(reply, c'), hcall, rfl⟩
    have hnone : (s.state.act E (.call (GrpcHandler.Task.request task now available))).toOption =
        none := hexec
    rw [hact] at hnone
    cases hnone
  · exact ⟨task, rest, req, now, available, hqueue, hop, hhalts⟩

/-- A deposit with the detail `7` is sent to the dispatcher. -/
def fatalDay : List (Action Arrival (Timestamp × Bool) ServerAction ℕ) :=
  [.enter (arrivalOf (.balanceUpdate "00000000-0000-0000-0000-000000000002" (depositWith "7"))),
    .send 0, .die (0, true)]

/-- The dispatcher dies of it. -/
theorem Serving.Runs.survives_sample :
    ∃ (s : Serving ℕ) (task : Task) (req : BalanceUpdateRequest) (now : Timestamp)
    (available : Bool), s.phase = .dead ∧ s.queue.head? = some task ∧
    task.operation = .balanceUpdate req ∧
      s.state.controller.HaltsAt numberEnv now available req task.user := by
  have h : ((createController shippedSettings).toOption.bind fun c =>
      (Guarded.follow (State.step (GrpcHandler.service sampleGateway numberEnv))
        (State.start ⟨c, MarketConfigs.new⟩) fatalDay).bind fun s =>
        some (s.phase, s.log.length, s.accepted.all fun task => task.operation.ctorIdx = 0)) =
          some (.dead, 0, true) := by
    decide +kernel
  simp only [Option.bind_eq_some_iff, Option.some.injEq, Prod.mk.injEq, toOption_some,
    List.length_eq_zero_iff] at h
  obtain ⟨c, hc, s, hs, hdead, hlog, hupdates⟩ := h
  have hruns : Serving.Runs sampleGateway numberEnv (.start ⟨c, MarketConfigs.new⟩) s :=
    Guarded.follow_runs (fun _ _ _ => trivial) hs
  have hone : Serving.OneByOne s := by
    intro task htask req hop
    -- all of them are balance updates
    have hupdate : task.operation.ctorIdx = 0 :=
      of_decide_eq_true (List.all_eq_true.1 hupdates task htask)
    rw [hop] at hupdate
    cases hupdate
  obtain ⟨task, rest, req, now, available, hqueue, hop, hhalts⟩ :=
    Serving.Runs.survives (G := sampleGateway) sampleToU64_unsigned
    shippedSettings_shipped rfl (.init hc) hruns (fun e he => by simp [hlog] at he) hone hdead
  exact ⟨s, task, req, now, available, hdead, by rw [hqueue]; rfl, hop, hhalts⟩

end Dingir
