import Dingir.Proof.Handler
import Dingir.Spec.Server

/-!
# The server runs its calls one after the other

* **`Serving.Runs.linear`**: whatever calls come in, wait, are sent or given up, whenever readers
  look and admins reload, the server has done what the sequential engine does: the calls it
  accepted, in the order it accepted them, and every reader has seen a state of that engine, not
  older than what was done before.
* **`Serving.Runs.checked`**: the check of an order on the stub holds still on the state the order
  is put in.
-/

namespace Dingir

open Service Outcome Keyed

variable {κ : Type} {G : Gateway} {E : Env} {settings : Settings} {s₀ v v' : Configured}
  {s s' : Serving κ} {es : List (Entry Task ServerAction Answer)}
  {e : Entry Task ServerAction Answer} {n : ℕ}

/-! ## The sequential engine -/

@[simp] theorem service_exec {a : ServerAction} :
    (GrpcHandler.service G E).exec v a = (v.act E a).toOption := rfl

/-- The sequential machine of the service is the sequential engine. -/
theorem performs_iff_acts : Performs (GrpcHandler.service G E) v es v' ↔
    v.acts E (es.map Entry.action) = .ok (es.map Entry.reply, v') := by
  induction es generalizing v with
  | nil => simp [Configured.acts]
  | cons e es ih =>
    simp only [performs_cons, service_exec, toOption_some, List.map_cons, Configured.acts, bind_ok,
      pure_ok, Prod.mk.injEq,
      List.cons.injEq]
    constructor
    · rintro ⟨v₁, hv₁, h⟩
      exact ⟨_, hv₁, _, ih.1 h, ⟨rfl, rfl⟩, rfl⟩
    · rintro ⟨⟨answer, v₁⟩, hv₁, ⟨answers, v₂⟩, h, ⟨rfl, rfl⟩, rfl⟩
      exact ⟨v₁, hv₁, ih.2 h⟩

/-- **What a server has done** between the moments `s` and `s'`, started at `s₀`. -/
structure Serving.Linear (E : Env) (s₀ : Configured) (s s' : Serving κ) : Prop where
  /-- the actions so far, with their answers, are those of the sequential engine -/
  serial : s₀.acts E (s'.log.map Entry.action) = .ok (s'.log.map Entry.reply, s'.state)
  /-- what was done at `s` comes before what was done since -/
  order : s.log <+: s'.log
  /-- the calls are run in the order in which they were accepted -/
  inTurn : s'.ran ++ s'.queue = s'.accepted
  fits : s'.queue.length ≤ GrpcHandler.channelSize
  /-- after a graceful leave every call accepted was run -/
  drained : s'.phase = .exited → s'.ran = s'.accepted
  /-- a reader has seen the sequential engine, with everything that was done at `s` -/
  reads : ∃ more, s'.seen = s.seen ++ more ∧ ∀ r ∈ more, s.log.length ≤ r.2.1 ∧
    r.2.1 ≤ s'.log.length ∧
    s₀.acts E ((s'.log.take r.2.1).map Entry.action) =
      .ok ((s'.log.take r.2.1).map Entry.reply, r.2.2)

/-- **The server is linearizable.** -/
theorem Serving.Runs.linear (h : Serving.Runs G E (.start s₀) s)
    (h' : Serving.Runs G E s s') : Serving.Linear E s₀ s s' := by
  have hsound : Sound (GrpcHandler.service G E) s₀ s' := Service.Runs.sound (h.trans h')
  have hlater := h'.later
  obtain ⟨more, hseen, hmore⟩ := hlater.seen
  refine ⟨performs_iff_acts.1 hsound.serial, hlater.log, hsound.inTurn, hsound.fits,
    fun hexited => ?_, more, hseen, fun r hr => ?_⟩
  · have hturn := hsound.inTurn
    rwa [hsound.drained hexited, List.append_nil] at hturn
  · obtain ⟨hle, hstands⟩ := hsound.seen r (by rw [hseen]; exact List.mem_append_right _ hr)
    exact ⟨hmore r hr, hle, performs_iff_acts.1 hstands⟩

/-- The server of the sample exchange: it knows one token, of Bob as an admin of deposits. -/
def sampleGateway : Gateway where
  keycloak :=
    { adminRole := "admin"
      depositAdminRole := "deposit-admin"
      withdrawalAdminRole := "withdrawal-admin"
      decode := fun _ _ =>
        .ok { exp := 10900, iat := 10000, sub := bob, realmAccess := some ["deposit-admin"] } }
  toU64 := sampleToU64
  isSignPositive := fun text => text.toList.head? ≠ some '-'
  parseUuid := fun text => if text = "00000000-0000-0000-0000-000000000002" then some bob else none

/-- A call of Bob. -/
def arrivalOf (call : WriteCall) : Arrival :=
  ⟨some (.ok "Bearer eyJhbGciOiJSUzI1NiJ9.eyJzdWIiOiIyIn0.c2ln"), 10100, call⟩

def sampleFunding : WriteCall :=
  .balanceUpdate "00000000-0000-0000-0000-000000000002" { asset := "ETH", business := "deposit",
                                                          businessId := 1, delta := "10",
                                                          detail := "" }

/-- A deposit of Bob is run, and then his ask, which is still in the queue when the server is told
to leave. -/
def sampleDay :
    List (Action Arrival (Timestamp × Bool) ServerAction ℕ) ×
      List (Action Arrival (Timestamp × Bool) ServerAction ℕ) :=
  ([.enter (arrivalOf sampleFunding), .send 0, .look 0, .run (0, true)],
    [.enter (arrivalOf (.orderPut (limitOrder .ask "2" "100"))), .look 1, .send 0, .close,
      .run (1, true), .look 2, .exit])

/-- The server of the sample exchange at two moments of that day. -/
def sampleServing (E : Env) : Option (Controller × Serving ℕ × Serving ℕ) := do
  let c ← (createController sampleSettings).toOption
  let s ← Guarded.follow (State.step (GrpcHandler.service sampleGateway E))
      (State.start ⟨c, MarketConfigs.new⟩) sampleDay.1
  let s' ← Guarded.follow (State.step (GrpcHandler.service sampleGateway E)) s sampleDay.2
  return (c, s, s')

theorem sampleServing_runs {c : Controller} {s s' : Serving ℕ}
    (h : sampleServing E = some (c, s, s')) :
    createController sampleSettings = .ok c ∧
    Serving.Runs sampleGateway E (.start ⟨c, MarketConfigs.new⟩) s ∧
      Serving.Runs sampleGateway E s s' := by
  simp only [sampleServing, Option.bind_eq_bind, Option.bind_eq_some_iff, Option.pure_def,
    Option.some.injEq, Prod.mk.injEq] at h
  obtain ⟨c₁, hc, s₁, hs, s₂, hs', rfl, rfl, rfl⟩ := h
  exact ⟨toOption_some.1 hc, Guarded.follow_runs (fun _ _ _ => trivial) hs,
    Guarded.follow_runs (fun _ _ _ => trivial) hs'⟩

/-- The deposit comes before the ask, and the last reader sees both. -/
theorem Serving.Runs.linear_sample :
    ∃ (c : Controller) (s s' : Serving ℕ), s.log.length = 1 ∧ s'.log.length = 2 ∧
      s'.phase = .exited ∧
    s'.seen.map (fun r => r.2.1) = [0, 1, 2] ∧
    Serving.Linear releaseEnv ⟨c, MarketConfigs.new⟩ s s' := by
  have h : (sampleServing releaseEnv).map
      (fun t => (t.2.1.log.length, t.2.2.log.length, t.2.2.phase,
      t.2.2.seen.map fun r => r.2.1)) = some (1, 2, .exited, [0, 1, 2]) := by decide +kernel
  obtain ⟨⟨c, s, s'⟩, hday, hread⟩ := Option.map_eq_some_iff.1 h
  obtain ⟨hone, htwo, hexited, hseen⟩ : s.log.length = 1 ∧ s'.log.length = 2 ∧ s'.phase = .exited ∧
    s'.seen.map (fun r => r.2.1) = [0, 1, 2] := by simpa only [Prod.mk.injEq] using hread
  obtain ⟨-, hruns, hruns'⟩ := sampleServing_runs hday
  exact ⟨c, s, s', hone, htwo, hexited, hseen, Serving.Runs.linear hruns hruns'⟩

/-! ## Without a reload -/

/-- No admin has reloaded the markets: all that was done are calls of the queue. -/
def Serving.Unreloaded (s : Serving κ) : Prop := ∀ e ∈ s.log, e.task.isSome = true

/-- What an entry of the log is: the call of an accepted task, with its reply. -/
structure Ran (e : Entry Task ServerAction Answer) (t : Task) (q : Request)
    (reply : Except Status Response) : Prop where
  task : e.task = some t
  action : e.action = .call q
  reply : e.reply = .call reply
  user : q.user = t.user
  operation : q.operation = t.operation
  real : q.real = true

/-- An action of a call. -/
theorem act_call {q : Request} {answer : Answer} (h : v.act E (.call q) = .ok (answer, v')) :
    ∃ reply, answer = .call reply ∧ v.controller.call E q = .ok (reply, v'.controller) ∧
      v'.marketLoadCfg = v.marketLoadCfg := by
  simp only [Configured.act, bind_ok, pure_ok, Prod.mk.injEq] at h
  obtain ⟨⟨reply, c⟩, hcall, rfl, rfl⟩ := h
  exact ⟨reply, rfl, hcall, rfl⟩

/-- The step of the log at place `n`: the engine before it and after it. -/
structure Serving.At (G : Gateway) (E : Env) (s₀ : Configured) (s : Serving κ) (n : ℕ)
    (e : Entry Task ServerAction Answer) (v v' : Configured) : Prop where
  entry : s.log[n]? = some e
  before : Stands (GrpcHandler.service G E) s₀ s.log n v
  after : Stands (GrpcHandler.service G E) s₀ s.log (n + 1) v'
  act : v.act E e.action = .ok (e.reply, v')

/-- What holds of every server that runs. -/
abbrev Serving.Sound (G : Gateway) (E : Env) (s₀ : Configured) (s : Serving κ) : Prop :=
  Service.Sound (GrpcHandler.service G E) s₀ s

/-- Every entry is such a step. -/
theorem Serving.Sound.entry (h : Serving.Sound G E s₀ s) (he : s.log[n]? = some e) :
    ∃ v v', s.At G E s₀ n e v v' := by
  obtain ⟨v, v', hv, hv', hexec⟩ := Service.Sound.entry h he
  exact ⟨v, v', he, hv, hv', toOption_some.1 hexec⟩

/-- An entry of the queue is the call of an admitted task. -/
theorem Serving.Sound.ran (h : Serving.Sound G E s₀ s) (hs : s.Unreloaded)
    (hat : s.At G E s₀ n e v v') :
    ∃ task q reply, Ran e task q reply ∧ v.controller.call E q = .ok (reply, v'.controller) ∧
      AdmittedBy (GrpcHandler.service G E) s₀ s.log n task := by
  obtain ⟨task, htask⟩ := Option.isSome_iff_exists.1 (hs e (List.mem_of_getElem? hat.entry))
  have hdue := h.due n e hat.entry
  simp only [Entry.Due, htask] at hdue
  obtain ⟨hadmitted, ⟨now, available⟩, haction⟩ := hdue
  have hact := hat.act
  rw [haction] at hact
  obtain ⟨reply, hreply, hcall, -⟩ := act_call hact
  exact ⟨task, _, reply, ⟨htask, haction, hreply, rfl, rfl, rfl⟩, hcall, hadmitted⟩

/-- **The rule for what calls keep** without a reload, from the start of the log on. -/
theorem Serving.Sound.rule {P : ℕ → Configured → Prop} (h : Serving.Sound G E s₀ s)
    (hs : s.Unreloaded) (hstart : P 0 s₀)
    (hcall : ∀ n e v v' task q reply, s.At G E s₀ n e v v' → Ran e task q reply →
      v.controller.call E q = .ok (reply, v'.controller) →
      AdmittedBy (GrpcHandler.service G E) s₀ s.log n task →
      (∀ k ≤ n, ∀ w, Stands (GrpcHandler.service G E) s₀ s.log k w → P k w) → P (n + 1) v')
    (n : ℕ) (v : Configured) (hv : Stands (GrpcHandler.service G E) s₀ s.log n v) : P n v := by
  refine Service.Sound.rule h hstart (fun n e v v' he hbefore hafter hexec hkept => ?_) n v hv
  have hat : s.At G E s₀ n e v v' := ⟨he, hbefore, hafter, toOption_some.1 hexec⟩
  obtain ⟨task, q, reply, hran, hq, hadmitted⟩ := h.ran hs hat
  exact hcall n e v v' task q reply hat hran hq hadmitted hkept

/-- Without a reload all states are reachable. -/
theorem Serving.Sound.reachable (h : Serving.Sound G E s₀ s) (hs : s.Unreloaded)
    (h₀ : Reachable E settings s₀.controller) (hv : Stands (GrpcHandler.service G E) s₀ s.log n v) :
    Reachable E settings v.controller := by
  refine Serving.Sound.rule (P := fun _ v => Reachable E settings v.controller) h hs h₀ ?_ n v hv
  intro n e v v' task q reply hat _ hq _ hkept
  exact (hkept n le_rfl v hat.before).call hq

/-! ## What gets to the dispatcher -/

/-- **What a task that was sent promises**, with `user` behind its token and `stub` at hand. -/
structure Task.Allowed (G : Gateway) (E : Env) (stub : Controller) (user : UserExtension)
    (task : Task) : Prop where
  own : (∀ req, task.operation ≠ .balanceUpdate req) → task.user = user.userId
  update : ∀ req, task.operation = .balanceUpdate req →
    (if G.isSignPositive req.delta then user.isDepositAdmin else user.isWithdrawalAdmin) = true
  order : ∀ req, task.operation = .orderPut req → GrpcHandler.checkOrder E G.toU64 stub req = .ok ()
  batch : ∀ req, task.operation = .batchOrderPut req →
    req.orders.length ≤ GrpcHandler.maxBatchOrderNum

theorem grpcBlockWithout_ok {role : UserExtension → Bool} {message : String}
    {ext : Option UserExtension} (h : grpcBlockWithout role message ext = .ok ()) :
    ∃ user, ext = some user ∧ role user = true := by
  unfold grpcBlockWithout at h
  split at h
  · cases h
  · rename_i user
    split at h
    · exact ⟨user, rfl, by assumption⟩
    · cases h

theorem grpcBlockAnonymous_ok {ext : Option UserExtension}
    (h : grpcBlockAnonymous ext = .ok ()) : ∃ user, ext = some user := by
  cases ext with
  | none => simp [grpcBlockAnonymous] at h
  | some user => exact ⟨user, rfl⟩

theorem GrpcHandler.handle_ok {stub : Controller} {ext : Option UserExtension} {call : WriteCall}
    {task : Task} (h : handle G E stub ext call = .ok task) :
    ∃ user, ext = some user ∧ task.Allowed G E stub user := by
  cases call with
  | balanceUpdate userId req =>
    simp only [handle, bind_ok] at h
    obtain ⟨_, hanon, h⟩ := h
    obtain ⟨user, rfl⟩ := grpcBlockAnonymous_ok hanon
    split at h
    · cases h
    obtain ⟨_, hrole, h⟩ := bind_ok.1 h
    split at h
    · cases h
    · obtain rfl := Except.ok.inj h
      refine ⟨user, rfl, fun hno => absurd rfl (hno req), fun req' hreq => ?_, fun _ hreq => ?_,
        fun _ hreq => ?_⟩
      · obtain rfl := Operation.balanceUpdate.inj hreq
        split at hrole
        · rename_i hsign
          obtain ⟨_, hu, hdeposit⟩ := grpcBlockWithout_ok hrole
          rw [if_pos hsign, Option.some.inj hu]
          exact hdeposit
        · rename_i hsign
          obtain ⟨_, hu, hwithdrawal⟩ := grpcBlockWithout_ok hrole
          rw [if_neg hsign, Option.some.inj hu]
          exact hwithdrawal
      · cases hreq
      · cases hreq
  | orderPut req =>
    simp only [handle, bind_ok] at h
    obtain ⟨_, hanon, userId, hid, h⟩ := h
    obtain ⟨user, rfl⟩ := grpcBlockAnonymous_ok hanon
    obtain rfl : user.userId = userId := Except.ok.inj hid
    split at h
    · cases h
    · rename_i hcheck
      obtain rfl := Except.ok.inj h
      refine ⟨user, rfl, fun _ => rfl, fun _ hreq => ?_, fun req' hreq => ?_, fun _ hreq => ?_⟩
      · cases hreq
      · exact Operation.orderPut.inj hreq ▸ hcheck
      · cases hreq
  | batchOrderPut req =>
    simp only [handle, bind_ok] at h
    obtain ⟨_, hanon, userId, hid, h⟩ := h
    obtain ⟨user, rfl⟩ := grpcBlockAnonymous_ok hanon
    obtain rfl : user.userId = userId := Except.ok.inj hid
    split at h
    · cases h
    · rename_i hnum
      obtain rfl := Except.ok.inj h
      refine ⟨user, rfl, fun _ => rfl, fun _ hreq => ?_, fun _ hreq => ?_, fun req' hreq => ?_⟩
      · cases hreq
      · cases hreq
      · exact Operation.batchOrderPut.inj hreq ▸ not_lt.1 hnum
  | orderCancel req =>
    simp only [handle, bind_ok] at h
    obtain ⟨_, hanon, userId, hid, h⟩ := h
    obtain ⟨user, rfl⟩ := grpcBlockAnonymous_ok hanon
    obtain rfl : user.userId = userId := Except.ok.inj hid
    obtain rfl := Except.ok.inj h
    exact ⟨user, rfl, fun _ => rfl, fun _ hreq => (by cases hreq), fun _ hreq => (by cases hreq),
      fun _ hreq => by cases hreq⟩
  | orderCancelAll req =>
    simp only [handle, bind_ok] at h
    obtain ⟨_, hanon, userId, hid, h⟩ := h
    obtain ⟨user, rfl⟩ := grpcBlockAnonymous_ok hanon
    obtain rfl : user.userId = userId := Except.ok.inj hid
    obtain rfl := Except.ok.inj h
    exact ⟨user, rfl, fun _ => rfl, fun _ hreq => (by cases hreq), fun _ hreq => (by cases hreq),
      fun _ hreq => by cases hreq⟩

/-- The arrival a task came in with, its token, and the state its call was checked on. -/
structure Task.Admitted (G : Gateway) (E : Env) (stub : Controller) (task : Task)
    (arrival : Arrival) (user : UserExtension) : Prop where
  received : GrpcHandler.receive G E stub arrival = .ok task
  token : grpcInterceptor G.keycloak arrival.now arrival.authorization = .ok (some user)
  allowed : task.Allowed G E stub user

/-- **A task in the log was admitted**, on a state that the sequential engine had before its
turn. -/
theorem Task.admitted {task : Task} (h : AdmittedBy (GrpcHandler.service G E) s₀ es n task) :
    ∃ k ≤ n, ∃ stub, Stands (GrpcHandler.service G E) s₀ es k stub ∧
      ∃ arrival user, task.Admitted G E stub.controller arrival user := by
  obtain ⟨k, hk, stub, hstub, arrival, hreceive⟩ := h
  replace hreceive : GrpcHandler.receive G E stub.controller arrival = .ok task :=
    toOption_some.1 hreceive
  -- first the interceptor, then the handler
  have hparts := hreceive
  simp only [GrpcHandler.receive, bind_ok] at hparts
  obtain ⟨ext, hext, hhandle⟩ := hparts
  obtain ⟨user, rfl, hallowed⟩ := GrpcHandler.handle_ok hhandle
  exact ⟨k, hk, stub, hstub, arrival, user, hreceive, hext, hallowed⟩

/-! ## What is checked on the stub -/

/-- The check of an order reads what no call changes. -/
theorem ControllerOK.checkOrder_eq {b c stub : Controller} {toU64 : ToU64} {req : OrderPutRequest}
    (hstub : ControllerOK b stub) (hc : ControllerOK b c) :
    GrpcHandler.checkOrder E toU64 stub req = GrpcHandler.checkOrder E toU64 c req := by
  unfold GrpcHandler.checkOrder
  rw [hstub.assets, hc.assets]
  cases hm : c.markets.find? req.market with
  | none =>
    cases hm' : stub.markets.find? req.market with
    | none => rfl
    | some m' =>
      obtain ⟨m₀, h₀, -⟩ := hstub.terms _ m' hm'
      have := hc.kept _ m₀ h₀
      simp [hm] at this
  | some m =>
    obtain ⟨m₀, h₀, ht⟩ := hc.terms _ m hm
    cases hm' : stub.markets.find? req.market with
    | none =>
      have := hstub.kept _ m₀ h₀
      simp [hm'] at this
    | some m' =>
      obtain ⟨m₁, h₁, ht'⟩ := hstub.terms _ m' hm'
      obtain rfl : m₀ = m₁ := Option.some.inj (h₀.symm.trans h₁)
      have hsame : b.balanceManager.assetManager.commitOrder E toU64 req m' =
          b.balanceManager.assetManager.commitOrder E toU64 req m := by
        simp only [AssetManager.commitOrder, AssetManager.commitTotals, ht.amountPrec, ht.pricePrec,
          ht'.amountPrec, ht'.pricePrec]
      simp only [hsame]

/-- **An order is still good when its turn comes**: whatever was run since its handler looked at the
stub, its check holds on the state it is put in. -/
theorem Serving.Runs.checked (h : Serving.Runs G E (.start s₀) s) (hs : s.Unreloaded)
    (h₀ : Reachable E settings s₀.controller) {req : OrderPutRequest} {q : Request}
    (hat : s.At G E s₀ n e v v') (hq : e.action = .call q) (hop : q.operation = .orderPut req) :
    GrpcHandler.checkOrder E G.toU64 v.controller req = .ok () := by
  have hsound : Serving.Sound G E s₀ s := Service.Runs.sound h
  obtain ⟨task, q', reply, hran, -, hadmitted⟩ := hsound.ran hs hat
  obtain rfl : q = q' := ServerAction.call.inj (hq.symm.trans hran.action)
  obtain ⟨k, -, stub, hstub, arrival, user, -, -, hallowed⟩ := Task.admitted hadmitted
  obtain ⟨b, hb, hok⟩ := (hsound.reachable hs h₀ hat.before).ok
  obtain ⟨b₁, hb₁, hokStub⟩ := (hsound.reachable hs h₀ hstub).ok
  obtain rfl : b = b₁ := Except.ok.inj (hb.symm.trans hb₁)
  -- the stub and the state of its turn have the same settings behind them
  rw [← hokStub.checkOrder_eq hok]
  exact hallowed.order req (hran.operation.symm.trans hop)

/-- The order a call puts. -/
def ServerAction.put : ServerAction → Option OrderPutRequest
  | .call q =>
    match q.operation with
    | .orderPut req => some req
    | _ => none
  | .reload .. => none

theorem ServerAction.put_some {a : ServerAction} {req : OrderPutRequest} (h : a.put = some req) :
    ∃ q, a = .call q ∧ q.operation = .orderPut req := by
  cases a with
  | call q =>
    obtain ⟨now, available, real, user, op⟩ := q
    cases op with
    | orderPut req' =>
      obtain rfl := Option.some.inj h
      exact ⟨_, rfl, rfl⟩
    | _ => cases h
  | reload => cases h

/-- The ask was checked before the deposit it sells from was made. -/
theorem Serving.Runs.checked_sample :
    ∃ (c : Controller) (v : Configured) (req : OrderPutRequest), req.amount = "2" ∧
    Reachable releaseEnv sampleSettings c ∧
    GrpcHandler.checkOrder releaseEnv sampleToU64 v.controller req = .ok () := by
  have h : (sampleServing releaseEnv).map (fun t => (t.2.2.log.all fun e => e.task.isSome,
      ((t.2.2.log[1]?).bind fun e => e.action.put).map OrderPutRequest.amount)) = some (true,
      some "2") := by decide +kernel
  obtain ⟨⟨c, s, s'⟩, hday, hread⟩ := Option.map_eq_some_iff.1 h
  obtain ⟨hcalls, hput⟩ := Prod.mk.inj hread
  obtain ⟨req, hreq, hamount⟩ := Option.map_eq_some_iff.1 hput
  obtain ⟨e, he, hput⟩ := Option.bind_eq_some_iff.1 hreq
  obtain ⟨q, haction, hop⟩ := ServerAction.put_some hput
  obtain ⟨hc, hruns, hruns'⟩ := sampleServing_runs hday
  have hall := hruns.trans hruns'
  have hunreloaded : s'.Unreloaded := fun e he => List.all_eq_true.1 hcalls e he
  obtain ⟨v, v', hat⟩ := Serving.Sound.entry (Service.Runs.sound hall) he
  exact ⟨c, v, req, hamount, .init hc,
    Serving.Runs.checked hall hunreloaded (.init hc) hat haction hop⟩

end Dingir
