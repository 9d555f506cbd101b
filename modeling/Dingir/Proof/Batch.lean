import Dingir.Proof.Atomic
import Dingir.Proof.Book
import Dingir.Spec.Producer

/-!
# A batch is the sequence of its orders

`Controller.batchInTurn` is what a batch stands for: with `reset` the orders of the user
on the market are cancelled, then the orders are put one by one until one is refused.
The loop of `batch_order_put` does that (`batchPut_putEach`), and its `reset`, which cancels once
for each order, does it whenever there is an order (`batchReset_once`).

**`Reachable.batchInTurn_iff`**: so a batch differs from its orders put in turn exactly when it is
empty, is to reset, and finds orders to cancel.
-/

namespace Dingir

open Keyed Outcome Market

/-- The orders put one by one, until one is refused, with the identifiers of those put. -/
def Controller.putEach (E : Env) (now : Timestamp) (real : Bool) (user : Uuid) :
    List OrderPutRequest → Controller → Except Panic (List ℕ × Controller)
  | [], c => .ok ([], c)
  | orderReq :: rest, c => do
    let (res, c) ← c.putOrder E now real orderReq user
    match res with
    | .error _ => return ([], c)
    | .ok order =>
      let (ids, c) ← putEach E now real user rest c
      return (order.id :: ids, c)

/-- All orders of a user on one market cancelled. -/
def Controller.cancelAllOf (E : Env) (real : Bool) (c : Controller) (name : String)
    (user : Uuid) : Except Panic Controller :=
  match c.markets.find? name with
  | none => .ok c
  | some market => do return (← c.cancelAllIn E real name market user).2

/-- **What a batch stands for.** -/
def Controller.batchInTurn (E : Env) (now : Timestamp) (real : Bool) (c : Controller)
    (req : BatchOrderPutRequest) (user : Uuid) : Except Panic (List ℕ × Controller) := do
  let c ← if req.reset then c.cancelAllOf E real req.market user else pure c
  c.putEach E now real user req.orders

/-- A batch answered with `response` has done what it stands for, and logged itself; and with
`reset`, the open orders of the user on the market are those it put. -/
structure BatchInTurn (E : Env) (now : Timestamp) (real : Bool) (c : Controller)
    (req : BatchOrderPutRequest) (user : Uuid) (response : BatchOrderPutResponse)
    (c' : Controller) : Prop where
  inTurn : ∃ d, c.batchInTurn E now real req user = .ok (response.orderIds, d) ∧
    Untouched (d.logged now real (.batchOrderPut req) user) c'
  rests : req.reset = true → ∀ m id o, c'.markets.find? req.market = some m →
    m.resting id = some o →
    (o.user = user ↔ id ∈ response.orderIds)

variable {E : Env} {settings : Settings} {now : Timestamp} {real available : Bool} {u : Uuid}
  {b c c' : Controller} {name : String} {m : Market} {x : Ctx}

/-! ## The loop over the orders -/

/-- The loop of a batch that returns a response has put the orders in turn. -/
theorem batchPut_putEach {orders : List OrderPutRequest} {ids : List ℕ}
    {response : BatchOrderPutResponse}
    (h : c.batchPut E now real name u orders ids = .ok (.ok response, c')) :
    ∃ new, c.putEach E now real u orders = .ok (new, c') ∧ response.orderIds = ids ++ new := by
  induction orders generalizing c ids with
  | nil =>
    simp only [Controller.batchPut, Except.ok.injEq, Prod.mk.injEq] at h
    obtain ⟨rfl, rfl⟩ := h
    exact ⟨[], rfl, by simp⟩
  | cons orderReq rest ih =>
    unfold Controller.batchPut at h
    split at h
    · simp [pure_ok] at h
    obtain ⟨⟨res, c₁⟩, hput, h⟩ := bind_ok.1 h
    unfold Controller.putEach
    cases res with
    | error st =>
      simp only [pure_ok, Prod.mk.injEq, Except.ok.injEq] at h
      obtain ⟨rfl, rfl⟩ := h
      exact ⟨[], bind_ok.2 ⟨_, hput, rfl⟩, by simp⟩
    | ok order =>
      obtain ⟨new, hrest, hids⟩ := ih h
      refine ⟨order.id :: new, bind_ok.2 ⟨_, hput, bind_ok.2 ⟨_, hrest, rfl⟩⟩, ?_⟩
      rw [hids, List.append_assoc, List.singleton_append]

/-- Of what rests on the market, the user's are the orders of the batch so far. -/
def Controller.RestOnly (c : Controller) (name : String) (u : Uuid) (ids : List ℕ) : Prop :=
  ∀ m id o, c.markets.find? name = some m → m.resting id = some o → (o.user = u ↔ id ∈ ids)

/-- An order that is put joins them, if it rests. -/
theorem putOrder_restOnly {req : OrderPutRequest} {o : Order} {ids : List ℕ} (hc : ControllerOK b c)
    (hids : ∀ id ∈ ids, id ≤ c.sequencer.orderId) (hrest : c.RestOnly req.market u ids)
    (h : c.putOrder E now real req u = .ok (.ok o, c')) :
    c'.RestOnly req.market u (ids ++ [o.id]) ∧ ∀ id ∈ ids ++ [o.id], id ≤ c'.sequencer.orderId := by
  rcases Controller.putOrder_cases h with ⟨⟨st, hst⟩, -⟩ |
    ⟨o', m, input, m', x', ho, hm, -, hput, rfl⟩
  · cases hst
  obtain rfl := Except.ok.inj ho
  have hd := (hc.desk _ _ hm).2 real
  have hdone := putOrder_put hd hput
  have hnext : x'.sequencer.orderId = c.sequencer.orderId + 1 := hdone.orderId
  have hid : o.id = c.sequencer.orderId + 1 := hdone.id
  constructor
  · intro m₁ id p hm₁ hp
    rw [Controller.find?_withMarket, if_pos rfl] at hm₁
    obtain rfl := Option.some.inj hm₁
    rw [List.mem_append, List.mem_singleton]
    rcases hdone.resting id p hp with ⟨p₀, hp₀, huser⟩ | ⟨rfl, huser⟩
    · -- an order that rested before has an older id
      have hold : id ≤ c.sequencer.orderId := hd.ids id p₀ hp₀
      rw [← huser, hrest m id p₀ hm hp₀]
      have hne : id ≠ o.id := by omega
      simp [hne]
    · simp [huser]
  · intro id hmem
    show id ≤ x'.sequencer.orderId
    rcases List.mem_append.1 hmem with hmem | hmem
    · have hle := hids id hmem
      omega
    · rw [List.mem_singleton.1 hmem]
      omega

theorem batchPut_restOnly {orders : List OrderPutRequest} {ids : List ℕ}
    {response : BatchOrderPutResponse} (hc : ControllerOK b c)
    (hids : ∀ id ∈ ids, id ≤ c.sequencer.orderId) (hrest : c.RestOnly name u ids)
    (h : c.batchPut E now real name u orders ids = .ok (.ok response, c')) :
    c'.RestOnly name u response.orderIds := by
  induction orders generalizing c ids with
  | nil =>
    simp only [Controller.batchPut, Except.ok.injEq, Prod.mk.injEq] at h
    obtain ⟨rfl, rfl⟩ := h
    exact hrest
  | cons orderReq rest ih =>
    unfold Controller.batchPut at h
    split at h
    · simp [pure_ok] at h
    rename_i hname
    obtain rfl := not_not.1 hname
    obtain ⟨⟨res, c₁⟩, hput, h⟩ := bind_ok.1 h
    cases res with
    | error st =>
      simp only [pure_ok, Prod.mk.injEq, Except.ok.injEq] at h
      obtain ⟨rfl, rfl⟩ := h
      intro m id o hm ho
      rw [(putOrder_refused hput).markets] at hm
      exact hrest m id o hm ho
    | ok order =>
      have hmoves : Moves E now real u False AnyOrder c c₁ := putOrder_moves hc admits_any hput
      obtain ⟨hrest₁, hids₁⟩ := putOrder_restOnly hc hids hrest hput
      exact ih (hmoves.ok hc) hids₁ hrest₁ h

/-! ## The reset -/

/-- A market put back twice. -/
theorem withMarket_rewritten (c : Controller) (name : String) (m : Market) (x : Ctx) :
    (c.withMarket name m x).rewritten name m = c.withMarket name m x := by
  unfold Controller.rewritten Controller.withMarket
  simp only [AList.insert_insert]

/-- Once the orders of the user are cancelled, the rest of the `reset` does nothing. -/
theorem batchReset_again {orders : List OrderPutRequest} (hm : c.markets.find? name = some m)
    (hindex : m.IndexOK) (hback : c.rewritten name m = c)
    (hnone : ∀ id o, m.resting id = some o → o.user ≠ u)
    (h : c.batchReset E real name u orders = .ok (.ok (), c')) : c' = c := by
  induction orders with
  | nil =>
    simp only [Controller.batchReset, Except.ok.injEq, Prod.mk.injEq, true_and] at h
    exact h.symm
  | cons orderReq rest ih =>
    unfold Controller.batchReset at h
    split at h
    · simp [pure_ok] at h
    simp only [bind_ok, unwrap_ok, hm, Option.some.injEq] at h
    obtain ⟨_, rfl, ⟨n, c₁⟩, hcancel, h⟩ := h
    unfold Controller.cancelAllIn at hcancel
    simp only [bind_ok, pure_ok, Prod.mk.injEq] at hcancel
    obtain ⟨⟨n', m₁, x₁⟩, hcancel, -, rfl⟩ := hcancel
    obtain ⟨rfl, rfl⟩ := cancelAllForUser_none hindex hnone hcancel
    rw [Controller.withMarket_ctx, hback] at h
    exact ih h

/-- **A `reset` with an order in the batch cancels once.** -/
theorem batchReset_once (now : Timestamp) {orders : List OrderPutRequest} (hc : ControllerOK b c)
    (hne : orders ≠ []) (h : c.batchReset E real name u orders = .ok (.ok (), c')) :
    c.cancelAllOf E real name u = .ok c' ∧ c'.RestOnly name u [] := by
  cases orders with
  | nil => exact absurd rfl hne
  | cons orderReq rest =>
    unfold Controller.batchReset at h
    split at h
    · simp [pure_ok] at h
    simp only [bind_ok, unwrap_ok] at h
    obtain ⟨m, hm, ⟨n, c₁⟩, hcancel, h⟩ := h
    have hmoves : Moves E now real u False AnyOrder c c₁ := cancelAllIn_moves hc hm hcancel
    have hc₁ := hmoves.ok hc
    have hall : c.cancelAllOf E real name u = .ok c₁ := by
      unfold Controller.cancelAllOf
      rw [hm]
      exact bind_ok.2 ⟨_, hcancel, rfl⟩
    unfold Controller.cancelAllIn at hcancel
    simp only [bind_ok, pure_ok, Prod.mk.injEq] at hcancel
    obtain ⟨⟨n', m₁, x₁⟩, hcancel, -, rfl⟩ := hcancel
    have hm₁ : (c.withMarket name m₁ x₁).markets.find? name = some m₁ := find?_insert_self _ _ _
    have hnone : ∀ id o, m₁.resting id = some o → o.user ≠ u := fun id o ho =>
      (cancelAllForUser_clears ((hc.desk _ _ hm).2 real).index hcancel ho).2
    obtain rfl := batchReset_again hm₁ ((hc₁.desk _ _ hm₁).2 real).index
      (withMarket_rewritten c name m₁ x₁) hnone h
    refine ⟨hall, ?_⟩
    intro m₂ id o hm₂ ho
    obtain rfl := Option.some.inj (hm₁.symm.trans hm₂)
    simp [hnone id o ho]

/-- A user has no open order on a market exactly when none is counted. -/
theorem getOrderNumOfUser_eq_zero (hm : m.IndexOK) :
    m.getOrderNumOfUser u = 0 ↔ ∀ id o, m.resting id = some o → o.user ≠ u := by
  unfold getOrderNumOfUser
  rw [List.length_eq_zero_iff]
  exact userOrders_nil hm

/-- Cancelling nothing puts the market back. -/
theorem cancelAllOf_none (hm : c.markets.find? name = some m) (hindex : m.IndexOK)
    (hnone : ∀ id o, m.resting id = some o → o.user ≠ u) :
    c.cancelAllOf E real name u = .ok (c.rewritten name m) := by
  have hcancel : m.cancelAllForUser E (c.ctx real) u = .ok (0, m, c.ctx real) := by
    unfold cancelAllForUser
    simp only [(userOrders_nil hindex).2 hnone, List.map_nil, List.foldlM_nil]
    rfl
  unfold Controller.cancelAllOf
  rw [hm]
  unfold Controller.cancelAllIn
  simp only [hcancel]
  rw [show c.rewritten name m =
    c.withMarket name m (c.ctx real) from (Controller.withMarket_ctx c name m).symm]
  rfl

/-! ## The whole batch -/

theorem Untouched.logged (h : Untouched c c') (op : Operation) :
    Untouched (c.logged now real op u) (c'.logged now real op u) := by
  unfold Controller.logged Controller.appendOperationLog
  split
  · refine ⟨h.settings, h.names, ?_, h.balances, h.filter, ?_, h.messages, h.markets⟩
    · simp only [h.sequencer]
    · simp only [h.sequencer, h.log]
  · exact h

theorem logged_markets (c : Controller) (now : Timestamp) (real : Bool) (op : Operation)
    (u : Uuid) : (c.logged now real op u).markets = c.markets := by
  obtain ⟨s, l, h, -⟩ := logged_eq c now real op u
  rw [h]

/-- A batch that returns `Ok` started, put its orders, and logged itself. -/
theorem batchOrderPut_ok {req : BatchOrderPutRequest} {response : BatchOrderPutResponse}
    (h : c.batchOrderPut E now available real req u = .ok (.ok (.batchOrderPut response), c')) :
    ∃ m c₁ c₂, c.markets.find? req.market = some m ∧ c.batchStart E real req u = .ok (.ok (), c₁) ∧
      c₁.batchPut E now real req.market u req.orders [] = .ok (.ok response, c₂) ∧
      c' = c₂.logged now real (.batchOrderPut req) u := by
  unfold Controller.batchOrderPut at h
  split at h
  · simp [pure_ok] at h
  split at h
  · simp [pure_ok] at h
  rename_i hm
  obtain ⟨m, hm⟩ := Option.ne_none_iff_exists'.1 (by simpa using hm)
  obtain ⟨⟨res, c₁⟩, hstart, h⟩ := bind_ok.1 h
  cases res with
  | error st => simp [pure_ok] at h
  | ok _ =>
    obtain ⟨⟨res, c₂⟩, hput, h⟩ := bind_ok.1 h
    cases res with
    | error st => simp [pure_ok] at h
    | ok r =>
      simp only [pure_ok, Prod.mk.injEq, Except.ok.injEq, Response.batchOrderPut.injEq] at h
      obtain ⟨rfl, rfl⟩ := h
      exact ⟨m, c₁, c₂, hm, hstart, hput, rfl⟩

theorem ControllerOK.batchInTurn (hc : ControllerOK b c) {req : BatchOrderPutRequest}
    {response : BatchOrderPutResponse}
    (hcall : c.batchOrderPut E now available real req u = .ok (.ok (.batchOrderPut response), c')) :
    BatchInTurn E now real c req u response c' ↔
      ¬ (req.reset = true ∧ req.orders = [] ∧ 0 < c.orderNumIn req.market u) := by
  obtain ⟨m, c₁, c₂, hm, hstart, hput, rfl⟩ := batchOrderPut_ok hcall
  have hindex := ((hc.desk _ _ hm).2 real).index
  have hcount : c.orderNumIn req.market u = 0 ↔ ∀ id o, m.resting id = some o → o.user ≠ u := by
    unfold Controller.orderNumIn
    rw [hm]
    exact getOrderNumOfUser_eq_zero hindex
  obtain ⟨new, heach, hids⟩ := batchPut_putEach hput
  rw [List.nil_append] at hids
  unfold Controller.batchStart at hstart
  by_cases hreset : req.reset = true
  · rw [if_pos hreset] at hstart
    by_cases hnil : req.orders = []
    · -- the loop has no round that could cancel
      rw [hnil] at hstart hput heach
      simp only [Controller.batchReset, Controller.batchPut, Except.ok.injEq, Prod.mk.injEq,
        true_and] at hstart hput
      obtain ⟨rfl, rfl⟩ := hput
      obtain rfl := hstart
      constructor
      · rintro hturn ⟨-, -, hopen⟩
        have hnone : ∀ id o, m.resting id = some o → o.user ≠ u := by
          intro id o ho hu
          have hmem := (hturn.rests hreset m id o (by rw [logged_markets]; exact hm) ho).1 hu
          cases hmem
        have hzero := hcount.2 hnone
        omega
      · intro hcond
        have hzero : c.orderNumIn req.market u = 0 := by
          by_contra hne
          exact hcond ⟨hreset, hnil, Nat.pos_of_ne_zero hne⟩
        have hnone := hcount.1 hzero
        refine ⟨⟨c.rewritten req.market m, ?_, ?_⟩, ?_⟩
        · unfold Controller.batchInTurn
          rw [if_pos hreset, cancelAllOf_none hm hindex hnone, hnil]
          rfl
        · have hback : Untouched (c.rewritten req.market m) c :=
            ⟨rfl, rfl, rfl, rfl, rfl, rfl, rfl,
              fun name => (Controller.find?_rewritten hm name).symm⟩
          exact hback.logged _
        · intro _ m₁ id o hm₁ ho
          rw [logged_markets] at hm₁
          obtain rfl := Option.some.inj (hm.symm.trans hm₁)
          simp [hnone id o ho]
    · have hmoves : Moves E now real u False AnyOrder c c₁ := batchReset_moves hc hstart
      obtain ⟨hcancel, hrest⟩ := batchReset_once now hc hnil hstart
      have hkept := batchPut_restOnly (hmoves.ok hc) (by simp) hrest hput
      refine ⟨fun _ hcond => hnil hcond.2.1, fun _ => ⟨⟨c₂, ?_, .refl _⟩, ?_⟩⟩
      · unfold Controller.batchInTurn
        rw [if_pos hreset, hcancel, hids]
        exact heach
      · intro _ m₁ id o hm₁ ho
        rw [logged_markets] at hm₁
        exact hkept m₁ id o hm₁ ho
  · rw [if_neg hreset, Except.ok.injEq, Prod.mk.injEq] at hstart
    obtain rfl := hstart.2
    refine ⟨fun _ hcond => hreset hcond.1, fun _ => ⟨⟨c₂, ?_, .refl _⟩, fun hr => absurd hr hreset⟩⟩
    unfold Controller.batchInTurn
    rw [if_neg hreset, hids]
    exact heach

/-- **A batch does its orders in turn, unless it is empty, is to reset, and finds orders to
cancel.** -/
theorem Reachable.batchInTurn_iff (h : Reachable E settings c) {req : BatchOrderPutRequest}
    {response : BatchOrderPutResponse}
    (hcall : c.batchOrderPut E now available real req u = .ok (.ok (.batchOrderPut response), c')) :
    BatchInTurn E now real c req u response c' ↔
      ¬ (req.reset = true ∧ req.orders = [] ∧ 0 < c.orderNumIn req.market u) := by
  obtain ⟨b, -, hc⟩ := h.ok
  exact hc.batchInTurn hcall

/-! ## Two batches -/

/-- Alice has one order open. -/
def openedRun : List Request :=
  [requestAt 0 alice (depositOf "ETH" 1 "5"),
    requestAt 1 alice (.orderPut (limitOrder .ask "2" "100"))]

/-- Alice's batch that is to reset. -/
def resettingBatch (orders : List OrderPutRequest) : BatchOrderPutRequest :=
  { market := "ETH_USDT", reset := true, orders }

/-- The identifiers a resetting batch answers with, and the orders open before it. -/
theorem resettingBatch_ok (orders : List OrderPutRequest) (ids : List ℕ)
    (h : (sampleRun releaseEnv openedRun >>= fun c => do
      let (reply, _) ← c.batchOrderPut releaseEnv 2 true true (resettingBatch orders) alice
      match reply with
      | .ok (.batchOrderPut r) => return (r.orderIds, c.orderNumIn "ETH_USDT" alice)
      | _ => throw .lookup) = (.ok (ids, 1) : Except Panic (List ℕ × ℕ))) :
    ∃ c response c', Reachable releaseEnv sampleSettings c ∧
      c.batchOrderPut releaseEnv 2 true true (resettingBatch orders) alice =
        .ok (.ok (.batchOrderPut response), c') ∧
      response.orderIds = ids ∧ c.orderNumIn "ETH_USDT" alice = 1 := by
  obtain ⟨c, hc, h⟩ := bind_ok.1 h
  obtain ⟨⟨reply, c'⟩, hbatch, h⟩ := bind_ok.1 h
  cases reply with
  | error st => exact absurd h throw_ok
  | ok r =>
    cases r with
    | batchOrderPut response =>
      simp only [pure_ok, Prod.mk.injEq] at h
      exact ⟨c, response, c', sampleRun_reachable hc, hbatch, h.1, h.2⟩
    | _ => exact absurd h throw_ok

/-- A batch of one order replaces the order that was open. -/
theorem Reachable.batchInTurn_iff_reset : ∃ c response c', Reachable releaseEnv sampleSettings c ∧
    c.batchOrderPut releaseEnv 2 true true (resettingBatch [limitOrder .ask "1" "101"]) alice =
      .ok (.ok (.batchOrderPut response), c') ∧ response.orderIds = [2] ∧
    BatchInTurn releaseEnv 2 true c (resettingBatch [limitOrder .ask "1" "101"]) alice response
      c' := by
  obtain ⟨c, response, c', hreach, hbatch, hids, -⟩ :=
    resettingBatch_ok [limitOrder .ask "1" "101"] [2] (by decide +kernel)
  refine ⟨c, response, c', hreach, hbatch, hids, (hreach.batchInTurn_iff hbatch).2 ?_⟩
  rintro ⟨-, hnil, -⟩
  cases hnil

/-- A batch without orders cancels none. -/
theorem not_batchInTurn :
    ¬ ∀ (c : Controller) (now : Timestamp) (available real : Bool) (req : BatchOrderPutRequest)
    (u : Uuid)
    (response : BatchOrderPutResponse) (c' : Controller), Reachable releaseEnv sampleSettings c →
    c.batchOrderPut releaseEnv now available real req u = .ok (.ok (.batchOrderPut response), c') →
    BatchInTurn releaseEnv now real c req u response c' := by
  intro hall
  obtain ⟨c, response, c', hreach, hbatch, -, hopen⟩ := resettingBatch_ok [] [] (by decide +kernel)
  have hturn := hall c 2 true true (resettingBatch []) alice response c' hreach hbatch
  obtain ⟨b, -, hc⟩ := hreach.ok
  refine (hc.batchInTurn hbatch).1 hturn ⟨rfl, rfl, ?_⟩
  rw [show c.orderNumIn (resettingBatch []).market alice = 1 from hopen]
  exact Nat.one_pos

end Dingir
