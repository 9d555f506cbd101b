import Mathlib.Data.List.TakeWhile
import Dingir.Spec.Sample
import Dingir.Proof.Reach

/-!
# What a refused call leaves behind

A call that returns an `Err` leaves the controller `Untouched`, with one
exception: a batch is checked while it is executed. When its first orders name
its own market and a later one does not, the `reset` or the first orders have
already taken effect (`Spills`).
-/

namespace Dingir

open Keyed Outcome Market

/-- Nothing but the representation of the maps has changed. -/
structure Untouched (c c' : Controller) : Prop where
  settings : c'.settings = c.settings
  names : c'.assetMarketNames = c.assetMarketNames
  sequencer : c'.sequencer = c.sequencer
  balances : c'.balanceManager = c.balanceManager
  filter : c'.updateController = c.updateController
  log : c'.logHandler = c.logHandler
  messages : c'.persistor = c.persistor
  markets : ∀ name, c'.markets.find? name = c.markets.find? name

/-- The orders are accepted when they are put in turn. -/
def Controller.PutInTurn (E : Env) (now : Timestamp) (real : Bool) (u : Uuid) :
    Controller → List OrderPutRequest → Prop
  | _, [] => True
  | c, o :: os => ∃ order c', c.putOrder E now real o u = .ok (.ok order, c') ∧
      c'.PutInTurn E now real u os

/-- The orders of a batch before the first one that names another market. -/
def BatchOrderPutRequest.own (req : BatchOrderPutRequest) : List OrderPutRequest :=
  req.orders.takeWhile fun o => req.market = o.market

/-- A batch that fails at a later order after its first orders, or its `reset`, took effect. -/
def Controller.BatchSpills (E : Env) (c : Controller) (q : Request)
    (req : BatchOrderPutRequest) : Prop :=
  q.available = true ∧ req.own ≠ [] ∧ req.own ≠ req.orders ∧
    ∃ m, c.markets.find? req.market = some m ∧
    if req.reset then ∃ id o, m.resting id = some o ∧ o.user = q.user
    else c.PutInTurn E q.now q.real q.user req.own

/-- A request whose failure leaves a trace. -/
def Controller.Spills (E : Env) (c : Controller) (q : Request) : Prop :=
  ∃ req, q.operation = .batchOrderPut req ∧ c.BatchSpills E q req

variable {E : Env} {settings : Settings} {now : Timestamp} {real : Bool} {u : Uuid}
  {c c' c'' b : Controller}

theorem Untouched.refl (c : Controller) : Untouched c c :=
  ⟨rfl, rfl, rfl, rfl, rfl, rfl, rfl, fun _ => rfl⟩

theorem Untouched.trans (h : Untouched c c') (h' : Untouched c' c'') : Untouched c c'' :=
  ⟨h'.settings.trans h.settings, h'.names.trans h.names, h'.sequencer.trans h.sequencer,
    h'.balances.trans h.balances, h'.filter.trans h.filter, h'.log.trans h.log,
    h'.messages.trans h.messages,
    fun name => (h'.markets name).trans (h.markets name)⟩

theorem Untouched.rewritten {name : String} {m : Market} (hm : c.markets.find? name = some m) :
    Untouched c (c.rewritten name m) :=
  ⟨rfl, rfl, rfl, rfl, rfl, rfl, rfl, Controller.find?_rewritten hm⟩

/-! ## The operations that are checked before they act -/

theorem updateBalance_refused {available : Bool} {req : BalanceUpdateRequest} {st : Status}
    (h : c.updateBalance E now available real req u = .ok (.error st, c')) : Untouched c c' := by
  rcases Controller.updateBalance_cases h with ⟨-, rfl⟩ | ⟨hreply, -⟩
  · exact .refl _
  · simp at hreply

theorem putOrder_refused {req : OrderPutRequest} {st : Status}
    (h : c.putOrder E now real req u = .ok (.error st, c')) : Untouched c c' := by
  rcases Controller.putOrder_cases h with ⟨-, rfl | ⟨m, hm, rfl⟩⟩ | ⟨o, m, input, m', x', hres, -⟩
  · exact .refl _
  · exact .rewritten hm
  · simp at hres

theorem orderPut_refused {available : Bool} {req : OrderPutRequest} {st : Status}
    (h : c.orderPut E now available real req u = .ok (.error st, c')) : Untouched c c' := by
  unfold Controller.orderPut at h
  split at h
  · simp only [pure_ok, Prod.mk.injEq] at h
    exact h.2 ▸ .refl _
  obtain ⟨⟨res, c₁⟩, hput, h⟩ := bind_ok.1 h
  cases res with
  | error st' =>
    simp only [pure_ok, Prod.mk.injEq] at h
    exact h.2 ▸ putOrder_refused hput
  | ok order => simp [pure, Except.pure] at h

theorem orderCancel_refused {available : Bool} {req : OrderCancelRequest} {st : Status}
    (h : c.orderCancel E now available real req u = .ok (.error st, c')) : Untouched c c' := by
  rcases orderCancel_cases h with ⟨-, rfl⟩ | ⟨m, rc, o, m', x', -, -, -, -, hreply, -⟩
  · exact .refl _
  · simp at hreply

theorem orderCancelAll_refused {available : Bool} {req : OrderCancelAllRequest} {st : Status}
    (h : c.orderCancelAll E now available real req u = .ok (.error st, c')) : Untouched c c' := by
  rcases orderCancelAll_cases h with ⟨-, rfl⟩ | ⟨m, n, c₁, -, -, hreply, -⟩
  · exact .refl _
  · simp at hreply

/-! ## The `reset` of a batch -/

/-- The map of a user is empty exactly when no order of the user rests. -/
theorem userOrders_nil {m : Market} (hm : m.IndexOK) :
    ((m.users[u]?).getD ∅).toList = [] ↔ ∀ id o, m.resting id = some o → o.user ≠ u := by
  rw [List.eq_nil_iff_forall_not_mem]
  constructor
  · intro h id o ho hu
    obtain ⟨rc, hrc, rfl⟩ := resting_some.1 ho
    have hmem := (hm.users u id rc).2 ⟨hrc, hu⟩
    exact h (id, rc) (Std.TreeMap.mem_toList_iff_getElem?_eq_some.2 hmem)
  · rintro h ⟨id, rc⟩ he
    rw [Std.TreeMap.mem_toList_iff_getElem?_eq_some] at he
    obtain ⟨ho, hu⟩ := (hm.users u id rc).1 he
    exact h id _ (resting_some.2 ⟨rc, ho, rfl⟩) hu

/-- A user without resting orders has nothing to cancel. -/
theorem cancelAllForUser_none {m m' : Market} {x x' : Ctx} {n : ℕ} (hm : m.IndexOK)
    (hnone : ∀ id o, m.resting id = some o → o.user ≠ u)
    (h : m.cancelAllForUser E x u = .ok (n, m', x')) : m' = m ∧ x' = x := by
  simp only [cancelAllForUser, bind_ok, pure_ok, (userOrders_nil hm).2 hnone, List.map_nil,
    List.foldlM_nil, Prod.mk.injEq] at h
  obtain ⟨s, rfl, -, rfl, rfl⟩ := h
  exact ⟨rfl, rfl⟩

/-- Cancelling all orders of a user leaves those of the others. -/
theorem cancelAllForUser_clears {m m' : Market} {x x' : Ctx} {n : ℕ} (hm : m.IndexOK)
    (h : m.cancelAllForUser E x u = .ok (n, m', x')) {id : ℕ} {o : Order}
    (ho : m'.resting id = some o) : m.resting id = some o ∧ o.user ≠ u := by
  simp only [cancelAllForUser, bind_ok, pure_ok, Prod.mk.injEq] at h
  obtain ⟨s, hloop, -, rfl, rfl⟩ := h
  let P (l : List ℕ) (s : Market × Ctx) : Prop :=
    ∀ id o, s.1.resting id = some o → m.resting id = some o ∧ (o.user = u → id ∈ l)
  have hend : P [] s := by
    refine foldlM_rule (P := P) ?_ _ _ s (fun id o ho => ⟨ho, fun hu => ?_⟩) hloop
    · rintro id l ⟨m₁, x₁⟩ ⟨m₂, x₂⟩ hP hstep id' o ho
      simp only [deep, bind_ok, pure_ok, unwrap_ok] at hstep
      obtain ⟨_, ⟨rc, hrc, rfl⟩, hfin⟩ := hstep
      obtain ⟨rfl, -⟩ := orderFinish_ok hfin
      rw [resting_without] at ho
      split at ho
      · simp at ho
      · rename_i hne
        obtain ⟨hold, hmem⟩ := hP id' o ho
        refine ⟨hold, fun hu => ?_⟩
        rcases List.mem_cons.1 (hmem hu) with rfl | hl
        · -- the order just removed is the one of this id
          have hread := resting_some.2 ⟨rc, hrc, rfl⟩
          rw [show m₁.resting id' = some o from ho] at hread
          exact absurd ((Option.some.inj hread).symm ▸ hm.resting_id hold) hne
        · exact hl
    · obtain ⟨rc, hrc, rfl⟩ := resting_some.1 ho
      have hget := (hm.users u id rc).2 ⟨hrc, hu⟩
      exact List.mem_map.2 ⟨(id, rc), Std.TreeMap.mem_toList_iff_getElem?_eq_some.2 hget, rfl⟩
  obtain ⟨hold, hmem⟩ := hend id o ho
  exact ⟨hold, fun hu => by simpa using hmem hu⟩

/-- A `reset` that fails, of a user without orders there, leaves no trace. -/
theorem batchReset_none {name : String} {m : Market} {orders : List OrderPutRequest}
    {res : Except Status Unit} (hc : ControllerOK b c) (hm : c.markets.find? name = some m)
    (hnone : ∀ id o, m.resting id = some o → o.user ≠ u)
    (h : c.batchReset E real name u orders = .ok (res, c')) : Untouched c c' := by
  induction orders generalizing c with
  | nil =>
    obtain ⟨-, rfl⟩ := by simpa [Controller.batchReset] using h
    exact .refl _
  | cons o orders ih =>
    unfold Controller.batchReset at h
    split at h
    · simp only [pure_ok, Prod.mk.injEq] at h
      exact h.2 ▸ .refl _
    · simp only [bind_ok, unwrap_ok] at h
      obtain ⟨m', hm', ⟨n, c₁⟩, hcancel, h⟩ := h
      obtain rfl := Option.some.inj (hm.symm.trans hm')
      have hmoves : Moves E 0 real u False AnyOrder _ _ := cancelAllIn_moves hc hm hcancel
      unfold Controller.cancelAllIn at hcancel
      simp only [bind_ok, pure_ok, Prod.mk.injEq] at hcancel
      obtain ⟨⟨_, m₁, x₁⟩, hcancel, -, rfl⟩ := hcancel
      obtain ⟨rfl, rfl⟩ := cancelAllForUser_none ((hc.desk _ _ hm).2 real).index hnone hcancel
      rw [Controller.withMarket_ctx] at h hmoves
      have hfind := Controller.find?_rewritten hm
      exact (Untouched.rewritten hm).trans (ih (hmoves.ok hc) ((hfind name).trans hm) h)

/-- A `reset` that gets past its first order leaves no order of the user. -/
theorem batchReset_clears {name : String} {m : Market} {orders : List OrderPutRequest}
    {res : Except Status Unit} (hc : ControllerOK b c) (hm : c.markets.find? name = some m)
    (h : c.batchReset E real name u orders = .ok (res, c')) :
    ∃ m', c'.markets.find? name = some m' ∧ ∀ id o, m'.resting id = some o → m.resting id = some o ∧
      ((∃ o os, orders = o :: os ∧ name = o.market) → o.user ≠ u) := by
  induction orders generalizing c m with
  | nil =>
    obtain ⟨-, rfl⟩ := by simpa [Controller.batchReset] using h
    exact ⟨m, hm, fun id o ho => ⟨ho, by rintro ⟨_, _, hcons, -⟩; simp at hcons⟩⟩
  | cons o orders ih =>
    unfold Controller.batchReset at h
    split at h
    · rename_i hname
      simp only [pure_ok, Prod.mk.injEq] at h
      refine ⟨m, h.2 ▸ hm, fun id p hp => ⟨hp, ?_⟩⟩
      rintro ⟨_, _, hcons, heq⟩
      simp only [List.cons.injEq] at hcons
      exact absurd (hcons.1 ▸ heq) hname
    · simp only [bind_ok, unwrap_ok] at h
      obtain ⟨m', hm', ⟨n, c₁⟩, hcancel, h⟩ := h
      obtain rfl := Option.some.inj (hm.symm.trans hm')
      have hmoves : Moves E 0 real u False AnyOrder _ _ := cancelAllIn_moves hc hm hcancel
      unfold Controller.cancelAllIn at hcancel
      simp only [bind_ok, pure_ok, Prod.mk.injEq] at hcancel
      obtain ⟨⟨_, m₁, x₁⟩, hcancel, -, rfl⟩ := hcancel
      have hclear : ∀ {id o}, m₁.resting id = some o → m.resting id = some o ∧ o.user ≠ u :=
        fun ho =>
        cancelAllForUser_clears ((hc.desk _ _ hm).2 real).index hcancel ho
      have hm₁ : (c.withMarket name m₁ x₁).markets.find? name = some m₁ := find?_insert_self _ _ _
      obtain ⟨m₂, hm₂, hrest⟩ := ih (hmoves.ok hc) hm₁ h
      refine ⟨m₂, hm₂, fun id p hp => ?_⟩
      obtain ⟨h₁, -⟩ := hrest id p hp
      obtain ⟨h₀, hne⟩ := hclear h₁
      exact ⟨h₀, fun _ => hne⟩

/-- The `reset` fails exactly when an order names another market. -/
theorem batchReset_error {name : String} {orders : List OrderPutRequest} {res : Except Status Unit}
    (h : c.batchReset E real name u orders = .ok (res, c')) :
    (∃ st, res = .error st) ↔ ∃ o ∈ orders, name ≠ o.market := by
  induction orders generalizing c with
  | nil =>
    obtain ⟨rfl, -⟩ := by simpa [Controller.batchReset] using h
    simp
  | cons o orders ih =>
    unfold Controller.batchReset at h
    split at h
    · rename_i hname
      simp only [pure_ok, Prod.mk.injEq] at h
      obtain ⟨rfl, -⟩ := h
      exact ⟨fun _ => ⟨o, by simp, hname⟩, fun _ => ⟨_, rfl⟩⟩
    · rename_i hname
      simp only [bind_ok, unwrap_ok] at h
      obtain ⟨m', -, ⟨n, c₁⟩, -, h⟩ := h
      rw [ih h]
      constructor
      · rintro ⟨p, hp, hne⟩; exact ⟨p, List.mem_cons_of_mem _ hp, hne⟩
      · rintro ⟨p, hp, hne⟩
        rcases List.mem_cons.1 hp with rfl | hp
        · exact absurd hne hname
        · exact ⟨p, hp, hne⟩

/-! ## The orders of a batch -/

/-- An accepted order draws an order id. -/
theorem putOrder_draws {req : OrderPutRequest} {o : Order} (hc : ControllerOK b c)
    (h : c.putOrder E now real req u = .ok (.ok o, c')) :
    c.sequencer.orderId < c'.sequencer.orderId := by
  rcases Controller.putOrder_cases h with ⟨⟨st, hst⟩, -⟩ |
    ⟨o, m, input, m', x', -, hm, -, hput, rfl⟩
  · simp at hst
  · have hd := (hc.desk _ _ hm).2 real
    unfold Market.putOrder at hput
    split at hput
    · simp [pure, Except.pure] at hput
    rename_i hcheck
    simp only [bind_ok, pure_ok, Prod.mk.injEq] at hput
    obtain ⟨ql, hql, ⟨o', m₁, x₁⟩, hex, -, rfl, rfl⟩ := hput
    have hstep : Step E now u AnyOrder ⟨m, c.ctx real, none⟩ _ := Step.accept trivial hcheck hql
    have hd' := hstep.deskOK hd
    have hsteps := executeOrder_steps (u := u) (A := AnyOrder)
      (x := { (c.ctx real) with sequencer := (c.ctx real).sequencer.nextOrderId.2 })
      (hd.quiet rfl) hd' hex
    have hle := (hsteps.undisturbed hd').orderId
    exact Nat.lt_of_lt_of_le (Nat.lt_succ_self _) hle

/-- **The loop of a batch fails exactly when the orders before one of another market
are accepted**, and draws an order id for each of them. -/
theorem batchPut_error {req : BatchOrderPutRequest} {orders : List OrderPutRequest} {ids : List ℕ}
    {res : Except Status BatchOrderPutResponse} (hc : ControllerOK b c)
    (h : c.batchPut E now real req.market u orders ids = .ok (res, c')) :
    ((∃ st, res = .error st) ↔ (orders.takeWhile fun o => req.market = o.market) ≠ orders ∧
      c.PutInTurn E now real u (orders.takeWhile fun o => req.market = o.market)) ∧
    ((∃ st, res = .error st) → (orders.takeWhile fun o => req.market = o.market) = [] → c' = c) ∧
    ((∃ st, res = .error st) → (orders.takeWhile fun o => req.market = o.market) ≠ [] →
      c.sequencer.orderId < c'.sequencer.orderId) := by
  induction orders generalizing c ids with
  | nil =>
    obtain ⟨rfl, -⟩ := by simpa [Controller.batchPut] using h
    simp
  | cons o orders ih =>
    unfold Controller.batchPut at h
    split at h
    · rename_i hname
      simp only [pure_ok, Prod.mk.injEq] at h
      obtain ⟨rfl, rfl⟩ := h
      rw [List.takeWhile_cons_of_neg (by simpa using hname)]
      exact ⟨⟨fun _ => ⟨by simp, trivial⟩, fun _ => ⟨_, rfl⟩⟩, fun _ _ => rfl,
        fun _ hne => absurd rfl hne⟩
    · rename_i hname
      simp only [bind_ok] at h
      obtain ⟨⟨r, c₁⟩, hput, h⟩ := h
      rw [List.takeWhile_cons_of_pos (by simpa using hname)]
      cases r with
      | error st =>
        simp only [pure_ok, Prod.mk.injEq] at h
        obtain ⟨rfl, -⟩ := h
        refine ⟨⟨by simp, ?_⟩, by simp, by simp⟩
        rintro ⟨-, p, c₂, hp, -⟩
        rw [hput] at hp
        simp at hp
      | ok order =>
        have hc₁ := (putOrder_moves (w := False) hc admits_any hput).ok hc
        have hdraw := putOrder_draws hc hput
        obtain ⟨hiff, hnil, hcons⟩ := ih hc₁ h
        refine ⟨hiff.trans ⟨?_, ?_⟩, by simp, fun herr _ => ?_⟩
        · rintro ⟨hne, hturn⟩
          exact ⟨by simpa using hne, order, c₁, hput, hturn⟩
        · rintro ⟨hne, p, c₂, hp, hturn⟩
          rw [hput] at hp
          obtain ⟨-, rfl⟩ := by simpa using hp
          exact ⟨by simpa using hne, hturn⟩
        · by_cases hown : (orders.takeWhile fun o => req.market = o.market) = []
          · rw [hnil herr hown]; exact hdraw
          · exact hdraw.trans (hcons herr hown)

/-- All orders name their batch's market, or one does not. -/
theorem own_ne_iff (req : BatchOrderPutRequest) :
    req.own ≠ req.orders ↔ ∃ o ∈ req.orders, req.market ≠ o.market := by
  unfold BatchOrderPutRequest.own
  rw [ne_eq, List.takeWhile_eq_self_iff]
  simp

/-- **What a failed batch leaves behind.** -/
theorem batchOrderPut_untouched {q : Request} {req : BatchOrderPutRequest}
    {reply : Except Status Response} (hc : ControllerOK b c)
    (h : c.batchOrderPut E q.now q.available q.real req q.user = .ok (reply, c')) :
    (∀ st, reply = .error st → Untouched c c') ↔ ¬ c.BatchSpills E q req := by
  unfold Controller.batchOrderPut at h
  unfold Controller.BatchSpills
  split at h
  · rename_i ha
    simp only [pure_ok, Prod.mk.injEq] at h
    obtain ⟨rfl, rfl⟩ := h
    exact ⟨fun _ hs => by simp [hs.1] at ha, fun _ _ _ => .refl _⟩
  rename_i ha
  split at h
  · rename_i hm
    simp only [pure_ok, Prod.mk.injEq] at h
    obtain ⟨rfl, rfl⟩ := h
    refine ⟨?_, fun _ _ _ => .refl _⟩
    rintro - ⟨-, -, -, m, hm', -⟩
    simp [hm'] at hm
  rename_i hm
  obtain ⟨m, hm⟩ := Option.ne_none_iff_exists'.1 (by simpa using hm)
  have havail : q.available = true := by simpa using ha
  obtain ⟨⟨res, c₁⟩, hstart, h⟩ := bind_ok.1 h
  unfold Controller.batchStart at hstart
  by_cases hreset : req.reset = true
  · rw [if_pos hreset] at hstart
    have herr := batchReset_error hstart
    cases res with
    | ok _ =>
      -- every order names the market, so the loop does not fail either
      have hown : req.own = req.orders := by
        by_contra hne
        obtain ⟨st, hst⟩ := herr.2 ((own_ne_iff req).1 hne)
        simp at hst
      obtain ⟨⟨res₂, c₂⟩, hloop, h⟩ := bind_ok.1 h
      have hc₁ := Moves.ok
        (show Moves E q.now q.real q.user False AnyOrder _ _ from batchReset_moves hc hstart) hc
      have hok : ¬ ∃ st, res₂ = .error st := fun hst => ((batchPut_error hc₁ hloop).1.1 hst).1 hown
      cases res₂ with
      | error st => exact absurd ⟨st, rfl⟩ hok
      | ok response =>
        simp only [pure_ok, Prod.mk.injEq] at h
        obtain ⟨rfl, -⟩ := h
        exact ⟨fun _ hs => hs.2.2.1 hown, by simp⟩
    | error st =>
      simp only [pure_ok, Prod.mk.injEq] at h
      obtain ⟨rfl, rfl⟩ := h
      have hne := (own_ne_iff req).2 (herr.1 ⟨st, rfl⟩)
      constructor
      · rintro huntouched ⟨-, hown, -, m', hm', hspill⟩
        obtain rfl := Option.some.inj (hm.symm.trans hm')
        rw [if_pos hreset] at hspill
        obtain ⟨id, o, ho, hu⟩ := hspill
        obtain ⟨m₁, hm₁, hclear⟩ := batchReset_clears hc hm hstart
        rw [(huntouched st rfl).markets, hm] at hm₁
        obtain rfl := Option.some.inj hm₁
        refine (hclear id o ho).2 ?_ hu
        unfold BatchOrderPutRequest.own at hown
        cases horders : req.orders with
        | nil => simp [horders] at hown
        | cons p ps =>
          rw [horders] at hown
          refine ⟨p, ps, rfl, ?_⟩
          by_contra hp
          exact hown (List.takeWhile_cons_of_neg (by simpa using hp))
      · intro hspill st' _
        by_cases hown : req.own = []
        · -- the first order already names another market
          cases horders : req.orders with
          | nil => simp [horders, BatchOrderPutRequest.own] at hne
          | cons p ps =>
            have hp : req.market ≠ p.market := by
              intro hp
              simp [BatchOrderPutRequest.own, horders, hp] at hown
            rw [horders] at hstart
            unfold Controller.batchReset at hstart
            rw [if_pos hp] at hstart
            simp only [pure_ok, Prod.mk.injEq] at hstart
            exact hstart.2 ▸ .refl _
        · refine batchReset_none hc hm (fun id o ho hu => hspill ⟨havail, hown, hne, m, hm, ?_⟩)
            hstart
          rw [if_pos hreset]
          exact ⟨id, o, ho, hu⟩
  · rw [if_neg hreset, Except.ok.injEq, Prod.mk.injEq] at hstart
    obtain ⟨rfl, rfl⟩ := hstart
    obtain ⟨⟨res, c₂⟩, hloop, h⟩ := bind_ok.1 h
    obtain ⟨hiff, hnil, hcons⟩ := batchPut_error hc hloop
    cases res with
    | ok response =>
      simp only [pure_ok, Prod.mk.injEq] at h
      obtain ⟨rfl, -⟩ := h
      refine ⟨?_, by simp⟩
      rintro - ⟨-, -, hne, m', -, hturn⟩
      rw [if_neg hreset] at hturn
      obtain ⟨st, hst⟩ := hiff.2 ⟨hne, hturn⟩
      simp at hst
    | error st =>
      simp only [pure_ok, Prod.mk.injEq] at h
      obtain ⟨rfl, rfl⟩ := h
      constructor
      · rintro huntouched ⟨-, hown, -⟩
        have hlt := hcons ⟨st, rfl⟩ hown
        rw [(huntouched st rfl).sequencer] at hlt
        exact lt_irrefl _ hlt
      · intro hspill st' _
        by_cases hown : req.own = []
        · rw [hnil ⟨st, rfl⟩ hown]; exact .refl _
        · obtain ⟨hne, hturn⟩ := hiff.1 ⟨st, rfl⟩
          refine absurd ⟨havail, hown, hne, m, hm, ?_⟩ hspill
          rw [if_neg hreset]; exact hturn

/-- A well-formed controller is untouched by a call that fails, unless the call spills. -/
theorem ControllerOK.untouched {q : Request} {reply : Except Status Response}
    (hc : ControllerOK b c) (h : c.call E q = .ok (reply, c')) :
    (∀ st, reply = .error st → Untouched c c') ↔ ¬ c.Spills E q := by
  obtain ⟨now, available, real, user, op⟩ := q
  have hnone : ∀ {P : Prop}, P → (∀ req, op ≠ .batchOrderPut req) →
      (P ↔ ¬ c.Spills E ⟨now, available, real, user, op⟩) := by
    rintro P hP hop
    refine ⟨fun _ => ?_, fun _ => hP⟩
    rintro ⟨req, hreq, -⟩
    exact hop req hreq
  cases op with
  | balanceUpdate req => exact hnone (fun st hst => updateBalance_refused (hst ▸ h)) (by simp)
  | orderPut req => exact hnone (fun st hst => orderPut_refused (hst ▸ h)) (by simp)
  | orderCancel req => exact hnone (fun st hst => orderCancel_refused (hst ▸ h)) (by simp)
  | orderCancelAll req => exact hnone (fun st hst => orderCancelAll_refused (hst ▸ h)) (by simp)
  | batchOrderPut req =>
    refine (batchOrderPut_untouched (q := ⟨now, available, real, user, .batchOrderPut req⟩) hc
      h).trans (not_congr ?_)
    constructor
    · exact fun hs => ⟨req, rfl, hs⟩
    · rintro ⟨req', hreq, hs⟩
      obtain rfl : req = req' := by simpa using hreq
      exact hs

/-- **A request that fails leaves no trace, exactly when it does not spill.** -/
theorem Reachable.untouched_iff (h : Reachable E settings c) {q : Request}
    {reply : Except Status Response} (hcall : c.call E q = .ok (reply, c')) :
    (∀ st, reply = .error st → Untouched c c') ↔ ¬ c.Spills E q := by
  obtain ⟨b, -, hc⟩ := h.ok
  exact hc.untouched hcall

/-- A cancellation of an order that is not there. -/
theorem Reachable.untouched_iff_cancel : ∃ c c' st, Reachable releaseEnv sampleSettings c ∧
    c.call releaseEnv (requestAt 1 bob (.orderCancel ⟨"ETH_USDT", 7⟩)) = .ok (.error st, c') ∧
    Untouched c c' := by
  have h : (sampleRun releaseEnv [requestAt 0 bob (depositOf "ETH" 1 "10")] >>= fun c =>
      c.call releaseEnv (requestAt 1 bob (.orderCancel ⟨"ETH_USDT", 7⟩)) >>=
        fun t => pure t.1.isOk) =
      (.ok false : Except Panic Bool) := by decide +kernel
  simp only [bind_ok, pure_ok] at h
  obtain ⟨c, hc, ⟨reply, c'⟩, hcall, hreply⟩ := h
  cases reply with
  | ok response => simp [Except.isOk, Except.toBool] at hreply
  | error st =>
    have hreach := sampleRun_reachable hc
    refine ⟨c, c', st, hreach, hcall, (hreach.untouched_iff hcall).2 ?_ st rfl⟩
    rintro ⟨req, hreq, -⟩
    simp [requestAt] at hreq

/-- A batch whose first order is put before its second one is found to name another market. -/
def spillingBatch : Request := requestAt 1 bob (.batchOrderPut
  { market := "ETH_USDT", reset := false,
    orders := [limitOrder .ask "2" "100", { limitOrder .ask "2" "100" with market := "BTC_USDT" }] })

theorem not_untouched : ¬ ∀ c q st c', Reachable releaseEnv sampleSettings c →
    c.call releaseEnv q = .ok (.error st, c') → Untouched c c' := by
  intro hall
  have h : (sampleRun releaseEnv [requestAt 0 bob (depositOf "ETH" 1 "10")] >>= fun c =>
      c.call releaseEnv spillingBatch >>= fun t =>
        pure (t.1.isOk, c.sequencer.orderId, t.2.sequencer.orderId)) =
      (.ok (false, 0, 1) : Except Panic (Bool × ℕ × ℕ)) := by decide +kernel
  simp only [bind_ok, pure_ok, Prod.mk.injEq] at h
  obtain ⟨c, hc, ⟨reply, c'⟩, hcall, hreply, hbefore, hafter⟩ := h
  cases reply with
  | ok response => simp [Except.isOk, Except.toBool] at hreply
  | error st =>
    have hsame := (hall c _ st c' (sampleRun_reachable hc) hcall).sequencer
    simp only at hafter
    rw [hsame, hbefore] at hafter
    exact absurd hafter (by decide)

end Dingir
