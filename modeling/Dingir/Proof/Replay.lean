import Dingir.Proof.Reach
import Dingir.Proof.Twin

/-!
# Calls in step

Two controllers that differ in times, logs and messages only, with last trades and
filters that go together as `Q` has it (`Controller.Twin`), and the same call on
both: when the first returns, so does the second, with the same kind of reply, and
they still differ in nothing else.

This holds of every operation on orders (`call_twin`). A balance update runs in
step when the second filter does not know it (`updateBalance_twin`).
-/

namespace Dingir

open Keyed Outcome Market

/-- `r` is `c` but for times, logs and messages, with last trades and a filter of its own. -/
structure Controller.Twin (Q : Pairing) (c r : Controller) : Prop where
  limit : r.settings.userOrderNumLimit = c.settings.userOrderNumLimit
  names : ∀ pair, r.assetMarketNames.find? pair = c.assetMarketNames.find? pair
  balances : c.balanceManager.Twin r.balanceManager
  orderId : r.sequencer.orderId = c.sequencer.orderId
  tradeId : r.sequencer.tradeId = c.sequencer.tradeId
  capacity : 4 ≤ c.updateController.cache.capacity
  filtered : Filtered Q.known (r.ctx true)
  filters : Q.filters c.updateController.cache r.updateController.cache
  markets : ∀ name, Option.Rel (Market.Twin Q) (c.markets.find? name) (r.markets.find? name)

variable {E : Env} {K : BalanceUpdateKey → Prop} {Q : Pairing} {now τ : Timestamp} {real ρ : Bool}
  {u : Uuid} {c c' r : Controller}

namespace Controller.Twin

/-- A controller is in step with itself. -/
theorem refl (hcap : 4 ≤ c.updateController.cache.capacity)
    (hf : Filtered K (c.ctx true)) : c.Twin (.exact K) c := by
  refine ⟨rfl, fun _ => rfl, .refl _, rfl, rfl, hcap, hf, trivial, fun name => ?_⟩
  cases c.markets.find? name with
  | none => exact .none
  | some m => exact .some (Market.Twin.refl K m)

theorem ctx (h : c.Twin Q r) (real ρ : Bool) : (c.ctx real).Twin Q (r.ctx ρ) :=
  ⟨h.balances, h.orderId, h.tradeId, h.capacity, ⟨h.filtered.trade, h.filtered.other⟩, h.filters⟩

theorem some (h : c.Twin Q r) {name : String} {m : Market} (hm : c.markets.find? name = some m) :
    ∃ m', r.markets.find? name = some m' ∧ m.Twin Q m' := by
  have hrel := h.markets name
  rw [hm] at hrel
  generalize r.markets.find? name = o at hrel
  cases hrel with
  | some hmm => exact ⟨_, rfl, hmm⟩

theorem none (h : c.Twin Q r) {name : String} (hm : c.markets.find? name = none) :
    r.markets.find? name = none := by
  have hrel := h.markets name
  rw [hm] at hrel
  generalize r.markets.find? name = o at hrel
  cases hrel with
  | none => rfl

theorem withCtx {x y : Ctx} (h : c.Twin Q r) (hx : x.Twin Q y) :
    (c.withCtx x).Twin Q (r.withCtx y) :=
  ⟨h.limit, h.names, hx.balances, hx.orderId, hx.tradeId, hx.capacity,
    ⟨hx.filtered.trade, hx.filtered.other⟩,
    hx.filters, h.markets⟩

theorem withMarket {x y : Ctx} {m m' : Market} (h : c.Twin Q r) (hx : x.Twin Q y) (hm : m.Twin Q m')
    (name : String) : (c.withMarket name m x).Twin Q (r.withMarket name m' y) := by
  refine ⟨h.limit, h.names, hx.balances, hx.orderId, hx.tradeId, hx.capacity,
    ⟨hx.filtered.trade, hx.filtered.other⟩, hx.filters, fun other => ?_⟩
  rw [Controller.find?_withMarket, Controller.find?_withMarket]
  split
  · exact .some hm
  · exact h.markets other

theorem logged (h : c.Twin Q r) (op op' : Operation) :
    (c.logged now real op u).Twin Q (r.logged τ ρ op' u) := by
  obtain ⟨s, l, hc, ho, ht⟩ := logged_eq c now real op u
  obtain ⟨s', l', hr, ho', ht'⟩ := logged_eq r τ ρ op' u
  rw [hc, hr]
  refine ⟨h.limit, h.names, h.balances, ho'.trans (h.orderId.trans ho.symm),
    ht'.trans (h.tradeId.trans ht.symm),
    h.capacity, ⟨fun a ha hk => ?_, h.filtered.other⟩, h.filters, h.markets⟩
  show _ ≤ s'.tradeId
  rw [ht']
  exact h.filtered.trade a ha hk

theorem totalOrderNum (h : c.Twin Q r) (user : Uuid) :
    r.totalOrderNum user = c.totalOrderNum user := by
  unfold Controller.totalOrderNum
  refine (hashTally_eq_of_map fun name => ?_).symm
  have hrel := h.markets name
  generalize c.markets.find? name = o at hrel ⊢
  generalize r.markets.find? name = o' at hrel ⊢
  cases hrel with
  | none => rfl
  | some hm =>
    obtain ⟨hp, price, n, rfl, -, -, -⟩ := hm
    rfl

end Controller.Twin

/-! ## The operations on orders -/

theorem Controller.putOrder_twin {req : OrderPutRequest} {res : Except Status Order}
    (hQ : Q.OK now τ) (h : c.Twin Q r) (hput : c.putOrder E now real req u = .ok (res, c')) :
    ∃ res' r', r.putOrder E τ ρ req u = .ok (res', r') ∧ ReplyTwin res res' ∧ c'.Twin Q r' := by
  unfold Controller.putOrder at hput ⊢
  split at hput
  case h_2 hm =>
    rw [h.none (Option.eq_none_iff_forall_ne_some.2 hm)]
    simp only [pure_ok, Prod.mk.injEq] at hput
    obtain ⟨rfl, rfl⟩ := hput
    exact ⟨_, r, rfl, .error _, h⟩
  rename_i m hm
  obtain ⟨m', hm', hmm⟩ := h.some hm
  simp only [hm', h.totalOrderNum, h.limit]
  obtain ⟨_, d, hput⟩ := bind_ok.1 hput
  have hassert : ∀ {β : Type} (f : Unit → Except Panic β),
      (E.debugAssert .debugAssert (c.totalOrderNum u ≤ c.settings.userOrderNumLimit) >>= f) =
      f () := fun f => by
    rw [d]; rfl
  rw [hassert]
  split at hput
  · rename_i hc
    rw [if_pos hc]
    simp only [pure_ok, Prod.mk.injEq] at hput
    obtain ⟨rfl, rfl⟩ := hput
    exact ⟨_, r, rfl, .error _, h⟩
  rename_i hc
  rw [if_neg hc]
  split at hput
  · simp only [pure_ok, Prod.mk.injEq] at hput
    obtain ⟨rfl, rfl⟩ := hput
    exact ⟨_, r, rfl, .error _, h⟩
  obtain ⟨⟨res₁, m₁, x₁⟩, hmput, hput⟩ := bind_ok.1 hput
  obtain ⟨res₁', m₁', y₁, hmput', hres, hmm₁, hxx⟩ :=
    Market.putOrder_twin hQ hmm (h.ctx real ρ) hmput
  simp only [hmput']
  cases hres with
  | error e =>
    simp only [pure_ok, Prod.mk.injEq] at hput
    obtain ⟨rfl, rfl⟩ := hput
    exact ⟨_, _, rfl, .error _, h.withMarket hxx hmm₁ _⟩
  | ok ho =>
    simp only [pure_ok, Prod.mk.injEq] at hput
    obtain ⟨rfl, rfl⟩ := hput
    exact ⟨_, _, rfl, .ok ho, h.withMarket hxx hmm₁ _⟩

theorem Controller.cancelAllIn_twin {name : String} {m m' : Market} {n : ℕ} (h : c.Twin Q r)
    (hm : m.Twin Q m') (hcancel : c.cancelAllIn E real name m u = .ok (n, c')) :
    ∃ r', r.cancelAllIn E ρ name m' u = .ok (n, r') ∧ c'.Twin Q r' := by
  unfold Controller.cancelAllIn at hcancel ⊢
  obtain ⟨⟨k, m₁, x₁⟩, hc, he⟩ := bind_ok.1 hcancel
  simp only [pure_ok, Prod.mk.injEq] at he
  obtain ⟨rfl, rfl⟩ := he
  obtain ⟨m₁', y₁, hc', hmm, hxx⟩ := cancelAllForUser_twin hm (h.ctx real ρ) hc
  exact ⟨_, bind_ok.2 ⟨(k, m₁', y₁), hc', rfl⟩, h.withMarket hxx hmm name⟩

theorem Controller.batchReset_twin {name : String} {orders : List OrderPutRequest}
    {res : Except Status Unit} (h : c.Twin Q r)
    (hreset : c.batchReset E real name u orders = .ok (res, c')) :
    ∃ r', r.batchReset E ρ name u orders = .ok (res, r') ∧ c'.Twin Q r' := by
  induction orders generalizing c r with
  | nil =>
    simp only [Controller.batchReset, Except.ok.injEq, Prod.mk.injEq] at hreset
    obtain ⟨rfl, rfl⟩ := hreset
    exact ⟨r, rfl, h⟩
  | cons o orders ih =>
    unfold Controller.batchReset at hreset ⊢
    split at hreset
    · rename_i hname
      simp only [pure_ok, Prod.mk.injEq] at hreset
      obtain ⟨rfl, rfl⟩ := hreset
      exact ⟨r, by rw [if_pos hname]; rfl, h⟩
    · rename_i hname
      obtain ⟨m, hm, hreset⟩ := bind_ok.1 hreset
      rw [unwrap_ok] at hm
      obtain ⟨⟨n, c₁⟩, hcancel, hreset⟩ := bind_ok.1 hreset
      obtain ⟨m', hm', hmm⟩ := h.some hm
      obtain ⟨r₁, hcancel', h₁⟩ := Controller.cancelAllIn_twin (ρ := ρ) h hmm hcancel
      obtain ⟨r', hreset', h'⟩ := ih h₁ hreset
      refine ⟨r', ?_, h'⟩
      rw [if_neg hname]
      exact bind_ok.2 ⟨m', unwrap_ok.2 hm', bind_ok.2 ⟨(n, r₁), hcancel', hreset'⟩⟩

theorem Controller.batchPut_twin {name : String} {orders : List OrderPutRequest} {ids : List ℕ}
    {res : Except Status BatchOrderPutResponse} (hQ : Q.OK now τ) (h : c.Twin Q r)
    (hput : c.batchPut E now real name u orders ids = .ok (res, c')) :
    ∃ r', r.batchPut E τ ρ name u orders ids = .ok (res, r') ∧ c'.Twin Q r' := by
  induction orders generalizing c r ids with
  | nil =>
    simp only [Controller.batchPut, Except.ok.injEq, Prod.mk.injEq] at hput
    obtain ⟨rfl, rfl⟩ := hput
    exact ⟨r, rfl, h⟩
  | cons o orders ih =>
    unfold Controller.batchPut at hput ⊢
    split at hput
    · rename_i hname
      simp only [pure_ok, Prod.mk.injEq] at hput
      obtain ⟨rfl, rfl⟩ := hput
      exact ⟨r, by rw [if_pos hname]; rfl, h⟩
    · rename_i hname
      obtain ⟨⟨res₁, c₁⟩, hone, hput⟩ := bind_ok.1 hput
      obtain ⟨res₁', r₁, hone', hres, h₁⟩ := Controller.putOrder_twin (ρ := ρ) hQ h hone
      rw [if_neg hname]
      cases hres with
      | error e =>
        simp only [pure_ok, Prod.mk.injEq] at hput
        obtain ⟨rfl, rfl⟩ := hput
        exact ⟨r₁, bind_ok.2 ⟨_, hone', rfl⟩, h₁⟩
      | ok hoo =>
        simp only at hput
        rw [← hoo.id] at hput
        obtain ⟨r', hput', h'⟩ := ih h₁ hput
        exact ⟨r', bind_ok.2 ⟨_, hone', hput'⟩, h'⟩

/-- Two replies that are both responses or both errors. -/
def SameKind {α β : Type} (reply : Except Status α) (reply' : Except Status β) : Prop :=
  reply.isOk = reply'.isOk

theorem Controller.batchOrderPut_twin {available : Bool} {req : BatchOrderPutRequest}
    {reply : Except Status Response} (hQ : Q.OK now τ) (h : c.Twin Q r)
    (hput : c.batchOrderPut E now available real req u = .ok (reply, c')) :
    ∃ reply' r', r.batchOrderPut E τ available ρ req u = .ok (reply', r') ∧ SameKind reply reply' ∧
      c'.Twin Q r' := by
  unfold Controller.batchOrderPut at hput ⊢
  split at hput
  · rename_i ha
    simp only [pure_ok, Prod.mk.injEq] at hput
    obtain ⟨rfl, rfl⟩ := hput
    exact ⟨_, r, by rw [if_pos ha]; rfl, rfl, h⟩
  rename_i ha
  have hsame : (r.markets.find? req.market).isNone = (c.markets.find? req.market).isNone := by
    cases hm : c.markets.find? req.market with
    | none => rw [h.none hm]
    | some m =>
      obtain ⟨m', hm', -⟩ := h.some hm
      rw [hm']; rfl
  rw [if_neg ha, hsame]
  split at hput
  · rename_i hm
    simp only [pure_ok, Prod.mk.injEq] at hput
    obtain ⟨rfl, rfl⟩ := hput
    exact ⟨_, r, by rw [if_pos hm]; rfl, rfl, h⟩
  rename_i hm
  rw [if_neg hm]
  obtain ⟨⟨res, c₁⟩, hstart, hput⟩ := bind_ok.1 hput
  obtain ⟨r₁, hstart', h₁⟩ : ∃ r₁, r.batchStart E ρ req u = .ok (res, r₁) ∧ c₁.Twin Q r₁ := by
    unfold Controller.batchStart at hstart ⊢
    split at hstart
    · rename_i hreset
      rw [if_pos hreset]
      exact Controller.batchReset_twin h hstart
    · rename_i hreset
      simp only [Except.ok.injEq, Prod.mk.injEq] at hstart
      obtain ⟨rfl, rfl⟩ := hstart
      exact ⟨r, by rw [if_neg hreset], h⟩
  cases res with
  | error st =>
    simp only [pure_ok, Prod.mk.injEq] at hput
    obtain ⟨rfl, rfl⟩ := hput
    exact ⟨_, r₁, bind_ok.2 ⟨_, hstart', rfl⟩, rfl, h₁⟩
  | ok _ =>
    obtain ⟨⟨res, c₂⟩, hloop, hput⟩ := bind_ok.1 hput
    obtain ⟨r₂, hloop', h₂⟩ := Controller.batchPut_twin (ρ := ρ) hQ h₁ hloop
    cases res with
    | error st =>
      simp only [pure_ok, Prod.mk.injEq] at hput
      obtain ⟨rfl, rfl⟩ := hput
      exact ⟨_, r₂, bind_ok.2 ⟨_, hstart', bind_ok.2 ⟨_, hloop', rfl⟩⟩, rfl, h₂⟩
    | ok response =>
      simp only [pure_ok, Prod.mk.injEq] at hput
      obtain ⟨rfl, rfl⟩ := hput
      exact ⟨_, _, bind_ok.2 ⟨_, hstart', bind_ok.2 ⟨_, hloop', rfl⟩⟩, rfl, h₂.logged _ _⟩

/-- An order in a reply is in the other reply too, but for its times. -/
def SameOrder (reply reply' : Except Status Response) : Prop :=
  ∀ o, reply = .ok (.orderInfo o) → ∃ o', reply' = .ok (.orderInfo o') ∧ o.Twin o'

theorem SameOrder.error (st : Status) (reply' : Except Status Response) :
    SameOrder (.error st) reply' :=
  fun _ ho => by simp at ho

theorem SameOrder.of_none {reply reply' : Except Status Response}
    (h : ∀ o, reply ≠ .ok (.orderInfo o)) : SameOrder reply reply' := fun o ho => absurd ho (h o)

theorem SameOrder.order {o o' : Order} (h : o.Twin o') :
    SameOrder (.ok (.orderInfo o)) (.ok (.orderInfo o')) := by
  intro p hp
  obtain rfl : o = p := by simpa using hp
  exact ⟨o', rfl, h⟩

/-- A batch replies with no order. -/
theorem batchOrderPut_reply {available : Bool} {req : BatchOrderPutRequest}
    {reply : Except Status Response}
    (h : c.batchOrderPut E now available real req u = .ok (reply, c')) (o : Order) :
    reply ≠ .ok (.orderInfo o) := by
  rintro rfl
  unfold Controller.batchOrderPut at h
  split at h
  · simp [pure_ok] at h
  split at h
  · simp [pure_ok] at h
  obtain ⟨⟨r, c₁⟩, -, h⟩ := bind_ok.1 h
  cases r with
  | error st => simp [pure_ok] at h
  | ok _ =>
    obtain ⟨⟨r, c₂⟩, -, h⟩ := bind_ok.1 h
    cases r with
    | error st => simp [pure_ok] at h
    | ok _ => simp [pure_ok] at h

theorem orderCancelAll_reply {available : Bool} {req : OrderCancelAllRequest}
    {reply : Except Status Response}
    (h : c.orderCancelAll E now available real req u = .ok (reply, c')) (o : Order) :
    reply ≠ .ok (.orderInfo o) := by
  rintro rfl
  rcases orderCancelAll_cases h with ⟨⟨st, hst⟩, -⟩ | ⟨_, _, _, -, -, hr, -⟩
  · simp at hst
  · simp at hr

theorem Controller.orderPut_twin {available : Bool} {req : OrderPutRequest}
    {reply : Except Status Response} (hQ : Q.OK now τ) (h : c.Twin Q r)
    (hput : c.orderPut E now available real req u = .ok (reply, c')) :
    ∃ reply' r', r.orderPut E τ available ρ req u = .ok (reply', r') ∧ SameKind reply reply' ∧
      SameOrder reply reply' ∧ c'.Twin Q r' := by
  unfold Controller.orderPut at hput ⊢
  split at hput
  · rename_i ha
    simp only [pure_ok, Prod.mk.injEq] at hput
    obtain ⟨rfl, rfl⟩ := hput
    exact ⟨_, r, by rw [if_pos ha]; rfl, rfl, .error _ _, h⟩
  rename_i ha
  rw [if_neg ha]
  obtain ⟨⟨res, c₁⟩, hone, hput⟩ := bind_ok.1 hput
  obtain ⟨res', r₁, hone', hres, h₁⟩ := Controller.putOrder_twin (ρ := ρ) hQ h hone
  cases hres with
  | error st =>
    simp only [pure_ok, Prod.mk.injEq] at hput
    obtain ⟨rfl, rfl⟩ := hput
    exact ⟨_, r₁, bind_ok.2 ⟨_, hone', rfl⟩, rfl, .error _ _, h₁⟩
  | ok hoo =>
    simp only [pure_ok, Prod.mk.injEq] at hput
    obtain ⟨rfl, rfl⟩ := hput
    exact ⟨_, _, bind_ok.2 ⟨_, hone', rfl⟩, rfl, .order hoo, h₁.logged _ _⟩

theorem Controller.orderCancel_twin {available : Bool} {req : OrderCancelRequest}
    {reply : Except Status Response} (h : c.Twin Q r)
    (hcall : c.orderCancel E now available real req u = .ok (reply, c')) :
    ∃ reply' r', r.orderCancel E τ available ρ req u = .ok (reply', r') ∧ SameKind reply reply' ∧
      SameOrder reply reply' ∧ c'.Twin Q r' := by
  unfold Controller.orderCancel at hcall ⊢
  split at hcall
  · rename_i ha
    simp only [pure_ok, Prod.mk.injEq] at hcall
    obtain ⟨rfl, rfl⟩ := hcall
    exact ⟨_, r, by rw [if_pos ha]; rfl, rfl, .error _ _, h⟩
  rename_i ha
  rw [if_neg ha]
  split at hcall
  case h_2 hm =>
    rw [h.none (Option.eq_none_iff_forall_ne_some.2 hm)]
    simp only [pure_ok, Prod.mk.injEq] at hcall
    obtain ⟨rfl, rfl⟩ := hcall
    exact ⟨_, r, rfl, rfl, .error _ _, h⟩
  rename_i m hm
  obtain ⟨m', hm', hmm⟩ := h.some hm
  have horders : m'.orders = m.orders := by
    obtain ⟨hp, price, n, he, -, -, -⟩ := hmm
    rw [he]
  simp only [hm', horders]
  split at hcall
  case h_2 =>
    simp only [pure_ok, Prod.mk.injEq] at hcall
    obtain ⟨rfl, rfl⟩ := hcall
    exact ⟨_, r, rfl, rfl, .error _ _, h⟩
  rename_i rc hrc
  have hread := hmm.read rc
  simp only [hread.user, hread.id] at hcall ⊢
  split at hcall
  · rename_i hu
    simp only [pure_ok, Prod.mk.injEq] at hcall
    obtain ⟨rfl, rfl⟩ := hcall
    exact ⟨_, r, by rw [if_pos hu]; rfl, rfl, .error _ _, h⟩
  rename_i hu
  rw [if_neg hu]
  obtain ⟨⟨o, m₁, x₁⟩, hc, hcall⟩ := bind_ok.1 hcall
  simp only [pure_ok, Prod.mk.injEq] at hcall
  obtain ⟨rfl, rfl⟩ := hcall
  obtain ⟨o', m₁', y₁, hc', -, hmm₁, hxx⟩ := cancel_twin hmm (h.ctx real ρ) hc
  exact ⟨_, _, bind_ok.2 ⟨_, hc', rfl⟩, rfl, .order hread, (h.withMarket hxx hmm₁ _).logged _ _⟩

theorem Controller.orderCancelAll_twin {available : Bool} {req : OrderCancelAllRequest}
    {reply : Except Status Response} (h : c.Twin Q r)
    (hcall : c.orderCancelAll E now available real req u = .ok (reply, c')) :
    ∃ reply' r', r.orderCancelAll E τ available ρ req u = .ok (reply', r') ∧ SameKind reply reply' ∧
      c'.Twin Q r' := by
  unfold Controller.orderCancelAll at hcall ⊢
  split at hcall
  · rename_i ha
    simp only [pure_ok, Prod.mk.injEq] at hcall
    obtain ⟨rfl, rfl⟩ := hcall
    exact ⟨_, r, by rw [if_pos ha]; rfl, rfl, h⟩
  rename_i ha
  rw [if_neg ha]
  split at hcall
  case h_2 hm =>
    rw [h.none (Option.eq_none_iff_forall_ne_some.2 hm)]
    simp only [pure_ok, Prod.mk.injEq] at hcall
    obtain ⟨rfl, rfl⟩ := hcall
    exact ⟨_, r, rfl, rfl, h⟩
  rename_i m hm
  obtain ⟨m', hm', hmm⟩ := h.some hm
  simp only [hm']
  obtain ⟨⟨n, c₁⟩, hc, hcall⟩ := bind_ok.1 hcall
  simp only [pure_ok, Prod.mk.injEq] at hcall
  obtain ⟨rfl, rfl⟩ := hcall
  obtain ⟨r₁, hc', h₁⟩ := Controller.cancelAllIn_twin (ρ := ρ) h hmm hc
  exact ⟨_, _, bind_ok.2 ⟨_, hc', rfl⟩, rfl, h₁.logged _ _⟩

/-- **Calls on orders run in step**, at any two moments, real or replayed. -/
theorem Controller.call_twin {q : Request} {reply : Except Status Response} (hQ : Q.OK q.now τ)
    (h : c.Twin Q r) (hq : ¬ q.operation.Updates) (hcall : c.call E q = .ok (reply, c')) :
    ∃ reply' r', r.call E { q with now := τ, real := ρ } = .ok (reply', r') ∧
      SameKind reply reply' ∧
      SameOrder reply reply' ∧ c'.Twin Q r' := by
  obtain ⟨now₀, available, real₀, user, op⟩ := q
  cases op with
  | balanceUpdate req => exact absurd trivial hq
  | orderPut req => exact Controller.orderPut_twin hQ h hcall
  | batchOrderPut req =>
    obtain ⟨reply', r', hcall', hkind, htwin⟩ := Controller.batchOrderPut_twin (ρ := ρ) hQ h hcall
    exact ⟨reply', r', hcall', hkind, .of_none (batchOrderPut_reply hcall), htwin⟩
  | orderCancel req => exact Controller.orderCancel_twin h hcall
  | orderCancelAll req =>
    obtain ⟨reply', r', hcall', hkind, htwin⟩ :=
      Controller.orderCancelAll_twin (τ := τ) (ρ := ρ) h hcall
    exact ⟨reply', r', hcall', hkind, .of_none (orderCancelAll_reply hcall), htwin⟩

/-! ## Balance updates -/

/-- A price that is found on one side is found on the other. -/
theorem Controller.Twin.marketPrice (h : c.Twin Q r) {asset : String} {price : Decimal}
    (hprice : c.marketPrice asset = .ok price) : ∃ price', r.marketPrice asset = .ok price' := by
  unfold Controller.marketPrice at hprice ⊢
  rw [h.names]
  split at hprice
  · simp only [bind_ok, unwrap_ok, pure_ok] at hprice
    obtain ⟨m, hm, -⟩ := hprice
    obtain ⟨m', hm', -⟩ := h.some hm
    exact ⟨m'.price, by rw [hm']; rfl⟩
  · exact ⟨0, rfl⟩

/-- The keys a balance update request can put into the filter. -/
def UpdateKey (E : Env) (am : AssetManager) (req : BalanceUpdateRequest) (user : Uuid)
    (k : BalanceUpdateKey) : Prop :=
  ∃ prec price change detail, am.assetPrecShow req.asset = .ok prec ∧
    Controller.parseUpdate E prec req = .ok (change, detail) ∧
    k = (Controller.updateParams req user price change detail).key

/-- A request has one key. -/
theorem UpdateKey.unique {am : AssetManager} {req : BalanceUpdateRequest} {k k' : BalanceUpdateKey}
    (h : UpdateKey E am req u k) (h' : UpdateKey E am req u k') : k = k' := by
  obtain ⟨prec, price, change, detail, hprec, hparse, rfl⟩ := h
  obtain ⟨prec', price', change', detail', hprec', hparse', rfl⟩ := h'
  obtain rfl := Except.ok.inj (hprec.symm.trans hprec')
  obtain ⟨rfl, rfl⟩ := Prod.mk.inj (Except.ok.inj (hparse.symm.trans hparse'))
  rfl

theorem UpdateKey.not_trade {am : AssetManager} {req : BalanceUpdateRequest} {k : BalanceUpdateKey}
    (h : UpdateKey E am req u k) : k.businessType ≠ .trade := by
  obtain ⟨prec, price, change, detail, -, -, rfl⟩ := h
  simp only [BalanceUpdateParams.key, Controller.updateParams]
  split <;> simp

/-- **A balance update that is applied can be replayed**, where its key is not known. -/
theorem Controller.updateBalance_twin {available : Bool} {req : BalanceUpdateRequest}
    {response : Response} (hQ : Q.OK now τ) (h : c.Twin Q r)
    (hcall : c.updateBalance E now available real req u = .ok (.ok response, c'))
    (hfresh : ∀ k, UpdateKey E c.balanceManager.assetManager req u k →
      r.updateController.cache.containsKey τ k = false ∧ Q.known k) :
    ∃ r', r.updateBalance E τ true false req u = .ok (.ok response, r') ∧ c'.Twin Q r' := by
  rcases Controller.updateBalance_cases hcall with ⟨⟨st, hst⟩, -⟩ |
    ⟨hreply, prec, price, change, detail, x', hprec, hparse, hprice,
    happ, rfl⟩
  · simp at hst
  obtain rfl := Except.ok.inj hreply
  obtain ⟨price', hprice'⟩ := h.marketPrice hprice
  set p := Controller.updateParams req u price' change detail with hp
  obtain ⟨hnew, hK⟩ := hfresh p.key ⟨prec, price', change, detail, hprec, hparse, rfl⟩
  have hexist : r.balanceManager.assetManager.assetExist req.asset = true := by
    rw [h.balances.assetExist]
    simp only [AssetManager.assetPrecShow, bind_ok, unwrap_ok] at hprec
    obtain ⟨info, hinfo, -⟩ := hprec
    unfold AssetManager.assetExist
    rw [show c.balanceManager.assetManager.assets.find? req.asset = some info from hinfo]
    rfl
  have hkey : (r.ctx false).updateController.cache.containsKey τ p.key = false := hnew
  -- the change does not read the price
  obtain ⟨bm, hchange, hbm⟩ : ∃ bm, applyChange E r.balanceManager p = .ok (.ok bm) ∧
      x'.balanceManager.Twin bm :=
    h.balances.applyChange happ.change
  set y : Ctx := { r.ctx false with
    balanceManager := bm
    updateController := ⟨r.updateController.cache.insert τ p.key filterTtl⟩ } with hy
  have hupdate : updateUserBalance E τ (r.ctx false) p = .ok (.ok (), y) := by
    unfold updateUserBalance
    rw [if_neg (by rw [hkey]; simp)]
    exact bind_ok.2 ⟨.ok bm, hchange, rfl⟩
  refine ⟨(r.withCtx y).logged τ false (.balanceUpdate req) u, ?_, ?_⟩
  · unfold Controller.updateBalance
    rw [if_neg (by simp), hexist, if_neg (by simp)]
    refine bind_ok.2 ⟨prec, (h.balances.assetPrecShow _).trans hprec, ?_⟩
    rw [hparse]
    exact bind_ok.2 ⟨price', hprice', bind_ok.2 ⟨_, hupdate, rfl⟩⟩
  · have hxy : x'.Twin Q y := by
      have hins : TtlCache.Inserted (· = p.key) r.updateController.cache 1
          y.updateController.cache := .insert .refl rfl
      refine ⟨hbm, ?_, ?_, ?_, ⟨fun a ha hk => ?_, fun a ha hk => ?_⟩, ?_⟩
      · exact h.orderId.trans (congrArg Sequencer.orderId happ.sequencer).symm
      · exact h.tradeId.trans (congrArg Sequencer.tradeId happ.sequencer).symm
      · rw [happ.cache]; exact h.capacity
      · rcases hins.mem ha with ha | ha
        · exact h.filtered.trade a ha hk
        · rw [ha] at hk
          exact absurd hk (UpdateKey.not_trade ⟨prec, price', change, detail, hprec, hparse, rfl⟩)
      · rcases hins.mem ha with ha | ha
        · exact h.filtered.other a ha hk
        · rw [ha]; exact hK
      · rw [happ.cache]
        exact hQ.inserted _ _ _ h.filters
    exact (h.withCtx hxy).logged _ _

end Dingir
