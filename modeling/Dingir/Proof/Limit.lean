import Dingir.Proof.Atomic
import Dingir.Proof.Book

/-!
# The limit on the open orders of a user

`put_order` adds up what a user has open on all markets and refuses the order
when the sum is equal to the limit. A put opens at most one order of its user
and none of another, so from a state within the limit the sum does not pass it.
A restart under a smaller limit can begin above it, and there the sum is never
equal to the limit.

* **`Relimited.keepsLimit_iff`**: a put keeps to the limit except where the user is
  above it already and the market would accept the order, or the build asserts.
* **`Relimited.not_keepsLimit`**: with two open orders under a limit of one, a third
  is accepted.
-/

namespace Dingir

open Keyed Outcome Paging Market

variable {E : Env} {settings : Settings} {limit : ℕ} {now : Timestamp} {real : Bool} {u v : Uuid}
  {m m' : Market} {c c' c₁ b : Controller} {q : Request} {req : OrderPutRequest}

/-- **A put keeps to the limit**: it is refused where the user has no room, and no user is brought
above it. -/
structure Controller.KeepsLimit (E : Env) (now : Timestamp) (real : Bool) (c : Controller)
    (req : OrderPutRequest) (u : Uuid) : Prop where
  refused : c.settings.userOrderNumLimit ≤ c.totalOrderNum u →
    ∃ status c', c.putOrder E now real req u = .ok (.error status, c') ∧ Untouched c c'
  bounded : ∀ reply c', c.putOrder E now real req u = .ok (reply, c') → ∀ v,
    c'.totalOrderNum v ≤ max c.settings.userOrderNumLimit (c.totalOrderNum v)

/-- What the check overlooks: the user is above the limit, and nothing else refuses the order. -/
def Controller.Overlooked (E : Env) (c : Controller) (req : OrderPutRequest) (u : Uuid) : Prop :=
  c.settings.userOrderNumLimit < c.totalOrderNum u ∧ ∃ m, c.markets.find? req.market = some m ∧
    (E.debugAssertions = true ∨
      ∃ input, OrderInput.tryFrom E req = .ok input ∧
        m.checkInput E c.balanceManager input u = .ok ())

/-! ## Lives under different limits -/

theorem createController_limit (l : ℕ) (h : createController (settings.limited limit) = .ok c) :
    createController (settings.limited l) = .ok { c with settings := settings.limited l } := by
  unfold createController at h ⊢
  simp only [bind_ok, pure_ok] at h ⊢
  obtain ⟨bm, hbm, s, hs, rfl⟩ := h
  exact ⟨bm, hbm, s, hs, rfl⟩

/-- The invariant does not read the limit. -/
theorem ControllerOK.limited (h : ControllerOK b c) (s : Settings) :
    ControllerOK { b with settings := s } { c with settings := s } :=
  ⟨rfl, h.names, h.assets, h.gridded, h.capacity, h.desk, h.terms, h.kept, h.disjoint, h.pos⟩

/-- **A controller is well formed whatever limits it had before.** -/
theorem Relimited.ok (h : Relimited E settings limit c) :
    ∃ b, createController (settings.limited limit) = .ok b ∧ ControllerOK b c := by
  induction h with
  | init hb => exact ⟨_, hb, (createController_ok hb).1⟩
  | call _ hcall ih =>
    obtain ⟨b, hb, hc⟩ := ih
    exact ⟨b, hb, call_ok hc hcall⟩
  | reset _ ih =>
    obtain ⟨b, hb, hc⟩ := ih
    exact ⟨b, hb, (resetState_ok hc).1⟩
  | @restart l l' c d b' c' slice now log _ _ hstart hslice hrun ihc ihd =>
    obtain ⟨b₁, hb₁, hc⟩ := ihc
    obtain ⟨b, hb, hd⟩ := ihd
    obtain rfl : b = { b₁ with settings := settings.limited l } :=
      Except.ok.inj (hb.symm.trans (createController_limit l hb₁))
    obtain ⟨hok, hblank⟩ := hstart.blank hb hd
    -- what is dumped is the same under the new limit
    exact ⟨_, hb, restart_ok (hc.limited (settings.limited l)) hok hblank hslice hrun⟩

/-- An order is put in a well-formed state. -/
theorem Controller.BatchPuts.ok {name : String} {orders : List OrderPutRequest}
    (h : Controller.BatchPuts E now real name u orders c c₁ req)
    (hc : ControllerOK b c) : ControllerOK b c₁ := by
  induction h with
  | here _ => exact hc
  | next _ hput _ ih => exact ih (Moves.ok (putOrder_moves (w := True) hc admits_any hput) hc)

theorem Controller.Puts.ok (h : c.Puts E q c₁ req) (hc : ControllerOK b c) : ControllerOK b c₁ := by
  cases h with
  | order _ _ => exact hc
  | batch _ _ _ hstart hputs =>
    have hmoves : Moves E q.now q.real q.user True AnyOrder c _ := batchStart_moves hc hstart
    exact hputs.ok (hmoves.ok hc)

/-! ## Counting open orders -/

theorem mem_userOrders (hm : m.IndexOK) (id : ℕ) :
    id ∈ (m.userOrders u).keys ↔ ∃ o, m.resting id = some o ∧ o.user = u := by
  rw [Std.TreeMap.mem_keys, Std.TreeMap.mem_iff_isSome_getElem?, Option.isSome_iff_exists]
  constructor
  · rintro ⟨rc, hrc⟩
    obtain ⟨ho, hu⟩ := (hm.users u id rc).1 hrc
    exact ⟨_, resting_some.2 ⟨rc, ho, rfl⟩, hu⟩
  · rintro ⟨o, ho, hu⟩
    obtain ⟨rc, hrc, rfl⟩ := resting_some.1 ho
    exact ⟨rc, (hm.users u id rc).2 ⟨hrc, hu⟩⟩

theorem getOrderNumOfUser_eq (m : Market) (u : Uuid) :
    m.getOrderNumOfUser u = (m.userOrders u).keys.length := by
  rw [Std.TreeMap.length_keys, ← Std.TreeMap.length_toList]
  rfl

/-- **A put opens at most one order**, of its user. -/
theorem Put.getOrderNumOfUser_le {x x' : Ctx} {o : Order} (h : Put m x u o m' x') (hm : m.IndexOK)
    (hm' : m'.IndexOK) (v : Uuid) :
    m'.getOrderNumOfUser v ≤ m.getOrderNumOfUser v + if v = u then 1 else 0 := by
  have hnodup : (m'.userOrders v).keys.Nodup := Std.TreeMap.nodup_keys
  rw [getOrderNumOfUser_eq, getOrderNumOfUser_eq]
  have hsub : ∀ id ∈ (m'.userOrders v).keys, id ∈ (m.userOrders v).keys ∨ (id = o.id ∧ v = u) := by
    intro id hid
    obtain ⟨p, hp, rfl⟩ := (mem_userOrders hm' id).1 hid
    rcases h.resting id p hp with ⟨p₀, hp₀, huser⟩ | ⟨hnew, huser⟩
    · exact .inl ((mem_userOrders hm id).2 ⟨p₀, hp₀, huser⟩)
    · exact .inr ⟨hnew, huser⟩
  split
  · have hcons : (m'.userOrders v).keys ⊆ o.id :: (m.userOrders v).keys := by
      intro id hid
      rcases hsub id hid with hold | ⟨rfl, -⟩
      · exact List.mem_cons_of_mem _ hold
      · exact List.mem_cons_self
    simpa using (List.subperm_of_subset hnodup hcons).length_le
  · rename_i hvu
    have hold : (m'.userOrders v).keys ⊆ (m.userOrders v).keys := fun id hid =>
      (hsub id hid).resolve_right fun hnew => hvu hnew.2
    simpa using (List.subperm_of_subset hnodup hold).length_le

/-- Writing one market back changes the sum by what changed there. -/
theorem Controller.totalOrderNum_withMarket {name : String} {x : Ctx}
    (hm : c.markets.find? name = some m) :
    (c.withMarket name m' x).totalOrderNum v + m.getOrderNumOfUser v = c.totalOrderNum v +
      m'.getOrderNumOfUser v := by
  show hashTally _ (c.markets.insert name m') + _ = hashTally _ c.markets + _
  rw [hashTally_insert, hashTally_erase hm]
  ring

theorem Untouched.totalOrderNum (h : Untouched c c') (v : Uuid) :
    c'.totalOrderNum v = c.totalOrderNum v :=
  (hashTally_eq_of_map fun name => by rw [h.markets name]).symm

theorem putOrder_totalOrderNum {order : Order} (hc : ControllerOK b c)
    (h : c.putOrder E now real req u = .ok (.ok order, c')) (v : Uuid) :
    c'.totalOrderNum v ≤ c.totalOrderNum v + if v = u then 1 else 0 := by
  have hc' : ControllerOK b c' := Moves.ok (putOrder_moves (w := True) hc admits_any h) hc
  rcases Controller.putOrder_cases h with ⟨⟨st, hst⟩, -⟩ |
    ⟨o, m, input, m', x', -, hm, -, hput, rfl⟩
  · cases hst
  · have hd := (hc.desk _ m hm).2 real
    have hm' : (c.withMarket req.market m' x').markets.find? req.market = some m' :=
      find?_insert_self _ _ _
    have hle := (putOrder_put hd hput).getOrderNumOfUser_le hd.index
      ((hc'.desk _ m' hm').2 real).index v
    have hsum : (c.withMarket req.market m' x').totalOrderNum v + m.getOrderNumOfUser v =
        c.totalOrderNum v + m'.getOrderNumOfUser v := c.totalOrderNum_withMarket hm
    omega

/-! ## The check -/

theorem debugAssert_holds {e : Panic} {P : Prop} [Decidable P] {r : Unit}
    (hE : E.debugAssertions = true) (h : E.debugAssert e P = .ok r) : P := by
  by_contra hP
  simp [Env.debugAssert, hE, hP] at h

/-- A put that the check lets pass is one below the limit, or one it overlooks. -/
theorem putOrder_room {order : Order} (h : c.putOrder E now real req u = .ok (.ok order, c')) :
    c.totalOrderNum u < c.settings.userOrderNumLimit ∨ c.Overlooked E req u := by
  rcases Controller.putOrder_cases h with ⟨⟨st, hst⟩, -⟩ |
    ⟨o, m, input, m', x', -, hm, hinput, hput, -⟩
  · cases hst
  unfold Controller.putOrder at h
  simp only [hm] at h
  obtain ⟨-, -, h⟩ := bind_ok.1 h
  split at h
  · simp [pure_ok] at h
  rename_i hne
  have hcheck := putOrder_input hput
  rw [show (c.ctx real).balanceManager = c.balanceManager from rfl] at hcheck
  rcases lt_or_gt_of_ne hne with hlt | hgt
  · exact .inl hlt
  · exact .inr ⟨hgt, m, hm, .inr ⟨input, hinput, hcheck⟩⟩

/-- A put without room is refused, unless it is overlooked. -/
theorem putOrder_noRoom (hfull : c.settings.userOrderNumLimit ≤ c.totalOrderNum u)
    (hno : ¬ c.Overlooked E req u) :
    ∃ status c', c.putOrder E now real req u = .ok (.error status, c') := by
  unfold Controller.putOrder
  cases hm : c.markets.find? req.market with
  | none => exact ⟨_, _, rfl⟩
  | some m =>
    rcases hfull.eq_or_lt with heq | hlt
    · have hassert :
          E.debugAssert .debugAssert (c.totalOrderNum u ≤ c.settings.userOrderNumLimit) = .ok () :=
        Env.debugAssert_of heq.ge
      simp only [hassert, if_pos heq.symm]
      exact ⟨_, _, rfl⟩
    · have hrelease : E.debugAssertions = false := by
        by_contra hdebug
        exact hno ⟨hlt, m, hm, .inl (by simpa using hdebug)⟩
      simp only [Env.debugAssert_release hrelease, if_neg hlt.ne']
      cases hinput : OrderInput.tryFrom E req with
      | error e => exact ⟨_, _, rfl⟩
      | ok input =>
        cases hcheck : m.checkInput E c.balanceManager input u with
        | error e =>
          have hput : m.putOrder E now (c.ctx real) input u = .ok (.error e, m, c.ctx real) := by
            unfold Market.putOrder
            rw [show (c.ctx real).balanceManager = c.balanceManager from rfl, hcheck]
            rfl
          simp only [hput]
          exact ⟨_, _, rfl⟩
        | ok _ => exact absurd ⟨hlt, m, hm, .inr ⟨input, hinput, hcheck⟩⟩ hno

/-- What is overlooked is not refused. -/
theorem Controller.Overlooked.not_refused (h : c.Overlooked E req u) {status : Status} :
    c.putOrder E now real req u ≠ .ok (.error status, c') := by
  obtain ⟨hlt, m, hm, hwhy⟩ := h
  intro hput
  unfold Controller.putOrder at hput
  simp only [hm] at hput
  obtain ⟨_, hassert, hput⟩ := bind_ok.1 hput
  rcases hwhy with hdebug | ⟨input, hinput, hcheck⟩
  · have hle := debugAssert_holds hdebug hassert
    omega
  · rw [if_neg hlt.ne', hinput] at hput
    obtain ⟨⟨r, m', x'⟩, hmput, hput⟩ := bind_ok.1 hput
    unfold Market.putOrder at hmput
    rw [show (c.ctx real).balanceManager = c.balanceManager from rfl, hcheck] at hmput
    simp only [bind_ok, pure_ok, Prod.mk.injEq] at hmput
    obtain ⟨_, -, _, -, rfl, -⟩ := hmput
    simp [pure_ok] at hput

theorem ControllerOK.keeps_iff (hc : ControllerOK b c) :
    c.KeepsLimit E now real req u ↔ ¬ c.Overlooked E req u := by
  constructor
  · intro hkeeps hover
    obtain ⟨status, c', hput, -⟩ := hkeeps.refused hover.1.le
    exact hover.not_refused hput
  · refine fun hno => ⟨fun hfull => ?_, fun reply c' hput v => ?_⟩
    · obtain ⟨status, c', hput⟩ := putOrder_noRoom hfull hno
      exact ⟨status, c', hput, putOrder_refused hput⟩
    · cases reply with
      | error status => exact (putOrder_refused hput).totalOrderNum v ▸ le_max_right _ _
      | ok order =>
        have hroom := (putOrder_room hput).resolve_right hno
        have hle := putOrder_totalOrderNum hc hput v
        split at hle
        · subst_vars
          exact le_max_of_le_left (by omega)
        · exact le_max_of_le_right (by omega)

/-- **Every put keeps to the limit, alone or in a batch, unless the check overlooks it.** -/
theorem Relimited.keepsLimit_iff (h : Relimited E settings limit c) (q : Request) :
    ∀ c₁ req, c.Puts E q c₁ req →
      (c₁.KeepsLimit E q.now q.real req q.user ↔ ¬ c₁.Overlooked E req q.user) := by
  intro c₁ req hputs
  obtain ⟨b, -, hc⟩ := h.ok
  exact (hputs.ok hc).keeps_iff

/-! ## A restart under a smaller limit -/

/-- Alice has two open orders. -/
def sampleTwoBids : List Request :=
  [requestAt 0 alice (depositOf "USDT" 1 "1000"),
    requestAt 1 alice (.orderPut (limitOrder .bid "1" "100")),
    requestAt 1 alice (.orderPut (limitOrder .bid "1" "101"))]

/-- What a dump holds, loaded row by row: a restart without a log. -/
def Controller.loadRows (E : Env) (b : Controller) (slice : Slice) : Except Panic Controller := do
  let balanceManager ← slice.balances.foldlM (loadBalance E) b.balanceManager
  let markets ← slice.orders.foldlM (loadOrder E) b.markets
  return { b with
    balanceManager
    markets
    sequencer := ((b.sequencer.setOrderId slice.history.endOrderId).setTradeId
      slice.history.endTradeId).setOperationLogId slice.history.endOperationLogId }

/-- Rows in order are loaded in that order. -/
theorem Controller.loadRows_ok {slice : Slice}
    (hb : (slice.balances.map BalanceSlice.id).Pairwise (· < ·))
    (hb₀ : ∀ id ∈ slice.balances.map BalanceSlice.id, 0 < id)
    (ho : (slice.orders.map OrderSlice.id).Pairwise (· < ·))
    (ho₀ : ∀ id ∈ slice.orders.map OrderSlice.id, 0 < id) (h : b.loadRows E slice = .ok c) :
    b.initFromDb E now (some slice) [] = .ok c := by
  have hbalances :
      (pages BalanceSlice.id QUERY_LIMIT false slice.balances 0).flatten = slice.balances :=
    flatten_pages_of_sorted _ (by decide) _ (List.pairwise_map.1 hb) fun r hr =>
      hb₀ _ (List.mem_map.2 ⟨r, hr, rfl⟩)
  have horders : (pages OrderSlice.id QUERY_LIMIT false slice.orders 0).flatten = slice.orders :=
    flatten_pages_of_sorted _ (by decide) _ (List.pairwise_map.1 ho) fun r hr =>
      ho₀ _ (List.mem_map.2 ⟨r, hr, rfl⟩)
  have hlog : pages OperationLog.id QUERY_LIMIT true [] slice.history.endOperationLogId = [] :=
    pages_none _ (by simp)
  simp only [Controller.loadRows, bind_ok, pure_ok] at h
  obtain ⟨bm, hbm, markets, hmarkets, rfl⟩ := h
  simp only [Controller.initFromDb, Controller.loadSlice, Controller.loadOperationLog, bind_ok,
    pure_ok, hbalances, horders, hlog]
  exact ⟨_, ⟨bm, hbm, markets, hmarkets, rfl⟩, _, rfl, rfl⟩

/-- The two orders are loaded by a controller with another limit. -/
def sampleRelimited (limit : ℕ) : Except Panic Controller := do
  let c ← sampleRun releaseEnv sampleTwoBids
  let b ← createController (sampleSettings.limited limit)
  b.loadRows releaseEnv c.dump

theorem relimited_calls {qs : List Request} {replies : List (Except Status Response)}
    (h : Relimited E settings limit c) (hcalls : c.calls E qs = .ok (replies, c')) :
    Relimited E settings limit c' :=
  Controller.calls_rule (fun _ _ _ _ h _ hcall => h.call hcall) h
    (Controller.along_of (fun _ _ => trivial) c) hcalls

theorem sampleRelimited_ok (h : sampleRelimited limit = .ok c) :
    Relimited releaseEnv sampleSettings limit c := by
  simp only [sampleRelimited, bind_ok] at h
  obtain ⟨c₀, hrun, b, hb, hload⟩ := h
  obtain ⟨c₁, replies, hc₁, hcalls⟩ := sampleRun_ok hrun
  have hfrom : Relimited releaseEnv sampleSettings 1000 c₀ := relimited_calls (.init hc₁) hcalls
  have hids : (sampleRun releaseEnv sampleTwoBids >>= fun c =>
      pure (c.dump.balances.map BalanceSlice.id, c.dump.orders.map OrderSlice.id)) =
      (.ok ([1, 2], [1, 2]) : Except Panic (List ℕ × List ℕ)) := by decide +kernel
  simp only [bind_ok, pure_ok, Prod.mk.injEq] at hids
  obtain ⟨c', hrun', hbalances, horders⟩ := hids
  obtain rfl : c₀ = c' := Except.ok.inj (hrun.symm.trans hrun')
  have hinit : b.initFromDb releaseEnv 0 (some c₀.dump) [] = .ok c :=
    Controller.loadRows_ok (by rw [hbalances]; decide) (by rw [hbalances]; decide)
      (by rw [horders]; decide) (by rw [horders]; decide) hload
  exact .restart hfrom (.init hb) (.inl hb) (.inr rfl) hinit

/-- Under a limit of two, which the two orders fill, a third is refused. -/
theorem Relimited.keepsLimit_full :
    ∃ c : Controller, Relimited releaseEnv sampleSettings 2 c ∧ c.totalOrderNum alice = 2 ∧
    c.KeepsLimit releaseEnv 3 true (limitOrder .bid "1" "102") alice := by
  have h : (sampleRelimited 2 >>=
      fun c => pure (c.totalOrderNum alice, c.settings.userOrderNumLimit)) =
      (.ok (2, 2) : Except Panic (ℕ × ℕ)) := by decide +kernel
  simp only [bind_ok, pure_ok, Prod.mk.injEq] at h
  obtain ⟨c, hc, hnum, hlimit⟩ := h
  have hreach := sampleRelimited_ok hc
  have hputs : c.Puts releaseEnv (requestAt 3 alice (.orderPut (limitOrder .bid "1" "102"))) c
      (limitOrder .bid "1" "102") :=
    .order rfl rfl
  refine ⟨c, hreach, hnum, (hreach.keepsLimit_iff _ _ _ hputs).2 fun hover => ?_⟩
  have habove : c.settings.userOrderNumLimit < c.totalOrderNum alice := hover.1
  omega

/-- **Under a limit of one a third order is accepted** beside two open ones. -/
theorem Relimited.not_keepsLimit : ∃ (c : Controller) (q : Request) (req : OrderPutRequest),
    Relimited releaseEnv sampleSettings 1 c ∧ c.Puts releaseEnv q c req ∧
    c.settings.userOrderNumLimit = 1 ∧
    c.totalOrderNum q.user = 2 ∧
    (∃ order c', c.putOrder releaseEnv q.now q.real req q.user = .ok (.ok order, c') ∧
      c'.totalOrderNum q.user = 3) ∧ ¬c.KeepsLimit releaseEnv q.now q.real req q.user := by
  have h : (sampleRelimited 1 >>= fun c =>
      c.putOrder releaseEnv 3 true (limitOrder .bid "1" "102") alice >>= fun r =>
      unwrap .replay r.1.toOption >>= fun _ =>
      pure (c.settings.userOrderNumLimit, c.totalOrderNum alice, r.2.totalOrderNum alice)) =
      (.ok (1, 2, 3) : Except Panic (ℕ × ℕ × ℕ)) := by decide +kernel
  simp only [bind_ok, pure_ok, unwrap_ok, toOption_some, Prod.mk.injEq] at h
  obtain ⟨c, hc, ⟨-, c'⟩, hput, order, rfl, hlimit, hnum, hnum'⟩ := h
  refine ⟨c, requestAt 3 alice (.orderPut (limitOrder .bid "1" "102")), _, sampleRelimited_ok hc,
    .order rfl rfl, hlimit, hnum,
    ⟨order, c', hput, hnum'⟩, fun hkeeps => ?_⟩
  obtain ⟨status, c₁, hrefused, -⟩ := hkeeps.refused (by rw [hlimit]; exact hnum ▸ (by decide))
  cases hput.symm.trans hrefused

end Dingir
