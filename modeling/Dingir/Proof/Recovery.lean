import Dingir.Proof.Atomic
import Dingir.Proof.Replay

/-!
# Recovery from the operation log

Replaying the log of a run into a fresh controller rebuilds the state of the
run, step by step in front of the log: **`Recovers.call`**. Two kinds of request
break this. A batch that fails after it took effect is not in the log, and a
balance update that the live filter has forgotten is in the log twice, where the
filter of the replay, with no time between, still knows it (`Replayable`).
-/

namespace Dingir

open Keyed Outcome Market Paging

/-- An identity that a log of balance updates holds. -/
def KnownKey (E : Env) (am : AssetManager) (log : List OperationLog)
    (k : BalanceUpdateKey) : Prop :=
  ∃ l ∈ log, ∃ req, l.operation = .balanceUpdate req ∧ UpdateKey E am req l.userId k

/-- A request a replay can follow: a failure of it leaves no trace, and a balance
update applied before is still known to the filter. -/
def Controller.Replayable (E : Env) (c : Controller) (q : Request) : Prop :=
  ¬ c.Spills E q ∧ ∀ req, q.operation = .balanceUpdate req → ∀ k,
    UpdateKey E c.balanceManager.assetManager req q.user k →
    KnownKey E c.balanceManager.assetManager c.logHandler k →
    c.updateController.cache.containsKey q.now k = true

/-- The same balances, the same resting orders but for their times, the same counters. -/
structure SameEngine (c r : Controller) : Prop where
  balances : ∀ k, r.balanceManager.getByKey k = c.balanceManager.getByKey k
  orders : ∀ name,
    Option.Rel (fun m m' : Market => ∀ id, Option.Rel Order.Twin (m.resting id) (m'.resting id))
    (c.markets.find? name) (r.markets.find? name)
  orderId : r.sequencer.orderId = c.sequencer.orderId
  tradeId : r.sequencer.tradeId = c.sequencer.tradeId

variable {E : Env} {settings : Settings} {K K' : BalanceUpdateKey → Prop} {now : Timestamp}
  {u : Uuid} {c c' r c₀ b : Controller}

theorem Filtered.mono {x : Ctx} (h : Filtered K x) (hK : ∀ k, K k → K' k) : Filtered K' x :=
  ⟨h.trade, fun a ha hk => hK _ (h.other a ha hk)⟩

theorem Controller.Twin.mono {Q : Pairing} (h : c.Twin Q r) (hK : ∀ k, Q.known k → K' k) :
    c.Twin { Q with known := K' } r :=
  ⟨h.limit, h.names, h.balances, h.orderId, h.tradeId, h.capacity, h.filtered.mono hK, h.filters,
    h.markets⟩

theorem Controller.Twin.untouched {Q : Pairing} (h : c.Twin Q r) (hu : Untouched c c') :
    c'.Twin Q r := by
  refine ⟨?_, fun pair => ?_, hu.balances ▸ h.balances, ?_, ?_, ?_, h.filtered, ?_,
    fun name => hu.markets name ▸ h.markets name⟩
  · rw [hu.settings]; exact h.limit
  · rw [hu.names]; exact h.names pair
  · rw [hu.sequencer]; exact h.orderId
  · rw [hu.sequencer]; exact h.tradeId
  · rw [hu.filter]; exact h.capacity
  · rw [hu.filter]; exact h.filters

theorem Controller.Twin.sameEngine {Q : Pairing} (h : c.Twin Q r) : SameEngine c r := by
  refine ⟨h.balances.getByKey, fun name => ?_, h.orderId, h.tradeId⟩
  have hrel := h.markets name
  generalize c.markets.find? name = o at hrel ⊢
  generalize r.markets.find? name = o' at hrel ⊢
  cases hrel with
  | none => exact .none
  | some hm => exact .some hm.resting

/-- The log of `c`, replayed into `c₀`, gives a twin of `c`. -/
structure Recovers (E : Env) (now : Timestamp) (c₀ c : Controller) : Prop where
  ok : ControllerOK c₀ c
  ids : c.logHandler.map OperationLog.id = List.range' 1 c.sequencer.operationLogId
  replays : ∃ r, c.logHandler.foldlM (Controller.replay E now) c₀ = .ok r ∧
    c.Twin (.exact <| KnownKey E c₀.balanceManager.assetManager c.logHandler) r

/-- A fresh controller recovers from its empty log. -/
theorem Recovers.start (h : createController settings = .ok c) : Recovers E now c c := by
  obtain ⟨hok, -, -⟩ := createController_ok h
  have hbegun := createController_begun h
  refine ⟨hok, by rw [hbegun.log, hbegun.sequencer]; rfl, c, by rw [hbegun.log]; rfl, ?_⟩
  have hno : ∀ a, a ∉ c.updateController.cache.entries := fun a ha => by
    simp [hbegun.filter, BalanceUpdateController.new, TtlCache.new] at ha
  exact .refl (by rw [hok.capacity]; decide) ⟨fun a ha => absurd ha (hno a),
    fun a ha => absurd ha (hno a)⟩

/-- A call that gets a response was let through. -/
theorem call_available {q : Request} {response : Response}
    (h : c.call E q = .ok (.ok response, c')) : q.available = true := by
  by_contra ha
  obtain ⟨now, available, real, user, op⟩ := q
  have ha : available = false := by simpa using ha
  subst ha
  cases op <;> simp [Controller.call, Controller.updateBalance, Controller.orderPut,
    Controller.batchOrderPut,
    Controller.orderCancel, Controller.orderCancelAll, pure, Except.pure] at h

/-- A real call that gets a response is logged. -/
theorem call_logged {q : Request} {response : Response} (hc : ControllerOK b c)
    (hreal : q.real = true) (h : c.call E q = .ok (.ok response, c')) :
    c'.sequencer.operationLogId = c.sequencer.operationLogId + 1 ∧ c'.logHandler = c.logHandler ++
      [{ id := c.sequencer.operationLogId + 1, userId := q.user, time := q.now,
         operation := q.operation }] := by
  obtain ⟨c₁, hmoves, hends⟩ := call_moves hc h
  obtain ⟨hlog, hid⟩ := hmoves.log
  cases hends with
  | logged _ _ =>
    simp only [Controller.logged, hreal, if_true, Controller.appendOperationLog,
      Sequencer.nextOperationLogId, hlog, hid]
    exact ⟨trivial, trivial⟩

/-- An applied balance update is in front of the filter of a replay as well. -/
theorem replayed_fresh {q : Request} {req : BalanceUpdateRequest} {response : Response}
    (hok : ControllerOK c₀ c)
    (htwin : c.Twin (.exact <| KnownKey E c₀.balanceManager.assetManager c.logHandler) r)
    (hsafe : c.Replayable E q) (hq : q.operation = .balanceUpdate req)
    (h : c.updateBalance E q.now q.available q.real req q.user = .ok (.ok response, c'))
    {k : BalanceUpdateKey} (hk : UpdateKey E c.balanceManager.assetManager req q.user k) :
    ∀ a ∈ r.updateController.cache.entries, a.1 ≠ k := by
  rcases Controller.updateBalance_cases h with ⟨⟨st, hst⟩, -⟩ |
    ⟨-, prec, price, change, detail, x', hprec, hparse, -, happ, -⟩
  · simp at hst
  rintro a ha rfl
  have hknown := htwin.filtered.other a ha hk.not_trade
  rw [← hok.assets] at hknown
  have hheld := hsafe.2 req hq a.1 hk hknown
  have hfresh := happ.fresh
  rw [← hk.unique ⟨prec, price, change, detail, hprec, hparse, rfl⟩] at hfresh
  exact Bool.noConfusion (hheld.symm.trans hfresh)

/-- **A replayable call keeps the log in step with the engine.** -/
theorem Recovers.call {q : Request} {reply : Except Status Response} (h : Recovers E now c₀ c)
    (hreal : q.real = true) (hsafe : c.Replayable E q)
    (hcall : c.call E q = .ok (reply, c')) : Recovers E now c₀ c' := by
  obtain ⟨hok, hids, r, hfold, htwin⟩ := h
  have hok' := call_ok hok hcall
  cases reply with
  | error st =>
    have hu := (hok.untouched hcall).2 hsafe.1 st rfl
    refine ⟨hok', by rw [hu.log, hu.sequencer]; exact hids, r, by rw [hu.log]; exact hfold, ?_⟩
    rw [hu.log]; exact htwin.untouched hu
  | ok response =>
    obtain ⟨hid, hlog⟩ := call_logged hok hreal hcall
    have havail := call_available hcall
    set entry : OperationLog :=
      { id := c.sequencer.operationLogId + 1, userId := q.user, time := q.now,
        operation := q.operation } with hentry
    have htwin' : c.Twin (.exact <| KnownKey E c₀.balanceManager.assetManager c'.logHandler) r := by
      refine htwin.mono fun k hk => ?_
      obtain ⟨l, hl, hkey⟩ := hk
      exact ⟨l, by rw [hlog]; simp [hl], hkey⟩
    obtain ⟨response', r', hcall', htwin''⟩ : ∃ response' r',
        r.call E { now, available := true, real := false, user := entry.userId,
                   operation := entry.operation } =
          .ok (.ok response', r') ∧
          c'.Twin (.exact <| KnownKey E c₀.balanceManager.assetManager c'.logHandler) r' := by
      by_cases hup : q.operation.Updates
      · obtain ⟨qnow, qavail, qreal, quser, op⟩ := q
        cases op with
        | balanceUpdate req =>
          obtain ⟨r', hr', ht'⟩ :=
            Controller.updateBalance_twin (τ := now) (Pairing.exact_ok _) htwin' hcall fun k hk =>
            ⟨TtlCache.containsKey_eq_false (replayed_fresh hok htwin hsafe rfl hcall hk),
              entry, by rw [hlog]; simp, req, rfl, hok.assets ▸ hk⟩
          exact ⟨response, r', hr', ht'⟩
        | _ => exact hup.elim
      · obtain ⟨reply', r', hr', hkind, -, ht'⟩ :=
          Controller.call_twin (τ := now) (ρ := false) (Pairing.exact_ok _) htwin' hup hcall
        rw [havail] at hr'
        cases reply' with
        | error st => exact absurd hkind (by simp [SameKind, Except.isOk, Except.toBool])
        | ok response' => exact ⟨response', r', hr', ht'⟩
    refine ⟨hok', ?_, r', ?_, htwin''⟩
    · rw [hlog, hid, List.map_append, hids, List.range'_concat]
      simp [hentry, Nat.add_comm]
    · rw [hlog, List.foldlM_append, hfold]
      exact bind_ok.2 ⟨r,
        rfl, by rw [List.foldlM_cons]; exact bind_ok.2 ⟨r', bind_ok.2 ⟨_, hcall', rfl⟩, rfl⟩⟩

/-- A run of real, replayable calls keeps it too. -/
theorem Recovers.calls {qs : List Request} {replies : List (Except Status Response)}
    (h : Recovers E now c₀ c) (hreal : ∀ q ∈ qs, q.real = true)
    (hsafe : c.Along E (Controller.Replayable E) qs)
    (hcalls : c.calls E qs = .ok (replies, c')) : Recovers E now c₀ c' := by
  have hboth : c.Along E (fun c q => q.real = true ∧ c.Replayable E q) qs :=
    (Controller.along_of hreal c).and hsafe
  exact Controller.calls_rule (fun _ _ _ _ h hq hcall => h.call hq.1 hq.2 hcall) h hboth hcalls

/-- Recovery reads the whole log, in its order. -/
theorem Recovers.loads (h : Recovers E now c₀ c) :
    ∃ r, c₀.loadOperationLog E now c.logHandler 0 = .ok r ∧ SameEngine c r := by
  obtain ⟨-, hids, r, hfold, htwin⟩ := h
  have hpages : (pages OperationLog.id QUERY_LIMIT true c.logHandler 0).flatten = c.logHandler := by
    have hsorted := List.pairwise_lt_range' (s := 1) (n := c.sequencer.operationLogId)
    rw [← hids, List.pairwise_map] at hsorted
    refine flatten_pages_of_sorted OperationLog.id (by decide) true hsorted fun l hl => ?_
    have hmem : l.id ∈ List.range' 1 c.sequencer.operationLogId :=
      hids ▸ List.mem_map.2 ⟨l, hl, rfl⟩
    have := List.mem_range'_1.1 hmem
    omega
  refine ⟨{ r with
      sequencer :=
        r.sequencer.setOperationLogId ((c.logHandler.getLast?.map OperationLog.id).getD 0) },
    ?_, htwin.sameEngine.balances, htwin.sameEngine.orders, htwin.orderId, htwin.tradeId⟩
  simp only [Controller.loadOperationLog, hpages]
  exact bind_ok.2 ⟨r, hfold, rfl⟩

/-- **Replaying the log of a run of replayable calls rebuilds the engine.** -/
theorem createController_recovers {qs : List Request} {replies : List (Except Status Response)}
    (hcreate : createController settings = .ok c₀) (hreal : ∀ q ∈ qs, q.real = true)
    (hsafe : c₀.Along E (Controller.Replayable E) qs) (hcalls : c₀.calls E qs = .ok (replies, c))
    (now : Timestamp) : ∃ r, c₀.loadOperationLog E now c.logHandler 0 = .ok r ∧ SameEngine c r :=
  ((Recovers.start hcreate).calls hreal hsafe hcalls).loads

/-- A deposit and an order on it are replayed. -/
theorem createController_recovers_sample : ∃ c₀ c r,
    createController sampleSettings = .ok c₀ ∧ c.logHandler.length = 2 ∧
      c₀.loadOperationLog releaseEnv 7200 c.logHandler 0 = .ok r ∧ SameEngine c r := by
  let qs := [requestAt 0 bob (depositOf "ETH" 1 "10"),
    requestAt 1 bob (.orderPut (limitOrder .ask "2" "100"))]
  have h : (sampleRun releaseEnv qs >>= fun c => pure c.logHandler.length) =
      (.ok 2 : Except Panic ℕ) := by
    decide +kernel
  simp only [bind_ok, pure_ok] at h
  obtain ⟨c, hc, hlen⟩ := h
  obtain ⟨c₀, replies, h₀, hcalls⟩ := sampleRun_ok hc
  have hempty := (createController_begun h₀).log
  -- the deposit meets an empty log, and neither request is a batch
  have hsafe : c₀.Along releaseEnv (Controller.Replayable releaseEnv) qs := by
    refine ⟨⟨by rintro ⟨_, hreq, -⟩; simp [requestAt, depositOf] at hreq, fun _ _ k _ hk => ?_⟩,
      fun _ _ _ =>
      ⟨⟨by rintro ⟨_, hreq, -⟩; simp [requestAt] at hreq,
        fun _ hreq => by simp [requestAt] at hreq⟩, fun _ _ _ => trivial⟩⟩
    obtain ⟨l, hl, -⟩ := hk
    simp [hempty] at hl
  obtain ⟨r, hr, hsame⟩ := createController_recovers h₀ (by simp [qs, requestAt]) hsafe hcalls 7200
  exact ⟨c₀, c, r, h₀, hlen, hr, hsame⟩

/-- The batch that fails after it took effect is not in the log: its order is missing after a
replay. -/
theorem not_recovers :
    ¬ ∀ settings c₀ qs replies c, createController settings = .ok c₀ → (∀ q ∈ qs, q.real = true) →
    c₀.calls releaseEnv qs = .ok (replies, c) →
    ∀ now, ∃ r, c₀.loadOperationLog releaseEnv now c.logHandler 0 = .ok r ∧ SameEngine c r := by
  intro hall
  let qs := [requestAt 0 bob (depositOf "ETH" 1 "10"), spillingBatch]
  have h : (createController sampleSettings >>= fun c₀ => c₀.calls releaseEnv qs >>= fun t =>
      c₀.loadOperationLog releaseEnv 7200 t.2.logHandler 0 >>= fun r =>
        pure (t.2.sequencer.orderId, r.sequencer.orderId)) = (.ok (1, 0) :
          Except Panic (ℕ × ℕ)) := by decide +kernel
  simp only [bind_ok, pure_ok, Prod.mk.injEq] at h
  obtain ⟨c₀, h₀, ⟨replies, c⟩, hcalls, r, hr, hlive, hreplayed⟩ := h
  obtain ⟨r', hr', hsame⟩ := hall _ _ _ _ _ h₀ (by simp [qs, requestAt, spillingBatch]) hcalls 7200
  obtain rfl := Except.ok.inj (hr.symm.trans hr')
  have horder := hsame.orderId
  rw [hreplayed, hlive] at horder
  exact absurd horder (by decide)

end Dingir
