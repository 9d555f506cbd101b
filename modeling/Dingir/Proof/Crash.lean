import Dingir.Proof.Resume
import Dingir.Proof.Server

/-!
# The server after a crash

A slice is forked by a reader while the server runs. The rows of the log are stored behind the
engine, and a crash loses those that are not stored yet. **`Serving.Runs.recovers`**: from the slice
and the rows stored since, a restart gets back the engine as the server had it at some moment after
the fork, whatever the interleaving; and when no row was lost, the engine as it was last.
-/

namespace Dingir

open Service Outcome Keyed

variable {κ : Type} {G : Gateway} {E : Env} {settings : Settings} {s₀ v v' : Configured}
  {s : Serving κ} {qs : List Request} {db db' : Database} {sid : ℤ} {b : Controller}

/-- Calls one after the other, on the server and on its controller. -/
theorem acts_calls {answers : List Answer}
    (h : v.acts E (qs.map ServerAction.call) = .ok (answers, v')) :
    ∃ replies, v.controller.calls E qs = .ok (replies, v'.controller) := by
  induction qs generalizing v answers with
  | nil =>
    obtain ⟨-, rfl⟩ := Prod.mk.inj (Except.ok.inj h)
    exact ⟨[], rfl⟩
  | cons q qs ih =>
    simp only [List.map_cons, Configured.acts, bind_ok, pure_ok, Prod.mk.injEq] at h
    obtain ⟨⟨answer, v₁⟩, hact, ⟨answers, v₂⟩, hrest, -, rfl⟩ := h
    obtain ⟨reply, -, hcall, -⟩ := act_call hact
    obtain ⟨replies, hcalls⟩ := ih hrest
    exact ⟨reply :: replies, bind_ok.2 ⟨_, hcall, bind_ok.2 ⟨_, hcalls, rfl⟩⟩⟩

/-- Without a reload the actions of the log are real calls. -/
theorem Serving.Sound.requests (h : Serving.Sound G E s₀ s) (hs : s.Unreloaded) :
    ∃ qs : List Request, s.log.map Entry.action = qs.map ServerAction.call ∧
      ∀ q ∈ qs, q.real = true := by
  have hcall : ∀ e ∈ s.log, ∃ q, e.action = .call q ∧ q.real = true := by
    intro e he
    obtain ⟨n, hn⟩ := List.getElem?_of_mem he
    obtain ⟨w, w', hat⟩ := h.entry hn
    obtain ⟨task, q, reply, hran, -⟩ := h.ran hs hat
    exact ⟨q, hran.action, hran.real⟩
  generalize s.log = es at hcall
  induction es with
  | nil => exact ⟨[], rfl, by simp⟩
  | cons e es ih =>
    obtain ⟨q, hq, hreal⟩ := hcall e List.mem_cons_self
    obtain ⟨qs, hqs, hall⟩ := ih fun e' he' => hcall e' (List.mem_cons_of_mem _ he')
    exact ⟨q :: qs, by rw [List.map_cons, hq, hqs, List.map_cons],
      List.forall_mem_cons.2 ⟨hreal, hall⟩⟩

/-- What every call of the log meets in its state is met along the run of its requests. -/
theorem Serving.Sound.along {P : Controller → Request → Prop} {k : ℕ} (h : Serving.Sound G E s₀ s)
    (hqs : s.log.map Entry.action = qs.map ServerAction.call)
    (hP : ∀ n e w w' q, k ≤ n → s.At G E s₀ n e w w' → e.action = .call q → P w.controller q) :
    ∀ m n w, n + m = qs.length → k ≤ n → Stands (GrpcHandler.service G E) s₀ s.log n w →
      w.controller.Along E P (qs.drop n) := by
  have hlength : s.log.length = qs.length := by simpa using congrArg List.length hqs
  intro m
  -- on the number of requests that are left
  induction m with
  | zero =>
    intro n w hn _ _
    rw [Nat.add_zero] at hn
    rw [List.drop_of_length_le hn.ge]
    trivial
  | succ m ih =>
    intro n w hn hkn hw
    have hlt : n < qs.length := by omega
    have hlog : n < s.log.length := by omega
    rw [← List.cons_getElem_drop_succ (h := hlt)]
    obtain ⟨w₀, w', hat⟩ := h.entry (List.getElem?_eq_getElem hlog)
    obtain rfl := hw.unique hat.before
    have haction : s.log[n].action = .call qs[n] := by
      have hget := congrArg (fun l => l[n]?) hqs
      simpa [hlog, hlt] using hget
    refine ⟨hP n _ w w' _ hkn hat haction, fun reply c' hcall => ?_⟩
    have hact := hat.act
    rw [haction] at hact
    obtain ⟨reply', -, hcall', -⟩ := act_call hact
    obtain rfl : c' = w'.controller := (Prod.mk.inj (Except.ok.inj (hcall.symm.trans hcall'))).2
    exact ih (n + 1) w' (by omega) (by omega) hat.after

/-- **The server after a crash.** A server that has not reloaded its markets is stopped at any
moment. A reader had forked the slice that was dumped last, after `k` calls, and the requests since
can be replayed. Of the rows they have added to the log, the first `n` have been stored. Then a
restart returns, with the engine as it was after some `j` calls: the one that wrote the last of
these rows, or with all the rows the one at the moment of the crash. -/
theorem Serving.Runs.recovers {who : κ} {k n : ℕ} {log : List OperationLog}
    (h₀ : Reachable E settings s₀.controller) (h : Serving.Runs G E (.start s₀) s)
    (hs : s.Unreloaded) (hseen : (who, k, v) ∈ s.seen) (hb : createController settings = .ok b)
    (hdb : Stored E settings db)
    (hlast : db' = db.dumpToDb sid v.controller ∨ db' = db.makeSlice sid v.controller)
    (hagrees : db.Agrees sid v.controller)
    (hsafe : ∀ j e w w' q, k ≤ j → s.At G E s₀ j e w w' → e.action = .call q →
      w.controller.ReplayableSince E v.controller.logHandler.length q)
    (hlog : (log.map OperationLog.id).Nodup)
    (hrows : ∀ l, v.controller.sequencer.operationLogId < l.id →
      (l ∈ log ↔ l ∈ (s.state.controller.logHandler.drop v.controller.logHandler.length).take n))
    (now : Timestamp) :
    ∃ j w r, k ≤ j ∧ Stands (GrpcHandler.service G E) s₀ s.log j w ∧
      (s.state.controller.logHandler.length ≤ v.controller.logHandler.length + n →
        j = s.log.length) ∧
      w.controller.logHandler =
        s.state.controller.logHandler.take (v.controller.logHandler.length + n) ∧
      b.initFromDb E now db'.lastSlice log = .ok r ∧ SameEngine w.controller r ∧
      r.sequencer.operationLogId = w.controller.sequencer.operationLogId := by
  have hsound : Serving.Sound G E s₀ s := Service.Runs.sound h
  have hk : Stands (GrpcHandler.service G E) s₀ s.log k v := hsound.seen _ hseen
  obtain ⟨qs, hqs, hreal⟩ := hsound.requests hs
  have hlength : s.log.length = qs.length := by simpa using congrArg List.length hqs
  -- the requests between two places of the log
  have hbetween : ∀ {i : ℕ} {w : Configured}, Stands (GrpcHandler.service G E) s₀ s.log (k + i) w →
      ∃ replies, v.controller.calls E ((qs.drop k).take i) = .ok (replies, w.controller) := by
    intro i w hw
    have hacts := performs_iff_acts.1 (hk.between hw)
    rw [List.map_take, List.map_drop, hqs, ← List.map_drop, ← List.map_take] at hacts
    exact acts_calls hacts
  have hend : Stands (GrpcHandler.service G E) s₀ s.log (k + (s.log.length - k)) s.state := by
    rw [Nat.add_sub_cancel' hk.1]
    exact hsound.stands
  obtain ⟨replies, hcalls⟩ := hbetween hend
  rw [List.take_of_length_le (by rw [List.length_drop, hlength])] at hcalls
  have hkq : k ≤ qs.length := hlength ▸ hk.1
  -- the requests since the fork, replayed from the slice
  have halong := hsound.along hqs hsafe (qs.length - k) k v (by omega) le_rfl hk
  obtain ⟨r₀, hinit, hstart⟩ :=
    Resumes.start now hdb (hsound.reachable hs h₀ hk) hb hlast hagrees
  obtain ⟨qs₁, replies₁, d₁, r, hprefix, hall, hrun, hlogs, hr, hsame, hid⟩ :=
    hstart.part (fun q hq => hreal q (List.mem_of_mem_drop hq)) halong hcalls hlog hrows
  have hshort : qs₁.length ≤ qs.length - k := by simpa using hprefix.length_le
  -- the calls whose rows were stored end at a place of the log
  obtain ⟨w, hw⟩ := hsound.stands_at (n := k + qs₁.length) (by omega)
  obtain ⟨replies', hcalls'⟩ := hbetween hw
  rw [← List.prefix_iff_eq_take.1 hprefix, hrun] at hcalls'
  obtain rfl : d₁ = w.controller := (Prod.mk.inj (Except.ok.inj hcalls')).2
  refine ⟨k + qs₁.length, w, r, Nat.le_add_right _ _, hw, fun hle => ?_, hlogs,
    (hinit log).trans hr, hsame, hid⟩
  rw [hall hle, List.length_drop, hlength]
  omega

/-- The deposit is in the slice and the ask in the log after it: the server of the sample day gets
both back. -/
theorem Serving.Runs.recovers_sample : ∃ (c b r : Controller) (s : Serving ℕ) (v w : Configured),
    Serving.Runs sampleGateway releaseEnv (.start ⟨c, MarketConfigs.new⟩) s ∧ (1, 1, v) ∈ s.seen ∧
    s.log.length = 2 ∧
      createController sampleSettings = .ok b ∧
      Stands (GrpcHandler.service sampleGateway releaseEnv) ⟨c, MarketConfigs.new⟩ s.log 2 w ∧
      b.initFromDb releaseEnv 200 (Database.empty.dumpToDb 100 v.controller).lastSlice
        s.state.controller.logHandler = .ok r ∧
      SameEngine w.controller r := by
  have h : (sampleServing releaseEnv).map (fun t => (t.2.2.seen.any fun r => r.1 = 1 && r.2.1 = 1 &&
      r.2.2.controller.logHandler.map OperationLog.id = [1] &&
        r.2.2.controller.sequencer.operationLogId = 1,
      t.2.2.log.map (fun e => e.action.put.isSome), t.2.2.log.map (fun e => e.task.isSome),
      t.2.2.state.controller.logHandler.map OperationLog.id)) =
      some (true, [false, true], [true, true], [1, 2]) := by decide +kernel
  obtain ⟨⟨c, s', s⟩, hday, hread⟩ := Option.map_eq_some_iff.1 h
  simp only [Prod.mk.injEq] at hread
  obtain ⟨hseen, hputs, htasks, hids⟩ := hread
  obtain ⟨hc, hruns, hruns'⟩ := sampleServing_runs hday
  have hlength : s.log.length = 2 := by simpa using congrArg List.length htasks
  have hun : s.Unreloaded := by
    intro e he
    have hmem : e.task.isSome ∈ s.log.map (fun e => e.task.isSome) := List.mem_map.2 ⟨e, he, rfl⟩
    rw [htasks] at hmem
    simpa using hmem
  -- the reader after the deposit
  obtain ⟨v, hv, hvids, hvid⟩ : ∃ v, (1, 1, v) ∈ s.seen ∧
      v.controller.logHandler.map OperationLog.id = [1] ∧
      v.controller.sequencer.operationLogId = 1 := by
    obtain ⟨⟨who, k, v⟩, hr, he⟩ := List.any_eq_true.1 hseen
    simp only [Bool.and_eq_true, decide_eq_true_eq] at he
    obtain ⟨⟨⟨rfl, rfl⟩, hvids⟩, hvid⟩ := he
    exact ⟨v, hr, hvids, hvid⟩
  have hvlength : v.controller.logHandler.length = 1 := by simpa using congrArg List.length hvids
  have hdlength :
      s.state.controller.logHandler.length = 2 := by simpa using congrArg List.length hids
  have hfree : Database.empty.Free 100 := ⟨rfl, rfl⟩
  -- after it there is one request, and it puts an order
  have hsafe : ∀ j e w w' q, 1 ≤ j → s.At sampleGateway releaseEnv ⟨c, MarketConfigs.new⟩ j e w w' →
      e.action = .call q →
      w.controller.ReplayableSince releaseEnv v.controller.logHandler.length q := by
    intro j e w w' q hj hat haction
    have hlt : j < s.log.length := (List.getElem?_eq_some_iff.1 hat.entry).1
    obtain rfl : j = 1 := by omega
    have hput := congrArg (fun l => l[1]?) hputs
    simp only [List.getElem?_map, hat.entry, Option.map_some, List.getElem?_cons_succ,
      List.getElem?_cons_zero,
      Option.some.injEq, Option.isSome_iff_exists] at hput
    obtain ⟨req, hput⟩ := hput
    obtain ⟨q', haction', hop⟩ := ServerAction.put_some hput
    obtain rfl := ServerAction.call.inj (haction.symm.trans haction')
    refine ⟨?_, fun _ hreq => by rw [hop] at hreq; cases hreq⟩
    rintro ⟨_, hreq, -⟩
    rw [hop] at hreq
    cases hreq
  have hlog : (s.state.controller.logHandler.map OperationLog.id).Nodup := by rw [hids]; decide
  have hrows : ∀ l, v.controller.sequencer.operationLogId < l.id →
      (l ∈ s.state.controller.logHandler ↔
      l ∈ (s.state.controller.logHandler.drop v.controller.logHandler.length).take 1) := by
    intro l hl
    rw [hvlength, List.take_of_length_le (by rw [List.length_drop, hdlength])]
    refine ⟨fun hmem => ?_, fun hmem => List.mem_of_mem_drop hmem⟩
    rw [← List.take_append_drop 1 s.state.controller.logHandler, List.mem_append] at hmem
    refine hmem.resolve_left fun hold => ?_
    have hone : l.id ∈ (s.state.controller.logHandler.map OperationLog.id).take 1 := by
      rw [← List.map_take]
      exact List.mem_map.2 ⟨l, hold, rfl⟩
    rw [hids] at hone
    simp only [List.take_succ_cons, List.take_zero, List.mem_singleton] at hone
    omega
  obtain ⟨j, w, r, -, hw, hall, -, hr, hsame, -⟩ :=
    Serving.Runs.recovers (Reachable.init hc) (hruns.trans hruns') hun hv hc .empty
    (.inl rfl) (hfree.agrees v.controller) hsafe hlog hrows 200
  obtain rfl : j = s.log.length := hall (by rw [hvlength, hdlength])
  rw [hlength] at hw
  exact ⟨c, c, r, s, v, w, hruns.trans hruns', hv, hlength, hc, hw, hr, hsame⟩

end Dingir
