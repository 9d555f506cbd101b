import Dingir.Lib.Guarded
import Dingir.Spec.Exchange
import Dingir.Proof.Ids
import Dingir.Proof.Resume

/-!
# Ids over the lives of an engine

A recovery gives the engine back when the slice it loads is the one that was taken, every request
that left a trace is in the log, and every row of the log was stored (`Exchange.Faithful`). What is
given back stands for the engine that ended (`StandsFor`): it has the same books and counters, a
filter and handles of its own. So the counters go on where they were, and over all lives each id is
issued once: **`Exchange.Runs.issuedOnce`**.

Whether a replay returns is not asked. One that meets a row it refuses panics, and no process comes
back.
-/

namespace Dingir

open Keyed Outcome Market Paging Stream

variable {E : Env} {settings : Settings} {now : Timestamp} {u : Uuid}
  {A : Market → Ctx → OrderInput → Prop} {w : Prop} {b b' c c' d d' d₀ r r' r₀ : Controller}
  {q : Request} {rows : List OperationLog}

/-! ## The same engine -/

theorem Order.Twin.symm {o o' : Order} (h : o.Twin o') : o'.Twin o := by
  obtain ⟨a, b, rfl⟩ := h
  exact ⟨o.createTime, o.updateTime, rfl⟩

theorem Order.Twin.trans {o o' o'' : Order} (h : o.Twin o') (h' : o'.Twin o'') : o.Twin o'' := by
  obtain ⟨a, b, rfl⟩ := h
  obtain ⟨a', b', rfl⟩ := h'
  exact ⟨a', b', rfl⟩

namespace SameEngine

theorem refl (c : Controller) : SameEngine c c := by
  refine ⟨fun _ => rfl, fun name => ?_, rfl, rfl⟩
  cases c.markets.find? name with
  | none => exact .none
  | some m =>
    refine .some fun id => ?_
    cases m.resting id with
    | none => exact .none
    | some o => exact .some (.refl o)

theorem symm (h : SameEngine c r) : SameEngine r c :=
  ⟨fun k => (h.balances k).symm,
    fun name => rel_swap (h.orders name) fun _ _ hm id => rel_swap (hm id) fun _ _ =>
    Order.Twin.symm, h.orderId.symm, h.tradeId.symm⟩

theorem trans (h : SameEngine c d) (h' : SameEngine d r) : SameEngine c r := by
  refine ⟨fun k => (h'.balances k).trans (h.balances k), fun name => ?_, h'.orderId.trans h.orderId,
    h'.tradeId.trans h.tradeId⟩
  exact rel_trans (h.orders name) (h'.orders name) fun _ _ _ hm hm' id =>
    rel_trans (hm id) (hm' id) fun _ _ _ =>
    Order.Twin.trans

/-- A refused request changes nothing. -/
theorem untouched (h : SameEngine c r) (hu : Untouched c c') : SameEngine c' r := by
  refine ⟨fun k => ?_, fun name => ?_, ?_, ?_⟩
  · rw [hu.balances]
    exact h.balances k
  · rw [hu.markets]
    exact h.orders name
  · rw [hu.sequencer]
    exact h.orderId
  · rw [hu.sequencer]
    exact h.tradeId

/-- Two controllers in which nothing has happened. -/
theorem fresh (hc : c.Fresh) (hr : r.Fresh) (h : ControllerOK c r) : SameEngine c r := by
  refine ⟨fun k => (hr.blank.balances k).trans (hc.blank.balances k).symm, fun name => ?_,
    hr.orderId.trans hc.orderId.symm, hr.tradeId.trans hc.tradeId.symm⟩
  cases hm : r.markets.find? name with
  | none =>
    cases hm₀ : c.markets.find? name with
    | none => exact .none
    | some m₀ =>
      have hkept := h.kept name m₀ hm₀
      rw [hm] at hkept
      simp at hkept
  | some m =>
    obtain ⟨m₀, hm₀, -⟩ := h.terms name m hm
    rw [hm₀]
    refine .some fun id => ?_
    rw [(hc.blank.markets name m₀ hm₀).resting, (hr.blank.markets name m hm).resting]
    exact .none

end SameEngine

/-- **What stands for an engine**: the same books and counters, with handles and a filter of its
own. -/
structure StandsFor (E : Env) (b d r : Controller) : Prop where
  ok : ControllerOK b r
  same : SameEngine d r
  filtered : Filtered (fun _ => True) (r.ctx true)
  storable : r.balanceManager.Storable E

/-- **A call and its replay**, when both have a response. -/
theorem StandsFor.call {response response' : Response} (h : StandsFor E b d r)
    (hd : ControllerOK b d) (hcall : d.call E q = .ok (.ok response, d'))
    (hreplay : r.call E
      { now, available := true, real := false, user := q.user, operation := q.operation } =
      .ok (.ok response', r')) : StandsFor E b d' r' := by
  obtain ⟨htwin, hagrees⟩ := h.same.image hd h.ok h.filtered
  obtain ⟨⟨reply, image⟩, himage, hreply, hagrees'⟩ :=
    (Controller.call_agrees (E := E) h.ok hagrees _).matched hreplay
  obtain rfl : reply = .ok response' := hreply
  have htwin' : d'.Twin (.loose fun _ => True) image := by
    by_cases hup : q.operation.Updates
    · obtain ⟨qnow, qavail, qreal, quser, op⟩ := q
      cases op with
      | balanceUpdate req =>
        -- the replay let it pass, so its filter did not know the key
        have hpasses : ∀ k, UpdateKey E d.balanceManager.assetManager req quser k →
            (d.recast r).updateController.cache.containsKey now k = false ∧ True := by
          intro k hk
          rcases Controller.updateBalance_cases himage with ⟨⟨st, hst⟩, -⟩ |
            ⟨-, prec, price, change, detail, x', hprec,
            hparse, -, happ, -⟩
          · simp at hst
          rw [hk.unique ⟨prec, price, change, detail, hprec, hparse, rfl⟩]
          exact ⟨happ.fresh, trivial⟩
        obtain ⟨image', hi, ht⟩ :=
          Controller.updateBalance_twin (τ := now) (Pairing.loose_ok _) htwin hcall hpasses
        obtain rfl : image' = image := (Prod.mk.inj (Except.ok.inj (hi.symm.trans himage))).2
        exact ht
      | _ => exact hup.elim
    · obtain ⟨reply', image', hi, -, -, ht⟩ :=
        Controller.call_twin (τ := now) (ρ := false) (Pairing.loose_ok _) htwin hup hcall
      rw [call_available hcall] at hi
      obtain rfl : image' = image := (Prod.mk.inj (Except.ok.inj (hi.symm.trans himage))).2
      exact ht
  exact ⟨call_ok h.ok hreplay, htwin'.sameEngine.agrees hagrees',
    call_filtered h.ok h.filtered hreplay,
    call_storable h.ok h.storable hreplay⟩

/-- **Whatever stands for `d₀`, the rows lead it to what stands for `d`**, if their replay
returns. -/
def LogLeads (E : Env) (b d₀ : Controller) (rows : List OperationLog) (d : Controller) : Prop :=
  ∀ now r₀ r, StandsFor E b d₀ r₀ → rows.foldlM (Controller.replay E now) r₀ = .ok r →
    StandsFor E b d r

namespace LogLeads

theorem nil : LogLeads E b d [] d := by
  intro now r₀ r h hfold
  rw [List.foldlM_nil, pure_ok] at hfold
  exact hfold ▸ h

/-- The row of a call. -/
theorem call {response : Response} {id : ℕ} {time : Timestamp} (h : LogLeads E b d₀ rows d)
    (hd : ControllerOK b d) (hcall : d.call E q = .ok (.ok response, d')) :
    LogLeads E b d₀ (rows ++ [{ id, userId := q.user, time, operation := q.operation }]) d' := by
  intro now r₀ r' h₀ hfold
  rw [List.foldlM_append, bind_ok] at hfold
  obtain ⟨r, hrows, hlast⟩ := hfold
  simp only [List.foldlM_cons, List.foldlM_nil, bind_ok, pure_ok] at hlast
  obtain ⟨_, hreplay, rfl⟩ := hlast
  obtain ⟨response', hreplay⟩ := replay_call hreplay
  exact (h now r₀ r h₀ hrows).call hd hcall hreplay

/-- The engine may be replaced by what is the same. -/
theorem congr (h : LogLeads E b d₀ rows d) (hsame : SameEngine d' d) : LogLeads E b d₀ rows d' :=
  fun now r₀ r h₀ hfold =>
  let hr := h now r₀ r h₀ hfold
  ⟨hr.ok, hsame.trans hr.same, hr.filtered, hr.storable⟩

end LogLeads

/-! ## Replays are silent -/

/-- Moves of a replay hand over no message. -/
theorem Moves.silent (h : Moves E now false u w A c c') (hc : ControllerOK b c) :
    c'.persistor = c.persistor := by
  -- a persistor that is not real stays so, and is not put back
  have hback : ∀ {c₁ : Controller} {x : Ctx}, x.persistor.realPersist = false →
      (c₁.withCtx x).persistor = c₁.persistor := by
    intro c₁ x hx
    unfold Controller.withCtx
    cases hp : x.persistor with
    | real ms =>
      rw [hp] at hx
      cases hx
    | dummy => rfl
  induction h with
  | refl => rfl
  | tail hmoves hmove ih =>
    cases hmove with
    | market hm hsteps =>
      obtain ⟨ts, hts⟩ := hsteps.conserved (((Moves.ok hmoves hc).desk _ _ hm).2 false)
      exact (hback hts.real).trans ih
    | update _ _ _ _ happ => exact (hback (persistUpdate_trades happ.persistor).2.2).trans ih

theorem call_silent {reply : Except Status Response} (hc : ControllerOK b c)
    (hreal : q.real = false) (h : c.call E q = .ok (reply, c')) :
    c'.persistor = c.persistor ∧ c'.logHandler = c.logHandler := by
  obtain ⟨c₁, hmoves, hends⟩ := call_moves hc h
  rw [hreal] at hmoves hends
  have hsilent := hmoves.silent hc
  have hlog := hmoves.log.1
  cases hends with
  | refused => exact ⟨hsilent, hlog⟩
  | logged => exact ⟨hsilent, hlog⟩

/-! ## What a recovery gives back -/

/-- **A recovery begins with what stands for `d`**, and replays the rows above the counter of
`d`. -/
def RecoveryBegins (E : Env) (b : Controller) (lastSlice : Option Slice) (d : Controller) : Prop :=
  ∀ b' now log r, b'.Fresh → ControllerOK b b' → b'.initFromDb E now lastSlice log = .ok r →
    ∃ r₀, StandsFor E b d r₀ ∧ r₀.persistor = b'.persistor ∧ r₀.logHandler = b'.logHandler ∧
      r₀.loadOperationLog E now log d.sequencer.operationLogId = .ok r

/-- A fresh controller can be set. -/
theorem Controller.Fresh.storable (h : b.Fresh) : b.balanceManager.Storable E := by
  refine ⟨fun k hk => ?_, fun _ k => (h.blank.balances k).ge⟩
  rw [h.balances k] at hk
  simp at hk

/-- Without a slice it begins with a fresh controller. -/
theorem RecoveryBegins.empty (hb : b.Fresh) : RecoveryBegins E b none b := by
  intro b' now log r hfresh hok h
  refine ⟨b', ⟨hok, SameEngine.fresh hb hfresh hok, .of_empty hfresh.filter, hfresh.storable⟩, rfl,
    rfl, ?_⟩
  rw [hb.operationLogId]
  exact h

/-- With a slice that was just taken it begins with what was dumped. -/
theorem RecoveryBegins.dumpToDb {db : Database} {sid : ℤ} (hb : b.Fresh) (hd : ControllerOK b d)
    (hs : d.balanceManager.Storable E) (hdb : db.OK E b sid) (hagrees : db.Agrees sid d) :
    RecoveryBegins E b (db.dumpToDb sid d).lastSlice d := by
  rw [Database.lastSlice_dumpToDb]
  intro b' now log r hfresh hok h
  obtain ⟨c₁, hload, hlog⟩ := bind_ok.1 h
  obtain ⟨c₂, hload', hloaded⟩ :=
    loadSlice_total hfresh ((hdb.dumpToDb hd hs sid).beside hok) d.dump.history
  obtain rfl : c₁ = c₂ := Except.ok.inj (hload.symm.trans hload')
  have hd' := hok.beside hd
  have hsame := hloaded.same hd' hagrees
  have hr := (hok.beside hb.ok).beside (LoadedDump.ok hloaded hload hfresh.ok hd' hsame)
  have hstorable := loadSlice_storable hfresh.storable hload
  obtain ⟨bm, markets, rfl⟩ := hloaded.kept
  exact ⟨_, ⟨hr, hsame.sameEngine, .of_empty hfresh.filter, hstorable⟩, rfl, rfl, hlog⟩

/-- **A recovery that returns gives back what stands for the engine**, when it reads the rows that
lead there. -/
theorem RecoveryBegins.gives {lastSlice : Option Slice} {n : ℕ}
    (h : RecoveryBegins E b lastSlice d₀)
    (hleads : LogLeads E b d₀ (rows.drop d₀.sequencer.operationLogId) d)
    (hids : rows.map OperationLog.id = List.range' 1 n) (hle : d₀.sequencer.operationLogId ≤ n)
    (hb' : b'.Fresh) (hok : ControllerOK b b')
    (hinit : b'.initFromDb E now lastSlice rows = .ok r) :
    StandsFor E b d r ∧ r.sequencer.operationLogId = n ∧ r.persistor = b'.persistor ∧
    r.logHandler = b'.logHandler := by
  obtain ⟨r₀, h₀, hpersistor, hhandler, hload⟩ := h b' now rows r hb' hok hinit
  have hquiet := loadOperationLog_rows
    (P := fun c => ControllerOK b c ∧ c.persistor = b'.persistor ∧ c.logHandler = b'.logHandler)
    (fun row _ c reply c' hc hcall => by
      obtain ⟨hp, hl⟩ := call_silent hc.1 rfl hcall
      exact ⟨call_ok hc.1 hcall, hp.trans hc.2.1, hl.trans hc.2.2⟩)
    (fun c id hc => ⟨hc.1.setOperationLogId id, hc.2⟩) ⟨h₀.ok, hpersistor, hhandler⟩ hload
  simp only [Controller.loadOperationLog,
    flatten_pages_of_numbered OperationLog.id (by decide : 0 < QUERY_LIMIT) true hids, bind_ok,
    pure_ok] at hload
  obtain ⟨r₁, hfold, rfl⟩ := hload
  have h₁ := hleads now r₀ r₁ h₀ hfold
  refine ⟨⟨h₁.ok.setOperationLogId _,
    ⟨h₁.same.balances, h₁.same.orders, h₁.same.orderId, h₁.same.tradeId⟩,
    ⟨h₁.filtered.trade, h₁.filtered.other⟩, h₁.storable⟩, ?_, hquiet.2⟩
  -- the counter of the log is the id of its last row, or that of the slice
  show (((rows.drop d₀.sequencer.operationLogId).getLast?.map OperationLog.id).getD
    d₀.sequencer.operationLogId) = n
  rw [← List.getLast?_map, List.map_drop, hids, List.drop_range', List.getLast?_range']
  split
  · simp only [Option.getD_none]
    omega
  · simp only [Option.getD_some]
    omega

/-! ## The lives of an exchange -/

namespace Exchange

/-- **A step that leaves what a recovery needs**: a request that fails leaves no trace; a slice is
taken in a second in which no other rows of one are stored, but its own; and of a process that ends,
or reloads, every row of the log is stored. -/
def Faithful (E : Env) (s : Exchange) : ExchangeAction → Prop
  | .call q => ¬ s.engine.Spills E q
  | .dump sliceId => s.db.Agrees sliceId s.engine
  | .slice sliceId => s.db.Agrees sliceId s.engine
  | .restart stored _ => s.engine.logHandler.length ≤ stored
  | .reload stored _ => s.engine.logHandler.length ≤ stored

/-- All rows of the log, stored or not. -/
def wholeLog (s : Exchange) : List OperationLog := s.log ++ s.engine.logHandler

/-- **What faithful steps keep.** -/
structure OK (E : Env) (b : Controller) (s : Exchange) : Prop where
  engine : StandsFor E b s.engine s.engine
  db : ∀ sid, s.db.OK E b sid
  ids : s.wholeLog.map OperationLog.id = List.range' 1 s.engine.sequencer.operationLogId
  recovery : ∃ d₀ : Controller, d₀.sequencer.operationLogId ≤ s.engine.sequencer.operationLogId ∧
    RecoveryBegins E b s.db.lastSlice d₀ ∧
    LogLeads E b d₀ (s.wholeLog.drop d₀.sequencer.operationLogId) s.engine
  told : Coherent Issued.rules ⟨0, 0⟩ s.messages ∧
    after Issued.rules ⟨0, 0⟩ s.messages = s.engine.sequencer.issued

namespace OK

variable {s s' : Exchange} {stored : ℕ} {sid : ℤ}

theorem start (hb : createController settings = .ok b) : (start b).OK E b := by
  have hfresh := createController_fresh hb
  have hbegun := createController_begun hb
  have hrows : (Exchange.start b).wholeLog = [] := hbegun.log
  have hmessages : (Exchange.start b).messages = [] := hbegun.persistor
  refine ⟨⟨hfresh.ok, .refl b, .of_empty hfresh.filter, hfresh.storable⟩, fun sid => ?_, ?_,
    ⟨b, le_rfl, .empty hfresh, ?_⟩, ?_⟩
  · exact ⟨fun _ hrow => by simp [Exchange.start, Database.ordersOf, Database.empty,
      Table.Unique.empty] at hrow,
      fun _ hrow => by
        simp [Exchange.start, Database.balancesOf, Database.empty, Table.Serial.empty] at hrow⟩
  · rw [hrows]
    show [] = List.range' 1 b.sequencer.operationLogId
    rw [hfresh.operationLogId]
    rfl
  · rw [hrows, List.drop_nil]
    exact .nil
  · rw [hmessages]
    exact ⟨trivial, congrArg₂ Issued.mk hfresh.orderId.symm hfresh.tradeId.symm⟩

/-- **A call** adds its row, if it gets a response, and what it tells. -/
theorem call (h : s.OK E b) {reply : Except Status Response} (hreal : q.real = true)
    (hsafe : ¬ s.engine.Spills E q) (hcall : s.engine.call E q = .ok (reply, c')) :
    ({ s with engine := c' } : Exchange).OK E b := by
  obtain ⟨⟨hok, -, hfiltered, hstorable⟩, hdb, hids, ⟨d₀, hle, hbegins, hleads⟩, hcoh, hafter⟩ := h
  obtain ⟨hp, hcoh', hissued⟩ := (retells_issued (E := E)).toRelays.call hok rfl hreal hcall
  have hengine : StandsFor E b c' c' :=
    ⟨call_ok hok hcall, .refl c', call_filtered hok hfiltered hcall,
      call_storable hok hstorable hcall⟩
  have hmessages :
      ({ s with engine := c' } : Exchange).messages = s.messages ++ s.engine.tells E q := by
    unfold messages
    rw [hp, List.append_assoc]
  have htold : Coherent Issued.rules ⟨0, 0⟩ (s.messages ++ s.engine.tells E q) ∧
      after Issued.rules ⟨0, 0⟩ (s.messages ++ s.engine.tells E q) = c'.sequencer.issued := by
    rw [coherent_append, after_append, hafter]
    exact ⟨⟨hcoh, hcoh'⟩, hissued⟩
  have hlength : s.wholeLog.length = s.engine.sequencer.operationLogId := by
    rw [← List.length_map OperationLog.id, hids, List.length_range']
  cases reply with
  | error st =>
    have hu := (hok.untouched hcall).2 hsafe st rfl
    have hrows : ({ s with engine := c' } : Exchange).wholeLog = s.wholeLog := by
      unfold wholeLog
      rw [hu.log]
    refine ⟨hengine, hdb, ?_, ⟨d₀, ?_, hbegins, ?_⟩, by rwa [hmessages]⟩
    · rw [hrows]
      show _ = List.range' 1 c'.sequencer.operationLogId
      rw [hu.sequencer]
      exact hids
    · show _ ≤ c'.sequencer.operationLogId
      rw [hu.sequencer]
      exact hle
    · rw [hrows]
      exact hleads.congr ((SameEngine.refl _).untouched hu)
  | ok response =>
    obtain ⟨hid, hlog⟩ := call_logged hok hreal hcall
    have hrows : ({ s with engine := c' } : Exchange).wholeLog = s.wholeLog ++
        [{ id := s.engine.sequencer.operationLogId + 1, userId := q.user, time := q.now,
           operation := q.operation }] := by
      unfold wholeLog
      rw [hlog, List.append_assoc]
    refine ⟨hengine, hdb, ?_, ⟨d₀, ?_, hbegins, ?_⟩, by rwa [hmessages]⟩
    · rw [hrows, List.map_append, hids]
      show _ = List.range' 1 c'.sequencer.operationLogId
      rw [hid, List.range'_concat]
      simp [Nat.add_comm]
    · show _ ≤ c'.sequencer.operationLogId
      rw [hid]
      exact hle.trans (Nat.le_succ _)
    · rw [hrows, List.drop_append_of_le_length (hle.trans_eq hlength.symm)]
      exact hleads.call hok hcall

/-- **A slice**: a recovery begins with the engine as it is, and there is no row above it. -/
theorem dump (h : s.OK E b) (hb : b.Fresh) (hagrees : s.db.Agrees sid s.engine) {db : Database}
    (hlast : db = s.db.dumpToDb sid s.engine ∨ db = s.db.makeSlice sid s.engine) :
    ({ s with db } : Exchange).OK E b := by
  obtain ⟨hengine, hdb, hids, -, htold⟩ := h
  have hbegins := RecoveryBegins.dumpToDb hb hengine.ok hengine.storable (hdb sid) hagrees
  have hdumped : ∀ time, (s.db.dumpToDb sid s.engine).OK E b time := fun time =>
    (hdb time).dumpToDb hengine.ok hengine.storable sid
  have hdrop : s.wholeLog.drop s.engine.sequencer.operationLogId = [] := by
    refine List.drop_eq_nil_of_le ?_
    rw [← List.length_map OperationLog.id, hids, List.length_range']
  have hnew : db.lastSlice = (s.db.dumpToDb sid s.engine).lastSlice ∧ ∀ time, db.OK E b time := by
    rcases hlast with rfl | rfl
    · exact ⟨rfl, hdumped⟩
    · exact ⟨Database.lastSlice_makeSlice _ _ _, fun time => (hdumped time).clearSlice sid⟩
  refine ⟨hengine, hnew.2, hids, ⟨s.engine, le_rfl, ?_, ?_⟩, htold⟩
  · show RecoveryBegins E b db.lastSlice s.engine
    rw [hnew.1]
    exact hbegins
  · show LogLeads E b s.engine (s.wholeLog.drop s.engine.sequencer.operationLogId) s.engine
    rw [hdrop]
    exact .nil

/-- What a recovery puts in the place of the engine. -/
theorem recovered (h : s.OK E b) (hb' : b'.Fresh) (hok : ControllerOK b b')
    (hstored : s.engine.logHandler.length ≤ stored)
    (hinit : b'.initFromDb E now s.db.lastSlice (s.operationLog stored) = .ok c') :
    StandsFor E b s.engine c' ∧ c'.sequencer.operationLogId = s.engine.sequencer.operationLogId ∧
      c'.persistor = b'.persistor ∧ c'.logHandler = b'.logHandler := by
  obtain ⟨-, -, hids, ⟨d₀, hle, hbegins, hleads⟩, -⟩ := h
  have hall : s.operationLog stored = s.wholeLog := by
    unfold operationLog wholeLog
    rw [List.take_of_length_le hstored]
  rw [hall] at hinit
  exact hbegins.gives hleads hids hle hb' hok hinit

/-- The engine may be replaced by what stands for it, the rows and the messages being the same. -/
theorem replaced (h : s.OK E b) (hstands : StandsFor E b s.engine s'.engine)
    (hid : s'.engine.sequencer.operationLogId = s.engine.sequencer.operationLogId)
    (hdb : s'.db = s.db) (hlog : s'.wholeLog = s.wholeLog)
    (hmessages : s'.messages = s.messages) : s'.OK E b := by
  obtain ⟨-, hold, hids, ⟨d₀, hle, hbegins, hleads⟩, hcoh, hafter⟩ := h
  refine ⟨⟨hstands.ok, .refl _, hstands.filtered, hstands.storable⟩, by rwa [hdb], by
    rwa [hlog, hid],
    ⟨d₀, by rwa [hid], by rwa [hdb], ?_⟩, by rwa [hmessages], ?_⟩
  · rw [hlog]
    exact hleads.congr hstands.same.symm
  · rw [hmessages, hafter]
    exact congrArg₂ Issued.mk hstands.same.orderId.symm hstands.same.tradeId.symm

/-- **A faithful step keeps it.** -/
theorem step {a : ExchangeAction} (hb : createController settings = .ok b) (h : s.OK E b)
    (hfaithful : s.Faithful E a) (hstep : s.step E settings a = some s') : s'.OK E b := by
  have hfresh := createController_fresh hb
  cases a with
  | call q =>
    simp only [Exchange.step] at hstep
    split at hstep
    · rename_i hreal
      split at hstep
      · rename_i reply engine hcall
        obtain rfl := Option.some.inj hstep
        exact h.call hreal hfaithful hcall
      · cases hstep
    · cases hstep
  | dump sliceId =>
    obtain rfl := Option.some.inj hstep
    exact h.dump hfresh hfaithful (.inl rfl)
  | slice sliceId =>
    obtain rfl := Option.some.inj hstep
    exact h.dump hfresh hfaithful (.inr rfl)
  | restart stored now =>
    have hbegun := createController_begun hb
    simp only [Exchange.step, hb] at hstep
    split at hstep
    · rename_i engine hinit
      obtain rfl := Option.some.inj hstep
      obtain ⟨hstands, hid, hpersistor, hhandler⟩ := h.recovered hfresh hfresh.ok hfaithful hinit
      refine h.replaced hstands hid rfl ?_ ?_
      · unfold wholeLog operationLog
        rw [hhandler, hbegun.log, List.append_nil, List.take_of_length_le hfaithful]
      · unfold messages
        rw [hpersistor, hbegun.persistor, List.append_nil]
    · cases hstep
  | reload stored now =>
    simp only [Exchange.step] at hstep
    split at hstep
    · rename_i engine hinit
      obtain rfl := Option.some.inj hstep
      obtain ⟨hstands, hid, hpersistor, hhandler⟩ :=
        h.recovered (resetState_fresh h.engine.ok) (resetState_ok h.engine.ok).1 hfaithful hinit
      refine h.replaced hstands hid rfl ?_ ?_
      · unfold wholeLog
        rw [hhandler]
        rfl
      · unfold messages
        rw [hpersistor]
        rfl
    · cases hstep

end OK

variable {s : Exchange}

/-- **Ids are issued once, over all lives of the engine**, in every run of faithful steps. -/
theorem Runs.issuedOnce (hb : createController settings = .ok b)
    (h : Guarded.Runs (Exchange.step E settings) (Exchange.Faithful E) (start b) s) :
    s.engine.IssuesInTurn E s.messages := by
  have hok : s.OK E b :=
    Guarded.Runs.rule (fun _ _ _ hs hfaithful hstep => hs.step hb hfaithful hstep) (.start hb) h
  exact hok.engine.ok.issuesInTurn hok.told.1 hok.told.2

/-- Calls that put no batch are faithful. -/
theorem faithful_calls {qs : List Request} (h : ∀ q ∈ qs, ∀ req, q.operation ≠ .batchOrderPut req)
    (s : Exchange) : ∀ a ∈ qs.map ExchangeAction.call, s.Faithful E a := by
  intro a ha
  obtain ⟨q, hq, rfl⟩ := List.mem_map.1 ha
  rintro ⟨req, hreq, -⟩
  exact h q hq req hreq

/-- A deposit is in the slice, an ask is put after it, and in the next life half of it is bought. -/
theorem Runs.issuedOnce_sampleAfter : ∃ s : Exchange, s.engine.IssuesInTurn releaseEnv s.messages ∧
    orderIds s.messages = [1, 2] ∧ tradeIds s.messages = [1] := by
  let asks := [requestAt 100 bob (.orderPut (limitOrder .ask "2" "100"))]
  have h : ((createController sampleSettings).toOption >>= fun b =>
      Guarded.follow (Exchange.step releaseEnv sampleSettings) (start b)
        ([requestAt 0 bob (depositOf "ETH" 1 "10")].map .call) >>= fun s₁ =>
      s₁.step releaseEnv sampleSettings (.slice 90) >>= fun s₂ =>
      Guarded.follow (Exchange.step releaseEnv sampleSettings) s₂ (asks.map .call) >>= fun s₃ =>
      s₃.step releaseEnv sampleSettings (.restart 2 100) >>= fun s₄ =>
      Guarded.follow (Exchange.step releaseEnv sampleSettings) s₄ (sampleAfter.map .call) >>=
        fun s =>
      pure ((s₁.db.ordersOf 90).length, (s₁.db.balancesOf 90).length, s₃.engine.logHandler.length,
        orderIds s.messages, tradeIds s.messages)) = some (0, 0, 2, [1, 2],
        [1]) := by decide +kernel
  cases hb : createController sampleSettings with
  | error e =>
    rw [hb] at h
    cases h
  | ok b =>
    rw [hb] at h
    simp only [Except.toOption, Option.bind_eq_bind, Option.bind_some, Option.bind_eq_some_iff,
      Option.pure_def,
      Option.some.injEq, Prod.mk.injEq, List.length_eq_zero_iff] at h
    obtain ⟨s₁, h₁, s₂, h₂, s₃, h₃, s₄, h₄, s, h₅, horders, hbalances, hlength, hids, htrades⟩ := h
    have hfree : s₁.Faithful releaseEnv (.slice 90) := Database.Free.agrees ⟨horders, hbalances⟩ _
    have hstored : s₃.Faithful releaseEnv (.restart 2 100) := hlength.le
    have hfirst : Guarded.Runs (Exchange.step releaseEnv sampleSettings)
        (Exchange.Faithful releaseEnv) (start b) s₁ :=
      Guarded.follow_runs (faithful_calls (by simp [requestAt, depositOf])) h₁
    have hafter := (hfirst.step hfree h₂).trans
      (Guarded.follow_runs (faithful_calls (by simp [asks, requestAt])) h₃)
    have hlast := (hafter.step hstored h₄).trans
      (Guarded.follow_runs (faithful_calls (by simp [sampleAfter, requestAt, depositOf])) h₅)
    exact ⟨s, Runs.issuedOnce hb hlast, hids, htrades⟩

/-- The batch that fails after its first order took effect, the process that ends with all rows
stored, and an order that is put in the next one. -/
def spilled : List ExchangeAction :=
  [.call (requestAt 0 bob (depositOf "ETH" 1 "10")), .call spillingBatch, .restart 1 100,
    .call (requestAt 101 bob (.orderPut (limitOrder .ask "2" "100")))]

/-- The order is given the id of the order that the batch had put. -/
theorem not_issuedOnce : ¬ ∀ settings b s, createController settings = .ok b →
    Guarded.Runs (Exchange.step releaseEnv settings) (fun _ _ => True) (start b) s →
    IssuedInTurn (orderIds s.messages) s.engine.sequencer.orderId := by
  intro hall
  have h : ((createController sampleSettings).toOption >>= fun b =>
      Guarded.follow (Exchange.step releaseEnv sampleSettings) (start b) spilled >>= fun s =>
      pure (orderIds s.messages)) = some [1, 1] := by decide +kernel
  cases hb : createController sampleSettings with
  | error e =>
    rw [hb] at h
    cases h
  | ok b =>
    rw [hb] at h
    simp only [Except.toOption, Option.bind_eq_bind, Option.bind_some, Option.bind_eq_some_iff,
      Option.pure_def,
      Option.some.injEq] at h
    obtain ⟨s, hs, hids⟩ := h
    have hturn := (hall _ b s hb (Guarded.follow_runs (fun _ _ _ => trivial) hs)).1
    rw [hids] at hturn
    simp at hturn

end Exchange

end Dingir
