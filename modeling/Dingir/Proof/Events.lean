import Dingir.Spec.Sample
import Dingir.Proof.Relay
import Dingir.Proof.Telling

/-!
# The messages behind a state

`Controller.Told`: the story tells the orders that rest in all markets. A move, a
call and a restart keep it (`Moves.told`, `call_told`, `History.told`), and what
the messages say of the orders follows from the coherence of their stream:

- `createController_retold`: the messages determine the book;
- `createController_lifeCycle`: every order lives one life, and becomes one row;
- `History.accounted`: every order is filled by the trades that name it.
-/

namespace Dingir

open Keyed Outcome Market Stream

variable {E : Env} {settings : Settings} {now : Timestamp} {real : Bool} {u : Uuid} {w : Prop}
  {A : Market → Ctx → OrderInput → Prop} {b c c' c₁ : Controller} {s : Story} {ms : List Message}
  {o : Order}

/-- The order rests in one of the markets. -/
def Controller.Rests (c : Controller) (id : ℕ) (o : Order) : Prop :=
  ∃ name m, c.markets.find? name = some m ∧ m.resting id = some o

/-- **The story tells the resting orders.** -/
structure Controller.Told (c : Controller) (s : Story) : Prop where
  last : s.last = c.sequencer.orderId
  book : ∀ id t, s.book id = some t ↔ ∃ o, c.Rests id o ∧ o.told = t

namespace Controller.Told

/-- The story depends on the markets and on the ids. -/
theorem congr (h : c.Told s) (hm : c'.markets = c.markets)
    (hid : c'.sequencer.orderId = c.sequencer.orderId) : c'.Told s := by
  refine ⟨h.last.trans hid.symm, fun id t => ?_⟩
  unfold Controller.Rests
  rw [hm]
  exact h.book id t

/-- A desk of one market tells its orders; those of the other markets are told besides. -/
theorem desk (h : c.Told s) (hc : ControllerOK b c) {name : String} {m : Market}
    (hm : c.markets.find? name = some m) :
    Desk.Told ⟨m, c.ctx real, none⟩ (fun id => if (m.resting id).isSome then none else s.book id)
      s := by
  refine ⟨h.last, fun id => ?_, fun id hid => ?_⟩
  · show s.book id =
      ((m.resting id).map Order.told).or (if (m.resting id).isSome then none else s.book id)
    cases ho : m.resting id with
    | none => rfl
    | some o => exact (h.book id o.told).2 ⟨o, ⟨name, m, hm, ho⟩, rfl⟩
  · have hid : (if (m.resting id).isSome then none else s.book id).isSome := hid
    split at hid
    · simp at hid
    · rename_i hnone
      obtain ⟨t, ht⟩ := Option.isSome_iff_exists.1 hid
      obtain ⟨o, ⟨name', m', hm', ho⟩, -⟩ := (h.book id t).1 ht
      refine ⟨?_, ((hc.desk name' m' hm').2 real).ids id o ho⟩
      show m.resting id = none
      simpa using hnone

/-- A market put back tells what its desk told. -/
theorem withMarket (h : c.Told s) (hc : ControllerOK b c) {name : String} {m m' : Market} {x' : Ctx}
    {s' : Story} (hm : c.markets.find? name = some m)
    (hd : Desk.Told ⟨m', x', none⟩ (fun id => if (m.resting id).isSome then none else s.book id)
      s') :
    (c.withMarket name m' x').Told s' := by
  have hfind := Controller.find?_withMarket c name
  refine ⟨hd.last, fun id t => ?_⟩
  have hbook : s'.book id = ((m'.resting id).map Order.told).or
      (if (m.resting id).isSome then none else s.book id) := hd.book id
  have hapart : (if (m.resting id).isSome then none else s.book id).isSome → m'.resting id = none :=
    fun hsome => (hd.apart id hsome).1
  constructor
  · intro ht
    rw [hbook] at ht
    cases ho : m'.resting id with
    | some o =>
      rw [ho] at ht
      have hfound :
          (c.withMarket name m' x').markets.find? name = some m' := by rw [hfind, if_pos rfl]
      exact ⟨o, ⟨name, m', hfound, ho⟩, Option.some.inj ht⟩
    | none =>
      rw [ho] at ht
      have ht : (if (m.resting id).isSome then none else s.book id) = some t := ht
      split at ht
      · simp at ht
      · rename_i hnone
        obtain ⟨o, ⟨name', m₁, hm₁, ho₁⟩, hot⟩ := (h.book id t).1 ht
        have hne : name' ≠ name := by
          rintro rfl
          obtain rfl : m = m₁ := Option.some.inj (hm.symm.trans hm₁)
          simp [ho₁] at hnone
        exact ⟨o, ⟨name', m₁, by rw [hfind, if_neg hne]; exact hm₁, ho₁⟩, hot⟩
  · rintro ⟨o, ⟨name', m₁, hm₁, ho₁⟩, rfl⟩
    rw [hbook]
    rw [hfind] at hm₁
    split at hm₁
    · obtain rfl := Option.some.inj hm₁
      rw [ho₁]
      rfl
    · rename_i hne
      have hnone : m.resting id = none := by
        cases ho : m.resting id with
        | none => rfl
        | some p => exact absurd (hc.disjoint name' name m₁ m id o p hm₁ hm ho₁ ho) hne
      have hold : s.book id = some o.told := (h.book id o.told).2 ⟨o, ⟨name', m₁, hm₁, ho₁⟩, rfl⟩
      rw [hnone, hold] at hapart ⊢
      rw [hapart rfl]
      rfl

end Controller.Told

/-! ## Moves and calls -/

/-- A real move tells what it does. -/
theorem Move.told (h : Move E now true u w A c c') (hc : ControllerOK b c) (hs : c.Told s) :
    ∃ new, c'.persistor = c.persistor ++ new ∧ Coherent Story.rules s new ∧
      c'.Told (after Story.rules s new) := by
  cases h with
  | @market name m m' x' hm hsteps =>
    obtain ⟨new, hp, hcoh, htold⟩ := hsteps.told ((hc.desk _ _ hm).2 true) rfl (hs.desk hc hm)
    have hp : x'.persistor = .real (c.persistor ++ new) := hp
    refine ⟨new, ?_, hcoh, hs.withMarket hc hm htold⟩
    unfold Controller.withMarket Controller.withCtx
    rw [hp]
  | @update p x' _ _ _ _ ha =>
    obtain ⟨bs, hbs, hall, -⟩ := persistUpdate_balances ha.persistor c.persistor rfl
    obtain ⟨hcoh, hafter⟩ := Story.balances (s := s) hall
    refine ⟨bs, ?_, hcoh, ?_⟩
    · unfold Controller.withCtx
      rw [hbs]
    · rw [hafter]
      exact hs.congr rfl (congrArg Sequencer.orderId ha.sequencer)

/-- Markets that differ in times only have one story. -/
theorem Controller.Twin.told {Q : Pairing} {r : Controller} (h : c.Twin Q r)
    (hs : r.Told s) : c.Told s := by
  have htold : ∀ {p p' : Order}, p.Twin p' → p'.told = p.told := by
    rintro p p' ⟨a, e, rfl⟩
    rfl
  refine ⟨hs.last.trans h.orderId, fun id t => (hs.book id t).trans ⟨?_, ?_⟩⟩
  · rintro ⟨o', ⟨name, m', hm', ho'⟩, rfl⟩
    have hrel := h.markets name
    rw [hm'] at hrel
    generalize hfound : c.markets.find? name = found at hrel
    cases hrel with
    | @some m _ hmm =>
      have hrest := hmm.resting id
      rw [ho'] at hrest
      generalize ho : m.resting id = oo at hrest
      cases hrest with
      | some htwin => exact ⟨_, ⟨name, m, hfound, ho⟩, (htold htwin).symm⟩
  · rintro ⟨o, ⟨name, m, hm, ho⟩, rfl⟩
    obtain ⟨m', hm', hmm⟩ := h.some hm
    have hrest := hmm.resting id
    rw [ho] at hrest
    generalize ho' : m'.resting id = oo at hrest
    cases hrest with
    | some htwin => exact ⟨_, ⟨name, m', hm', ho'⟩, htold htwin⟩

/-- A blank controller that has issued no id has nothing to tell. -/
theorem Controller.Blank.told (h : c.Blank)
    (hid : c.sequencer.orderId = 0) : c.Told Story.empty := by
  refine ⟨hid.symm, fun id t => ⟨fun ht => by simp [Story.empty] at ht, ?_⟩⟩
  rintro ⟨o, ⟨name, m, hm, ho⟩, -⟩
  rw [(h.markets name m hm).resting] at ho
  simp at ho

/-- A loaded slice tells what the dumped state told. -/
theorem Controller.Told.load (h : c.Told s) (hbooks : SameBooks c c₁) :
    (c₁.withCounters c.dump.history).Told s := by
  refine ⟨h.last, fun id t => (h.book id t).trans ⟨?_, ?_⟩⟩
  · rintro ⟨o, ⟨name, m, hm, ho⟩, rfl⟩
    obtain ⟨m', hm', -, -, hrest⟩ := hbooks.markets name m hm
    exact ⟨o, ⟨name, m', hm', (hrest id).trans ho⟩, rfl⟩
  · rintro ⟨o, ⟨name, m', hm', ho⟩, rfl⟩
    obtain ⟨m, hm⟩ := Option.isSome_iff_exists.1 (hbooks.only name m' hm')
    obtain ⟨m'', hm'', -, -, hrest⟩ := hbooks.markets name m hm
    obtain rfl : m' = m'' := Option.some.inj (hm'.symm.trans hm'')
    exact ⟨o, ⟨name, m, hm, (hrest id).symm.trans ho⟩, rfl⟩

/-- **The book is told by the messages**, over a call and over a restart. -/
theorem retells_told : Retells E b Story.rules Story.empty Controller.Told where
  move := Move.told
  congr := fun hs hm _ hid _ => hs.congr hm hid
  quiet := Story.balance
  books := fun hs hm hid _ => hs.congr hm hid
  twin := Controller.Twin.told
  blank := fun hblank hid _ => hblank.told hid
  load := Controller.Told.load

/-- **Real moves tell what they do.** -/
theorem Moves.told (h : Moves E now true u w A c c') (hc : ControllerOK b c) (hs : c.Told s) :
    ∃ new, c'.persistor = c.persistor ++ new ∧ Coherent Story.rules s new ∧
      c'.Told (after Story.rules s new) :=
  retells_told.toRelays.moves h hc hs

/-- What a real call tells is what it hands to the persistor. -/
theorem call_told_real {q : Request} {reply : Except Status Response} (hc : ControllerOK b c)
    (hs : c.Told s) (hreal : q.real = true) (h : c.call E q = .ok (reply, c')) :
    c'.persistor = c.persistor ++ c.tells E q ∧ Coherent Story.rules s (c.tells E q) ∧
      c'.Told (after Story.rules s (c.tells E q)) :=
  retells_told.toRelays.call hc hs hreal h

/-- **Every call, real or replayed, changes the book as the messages tell it**; an order it hands
out is one its real twin hands out. -/
theorem call_told {q : Request} {reply : Except Status Response} (hc : ControllerOK b c)
    (hf : Filtered (fun _ => True) (c.ctx true)) (hs : c.Told s)
    (h : c.call E q = .ok (reply, c')) :
    Coherent Story.rules s (c.tells E q) ∧ c'.Told (after Story.rules s (c.tells E q)) ∧
      ∀ o, reply = .ok (.orderInfo o) → ∃ o' c'', o'.told = o.told ∧
        c.call E { q with real := true } = .ok (.ok (.orderInfo o'), c'') := by
  obtain ⟨hcoh, htold⟩ := retells_told.call hc hf hs h
  refine ⟨hcoh, htold, ?_⟩
  rintro o rfl
  by_cases hq : q.operation.Updates
  · obtain ⟨now, available, real, user, op⟩ := q
    cases op with
    | balanceUpdate req =>
      rcases Controller.updateBalance_cases h with ⟨⟨st, hst⟩, -⟩ | ⟨hreply, -⟩
      · simp at hst
      · simp at hreply
    | _ => exact hq.elim
  · have htwin := Controller.Twin.refl (by rw [hc.capacity]; decide) hf
    obtain ⟨reply', r, hr, -, hsame, htr⟩ :=
      Controller.call_twin (τ := q.now) (ρ := true) (Pairing.exact_ok _) htwin hq h
    obtain ⟨o', rfl, ho⟩ := hsame o rfl
    refine ⟨o', r, ?_, hr⟩
    obtain ⟨a, e, rfl⟩ := ho
    rfl

/-! ## Orders handed out -/

/-- **An order that is put for real** is told, and comes to rest or is finished. -/
theorem putOrder_told {m m' : Market} {x x' : Ctx} {input : OrderInput} {others : ℕ → Option Order}
    (hd : DeskOK ⟨m, x, none⟩) (hp : x.persistor = .real ms) (hs : Desk.Told ⟨m, x, none⟩ others s)
    (h : m.putOrder E now x input u = .ok (.ok o, m', x')) :
    ∃ new, x'.persistor = .real (ms ++ new) ∧ Coherent Story.rules s new ∧
      Desk.Told ⟨m', x', none⟩ others (after Story.rules s new) ∧
      (m'.resting o.id = some o ∨ Message.orderMessage (.fromOrder o .finish) ∈ new) := by
  have hcheck := putOrder_input h
  unfold putOrder at h
  rw [hcheck] at h
  simp only [bind_ok, pure_ok, Prod.mk.injEq, Except.ok.injEq] at h
  obtain ⟨ql, hql, ⟨o, m', x'⟩, hex, rfl, rfl, rfl⟩ := h
  have haccept : Step E now u AnyOrder ⟨m, x, none⟩ _ := Step.accept trivial hcheck hql
  have hstart := haccept.deskOK hd
  obtain ⟨d, hworks, hend⟩ := executeOrder_ends (u := u) (A := AnyOrder)
    (x := { x with sequencer := x.sequencer.nextOrderId.2 }) (hd.quiet rfl) hstart hex
  have hsteps : Steps E now u AnyOrder ⟨m, x, none⟩ d :=
    Relation.ReflTransGen.head haccept hworks.steps
  have hok := hsteps.deskOK hd
  obtain ⟨new, hpd, hcoh, htold⟩ := hsteps.told hd hp hs
  have hlast : Step E now u AnyOrder d ⟨m', x', none⟩ := hend.step
  obtain ⟨new', hp', hcoh', htold'⟩ := hlast.told hok hpd htold
  refine ⟨new ++ new', by rw [hp', List.append_assoc],
    coherent_append.2 ⟨hcoh, hcoh'⟩, by rw [after_append]; exact htold', ?_⟩
  cases hend with
  | @closed _ x₁ k hq =>
    have hpd : x₁.persistor = .real (ms ++ new) := hpd
    have hp' : x₁.persistor.putOrder k.order .finish = .real (ms ++ new ++ new') := hp'
    rw [hpd] at hp'
    have hnew : ms ++ new ++ [.orderMessage (.fromOrder k.order .finish)] = ms ++ new ++ new' :=
      PersistExector.real.inj hp'
    rw [← List.append_cancel_left hnew]
    exact .inr (by simp)
  | @rests m₁ x₁ k bm hq hlim hopen hfreeze hclear =>
    refine .inl ?_
    rw [resting_withRest hok.index, if_pos rfl]

/-- A cancelled order is finished. -/
theorem cancel_told {m m' : Market} {x x' : Ctx} {id : ℕ} (hp : x.persistor = .real ms)
    (h : m.cancel E x id = .ok (o, m', x')) :
    x'.persistor = .real (ms ++ [.orderMessage (.fromOrder o .finish)]) := by
  simp only [cancel, bind_ok, pure_ok, Prod.mk.injEq] at h
  obtain ⟨p, -, ⟨m₁, x₁⟩, hfin, rfl, rfl, rfl⟩ := h
  obtain ⟨-, bm, -, rfl⟩ := orderFinish_ok hfin
  show x.persistor.putOrder _ .finish = _
  rw [hp]
  rfl

/-- **An order in the reply to a real call** rests, or its finish was told. -/
theorem orderInfo_told {q : Request} (hc : ControllerOK b c) (hs : c.Told s) (hreal : q.real = true)
    (h : c.call E q = .ok (.ok (.orderInfo o), c')) :
    c'.Rests o.id o ∨ Message.orderMessage (.fromOrder o .finish) ∈ c.tells E q := by
  obtain ⟨hp, -⟩ := call_told_real hc hs hreal h
  have hmem : ∀ {new : List Message}, c'.persistor = c.persistor ++ new → c.tells E q = new :=
    fun hnew =>
    List.append_cancel_left (hp.symm.trans hnew)
  obtain ⟨now, available, real, user, op⟩ := q
  obtain rfl : real = true := hreal
  cases op with
  | balanceUpdate req =>
    rcases Controller.updateBalance_cases h with ⟨⟨st, hst⟩, -⟩ | ⟨hreply, -⟩
    · simp at hst
    · simp at hreply
  | batchOrderPut req => exact absurd rfl (batchOrderPut_reply h o)
  | orderCancelAll req => exact absurd rfl (orderCancelAll_reply h o)
  | orderCancel req =>
    rcases orderCancel_cases h with ⟨⟨st, hst⟩, -⟩ |
      ⟨m, rc, o', m', x', hm, hrc, hu, hcancel, hreply, rfl⟩
    · simp at hst
    obtain rfl : o = m.rcs.read rc := by simpa using hreply
    have hd := (hc.desk _ _ hm).2 true
    obtain ⟨ho, -⟩ : m.resting (m.rcs.read rc).id = some o' ∧
        Steps E now o'.user AnyOrder ⟨m, c.ctx true, none⟩ ⟨m', x', none⟩ :=
      cancel_steps hd hcancel
    have hrest : m.resting (m.rcs.read rc).id = some (m.rcs.read rc) :=
      resting_some.2 ⟨rc, by rw [hd.index.ownId _ _ hrc]; exact hrc, rfl⟩
    obtain rfl : m.rcs.read rc = o' := Option.some.inj (hrest.symm.trans ho)
    have hx : x'.persistor = .real (c.persistor ++
        [.orderMessage (.fromOrder (m.rcs.read rc) .finish)]) := cancel_told rfl hcancel
    obtain ⟨sq, l, hl, -⟩ :=
      logged_eq (c.withMarket req.market m' x') now true (.orderCancel req) user
    rw [hl] at hmem
    have hnew : (c.withMarket req.market m' x').persistor = c.persistor ++
        [.orderMessage (.fromOrder (m.rcs.read rc) .finish)] := by
      unfold Controller.withMarket Controller.withCtx
      rw [hx]
    rw [hmem hnew]
    exact .inr (by simp)
  | orderPut req =>
    simp only [Controller.call, Controller.orderPut] at h
    split at h
    · simp [pure_ok] at h
    obtain ⟨⟨r, c₁⟩, hput, h⟩ := bind_ok.1 h
    cases r with
    | error st => simp [pure_ok] at h
    | ok order =>
      simp only [pure_ok, Prod.mk.injEq, Except.ok.injEq, Response.orderInfo.injEq] at h
      obtain ⟨rfl, rfl⟩ := h
      rcases Controller.putOrder_cases hput with ⟨⟨st, hst⟩, -⟩ |
        ⟨o, m, input, m', x', ho, hm, hin, hmput, rfl⟩
      · simp at hst
      obtain rfl := Except.ok.inj ho
      obtain ⟨new, hx, -, -, hends⟩ :=
        putOrder_told ((hc.desk _ _ hm).2 true) rfl (hs.desk hc hm) hmput
      obtain ⟨sq, l, hl, -⟩ :=
        logged_eq (c.withMarket req.market m' x') now true (.orderPut req) user
      rw [hl] at hmem ⊢
      have hnew : (c.withMarket req.market m' x').persistor = c.persistor ++ new := by
        unfold Controller.withMarket Controller.withCtx
        rw [hx]
      rw [hmem hnew]
      refine hends.imp (fun hrest => ⟨req.market, m', ?_, hrest⟩) id
      exact (Controller.find?_withMarket c req.market req.market m' x').trans (if_pos rfl)

/-! ## The history of a state -/

/-- A controller whose messages are `ms`. -/
structure Chronicle (b c : Controller) (ms : List Message) : Prop where
  ok : ControllerOK b c
  filtered : Filtered (fun _ => True) (c.ctx true)
  coherent : Coherent Story.rules Story.empty ms
  told : c.Told (retold ms)

/-- **The messages behind a state tell it.** -/
theorem History.told (h : History E settings c ms) :
    ∃ b, createController settings = .ok b ∧ Chronicle b c ms := by
  obtain ⟨b, hb, hok, hf⟩ := h.ok
  obtain ⟨hcoh, htold⟩ := Retells.history (fun _ => retells_told) h
  exact ⟨b, hb, hok, hf, hcoh, htold⟩

/-- Every reachable state has a history. -/
theorem Reachable.history (h : Reachable E settings c) : ∃ ms, History E settings c ms := by
  induction h with
  | init hb => exact ⟨[], .init hb⟩
  | call _ hcall ih =>
    obtain ⟨ms, hms⟩ := ih
    exact ⟨_, hms.call hcall⟩
  | reset _ ih =>
    obtain ⟨ms, hms⟩ := ih
    exact ⟨[], hms.reset⟩
  | @restart c d b' c' slice now log _ _ hstart hslice hrun ihc ihd =>
    obtain ⟨ms, hms⟩ := ihc
    obtain ⟨ms', hms'⟩ := ihd
    have hlog : ∀ {c₀ : Controller} {start : ℕ}, (∃ ms, History E settings c₀ ms) →
        c₀.loadOperationLog E now log start = .ok c' → ∃ ms, History E settings c' ms := fun h₀ =>
      loadOperationLog_rule (P := fun e => ∃ ms, History E settings e ms)
        (fun e q reply e' ⟨ms, he⟩ hcall => ⟨_, he.call hcall⟩)
        (fun e id ⟨ms, he⟩ => ⟨ms, he.logId⟩) h₀
    rcases hslice with rfl | rfl
    · refine hlog ?_ hrun
      rcases hstart with hnew | rfl
      · exact ⟨[], .init hnew⟩
      · exact ⟨[], hms'.reset⟩
    · simp only [Controller.initFromDb, bind_ok] at hrun
      obtain ⟨c₁, hload, hrun⟩ := hrun
      exact hlog ⟨ms, .load hms hms' hstart hload⟩ hrun

/-- Real calls lead from a new controller to a state whose messages the persistor holds. -/
theorem Chronicle.calls {qs : List Request} {replies : List (Except Status Response)}
    (h : Chronicle b c c.persistor) (hreal : ∀ q ∈ qs, q.real = true)
    (hcalls : c.calls E qs = .ok (replies, c')) : Chronicle b c' c'.persistor := by
  refine Controller.calls_rule (P := fun c => Chronicle b c c.persistor) ?_ h
    (Controller.along_of hreal c) hcalls
  intro c c' q reply h hreal hcall
  obtain ⟨hp, hcoh, hs⟩ := call_told_real h.ok h.told hreal hcall
  refine ⟨call_ok h.ok hcall, call_filtered h.ok h.filtered hcall, ?_, ?_⟩
  · rw [hp]
    exact coherent_append.2 ⟨h.coherent, hcoh⟩
  · unfold retold
    rw [hp, after_append]
    exact hs

theorem createController_chronicle {qs : List Request} {replies : List (Except Status Response)}
    (hcreate : createController settings = .ok b) (hreal : ∀ q ∈ qs, q.real = true)
    (hcalls : b.calls E qs = .ok (replies, c)) : Chronicle b c c.persistor := by
  obtain ⟨hok, hblank, -⟩ := createController_ok hcreate
  have hstart : Startable settings b b := .inl hcreate
  have hempty := (createController_begun hcreate).persistor
  refine Chronicle.calls ⟨hok, .of_empty hstart.empty, ?_, ?_⟩ hreal hcalls
  · rw [hempty]; trivial
  · rw [hempty]; exact hblank.told (createController_counters hcreate).1

/-! ## What the messages determine -/

/-- **The messages determine the book.** After any real calls on an empty engine the
messages tell exactly the resting orders, and each update or finish carried its
order as the messages before it told it. -/
theorem createController_retold {qs : List Request} {replies : List (Except Status Response)}
    (hcreate : createController settings = .ok b) (hreal : ∀ q ∈ qs, q.real = true)
    (hcalls : b.calls E qs = .ok (replies, c)) :
    (∀ id t, (retold c.persistor).book id = some t ↔ ∃ o, c.Rests id o ∧ o.told = t) ∧
      ∀ pre m post, c.persistor = pre ++ .orderMessage m :: post → m.event = .update ∨
        m.event = .finish →
        (retold pre).book m.order.id = some m.order.told := by
  have hchron := createController_chronicle hcreate hreal hcalls
  refine ⟨hchron.told.book, fun pre m post hms hevent => ?_⟩
  have hcoh := hchron.coherent
  rw [hms] at hcoh
  obtain ⟨-, hadmits, -⟩ := hcoh.split
  rcases hevent with hevent | hevent
  · exact (Story.admits_order hevent).1 hadmits
  · exact (Story.admits_order hevent).1 hadmits

/-- An ask of two, and a bid of one that takes half of it. -/
def sampleHalf : List Request :=
  [requestAt 0 bob (depositOf "ETH" 1 "10"), requestAt 0 alice (depositOf "USDT" 2 "1000"),
    requestAt 1 bob (.orderPut (limitOrder .ask "2" "100")),
    requestAt 2 alice (.orderPut (limitOrder .bid "1" "100"))]

theorem createController_retold_sampleHalf :
    ∃ (c : Controller) (o : Order), c.Rests 1 o ∧ o.remain = 1 ∧
    (retold c.persistor).book 1 = some o.told := by
  have h : (sampleRun releaseEnv sampleHalf >>=
      fun c => unwrap .marketName (c.markets.find? "ETH_USDT") >>= fun m =>
      unwrap .lookup (m.resting 1) >>= fun o => pure o.remain) = (.ok 1 :
        Except Panic Decimal) := by decide +kernel
  simp only [bind_ok, pure_ok, unwrap_ok] at h
  obtain ⟨c, hc, m, hm, o, ho, hremain⟩ := h
  obtain ⟨b, replies, hcreate, hcalls⟩ := sampleRun_ok hc
  have hrests : c.Rests 1 o := ⟨"ETH_USDT", m, hm, ho⟩
  obtain ⟨hbook, -⟩ := createController_retold hcreate (by simp [sampleHalf, requestAt]) hcalls
  exact ⟨c, o, hrests, hremain, (hbook 1 o.told).2 ⟨o, hrests, rfl⟩⟩

/-- **Every order lives one life**, and becomes one row of `order_history` when it is over. -/
theorem createController_lifeCycle {qs : List Request} {replies : List (Except Status Response)}
    (hcreate : createController settings = .ok b) (hreal : ∀ q ∈ qs, q.real = true)
    (hcalls : b.calls E qs = .ok (replies, c)) {id : ℕ} (hpos : 0 < id)
    (hle : id ≤ c.sequencer.orderId) : LifeCycle c.persistor id (∃ o, c.Rests id o) := by
  have hchron := createController_chronicle hcreate hreal hcalls
  have hissued : id ≤ (retold c.persistor).last := by
    rw [hchron.told.last]
    exact hle
  have hresting : ((retold c.persistor).book id).isSome = true ↔ ∃ o, c.Rests id o := by
    rw [Option.isSome_iff_exists]
    constructor
    · rintro ⟨t, ht⟩
      obtain ⟨o, ho, -⟩ := (hchron.told.book id t).1 ht
      exact ⟨o, ho⟩
    · rintro ⟨o, ho⟩
      exact ⟨o.told, (hchron.told.book id o.told).2 ⟨o, ho, rfl⟩⟩
  have hlife := lifeCycle hchron.coherent hpos hissued
  rwa [propext hresting] at hlife

/-- The bid is filled: its one row says so. -/
theorem createController_lifeCycle_sampleHalf : ∃ c : Controller, ¬ (∃ o, c.Rests 2 o) ∧
    LifeCycle c.persistor 2 (∃ o, c.Rests 2 o) := by
  have h : (sampleRun releaseEnv sampleHalf >>= fun c =>
      pure (c.sequencer.orderId,
        ((orderHistoryRows c.persistor).filter (·.id = 2)).map OrderHistory.status)) =
      (.ok (2, [.filled]) : Except Panic (ℕ × List OrderStatus)) := by decide +kernel
  simp only [bind_ok, pure_ok, Prod.mk.injEq] at h
  obtain ⟨c, hc, hid, hrow⟩ := h
  obtain ⟨b, replies, hcreate, hcalls⟩ := sampleRun_ok hc
  have hlife : LifeCycle c.persistor 2 _ :=
    createController_lifeCycle hcreate (by simp [sampleHalf, requestAt]) hcalls (by decide) hid.ge
  refine ⟨c, fun hrests => ?_, hlife⟩
  rw [hlife.unfinishedRow hrests] at hrow
  simp at hrow

/-- **Every order is accounted for**: at rest, carried by a message, in a reply, or handed out
by a put for real. -/
theorem History.accounted (h : History E settings c ms) :
    (∀ id o, c.Rests id o → o.Accounted ms) ∧
      (∀ pre m post, ms = pre ++ m :: post → ∀ o ∈ m.orders, o.Accounted (toldUpTo pre m)) ∧
      ∀ q, (∀ o c', c.call E q = .ok (.ok (.orderInfo o), c') → o.Accounted (ms ++ c.tells E q)) ∧
        (q.real = true → c.EachPut E (PutAccounted E q.now q.user c.persistor ms) q) := by
  obtain ⟨b, -, hok, hf, hcoh, hs⟩ := h.told
  have hrests : ∀ {c : Controller} {ms : List Message} {id : ℕ} {o : Order},
      Coherent Story.rules Story.empty ms →
      c.Told (retold ms) → c.Rests id o → o.Accounted ms := by
    intro c ms id o hcoh hs ho
    exact ((retold_ok hcoh).opened id o.told ((hs.book id o.told).2 ⟨o, ho, rfl⟩)).2.2.of_told
  refine ⟨fun id o ho => hrests hcoh hs ho, fun pre m post hms o ho => ?_,
    fun q => ⟨fun o c' hcall => ?_, fun hreal => ?_⟩⟩
  · rw [hms] at hcoh
    exact accounted_of_carried hcoh ho
  · obtain ⟨hcoh', -, hreply⟩ := call_told hok hf hs hcall
    obtain ⟨o', c'', htold, hcall'⟩ := hreply o rfl
    have hcoh'' : Coherent Story.rules Story.empty (ms ++ c.tells E q) :=
      coherent_append.2 ⟨hcoh, hcoh'⟩
    obtain ⟨-, -, hs'⟩ := call_told_real hok hs rfl hcall'
    have hacc : o'.Accounted (ms ++ c.tells E q) := by
      rcases orderInfo_told hok hs rfl hcall' with hrest | hfin
      · refine hrests hcoh'' ?_ hrest
        unfold retold
        rw [after_append]
        exact hs'
      · exact accounted_of_finish hcoh'' (List.mem_append_right _ hfin) rfl
    exact (Order.accounted_congr htold).1 hacc
  · refine eachPut_of (P := fun e => ∃ new, e.persistor = c.persistor ++ new ∧
      Coherent Story.rules (retold ms) new ∧
      e.Told (after Story.rules (retold ms) new)) hok ⟨[], by simp, trivial, hs⟩ ?_ ?_
    · rintro e e' he ⟨new, hp, hcoh', hs'⟩ hmoves
      rw [hreal] at hmoves
      obtain ⟨new', hp', hcoh'', hs''⟩ := hmoves.told he hs'
      refine ⟨new ++ new', by rw [hp', hp, List.append_assoc], coherent_append.2 ⟨hcoh', hcoh''⟩,
        ?_⟩
      rw [after_append]
      exact hs''
    · rintro e name m input he ⟨new, hp, hcoh', hs'⟩ hm o m' x' new' hput hx'
      rw [hreal] at hput
      have hborrowed : (e.ctx true).persistor = .real (c.persistor ++ new) := by
        rw [← hp]
        rfl
      obtain ⟨new'', hx, hcoh'', hs'', hends⟩ :=
        putOrder_told ((he.desk _ _ hm).2 true) hborrowed (hs'.desk he hm) hput
      have hall : new' = new ++ new'' := by
        rw [hx, List.append_assoc] at hx'
        exact (List.append_cancel_left (PersistExector.real.inj hx')).symm
      have hcohAll : Coherent Story.rules Story.empty (ms ++ new') := by
        rw [hall]
        exact coherent_append.2 ⟨hcoh, coherent_append.2 ⟨hcoh', hcoh''⟩⟩
      rcases hends with hrest | hfin
      · have hstory : (e.withMarket name m' x').Told (retold (ms ++ new')) := by
          unfold retold
          rw [hall, after_append, after_append]
          exact hs'.withMarket he hm hs''
        have hfound : (e.withMarket name m' x').markets.find? name = some m' :=
          (Controller.find?_withMarket e name name m' x').trans (if_pos rfl)
        exact hrests hcohAll hstory ⟨name, m', hfound, hrest⟩
      · have hmem : Message.orderMessage (.fromOrder o .finish) ∈ ms ++ new' := by
          rw [hall]
          exact List.mem_append_right _ (List.mem_append_right _ hfin)
        exact accounted_of_finish hcohAll hmem rfl

/-- The ask that is left half filled. -/
theorem History.accounted_sampleHalf : ∃ (c : Controller) (ms : List Message) (o : Order),
    History releaseEnv sampleSettings c ms ∧ c.Rests 1 o ∧ o.finishedBase = 1 ∧ o.Accounted ms := by
  have h : (sampleRun releaseEnv sampleHalf >>=
      fun c => unwrap .marketName (c.markets.find? "ETH_USDT") >>= fun m =>
      unwrap .lookup (m.resting 1) >>= fun o => pure o.finishedBase) = (.ok 1 :
        Except Panic Decimal) := by decide +kernel
  simp only [bind_ok, pure_ok, unwrap_ok] at h
  obtain ⟨c, hc, m, hm, o, ho, hbase⟩ := h
  have hreach := sampleRun_reachable hc
  obtain ⟨ms, hms⟩ := hreach.history
  have hrests : c.Rests 1 o := ⟨"ETH_USDT", m, hm, ho⟩
  exact ⟨c, ms, o, hms, hrests, hbase, hms.accounted.1 1 o hrests⟩

end Dingir
