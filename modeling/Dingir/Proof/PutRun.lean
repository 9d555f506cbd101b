import Dingir.Proof.Reach
import Dingir.Proof.Rounds
import Dingir.Proof.Solvency

/-!
# Runs whose orders meet a condition

Along a run whose orders all meet `A`, the resting orders share what the steps of a market keep
(`Keeps`): a property `Q` of the resting orders, together with one, `T`, of the order being put.

- `PutRun.each`: every resting order of such a run has `Q`.
- `PutRun.eachPut`: so has every order on a market that one more order is put on.
- `Keeps.comes`: and that order has `T` whenever it comes to a maker.
- `PutRun.solvent`: no balance is ever negative in a run whose orders have safe signs.
- `Reachable.putRun`: every reachable state ends such a run, for an `A` that all orders meet.
-/

namespace Dingir

open Keyed Outcome Market

variable {E : Env} {settings : Settings} {now : Timestamp} {real : Bool} {u : Uuid} {w : Prop}
  {ql : Decimal} {A B : Market → Ctx → OrderInput → Prop} {Q : Order → Prop}
  {T : Taking → Market → Prop} {m : Market} {x : Ctx} {d d' : Desk} {rc : OrderRc} {s : MatchState}
  {input : OrderInput} {b c c' : Controller}

/-- Every resting order has `Q`, and the order being put has `T`. -/
structure Desk.Each (Q : Order → Prop) (T : Taking → Market → Prop) (d : Desk) : Prop where
  resting : ∀ id o, d.market.resting id = some o → Q o
  taking : ∀ k, d.taking = some k → T k d.market

/-- Every resting order has `Q`. -/
def Controller.Each (Q : Order → Prop) (c : Controller) : Prop :=
  ∀ name m id o, c.markets.find? name = some m → m.resting id = some o → Q o

/-- **The steps of a user whose orders meet `A` keep** what the orders have. -/
def Keeps (E : Env) (u : Uuid) (A : Market → Ctx → OrderInput → Prop) (Q : Order → Prop)
    (T : Taking → Market → Prop) : Prop :=
  ∀ now d d', Step E now u A d d' → DeskOK d → d.Each Q T → d'.Each Q T

/-! ## Steps and rounds -/

theorem Keeps.steps (hkeeps : Keeps E u A Q T) (h : Steps E now u A d d') (hd : DeskOK d)
    (hQ : d.Each Q T) : d'.Each Q T :=
  Steps.rule (P := Desk.Each Q T) (fun a b ha hP hstep => hkeeps now a b hstep ha hP) h hd hQ

/-- A step of orders that meet `A` is one of orders that meet what follows from it. -/
theorem Step.weaken (h : Step E now u A d d')
    (hAB : ∀ m x input, A m x input → B m x input) : Step E now u B d d' := by
  cases h with
  | accept hA hcheck hql => exact .accept (hAB _ _ _ hA) hcheck hql
  | trade hmeet ht => exact .trade hmeet ht
  | finish hstored hfilled => exact .finish hstored hfilled
  | close hquiet => exact .close hquiet
  | rest hquiet hlimit hopen hfreeze hclear => exact .rest hquiet hlimit hopen hfreeze hclear
  | cancel hstored huser hfree => exact .cancel hstored huser hfree

/-- What is done while an order is being tried depends on no condition. -/
theorem Works.any (h : Works E now u A d d') : Works E now u B d d' := by
  induction h with
  | refl => exact .refl
  | tail _ hwork ih =>
    obtain ⟨hstep, htaking, htaking'⟩ := hwork
    refine ih.tail ⟨?_, htaking, htaking'⟩
    cases hstep with
    | accept _ _ _ => cases htaking
    | trade hmeet ht => exact .trade hmeet ht
    | finish hstored hfilled => exact .finish hstored hfilled
    | close _ => cases htaking'
    | rest _ _ _ _ _ => cases htaking'
    | cancel _ _ _ => cases htaking

/-- **Where an order comes to a maker**, all resting orders have `Q`, and the order has `T`. -/
theorem Keeps.comes (hkeeps : Keeps E u A Q T) (hd : DeskOK ⟨m, x, none⟩)
    (hQ : ∀ id o, m.resting id = some o → Q o) (hA : A m x input)
    (h : Comes E now u m x input ql rc s) : (s.desk ql).Each Q T := by
  obtain ⟨done, rest, ts, hrounds, -⟩ := h.rounds hd carried_true
  have haccept : Step E now u A ⟨m, x, none⟩ ((m.putState now x input u).desk ql) :=
    .accept hA h.accepted h.budget
  have hstart : ((m.putState now x input u).desk ql).Each Q T :=
    hkeeps now _ _ haccept hd ⟨hQ, fun k hk => by simp at hk⟩
  have hworks : Works E now u A ((m.putState now x input u).desk ql) (s.desk ql) :=
    hrounds.loop.works.any
  exact hkeeps.steps hworks.steps (putState_ok now hd h.accepted h.budget) hstart

/-! ## Calls -/

theorem Controller.Blank.each (h : c.Blank) : c.Each Q := by
  intro name m id o hm ho
  rw [(h.markets name m hm).resting] at ho
  cases ho

/-- A move keeps what the resting orders have. -/
theorem Keeps.move (hkeeps : Keeps E u A Q T) (h : Move E now real u w A c c')
    (hc : ControllerOK b c) (hQ : c.Each Q) : c'.Each Q := by
  cases h with
  | @market name m m' x' hm hsteps =>
    have hdesk : Desk.Each Q T ⟨m, c.ctx real, none⟩ :=
      ⟨fun id o => hQ name m id o hm, fun k hk => by simp at hk⟩
    have hdesk' := hkeeps.steps hsteps ((hc.desk name m hm).2 real) hdesk
    intro other mo id o hmo ho
    rw [Controller.find?_withMarket] at hmo
    split at hmo
    · obtain rfl := Option.some.inj hmo
      exact hdesk'.resting id o ho
    · exact hQ other mo id o hmo ho
  | update _ _ _ _ _ => exact hQ

theorem Keeps.moves (hkeeps : Keeps E u A Q T) (h : Moves E now real u w A c c')
    (hc : ControllerOK b c) (hQ : c.Each Q) : c'.Each Q := by
  induction h with
  | refl => exact hQ
  | tail hmoves hmove ih => exact hkeeps.move hmove (Moves.ok hmoves hc) ih

/-- **A call whose orders meet `A`** keeps what the resting orders have. -/
theorem Keeps.call {q : Request} {reply : Except Status Response} (hkeeps : Keeps E q.user A Q T)
    (hc : ControllerOK b c) (hQ : c.Each Q) (hput : c.EachPut E A q)
    (h : c.call E q = .ok (reply, c')) : c'.Each Q := by
  obtain ⟨c₁, hmoves, hends⟩ := call_moves_each hc hput h
  have hQ₁ := hkeeps.moves hmoves hc hQ
  cases hends with
  | refused => exact hQ₁
  | logged =>
    obtain ⟨s, l, hl, -, -⟩ := logged_eq c₁ q.now q.real q.operation q.user
    rw [hl]
    exact hQ₁

/-- An order of a batch is put after moves of orders that meet `A`, and meets `A` itself where it is
accepted. -/
theorem Controller.BatchPuts.moves {name : String} {orders : List OrderPutRequest}
    {req : OrderPutRequest} {c₁ : Controller}
    (h : Controller.BatchPuts E now real name u orders c c₁ req) (hc : ControllerOK b c)
    (hA : Controller.BatchAlong E now A real name u orders c) :
    Moves E now real u True A c c₁ ∧ c₁.Admits E A real req u := by
  induction h with
  | here hname => exact ⟨.refl, (hA hname).1⟩
  | next hname hput _ ih =>
    obtain ⟨hfirst, hrest⟩ := hA hname
    have hmoves : Moves E now real u True A _ _ := putOrder_moves hc hfirst hput
    obtain ⟨hafter, hadmits⟩ := ih (hmoves.ok hc) (hrest _ _ hput)
    exact ⟨hmoves.trans hafter, hadmits⟩

/-- **So is every order a request puts.** -/
theorem Controller.Puts.moves {q : Request} {req : OrderPutRequest} {c₁ : Controller}
    (h : c.Puts E q c₁ req) (hc : ControllerOK b c) (hA : c.EachPut E A q) :
    Moves E q.now q.real q.user True A c c₁ ∧ c₁.Admits E A q.real req q.user := by
  unfold Controller.EachPut at hA
  cases h with
  | order hop _ =>
    rw [hop] at hA
    exact ⟨.refl, hA⟩
  | batch hop _ _ hstart hputs =>
    rw [hop] at hA
    have hmoves : Moves E q.now q.real q.user True A c _ := batchStart_moves hc hstart
    obtain ⟨hafter, hadmits⟩ := hputs.moves (hmoves.ok hc) (hA _ hstart)
    exact ⟨hmoves.trans hafter, hadmits⟩

/-! ## Runs -/

/-- **What every step keeps, all resting orders of a run have.** -/
theorem PutRun.each {A : Uuid → Market → Ctx → OrderInput → Prop}
    {T : Uuid → Taking → Market → Prop} (hkeeps : ∀ u, Keeps E u (A u) Q (T u))
    (h : PutRun E settings A c) :
    ∃ b, createController settings = .ok b ∧ ControllerOK b c ∧ c.Each Q := by
  induction h with
  | init hb =>
    obtain ⟨hok, hblank, -⟩ := createController_ok hb
    exact ⟨_, hb, hok, hblank.each⟩
  | call _ hput hcall ih =>
    obtain ⟨b, hb, hc, hQ⟩ := ih
    exact ⟨b, hb, call_ok hc hcall, (hkeeps _).call hc hQ hput hcall⟩
  | reset _ ih =>
    obtain ⟨b, hb, hc, -⟩ := ih
    obtain ⟨hok, hblank⟩ := resetState_ok hc
    exact ⟨b, hb, hok, hblank.each⟩
  | @load c d b' c₁ _ _ hstart hload ihc ihd =>
    obtain ⟨b, hb, hc, hQ⟩ := ihc
    obtain ⟨b₁, hb₁, hd, -⟩ := ihd
    obtain rfl : b = b₁ := Except.ok.inj (hb.symm.trans hb₁)
    obtain ⟨hok, hblank⟩ := hstart.blank hb hd
    obtain ⟨hbooks, -⟩ := loadSlice_dump hc hok hblank hload
    refine ⟨b, hb, loadSlice_ok hc hok hblank hload, fun name m' id o hm' ho => ?_⟩
    -- a loaded order is the one that was dumped
    obtain ⟨m, hm⟩ := Option.isSome_iff_exists.1 (hbooks.only name m' hm')
    obtain ⟨m'', hm'', -, -, hrest⟩ := hbooks.markets name m hm
    obtain rfl : m' = m'' := Option.some.inj (hm'.symm.trans hm'')
    rw [hrest] at ho
    exact hQ name m id o hm ho
  | recovered id _ ih =>
    obtain ⟨b, hb, hc, hQ⟩ := ih
    exact ⟨b, hb, hc.setOperationLogId id, hQ⟩

/-- **What is asked of every put of a run** may rely on what its resting orders have. -/
theorem PutRun.eachPut {A : Uuid → Market → Ctx → OrderInput → Prop}
    {T : Uuid → Taking → Market → Prop} {q : Request} (hkeeps : ∀ u, Keeps E u (A u) Q (T u))
    (h : PutRun E settings A c) (hput : c.EachPut E (A q.user) q)
    (hB : ∀ m x input, DeskOK ⟨m, x, none⟩ → (∀ id o, m.resting id = some o → Q o) →
      A q.user m x input → B m x input) :
    c.EachPut E B q := by
  obtain ⟨b, -, hc, hQ⟩ := h.each hkeeps
  refine eachPut_imp hc hQ hput (fun c c' hc hQ hmoves => (hkeeps q.user).moves hmoves hc hQ) ?_
  exact fun c name m input hc hQ hm =>
    hB m _ input ((hc.desk name m hm).2 q.real) (hQ name m · · hm)

/-! ## Solvent runs -/

/-- The markets of a run have the minimal amounts of the settings. -/
theorem minAmount_nonneg (hmin : ∀ conf ∈ settings.markets, 0 ≤ conf.minAmount)
    (hb : createController settings = .ok b) (hc : ControllerOK b c) {name : String}
    (hm : c.markets.find? name = some m) : 0 ≤ m.minAmount := by
  obtain ⟨m₀, hm₀, hterms⟩ := hc.terms name m hm
  obtain ⟨conf, hconf, hcreated⟩ := (createController_ok hb).2.2 name m₀ hm₀
  rw [hterms.minAmount, hcreated.minAmount]
  exact hmin conf hconf

/-- **No balance is ever negative** in a run whose orders have safe signs. -/
theorem PutRun.solvent {A : Uuid → Market → Ctx → OrderInput → Prop}
    (hsafe : ∀ u m x input, A u m x input → Signed m x input)
    (hmin : ∀ conf ∈ settings.markets, 0 ≤ conf.minAmount) (h : PutRun E settings A c) :
    ∃ b, createController settings = .ok b ∧ ControllerOK b c ∧ c.Backing ∧ c.Solvent := by
  induction h with
  | init hb =>
    obtain ⟨hok, hblank, -⟩ := createController_ok hb
    exact ⟨_, hb, hok, Blank.backed hblank,
      Blank.solvent hblank fun name m hm => minAmount_nonneg hmin hb hok hm⟩
  | call _ hput hcall ih =>
    obtain ⟨b, hb, hc, hback, hs⟩ := ih
    exact ⟨b, hb, call_ok hc hcall, call_backing hc hback hcall,
      call_solvent (hsafe _) hc hback hs hput hcall⟩
  | reset _ ih =>
    obtain ⟨b, hb, hc, -, -⟩ := ih
    obtain ⟨hok, hblank⟩ := resetState_ok hc
    exact ⟨b, hb, hok, Blank.backed hblank,
      Blank.solvent hblank fun name m hm => minAmount_nonneg hmin hb hok hm⟩
  | @load c d b' c₁ _ _ hstart hload ihc ihd =>
    obtain ⟨b, hb, hc, hback, hs⟩ := ihc
    obtain ⟨b₁, hb₁, hd, -, -⟩ := ihd
    obtain rfl : b = b₁ := Except.ok.inj (hb.symm.trans hb₁)
    obtain ⟨hok, hblank⟩ := hstart.blank hb hd
    obtain ⟨hbooks, -⟩ := loadSlice_dump hc hok hblank hload
    have hloaded := loadSlice_ok hc hok hblank hload
    refine ⟨b, hb, hloaded, hbooks.backed hback, fun k => (hbooks.balances k).symm ▸ hs.balances k,
      fun name m hm => minAmount_nonneg hmin hb hloaded hm, fun name m' id o hm' ho => ?_⟩
    obtain ⟨m, hm⟩ := Option.isSome_iff_exists.1 (hbooks.only name m' hm')
    obtain ⟨m'', hm'', -, -, hrest⟩ := hbooks.markets name m hm
    obtain rfl : m' = m'' := Option.some.inj (hm'.symm.trans hm'')
    rw [hrest] at ho
    exact hs.resting name m id o hm ho
  | recovered id _ ih =>
    obtain ⟨b, hb, hc, hback, hs⟩ := ih
    exact ⟨b, hb, hc.setOperationLogId id, hback, hs.balances, hs.min, hs.resting⟩

/-! ## What every order meets -/

/-- What every order that can be read meets, every put of a call meets. -/
theorem eachPut_of_read {q : Request}
    (hA : ∀ m x req input, OrderInput.tryFrom E req = .ok input → A m x input) :
    c.EachPut E A q := by
  have hadmits : ∀ (c : Controller) (req : OrderPutRequest), c.Admits E A q.real req q.user :=
    fun c req m input _ hinput _ => hA m _ req input hinput
  have hbatch : ∀ (orders : List OrderPutRequest) (name : String) (c : Controller),
      Controller.BatchAlong E q.now A q.real name q.user orders c := by
    intro orders name
    induction orders with
    | nil => exact fun _ => trivial
    | cons o orders ih => exact fun c _ => ⟨hadmits c o, fun _ c' _ => ih c'⟩
  unfold Controller.EachPut
  split
  · exact hadmits _ _
  · exact fun c' _ => hbatch _ _ c'
  · trivial

/-- **A reachable state ends a run** whose orders meet what every order that can be read meets. -/
theorem Reachable.putRun {A : Uuid → Market → Ctx → OrderInput → Prop} (h : Reachable E settings c)
    (hA : ∀ u m x req input, OrderInput.tryFrom E req = .ok input → A u m x input) :
    PutRun E settings A c := by
  induction h with
  | init hb => exact .init hb
  | call _ hcall ih => exact .call ih (eachPut_of_read (hA _)) hcall
  | reset _ ih => exact .reset ih
  | @restart c d b c' slice now log _ _ hstart hslice hrun ihc ihd =>
    have hb : PutRun E settings A b := by
      rcases hstart with hb | rfl
      · exact .init hb
      · exact .reset ihd
    have hreplay : ∀ {c₁ : Controller} {start : ℕ}, PutRun E settings A c₁ →
        c₁.loadOperationLog E now log start = .ok c' →
        PutRun E settings A c' := fun h₁ => loadOperationLog_rule (P := PutRun E settings A)
      (fun _ _ _ _ h hcall => .call h (eachPut_of_read (hA _)) hcall)
      (fun _ id h => .recovered id h) h₁
    rcases hslice with rfl | rfl
    · exact hreplay hb hrun
    · simp only [Controller.initFromDb, bind_ok] at hrun
      obtain ⟨c₁, hload, hrun⟩ := hrun
      exact hreplay (.load ihc ihd hstart hload) hrun

/-! ## Runs of the sample exchange -/

theorem sampleRun_putRun {A : Uuid → Market → Ctx → OrderInput → Prop} {qs : List Request}
    (h : sampleRun E qs = .ok c) (hput : ∀ q ∈ qs, ∀ c : Controller, c.EachPut E (A q.user) q) :
    PutRun E sampleSettings A c := by
  obtain ⟨c₀, replies, h₀, hcalls⟩ := sampleRun_ok h
  exact (PutRun.init h₀).calls (Controller.along_each (fun q hq c => hput q hq c) c₀) hcalls

/-- Of the sample only the ask of bob is an order. -/
theorem sampleOneAsk_putRun {A : Uuid → Market → Ctx → OrderInput → Prop}
    (h : sampleRun E sampleOneAsk = .ok c) (hput : ∀ c : Controller,
      c.EachPut E (A bob) (requestAt 1 bob (.orderPut (limitOrder .ask "2" "100")))) :
    PutRun E sampleSettings A c := by
  refine sampleRun_putRun h fun q hq c => ?_
  simp only [sampleOneAsk, List.mem_cons, List.not_mem_nil, or_false] at hq
  rcases hq with rfl | rfl | rfl | rfl
  · trivial
  · trivial
  · trivial
  · exact hput c

end Dingir
