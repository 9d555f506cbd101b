import Dingir.Spec.Run
import Dingir.Proof.Match

/-!
# What a call of the controller does

Every call is a sequence of *moves*: one market takes steps (`Move.market`) or a
balance update is applied (`Move.update`). At its end a call that succeeded is
logged (`Ends`). `call_moves` reads the moves off the code of each operation;
`Move.ok` keeps `ControllerOK`, the invariant of a controller between calls.
-/

namespace Dingir

open Keyed Rounding Posting Outcome Market

variable {E : Env} {now : Timestamp} {real : Bool} {u : Uuid} {w : Prop}
  {A : Market → Ctx → OrderInput → Prop} {c c' b : Controller}

/-- One move of a call for the user `u`; a balance is updated only by a call with `w`, and the
orders put meet `A`. -/
inductive Move (E : Env) (now : Timestamp) (real : Bool) (u : Uuid) (w : Prop)
    (A : Market → Ctx → OrderInput → Prop) : Controller → Controller → Prop
  | market {c : Controller} {name : String} {m m' : Market} {x' : Ctx} :
      c.markets.find? name = some m →
      Steps E now u A ⟨m, c.ctx real, none⟩ ⟨m', x', none⟩ →
      Move E now real u w A c (c.withMarket name m' x')
  | update {c : Controller} {p : BalanceUpdateParams} {x' : Ctx} : w → p.userId = u →
      p.balanceType = .available →
      p.businessType ≠ .trade → Applied E now (c.ctx real) p x' →
      Move E now real u w A c (c.withCtx x')

abbrev Moves (E : Env) (now : Timestamp) (real : Bool) (u : Uuid) (w : Prop)
    (A : Market → Ctx → OrderInput → Prop) : Controller → Controller → Prop :=
  Relation.ReflTransGen (Move E now real u w A)

/-- **The invariant of a controller** created as `b`. -/
structure ControllerOK (b c : Controller) : Prop where
  settings : c.settings = b.settings
  names : c.assetMarketNames = b.assetMarketNames
  assets : c.balanceManager.assetManager = b.balanceManager.assetManager
  gridded : Gridded c.balanceManager
  capacity : c.updateController.cache.capacity = 1000000
  desk : ∀ name m, c.markets.find? name = some m → m.name = name ∧
    ∀ real, DeskOK ⟨m, c.ctx real, none⟩
  terms : ∀ name m, c.markets.find? name = some m → ∃ m₀, b.markets.find? name = some m₀ ∧
    m₀.SameTerms m
  kept : ∀ name m₀, b.markets.find? name = some m₀ → (c.markets.find? name).isSome
  disjoint : ∀ name name' m m' id o o', c.markets.find? name = some m →
    c.markets.find? name' = some m' →
    m.resting id = some o → m'.resting id = some o' → name = name'
  pos : ∀ name m id o, c.markets.find? name = some m → m.resting id = some o → 0 < id

namespace Controller

theorem withCtx_ctx (c : Controller) : c.withCtx (c.ctx real) = c := by cases real <;> rfl

/-- What is put back can be borrowed again. -/
theorem ctx_withMarket {x : Ctx} (h : x.persistor.realPersist = real) (c : Controller)
    (name : String) (m : Market) : (c.withMarket name m x).ctx real = x := by
  subst h
  obtain ⟨s, bm, uc, pe⟩ := x
  cases pe <;> rfl

/-- The trades a controller has handed to the persistor. -/
def trades (c : Controller) : List Trade := c.persistor.filterMap Message.trade?

theorem realPersist_ctx (c : Controller) : (c.ctx real).persistor.realPersist = real := by
  cases real <;> rfl

@[simp] theorem withMarket_ctx_sequencer (c : Controller) (name : String) (m : Market) (x : Ctx) :
    (c.withMarket name m x).sequencer = x.sequencer := rfl

theorem find?_withMarket (c : Controller) (name other : String) (m : Market) (x : Ctx) :
    (c.withMarket name m x).markets.find? other = if other = name then some m
      else c.markets.find? other :=
  find?_insert _ _ _ _

end Controller

/-- What a move leaves of the state the markets share. -/
theorem Move.undisturbed (h : Move E now real u w A c c') (hc : ControllerOK b c) (r r' : Bool) :
    Undisturbed (c.ctx r) (c'.ctx r') := by
  cases h with
  | market hm hsteps =>
    have hu := hsteps.undisturbed ((hc.desk _ _ hm).2 real)
    exact ⟨hu.assets, hu.gridded, hu.capacity, hu.orderId⟩
  | @update p x' _ _ _ _ ha =>
    obtain ⟨d, hd⟩ := applyChange_ok hc.gridded ha.change
    refine ⟨hd.posted.assets, hd.gridded, ?_, ?_⟩
    · exact (congrArg TtlCache.capacity ha.cache).trans rfl
    · exact (congrArg Sequencer.orderId ha.sequencer).ge

/-- **A move keeps the invariant.** -/
theorem Move.ok (h : Move E now real u w A c c') (hc : ControllerOK b c) : ControllerOK b c' := by
  have hu := h.undisturbed hc
  have hkept : c'.markets = c.markets → ∀ name m, c'.markets.find? name = some m →
      m.name = name ∧ ∀ real, DeskOK ⟨m, c'.ctx real, none⟩ := by
    intro hmk name m hm
    rw [hmk] at hm
    exact ⟨(hc.desk name m hm).1,
      fun real => ((hc.desk name m hm).2 real).undisturbed (hu real real)⟩
  have hassets := (hu true true).assets.trans hc.assets
  have hcap := (hu true true).capacity.trans hc.capacity
  cases h with
  | @market name m m' x' hm hsteps =>
    have hd := (hc.desk _ _ hm).2 real
    have hterms : m.SameTerms m' := hsteps.sameTerms
    have hfind := Controller.find?_withMarket c name
    refine ⟨hc.settings, hc.names, hassets, (hu true true).gridded, hcap, fun other mo hmo => ?_,
      fun other mo hmo => ?_,
      fun other m₀ h₀ => ?_, fun n₁ n₂ m₁ m₂ id o₁ o₂ h₁ h₂ hr₁ hr₂ => ?_,
      fun other mo id o hmo ho => ?_⟩
    · rw [hfind] at hmo
      split at hmo
      · subst_vars
        obtain rfl := Option.some.inj hmo
        refine ⟨hterms.name.trans (hc.desk _ _ hm).1, fun r => ?_⟩
        have hd' := hsteps.deskOK hd
        exact ⟨hd'.index, hd'.prec, hd'.gridded, hd'.capacity, hd'.backed, hd'.ids, hd'.uncrossed,
          hd'.quiet,
          hd'.taking⟩
      · obtain ⟨hname, hdesk⟩ := hc.desk other mo hmo
        exact ⟨hname, fun r => (hdesk r).undisturbed (hu r r)⟩
    · rw [hfind] at hmo
      split at hmo
      · subst_vars
        obtain rfl := Option.some.inj hmo
        obtain ⟨m₀, h₀, ht⟩ := hc.terms _ _ hm
        exact ⟨m₀, h₀, ht.trans hterms⟩
      · exact hc.terms other mo hmo
    · rw [hfind]
      split
      · rfl
      · exact hc.kept other m₀ h₀
    · -- a new id is above all old ones
      have hnew : ∀ {o'}, m'.resting id = some o' → (m.resting id).isSome ∨
          c.sequencer.orderId < id :=
        fun ho => hsteps.newIds hd ho
      have hold : ∀ {n mo o'}, c.markets.find? n = some mo → mo.resting id = some o' →
          m'.resting id ≠ none →
          n = name := by
        intro n mo o' hn ho hne
        obtain ⟨o'', ho''⟩ := Option.ne_none_iff_exists'.1 hne
        rcases hnew ho'' with hs | hlt
        · obtain ⟨p, hp⟩ := Option.isSome_iff_exists.1 hs
          exact hc.disjoint n name mo m id o' p hn hm ho hp
        · exact absurd (((hc.desk n mo hn).2 real).ids id o' ho) (not_le.2 hlt)
      rw [hfind] at h₁ h₂
      split at h₁ <;> split at h₂
      · subst_vars; rfl
      · subst_vars
        obtain rfl := Option.some.inj h₁
        exact (hold h₂ hr₂ (by rw [hr₁]; simp)).symm
      · subst_vars
        obtain rfl := Option.some.inj h₂
        exact hold h₁ hr₁ (by rw [hr₂]; simp)
      · exact hc.disjoint n₁ n₂ m₁ m₂ id o₁ o₂ h₁ h₂ hr₁ hr₂
    · rw [hfind] at hmo
      split at hmo
      · obtain rfl := Option.some.inj hmo
        rcases hsteps.newIds hd ho with hs | hlt
        · obtain ⟨p, hp⟩ := Option.isSome_iff_exists.1 hs
          exact hc.pos _ _ id p hm hp
        · exact Nat.zero_lt_of_lt hlt
      · exact hc.pos other mo id o hmo ho
  | update _ _ _ _ ha =>
    -- an update touches no market
    exact ⟨hc.settings, hc.names, hassets, (hu true true).gridded, hcap, hkept rfl, hc.terms,
      hc.kept, hc.disjoint,
      hc.pos⟩

theorem Moves.ok (h : Moves E now real u w A c c') (hc : ControllerOK b c) : ControllerOK b c' := by
  induction h with
  | refl => exact hc
  | tail _ hmove ih => exact hmove.ok ih

/-! ## The operations, one by one -/

/-- A `Result` of `put_order` on a market: an error changes nothing. -/
theorem putOrder_error {m m' : Market} {x x' : Ctx} {input : OrderInput} {e : String}
    (h : m.putOrder E now x input u = .ok (.error e, m', x')) : m' = m ∧ x' = x := by
  unfold Market.putOrder at h
  split at h
  · simp only [pure_ok, Prod.mk.injEq] at h
    exact ⟨h.2.1.symm, h.2.2.symm⟩
  · simp only [bind_ok, pure_ok, Prod.mk.injEq, reduceCtorEq, false_and, and_false,
      exists_false] at h

theorem putOrder_input {m m' : Market} {x x' : Ctx} {input : OrderInput} {o : Order}
    (h : m.putOrder E now x input u = .ok (.ok o, m', x')) :
    m.checkInput E x.balanceManager input u = .ok () := by
  unfold Market.putOrder at h
  split at h
  · simp [pure, Except.pure] at h
  · assumption

namespace Controller

/-- The same market put back. -/
def rewritten (c : Controller) (name : String) (m : Market) : Controller :=
  { c with markets := c.markets.insert name m }

theorem withMarket_ctx (c : Controller) (name : String) (m : Market) :
    c.withMarket name m (c.ctx real) = c.rewritten name m := by
  unfold withMarket rewritten
  rw [withCtx_ctx]

theorem find?_rewritten {name : String} {m : Market} (hm : c.markets.find? name = some m)
    (other : String) : (c.rewritten name m).markets.find? other = c.markets.find? other := by
  unfold rewritten
  rw [find?_insert]
  split
  · subst_vars; exact hm.symm
  · rfl

/-- What a request parses to, or why it does not. -/
theorem parseUpdate_cases (E : Env) (prec : ℕ) (req : BalanceUpdateRequest) :
    ((E.decimalFromStr req.delta = none ∨ req.detail.isEmpty = false ∧
      E.jsonFromStr req.detail = none) ∧
      ∃ st, parseUpdate E prec req = .error st) ∨
    ∃ delta detail, E.decimalFromStr req.delta = some delta ∧
      parseUpdate E prec req = .ok (roundDp delta prec, detail) ∧
      (req.detail.isEmpty = true ∧ detail = .object [] ∨ req.detail.isEmpty = false ∧
        E.jsonFromStr req.detail = some detail) := by
  unfold parseUpdate
  cases hdelta : E.decimalFromStr req.delta with
  | none => exact .inl ⟨.inl rfl, _, rfl⟩
  | some delta =>
    cases hempty : req.detail.isEmpty with
    | true => exact .inr ⟨delta, _, rfl, rfl, .inl ⟨rfl, rfl⟩⟩
    | false =>
      cases hdetail : E.jsonFromStr req.detail with
      | none => exact .inl ⟨.inr ⟨rfl, rfl⟩, _, rfl⟩
      | some detail => exact .inr ⟨delta, detail, rfl, rfl, .inr ⟨rfl, rfl⟩⟩

/-- A balance update is refused and changes nothing, or it is applied and logged. -/
theorem updateBalance_cases {available : Bool} {req : BalanceUpdateRequest}
    {reply : Except Status Response}
    (h : c.updateBalance E now available real req u = .ok (reply, c')) :
    ((∃ st, reply = .error st) ∧ c' = c) ∨
      reply = .ok .balanceUpdate ∧ ∃ prec price change detail x',
        c.balanceManager.assetManager.assetPrecShow req.asset = .ok prec ∧
        parseUpdate E prec req = .ok (change, detail) ∧ c.marketPrice req.asset = .ok price ∧
        Applied E now (c.ctx real) (updateParams req u price change detail) x' ∧
        c' = (c.withCtx x').logged now real (.balanceUpdate req) u := by
  unfold updateBalance at h
  split at h
  · rw [pure_ok, Prod.mk.injEq] at h
    exact .inl ⟨⟨_, h.1.symm⟩, h.2.symm⟩
  split at h
  · rw [pure_ok, Prod.mk.injEq] at h
    exact .inl ⟨⟨_, h.1.symm⟩, h.2.symm⟩
  obtain ⟨prec, hprec, h⟩ := bind_ok.1 h
  split at h
  · rw [pure_ok, Prod.mk.injEq] at h
    exact .inl ⟨⟨_, h.1.symm⟩, h.2.symm⟩
  rename_i change detail hparse
  obtain ⟨price, hprice, h⟩ := bind_ok.1 h
  obtain ⟨⟨res, x'⟩, hu, h⟩ := bind_ok.1 h
  rcases updateUserBalance_cases hu with ⟨⟨e, rfl⟩, rfl⟩ | ⟨rfl, ha⟩
  · simp only [pure_ok, Prod.mk.injEq] at h
    exact .inl ⟨⟨_, h.1.symm⟩, by rw [← h.2, withCtx_ctx]⟩
  · simp only [pure_ok, Prod.mk.injEq] at h
    exact .inr ⟨h.1.symm, prec, price, change, detail, x', hprec, hparse, hprice, ha, h.2.symm⟩

/-- The shared part of `order_put` and `batch_order_put`: an order is refused and
changes nothing, or it is put on its market. -/
theorem putOrder_cases {req : OrderPutRequest} {res : Except Status Order}
    (h : c.putOrder E now real req u = .ok (res, c')) :
    ((∃ st, res = .error st) ∧
        (c' = c ∨ ∃ m, c.markets.find? req.market = some m ∧ c' = c.rewritten req.market m)) ∨
      ∃ o m input m' x', res = .ok o ∧ c.markets.find? req.market = some m ∧
        OrderInput.tryFrom E req = .ok input ∧
        m.putOrder E now (c.ctx real) input u = .ok (.ok o, m', x') ∧
        c' = c.withMarket req.market m' x' := by
  unfold putOrder at h
  split at h
  case h_2 =>
    rw [pure_ok, Prod.mk.injEq] at h
    exact .inl ⟨⟨_, h.1.symm⟩, .inl h.2.symm⟩
  rename_i m hm
  obtain ⟨-, -, h⟩ := bind_ok.1 h
  split at h
  · rw [pure_ok, Prod.mk.injEq] at h
    exact .inl ⟨⟨_, h.1.symm⟩, .inl h.2.symm⟩
  split at h
  · rw [pure_ok, Prod.mk.injEq] at h
    exact .inl ⟨⟨_, h.1.symm⟩, .inl h.2.symm⟩
  rename_i input hinput
  obtain ⟨⟨r, m', x'⟩, hput, h⟩ := bind_ok.1 h
  cases r with
  | error e =>
    obtain ⟨rfl, rfl⟩ := putOrder_error hput
    simp only [pure_ok, Prod.mk.injEq] at h
    exact .inl ⟨⟨_, h.1.symm⟩, .inr ⟨m', hm, by rw [← h.2, withMarket_ctx]⟩⟩
  | ok o =>
    simp only [pure_ok, Prod.mk.injEq] at h
    exact .inr ⟨o, m, input, m', x', h.1.symm, hm, hinput, hput, h.2.symm⟩

end Controller

/-! ## Every call is a sequence of moves -/

theorem Step.operationLogId {d d' : Desk} (h : Step E now u A d d') :
    d'.ctx.sequencer.operationLogId = d.ctx.sequencer.operationLogId := by
  cases h with
  | trade _ ht => rw [ht.sequencer]
  | _ => rfl

/-- Moves write no log. -/
theorem Moves.log (h : Moves E now real u w A c c') :
    c'.logHandler = c.logHandler ∧ c'.sequencer.operationLogId = c.sequencer.operationLogId := by
  induction h with
  | refl => exact ⟨rfl, rfl⟩
  | tail _ hmove ih =>
    cases hmove with
    | market _ hsteps =>
      have hid : ∀ {a b : Desk}, Steps E now u A a b →
          b.ctx.sequencer.operationLogId = a.ctx.sequencer.operationLogId := by
        intro a b hab
        induction hab with
        | refl => rfl
        | tail _ hstep ih => exact hstep.operationLogId.trans ih
      exact ⟨ih.1, (hid hsteps).trans ih.2⟩
    | update _ _ _ _ ha => exact ⟨ih.1, (congrArg Sequencer.operationLogId ha.sequencer).trans ih.2⟩

/-- How a call for `u` ends: refused, or logged. -/
inductive Ends (now : Timestamp) (real : Bool) (u : Uuid) (op : Operation) :
    Except Status Response → Controller → Controller → Prop
  | refused (st : Status) (c : Controller) : Ends now real u op (.error st) c c
  | logged (response : Response) (c : Controller) :
      Ends now real u op (.ok response) c (c.logged now real op u)

/-- A call for `u` whose effects are moves. -/
def Moving (E : Env) (now : Timestamp) (real : Bool) (u : Uuid) (w : Prop)
    (A : Market → Ctx → OrderInput → Prop) (op : Operation) (reply : Except Status Response)
    (c c' : Controller) : Prop :=
  ∃ c₁, Moves E now real u w A c c₁ ∧ Ends now real u op reply c₁ c'

theorem Moving.refused {op : Operation} (st : Status) (h : Moves E now real u w A c c') :
    Moving E now real u w A op (.error st) c c' := ⟨c', h, .refused st c'⟩

theorem Moving.logged {op : Operation} (response : Response) (h : Moves E now real u w A c c') :
    Moving E now real u w A op (.ok response) c (c'.logged now real op u) :=
  ⟨c', h, .logged response c'⟩

/-- A log entry changes the log and its counter only. -/
theorem logged_eq (c : Controller) (now : Timestamp) (real : Bool) (op : Operation) (u : Uuid) :
    ∃ s l, c.logged now real op u = { c with sequencer := s, logHandler := l } ∧
      s.orderId = c.sequencer.orderId ∧
      s.tradeId = c.sequencer.tradeId := by
  unfold Controller.logged
  split
  · exact ⟨_, _, rfl, rfl, rfl⟩
  · exact ⟨_, _, rfl, rfl, rfl⟩

theorem ControllerOK.logged (hc : ControllerOK b c) (op : Operation) :
    ControllerOK b (c.logged now real op u) := by
  obtain ⟨s, l, h, hs, -⟩ := logged_eq c now real op u
  rw [h]
  exact ⟨hc.settings, hc.names, hc.assets, hc.gridded, hc.capacity, fun name m hm =>
    ⟨(hc.desk name m hm).1, fun real =>
      ((hc.desk name m hm).2 real).undisturbed ⟨rfl, hc.gridded, rfl, hs.ge⟩⟩,
    hc.terms, hc.kept, hc.disjoint, hc.pos⟩

theorem Ends.ok {op : Operation} {reply : Except Status Response}
    (h : Ends now real u op reply c c') (hc : ControllerOK b c) : ControllerOK b c' := by
  cases h with
  | refused _ _ => exact hc
  | logged _ _ => exact hc.logged op

theorem Moves.rewritten {name : String} {m : Market} (hm : c.markets.find? name = some m) :
    Moves E now real u w A c (c.rewritten name m) := by
  have hmove : Move E now real u w A c (c.withMarket name m (c.ctx real)) :=
    Move.market hm Relation.ReflTransGen.refl
  rw [Controller.withMarket_ctx] at hmove
  exact Relation.ReflTransGen.single hmove

theorem putOrder_moves {req : OrderPutRequest} {res : Except Status Order} (hc : ControllerOK b c)
    (hA : c.Admits E A real req u) (h : c.putOrder E now real req u = .ok (res, c')) :
    Moves E now real u w A c c' := by
  rcases Controller.putOrder_cases h with ⟨-, rfl | ⟨m, hm, rfl⟩⟩ |
    ⟨o, m, input, m', x', -, hm, hin, hput, rfl⟩
  · exact Relation.ReflTransGen.refl
  · exact Moves.rewritten hm
  · exact Relation.ReflTransGen.single
      (Move.market hm (putOrder_steps ((hc.desk _ _ hm).2 real) (hA m input hm hin) hput))

theorem cancelAllIn_moves {name : String} {m : Market} {n : ℕ} (hc : ControllerOK b c)
    (hm : c.markets.find? name = some m) (h : c.cancelAllIn E real name m u = .ok (n, c')) :
    Moves E now real u w A c c' := by
  unfold Controller.cancelAllIn at h
  simp only [bind_ok, pure_ok, Prod.mk.injEq] at h
  obtain ⟨⟨n, m', x'⟩, hcancel, -, rfl⟩ := h
  exact Relation.ReflTransGen.single
    (Move.market hm (cancelAllForUser_steps ((hc.desk _ _ hm).2 real) hcancel))

theorem batchReset_moves {name : String} {orders : List OrderPutRequest} {res : Except Status Unit}
    (hc : ControllerOK b c) (h : c.batchReset E real name u orders = .ok (res, c')) :
    Moves E now real u w A c c' := by
  induction orders generalizing c with
  | nil =>
    obtain ⟨-, rfl⟩ := by simpa [Controller.batchReset] using h
    exact Relation.ReflTransGen.refl
  | cons o orders ih =>
    unfold Controller.batchReset at h
    split at h
    · simp only [pure_ok, Prod.mk.injEq] at h
      obtain ⟨-, rfl⟩ := h
      exact Relation.ReflTransGen.refl
    · simp only [bind_ok, unwrap_ok] at h
      obtain ⟨m, hm, ⟨n, c₁⟩, hcancel, h⟩ := h
      have hmoves : Moves E now real u w A c c₁ := cancelAllIn_moves hc hm hcancel
      exact hmoves.trans (ih (hmoves.ok hc) h)

theorem batchPut_moves {name : String} {orders : List OrderPutRequest} {ids : List ℕ}
    {res : Except Status BatchOrderPutResponse} (hc : ControllerOK b c)
    (hA : Controller.BatchAlong E now A real name u orders c)
    (h : c.batchPut E now real name u orders ids = .ok (res, c')) :
    Moves E now real u w A c c' := by
  induction orders generalizing c ids with
  | nil =>
    obtain ⟨-, rfl⟩ := by simpa [Controller.batchPut] using h
    exact Relation.ReflTransGen.refl
  | cons o orders ih =>
    unfold Controller.batchPut at h
    split at h
    · simp only [pure_ok, Prod.mk.injEq] at h
      obtain ⟨-, rfl⟩ := h
      exact Relation.ReflTransGen.refl
    · rename_i hname
      simp only [bind_ok] at h
      obtain ⟨⟨r, c₁⟩, hput, h⟩ := h
      obtain ⟨hadmits, hrest⟩ := hA (not_not.1 hname)
      have hmoves := putOrder_moves (w := w) hc hadmits hput
      cases r with
      | ok order => exact hmoves.trans (ih (hmoves.ok hc) (hrest order c₁ hput) h)
      | error st =>
        simp only [pure_ok, Prod.mk.injEq] at h
        obtain ⟨-, rfl⟩ := h
        exact hmoves

theorem batchStart_moves {req : BatchOrderPutRequest} {res : Except Status Unit}
    (hc : ControllerOK b c) (h : c.batchStart E real req u = .ok (res, c')) :
    Moves E now real u w A c c' := by
  unfold Controller.batchStart at h
  split at h
  · exact batchReset_moves hc h
  · simp only [Except.ok.injEq, Prod.mk.injEq] at h
    exact h.2 ▸ Relation.ReflTransGen.refl

theorem batchOrderPut_moves {available : Bool} {req : BatchOrderPutRequest}
    {reply : Except Status Response} (hc : ControllerOK b c)
    (hA : ∀ c₁, c.batchStart E real req u = .ok (.ok (), c₁) →
      Controller.BatchAlong E now A real req.market u req.orders c₁)
    (h : c.batchOrderPut E now available real req u = .ok (reply, c')) :
    Moving E now real u w A (.batchOrderPut req) reply c c' := by
  unfold Controller.batchOrderPut at h
  split at h
  · simp only [pure_ok, Prod.mk.injEq] at h
    obtain ⟨rfl, rfl⟩ := h
    exact .refused _ .refl
  split at h
  · simp only [pure_ok, Prod.mk.injEq] at h
    obtain ⟨rfl, rfl⟩ := h
    exact .refused _ .refl
  obtain ⟨⟨r, c₁⟩, hreset, h⟩ := bind_ok.1 h
  have hmoves₁ : Moves E now real u w A c c₁ := batchStart_moves hc hreset
  cases r with
  | error st =>
    simp only [pure_ok, Prod.mk.injEq] at h
    obtain ⟨rfl, rfl⟩ := h
    exact .refused _ hmoves₁
  | ok _ =>
    obtain ⟨⟨r, c₂⟩, hput, h⟩ := bind_ok.1 h
    have hmoves₂ := hmoves₁.trans (batchPut_moves (hmoves₁.ok hc) (hA _ hreset) hput)
    cases r with
    | error st =>
      simp only [pure_ok, Prod.mk.injEq] at h
      obtain ⟨rfl, rfl⟩ := h
      exact .refused _ hmoves₂
    | ok response =>
      simp only [pure_ok, Prod.mk.injEq] at h
      obtain ⟨rfl, rfl⟩ := h
      exact .logged _ hmoves₂

/-- A cancellation is refused and changes nothing, or takes its order off its market. -/
theorem orderCancel_cases {available : Bool} {req : OrderCancelRequest}
    {reply : Except Status Response}
    (h : c.orderCancel E now available real req u = .ok (reply, c')) :
    ((∃ st, reply = .error st) ∧ c' = c) ∨ ∃ m rc o m' x', c.markets.find? req.market = some m ∧
      m.orders[req.orderId]? = some rc ∧ (m.rcs.read rc).user = u ∧
      m.cancel E (c.ctx real) (m.rcs.read rc).id = .ok (o, m', x') ∧
      reply = .ok (.orderInfo (m.rcs.read rc)) ∧
      c' = (c.withMarket req.market m' x').logged now real (.orderCancel req) u := by
  unfold Controller.orderCancel at h
  split at h
  · simp only [pure_ok, Prod.mk.injEq] at h
    exact .inl ⟨⟨_, h.1.symm⟩, h.2.symm⟩
  split at h
  case h_2 =>
    simp only [pure_ok, Prod.mk.injEq] at h
    exact .inl ⟨⟨_, h.1.symm⟩, h.2.symm⟩
  rename_i m hm
  split at h
  case h_2 =>
    simp only [pure_ok, Prod.mk.injEq] at h
    exact .inl ⟨⟨_, h.1.symm⟩, h.2.symm⟩
  rename_i rc hrc
  simp only at h
  split at h
  · simp only [pure_ok, Prod.mk.injEq] at h
    exact .inl ⟨⟨_, h.1.symm⟩, h.2.symm⟩
  rename_i hu
  simp only [bind_ok, pure_ok, Prod.mk.injEq] at h
  obtain ⟨⟨o, m', x'⟩, hcancel, hreply, rfl⟩ := h
  exact .inr ⟨m, rc, o, m', x', hm, hrc, not_not.1 hu, hcancel, hreply.symm, rfl⟩

theorem orderCancel_moves {available : Bool} {req : OrderCancelRequest}
    {reply : Except Status Response} (hc : ControllerOK b c)
    (h : c.orderCancel E now available real req u = .ok (reply, c')) :
    Moving E now real u w A (.orderCancel req) reply c c' := by
  rcases orderCancel_cases h with ⟨⟨st, rfl⟩, rfl⟩ |
    ⟨m, rc, o, m', x', hm, hrc, hu, hcancel, rfl, rfl⟩
  · exact .refused _ .refl
  · have hd := (hc.desk _ _ hm).2 real
    obtain ⟨ho, hsteps⟩ : m.resting (m.rcs.read rc).id = some o ∧
        Steps E now o.user A ⟨m, c.ctx real, none⟩ ⟨m', x', none⟩ := cancel_steps hd hcancel
    obtain rfl : m.rcs.read rc = o := by
      obtain ⟨r, hr, rfl⟩ := resting_some.1 ho
      rw [hd.index.ownId _ _ hrc] at hr
      rw [Option.some.inj (hrc.symm.trans hr)]
    rw [hu] at hsteps
    exact .logged _ (Relation.ReflTransGen.single (Move.market hm hsteps))

/-- A cancellation of all orders is refused and changes nothing, or takes them off their market. -/
theorem orderCancelAll_cases {available : Bool} {req : OrderCancelAllRequest}
    {reply : Except Status Response}
    (h : c.orderCancelAll E now available real req u = .ok (reply, c')) :
    ((∃ st, reply = .error st) ∧ c' = c) ∨ ∃ m n c₁, c.markets.find? req.market = some m ∧
      c.cancelAllIn E real req.market m u = .ok (n, c₁) ∧ reply = .ok (.orderCancelAll n) ∧
      c' = c₁.logged now real (.orderCancelAll req) u := by
  unfold Controller.orderCancelAll at h
  split at h
  · simp only [pure_ok, Prod.mk.injEq] at h
    exact .inl ⟨⟨_, h.1.symm⟩, h.2.symm⟩
  split at h
  case h_2 =>
    simp only [pure_ok, Prod.mk.injEq] at h
    exact .inl ⟨⟨_, h.1.symm⟩, h.2.symm⟩
  rename_i m hm
  simp only [bind_ok, pure_ok, Prod.mk.injEq] at h
  obtain ⟨⟨n, c₁⟩, hcancel, hreply, rfl⟩ := h
  exact .inr ⟨m, n, c₁, hm, hcancel, hreply.symm, rfl⟩

theorem orderCancelAll_moves {available : Bool} {req : OrderCancelAllRequest}
    {reply : Except Status Response} (hc : ControllerOK b c)
    (h : c.orderCancelAll E now available real req u = .ok (reply, c')) :
    Moving E now real u w A (.orderCancelAll req) reply c c' := by
  rcases orderCancelAll_cases h with ⟨⟨st, rfl⟩, rfl⟩ | ⟨m, n, c₁, hm, hcancel, rfl, rfl⟩
  · exact .refused _ .refl
  · exact .logged _ (cancelAllIn_moves hc hm hcancel)

theorem updateBalance_moves {available : Bool} {req : BalanceUpdateRequest}
    {reply : Except Status Response}
    (h : c.updateBalance E now available real req u = .ok (reply, c')) :
    Moving E now real u True A (.balanceUpdate req) reply c c' := by
  rcases Controller.updateBalance_cases h with ⟨⟨st, rfl⟩, rfl⟩ |
    ⟨rfl, _, price, change, detail, x', -, -, -, ha, rfl⟩
  · exact .refused _ .refl
  · refine .logged _ (Relation.ReflTransGen.single (Move.update trivial rfl rfl ?_ ha))
    unfold Controller.updateParams
    simp only
    split <;> simp

theorem orderPut_moves {available : Bool} {req : OrderPutRequest} {reply : Except Status Response}
    (hc : ControllerOK b c) (hA : c.Admits E A real req u)
    (h : c.orderPut E now available real req u = .ok (reply, c')) :
    Moving E now real u w A (.orderPut req) reply c c' := by
  unfold Controller.orderPut at h
  split at h
  · simp only [pure_ok, Prod.mk.injEq] at h
    obtain ⟨rfl, rfl⟩ := h
    exact .refused _ .refl
  obtain ⟨⟨r, c₁⟩, hput, h⟩ := bind_ok.1 h
  have hmoves := putOrder_moves (w := w) hc hA hput
  cases r with
  | error st =>
    simp only [pure_ok, Prod.mk.injEq] at h
    obtain ⟨rfl, rfl⟩ := h
    exact .refused _ hmoves
  | ok order =>
    simp only [pure_ok, Prod.mk.injEq] at h
    obtain ⟨rfl, rfl⟩ := h
    exact .logged _ hmoves

/-- The operation updates a balance; the others trade. -/
def Operation.Updates : Operation → Prop
  | .balanceUpdate _ => True
  | _ => False

/-- **Every call that returns is a sequence of moves**, and its orders meet what each put meets. -/
theorem call_moves_each {q : Request} {reply : Except Status Response} (hc : ControllerOK b c)
    (hA : c.EachPut E A q) (h : c.call E q = .ok (reply, c')) :
    Moving E q.now q.real q.user q.operation.Updates A q.operation reply c c' := by
  unfold Controller.EachPut at hA
  unfold Controller.call at h
  split at h <;> rename_i hop <;> rw [hop] at hA ⊢
  · exact updateBalance_moves h
  · exact orderPut_moves hc hA h
  · exact batchOrderPut_moves hc hA h
  · exact orderCancel_moves hc h
  · exact orderCancelAll_moves hc h

theorem admits_any {req : OrderPutRequest} : c.Admits E AnyOrder real req u :=
  fun _ _ _ _ _ => trivial

theorem batchAlong_any {name : String} (orders : List OrderPutRequest) (c : Controller) :
    Controller.BatchAlong E now AnyOrder real name u orders c := by
  induction orders generalizing c with
  | nil => trivial
  | cons _ _ ih => exact fun _ => ⟨admits_any, fun _ c' _ => ih c'⟩

theorem eachPut_any (q : Request) : c.EachPut E AnyOrder q := by
  unfold Controller.EachPut
  split
  · exact admits_any
  · exact fun c' _ => batchAlong_any _ c'
  · trivial

theorem call_moves {q : Request} {reply : Except Status Response} (hc : ControllerOK b c)
    (h : c.call E q = .ok (reply, c')) :
    Moving E q.now q.real q.user q.operation.Updates AnyOrder q.operation reply c c' :=
  call_moves_each hc (eachPut_any q) h

theorem call_ok {q : Request} {reply : Except Status Response} (hc : ControllerOK b c)
    (h : c.call E q = .ok (reply, c')) : ControllerOK b c' := by
  obtain ⟨c₁, hmoves, hends⟩ := call_moves hc h
  exact hends.ok (hmoves.ok hc)

/-! ## What every put meets -/

/-- What each put of a call meets follows from what it is known to meet, and from what the moves of
the call keep. -/
theorem eachPut_imp {B : Market → Ctx → OrderInput → Prop} {P : Controller → Prop} {q : Request}
    (hc : ControllerOK b c) (hP : P c) (hput : c.EachPut E A q)
    (hkeep : ∀ c c', ControllerOK b c → P c → Moves E q.now q.real q.user True A c c' → P c')
    (hB : ∀ c name m input, ControllerOK b c → P c → c.markets.find? name = some m →
      A m (c.ctx q.real) input → B m (c.ctx q.real) input) :
    c.EachPut E B q := by
  have hadmits : ∀ {c : Controller} {req : OrderPutRequest}, ControllerOK b c → P c →
      c.Admits E A q.real req q.user →
      c.Admits E B q.real req q.user :=
    fun hc hP hA m input hm hinput hcheck => hB _ _ m input hc hP hm (hA m input hm hinput hcheck)
  have hbatch : ∀ (orders : List OrderPutRequest) (name : String) (c : Controller),
      ControllerOK b c → P c →
      Controller.BatchAlong E q.now A q.real name q.user orders c →
      Controller.BatchAlong E q.now B q.real name q.user orders c := by
    intro orders name
    induction orders with
    | nil => exact fun _ _ _ _ => trivial
    | cons o orders ih =>
      intro c hc hP hA hname
      obtain ⟨hfirst, hrest⟩ := hA hname
      refine ⟨hadmits hc hP hfirst, fun order c' h => ?_⟩
      have hmoves : Moves E q.now q.real q.user True A c c' := putOrder_moves hc hfirst h
      exact ih c' (hmoves.ok hc) (hkeep c c' hc hP hmoves) (hrest order c' h)
  unfold Controller.EachPut at hput ⊢
  split at hput
  · exact hadmits hc hP hput
  · intro c' hstart
    have hmoves : Moves E q.now q.real q.user True A c c' := batchStart_moves hc hstart
    exact hbatch _ _ c' (hmoves.ok hc) (hkeep c c' hc hP hmoves) (hput c' hstart)
  · trivial

/-- Every order of a call is put on a market of a controller with what the moves of the call
keep. -/
theorem eachPut_of {P : Controller → Prop} {q : Request} (hc : ControllerOK b c) (hP : P c)
    (hkeep : ∀ c c', ControllerOK b c → P c → Moves E q.now q.real q.user True AnyOrder c c' → P c')
    (hA : ∀ c name m input, ControllerOK b c → P c → c.markets.find? name = some m →
      A m (c.ctx q.real) input) :
    c.EachPut E A q :=
  eachPut_imp hc hP (eachPut_any q) hkeep fun c name m input hc hP hm _ =>
    hA c name m input hc hP hm

/-- Every order of a call is put on a market of a well-formed controller. -/
theorem eachPut_of_ok {q : Request} (hc : ControllerOK b c)
    (hA : ∀ c name m input, ControllerOK b c → c.markets.find? name = some m →
      A m (c.ctx q.real) input) :
    c.EachPut E A q :=
  eachPut_of (P := fun _ => True) hc trivial (fun _ _ _ _ _ => trivial)
    fun c name m input hc _ hm => hA c name m input hc hm

end Dingir
