import Dingir.Proof.Agreement
import Dingir.Proof.Backing

/-!
# What may rest in a book

- **`MarketRun.never_crossed`**: every resting bid is below every resting ask. A trade
  with a limit order fills the maker or the order, so the matching loop leaves an
  order open only where the prices part, and all that is behind is further apart.
- **`Reachable.putOrder_safe`**: whatever is put, MARKET orders do not rest, an
  order that is `post_only` is the taker of no trade, and an order stopped by an
  own order keeps its trades and freezes nothing for the rest.

What trying an order does is read off its trades (`Tried`).
-/

namespace Dingir

open Keyed Posting Outcome Market

variable {E : Env} {settings : Settings} {now : Timestamp} {real : Bool} {u : Uuid} {m m' : Market}
  {x x' : Ctx} {o : Order} {k k₀ : Taking} {d d' : Desk} {c c' b : Controller}
  {A : Market → Ctx → OrderInput → Prop}

/-! ## Bids below asks -/

/-- **The resting book is never crossed.** -/
theorem MarketRun.never_crossed (h : MarketRun E settings c) {name : String}
    (hm : c.markets.find? name = some m) {ask bid : OrderRc} (hask : ask ∈ values m.asks)
    (hbid : bid ∈ values m.bids) : (m.rcs.read bid).price < (m.rcs.read ask).price := by
  obtain ⟨b, -, hc⟩ := h.ok
  have hd := (hc.desk name m hm).2 true
  obtain ⟨ka, hka⟩ := mem_values.1 hask
  obtain ⟨kb, hkb⟩ := mem_values.1 hbid
  obtain ⟨ha, hsa, -⟩ := (hd.index.asks ka).1 hka
  obtain ⟨hb, hsb, -⟩ := (hd.index.bids kb).1 hkb
  exact hd.uncrossed _ _ _ _ (resting_some.2 ⟨ask, ha, rfl⟩) (resting_some.2 ⟨bid, hb, rfl⟩) hsa hsb

/-- Two asks, and a bid that fills the first and rests below the second. -/
def sampleSpread : Except Panic Controller := do
  let c ← createController sampleSettings
  let (_, c) ← c.updateBalance releaseEnv 0 true true ⟨"ETH", "deposit", 1, "10", ""⟩ bob
  let (_, c) ← c.updateBalance releaseEnv 0 true true ⟨"USDT", "deposit", 2, "1000", ""⟩ alice
  let m ← unwrap .marketName (c.markets.find? "ETH_USDT")
  let (_, m, x) ← m.putOrder releaseEnv 1 (c.ctx true) ⟨.ask, .limit, 2, 100, 0, 0, 0, "ETH_USDT",
      false⟩ bob
  let c := c.withMarket "ETH_USDT" m x
  let m ← unwrap .marketName (c.markets.find? "ETH_USDT")
  let (_, m, x) ← m.putOrder releaseEnv 1 (c.ctx true) ⟨.ask, .limit, 2, 101, 0, 0, 0, "ETH_USDT",
      false⟩ bob
  let c := c.withMarket "ETH_USDT" m x
  let m ← unwrap .marketName (c.markets.find? "ETH_USDT")
  let (_, m, x) ← m.putOrder releaseEnv 2 (c.ctx true) ⟨.bid, .limit, 3, 100, 0, 0, 0, "ETH_USDT",
      false⟩ alice
  return c.withMarket "ETH_USDT" m x

theorem MarketRun.never_crossed_sampleSpread :
    ∃ c m ask bid, MarketRun releaseEnv sampleSettings c ∧
    c.markets.find? "ETH_USDT" = some m ∧ ask ∈ values m.asks ∧ bid ∈ values m.bids ∧
    (m.rcs.read bid).price < (m.rcs.read ask).price := by
  have h : (sampleSpread >>= fun c => pure ((c.markets.find? "ETH_USDT").map fun m =>
      (decide (1 ∈ values m.asks), decide (2 ∈ values m.bids)))) =
      (.ok (some (true, true)) : Except Panic (Option (Bool × Bool))) := by decide +kernel
  simp only [sampleSpread, bind_ok, pure_ok, unwrap_ok] at h
  obtain ⟨c', ⟨c₀, h₀, ⟨r₁, c₁⟩, h₁, ⟨r₂, c₂⟩, h₂, m₁, hm₁, ⟨s₁, m₁', x₁⟩, hp₁, m₂, hm₂,
      ⟨s₂, m₂', x₂⟩, hp₂, m₃, hm₃,
    ⟨s₃, m₃', x₃⟩, hp₃, rfl⟩, hbook⟩ := h
  have hrun := (((((MarketRun.init h₀).updateBalance h₁).updateBalance h₂).putOrder hm₁
    hp₁).putOrder hm₂ hp₂).putOrder hm₃ hp₃
  have hfind := Controller.find?_withMarket
    ((c₂.withMarket "ETH_USDT" m₁' x₁).withMarket "ETH_USDT" m₂' x₂) "ETH_USDT" "ETH_USDT" m₃' x₃
  rw [if_pos rfl] at hfind
  simp only [hfind, Option.map_some, Option.some.injEq, Prod.mk.injEq, decide_eq_true_eq] at hbook
  exact ⟨_, m₃', 1, 2, hrun, hfind, hbook.1, hbook.2, hrun.never_crossed hfind hbook.1 hbook.2⟩

/-! ## What trying an order does -/

/-- The order is the taker of the trade. -/
def Trade.TakenBy (t : Trade) (o : Order) : Prop :=
  if o.isAsk then t.askRole = .taker ∧ t.askOrderId = o.id
  else t.bidRole = .taker ∧ t.bidOrderId = o.id

/-- What trying the order `k₀` on `m₀` has done by the time it is `k`: it made the trades `ts`. -/
structure Tried (m₀ : Market) (x₀ : Ctx) (k₀ : Taking) (m : Market) (x : Ctx) (k : Taking)
    (ts : List Trade) : Prop where
  terms : m₀.SameTerms m
  posted : Posted x₀.balanceManager x.balanceManager
    (ts.flatMap fun t => t.postings m₀ k₀.order.isAsk)
  trades : x₀.persistor.realPersist = true → x.persistor.trades = x₀.persistor.trades ++ ts
  real : x.persistor.realPersist = x₀.persistor.realPersist
  tradeId : x.sequencer.tradeId = x₀.sequencer.tradeId + ts.length
  users : ∀ t ∈ ts, t.askUserId ≠ t.bidUserId
  taker : ∀ t ∈ ts, t.TakenBy k₀.order
  postOnly : k₀.order.postOnly = true → ts = []
  order : k.order = { k₀.order with
    remain := k₀.order.remain - (ts.map Trade.amount).sum
    finishedBase := k₀.order.finishedBase + (ts.map Trade.amount).sum
    finishedQuote := k.order.finishedQuote
    finishedFee := k.order.finishedFee
    updateTime := k.order.updateTime }

theorem Tried.refl (m : Market) (x : Ctx) (k : Taking) : Tried m x k m x k [] :=
  ⟨SameTerms.refl m, Posted.refl _, by simp, rfl, rfl, by simp, by simp, fun _ => rfl, by simp⟩

/-- The taker of a trade that is made is the order being put. -/
theorem Trades.takenBy {rc : OrderRc} {t : Trade}
    (ht : Trades now m x k rc t m' x') : t.TakenBy k.order := by
  unfold Trade.TakenBy
  split <;> rename_i hk <;>
    simp only [ht.askRole, ht.bidRole, ht.askOrder, ht.bidOrder, askOf, bidOf, hk]
  · exact ⟨rfl, rfl⟩
  · exact ⟨rfl, rfl⟩

/-- One more trade. -/
theorem Tried.trade {m₀ : Market} {x₀ : Ctx} {ts : List Trade} {rc : OrderRc} {t : Trade}
    (h : Tried m₀ x₀ k₀ m x k ts) (hmeet : Meets m k rc) (ht : Trades now m x k rc t m' x') :
    Tried m₀ x₀ k₀ m' x' (filledTaking now k t) (ts ++ [t]) := by
  have hask : k.order.isAsk = k₀.order.isAsk := by rw [h.order]; rfl
  have hterms : m.SameTerms m' := by
    rw [ht.market]
    exact ⟨rfl, rfl, rfl, rfl, rfl, rfl, rfl, rfl, rfl, rfl, rfl⟩
  have hpostings : t.postings m k.order.isAsk = t.postings m₀ k₀.order.isAsk := by
    rw [hask]
    simp only [Trade.postings, h.terms.base, h.terms.quote]
  have htaken : t.TakenBy k₀.order := by
    have htaken := ht.takenBy
    unfold Trade.TakenBy at htaken ⊢
    rwa [hask, show k.order.id = k₀.order.id by rw [h.order]] at htaken
  refine ⟨h.terms.trans hterms, ?_, fun hr => ?_, ht.real.trans h.real, ?_, fun s hs => ?_,
    fun s hs => ?_, fun hp => ?_, ?_⟩
  · have hposted := h.posted.trans ht.posted
    rw [hpostings] at hposted
    simpa using hposted
  · rw [ht.trades (h.real.trans hr), h.trades hr, List.append_assoc]
  · rw [ht.sequencer, List.length_append, ← Nat.add_assoc, ← h.tradeId]
    rfl
  · rcases List.mem_append.1 hs with hs | hs
    · exact h.users s hs
    · exact List.mem_singleton.1 hs ▸ ht.users_ne
  · rcases List.mem_append.1 hs with hs | hs
    · exact h.taker s hs
    · exact List.mem_singleton.1 hs ▸ htaken
  · -- the order trades, so it is not post only
    have hno := hmeet.notPostOnly
    rw [h.order] at hno
    exact absurd (hno.symm.trans hp) (by decide)
  · have ho := h.order
    simp only [filledTaking, fillOrder, Order.touched, List.map_append, List.sum_append,
      List.map_cons, List.map_nil,
      List.sum_cons, List.sum_nil, add_zero]
    rw [ho]
    simp only [Order.mk.injEq, true_and, and_true]
    exact ⟨by ring, by ring⟩

/-- **Trying an order makes some trades**, and is all it does to the balances. -/
theorem Works.tried (h : Works E now u A ⟨m, x, some k₀⟩ d) (hd : DeskOK ⟨m, x, some k₀⟩) :
    ∃ k ts, d.taking = some k ∧ Tried m x k₀ d.market d.ctx k ts := by
  refine Works.rule (P := fun d => ∃ k ts, d.taking = some k ∧
    Tried m x k₀ d.market d.ctx k ts) ?_ ?_ h hd ⟨k₀, [], rfl, .refl m x k₀⟩
  · rintro m₁ m' x₁ x' k rc t - ⟨k', ts, hk, htried⟩ hmeet ht
    obtain rfl : k = k' := Option.some.inj hk
    exact ⟨_, ts ++ [t], rfl, htried.trade hmeet ht⟩
  · rintro m₁ x₁ k rc - ⟨k', ts, hk, htried⟩ - -
    obtain rfl : k = k' := Option.some.inj hk
    refine ⟨k, ts, rfl, htried.terms.trans ⟨rfl, rfl, rfl, rfl, rfl, rfl, rfl, rfl, rfl, rfl, rfl⟩,
      htried.posted,
      fun hr => ?_, ?_, htried.tradeId, htried.users, htried.taker, htried.postOnly, htried.order⟩
    · simpa using htried.trades hr
    · simpa using htried.real

/-! ## What becomes of an order -/

/-- An order of the same user rests on the other side at a price that meets `o`, which is not
filled: what stops a taker when self trades are disabled. -/
def Market.OwnAhead (m : Market) (o : Order) : Prop :=
  o.remain ≠ 0 ∧ ∃ id p, m.resting id = some p ∧ p.user = o.user ∧ p.side ≠ o.side ∧
    (o.type_ = .limit → ¬ o.Apart p)

theorem apart_rested {p : Order} : o.rested.Apart p ↔ o.Apart p := by
  unfold Order.Apart bidOf askOf
  rw [show o.rested.isAsk = o.isAsk from rfl]
  split <;> rfl

/-- What the type of an order put on `m` promises of it, when it made the trades `ts`. -/
structure PutSafely (m : Market) (bm : BalanceManager) (m' : Market) (bm' : BalanceManager)
    (o : Order) (ts : List Trade) : Prop where
  market : o.type_ = .market → m'.resting o.id = none
  restLimit : ∀ id p, m'.resting id = some p → p.type_ = .limit
  postOnly : o.postOnly = true → ts = [] ∧ ((m'.resting o.id = some o ∧ o.remain = o.amount) ∨
    (m'.resting o.id = none ∧ o.finishedBase = 0 ∧ ∀ j, bm'.getByKey j = bm.getByKey j))
  selfTrade : m.disableSelfTrade = true → ∀ t ∈ ts, t.askUserId ≠ t.bidUserId
  stopped : m.disableSelfTrade = true → m'.OwnAhead o → m'.resting o.id = none ∧
    o.finishedBase = (ts.map Trade.amount).sum ∧
    Posted bm bm' (ts.flatMap fun t => t.postings m o.isAsk)

/-- An order that is put made the trades `ts` as their taker, and kept what its type promises. -/
def PutOutcome (E : Env) (now : Timestamp) (u : Uuid) (m : Market) (x : Ctx)
    (input : OrderInput) : Prop :=
  ∀ o m' x', m.putOrder E now x input u = .ok (.ok o, m', x') → ∃ ts,
    (x.persistor.realPersist = true → x'.persistor.trades = x.persistor.trades ++ ts) ∧
    x'.sequencer.tradeId = x.sequencer.tradeId + ts.length ∧ (∀ t ∈ ts, t.TakenBy o) ∧
    PutSafely m x.balanceManager m' x'.balanceManager o ts

theorem putOrder_outcome {input : OrderInput} (hd : DeskOK ⟨m, x, none⟩) :
    PutOutcome E now u m x input := by
  intro o m' x' h
  have hcheck := putOrder_input h
  unfold putOrder at h
  rw [hcheck] at h
  simp only [bind_ok, pure_ok, Prod.mk.injEq, Except.ok.injEq] at h
  obtain ⟨ql, hql, ⟨o, m', x'⟩, hex, rfl, rfl, rfl⟩ := h
  have haccept : Step E now u AnyOrder ⟨m, x, none⟩ _ := Step.accept trivial hcheck hql
  have hstart := haccept.deskOK hd
  obtain ⟨d, hworks, hend⟩ := executeOrder_ends (u := u) (A := AnyOrder)
    (x := { x with sequencer := x.sequencer.nextOrderId.2 }) (hd.quiet rfl) hstart hex
  obtain ⟨k, ts, hk, htried⟩ := hworks.tried hstart
  have hok := Steps.deskOK hworks.steps hstart
  have hlast : Step E now u AnyOrder d ⟨m', x', none⟩ := hend.step
  have hlimit := (hlast.deskOK hok).backed
  have ho := htried.order
  cases hend with
  | @closed _ x₁ k' hq =>
    obtain rfl : k' = k := Option.some.inj hk
    -- a closed order is not at rest: its id is above all that rest
    have hgone : m'.resting k'.order.id = none := by
      have hfresh := hok.taking k' rfl
      cases hr : m'.resting k'.order.id with
      | none => rfl
      | some p => exact absurd hfresh.id (hfresh.fresh _ _ hr).ne
    have hsum : k'.order.finishedBase = (ts.map Trade.amount).sum := by
      rw [ho]
      simp [newOrder]
    have hask : k'.order.isAsk = (m.newOrder (x.sequencer.orderId + 1) now input u).isAsk := by
      rw [ho]; rfl
    refine ⟨ts, fun hr => ?_, htried.tradeId, fun t ht => ?_, fun _ => hgone,
      fun id p hp => (hlimit id p hp).limit, fun hp => ?_,
      fun _ => htried.users, fun _ _ => ⟨hgone, hsum, ?_⟩⟩
    · simpa using htried.trades (by simpa using hr)
    · have htaken := htried.taker t ht
      unfold Trade.TakenBy at htaken ⊢
      rwa [hask, show k'.order.id = x.sequencer.orderId + 1 by rw [ho]; rfl]
    · have hts := htried.postOnly (by rw [ho] at hp; exact hp)
      subst hts
      exact ⟨rfl, .inr ⟨hgone, hsum, fun j => by simpa using htried.posted.balance j⟩⟩
    · rw [hask]
      exact htried.posted
  | @rests m₁ x₁ k' bm hq hlim hopen hfreeze hclear =>
    obtain rfl : k' = k := Option.some.inj hk
    -- what is left rests in the book
    have hrest : (m₁.withRest k'.order.rested).resting k'.order.rested.id =
        some k'.order.rested := by
      rw [resting_withRest hok.index, if_pos rfl]
    have hask : k'.order.isAsk = (m.newOrder (x.sequencer.orderId + 1) now input u).isAsk := by
      rw [ho]; rfl
    refine ⟨ts, fun hr => ?_, htried.tradeId, fun t ht => ?_, fun hm => ?_,
      fun id p hp => (hlimit id p hp).limit, fun hp => ?_,
      fun _ => htried.users, fun _ hown => ?_⟩
    · simpa using htried.trades (by simpa using hr)
    · have htaken := htried.taker t ht
      unfold Trade.TakenBy at htaken ⊢
      rwa [show k'.order.rested.isAsk = _ from hask,
        show k'.order.rested.id = x.sequencer.orderId + 1 by
        show k'.order.id = _
        rw [ho]
        rfl]
    · exact absurd (hlim.symm.trans hm) (by decide)
    · have hpost : k'.order.postOnly = true := hp
      have hts := htried.postOnly (by rw [ho] at hpost; exact hpost)
      subst hts
      refine ⟨rfl, .inl ⟨hrest, ?_⟩⟩
      show k'.order.remain = k'.order.amount
      rw [ho]
      simp [newOrder]
    · -- an order that rests is clear of the book
      obtain ⟨-, id, p, hp, -, hside, hmeets⟩ := hown
      rw [resting_withRest hok.index] at hp
      split at hp
      · rw [← Option.some.inj hp] at hside
        exact absurd rfl hside
      · exact absurd (hclear id p hp hside) fun hapart => hmeets hlim (apart_rested.2 hapart)

/-! ## What comes to rest -/

/-- While an order is tried, it keeps its id and its user, no other id is drawn, and what rests was
at rest before, for the same user. -/
structure Trying (m₀ : Market) (x₀ : Ctx) (k₀ : Taking) (d : Desk) (k : Taking) : Prop where
  taking : d.taking = some k
  id : k.order.id = k₀.order.id
  user : k.order.user = k₀.order.user
  orderId : d.ctx.sequencer.orderId = x₀.sequencer.orderId
  resting : ∀ id p, d.market.resting id = some p → ∃ p₀, m₀.resting id = some p₀ ∧ p₀.user = p.user

theorem Works.trying (h : Works E now u A ⟨m, x, some k₀⟩ d)
    (hd : DeskOK ⟨m, x, some k₀⟩) : ∃ k, Trying m x k₀ d k := by
  refine Works.rule (P := fun d => ∃ k, Trying m x k₀ d k) ?_ ?_ h hd ⟨k₀, rfl, rfl, rfl, rfl,
    fun id p hp => ⟨p, hp, rfl⟩⟩
  · rintro m₁ m' x₁ x' k rc t hok ⟨k', htry⟩ hmeet ht
    obtain rfl : k = k' := Option.some.inj htry.taking
    refine ⟨filledTaking now k t, rfl, htry.id, htry.user, ?_, ?_⟩
    · show x'.sequencer.orderId = _
      rw [ht.sequencer]
      exact htry.orderId
    · intro id p hp
      rw [show m'.resting id = _ from ht.resting hmeet hok.index id] at hp
      split at hp
      · rename_i hid
        obtain ⟨p₀, hp₀, huser⟩ := htry.resting _ _ hmeet.resting
        refine ⟨p₀, hid ▸ hp₀, huser.trans ?_⟩
        rw [← Option.some.inj hp]
        rfl
      · exact htry.resting id p hp
  · rintro m₁ x₁ k rc - ⟨k', htry⟩ - -
    obtain rfl : k = k' := Option.some.inj htry.taking
    refine ⟨k, rfl, htry.id, htry.user, htry.orderId, ?_⟩
    intro id p hp
    rw [show (m₁.without _).resting id = _ from resting_without id] at hp
    split at hp
    · cases hp
    · exact htry.resting id p hp

/-- What an order that is put leaves behind: it draws one id, and nothing but it comes to rest. -/
structure Put (m : Market) (x : Ctx) (u : Uuid) (o : Order) (m' : Market) (x' : Ctx) : Prop where
  id : o.id = x.sequencer.orderId + 1
  user : o.user = u
  orderId : x'.sequencer.orderId = x.sequencer.orderId + 1
  resting : ∀ id p, m'.resting id = some p →
    (∃ p₀, m.resting id = some p₀ ∧ p₀.user = p.user) ∨ (id = o.id ∧ p.user = u)

theorem putOrder_put {input : OrderInput} {o : Order} (hd : DeskOK ⟨m, x, none⟩)
    (h : m.putOrder E now x input u = .ok (.ok o, m', x')) : Put m x u o m' x' := by
  have hcheck := putOrder_input h
  unfold putOrder at h
  rw [hcheck] at h
  simp only [bind_ok, pure_ok, Prod.mk.injEq, Except.ok.injEq] at h
  obtain ⟨ql, hql, ⟨o, m', x'⟩, hex, rfl, rfl, rfl⟩ := h
  have haccept : Step E now u AnyOrder ⟨m, x, none⟩ _ := Step.accept trivial hcheck hql
  have hstart := haccept.deskOK hd
  obtain ⟨d, hworks, hend⟩ := executeOrder_ends (u := u) (A := AnyOrder)
    (x := { x with sequencer := x.sequencer.nextOrderId.2 }) (hd.quiet rfl) hstart hex
  obtain ⟨k, htry⟩ := hworks.trying hstart
  have hok := Steps.deskOK hworks.steps hstart
  cases hend with
  | @closed _ x₁ k' hq =>
    obtain rfl : k' = k := Option.some.inj htry.taking
    exact ⟨htry.id, htry.user, htry.orderId, fun id p hp => .inl (htry.resting id p hp)⟩
  | @rests m₁ x₁ k' bm hq hlim hopen hfreeze hclear =>
    obtain rfl : k' = k := Option.some.inj htry.taking
    refine ⟨htry.id, htry.user, htry.orderId, ?_⟩
    intro id p hp
    rw [resting_withRest hok.index] at hp
    split at hp
    · rename_i hid
      refine .inr ⟨hid.symm, ?_⟩
      rw [← Option.some.inj hp]
      exact htry.user
    · exact .inl (htry.resting id p hp)

/-- **Order-type safety.** In every reachable state, every order that a request puts, alone
or in a batch, keeps what its type promises. -/
theorem Reachable.putOrder_safe (h : Reachable E settings c) (q : Request) :
    c.EachPut E (PutOutcome E q.now q.user) q := by
  obtain ⟨b, -, hc⟩ := h.ok
  exact eachPut_of_ok hc fun c' name m input hc' hm =>
    putOrder_outcome ((hc'.desk name m hm).2 q.real)

/-- Bob asks 100 and alice 99. -/
def sampleOwn : List Request :=
  [requestAt 0 bob (depositOf "ETH" 1 "10"), requestAt 0 alice (depositOf "ETH" 2 "10"),
    requestAt 0 bob (depositOf "USDT" 3 "1000"),
    requestAt 1 bob (.orderPut (limitOrder .ask "2" "100")),
    requestAt 1 alice (.orderPut (limitOrder .ask "1" "99"))]

/-- A bid of bob trades with alice and is stopped by his own ask: two are left, and nothing is
frozen for them. -/
theorem Reachable.putOrder_safe_own :
    ∃ (c : Controller) (m : Market) (o : Order) (m' : Market) (x' : Ctx),
    Reachable releaseEnv sampleSettings c ∧
    c.markets.find? "ETH_USDT" = some m ∧ m'.OwnAhead o ∧ o.remain = 2 ∧ m'.resting o.id = none ∧
    x'.balanceManager.get bob .freeze "USDT" = 0 ∧
    ∃ ts, x'.persistor.trades = (c.ctx true).persistor.trades ++ ts ∧
    (∀ t ∈ ts, t.askUserId ≠ t.bidUserId) ∧ o.finishedBase = (ts.map Trade.amount).sum := by
  have h : (sampleRun releaseEnv sampleOwn >>=
      fun c => unwrap .marketName (c.markets.find? "ETH_USDT") >>= fun m =>
      unwrap .replay (OrderInput.tryFrom releaseEnv (limitOrder .bid "3" "100")).toOption >>=
        fun input =>
      m.putOrder releaseEnv 2 (c.ctx true) input bob >>= fun r => unwrap .replay r.1.toOption >>=
        fun o =>
      unwrap .lookup (r.2.1.resting 1) >>= fun p =>
      pure (o.remain, decide (p.user = o.user ∧ p.side ≠ o.side ∧ o.type_ = .limit ∧
        (askOf o p).price ≤ (bidOf o p).price),
        m.disableSelfTrade, r.2.2.balanceManager.get bob .freeze "USDT")) =
      (.ok (2, true, true, 0) : Except Panic (Decimal × Bool × Bool × Decimal)) := by decide +kernel
  simp only [bind_ok, pure_ok, unwrap_ok, toOption_some, Prod.mk.injEq, decide_eq_true_eq] at h
  obtain ⟨c, hc, m, hm, input, hinput, ⟨-, m', x'⟩, hput, o, rfl, p, hp, hremain,
      ⟨huser, hside, hlim, hmeets⟩, hdis, hfreeze⟩ := h
  have hreach := sampleRun_reachable hc
  have hown : m'.OwnAhead o :=
    ⟨by rw [hremain]; norm_num, 1, p, hp, huser, hside, fun _ => not_lt.2 hmeets⟩
  have hall := hreach.putOrder_safe (requestAt 2 bob (.orderPut (limitOrder .bid "3" "100")))
  have hcheck := putOrder_input hput
  obtain ⟨ts, htrades, -, -, hsafe⟩ := hall m input hm hinput hcheck o m' x' hput
  obtain ⟨hgone, hsum, -⟩ := hsafe.stopped hdis hown
  exact ⟨c, m, o, m', x', hreach, hm, hown, hremain, hgone, hfreeze, ts, htrades rfl,
    hsafe.selfTrade hdis, hsum⟩

end Dingir
