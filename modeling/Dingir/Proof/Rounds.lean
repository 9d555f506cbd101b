import Dingir.Proof.Book
import Dingir.Proof.Sides

/-!
# The rounds of an order

An order that is put comes to the orders of the other side one after the other. In
each round it stops (`Stops`) or makes a trade (`Generates`), and by then it has
traded with all makers before (`Rounds`). `Comes` says that the loop comes to a
maker, also where a later round does not return; **`putOrder_rounds`** is what a
put that returns has done.
-/

namespace Dingir

open Keyed Outcome Market

/-- The trade is one of `taker` with `maker`, at the price of the maker. -/
structure Trade.Between (t : Trade) (taker maker : Order) : Prop where
  price : t.price = maker.price
  quoteAmount : t.quoteAmount = t.price * t.amount
  askUser : t.askUserId = (askOf taker maker).user
  bidUser : t.bidUserId = (bidOf taker maker).user
  askOrder : t.askOrderId = (askOf taker maker).id
  bidOrder : t.bidOrderId = (bidOf taker maker).id
  taken : t.TakenBy taker

namespace Market

/-- The matching loop before its first round, when the order has been told. -/
def openState (m : Market) (x : Ctx) (taker : Order) : MatchState :=
  { market := m, ctx := x, taker, quoteSum := 0, finishedOrders := [], needCancel := false }

def startState (m : Market) (x : Ctx) (taker : Order) : MatchState :=
  m.openState { x with persistor := x.persistor.putOrder taker .put } taker

/-- The order `put_order` tries for an input. -/
def putTaker (m : Market) (now : Timestamp) (x : Ctx) (input : OrderInput) (u : Uuid) : Order :=
  m.newOrder (x.sequencer.orderId + 1) now input u

/-- The state it starts in. -/
def putState (m : Market) (now : Timestamp) (x : Ctx) (input : OrderInput)
    (u : Uuid) : MatchState :=
  m.startState { x with sequencer := x.sequencer.nextOrderId.2 } (m.putTaker now x input u)

/-- **An accepted order comes to the maker behind `rc`** in the state `s`. -/
structure Comes (E : Env) (now : Timestamp) (u : Uuid) (m : Market) (x : Ctx) (input : OrderInput)
    (ql : Decimal) (rc : OrderRc) (s : MatchState) : Prop where
  accepted : m.checkInput E x.balanceManager input u = .ok ()
  budget : m.quoteLimit x.balanceManager input u = .ok ql
  reached : (rc, s) ∈ heads (matchMaker E now ql) (m.counterOrders (m.putTaker now x input u))
    (m.putState now x input u)

variable {E : Env} {now : Timestamp} {u : Uuid} {ql amount : Decimal} {rc : OrderRc}
  {s s' : MatchState} {m m' : Market} {x x' : Ctx} {taker maker o : Order} {t : Trade}
  {ts : List Trade} {done rest : List OrderRc} {input : OrderInput}

/-! ## One round -/

/-- The maker belongs to the taker, and self trades are disabled. -/
def MatchState.Own (s : MatchState) (rc : OrderRc) : Prop :=
  (s.market.rcs.read rc).user = s.taker.user ∧ s.market.disableSelfTrade = true

/-- A round that makes a trade of `amount`. -/
structure Generates (s : MatchState) (ql : Decimal) (rc : OrderRc) (amount : Decimal) :
    Prop extends Tries s ql rc amount where
  notOwn : ¬s.Own rc

/-- Why a round ends the loop. -/
inductive Stops (s : MatchState) (ql : Decimal) (rc : OrderRc) : Prop
  | filled : s.taker.remain = 0 → Stops s ql rc
  | apart : s.taker.type_ = .limit → s.taker.Apart (s.market.rcs.read rc) → Stops s ql rc
  | postOnly : s.taker.postOnly = true → Stops s ql rc
  | own : s.Own rc → Stops s ql rc
  | spent : s.market.tradedBaseAmount s.taker (askOf s.taker (s.market.rcs.read rc))
      (bidOf s.taker (s.market.rcs.read rc))
      (s.market.rcs.read rc).price ql s.quoteSum = .ok none → Stops s ql rc

theorem sides_user :
    (askOf taker maker).user = (bidOf taker maker).user ↔ maker.user = taker.user := by
  unfold askOf bidOf
  split <;> simp [eq_comm]

theorem sides_congr (o o' maker : Order) (hs : o'.side = o.side) (hu : o'.user = o.user)
    (hid : o'.id = o.id) :
    (askOf o' maker).user = (askOf o maker).user ∧ (bidOf o' maker).user = (bidOf o maker).user ∧
      (askOf o' maker).id = (askOf o maker).id ∧ (bidOf o' maker).id = (bidOf o maker).id := by
  unfold askOf bidOf Order.isAsk
  rw [hs]
  split <;> simp [hu, hid]

/-- **A round that makes a trade** executes it and goes on. -/
theorem Generates.matchMaker (h : Generates s ql rc amount) :
    matchMaker E now ql rc s =
      (executeTrade E now ql rc amount s >>= fun s' => pure (.yield s')) := by
  have hapart : ¬(s.taker.type_ = .limit ∧
      (bidOf s.taker (s.market.rcs.read rc)).price <
      (askOf s.taker (s.market.rcs.read rc)).price) := fun hc =>
    absurd (h.crosses hc.1) (not_le.2 hc.2)
  have hown : ¬((askOf s.taker (s.market.rcs.read rc)).user =
      (bidOf s.taker (s.market.rcs.read rc)).user ∧
      s.market.disableSelfTrade = true) := fun hc => h.notOwn ⟨sides_user.1 hc.1, hc.2⟩
  unfold Market.matchMaker
  simp only [if_neg h.takerOpen, if_neg hapart, h.notPostOnly, Bool.false_eq_true, if_false,
    if_neg hown, h.amount]
  rfl

/-- **A round of the loop** that returns ends it, or makes a trade. -/
theorem matchMaker_round {r : ForInStep MatchState} (h : matchMaker E now ql rc s = .ok r) :
    (Stops s ql rc ∧ ∃ b, r = .done { s with needCancel := b }) ∨
      ∃ amount s', Generates s ql rc amount ∧ executeTrade E now ql rc amount s = .ok s' ∧
        r = .yield s' := by
  unfold Market.matchMaker at h
  simp only at h
  split at h
  · rename_i hz
    exact .inl ⟨.filled hz, s.needCancel, (pure_ok.1 h).symm⟩
  rename_i hopen
  split at h
  · rename_i hapart
    exact .inl ⟨.apart hapart.1 hapart.2, s.needCancel, (pure_ok.1 h).symm⟩
  rename_i hcross
  split at h
  · rename_i hpost
    exact .inl ⟨.postOnly hpost, true, (pure_ok.1 h).symm⟩
  rename_i hpost
  split at h
  · rename_i hown
    exact .inl ⟨.own ⟨sides_user.1 hown.1, hown.2⟩, true, (pure_ok.1 h).symm⟩
  rename_i hown
  obtain ⟨o, ho, h⟩ := bind_ok.1 h
  cases o with
  | none =>
    simp only [pure_ok] at h
    exact .inl ⟨.spent ho, s.needCancel, h.symm⟩
  | some amount =>
    simp only [bind_ok, pure_ok] at h
    obtain ⟨s', hs', rfl⟩ := h
    exact .inr ⟨amount, s',
      ⟨⟨hopen, fun hl => not_lt.1 fun hlt => hcross ⟨hl, hlt⟩, by simpa using hpost, ho⟩,
      fun hc => hown ⟨sides_user.2 hc.1, hc.2⟩⟩, hs', rfl⟩

/-! ## The rounds so far -/

/-- A trade of `taker` with the maker behind `rc`, in a loop over the orders of `m` that is in the
state `s`. -/
structure MadeWith (now : Timestamp) (m : Market) (taker : Order) (s : MatchState) (rc : OrderRc)
    (t : Trade) : Prop where
  between : t.Between taker (m.rcs.read rc)
  maker : s.market.rcs.read rc = filledMaker now taker.isAsk (m.rcs.read rc) t

/-- **The loop has traded with the makers `done`**, in the trades `ts`, and `rest` are still to
come. -/
structure Rounds (E : Env) (now : Timestamp) (u : Uuid) (ql : Decimal) (m : Market) (x : Ctx)
    (taker : Order) (done rest : List OrderRc) (s : MatchState) (ts : List Trade) : Prop where
  loop : LoopOK E now u AnyOrder ql (startDesk m x taker ql) (m.counterOrders taker) rest s
  handles : done ++ rest = m.counterOrders taker
  tried : Tried m x ⟨taker, ql, 0⟩ s.market s.ctx (s.taking ql) ts
  length : done.length = ts.length
  made : ∀ rc t, (rc, t) ∈ done.zip ts → MadeWith now m taker s rc t
  others : ∀ r, r ∉ done → s.market.rcs.read r = m.rcs.read r
  going : s.needCancel = false
  reached : heads (matchMaker E now ql) rest s ⊆ heads (matchMaker E now ql) (m.counterOrders taker)
    (m.openState x taker)

/-- The order of a loop has the offer it was put with, less what it traded. -/
theorem Rounds.order (h : Rounds E now u ql m x taker done rest s ts) :
    s.taker = { taker with
      remain := taker.remain - (ts.map Trade.amount).sum
      finishedBase := taker.finishedBase + (ts.map Trade.amount).sum
      finishedQuote := s.taker.finishedQuote
      finishedFee := s.taker.finishedFee
      updateTime := s.taker.updateTime } := h.tried.order

theorem Rounds.start :
    Rounds E now u ql m x taker [] (m.counterOrders taker) (m.openState x taker) [] :=
  ⟨⟨.refl, rfl, fun _ hk => Option.some.inj hk ▸ rfl, [], rfl, fun _ _ => rfl, rfl, by simp⟩, rfl,
    Tried.refl m x _, rfl, by simp,
    fun _ _ => rfl, rfl, List.Subset.refl _⟩

/-- The next maker is as it was put, and a round that trades meets it. -/
theorem Rounds.meets (hd : DeskOK (startDesk m x taker ql)) (hq : m.Quiet)
    (h : Rounds E now u ql m x taker done (rc :: rest) s ts) :
    s.market.rcs.read rc = m.rcs.read rc ∧ ∀ amount, Tries s ql rc amount →
    Meets s.market (s.taking ql) rc :=
  h.loop.meets hd hq rfl rfl

/-- The loop comes to the next maker. -/
theorem Rounds.comes (h : Rounds E now u ql m x taker done (rc :: rest) s ts) :
    (rc, s) ∈ heads (matchMaker E now ql) (m.counterOrders taker) (m.openState x taker) :=
  h.reached List.mem_cons_self

theorem Rounds.not_done (hd : DeskOK (startDesk m x taker ql))
    (h : Rounds E now u ql m x taker done (rc :: rest) s ts) : rc ∉ done := by
  have hnodup := (counterOrders_spec hd.index taker).1
  rw [show (startDesk m x taker ql).market.counterOrders taker = m.counterOrders taker from rfl,
    ← h.handles] at hnodup
  exact fun hmem => (List.nodup_append.1 hnodup).2.2 rc hmem rc (by simp) rfl

/-- **A round that trades** adds its maker and its trade. -/
theorem Rounds.trade (hd : DeskOK (startDesk m x taker ql)) (hq : m.Quiet)
    (h : Rounds E now u ql m x taker done (rc :: rest) s ts) (hg : Generates s ql rc amount)
    (hex : executeTrade E now ql rc amount s = .ok s') :
    ∃ t, Trades now s.market s.ctx (s.taking ql) rc t s'.market s'.ctx ∧ t.amount = amount ∧
      s'.taking ql = filledTaking now (s.taking ql) t ∧
      Rounds E now u ql m x taker (done ++ [rc]) rest s' (ts ++ [t]) := by
  obtain ⟨hread, hmeets⟩ := h.meets hd hq
  have hmeet := hmeets amount hg.toTries
  have hnew := h.not_done hd
  have hround : matchMaker E now ql rc s = .ok (.yield s') := by
    rw [hg.matchMaker, hex]
    rfl
  have hloop := h.loop.yield hd hq rfl rfl hround
  obtain ⟨t, ht, htaking, -, hnc, -⟩ :=
    executeTrade_spec (Steps.deskOK h.loop.works.steps hd) hmeet hg.amount hex
  have hask : s.taker.isAsk = taker.isAsk := by rw [h.order]; rfl
  have hamount : t.amount = amount := by
    have hta := ht.amount
    rw [ht.price] at hta
    exact Option.some.inj (Except.ok.inj (hta.symm.trans hg.amount))
  have hread' : ∀ r, r ≠ rc → s'.market.rcs.read r = s.market.rcs.read r := by
    intro r hr
    rw [ht.market]
    exact Heap.write_read_of_ne _ _ hr
  have htried := h.tried.trade hmeet ht
  rw [← htaking] at htried
  have hmade : MadeWith now m taker s' rc t := by
    obtain ⟨hau, hbu, hai, hbi⟩ := sides_congr taker s.taker (m.rcs.read rc)
      (by rw [h.order]) (by rw [h.order]) (by rw [h.order])
    refine ⟨⟨by rw [ht.price, hread], ht.quoteAmount, by rw [ht.askUser, hread]; exact hau,
      by rw [ht.bidUser, hread]; exact hbu, by rw [ht.askOrder, hread]; exact hai,
      by rw [ht.bidOrder, hread]; exact hbi, ?_⟩, ?_⟩
    · exact htried.taker t (by simp)
    · rw [ht.market, show (s.taking ql).order.isAsk = taker.isAsk from hask, hread]
      exact Heap.write_read_self _ _ _
  refine ⟨t, ht, hamount, htaking, hloop, by rw [List.append_assoc]; exact h.handles,
    htried, by simp [h.length], ?_,
    fun r hr => ?_, hnc.trans h.going, List.Subset.trans (heads_of_yield hround) h.reached⟩
  · -- the makers before keep what their trades left of them
    intro r t' hmem
    rw [List.zip_append h.length] at hmem
    rcases List.mem_append.1 hmem with hmem | hmem
    · have hr : r ≠ rc := fun he => hnew (he ▸ (List.of_mem_zip hmem).1)
      obtain ⟨hbetween, hmaker⟩ := h.made r t' hmem
      exact ⟨hbetween, by rw [hread' r hr, hmaker]⟩
    · obtain ⟨rfl, rfl⟩ : r = rc ∧ t' = t := by simpa using hmem
      exact hmade
  · rw [List.mem_append, List.mem_singleton, not_or] at hr
    rw [hread' r hr.2, h.others r hr.1]

/-- What holds before the first round and is kept by every trade. -/
structure Carried (E : Env) (now : Timestamp) (u : Uuid) (ql : Decimal) (m : Market) (x : Ctx)
    (taker : Order) (P : List OrderRc → List OrderRc → MatchState → List Trade → Prop) : Prop where
  start : P [] (m.counterOrders taker) (m.openState x taker) []
  trade : ∀ {done rc rest s s' ts t}, Rounds E now u ql m x taker done (rc :: rest) s ts →
    P done (rc :: rest) s ts →
    Generates s ql rc t.amount → executeTrade E now ql rc t.amount s = .ok s' →
    Trades now s.market s.ctx (s.taking ql) rc t s'.market s'.ctx →
    s'.taking ql = filledTaking now (s.taking ql) t → P (done ++ [rc]) rest s' (ts ++ [t])

variable {P : List OrderRc → List OrderRc → MatchState → List Trade → Prop}

theorem Carried.yield (hP : Carried E now u ql m x taker P) (hd : DeskOK (startDesk m x taker ql))
    (hq : m.Quiet) (h : Rounds E now u ql m x taker done (rc :: rest) s ts)
    (hs : P done (rc :: rest) s ts) (hr : matchMaker E now ql rc s = .ok (.yield s')) :
    ∃ t, Rounds E now u ql m x taker (done ++ [rc]) rest s' (ts ++ [t]) ∧
      P (done ++ [rc]) rest s' (ts ++ [t]) := by
  rcases matchMaker_round hr with ⟨-, b, hb⟩ | ⟨amount, s₁, hg, hex, hs₁⟩
  · cases hb
  obtain rfl : s' = s₁ := by simpa using hs₁
  obtain ⟨t, ht, rfl, htaking, hrounds⟩ := h.trade hd hq hg hex
  exact ⟨t, hrounds, hP.trade h hs hg hex ht htaking⟩

theorem carried_true : Carried E now u ql m x taker fun _ _ _ _ => True :=
  ⟨trivial, fun _ _ _ _ _ _ => trivial⟩

theorem Carried.and {Q : List OrderRc → List OrderRc → MatchState → List Trade → Prop}
    (hP : Carried E now u ql m x taker P) (hQ : Carried E now u ql m x taker Q) :
    Carried E now u ql m x taker fun done rest s ts => P done rest s ts ∧ Q done rest s ts :=
  ⟨⟨hP.start, hQ.start⟩, fun hrounds hs hg hex ht htaking =>
    ⟨hP.trade hrounds hs.1 hg hex ht htaking, hQ.trade hrounds hs.2 hg hex ht htaking⟩⟩

/-- What the order has left and has paid after a trade. -/
theorem filled_after (htaking : s'.taking ql = filledTaking now (s.taking ql) t) :
    s'.taker.remain = s.taker.remain - t.amount ∧
    s'.taker.finishedQuote = s.taker.finishedQuote + t.quoteAmount ∧
    s'.quoteSum = s.quoteSum + t.quoteAmount := by
  have htaker : s'.taker = (filledTaking now (s.taking ql) t).order := congrArg Taking.order htaking
  rw [htaker]
  exact ⟨rfl, rfl, congrArg Taking.quoteSum htaking⟩

/-- What an order has paid is what its trades add up to. -/
theorem paid_carried : Carried E now u ql m x taker fun _ _ s ts =>
    s.quoteSum = (ts.map Trade.quoteAmount).sum ∧
    s.taker.finishedQuote = taker.finishedQuote + s.quoteSum := by
  constructor
  · exact ⟨rfl, (add_zero _).symm⟩
  · rintro done rc rest s s' ts t - ⟨hsum, hpaid⟩ - - - htaking
    obtain ⟨-, hquote, hqs⟩ := filled_after htaking
    constructor
    · rw [hqs, hsum, List.map_append, List.sum_append]
      simp
    · rw [hquote, hqs, hpaid, add_assoc]

/-! ## What is left of the makers -/

/-- A maker that has been tried rests with what its trade left of it. -/
theorem Rounds.resting_done (hd : DeskOK (startDesk m x taker ql))
    (h : Rounds E now u ql m x taker done rest s ts) (hmem : (rc, t) ∈ done.zip ts) :
    s.market.resting (m.rcs.read rc).id = some (filledMaker now taker.isAsk (m.rcs.read rc) t) := by
  have hcounter := (counterOrders_spec hd.index taker).2 rc (by
    show rc ∈ m.counterOrders taker
    rw [← h.handles]
    exact List.mem_append_left _ (List.of_mem_zip hmem).1)
  refine resting_some.2 ⟨rc, ?_, (h.made rc t hmem).maker⟩
  rw [h.loop.orders]
  exact hcounter.1

/-- All other orders rest as they did. -/
theorem Rounds.resting_other (hd : DeskOK (startDesk m x taker ql))
    (h : Rounds E now u ql m x taker done rest s ts) {id : ℕ}
    (hid : ∀ r ∈ done, (m.rcs.read r).id ≠ id) : s.market.resting id = m.resting id := by
  unfold resting
  rw [show s.market.orders = m.orders from h.loop.orders]
  cases ho : m.orders[id]? with
  | none => rfl
  | some r =>
    have hr : r ∉ done := fun hmem => hid r hmem (hd.index.ownId id r ho)
    simp [h.others r hr]

/-! ## The end of a put -/

/-- Removing the filled makers takes them out of the book, and trades nothing. -/
theorem finish_resting {items : List Order} {y y' : Market × Ctx}
    (h : items.foldlM (fun (mx : Market × Ctx) item => mx.1.orderFinish E mx.2 item) y = .ok y') :
    (∀ id, y'.1.resting id = if id ∈ items.map Order.id then none else y.1.resting id) ∧
      y'.2.persistor.trades = y.2.persistor.trades ∧
      y'.2.persistor.realPersist = y.2.persistor.realPersist ∧
      y'.2.sequencer = y.2.sequencer := by
  induction items generalizing y with
  | nil =>
    rw [List.foldlM_nil, pure_ok] at h
    subst h
    exact ⟨fun id => by simp, rfl, rfl, rfl⟩
  | cons o items ih =>
    rw [List.foldlM_cons, bind_ok] at h
    obtain ⟨⟨m₁, x₁⟩, hz, h⟩ := h
    obtain ⟨hrest, htrades, hreal, hseq⟩ := ih h
    obtain ⟨hmarket, bm, -, hctx⟩ := orderFinish_ok hz
    refine ⟨fun id => ?_, ?_, ?_, ?_⟩
    · rw [hrest, hmarket, resting_without]
      by_cases hid : o.id = id
      · simp [hid]
      · simp [hid, Ne.symm hid]
    · rw [htrades, hctx, PersistExector.trades_putOrder]
    · rw [hreal, hctx, PersistExector.realPersist_putOrder]
    · rw [hseq, hctx]

/-- **What a put leaves**, when its loop ended in the state `s` after the trades `ts`. -/
structure PutEnds (x : Ctx) (taker : Order) (s : MatchState) (ts : List Trade) (o : Order)
    (m' : Market) (x' : Ctx) : Prop where
  order : o = s.taker ∨ o = s.taker.rested
  resting : ∀ id, id ≠ taker.id → m'.resting id = (s.market.resting id).filter fun p => p.remain ≠ 0
  trades : x.persistor.realPersist = true → x'.persistor.trades = x.persistor.trades ++ ts
  tradeId : x'.sequencer.tradeId = x.sequencer.tradeId + ts.length

/-- **The loop has ended** after its rounds, for a reason. -/
theorem loop_rounds (hq : m.Quiet) (hd : DeskOK (startDesk m x taker ql))
    (hP : Carried E now u ql m x taker P)
    (h : forBreak (matchMaker E now ql) (m.counterOrders taker) (m.openState x taker) = .ok s') :
    ∃ done rest s ts, Rounds E now u ql m x taker done rest s ts ∧ P done rest s ts ∧
      (∀ rc rest', rest = rc :: rest' → Stops s ql rc) ∧ ∃ b, s' = { s with needCancel := b } := by
  -- at the head of every round some makers are done, and the loop is left at the last of them
  let Head (rest : List OrderRc) (s : MatchState) : Prop :=
    ∃ done ts, Rounds E now u ql m x taker done rest s ts ∧ P done rest s ts
  let Left (s' : MatchState) : Prop :=
    ∃ done rest s ts, Rounds E now u ql m x taker done rest s ts ∧ P done rest s ts ∧
    (∀ rc rest', rest = rc :: rest' → Stops s ql rc) ∧ ∃ b, s' = { s with needCancel := b }
  show Left s'
  refine forBreak_rule (P := Head) (Q := Left) ?_ ?_ ?_ _ _ s' ⟨[], [], .start, hP.start⟩ h
  · rintro s ⟨done, ts, hrounds, hs⟩
    exact ⟨done, [], s, ts, hrounds, hs, by simp, s.needCancel, rfl⟩
  · rintro rc rest s s'' ⟨done, ts, hrounds, hs⟩ hround
    obtain ⟨t, hnext⟩ := hP.yield hd hq hrounds hs hround
    exact ⟨_, _, hnext⟩
  · rintro rc rest s s'' ⟨done, ts, hrounds, hs⟩ hround
    rcases matchMaker_round hround with ⟨hstops, b, hb⟩ | ⟨amount, s₁, -, -, hs₁⟩
    · refine ⟨done, rc :: rest, s, ts, hrounds, hs, fun r rest' he => ?_, b, by simpa using hb⟩
      exact (List.cons.inj he).1 ▸ hstops
    · cases hs₁

/-- The loop of a put that returns has made its rounds, and ended for a reason. -/
theorem executeOrder_rounds (hq : m.Quiet)
    (hd : DeskOK (startDesk m { x with persistor := x.persistor.putOrder taker .put } taker ql))
    (hP : Carried E now u ql m { x with persistor := x.persistor.putOrder taker .put } taker P)
    (h : m.executeOrder E now x taker ql = .ok (o, m', x')) :
    ∃ done rest s ts, Rounds E now u ql m { x with persistor := x.persistor.putOrder taker .put }
      taker done rest s ts ∧
      P done rest s ts ∧ (∀ rc rest', rest = rc :: rest' → Stops s ql rc) ∧
      PutEnds x taker s ts o m' x' := by
  set x₀ : Ctx := { x with persistor := x.persistor.putOrder taker .put } with hx₀
  unfold executeOrder at h
  simp only [bind_ok] at h
  obtain ⟨s', hloop, ⟨m₁, x₁⟩, hfinish, h⟩ := h
  obtain ⟨done, rest, s, ts, hrounds, hs, hstops, b, rfl⟩ := loop_rounds hq hd hP hloop
  refine ⟨done, rest, s, ts, hrounds, hs, hstops, ?_⟩
  have hloopEnd := loop_steps (u := u) (A := AnyOrder) hd hq rfl rfl rfl hloop
  obtain ⟨hresting, htrades, hreal, hseq⟩ := finish_resting hfinish
  -- the makers put aside are those that are filled
  have hkept : ∀ id, m₁.resting id = (s.market.resting id).filter fun p => p.remain ≠ 0 := by
    intro id
    rw [hresting]
    show (if id ∈ s.finishedOrders.map Order.id then none else s.market.resting id) = _
    cases hp : s.market.resting id with
    | none => simp
    | some p =>
      have hindex := (Steps.deskOK hrounds.loop.works.steps hd).index
      by_cases hz : p.remain = 0
      · have hmem : p ∈ s.finishedOrders := hloopEnd.all id p hp hz
        rw [if_pos (List.mem_map.2 ⟨p, hmem, hindex.resting_id hp⟩)]
        simp [Option.filter, hz]
      · rw [if_neg]
        · simp [Option.filter, hz]
        rintro hmem
        obtain ⟨p', hp', hid⟩ := List.mem_map.1 hmem
        obtain ⟨hz', hr⟩ := hloopEnd.stored p' hp'
        rw [hid] at hr
        exact hz (Option.some.inj (hp.symm.trans hr) ▸ hz')
  have hmade : x.persistor.realPersist = true → x₁.persistor.trades = x.persistor.trades ++ ts := by
    intro hr
    rw [htrades]
    show s.ctx.persistor.trades = _
    rw [hrounds.tried.trades (by simpa [hx₀] using hr)]
    simp [hx₀]
  have hid : x₁.sequencer.tradeId = x.sequencer.tradeId + ts.length := by
    rw [hseq]
    exact hrounds.tried.tradeId
  have hclose : ∀ {y}, y = { x₁ with persistor := x₁.persistor.putOrder s.taker .finish } →
    PutEnds x taker s ts s.taker m₁ y := by
    rintro y rfl
    exact ⟨.inl rfl, fun id _ => hkept id, fun hr => by simpa using hmade hr, hid⟩
  simp only at h
  split at h
  · simp only [pure_ok, Prod.mk.injEq] at h
    obtain ⟨rfl, rfl, hx⟩ := h
    exact hclose hx.symm
  split at h
  · simp only [pure_ok, Prod.mk.injEq] at h
    obtain ⟨rfl, rfl, hx⟩ := h
    exact hclose hx.symm
  split at h
  · simp only [pure_ok, Prod.mk.injEq] at h
    obtain ⟨rfl, rfl, hx⟩ := h
    exact hclose hx.symm
  simp only [bind_ok, pure_ok, Prod.mk.injEq] at h
  obtain ⟨⟨o₂, m₂⟩, hinsert, bm, -, rfl, rfl, rfl⟩ := h
  obtain ⟨rfl, rfl⟩ := insertOrder_ok hinsert
  refine ⟨.inr rfl, fun id hne => ?_, hmade, hid⟩
  have hindex :=
    (Steps.deskOK
    (finish_steps hd hloopEnd.works hloopEnd.stored hloopEnd.nodup hloopEnd.all hfinish).1.steps
    hd).index
  have hid' : s.taker.rested.id = taker.id := by
    show s.taker.id = taker.id
    rw [hrounds.order]
  rw [← hkept, resting_withRest hindex, hid', if_neg hne.symm]

/-- What an accepted order starts from is well formed. -/
theorem putState_ok (now : Timestamp) (hd : DeskOK ⟨m, x, none⟩)
    (hcheck : m.checkInput E x.balanceManager input u = .ok ())
    (hql : m.quoteLimit x.balanceManager input u = .ok ql) :
    DeskOK ((m.putState now x input u).desk ql) := by
  have haccept : Step E now u AnyOrder ⟨m, x, none⟩ _ := Step.accept trivial hcheck hql
  exact haccept.deskOK hd

/-- **A put that returns** has made its rounds, and ended for a reason. -/
theorem putOrder_rounds (hd : DeskOK ⟨m, x, none⟩)
    (h : m.putOrder E now x input u = .ok (.ok o, m', x'))
    (hP : ∀ ql, m.quoteLimit x.balanceManager input u = .ok ql →
      Carried E now u ql m (m.putState now x input u).ctx (m.putTaker now x input u) P) :
    ∃ ql done rest s ts, m.quoteLimit x.balanceManager input u = .ok ql ∧
      Rounds E now u ql m (m.putState now x input u).ctx (m.putTaker now x input u) done rest s ts ∧
      P done rest s ts ∧
      (∀ rc rest', rest = rc :: rest' → Stops s ql rc) ∧
        PutEnds x (m.putTaker now x input u) s ts o m' x' := by
  have hcheck := putOrder_input h
  unfold putOrder at h
  rw [hcheck] at h
  simp only [bind_ok, pure_ok, Prod.mk.injEq, Except.ok.injEq] at h
  obtain ⟨ql, hql, ⟨o, m', x'⟩, hex, rfl, rfl, rfl⟩ := h
  obtain ⟨done, rest, s, ts, hrounds, hs, hstops, hends⟩ := executeOrder_rounds
    (x := { x with sequencer := x.sequencer.nextOrderId.2 }) (hd.quiet rfl)
    (putState_ok now hd hcheck hql) (hP ql hql) hex
  exact ⟨ql, done, rest, s, ts, hql, hrounds, hs, hstops, hends.order, hends.resting, hends.trades,
    hends.tradeId⟩

/-- **An order that comes to a maker** has traded with all before it. -/
theorem Comes.rounds (hd : DeskOK ⟨m, x, none⟩) (h : Comes E now u m x input ql rc s)
    (hP : Carried E now u ql m (m.putState now x input u).ctx (m.putTaker now x input u) P) :
    ∃ done rest ts, Rounds E now u ql m (m.putState now x input u).ctx (m.putTaker now x input u)
      done (rc :: rest) s ts ∧
      P done (rc :: rest) s ts := by
  have hstart := putState_ok now hd h.accepted h.budget
  let Head (rest : List OrderRc) (s : MatchState) : Prop := ∃ done ts,
    Rounds E now u ql m (m.putState now x input u).ctx (m.putTaker now x input u) done rest s ts ∧
    P done rest s ts
  have hyield : ∀ rc rest s s', Head (rc :: rest) s → matchMaker E now ql rc s = .ok (.yield s') →
      Head rest s' := by
    rintro rc rest s s' ⟨done, ts, hrounds, hs⟩ hround
    obtain ⟨t, hnext⟩ := hP.yield hstart (hd.quiet rfl) hrounds hs hround
    exact ⟨_, _, hnext⟩
  obtain ⟨rest, done, ts, hrounds⟩ :=
    heads_rule hyield _ _ ⟨[], [], .start, hP.start⟩ rc s h.reached
  exact ⟨done, rest, ts, hrounds⟩

/-- The trades so far have been told. -/
theorem Rounds.told {taker : Order}
    (h : Rounds E now u ql m (m.putState now x input u).ctx taker done rest s ts)
    (hreal : x.persistor.realPersist = true) :
    s.ctx.persistor.realPersist = true ∧ s.ctx.persistor.trades = x.persistor.trades ++ ts := by
  have hput : (m.putState now x input u).ctx.persistor.realPersist = true := by
    simpa [putState, startState, openState] using hreal
  refine ⟨h.tried.real.trans hput, ?_⟩
  simpa [putState, startState, openState] using h.tried.trades hput

/-! ## The trades of an order -/

/-- **An accepted order emits the trade** `t` in a round that leads from `s` to `s'`. -/
structure Emits (E : Env) (now : Timestamp) (u : Uuid) (m : Market) (x : Ctx) (input : OrderInput)
    (ql : Decimal) (rc : OrderRc) (s s' : MatchState) (t : Trade) : Prop where
  round : Comes E now u m x input ql rc s
  generates : Generates s ql rc t.amount
  executed : executeTrade E now ql rc t.amount s = .ok s'
  told : s'.ctx.persistor.trades = s.ctx.persistor.trades ++ [t]

/-- Every trade so far has been emitted in a round of its own. -/
theorem emits_carried (hcheck : m.checkInput E x.balanceManager input u = .ok ())
    (hql : m.quoteLimit x.balanceManager input u = .ok ql)
    (hreal : x.persistor.realPersist = true) :
    Carried E now u ql m (m.putState now x input u).ctx (m.putTaker now x input u) fun _ _ _ ts =>
      ∀ t ∈ ts, ∃ ql rc s s', Emits E now u m x input ql rc s s' t := by
  constructor
  · simp
  · intro done rc rest s s' ts t hrounds hts hg hex ht _ t' ht'
    rcases List.mem_append.1 ht' with hmem | hmem
    · exact hts t' hmem
    · obtain rfl := List.mem_singleton.1 hmem
      exact ⟨ql, rc, s, s', ⟨hcheck, hql, hrounds.comes⟩, hg, hex, ht.trades (hrounds.told hreal).1⟩

/-- A trade that is emitted is a trade step, with the states around it. -/
theorem Emits.trades (hd : DeskOK ⟨m, x, none⟩) (h : Emits E now u m x input ql rc s s' t) :
    DeskOK (s.desk ql) ∧ Meets s.market (s.taking ql) rc ∧
    Trades now s.market s.ctx (s.taking ql) rc t s'.market s'.ctx ∧
      s'.taking ql = filledTaking now (s.taking ql) t ∧ t.stateBefore = s.tradeState rc ∧
      t.stateAfter = s'.tradeState rc := by
  obtain ⟨done, rest, ts, hrounds, -⟩ := h.round.rounds hd carried_true
  have hstart := putState_ok now hd h.round.accepted h.round.budget
  have hdesk : DeskOK (s.desk ql) := Steps.deskOK hrounds.loop.works.steps hstart
  have hmeet := (hrounds.meets hstart (hd.quiet rfl)).2 _ h.generates.toTries
  obtain ⟨t', ht, htaking, -, -, hbefore, hafter⟩ :=
    executeTrade_spec hdesk hmeet h.generates.amount h.executed
  have hr : s.ctx.persistor.realPersist = true := by
    rw [← ht.real]
    exact s'.ctx.persistor.realPersist_of_trades (by rw [h.told]; simp)
  obtain rfl : t' = t := by
    have htold := (ht.trades hr).symm.trans h.told
    simpa using htold
  exact ⟨hdesk, hmeet, ht, htaking, hbefore, hafter⟩

/-! ## A first round -/

/-- The maker an order comes to first, and that it trades with it. -/
def FirstTrade (m : Market) (now : Timestamp) (x : Ctx) (input : OrderInput) (u : Uuid)
    (ql : Decimal) (rc : OrderRc) (amount : Decimal) : Prop :=
  let s := m.putState now x input u
  (m.counterOrders (m.putTaker now x input u)).head? = some rc ∧ s.taker.remain ≠ 0 ∧
    (s.taker.type_ = .limit → (askOf s.taker (s.market.rcs.read rc)).price ≤
      (bidOf s.taker (s.market.rcs.read rc)).price) ∧
    s.taker.postOnly = false ∧
    s.market.tradedBaseAmount s.taker (askOf s.taker (s.market.rcs.read rc))
      (bidOf s.taker (s.market.rcs.read rc))
      (s.market.rcs.read rc).price ql s.quoteSum = .ok (some amount) ∧
    ¬((s.market.rcs.read rc).user = s.taker.user ∧ s.market.disableSelfTrade = true)

instance : Decidable (m.FirstTrade now x input u ql rc amount) :=
  inferInstanceAs (Decidable (_ ∧ _))

theorem FirstTrade.round (h : m.FirstTrade now x input u ql rc amount)
    (hcheck : m.checkInput E x.balanceManager input u = .ok ())
    (hql : m.quoteLimit x.balanceManager input u = .ok ql) :
    Comes E now u m x input ql rc (m.putState now x input u) ∧
    Generates (m.putState now x input u) ql rc amount := by
  obtain ⟨hhead, hopen, hcross, hpost, hamount, hown⟩ := h
  obtain ⟨rest, hrest⟩ := List.head?_eq_some_iff.1 hhead
  exact ⟨⟨hcheck, hql, by rw [hrest]; exact List.mem_cons_self⟩,
    ⟨⟨hopen, hcross, hpost, hamount⟩, hown⟩⟩

end Market

end Dingir
