import Dingir.Proof.Atomic
import Dingir.Proof.Priority
import Dingir.Spec.Producer

/-!
# Whether a call fits the channels of the producers

Whether an order fits is read off the book it meets: `reference` says from whom it
is filled, by priority and within a budget, and every one of these loads the
channels with six messages as a rule (`load`). The matching loop pushes just
that (`loop_pushed`).

**`Reachable.neverPanics_iff`**: so an admitted call fits the headroom when no order
is filled from more than 166 others, and no more than 1001 are cancelled at once.
-/

namespace Dingir

open Keyed Rounding Posting Outcome Market Greedy

variable {E : Env} {settings : Settings} {now : Timestamp} {u : Uuid}
  {A : Market → Ctx → OrderInput → Prop} {c c' b : Controller}

/-! ## A stub -/

/-- **Pushing is safe exactly when all messages fit** beside those that wait. -/
theorem RdProducerStub.neverPanics_accepts {stub : RdProducerStub} {messages : List Message} :
    stub.NeverPanics messages ↔ stub.Accepts (messages.map fun m => (m.topic, m)) := by
  constructor
  · rintro h sent a rest ch hl hch
    obtain ⟨l₁, l₂, rfl, rfl, htail⟩ := List.map_eq_append_iff.1 hl
    obtain ⟨message, l₃, rfl, rfl, -⟩ := List.map_eq_cons_iff.1 htail
    exact h l₁ message l₃ ch rfl hch
  · rintro h sent message rest stub' rfl hstub
    exact h _ _ (rest.map fun m => (m.topic, m)) stub' (by simp) hstub

/-- The stubs that do not block take as many messages as their headroom and one more. -/
theorem RdProducerStub.forall_neverPanics_iff {messages : List Message} :
    (∀ stub : RdProducerStub, stub.isBlock = false → stub.NeverPanics messages) ↔
      messages.length ≤ 1001 := by
  have h := Channel.forall_accepts_iff (l := messages.map fun m => (m.topic, m))
    (show 1047 ≤ 2048 by omega)
  rw [List.length_map] at h
  have hblock : ∀ stub : RdProducerStub, stub.isBlock = false ↔ stub.queue.length ≤ 1047 := by
    intro stub
    unfold isBlock
    rw [decide_eq_false_iff_not]
    omega
  simp only [neverPanics_accepts, hblock, h]
  omega

/-! ## Counting -/

/-- A real persistor was given `n` messages. -/
def PersistExector.Pushed (pe pe' : PersistExector) (n : ℕ) : Prop :=
  ∀ ms, pe = .real ms → ∃ new, pe' = .real (ms ++ new) ∧ new.length = n

namespace PersistExector.Pushed

variable {pe pe' pe'' : PersistExector} {n n' : ℕ}

theorem refl (pe : PersistExector) : pe.Pushed pe 0 :=
  fun ms h => ⟨[], by rw [List.append_nil, h], rfl⟩

theorem trans (h : pe.Pushed pe' n) (h' : pe'.Pushed pe'' n') : pe.Pushed pe'' (n + n') := by
  intro ms hms
  obtain ⟨new, hnew, hlen⟩ := h ms hms
  obtain ⟨new', hnew', hlen'⟩ := h' _ hnew
  exact ⟨new ++ new', by rw [hnew', List.append_assoc], by rw [List.length_append, hlen, hlen']⟩

theorem push (pe : PersistExector) (m : Message) : pe.Pushed (pe.push m) 1 := by
  rintro ms rfl
  exact ⟨[m], rfl, rfl⟩

end PersistExector.Pushed

namespace Market

variable {m m' : Market} {x x' : Ctx} {ql amount : Decimal} {rc : OrderRc} {s s' : MatchState}
  {o : Order}

/-! ## The matching loop -/

/-- Whom and how much the order is filled from, by priority: a market bid at the prices of the
makers and within its budget, any other order as in `greedy`. -/
def reference (m : Market) (taker : Order) (budget : Decimal)
    (makers : List Order) : List (Order × Decimal) :=
  if taker.side = .bid ∧ taker.type_ = .market then
    if taker.postOnly then []
    else buy Order.remain Order.price (truncDp · m.amountPrec) taker.remain budget
      (makers.takeWhile fun maker => m.Matches taker maker)
  else m.greedy taker makers

/-- The order comes to rest: a limit order that is not filled, and meets no further maker. -/
def ComesToRest (m : Market) (taker : Order) (budget : Decimal) (makers : List Order) : Prop :=
  taker.type_ = .limit ∧ ((m.reference taker budget makers).map Prod.snd).sum ≠ taker.remain ∧
    ∀ next ∈ makers[(m.reference taker budget makers).length]?, taker.Apart next

instance {taker : Order} {budget : Decimal} {makers : List Order} :
    Decidable (m.ComesToRest taker budget makers) :=
  inferInstanceAs (Decidable (_ ∧ _ ∧ _))

/-- How the four balances of a trade change. -/
def legs (m : Market) (taker maker : Order) (amount : Decimal) : List Decimal :=
  let cost := maker.price * amount
  let bidFeeRate := if taker.isAsk then maker.makerFee else taker.takerFee
  let askFeeRate := if taker.isAsk then taker.takerFee else maker.makerFee
  [afterFee amount (truncDp (amount * bidFeeRate) m.basePrec), -amount,
    afterFee cost (truncDp (cost * askFeeRate) m.quotePrec), -cost]

/-- The balances a trade leaves as they are: none at a price that is not zero and fee rates below
one. -/
def idle (m : Market) (taker maker : Order) (amount : Decimal) : ℕ :=
  (m.legs taker maker amount).countP (· = 0)

/-- **The load of an order**: six for each order it is filled from, less for balances left as they
are, and one unless it comes to rest. -/
def load (m : Market) (taker : Order) (budget : Decimal) (makers : List Order) : ℕ :=
  ((m.reference taker budget makers).map fun f => 6 - m.idle taker f.1 f.2).sum +
    if m.ComesToRest taker budget makers then 0 else 1

/-- **An order fits**: it is filled from at most 166 others, or some more where trades leave
balances as they are. -/
def PutFits (m : Market) (taker : Order) (budget : Decimal) (makers : List Order) : Prop :=
  6 * (m.reference taker budget makers).length +
    (if m.ComesToRest taker budget makers then 0 else 1) ≤
    1000 + ((m.reference taker budget makers).map fun f => m.idle taker f.1 f.2).sum

/-- What an order loads the channels with: nothing when it is refused, else its `put` as well. -/
def putLoad (E : Env) (now : Timestamp) (m : Market) (x : Ctx) (input : OrderInput)
    (user : Uuid) : ℕ :=
  match m.checkInput E x.balanceManager input user, m.quoteLimit x.balanceManager input user with
  | .ok (), .ok budget =>
    let taker := m.putTaker now x input user
    1 + m.load taker budget (m.makers taker)
  | _, _ => 0

/-! ## The load of an order -/

section Load

variable {taker maker o' : Order} {makers : List Order} {budget : Decimal}

/-- The load is read off the offer of the taker and the terms of the market. -/
theorem load_congr (hm : m.SameTerms m') (ho : SameOffer o o') (budget : Decimal)
    (makers : List Order) : m'.load o' budget makers = m.load o budget makers := by
  have hmatches :
      (fun maker => decide (m'.Matches o' maker)) = fun maker => decide (m.Matches o maker) := by
    rw [← matches_congr ho.side ho.type_ ho.user ho.price]
    funext maker
    exact decide_eq_decide.2 (by rw [Matches, Matches, hm.disableSelfTrade])
  have hreference : m'.reference o' budget makers = m.reference o budget makers := by
    unfold reference greedy
    rw [hmatches, ho.side, ho.type_, ho.postOnly, ho.remain, hm.amountPrec]
  have hisAsk : o'.isAsk = o.isAsk := by rw [Order.isAsk, Order.isAsk, ho.side]
  have hrests : m'.ComesToRest o' budget makers ↔ m.ComesToRest o budget makers := by
    unfold ComesToRest
    rw [hreference, ho.type_, ho.remain]
    simp only [apart_congr ho.side ho.price]
  have hidle : m'.idle o' = m.idle o := by
    funext maker amount
    unfold idle legs
    rw [hisAsk, ho.takerFee, hm.basePrec, hm.quotePrec]
  unfold load
  rw [hreference, hidle]
  simp only [hrests]

/-- Nothing more to trade: the order rests when the next maker is too far, or there is none. -/
theorem load_of_stop (h : m.reference taker budget makers = []) : m.load taker budget makers =
    if taker.type_ = .limit ∧ taker.remain ≠ 0 ∧ ∀ next ∈ makers.head?, taker.Apart next then 0
    else 1 := by
  have hrests : m.ComesToRest taker budget makers ↔
      taker.type_ = .limit ∧ taker.remain ≠ 0 ∧ ∀ next ∈ makers.head?, taker.Apart next := by
    unfold ComesToRest
    rw [h, List.map_nil, List.sum_nil, List.length_nil, List.head?_eq_getElem?, ne_comm]
  unfold load
  rw [h, List.map_nil, List.sum_nil, Nat.zero_add]
  simp only [hrests]

/-- A trade, and the load from then on. -/
theorem load_of_trade {amount rest : Decimal}
    (h : m.reference taker budget (maker :: makers) = (maker, amount) ::
      m.reference { taker with remain := taker.remain - amount } rest makers) :
    m.load taker budget (maker :: makers) =
      6 - m.idle taker maker amount +
        m.load { taker with remain := taker.remain - amount } rest makers := by
  have hidle : m.idle { taker with remain := taker.remain - amount } = m.idle taker := rfl
  have hrests : m.ComesToRest taker budget (maker :: makers) ↔
      m.ComesToRest { taker with remain := taker.remain - amount } rest makers := by
    unfold ComesToRest
    rw [h, List.map_cons, List.sum_cons, List.length_cons, List.getElem?_cons_succ]
    have hsum : ∀ a : Decimal, amount + a ≠ taker.remain ↔ a ≠ taker.remain - amount := fun a => by
      rw [ne_eq, ne_eq, eq_sub_iff_add_eq, add_comm]
    have hapart : ∀ next, { taker with remain := taker.remain - amount }.Apart next ↔
      taker.Apart next :=
      fun next => apart_congr rfl rfl
    rw [hsum]
    simp only [hapart]
  unfold load
  rw [hidle, h, List.map_cons, List.sum_cons, Nat.add_assoc]
  simp only [hrests]

/-- The load of an order is within the headroom exactly when it fits. -/
theorem load_le_iff :
    1 + m.load taker budget makers ≤ 1001 ↔ m.PutFits taker budget makers := by
  have hsum : ∀ fills : List (Order × Decimal), (fills.map fun f => 6 - m.idle taker f.1 f.2).sum +
      (fills.map fun f => m.idle taker f.1 f.2).sum = 6 * fills.length := by
    intro fills
    induction fills with
    | nil => rfl
    | cons f fills ih =>
      have hidle : m.idle taker f.1 f.2 ≤ 4 := List.countP_le_length
      simp only [List.map_cons, List.sum_cons, List.length_cons]
      omega
  have hfills := hsum (m.reference taker budget makers)
  unfold load PutFits
  omega

/-- **An order that is filled from at most 166 others fits**, whatever the fees. -/
theorem putFits_of_length (h : (m.reference taker budget makers).length ≤ 166) :
    m.PutFits taker budget makers := by
  unfold PutFits
  split <;> omega

end Load

/-- **A round that trades** makes the next trade of the reference. -/
theorem Generates.reference (hg : Generates s ql rc amount) (makers : List Order) :
    s.market.reference s.taker (ql - s.quoteSum) (s.market.rcs.read rc :: makers) =
      (s.market.rcs.read rc, amount) ::
        s.market.reference { s.taker with remain := s.taker.remain - amount }
        (ql - (s.quoteSum + (s.market.rcs.read rc).price * amount)) makers := by
  by_cases hbid : s.taker.side = .bid ∧ s.taker.type_ = .market
  · have hmatches : s.market.Matches s.taker (s.market.rcs.read rc) :=
      ⟨fun hlim => absurd (hbid.2.symm.trans hlim) (by simp),
        fun hown => hg.notOwn ⟨hown.2, hown.1⟩⟩
    have hoffer :
        (fun maker =>
        decide (s.market.Matches { s.taker with remain := s.taker.remain - amount } maker)) =
        fun maker => decide (s.market.Matches s.taker maker) := matches_congr rfl rfl rfl rfl
    have hboth : min (askOf s.taker (s.market.rcs.read rc)).remain
        (bidOf s.taker (s.market.rcs.read rc)).remain =
        min s.taker.remain (s.market.rcs.read rc).remain := by
      simp [askOf, bidOf, Order.isAsk, hbid.1, min_comm]
    have hamount := hg.amount
    unfold tradedBaseAmount at hamount
    simp only [hboth] at hamount
    unfold Market.reference
    rw [if_pos hbid, if_pos hbid, if_neg (by simp [hg.notPostOnly]),
      if_neg (by simp [hg.notPostOnly]), hoffer,
      List.takeWhile_cons, if_pos (by simpa using hmatches), ← sub_sub]
    split_ifs at hamount with hlimited hprice hzero
    · simp at hamount
    · obtain rfl := Option.some.inj (Except.ok.inj hamount)
      exact buy_limited _ _ _ hg.takerOpen (by linarith [hlimited.2.2]) hzero _
    · obtain rfl := Option.some.inj (Except.ok.inj hamount)
      have hcost : s.quoteSum +
          (s.market.rcs.read rc).price * min s.taker.remain (s.market.rcs.read rc).remain ≤ ql :=
        not_lt.1 fun hlt => hlimited ⟨hbid.1, hbid.2, hlt⟩
      exact buy_covered _ _ _ hg.takerOpen (by linarith) _
  · have hbid' : ¬({ s.taker with remain := s.taker.remain - amount }.side = .bid ∧
        { s.taker with remain := s.taker.remain - amount }.type_ = .market) := hbid
    unfold Market.reference
    rw [if_neg hbid, if_neg hbid']
    exact hg.greedy hbid rfl makers

/-- **Where the loop stops** the reference has no further trade. -/
theorem Stops.reference (hs : Stops s ql rc) (makers : List Order) :
    s.market.reference s.taker (ql - s.quoteSum) (s.market.rcs.read rc :: makers) = [] := by
  by_cases hbid : s.taker.side = .bid ∧ s.taker.type_ = .market
  · unfold Market.reference
    rw [if_pos hbid]
    have hnone : ¬s.market.Matches s.taker (s.market.rcs.read rc) →
        (s.market.rcs.read rc :: makers).takeWhile
        (fun maker => decide (s.market.Matches s.taker maker)) = [] := by
      intro hno
      rw [List.takeWhile_cons, if_neg (by simpa using hno)]
    cases hs with
    | filled hz => rw [hz, buy_zero, ite_self]
    | apart hlim _ => rw [hbid.2] at hlim; cases hlim
    | postOnly hpost => rw [if_pos hpost]
    | own hown => rw [hnone fun hmatches => hmatches.2 ⟨hown.2, hown.1⟩, buy_nil, ite_self]
    | spent hspent =>
      have hboth : min (askOf s.taker (s.market.rcs.read rc)).remain
          (bidOf s.taker (s.market.rcs.read rc)).remain =
          min s.taker.remain (s.market.rcs.read rc).remain := by
        simp [askOf, bidOf, Order.isAsk, hbid.1, min_comm]
      unfold tradedBaseAmount at hspent
      simp only [hboth] at hspent
      split_ifs at hspent with hlimited hprice hzero
      · rw [List.takeWhile_cons]
        split_ifs
        · rfl
        · exact buy_spent _ _ _ (by linarith [hlimited.2.2]) hzero _
        · rfl
      all_goals simp at hspent
  · unfold Market.reference
    rw [if_neg hbid]
    exact hs.greedy hbid rfl makers

/-- What a trade pushes is read off the two orders and the amount. -/
theorem Trades.load {k : Taking} {t : Trade} (ht : Trades now m x k rc t m' x') :
    (t.postings m k.order.isAsk).countP (fun e => e.2 ≠ 0) + 2 = 6 -
      m.idle k.order (m.rcs.read rc) t.amount := by
  have hq := ht.quoteAmount
  rw [ht.price] at hq
  have hlegs : (t.postings m k.order.isAsk).map Prod.snd =
      m.legs k.order (m.rcs.read rc) t.amount := by
    unfold legs Trade.postings
    rw [ht.askFee, ht.bidFee, hq]
    rfl
  have hsplit := List.length_eq_countP_add_countP (fun v : Decimal => decide (v = 0))
    (l := m.legs k.order (m.rcs.read rc) t.amount)
  rw [show (m.legs k.order (m.rcs.read rc) t.amount).length = 4 from rfl] at hsplit
  have hcount : (t.postings m k.order.isAsk).countP (fun e => e.2 ≠ 0) =
      (m.legs k.order (m.rcs.read rc) t.amount).countP fun v => ¬decide (v = 0) = true := by
    rw [← hlegs, List.countP_map]
    simp [Function.comp_def]
  unfold idle
  rw [hcount]
  omega

/-- What an order pushes when the loop is over. -/
def closeLoad (taker : Order) (needCancel : Bool) : ℕ :=
  if needCancel = true ∨ taker.type_ = .market ∨ taker.remain = 0 then 1 else 0

/-- A round that leaves the loop, and what the order still pushes. -/
theorem matchMaker_done (hnc : s.needCancel = false) (h : matchMaker E now ql rc s = .ok (.done s'))
    (makers : List Order) : ∃ b, s' = { s with needCancel := b } ∧
      s.market.load s.taker (ql - s.quoteSum) (s.market.rcs.read rc :: makers) =
        closeLoad s.taker b := by
  have hstops : Stops s ql rc := by
    rcases matchMaker_round h with ⟨hstops, -⟩ | ⟨_, _, -, -, hyield⟩
    · exact hstops
    · cases hyield
  rw [load_of_stop (hstops.reference makers), List.head?_cons]
  simp only [Option.mem_def, Option.some.injEq, forall_eq']
  unfold matchMaker at h
  simp only at h
  split at h
  · rename_i hz
    simp only [pure_ok, ForInStep.done.injEq] at h
    exact ⟨false, by rw [← h, ← hnc], by simp [closeLoad, hz]⟩
  rename_i hopen
  split at h
  · rename_i hapart
    simp only [pure_ok, ForInStep.done.injEq] at h
    refine ⟨false, by rw [← h, ← hnc], ?_⟩
    rw [if_pos ⟨hapart.1, hopen, hapart.2⟩, closeLoad, if_neg (by simp [hapart.1, hopen])]
  rename_i hcross
  have hclosed :
      ¬(s.taker.type_ = .limit ∧ s.taker.remain ≠ 0 ∧ s.taker.Apart (s.market.rcs.read rc)) :=
    fun hc => hcross ⟨hc.1, hc.2.2⟩
  rw [if_neg hclosed]
  split at h
  · simp only [pure_ok, ForInStep.done.injEq] at h
    exact ⟨true, h.symm, rfl⟩
  split at h
  · simp only [pure_ok, ForInStep.done.injEq] at h
    exact ⟨true, h.symm, rfl⟩
  obtain ⟨o, ho, h⟩ := bind_ok.1 h
  cases o with
  | none =>
    have hmarket : s.taker.type_ = .market := by
      by_contra hno
      cases (tradedBaseAmount_plain fun hc => hno hc.2).symm.trans ho
    simp only [pure_ok, ForInStep.done.injEq] at h
    exact ⟨false, by rw [← h, ← hnc], by simp [closeLoad, hmarket]⟩
  | some amount =>
    simp only [bind_ok, pure_ok] at h
    obtain ⟨_, -, h⟩ := h
    simp at h

/-- The matching loop of an order that pushes `n` messages in all: those it has pushed, those
of the filled makers put aside, and those of the rounds that are left. -/
structure LoopCount (ql : Decimal) (m₀ : Market) (pe₀ : PersistExector) (n : ℕ)
    (rest : List OrderRc) (s : MatchState) : Prop where
  going : s.needCancel = false
  count : ∃ k, pe₀.Pushed s.ctx.persistor k ∧
    k + s.finishedOrders.length + m₀.load s.taker (ql - s.quoteSum) (rest.map m₀.rcs.read) = n

/-- The loop is over: what is left to push are the makers put aside and the end of the order. -/
structure LoopCounted (pe₀ : PersistExector) (n : ℕ) (s : MatchState) : Prop where
  count : ∃ k, pe₀.Pushed s.ctx.persistor k ∧
    k + s.finishedOrders.length + closeLoad s.taker s.needCancel = n

variable {d₀ : Desk} {k₀ : Taking} {all rest : List OrderRc} {pe₀ : PersistExector} {n : ℕ}

/-- A round that trades keeps the count. -/
theorem LoopCount.yield (hd : DeskOK d₀) (hq : d₀.market.Quiet) (hk : d₀.taking = some k₀)
    (hall : all = d₀.market.counterOrders k₀.order)
    (hloop : LoopOK E now u A ql d₀ all (rc :: rest) s)
    (h : LoopCount ql d₀.market pe₀ n (rc :: rest) s)
    (hr : matchMaker E now ql rc s = .ok (.yield s')) : LoopCount ql d₀.market pe₀ n rest s' := by
  obtain ⟨hread, hmeets⟩ := hloop.meets hd hq hk hall
  rcases matchMaker_round hr with ⟨-, b, hb⟩ | ⟨amount, s₁, hg, hex, hs₁⟩
  · cases hb
  obtain rfl : s' = s₁ := by simpa using hs₁
  have htry := hg.toTries
  have hload := load_of_trade (hg.reference (rest.map d₀.market.rcs.read))
  obtain ⟨t, ht, htaking, hfinished, hnc, -⟩ :=
    executeTrade_spec (Steps.deskOK hloop.works.steps hd) (hmeets amount htry) htry.amount hex
  have hterms : d₀.market.SameTerms s.market := hloop.works.steps.sameTerms
  have hamount : t.amount = amount := by
    have := ht.amount
    rw [ht.price] at this
    simpa using this.symm.trans htry.amount
  have htaker : s'.taker = (filledTaking now (s.taking ql) t).order := congrArg Taking.order htaking
  have hsum : s'.quoteSum = s.quoteSum + (s.market.rcs.read rc).price * amount := by
    rw [← ht.price, ← hamount, ← ht.quoteAmount]
    exact congrArg Taking.quoteSum htaking
  have hoffer : SameOffer { s.taker with remain := s.taker.remain - amount } s'.taker := by
    rw [htaker, ← hamount]
    exact ⟨rfl, rfl, rfl, rfl, rfl, rfl, rfl⟩
  obtain ⟨hgoing, k, hpushed, hcount⟩ := h
  -- the messages of the trade
  have htrade : s.ctx.persistor.Pushed s'.ctx.persistor
      ((t.postings s.market s.taker.isAsk).countP (fun e => e.2 ≠ 0) +
        (t.told (filledMaker now s.taker.isAsk (s.market.rcs.read rc) t)).length) := by
    intro ms hms
    obtain ⟨bs, hbs, -, hlen⟩ := ht.messages ms hms
    refine ⟨bs ++ t.told (filledMaker now s.taker.isAsk (s.market.rcs.read rc) t), ?_, ?_⟩
    · rw [← List.append_assoc]; exact hbs
    · rw [List.length_append, hlen]; rfl
  have hmaker : s'.market.rcs.read rc = filledMaker now s.taker.isAsk (s.market.rcs.read rc) t := by
    rw [ht.market]
    exact Heap.write_read_self _ _ _
  have htold : (t.told (filledMaker now s.taker.isAsk (s.market.rcs.read rc) t)).length +
      s'.finishedOrders.length = s.finishedOrders.length + 2 := by
    rw [hfinished, hmaker]
    unfold Trade.told
    by_cases hz : (filledMaker now s.taker.isAsk (s.market.rcs.read rc) t).remain = 0 <;>
      simp [hz] <;> omega
  refine ⟨hnc.trans hgoing, _, hpushed.trans htrade, ?_⟩
  have hlegs := Trades.load ht
  rw [show (s.taking ql).order = s.taker from rfl, hamount] at hlegs
  rw [List.map_cons, ← hread, ← load_congr hterms ⟨rfl, rfl, rfl, rfl, rfl, rfl, rfl⟩, hload,
    ← hlegs] at hcount
  rw [load_congr hterms.symm hoffer, hsum]
  dsimp only at hcount ⊢
  omega

/-- A round that leaves the loop has counted all. -/
theorem LoopCount.done (hloop : LoopOK E now u A ql d₀ all (rc :: rest) s)
    (hread : s.market.rcs.read rc = d₀.market.rcs.read rc)
    (h : LoopCount ql d₀.market pe₀ n (rc :: rest) s)
    (hr : matchMaker E now ql rc s = .ok (.done s')) : LoopCounted pe₀ n s' := by
  have hterms : d₀.market.SameTerms s.market := hloop.works.steps.sameTerms
  obtain ⟨hgoing, k, hpushed, hcount⟩ := h
  obtain ⟨b, rfl, hload⟩ := matchMaker_done hgoing hr (rest.map d₀.market.rcs.read)
  rw [List.map_cons, ← hread, ← load_congr hterms ⟨rfl, rfl, rfl, rfl, rfl, rfl, rfl⟩,
    hload] at hcount
  exact ⟨k, hpushed, hcount⟩

/-- **The matching loop pushes what was counted before it.** -/
theorem loop_pushed (hd : DeskOK d₀) (hq : d₀.market.Quiet) (hk : d₀.taking = some k₀)
    (hs : s.desk ql = d₀) (hfin : s.finishedOrders = []) (hnc : s.needCancel = false)
    (h : forBreak (matchMaker E now ql) (d₀.market.counterOrders k₀.order) s = .ok s') :
    LoopCounted s.ctx.persistor
      (s.market.load s.taker (ql - s.quoteSum)
        ((s.market.counterOrders s.taker).map s.market.rcs.read)) s' := by
  have hstart : LoopOK E now s.taker.user AnyOrder ql d₀ (d₀.market.counterOrders k₀.order)
      (d₀.market.counterOrders k₀.order) s := by
    subst hs
    refine ⟨Relation.ReflTransGen.refl, rfl, fun k hk' => ?_, [], rfl, fun _ _ => rfl,
      hfin, by simp⟩
    rw [← Option.some.inj hk']; rfl
  set n := s.market.load s.taker (ql - s.quoteSum)
    ((s.market.counterOrders s.taker).map s.market.rcs.read) with hn
  have hcount : LoopCount ql d₀.market s.ctx.persistor n (d₀.market.counterOrders k₀.order) s := by
    subst hs
    obtain rfl := Option.some.inj hk
    exact ⟨hnc, 0, .refl _, by rw [hfin, List.length_nil, Nat.zero_add, hn]; rfl⟩
  let P (rest : List OrderRc) (s' : MatchState) : Prop :=
    LoopOK E now s.taker.user AnyOrder ql d₀ (d₀.market.counterOrders k₀.order) rest s' ∧
      LoopCount ql d₀.market s.ctx.persistor n rest s'
  refine forBreak_rule (P := P) (Q := LoopCounted s.ctx.persistor n) (fun t ht => ?_)
    (fun rc rest t t' ht hr => ?_) (fun rc rest t t' ht hr => ?_) _ s s' ⟨hstart, hcount⟩ h
  · obtain ⟨-, hgoing, k, hpushed, hcount⟩ := ht
    refine ⟨k, hpushed, ?_⟩
    rw [List.map_nil, load_of_stop (by simp [Market.reference, Market.greedy])] at hcount
    rw [hgoing, ← hcount]
    cases ht : t.taker.type_ <;> by_cases hz : t.taker.remain = 0 <;> simp [closeLoad, ht, hz]
  · exact ⟨ht.1.yield hd hq hk rfl hr, ht.2.yield hd hq hk rfl ht.1 hr⟩
  · exact ht.2.done ht.1 (ht.1.meets hd hq hk rfl).1 hr

/-! ## Orders -/

theorem orderFinish_pushed (h : m.orderFinish E x o = .ok (m', x')) :
    x.persistor.Pushed x'.persistor 1 := by
  obtain ⟨-, bm, -, rfl⟩ := orderFinish_ok h
  exact PersistExector.Pushed.push _ _

/-- The filled makers push one message each. -/
theorem finish_pushed {items : List Order} {y y' : Market × Ctx}
    (h : items.foldlM (fun (mx : Market × Ctx) item => mx.1.orderFinish E mx.2 item) y = .ok y') :
    y.2.persistor.Pushed y'.2.persistor items.length := by
  let P (l : List Order) (z : Market × Ctx) : Prop := ∃ k, y.2.persistor.Pushed z.2.persistor k ∧
    k + l.length = items.length
  have hend : P [] y' := by
    refine foldlM_rule (P := P) ?_ _ _ _ ⟨0, .refl _, Nat.zero_add _⟩ h
    rintro item l z z' ⟨k, hk, hlen⟩ hstep
    refine ⟨k + 1, hk.trans (orderFinish_pushed hstep), ?_⟩
    rw [List.length_cons] at hlen
    omega
  obtain ⟨k, hk, hlen⟩ := hend
  rw [List.length_nil, Nat.add_zero] at hlen
  exact hlen ▸ hk

/-- **`execute_order` pushes what was counted before it.** -/
theorem executeOrder_pushed {taker : Order} (hq : m.Quiet)
    (hd : DeskOK (startDesk m { x with persistor := x.persistor.putOrder taker .put } taker ql))
    (h : m.executeOrder E now x taker ql = .ok (o, m', x')) :
    x.persistor.Pushed x'.persistor (1 + m.load taker ql (m.makers taker)) := by
  unfold executeOrder at h
  simp only [bind_ok] at h
  obtain ⟨s, hloop, ⟨m₁, x₁⟩, hfinish, h⟩ := h
  obtain ⟨k, hk, hcount⟩ := loop_pushed hd hq rfl rfl rfl rfl hloop
  dsimp only at hcount
  rw [sub_zero, map_counterOrders] at hcount
  have hall := ((PersistExector.Pushed.push x.persistor _).trans hk).trans (finish_pushed hfinish)
  -- the end of the order pushes what `closeLoad` says
  have hclose : x₁.persistor.Pushed x'.persistor (closeLoad s.taker s.needCancel) := by
    simp only at h
    unfold closeLoad
    by_cases hc : s.needCancel = true
    · rw [if_pos hc] at h
      simp only [pure_ok, Prod.mk.injEq] at h
      rw [if_pos (.inl hc), ← h.2.2]
      exact PersistExector.Pushed.push _ _
    rw [if_neg hc] at h
    by_cases hm : s.taker.type_ = .market
    · rw [if_pos hm] at h
      simp only [pure_ok, Prod.mk.injEq] at h
      rw [if_pos (.inr (.inl hm)), ← h.2.2]
      exact PersistExector.Pushed.push _ _
    rw [if_neg hm] at h
    by_cases hz : s.taker.remain = 0
    · rw [if_pos hz] at h
      simp only [pure_ok, Prod.mk.injEq] at h
      rw [if_pos (.inr (.inr hz)), ← h.2.2]
      exact PersistExector.Pushed.push _ _
    rw [if_neg hz] at h
    simp only [bind_ok, pure_ok, Prod.mk.injEq] at h
    obtain ⟨_, -, bm, -, -, -, rfl⟩ := h
    rw [if_neg (by simp [hc, hm, hz])]
    exact PersistExector.Pushed.refl _
  have hsum := hall.trans hclose
  rwa [Nat.add_assoc, Nat.add_assoc, ← Nat.add_assoc k, hcount] at hsum

/-- **`put_order` pushes what was counted before it**; a refused order pushes nothing. -/
theorem putOrder_pushed {input : OrderInput} {res : Except String Order} (hd : DeskOK ⟨m, x, none⟩)
    (h : m.putOrder E now x input u = .ok (res, m', x')) :
    x.persistor.Pushed x'.persistor (m.putLoad E now x input u) := by
  unfold putOrder at h
  unfold putLoad
  split at h
  · rename_i hcheck
    simp only [pure_ok, Prod.mk.injEq] at h
    rw [hcheck, ← h.2.2]
    exact PersistExector.Pushed.refl _
  rename_i hcheck
  simp only [bind_ok, pure_ok, Prod.mk.injEq] at h
  obtain ⟨ql, hql, ⟨o, m₁, x₁⟩, hex, -, rfl, rfl⟩ := h
  have hstep : Step E now u AnyOrder ⟨m, x, none⟩ _ := Step.accept trivial hcheck hql
  rw [hcheck, hql]
  exact executeOrder_pushed (x := { x with sequencer := x.sequencer.nextOrderId.2 }) (hd.quiet rfl)
    (hstep.deskOK hd) hex

/-- A refused order loads nothing, and one that is accepted its load. -/
theorem putLoad_le_iff {input : OrderInput} :
    m.putLoad E now x input u ≤ 1001 ↔ ∀ budget, m.checkInput E x.balanceManager input u = .ok () →
      m.quoteLimit x.balanceManager input u = .ok budget →
      m.PutFits (m.putTaker now x input u) budget (m.makers (m.putTaker now x input u)) := by
  unfold putLoad
  cases hcheck : m.checkInput E x.balanceManager input u with
  | error e => simp
  | ok _ =>
    cases hql : m.quoteLimit x.balanceManager input u with
    | error e => simp
    | ok budget => simpa using load_le_iff

/-- `cancel_all_for_user` pushes one message for each order of the user. -/
theorem cancelAllForUser_pushed (h : m.cancelAllForUser E x u = .ok (n, m', x')) :
    x.persistor.Pushed x'.persistor (m.getOrderNumOfUser u) := by
  simp only [cancelAllForUser, bind_ok, pure_ok, Prod.mk.injEq] at h
  obtain ⟨y, hloop, -, rfl, rfl⟩ := h
  let P (l : List ℕ) (z : Market × Ctx) : Prop :=
    ∃ k, x.persistor.Pushed z.2.persistor k ∧ k + l.length = m.getOrderNumOfUser u
  have hend : P [] y := by
    refine foldlM_rule (P := P) ?_ _ _ _ ⟨0, .refl _, ?_⟩ hloop
    · rintro id l ⟨m₁, x₁⟩ ⟨m₂, x₂⟩ ⟨k, hk, hlen⟩ hstep
      simp only [deep, bind_ok, pure_ok, unwrap_ok] at hstep
      obtain ⟨_, ⟨rc, -, rfl⟩, hfin⟩ := hstep
      refine ⟨k + 1, hk.trans (orderFinish_pushed hfin), ?_⟩
      rw [List.length_cons] at hlen
      omega
    · rw [List.length_map, Nat.zero_add]
      rfl
  obtain ⟨k, hk, hlen⟩ := hend
  rw [List.length_nil, Nat.add_zero] at hlen
  exact hlen ▸ hk

end Market

/-! ## Calls -/

namespace Controller

def putLoad (E : Env) (now : Timestamp) (c : Controller) (req : OrderPutRequest)
    (user : Uuid) : ℕ :=
  match c.markets.find? req.market, OrderInput.tryFrom E req with
  | some market, .ok input =>
    if c.totalOrderNum user = c.settings.userOrderNumLimit then 0
    else market.putLoad E now (c.ctx true) input user
  | _, _ => 0

/-- The orders of a batch, each in the state it is put in. -/
def batchLoad (E : Env) (now : Timestamp) (name : String) (user : Uuid) :
    List OrderPutRequest → Controller → ℕ
  | [], _ => 0
  | orderReq :: rest, c =>
    if name ≠ orderReq.market then 0
    else c.putLoad E now orderReq user +
      match c.putOrder E now true orderReq user with
      | .ok (.ok _, c') => batchLoad E now name user rest c'
      | _ => 0

/-- The `reset` of a batch: it gets to cancel when its first order is for the market of the
batch. -/
def resetLoad (c : Controller) (req : BatchOrderPutRequest) (user : Uuid) : ℕ :=
  if req.reset = true ∧ (req.orders.head?.map OrderPutRequest.market) =
    some req.market then c.orderNumIn req.market user
  else 0

/-- A batch, once its market is found. -/
def batchOrderLoad (E : Env) (now : Timestamp) (c : Controller) (req : BatchOrderPutRequest)
    (user : Uuid) : ℕ :=
  if (c.markets.find? req.market).isNone then 0
  else c.resetLoad req user +
    match c.batchStart E true req user with
    | .ok (.ok (), c') => batchLoad E now req.market user req.orders c'
    | _ => 0

/-- **A call fits the channels**: an order that is accepted fits; a batch cancels and puts no more
than fits in all; and no more than 1001 orders are cancelled at once. -/
def Fits (E : Env) (c : Controller) (q : Request) : Prop :=
  match q.operation with
  | .balanceUpdate _ => True
  | .orderPut req => ∀ m input budget, c.markets.find? req.market = some m →
      OrderInput.tryFrom E req = .ok input →
      c.totalOrderNum q.user ≠ c.settings.userOrderNumLimit →
      m.checkInput E c.balanceManager input q.user = .ok () →
      m.quoteLimit c.balanceManager input q.user = .ok budget →
      m.PutFits (m.putTaker q.now (c.ctx true) input q.user) budget
        (m.makers (m.putTaker q.now (c.ctx true) input q.user))
  | .batchOrderPut req => c.batchOrderLoad E q.now req q.user ≤ 1001
  | .orderCancel _ => True
  | .orderCancelAll req => c.orderNumIn req.market q.user ≤ 1001

end Controller

/-- A call has handed the persistor `n` messages. -/
def Controller.Pushes (c c' : Controller) (n : ℕ) : Prop :=
  ∃ new, c'.persistor = c.persistor ++ new ∧ new.length = n

namespace Controller

variable {n n' : ℕ}

theorem Pushes.refl (c : Controller) : c.Pushes c 0 := ⟨[], (List.append_nil _).symm, rfl⟩

theorem Pushes.trans {c'' : Controller} (h : c.Pushes c' n)
    (h' : c'.Pushes c'' n') : c.Pushes c'' (n + n') := by
  obtain ⟨new, hnew, hlen⟩ := h
  obtain ⟨new', hnew', hlen'⟩ := h'
  exact ⟨new ++
    new', by rw [hnew', hnew, List.append_assoc], by rw [List.length_append, hlen, hlen']⟩

/-- What is pushed to the borrowed persistor, the call pushes. -/
theorem Pushes.of_ctx {x : Ctx}
    (h : (c.ctx true).persistor.Pushed x.persistor n) : c.Pushes (c.withCtx x) n := by
  obtain ⟨new, hnew, hlen⟩ := h c.persistor rfl
  refine ⟨new, ?_, hlen⟩
  unfold Controller.withCtx
  rw [hnew]

theorem Pushes.of_market {name : String} {m : Market} {x : Ctx}
    (h : (c.ctx true).persistor.Pushed x.persistor n) :
    c.Pushes (c.withMarket name m x) n := Pushes.of_ctx h

theorem Pushes.logged {op : Operation} (h : c.Pushes c' n) : c.Pushes (c'.logged now true op u) n :=
  h

/-- **`put_order` of the controller pushes what was counted before it.** -/
theorem putOrder_pushes {req : OrderPutRequest} {res : Except Status Order} (hc : ControllerOK b c)
    (h : c.putOrder E now true req u = .ok (res, c')) : c.Pushes c' (c.putLoad E now req u) := by
  unfold putOrder at h
  unfold putLoad
  cases hm : c.markets.find? req.market with
  | none =>
    simp only [hm, pure_ok, Prod.mk.injEq] at h
    exact h.2 ▸ .refl c
  | some m =>
    simp only [hm] at h
    obtain ⟨-, -, h⟩ := bind_ok.1 h
    cases hin : OrderInput.tryFrom E req with
    | error e =>
      simp only [hin] at h
      split at h <;> simp only [pure_ok, Prod.mk.injEq] at h <;> exact h.2 ▸ .refl c
    | ok input =>
      simp only [hin] at h
      split at h
      · rename_i hfull
        simp only [pure_ok, Prod.mk.injEq] at h
        simp only [if_pos hfull]
        exact h.2 ▸ .refl c
      · rename_i hfull
        simp only [if_neg hfull]
        obtain ⟨⟨r, m', x'⟩, hput, h⟩ := bind_ok.1 h
        have hpushed := putOrder_pushed ((hc.desk _ _ hm).2 true) hput
        cases r with
        | error e =>
          simp only [pure_ok, Prod.mk.injEq] at h
          exact h.2 ▸ .of_market hpushed
        | ok o =>
          simp only [pure_ok, Prod.mk.injEq] at h
          exact h.2 ▸ .of_market hpushed

theorem batchPut_pushes {name : String} {orders : List OrderPutRequest} {ids : List ℕ}
    {res : Except Status BatchOrderPutResponse} (hc : ControllerOK b c)
    (h : c.batchPut E now true name u orders ids = .ok (res, c')) :
    c.Pushes c' (c.batchLoad E now name u orders) := by
  induction orders generalizing c ids with
  | nil =>
    obtain ⟨-, rfl⟩ := by simpa [batchPut] using h
    exact .refl c
  | cons o orders ih =>
    unfold batchPut at h
    unfold batchLoad
    split at h
    · rename_i hname
      simp only [pure_ok, Prod.mk.injEq] at h
      rw [if_pos hname]
      exact h.2 ▸ .refl c
    rename_i hname
    obtain ⟨⟨r, c₁⟩, hput, h⟩ := bind_ok.1 h
    have hpushes := putOrder_pushes hc hput
    have hmoves : Moves E now true u False AnyOrder c c₁ :=
      putOrder_moves hc (fun _ _ _ _ _ => trivial) hput
    rw [if_neg hname, hput]
    cases r with
    | ok order => exact hpushes.trans (ih (hmoves.ok hc) h)
    | error st =>
      simp only [pure_ok, Prod.mk.injEq] at h
      exact h.2 ▸ hpushes

theorem cancelAllIn_pushes {name : String} {m : Market} {total : ℕ}
    (h : c.cancelAllIn E true name m u = .ok (total, c')) :
    c.Pushes c' (m.getOrderNumOfUser u) := by
  unfold cancelAllIn at h
  simp only [bind_ok, pure_ok, Prod.mk.injEq] at h
  obtain ⟨⟨_, m', x'⟩, hcancel, -, rfl⟩ := h
  exact .of_market (cancelAllForUser_pushed hcancel)

/-- Once the orders of the user are gone, the rest of a `reset` pushes nothing. -/
theorem batchReset_pushes_none {name : String} {m : Market} {orders : List OrderPutRequest}
    {res : Except Status Unit} (hc : ControllerOK b c) (hm : c.markets.find? name = some m)
    (hnone : ∀ id o, m.resting id = some o → o.user ≠ u)
    (h : c.batchReset E true name u orders = .ok (res, c')) : c.Pushes c' 0 :=
  ⟨[], by rw [(batchReset_none hc hm hnone h).messages, List.append_nil], rfl⟩

theorem batchStart_pushes {req : BatchOrderPutRequest} {res : Except Status Unit}
    (hc : ControllerOK b c) (h : c.batchStart E true req u = .ok (res, c')) :
    c.Pushes c' (c.resetLoad req u) := by
  unfold batchStart at h
  unfold resetLoad
  by_cases hreset : req.reset = true
  · rw [if_pos hreset] at h
    cases horders : req.orders with
    | nil =>
      rw [horders] at h
      obtain ⟨-, rfl⟩ := by simpa [batchReset] using h
      simpa using Pushes.refl c
    | cons o orders =>
      rw [horders] at h
      unfold batchReset at h
      by_cases hname : req.market = o.market
      · rw [if_neg (not_not.2 hname)] at h
        simp only [bind_ok, unwrap_ok] at h
        obtain ⟨m, hm, ⟨total, c₁⟩, hcancel, h⟩ := h
        have hpushes := cancelAllIn_pushes hcancel
        have hmoves : Moves E 0 true u False AnyOrder c c₁ := cancelAllIn_moves hc hm hcancel
        unfold cancelAllIn at hcancel
        simp only [bind_ok, pure_ok, Prod.mk.injEq] at hcancel
        obtain ⟨⟨_, m₁, x₁⟩, hcancel, -, rfl⟩ := hcancel
        have hm₁ : (c.withMarket req.market m₁ x₁).markets.find? req.market = some m₁ :=
          find?_insert_self _ _ _
        have hrest := batchReset_pushes_none (hmoves.ok hc) hm₁
          (fun id o ho => (cancelAllForUser_clears ((hc.desk _ _ hm).2 true).index hcancel ho).2) h
        rw [if_pos ⟨hreset, by rw [List.head?_cons, Option.map_some, hname]⟩, orderNumIn, hm]
        exact hpushes.trans hrest
      · rw [if_pos hname] at h
        simp only [pure_ok, Prod.mk.injEq] at h
        rw [if_neg fun hc => hname (Option.some.inj hc.2).symm]
        exact h.2 ▸ .refl c
  · rw [if_neg hreset] at h
    simp only [Except.ok.injEq, Prod.mk.injEq] at h
    rw [if_neg (by simp [hreset])]
    exact h.2 ▸ .refl c

theorem batchOrderPut_pushes {req : BatchOrderPutRequest} {reply : Except Status Response}
    (hc : ControllerOK b c) (h : c.batchOrderPut E now true true req u = .ok (reply, c')) :
    c.Pushes c' (c.batchOrderLoad E now req u) := by
  unfold batchOrderPut at h
  unfold batchOrderLoad
  rw [if_neg (by simp)] at h
  by_cases hnone : (c.markets.find? req.market).isNone = true
  · rw [if_pos hnone] at h
    simp only [pure_ok, Prod.mk.injEq] at h
    rw [if_pos hnone]
    exact h.2 ▸ .refl c
  rw [if_neg hnone] at h
  obtain ⟨⟨r, c₁⟩, hstart, h⟩ := bind_ok.1 h
  have hpushes := batchStart_pushes hc hstart
  have hmoves : Moves E now true u False AnyOrder c c₁ := batchStart_moves hc hstart
  rw [if_neg hnone, hstart]
  cases r with
  | error st =>
    simp only [pure_ok, Prod.mk.injEq] at h
    exact h.2 ▸ hpushes
  | ok _ =>
    obtain ⟨⟨r, c₂⟩, hput, h⟩ := bind_ok.1 h
    have hall := hpushes.trans (batchPut_pushes (hmoves.ok hc) hput)
    cases r with
    | error st =>
      simp only [pure_ok, Prod.mk.injEq] at h
      exact h.2 ▸ hall
    | ok response =>
      simp only [pure_ok, Prod.mk.injEq] at h
      exact h.2 ▸ hall.logged

theorem orderPut_pushes {req : OrderPutRequest} {reply : Except Status Response}
    (hc : ControllerOK b c) (h : c.orderPut E now true true req u = .ok (reply, c')) :
    c.Pushes c' (c.putLoad E now req u) := by
  unfold orderPut at h
  rw [if_neg (by simp)] at h
  obtain ⟨⟨r, c₁⟩, hput, h⟩ := bind_ok.1 h
  have hpushes := putOrder_pushes hc hput
  cases r with
  | error st =>
    simp only [pure_ok, Prod.mk.injEq] at h
    exact h.2 ▸ hpushes
  | ok o =>
    simp only [pure_ok, Prod.mk.injEq] at h
    exact h.2 ▸ hpushes.logged

theorem orderCancelAll_pushes {req : OrderCancelAllRequest} {reply : Except Status Response}
    (h : c.orderCancelAll E now true true req u = .ok (reply, c')) :
    c.Pushes c' (c.orderNumIn req.market u) := by
  unfold orderCancelAll at h
  unfold orderNumIn
  rw [if_neg (by simp)] at h
  cases hm : c.markets.find? req.market with
  | none =>
    simp only [hm, pure_ok, Prod.mk.injEq] at h
    exact h.2 ▸ .refl c
  | some m =>
    simp only [hm, bind_ok, pure_ok, Prod.mk.injEq] at h
    obtain ⟨⟨total, c₁⟩, hcancel, -, rfl⟩ := h
    exact (cancelAllIn_pushes hcancel).logged

/-- A cancellation pushes one message at most. -/
theorem orderCancel_pushes {req : OrderCancelRequest} {reply : Except Status Response}
    (h : c.orderCancel E now true true req u = .ok (reply, c')) : ∃ n ≤ 1, c.Pushes c' n := by
  rcases orderCancel_cases h with ⟨-, rfl⟩ | ⟨m, rc, o, m', x', hm, hrc, hu, hcancel, -, rfl⟩
  · exact ⟨0, Nat.zero_le 1, .refl c'⟩
  · simp only [cancel, bind_ok, pure_ok, Prod.mk.injEq] at hcancel
    obtain ⟨_, -, ⟨m₁, x₁⟩, hfin, -, rfl, rfl⟩ := hcancel
    exact ⟨1, le_rfl, (Pushes.of_market (orderFinish_pushed hfin)).logged⟩

/-- A balance update pushes the change, and that it is a deposit or a withdrawal. -/
theorem updateBalance_pushes {req : BalanceUpdateRequest} {reply : Except Status Response}
    (h : c.updateBalance E now true true req u = .ok (reply, c')) : ∃ n ≤ 2, c.Pushes c' n := by
  rcases updateBalance_cases h with ⟨-, rfl⟩ |
    ⟨-, prec, price, change, detail, x', -, -, -, ha, rfl⟩
  · exact ⟨0, Nat.zero_le 2, .refl c'⟩
  · have hpushed : (c.ctx true).persistor.Pushed x'.persistor _ := fun ms hms =>
      let ⟨bs, hbs, _, hlen⟩ := persistUpdate_balances ha.persistor ms hms
      ⟨bs, hbs, hlen⟩
    refine ⟨_, ?_, (Pushes.of_ctx hpushed).logged⟩
    split_ifs <;> omega

/-- An order is within the headroom exactly when the call that puts it fits. -/
theorem putLoad_le_iff {req : OrderPutRequest} (real : Bool) :
    c.putLoad E now req u ≤ 1001 ↔ c.Fits E ⟨now, true, real, u, .orderPut req⟩ := by
  unfold Fits Controller.putLoad
  constructor
  · intro h m input budget hm hin hroom hcheck hql
    simp only [hm, hin, if_neg hroom] at h
    exact Market.putLoad_le_iff.1 h budget hcheck hql
  · intro h
    split
    · rename_i m input hm hin
      split
      · exact Nat.zero_le _
      · rename_i hroom
        exact Market.putLoad_le_iff.2 fun budget hcheck hql =>
          h m input budget hm hin hroom hcheck hql
    · exact Nat.zero_le _

/-- **A call pushes as much as fits exactly when it fits.** -/
theorem call_pushes {q : Request} {reply : Except Status Response} (hc : ControllerOK b c)
    (havailable : q.available = true) (hreal : q.real = true) (h : c.call E q = .ok (reply, c')) :
    ∃ n, c.Pushes c' n ∧ (n ≤ 1001 ↔ c.Fits E q) := by
  obtain ⟨now, available, real, u, op⟩ := q
  obtain rfl : available = true := havailable
  obtain rfl : real = true := hreal
  cases op with
  | balanceUpdate req =>
    obtain ⟨n, hn, hpushes⟩ := updateBalance_pushes h
    exact ⟨n, hpushes, iff_of_true (by omega) trivial⟩
  | orderPut req => exact ⟨_, orderPut_pushes hc h, putLoad_le_iff true⟩
  | batchOrderPut req => exact ⟨_, batchOrderPut_pushes hc h, Iff.rfl⟩
  | orderCancel req =>
    obtain ⟨n, hn, hpushes⟩ := orderCancel_pushes h
    exact ⟨n, hpushes, iff_of_true (by omega) trivial⟩
  | orderCancelAll req => exact ⟨_, orderCancelAll_pushes h, Iff.rfl⟩

end Controller

/-- **An admitted call fits the channels exactly when it `Fits`**: in any reachable state, the stubs
that do not block take what the call pushes, however the producer threads run. -/
theorem Reachable.neverPanics_iff (h : Reachable E settings c) {q : Request}
    {reply : Except Status Response} (havailable : q.available = true) (hreal : q.real = true)
    (hcall : c.call E q = .ok (reply, c')) :
    ∃ messages, c'.persistor = c.persistor ++ messages ∧
      ((∀ stub : RdProducerStub, stub.isBlock = false → stub.NeverPanics messages) ↔
        c.Fits E q) := by
  obtain ⟨b, -, hc⟩ := h.ok
  obtain ⟨n, ⟨messages, hmessages, rfl⟩, hfits⟩ := Controller.call_pushes hc havailable hreal hcall
  exact ⟨messages, hmessages, RdProducerStub.forall_neverPanics_iff.trans hfits⟩

end Dingir
