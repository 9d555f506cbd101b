import Mathlib.Data.List.TakeWhile
import Dingir.Lib.Greedy
import Dingir.Proof.Rounds
import Dingir.Proof.Solvency

/-!
# Price-time priority

What a limit order or a market ask should trade is said without the loop: take the
orders of the other side by price and then by id, as far as they match, and fill
the order from them greedily (`greedy`).

**`Reachable.priceTime`**: these are the trades an order makes. A put that returns has
made them all, and one that stops halfway the first of them.
-/

namespace Dingir

open Keyed Outcome Market Greedy

variable {E : Env} {settings : Settings} {now : Timestamp} {u : Uuid} {ql amount : Decimal}
  {rc : OrderRc} {s : MatchState} {m m' : Market} {x x' : Ctx} {taker maker o : Order} {t : Trade}
  {ts : List Trade} {input : OrderInput} {c : Controller}

/-! ## The reference -/

instance : Decidable (taker.Apart maker) := inferInstanceAs (Decidable (_ < _))

/-- The prices meet, and the maker is not of the same user where self trades are disabled. -/
def Market.Matches (m : Market) (taker maker : Order) : Prop :=
  (taker.type_ = .limit → ¬taker.Apart maker) ∧
    ¬(m.disableSelfTrade = true ∧ maker.user = taker.user)

instance : Decidable (m.Matches taker maker) := inferInstanceAs (Decidable (_ ∧ _))

/-- **What the order trades**: it is filled from the first makers that match, and not at all when it
is `post_only`. -/
def Market.greedy (m : Market) (taker : Order) (makers : List Order) : List (Order × Decimal) :=
  if taker.postOnly then []
  else fill Order.remain taker.remain (makers.takeWhile fun maker => m.Matches taker maker)

/-- The orders an order can trade with, by priority. -/
def Market.makers (m : Market) (taker : Order) : List Order :=
  m.sideOrders (if taker.isAsk then .bid else .ask)

/-- The trades are those of the reference, in turn. -/
def Trades.Fill (taker : Order) : List Trade → List (Order × Decimal) → Prop :=
  List.Forall₂ fun t f => t.Between taker f.1 ∧ t.amount = f.2

/-- What the trades leave of the other side. -/
structure Market.Served (m : Market) (taker : Order) (fills : List (Order × Decimal))
    (m' : Market) : Prop where
  full : ∀ f ∈ fills.dropLast, f.2 = f.1.remain ∧ m'.resting f.1.id = none
  traded : ∀ f ∈ fills, f.2 = f.1.remain ∧ m'.resting f.1.id = none ∨
    ∃ p, m'.resting f.1.id = some p ∧ p.remain = f.1.remain - f.2 ∧ p.remain ≠ 0
  inTurn : fills.map Prod.fst <+: m.makers taker
  price : taker.type_ = .limit → ∀ f ∈ fills, ¬taker.Apart f.1
  others : ∀ maker ∈ m.makers taker, (∀ f ∈ fills, f.1 ≠ maker) → m'.resting maker.id = some maker

/-- **Price-time priority** of an order that is put. -/
structure PriceTime (E : Env) (now : Timestamp) (u : Uuid) (m : Market) (x : Ctx)
    (input : OrderInput) (taker : Order) : Prop where
  priority : (m.makers taker).Pairwise Order.Ahead
  makers : ∀ p, p ∈ m.makers taker ↔ m.resting p.id = some p ∧ p.side ≠ taker.side
  begun : ∀ ql rc s amount, Comes E now u m x input ql rc s → Generates s ql rc amount →
    ∃ ts fills later,
    (x.persistor.realPersist = true → s.ctx.persistor.trades = x.persistor.trades ++ ts) ∧
    Trades.Fill taker ts fills ∧
      m.greedy taker (m.makers taker) = fills ++ (m.rcs.read rc, amount) :: later
  returned : ∀ o m' x', m.putOrder E now x input u = .ok (.ok o, m', x') → ∃ ts,
    (x.persistor.realPersist = true → x'.persistor.trades = x.persistor.trades ++ ts) ∧
      x'.sequencer.tradeId = x.sequencer.tradeId + ts.length ∧
      Trades.Fill taker ts (m.greedy taker (m.makers taker)) ∧
      m.Served taker (m.greedy taker (m.makers taker)) m'

/-! ## A round and the reference -/

/-- `o` but for its times and what it has finished. -/
structure Market.SameOffer (o o' : Order) : Prop where
  side : o'.side = o.side
  type_ : o'.type_ = o.type_
  user : o'.user = o.user
  price : o'.price = o.price
  remain : o'.remain = o.remain
  takerFee : o'.takerFee = o.takerFee
  postOnly : o'.postOnly = o.postOnly

/-- Whether the prices meet depends on the side and the price of the order. -/
theorem apart_congr {o' : Order} (hs : o'.side = o.side) (hp : o'.price = o.price) :
    o'.Apart maker ↔ o.Apart maker := by
  unfold Order.Apart askOf bidOf Order.isAsk
  rw [hs]
  split <;> simp only [hp]

theorem matches_congr {o' : Order} (hs : o'.side = o.side) (ht : o'.type_ = o.type_)
    (hu : o'.user = o.user) (hp : o'.price = o.price) :
    (fun maker => decide (m.Matches o' maker)) = fun maker => decide (m.Matches o maker) := by
  funext maker
  exact decide_eq_decide.2 (by simp only [Market.Matches, apart_congr hs hp, ht, hu])

theorem greedy_open (taker : Order) (h : taker.postOnly = false) (makers : List Order) :
    m.greedy taker makers =
      fill Order.remain taker.remain (makers.takeWhile fun maker => m.Matches taker maker) :=
  if_neg (by simp [h])

theorem greedy_congr {o' : Order} (h : SameOffer o o') (makers : List Order) :
    m.greedy o' makers = m.greedy o makers := by
  unfold Market.greedy
  rw [matches_congr h.side h.type_ h.user h.price, h.postOnly, h.remain]

/-- Only a market bid is limited by a budget. -/
theorem tradedBaseAmount_plain {price qs : Decimal}
    (h : ¬(taker.side = .bid ∧ taker.type_ = .market)) :
    m.tradedBaseAmount taker (askOf taker maker) (bidOf taker maker) price ql qs =
      .ok (some (min taker.remain maker.remain)) := by
  have hmin : min (askOf taker maker).remain (bidOf taker maker).remain =
      min taker.remain maker.remain := by
    unfold askOf bidOf
    split
    · rfl
    · exact min_comm _ _
  unfold tradedBaseAmount
  simp only [hmin]
  exact if_neg fun hc => h ⟨hc.1, hc.2.1⟩

/-- A round that trades makes the next trade of the reference. -/
theorem Market.Generates.greedy (hg : Generates s ql rc amount)
    (hplain : ¬(s.taker.side = .bid ∧ s.taker.type_ = .market))
    (hself : s.market.disableSelfTrade = m.disableSelfTrade) (makers : List Order) :
    m.greedy s.taker (s.market.rcs.read rc :: makers) =
      (s.market.rcs.read rc, amount) ::
        m.greedy { s.taker with remain := s.taker.remain - amount } makers := by
  have hamount : min s.taker.remain (s.market.rcs.read rc).remain = amount :=
    Option.some.inj (Except.ok.inj ((tradedBaseAmount_plain hplain).symm.trans hg.amount))
  have hmatches : m.Matches s.taker (s.market.rcs.read rc) :=
    ⟨fun hlim => not_lt.2 (hg.crosses hlim), fun hown => hg.notOwn ⟨hown.2, hself.trans hown.1⟩⟩
  have hoffer :
      (fun maker => decide (m.Matches { s.taker with remain := s.taker.remain - amount } maker)) =
      fun maker => decide (m.Matches s.taker maker) := matches_congr rfl rfl rfl rfl
  rw [greedy_open _ hg.notPostOnly,
    greedy_open { s.taker with remain := s.taker.remain - amount } hg.notPostOnly, hoffer,
    List.takeWhile_cons, if_pos (by simpa using hmatches), fill_cons _ hg.takerOpen, hamount]

/-- Where the loop stops the reference has no further trade. -/
theorem Market.Stops.greedy (hs : Stops s ql rc)
    (hplain : ¬(s.taker.side = .bid ∧ s.taker.type_ = .market))
    (hself : s.market.disableSelfTrade = m.disableSelfTrade) (makers : List Order) :
    m.greedy s.taker (s.market.rcs.read rc :: makers) = [] := by
  have hnone : ¬m.Matches s.taker (s.market.rcs.read rc) →
      m.greedy s.taker (s.market.rcs.read rc :: makers) = [] := by
    intro hno
    have hnil : (s.market.rcs.read rc :: makers).takeWhile
        (fun maker => decide (m.Matches s.taker maker)) = [] := by
      rw [List.takeWhile_cons, if_neg (by simpa using hno)]
    unfold Market.greedy
    rw [hnil, fill_nil, ite_self]
  cases hs with
  | filled hz =>
    unfold Market.greedy
    rw [hz, fill_zero, ite_self]
  | apart hlim hapart => exact hnone fun hmatches => hmatches.1 hlim hapart
  | postOnly hpost =>
    unfold Market.greedy
    rw [if_pos hpost]
  | own hown => exact hnone fun hmatches => hmatches.2 ⟨hself.symm.trans hown.2, hown.1⟩
  | spent hspent => cases (tradedBaseAmount_plain hplain).symm.trans hspent

/-! ## The loop and the reference -/

/-- The trades so far, with the makers they were made with. -/
def Market.dealt (m : Market) (done : List OrderRc) (ts : List Trade) : List (Order × Decimal) :=
  (done.zip ts).map fun e => (m.rcs.read e.1, e.2.amount)

/-- **The loop follows the reference**: what it has traded comes first, then what the order trades
from here. -/
theorem greedy_carried (hd : DeskOK (startDesk m x taker ql)) (hq : m.Quiet)
    (hplain : ¬(taker.side = .bid ∧ taker.type_ = .market)) :
    Carried E now u ql m x taker fun done rest s ts =>
      m.greedy taker ((m.counterOrders taker).map m.rcs.read) = m.dealt done ts ++
        m.greedy s.taker (rest.map m.rcs.read) := by
  constructor
  · rfl
  · intro done rc rest s s' ts t hrounds hgreedy hg _ ht htaking
    have hread := (hrounds.meets hd hq).1
    have hterms := hrounds.tried.terms
    have hplain' : ¬(s.taker.side = .bid ∧ s.taker.type_ = .market) := by
      rw [hrounds.order]
      exact hplain
    have hnext := hg.greedy hplain' hterms.disableSelfTrade (rest.map m.rcs.read)
    have hoffer : SameOffer { s.taker with remain := s.taker.remain - t.amount } s'.taker := by
      have htaker : s'.taker = (filledTaking now (s.taking ql) t).order :=
        congrArg Taking.order htaking
      rw [htaker]
      exact ⟨rfl, rfl, rfl, rfl, rfl, rfl, rfl⟩
    have hdealt :
        m.dealt (done ++ [rc]) (ts ++ [t]) = m.dealt done ts ++ [(m.rcs.read rc, t.amount)] := by
      unfold Market.dealt
      rw [List.zip_append hrounds.length, List.map_append]
      rfl
    rw [hgreedy, List.map_cons, ← hread, hnext, hdealt, greedy_congr hoffer, hread,
      List.append_assoc]
    rfl

theorem Market.Rounds.fill {done rest : List OrderRc}
    (h : Rounds E now u ql m x taker done rest s ts) : Trades.Fill taker ts (m.dealt done ts) := by
  have hmade : List.Forall₂ (fun rc t => t.Between taker (m.rcs.read rc)) done ts :=
    List.forall₂_iff_zip.2 ⟨h.length, fun hmem => (h.made _ _ hmem).between⟩
  clear h
  induction hmade with
  | nil => exact .nil
  | cons hbetween _ ih => exact .cons ⟨hbetween, rfl⟩ ih

/-- The handles a taker tries are those of its makers. -/
theorem map_counterOrders (m : Market) (taker : Order) :
    (m.counterOrders taker).map m.rcs.read = m.makers taker := by
  rw [counterOrders_eq]
  rfl

theorem greedy_full (m : Market) (taker : Order) (makers : List Order) :
    ∀ f ∈ (m.greedy taker makers).dropLast, f.2 = f.1.remain := by
  unfold Market.greedy
  split
  · simp
  · exact fill_full _ _ _

theorem greedy_inTurn (m : Market) (taker : Order) (makers : List Order) :
    (m.greedy taker makers).map Prod.fst <+: makers := by
  unfold Market.greedy
  split
  · exact List.nil_prefix
  · have hprefix :=
      fill_prefix Order.remain taker.remain (makers.takeWhile fun maker => m.Matches taker maker)
    exact hprefix.trans (List.takeWhile_prefix _)

theorem greedy_matches {f : Order × Decimal} {makers : List Order}
    (h : f ∈ m.greedy taker makers) : m.Matches taker f.1 := by
  unfold Market.greedy at h
  split at h
  · simp at h
  · have hprefix :=
      fill_prefix Order.remain taker.remain (makers.takeWhile fun maker => m.Matches taker maker)
    have hmem := hprefix.subset (List.mem_map.2 ⟨f, h, rfl⟩)
    simpa using List.mem_takeWhile_imp hmem

/-- **What a put that returns leaves of the other side.** -/
theorem Market.Rounds.served {done rest : List OrderRc} (hd : DeskOK (startDesk m x taker ql))
    (hq : m.Quiet) (h : Rounds E now u ql m x taker done rest s ts)
    (hgreedy : m.greedy taker (m.makers taker) = m.dealt done ts) {y x' : Ctx}
    (hends : PutEnds y taker s ts o m' x') :
    m.Served taker (m.greedy taker (m.makers taker)) m' := by
  have hfresh := hd.taking _ rfl
  have hcounter := (counterOrders_spec hd.index taker).2
  have hmaker : ∀ rc ∈ m.counterOrders taker, m.resting (m.rcs.read rc).id = some (m.rcs.read rc) :=
    fun rc hrc =>
    resting_some.2 ⟨rc, (hcounter rc hrc).1, rfl⟩
  have hid : ∀ rc ∈ m.counterOrders taker, (m.rcs.read rc).id ≠ taker.id := fun rc hrc =>
    (hfresh.id ▸ hfresh.fresh _ _ (hmaker rc hrc)).ne
  have hdone : ∀ rc ∈ done, rc ∈ m.counterOrders taker :=
    fun rc hrc => h.handles ▸ List.mem_append_left _ hrc
  have htraded : ∀ f ∈ m.dealt done ts, f.2 = f.1.remain ∧ m'.resting f.1.id = none ∨
      ∃ p, m'.resting f.1.id = some p ∧ p.remain = f.1.remain - f.2 ∧ p.remain ≠ 0 := by
    intro f hf
    obtain ⟨⟨rc, t⟩, hmem, rfl⟩ := List.mem_map.1 hf
    have hleft := hends.resting (m.rcs.read rc).id (hid rc (hdone rc (List.of_mem_zip hmem).1))
    rw [h.resting_done hd hmem] at hleft
    by_cases hz : t.amount = (m.rcs.read rc).remain
    · refine .inl ⟨hz, hleft.trans ?_⟩
      simp [Option.filter, filledMaker_remain, hz]
    · have hne : (m.rcs.read rc).remain - t.amount ≠ 0 := fun hc => hz (sub_eq_zero.1 hc).symm
      refine .inr ⟨filledMaker now taker.isAsk (m.rcs.read rc) t, hleft.trans ?_,
        filledMaker_remain _, hne⟩
      simp [Option.filter, filledMaker_remain, hne]
  rw [hgreedy]
  refine ⟨fun f hf => ?_, htraded, ?_, fun hlim f hf => (greedy_matches (hgreedy ▸ hf)).1 hlim,
    fun maker hm hno => ?_⟩
  · have hfull := greedy_full m taker (m.makers taker) f (hgreedy ▸ hf)
    rcases htraded f (List.mem_of_mem_dropLast hf) with ⟨-, hnone⟩ | ⟨p, -, hremain, hne⟩
    · exact ⟨hfull, hnone⟩
    · exact absurd (hremain.trans (sub_eq_zero.2 hfull.symm)) hne
  · exact hgreedy ▸ greedy_inTurn m taker _
  · rw [← map_counterOrders] at hm
    obtain ⟨rc, hrc, rfl⟩ := List.mem_map.1 hm
    have hnew : rc ∉ done := by
      intro hmem
      rw [← List.map_fst_zip h.length.le, List.mem_map] at hmem
      obtain ⟨⟨r, t⟩, ht, rfl⟩ := hmem
      exact hno _ (List.mem_map.2 ⟨_, ht, rfl⟩) rfl
    have hother : ∀ r ∈ done, (m.rcs.read r).id ≠ (m.rcs.read rc).id := by
      intro r hr he
      have hr' : m.orders[(m.rcs.read r).id]? = some r := (hcounter r (hdone r hr)).1
      have hrc' : m.orders[(m.rcs.read rc).id]? = some rc := (hcounter rc hrc).1
      rw [he, hrc'] at hr'
      exact hnew (Option.some.inj hr' ▸ hr)
    rw [hends.resting _ (hid rc hrc), h.resting_other hd hother, hmaker rc hrc]
    simp [Option.filter, hq _ _ (hmaker rc hrc)]

/-! ## Every put -/

theorem otherSide {side : OrderSide} :
    side = (if taker.isAsk then .bid else .ask) ↔ side ≠ taker.side := by
  unfold Order.isAsk
  cases side <;> cases taker.side <;> simp

theorem putOrder_priceTime (hd : DeskOK ⟨m, x, none⟩)
    (hcheck : m.checkInput E x.balanceManager input u = .ok ())
    (hplain : ¬(input.side = .bid ∧ input.type_ = .market)) :
    PriceTime E now u m x input (m.putTaker now x input u) := by
  set taker := m.putTaker now x input u with htaker
  have hq := hd.quiet rfl
  have hcarried : ∀ {ql}, m.quoteLimit x.balanceManager input u = .ok ql →
      Carried E now u ql m (m.putState now x input u).ctx taker fun done rest s ts =>
        m.greedy taker (m.makers taker) = m.dealt done ts ++
          m.greedy s.taker (rest.map m.rcs.read) := by
    intro ql hql
    rw [← map_counterOrders]
    exact greedy_carried (putState_ok now hd hcheck hql) hq hplain
  have hplain' : ∀ {ql done rest s ts},
      Rounds E now u ql m (m.putState now x input u).ctx taker done rest s ts →
      ¬(s.taker.side = .bid ∧ s.taker.type_ = .market) := by
    intro ql done rest s ts hrounds
    rw [hrounds.order]
    exact hplain
  refine ⟨sideOrders_sorted hd.index _, fun p => ?_, fun ql rc s amount hround hg => ?_,
    fun o m' x' hput => ?_⟩
  · rw [Market.makers, mem_sideOrders hd.index, otherSide]
  · obtain ⟨done, rest, ts, hrounds, hgreedy⟩ := hround.rounds hd (hcarried hround.budget)
    have hread : s.market.rcs.read rc = m.rcs.read rc :=
      (hrounds.meets (putState_ok now hd hcheck hround.budget) hq).1
    refine ⟨ts, m.dealt done ts,
      m.greedy { s.taker with remain := s.taker.remain - amount } (rest.map m.rcs.read),
      fun hr => (hrounds.told hr).2, hrounds.fill, ?_⟩
    rw [hgreedy, List.map_cons, ← hread,
      hg.greedy (hplain' hrounds) hrounds.tried.terms.disableSelfTrade]
  · obtain ⟨ql, done, rest, s, ts, hql, hrounds, hgreedy, hstops, hends⟩ :=
      putOrder_rounds hd hput fun ql => hcarried
    have hstart := putState_ok now hd hcheck hql
    have hend : m.greedy s.taker (rest.map m.rcs.read) = [] := by
      cases rest with
      | nil => simp [Market.greedy]
      | cons rc rest' =>
        have hread : s.market.rcs.read rc = m.rcs.read rc := (hrounds.meets hstart hq).1
        rw [List.map_cons, ← hread]
        exact (hstops rc rest' rfl).greedy (hplain' hrounds) hrounds.tried.terms.disableSelfTrade _
    rw [hend, List.append_nil] at hgreedy
    exact ⟨ts, hends.trades, hends.tradeId, hgreedy ▸ hrounds.fill,
      hrounds.served hstart hq hgreedy hends⟩

/-- What price-time priority asks of a put: of every accepted order but a market bid. -/
def InPriceTime (E : Env) (now : Timestamp) (u : Uuid) (m : Market) (x : Ctx)
    (input : OrderInput) : Prop :=
  m.checkInput E x.balanceManager input u = .ok () → ¬(input.side = .bid ∧ input.type_ = .market) →
    PriceTime E now u m x input (m.putTaker now x input u)

/-- **Price-time priority.** In every reachable state, every limit order and every market ask that
is accepted, put alone or in a batch, makes the trades of the greedy reference. -/
theorem Reachable.priceTime (h : Reachable E settings c) (q : Request) :
    c.EachPut E (InPriceTime E q.now q.user) q := by
  obtain ⟨b, -, hc⟩ := h.ok
  exact eachPut_of_ok hc fun c' name m input hc' hm hcheck hplain =>
    putOrder_priceTime ((hc'.desk name m hm).2 q.real) hcheck hplain

/-- Bob asks for 2 at 100 and for 2 at 101. -/
def sampleTwoAsks : List Request :=
  [requestAt 0 bob (depositOf "ETH" 1 "10"), requestAt 0 alice (depositOf "USDT" 2 "1000"),
    requestAt 1 bob (.orderPut (limitOrder .ask "2" "101")),
    requestAt 1 bob (.orderPut (limitOrder .ask "2" "100"))]

/-- A bid of alice for 3 at 101 takes the later ask first, for it is the better one, and one of the
other. -/
theorem Reachable.priceTime_two :
    ∃ (c : Controller) (m : Market) (taker : Order) (m' : Market) (x' : Ctx) (ts : List Trade),
    Reachable releaseEnv sampleSettings c ∧ c.markets.find? "ETH_USDT" = some m ∧ taker.amount = 3 ∧
    (m.greedy taker (m.makers taker)).map (fun f => (f.1.id, f.1.price, f.2)) =
      [(2, 100, 2), (1, 101, 1)] ∧
    x'.persistor.trades = (c.ctx true).persistor.trades ++ ts ∧
    Trades.Fill taker ts (m.greedy taker (m.makers taker)) ∧
    m.Served taker (m.greedy taker (m.makers taker)) m' := by
  have h : (sampleRun releaseEnv sampleTwoAsks >>=
      fun c => unwrap .marketName (c.markets.find? "ETH_USDT") >>= fun m =>
      unwrap .replay (OrderInput.tryFrom releaseEnv (limitOrder .bid "3" "101")).toOption >>=
        fun input =>
      m.putOrder releaseEnv 2 (c.ctx true) input alice >>= fun r => unwrap .replay r.1.toOption >>=
        fun _ =>
      let taker := m.putTaker 2 (c.ctx true) input alice
      pure (decide (input.side = .bid ∧ input.type_ = .market), taker.amount,
        (m.greedy taker (m.makers taker)).map (fun f => (f.1.id, f.1.price, f.2)))) =
      (.ok (false, 3, [(2, 100, 2), (1, 101, 1)]) : Except Panic
        (Bool × Decimal × List (ℕ × Decimal × Decimal))) := by
    decide +kernel
  simp only [bind_ok, pure_ok, unwrap_ok, toOption_some, Prod.mk.injEq,
    decide_eq_false_iff_not] at h
  obtain ⟨c, hc, m, hm, input, hinput, ⟨-, m', x'⟩, hput, o, rfl, hplain, hamount, hfills⟩ := h
  have hreach := sampleRun_reachable hc
  have hcheck := putOrder_input hput
  have hall := hreach.priceTime (requestAt 2 alice (.orderPut (limitOrder .bid "3" "101")))
  have hpriced := hall m input hm hinput hcheck hcheck hplain
  obtain ⟨ts, htrades, -, hfill, hserved⟩ := hpriced.returned o m' x' hput
  exact ⟨c, m, _, m', x', ts, hreach, hm, hamount, hfills, htrades rfl, hfill, hserved⟩

end Dingir
