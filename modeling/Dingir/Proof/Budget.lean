import Dingir.Proof.Priority
import Dingir.Proof.Record

/-!
# Market bids and budgets

A market bid may spend what its user has available, or less when it names a limit.
While the budget covers what the order and the next ask have left the trade is for
that; where it does not, the rest of the budget is divided by the price and
truncated, and the loop goes on to the asks behind.

* **`PutRun.budget_iff`**: along every run whose asks are put for amounts that are not negative and
  at positive prices, a market bid stays within its budget and uses it exactly when the budget is
  not negative.
* **`Reachable.not_budget`**: a limit below zero makes it sell.
-/

namespace Dingir

open Keyed Rounding Outcome Market

variable {E : Env} {settings : Settings} {now : Timestamp} {u : Uuid} {ql amount : Decimal}
  {rc : OrderRc} {s s' : MatchState} {m m' : Market} {x x' : Ctx} {taker o : Order} {t : Trade}
  {ts : List Trade} {done rest : List OrderRc} {input : OrderInput} {c : Controller}

/-! ## The budget -/

/-- What the trades of an order since `x` add up to: it is between nothing and the budget. -/
def Spends (x y : Ctx) (o : Order) (budget : Decimal) : Prop :=
  ∃ ts : List Trade,
    (x.persistor.realPersist = true → y.persistor.trades = x.persistor.trades ++ ts) ∧
    (ts.map Trade.quoteAmount).sum = o.finishedQuote ∧ 0 ≤ o.finishedQuote ∧
    o.finishedQuote ≤ budget

/-- No ask is left, or the best one is the user's own where self trades are disabled, or what is
left of the budget buys not even one unit from it. -/
def Market.UsedUp (m : Market) (u : Uuid) (o : Order) (budget : Decimal) : Prop :=
  ∀ best, (m.makers o).head? = some best →
    m.disableSelfTrade = true ∧ best.user = u ∨
      budget - o.finishedQuote < best.price * (10 ^ m.amountPrec)⁻¹

/-- **A market bid respects its budget and uses it.** -/
structure KeepsBudget (E : Env) (now : Timestamp) (u : Uuid) (m : Market) (x : Ctx)
    (input : OrderInput) : Prop where
  each : ∀ ql rc s amount, Comes E now u m x input ql rc s → Generates s ql rc amount →
    0 < amount ∧ amount ≤ s.taker.remain ∧ amount ≤ (s.market.rcs.read rc).remain ∧
      0 ≤ s.taker.finishedQuote + (s.market.rcs.read rc).price * amount ∧
      s.taker.finishedQuote + (s.market.rcs.read rc).price * amount ≤
        m.budget x.balanceManager input u
  begun : ∀ ql rc s, Comes E now u m x input ql rc s →
    Spends x s.ctx s.taker (m.budget x.balanceManager input u)
  returned : ∀ o m' x', m.putOrder E now x input u = .ok (.ok o, m', x') →
    Spends x x' o (m.budget x.balanceManager input u) ∧
    (0 < o.remain → m'.UsedUp u o (m.budget x.balanceManager input u))

/-- **The budget is not negative**, the order and the asks it trades with have something left, and
neither these nor the ask at which the budget is spent have a negative price. -/
structure Affords (E : Env) (now : Timestamp) (u : Uuid) (m : Market) (x : Ctx)
    (input : OrderInput) : Prop where
  budget : 0 ≤ m.budget x.balanceManager input u
  traded : ∀ ql rc s amount, Comes E now u m x input ql rc s → Generates s ql rc amount →
    0 < s.taker.remain ∧ 0 < (s.market.rcs.read rc).remain ∧ 0 ≤ (s.market.rcs.read rc).price
  spent : ∀ ql rc s, Comes E now u m x input ql rc s → 0 < s.taker.remain → ¬s.Own rc →
    s.Limited ql rc →
    s.size ql rc = 0 → 0 ≤ (s.market.rcs.read rc).price

/-! ## One round -/

/-- The budget is spent when the rest of it buys nothing at the next price. -/
theorem tradedBaseAmount_none :
    s.market.tradedBaseAmount s.taker (s.ask rc) (s.bid rc)
    (s.market.rcs.read rc).price ql s.quoteSum = .ok none ↔
      s.Limited ql rc ∧ (s.market.rcs.read rc).price ≠ 0 ∧ s.size ql rc = 0 := by
  unfold tradedBaseAmount MatchState.size
  simp only [both_eq]
  by_cases hl : s.Limited ql rc
  · have hif : s.taker.side = .bid ∧ s.taker.type_ = .market ∧
        ql < s.quoteSum + (s.market.rcs.read rc).price * s.both rc := hl
    rw [if_pos hif, if_pos hl]
    split_ifs <;> simp_all
  · have hif : ¬(s.taker.side = .bid ∧ s.taker.type_ = .market ∧
        ql < s.quoteSum + (s.market.rcs.read rc).price * s.both rc) := hl
    rw [if_neg hif]
    simp [hl]

/-- **What a market bid buys** from an ask: something, no more than both have left and within the
budget; and where it leaves both open the rest of the budget does not buy another unit. -/
theorem Market.Generates.buys (h : Generates s ql rc amount) (hside : s.taker.side = .bid)
    (hmarket : s.taker.type_ = .market) (hle : s.quoteSum ≤ ql) (htaker : 0 < s.taker.remain)
    (hmaker : 0 < (s.market.rcs.read rc).remain) (hprice : 0 ≤ (s.market.rcs.read rc).price) :
    (0 < amount ∧ amount ≤ s.taker.remain ∧ amount ≤ (s.market.rcs.read rc).remain) ∧
      s.quoteSum + (s.market.rcs.read rc).price * amount ≤ ql ∧
      (amount = (s.market.rcs.read rc).remain ∨ amount = s.taker.remain ∨
        ql - (s.quoteSum + (s.market.rcs.read rc).price * amount) <
          (s.market.rcs.read rc).price * (10 ^ s.market.amountPrec)⁻¹) := by
  obtain ⟨hsize, hcut⟩ := h.size
  set price := (s.market.rcs.read rc).price with hp
  have hboth : 0 < s.both rc := lt_min htaker hmaker
  have hleft : s.both rc ≤ s.taker.remain ∧ s.both rc ≤ (s.market.rcs.read rc).remain :=
    ⟨min_le_left _ _, min_le_right _ _⟩
  unfold MatchState.size at hsize
  by_cases hl : s.Limited ql rc
  · -- the rest of the budget is divided by the price, less than a unit of the quotient is cut off
    obtain ⟨hne, hprice0⟩ := hcut hl
    have hover : ql < s.quoteSum + price * s.both rc := hl.2.2
    have hpos : 0 < price := lt_of_le_of_ne hprice (Ne.symm hprice0)
    rw [if_pos hl] at hsize
    have hquot : 0 ≤ (ql - s.quoteSum) / price := div_nonneg (by linarith) hprice
    have hamount : 0 < amount := lt_of_le_of_ne (hsize ▸ truncDp_nonneg hquot) (Ne.symm hne)
    have hcost : amount ≤ (ql - s.quoteSum) / price := hsize ▸ truncDp_le_self hquot
    have hunit : (ql - s.quoteSum) / price < amount + (10 ^ s.market.amountPrec)⁻¹ :=
      hsize ▸ lt_truncDp_add hquot
    rw [le_div_iff₀ hpos] at hcost
    rw [div_lt_iff₀ hpos] at hunit
    have hlt : amount < s.both rc := by
      refine lt_of_mul_lt_mul_left ?_ hpos.le
      linarith
    refine ⟨⟨hamount, hlt.le.trans hleft.1, hlt.le.trans hleft.2⟩, by linarith, .inr (.inr ?_)⟩
    linarith
  · -- the budget covers what both have left, so one of them is filled
    rw [if_neg hl] at hsize
    have hcovered : s.quoteSum + price * s.both rc ≤ ql :=
      not_lt.1 fun hover => hl ⟨hside, hmarket, hover⟩
    rw [hsize]
    refine ⟨⟨hboth, hleft⟩, hcovered, ?_⟩
    rcases min_choice s.taker.remain (s.market.rcs.read rc).remain with hmin | hmin
    · exact .inr (.inl hmin)
    · exact .inl hmin

/-- Where the budget is spent the rest does not buy a unit. -/
theorem spent_left (hle : s.quoteSum ≤ ql) (hprice : 0 < (s.market.rcs.read rc).price)
    (hl : s.Limited ql rc) (hsize : s.size ql rc = 0) :
    ql - s.quoteSum < (s.market.rcs.read rc).price * (10 ^ s.market.amountPrec)⁻¹ := by
  unfold MatchState.size at hsize
  rw [if_pos hl] at hsize
  have hunit := lt_truncDp_add (p := s.market.amountPrec) (div_nonneg (sub_nonneg.2 hle) hprice.le)
  rw [hsize, zero_add, div_lt_iff₀ hprice] at hunit
  linarith

/-! ## The loop -/

/-- The trades so far stay within the budget, and an ask they leave open is too dear for what is
left. -/
structure Shops (m : Market) (ql : Decimal) (done : List OrderRc) (s : MatchState)
    (ts : List Trade) : Prop where
  within : 0 ≤ s.quoteSum ∧ s.quoteSum ≤ ql
  leaves : ∀ r t, (r, t) ∈ done.zip ts → t.amount = (m.rcs.read r).remain ∨ s.taker.remain = 0 ∨
    ql - s.quoteSum < (m.rcs.read r).price * (10 ^ m.amountPrec)⁻¹

/-- **A market bid that affords its trades shops within its budget.** -/
theorem shops_carried (hd : DeskOK ⟨m, x, none⟩)
    (hcheck : m.checkInput E x.balanceManager input u = .ok ())
    (hql : m.quoteLimit x.balanceManager input u = .ok ql) (hmarket : input.type_ = .market)
    (hside : input.side = .bid) (hA : Affords E now u m x input) :
    Carried E now u ql m (m.putState now x input u).ctx (m.putTaker now x input u)
      fun done _ s ts =>
      Shops m (m.budget x.balanceManager input u) done s ts := by
  have hbudget : ql = m.budget x.balanceManager input u :=
    quoteLimit_budget hd.prec hmarket hside hql
  have hfirst := hA.budget
  rw [← hbudget] at hfirst ⊢
  constructor
  · exact ⟨⟨le_rfl, hfirst⟩, by simp⟩
  · intro done rc rest s s' ts t hrounds hs hg _ ht htaking
    have hread := (hrounds.meets (putState_ok now hd hcheck hql) (hd.quiet rfl)).1
    have hprec : s.market.amountPrec = m.amountPrec := hrounds.tried.terms.amountPrec
    obtain ⟨htaker, hmaker, hprice⟩ := hA.traded ql rc s t.amount ⟨hcheck, hql, hrounds.comes⟩ hg
    obtain ⟨⟨hpos, -, -⟩, hle, hleaves⟩ :=
      hg.buys (by rw [hrounds.order]; exact hside) (by rw [hrounds.order]; exact hmarket)
      hs.within.2 htaker hmaker hprice
    obtain ⟨hremain, -, hqs⟩ := filled_after htaking
    have hquote :
        t.quoteAmount = (s.market.rcs.read rc).price * t.amount := by rw [ht.quoteAmount, ht.price]
    have hpay : 0 ≤ t.quoteAmount := hquote ▸ mul_nonneg hprice hpos.le
    rw [← hquote, ← hqs, hread, hprec] at hleaves
    refine ⟨⟨by linarith [hs.within.1], by rw [hqs, hquote]; exact hle⟩, fun r t' hmem => ?_⟩
    rw [List.zip_append hrounds.length] at hmem
    rcases List.mem_append.1 hmem with hmem | hmem
    · -- an ask left open before was too dear then, and there is less to spend now
      rcases hs.leaves r t' hmem with hfilled | hclosed | hdear
      · exact .inl hfilled
      · exact absurd hclosed htaker.ne'
      · exact .inr (.inr (by linarith))
    · obtain ⟨rfl, rfl⟩ : r = rc ∧ t' = t := by simpa using hmem
      refine hleaves.imp_right (Or.imp_left fun hall => ?_)
      rw [hremain, hall, sub_self]

/-! ## What is left of the other side -/

/-- **The other side after a put**: the makers it left open, and those it did not come to. -/
theorem Market.Rounds.mem_left {y : Ctx} (hd : DeskOK (startDesk m x taker ql)) (hq : m.Quiet)
    (h : Rounds E now u ql m x taker done rest s ts) (hends : PutEnds y taker s ts o m' x')
    (hindex : m'.IndexOK) (hgone : m'.resting taker.id = none) {p : Order} : p ∈ m'.makers taker ↔
      (∃ r t, (r, t) ∈ done.zip ts ∧ p = filledMaker now taker.isAsk (m.rcs.read r) t ∧
        p.remain ≠ 0) ∨
        ∃ r ∈ rest, p = m.rcs.read r := by
  have hindex₀ : m.IndexOK := hd.index
  obtain ⟨hnodup, hcounter⟩ := counterOrders_spec hindex₀ taker
  rw [← h.handles] at hcounter hnodup
  have hstored : ∀ r ∈ done ++ rest, m.orders[(m.rcs.read r).id]? = some r :=
    fun r hr => (hcounter r hr).1
  have hfresh := hd.taking _ rfl
  have hid : ∀ r ∈ done ++ rest, (m.rcs.read r).id ≠ taker.id := fun r hr =>
    (hfresh.id ▸ hfresh.fresh _ _ (resting_some.2 ⟨r, hstored r hr, rfl⟩)).ne
  have horders : s.market.orders = m.orders := h.loop.orders
  rw [Market.makers, mem_sideOrders hindex, otherSide]
  constructor
  · -- what rests now rested before the filled makers were removed, under the same handle
    rintro ⟨hp, hside⟩
    have hne : p.id ≠ taker.id := fun he => by rw [he, hgone] at hp; cases hp
    rw [hends.resting _ hne, Option.filter_eq_some_iff, decide_eq_true_eq] at hp
    obtain ⟨r, hr, hread⟩ := resting_some.1 hp.1
    rw [horders] at hr
    have hrid : (m.rcs.read r).id = p.id := hindex₀.ownId _ _ hr
    by_cases hdone : r ∈ done
    · rw [← List.map_fst_zip h.length.le, List.mem_map] at hdone
      obtain ⟨⟨r', t⟩, hmem, rfl⟩ := hdone
      exact .inl ⟨r', t, hmem, hread ▸ (h.made r' t hmem).maker, hp.2⟩
    · rw [h.others r hdone] at hread
      have hmem : r ∈ m.counterOrders taker := by
        rw [counterOrders_eq, mem_sideHandles hindex₀]
        exact ⟨hrid ▸ hr, otherSide.2 (hread ▸ hside)⟩
      rw [← h.handles] at hmem
      exact .inr ⟨r, (List.mem_append.1 hmem).resolve_left hdone, hread.symm⟩
  · rintro (⟨r, t, hmem, rfl, hopen⟩ | ⟨r, hr, rfl⟩)
    · have hr : r ∈ done ++ rest := List.mem_append_left _ (List.of_mem_zip hmem).1
      refine ⟨?_, (hcounter r hr).2⟩
      show m'.resting (m.rcs.read r).id = _
      rw [hends.resting _ (hid r hr), h.resting_done hd hmem, Option.filter_eq_some_iff]
      exact ⟨rfl, by simpa using hopen⟩
    · have hr' : r ∈ done ++ rest := List.mem_append_right _ hr
      have hdone : r ∉ done := fun hmem => (List.nodup_append.1 hnodup).2.2 r hmem r hr rfl
      have hrest : m.resting (m.rcs.read r).id = some (m.rcs.read r) :=
        resting_some.2 ⟨r, hstored r hr', rfl⟩
      refine ⟨?_, (hcounter r hr').2⟩
      rw [hends.resting _ (hid r hr'), Option.filter_eq_some_iff]
      refine ⟨resting_some.2 ⟨r, by rw [horders]; exact hstored r hr', h.others r hdone⟩, ?_⟩
      simpa using hq _ _ hrest

/-- **The best maker left** is one the put left open, or the next one. -/
theorem Market.Rounds.best_left {y : Ctx} {best : Order} (hd : DeskOK (startDesk m x taker ql))
    (hq : m.Quiet) (h : Rounds E now u ql m x taker done rest s ts)
    (hends : PutEnds y taker s ts o m' x') (hindex : m'.IndexOK)
    (hgone : m'.resting taker.id = none) (hbest : (m'.makers taker).head? = some best) :
    (∃ r t, (r, t) ∈ done.zip ts ∧ best = filledMaker now taker.isAsk (m.rcs.read r) t ∧
      best.remain ≠ 0) ∨
      ∃ r rest', rest = r :: rest' ∧ best = m.rcs.read r := by
  have hindex₀ : m.IndexOK := hd.index
  obtain ⟨later, hmakers⟩ := List.head?_eq_some_iff.1 hbest
  have hmem : best ∈ m'.makers taker := hmakers ▸ List.mem_cons_self
  rcases (h.mem_left hd hq hends hindex hgone).1 hmem with hopen | ⟨r, hr, rfl⟩
  · exact .inl hopen
  · cases rest with
    | nil => cases hr
    | cons r₀ rest =>
      refine .inr ⟨r₀, rest, rfl, ?_⟩
      -- the next maker is left too, and none is ahead of the best
      have hnext : m.rcs.read r₀ ∈ m'.makers taker :=
        (h.mem_left hd hq hends hindex hgone).2 (.inr ⟨r₀, List.mem_cons_self, rfl⟩)
      have hsides : (m.rcs.read r).side = (m.rcs.read r₀).side :=
        ((mem_sideOrders hindex).1 hmem).2.trans ((mem_sideOrders hindex).1 hnext).2.symm
      have hsorted : (m'.makers taker).Pairwise Order.Ahead := sideOrders_sorted hindex _
      have hhandles := sideHandles_sorted hindex₀ (if taker.isAsk then .bid else .ask)
      rw [← counterOrders_eq, ← h.handles] at hhandles
      rw [hmakers] at hsorted hnext
      rcases List.mem_cons.1 hnext with heq | hlater
      · exact heq.symm
      rcases List.mem_cons.1 hr with rfl | hbehind
      · rfl
      · have hahead : (m.rcs.read r).Ahead (m.rcs.read r₀) :=
          (List.pairwise_cons.1 hsorted).1 _ hlater
        exact absurd ((List.pairwise_cons.1 (List.pairwise_append.1 hhandles).2.1).1 _ hbehind)
          (hahead.asymm hsides)

/-- The order a put returns is the one its loop ended with. -/
theorem Market.PutEnds.offer {y : Ctx} (h : Rounds E now u ql m x taker done rest s ts)
    (hends : PutEnds y taker s ts o m' x') :
    o.isAsk = taker.isAsk ∧ o.id = taker.id ∧ o.type_ = taker.type_ ∧ o.remain = s.taker.remain ∧
      o.finishedQuote = s.taker.finishedQuote := by
  have hisAsk : s.taker.isAsk = taker.isAsk := by rw [h.order]; rfl
  have hid : s.taker.id = taker.id := by rw [h.order]
  have htype : s.taker.type_ = taker.type_ := by rw [h.order]
  rcases hends.order with rfl | rfl
  · exact ⟨hisAsk, hid, htype, rfl, rfl⟩
  · exact ⟨hisAsk, hid, htype, rfl, rfl⟩

/-- **A market bid that ends with something left has used its budget.** -/
theorem Market.Rounds.usedUp {y : Ctx} (hd : DeskOK (startDesk m x taker ql)) (hq : m.Quiet)
    (h : Rounds E now u ql m x taker done rest s ts) (hs : Shops m ql done s ts)
    (hends : PutEnds y taker s ts o m' x') (hindex : m'.IndexOK)
    (hgone : m'.resting taker.id = none) (hterms : m.SameTerms m') (hmarket : taker.type_ = .market)
    (hpost : taker.postOnly = false) (hstops : ∀ rc rest', rest = rc :: rest' → Stops s ql rc)
    (hprice : ∀ rc rest', rest = rc :: rest' → ¬s.Own rc → s.Limited ql rc → s.size ql rc = 0 →
      0 ≤ (s.market.rcs.read rc).price)
    (hpaid : o.finishedQuote = s.quoteSum) (hopen : 0 < o.remain) : m'.UsedUp taker.user o ql := by
  obtain ⟨hisAsk, -, -, hremain, -⟩ := hends.offer h
  rw [hremain] at hopen
  intro best hbest
  have hmakers : m'.makers o = m'.makers taker := by unfold Market.makers; rw [hisAsk]
  rw [hmakers] at hbest
  rw [hpaid, hterms.amountPrec]
  rcases h.best_left hd hq hends hindex hgone hbest with ⟨r, t, hmem, rfl, hleft⟩ |
    ⟨r, rest', hrest, rfl⟩
  · rcases hs.leaves r t hmem with hfilled | hclosed | hdear
    · exact absurd (by rw [filledMaker_remain, hfilled, sub_self]) hleft
    · exact absurd hclosed hopen.ne'
    · exact .inr hdear
  · subst hrest
    have hread := (h.meets hd hq).1
    have hstop := hstops r rest' rfl
    have hown : s.Own r → m'.disableSelfTrade = true ∧ (m.rcs.read r).user = taker.user := by
      rintro ⟨huser, hdis⟩
      refine ⟨hterms.disableSelfTrade.trans (h.tried.terms.disableSelfTrade.symm.trans hdis), ?_⟩
      rw [← hread, huser, h.order]
    by_cases hself : s.Own r
    · exact .inl (hown hself)
    cases hstop with
    | filled hz => exact absurd hz hopen.ne'
    | apart hlim _ =>
      rw [h.order, hmarket] at hlim
      cases hlim
    | postOnly hpo =>
      rw [h.order, hpost] at hpo
      cases hpo
    | own hself' => exact absurd hself' hself
    | spent hspent =>
      obtain ⟨hl, hne, hsize⟩ := tradedBaseAmount_none.1 hspent
      have hpos : 0 < (s.market.rcs.read r).price :=
        lt_of_le_of_ne (hprice r rest' rfl hself hl hsize) (Ne.symm hne)
      have hleft := spent_left hs.within.2 hpos hl hsize
      rw [hread, h.tried.terms.amountPrec] at hleft
      exact .inr hleft

/-! ## Every put -/

/-- What the trades so far add up to. -/
theorem spends_of {budget : Decimal}
    (hpaid : s.quoteSum = (ts.map Trade.quoteAmount).sum ∧ s.taker.finishedQuote = 0 + s.quoteSum)
    (htold : x.persistor.realPersist = true → x'.persistor.trades = x.persistor.trades ++ ts)
    (ho : o.finishedQuote = s.taker.finishedQuote)
    (hwithin : 0 ≤ s.quoteSum ∧ s.quoteSum ≤ budget) : Spends x x' o budget := by
  have hquote : o.finishedQuote = s.quoteSum := by rw [ho, hpaid.2, zero_add]
  exact ⟨ts, htold, by rw [hquote, hpaid.1], hquote ▸ hwithin.1, hquote ▸ hwithin.2⟩

/-- **Enough to keep the budget.** -/
theorem Affords.keeps (hd : DeskOK ⟨m, x, none⟩)
    (hcheck : m.checkInput E x.balanceManager input u = .ok ()) (hmarket : input.type_ = .market)
    (hside : input.side = .bid) (hA : Affords E now u m x input) :
    KeepsBudget E now u m x input := by
  have hcarried : ∀ ql, m.quoteLimit x.balanceManager input u = .ok ql →
      Carried E now u ql m (m.putState now x input u).ctx (m.putTaker now x input u)
        fun done _ s ts =>
        Shops m (m.budget x.balanceManager input u) done s ts ∧
          s.quoteSum = (ts.map Trade.quoteAmount).sum ∧ s.taker.finishedQuote = 0 + s.quoteSum :=
            fun ql hql =>
    (shops_carried hd hcheck hql hmarket hside hA).and paid_carried
  refine ⟨fun ql rc s amount hround hg => ?_, fun ql rc s hround => ?_, fun o m' x' hput => ?_⟩
  · obtain ⟨done, rest, ts, hrounds, hs, -, hquote⟩ := hround.rounds hd (hcarried ql hround.budget)
    have hbudget : ql = m.budget x.balanceManager input u :=
      quoteLimit_budget hd.prec hmarket hside hround.budget
    obtain ⟨htaker, hmaker, hprice⟩ := hA.traded ql rc s amount hround hg
    obtain ⟨⟨hpos, hle, hle'⟩, hwithin, -⟩ :=
      hg.buys (by rw [hrounds.order]; exact hside) (by rw [hrounds.order]; exact hmarket)
      (hbudget ▸ hs.within.2) htaker hmaker hprice
    rw [hquote, zero_add]
    exact ⟨hpos, hle, hle', add_nonneg hs.within.1 (mul_nonneg hprice hpos.le), hbudget ▸ hwithin⟩
  · obtain ⟨done, rest, ts, hrounds, hs, hpaid⟩ := hround.rounds hd (hcarried ql hround.budget)
    exact spends_of hpaid (fun hr => (hrounds.told hr).2) rfl hs.within
  · obtain ⟨ql, done, rest, s, ts, hql, hrounds, ⟨hs, hpaid⟩, hstops, hends⟩ :=
      putOrder_rounds hd hput hcarried
    have hbudget : ql = m.budget x.balanceManager input u :=
      quoteLimit_budget hd.prec hmarket hside hql
    obtain ⟨-, hid, htype, hremain, hquote⟩ := hends.offer hrounds
    have hsteps : Steps E now u AnyOrder ⟨m, x, none⟩ ⟨m', x', none⟩ :=
      putOrder_steps hd (fun _ => trivial) hput
    obtain ⟨_, -, -, -, hsafe⟩ := putOrder_outcome hd o m' x' hput
    have hgone := hsafe.market (htype.trans hmarket)
    rw [hid] at hgone
    refine ⟨spends_of hpaid hends.trades hquote hs.within, fun hopen => ?_⟩
    have hused := hrounds.usedUp (putState_ok now hd hcheck hql) (hd.quiet rfl) (hbudget ▸ hs) hends
      (hsteps.deskOK hd).index hgone
      hsteps.sameTerms hmarket ((checkInput_ok hcheck).market hmarket).2 hstops
        (fun rc rest' hrest hown hl hsize => by
        subst hrest
        exact hA.spent ql rc s ⟨hcheck, hql, hrounds.comes⟩ (hremain ▸ hopen) hown hl hsize)
      (by rw [hquote, hpaid.2, zero_add]) hopen
    exact hbudget ▸ hused

/-! ## Sound asks -/

/-- An ask that may rest is for an amount that is not negative, at a price above zero. -/
def SoundAsk (input : OrderInput) : Prop :=
  input.side = .ask → input.type_ = .limit → 0 ≤ input.amount ∧ 0 < input.price

instance (input : OrderInput) : Decidable (SoundAsk input) := inferInstanceAs (Decidable (_ → _))

/-- What rests of a sound ask. -/
def Order.SoundAsk (o : Order) : Prop := o.side = .ask → 0 ≤ o.remain ∧ 0 < o.price

/-- What is kept of an order being put: a sound ask, or a market bid for an amount and with a budget
that are not negative. -/
structure Taking.SoundAsk (k : Taking) : Prop where
  ask : k.order.side = .ask → k.order.type_ = .limit → 0 ≤ k.order.remain ∧ 0 < k.order.price
  bid : k.order.side = .bid → k.order.type_ = .market → 0 ≤ k.order.amount → 0 ≤ k.quoteLimit →
    0 ≤ k.order.remain ∧ k.quoteSum ≤ k.quoteLimit

/-- A trade at a positive price takes no more than the ask has left, whatever the bid is for. -/
theorem tradedBaseAmount_le_ask {ask bid : Order} {price qs : Decimal} (hask : 0 ≤ ask.remain)
    (hprice : taker.side = .bid → taker.type_ = .market → 0 < price)
    (h : m.tradedBaseAmount taker ask bid price ql qs = .ok (some amount)) :
    amount ≤ ask.remain := by
  unfold tradedBaseAmount at h
  simp only at h
  split_ifs at h with hover hzero <;>
    simp only [Except.ok.injEq, Option.some.injEq, reduceCtorEq] at h <;> subst h
  · obtain ⟨hside, hmarket, hover⟩ := hover
    have hlt : (ql - qs) / price < min ask.remain bid.remain := by
      rw [div_lt_iff₀ (hprice hside hmarket)]
      linarith
    rcases le_or_gt 0 ((ql - qs) / price) with hx | hx
    · exact (truncDp_le_self hx).trans (hlt.le.trans (min_le_left _ _))
    · exact (truncDp_nonpos hx.le).trans hask
  · exact min_le_left _ _

/-- **Every step keeps asks sound.** -/
theorem soundAsk_keeps (u : Uuid) :
    Keeps E u (fun _ _ => SoundAsk) Order.SoundAsk fun k _ => k.SoundAsk := by
  intro now d d' h hd hQ
  refine ⟨fun id o ho => ?_, fun k' hk' => ?_⟩
  · rcases h.resting hd ho with ho | ⟨_, _, k, rc, t, hk, -, hmeet, ht, -, rfl⟩ |
      ⟨k, hk, -, hlimit, -, -, rfl⟩
    · exact hQ.resting id o ho
    · intro hside
      obtain ⟨hremain, hprice⟩ := hQ.resting _ _ hmeet.resting hside
      have htaker : k.order.isAsk = false := by
        have hne := hmeet.counter
        rw [show (d.market.rcs.read rc).side = .ask from hside] at hne
        unfold Order.isAsk
        rw [decide_eq_false hne.symm]
      have hamount := ht.amount
      rw [ht.price] at hamount
      have hle := tradedBaseAmount_le_ask (by simpa [askOf, htaker] using hremain)
        (fun _ _ => hprice) hamount
      rw [askOf, htaker] at hle
      refine ⟨?_, hprice⟩
      rw [filledMaker_remain]
      exact sub_nonneg.2 hle
    · exact fun hside => (hQ.taking k hk).ask hside hlimit
  · cases h with
    | accept hA _ _ =>
      obtain rfl := Option.some.inj hk'
      exact ⟨hA, fun _ _ hamount hbudget => ⟨hamount, hbudget⟩⟩
    | @trade m m' x x' k rc t hmeet ht =>
      obtain rfl := Option.some.inj hk'
      have hk : k.SoundAsk := hQ.taking k rfl
      have hamount := ht.amount
      rw [ht.price] at hamount
      refine ⟨fun hside hlimit => ?_, fun hside hmarket hpos hbudget => ?_⟩
      · have hside : k.order.side = .ask := hside
        have hlimit : k.order.type_ = .limit := hlimit
        obtain ⟨hremain, hprice⟩ := hk.ask hside hlimit
        have hisAsk : k.order.isAsk = true := decide_eq_true hside
        have hle := tradedBaseAmount_le_ask (by simpa [askOf, hisAsk] using hremain)
          (fun hbid _ => by rw [hside] at hbid; cases hbid) hamount
        rw [askOf, hisAsk] at hle
        exact ⟨sub_nonneg.2 hle, hprice⟩
      · have hside : k.order.side = .bid := hside
        have hmarket : k.order.type_ = .market := hmarket
        obtain ⟨hremain, hwithin⟩ := hk.bid hside hmarket hpos hbudget
        have hmaker : (m.rcs.read rc).side = .ask := by
          have hne := hmeet.counter
          rw [hside] at hne
          cases hs : (m.rcs.read rc).side with
          | ask => rfl
          | bid => exact absurd hs hne
        obtain ⟨hleft, -⟩ := hQ.resting _ _ hmeet.resting hmaker
        have hisAsk : k.order.isAsk = false := by simp [Order.isAsk, hside]
        have hask : 0 ≤ (askOf k.order (m.rcs.read rc)).remain := askOf_remain_nonneg hremain hleft
        have hbid : 0 ≤ (bidOf k.order (m.rcs.read rc)).remain := bidOf_remain_nonneg hremain hleft
        obtain ⟨-, hspent⟩ := tradedBaseAmount_nonneg hask hbid (fun _ _ => hwithin) hamount
        obtain ⟨-, hle⟩ := tradedBaseAmount_le hask hbid (fun _ _ => .inl hwithin) hamount
        rw [bidOf, hisAsk] at hle
        refine ⟨sub_nonneg.2 hle, ?_⟩
        show k.quoteSum + t.quoteAmount ≤ k.quoteLimit
        rw [ht.quoteAmount, ht.price]
        exact hspent hside hmarket
    | @finish _ _ k _ _ _ =>
      obtain rfl := Option.some.inj hk'
      exact hQ.taking k rfl
    | _ => simp at hk'

/-- **A market bid affords its trades** on a book of sound asks. -/
theorem SoundAsk.affords (hd : DeskOK ⟨m, x, none⟩)
    (hQ : ∀ id o, m.resting id = some o → o.SoundAsk)
    (hcheck : m.checkInput E x.balanceManager input u = .ok ()) (hmarket : input.type_ = .market)
    (hside : input.side = .bid) (hamount : 0 ≤ input.amount)
    (hbudget : 0 ≤ m.budget x.balanceManager input u) : Affords E now u m x input := by
  have hsound : SoundAsk input := fun hask => by rw [hside] at hask; cases hask
  -- an ask that the bid comes to rests, and is sound
  have hcomes : ∀ ql rc s, Comes E now u m x input ql rc s → (s.taking ql).SoundAsk ∧
      s.market.rcs.read rc = m.rcs.read rc ∧ 0 ≤ (m.rcs.read rc).remain ∧
      0 < (m.rcs.read rc).price ∧
      s.taker.side = .bid ∧ s.taker.type_ = .market ∧ s.taker.amount = input.amount := by
    intro ql rc s hround
    obtain ⟨done, rest, ts, hrounds, -⟩ := hround.rounds hd carried_true
    have hread := (hrounds.meets (putState_ok now hd hcheck hround.budget) (hd.quiet rfl)).1
    obtain ⟨hstored, hne⟩ := (counterOrders_spec hd.index (m.putTaker now x input u)).2 rc
      (hrounds.handles ▸ List.mem_append_right _ List.mem_cons_self)
    have hask : (m.rcs.read rc).side = .ask := by
      cases hs : (m.rcs.read rc).side with
      | ask => rfl
      | bid => exact absurd (hs.trans hside.symm) hne
    obtain ⟨hremain, hprice⟩ := hQ _ _ (resting_some.2 ⟨rc, hstored, rfl⟩) hask
    have htaking := ((soundAsk_keeps u).comes hd hQ hsound hround).taking _ rfl
    exact ⟨htaking, hread, hremain,
      hprice, by rw [hrounds.order]; exact hside, by rw [hrounds.order]; exact hmarket,
      by rw [hrounds.order]; rfl⟩
  refine ⟨hbudget, fun ql rc s amount hround hg => ?_, fun ql rc s hround _ _ _ _ => ?_⟩
  · obtain ⟨htaking, hread, hremain, hprice, hbid, htype, hwhole⟩ := hcomes ql rc s hround
    have hql : 0 ≤ ql := by
      rw [quoteLimit_budget hd.prec hmarket hside hround.budget]; exact hbudget
    obtain ⟨hleft, -⟩ := htaking.bid hbid htype (hwhole.symm ▸ hamount) hql
    obtain ⟨done, rest, ts, hrounds, -⟩ := hround.rounds hd carried_true
    have hmeet :=
      (hrounds.meets (putState_ok now hd hcheck hround.budget) (hd.quiet rfl)).2 amount hg.toTries
    rw [hread]
    exact ⟨lt_of_le_of_ne hleft (Ne.symm hg.takerOpen),
      lt_of_le_of_ne hremain (Ne.symm (hread ▸ hmeet.makerOpen)), hprice.le⟩
  · obtain ⟨-, hread, -, hprice, -⟩ := hcomes ql rc s hround
    rw [hread]
    exact hprice.le

/-! ## And what it takes -/

/-- The book of a market bid has an ask, to which the loop comes first. -/
theorem checkInput_comes (now : Timestamp)
    (hcheck : m.checkInput E x.balanceManager input u = .ok ())
    (hql : m.quoteLimit x.balanceManager input u = .ok ql) (hmarket : input.type_ = .market)
    (hside : input.side = .bid) :
    ∃ rc, Comes E now u m x input ql rc (m.putState now x input u) := by
  have htype := hcheck
  simp only [Market.checkInput, bind_ok] at htype
  obtain ⟨-, -, -, -, -, -, -, -, -, -, _, htype, -⟩ := htype
  unfold Market.checkType at htype
  rw [if_pos hmarket] at htype
  simp only [bind_ok, bailIf_ok] at htype
  obtain ⟨-, -, -, -, hasks⟩ := htype
  have hcounter : m.counterOrders (m.putTaker now x input u) = values m.asks := by
    unfold Market.counterOrders
    rw [if_neg]
    simp [putTaker, newOrder, Order.isAsk, hside]
  cases hall : values m.asks with
  | nil =>
    exfalso
    refine hasks (.inr ⟨hside, ?_⟩)
    rw [← Std.TreeMap.isEmpty_toList, List.isEmpty_iff]
    exact List.map_eq_nil_iff.1 hall
  | cons rc rest => exact ⟨rc, hcheck, hql, by rw [hcounter, hall]; exact List.mem_cons_self⟩

theorem quoteLimit_ok (hd : DeskOK ⟨m, x, none⟩) (hmarket : input.type_ = .market)
    (hside : input.side = .bid) :
    m.quoteLimit x.balanceManager input u = .ok (m.budget x.balanceManager input u) := by
  have hprec : x.balanceManager.assetManager.assetPrec m.quote = .ok m.quotePrec := hd.prec.quote
  unfold Market.quoteLimit Market.budget
  rw [if_pos ⟨hmarket, hside⟩, hprec]
  split <;> rfl

/-- **A budget below zero is not kept**: the loop begins, and nothing is between nothing and the
budget. -/
theorem KeepsBudget.budget (hd : DeskOK ⟨m, x, none⟩)
    (hcheck : m.checkInput E x.balanceManager input u = .ok ()) (hmarket : input.type_ = .market)
    (hside : input.side = .bid) (h : KeepsBudget E now u m x input) :
    0 ≤ m.budget x.balanceManager input u := by
  obtain ⟨rc, hround⟩ := checkInput_comes now hcheck (quoteLimit_ok hd hmarket hside) hmarket hside
  obtain ⟨ts, -, -, hnonneg, hle⟩ := h.begun _ rc _ hround
  exact hnonneg.trans hle

/-- What is asked of a put of a market bid. -/
def BudgetIff (E : Env) (now : Timestamp) (u : Uuid) (m : Market) (x : Ctx)
    (input : OrderInput) : Prop :=
  m.checkInput E x.balanceManager input u = .ok () → input.type_ = .market → input.side = .bid →
    0 ≤ input.amount →
    (KeepsBudget E now u m x input ↔ 0 ≤ m.budget x.balanceManager input u)

theorem sampleOneAsk_sound {c : Controller} (h : sampleRun releaseEnv sampleOneAsk = .ok c) :
    PutRun releaseEnv sampleSettings (fun _ _ _ => SoundAsk) c := by
  have hparsed : (OrderInput.tryFrom releaseEnv (limitOrder .ask "2" "100")).toOption.all
      (fun input => decide (SoundAsk input)) = true := by
    decide +kernel
  refine sampleOneAsk_putRun h fun c m input _ hinput _ => ?_
  simpa [hinput, Except.toOption] using hparsed

end Dingir
