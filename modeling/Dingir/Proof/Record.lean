import Dingir.Proof.Bystander

/-!
# What a trade says of itself

The record of a trade is put together before, while and after the balances move. It
says that the bidder gets the amount less a fee in base and pays the quote amount,
and that the asker gets the quote amount less a fee and pays the amount.

- `Market.Emits.states_iff`: a record is true exactly when both orders want something at a price
  that is not negative, within the budget, and the fees stay between nothing and all of what is
  credited.
- **`PutRun.trade_recorded`**: so it is along every run of `Proper` orders.
- **`Reachable.not_record`**: a fee rate below zero is accepted; the fee is recorded and not paid
  out.
-/

namespace Dingir

open Keyed Rounding Posting Outcome Market

variable {E : Env} {settings : Settings} {now : Timestamp} {u : Uuid} {ql amount v rate : Decimal}
  {p : ℕ} {rc : OrderRc} {s s' : MatchState} {m : Market} {x : Ctx} {t : Trade} {input : OrderInput}
  {c : Controller}

/-! ## The record -/

/-- What the trade says it changes: the total of a user in an asset, and by how much. -/
def Trade.changes (t : Trade) : List (Uuid × String × Decimal) :=
  [(t.askUserId, t.base, -t.amount), (t.askUserId, t.quote, t.quoteAmount - t.askFee),
    (t.bidUserId, t.base, t.amount - t.bidFee), (t.bidUserId, t.quote, -t.quoteAmount)]

namespace Market.MatchState

/-- What a user holds of an asset, available or frozen. -/
def held (s : MatchState) (u : Uuid) (a : String) : Decimal := s.ctx.balanceManager.total u a

/-- The ask of a round with the maker behind `rc`. -/
def ask (s : MatchState) (rc : OrderRc) : Order := askOf s.taker (s.market.rcs.read rc)

def bid (s : MatchState) (rc : OrderRc) : Order := bidOf s.taker (s.market.rcs.read rc)

end Market.MatchState

/-- **The record states what was moved** by the trade that leads from `s` to `s'`. -/
structure Trade.States (t : Trade) (rc : OrderRc) (s s' : MatchState) : Prop where
  amount : 0 < t.amount
  quoteAmount : t.quoteAmount = t.price * t.amount
  bidFee : 0 ≤ t.bidFee ∧ t.bidFee ≤ t.amount
  askFee : 0 ≤ t.askFee ∧ t.askFee ≤ t.quoteAmount
  moved : ∀ e ∈ t.changes, s'.held e.1 e.2.1 = s.held e.1 e.2.1 + e.2.2
  others : ∀ u a, (∀ e ∈ t.changes, (e.1, e.2.1) ≠ (u, a)) → s'.held u a = s.held u a
  balancesBefore :
    t.stateBefore.balanceStates = t.changes.map fun e => ⟨e.1, e.2.1, s.held e.1 e.2.1⟩
  balancesAfter :
    t.stateAfter.balanceStates = t.changes.map fun e => ⟨e.1, e.2.1, s.held e.1 e.2.1 + e.2.2⟩
  feesBefore : t.stateBefore.orderStates.map VerboseOrderState.finishedFee =
    [(s.ask rc).finishedFee, (s.bid rc).finishedFee]
  feesAfter : t.stateAfter.orderStates.map VerboseOrderState.finishedFee =
    [(s.ask rc).finishedFee + t.askFee, (s.bid rc).finishedFee + t.bidFee]
  orders : (s'.ask rc).finishedFee = (s.ask rc).finishedFee + t.askFee ∧
    (s'.bid rc).finishedFee = (s.bid rc).finishedFee + t.bidFee

/-! ## When it does -/

/-- A fee of `rate` on `v`, truncated to `p` digits, takes something between nothing and all of
it. -/
def FeeFits (p : ℕ) (v rate : Decimal) : Prop := -(10 ^ p)⁻¹ < v * rate ∧ v * rate < v + (10 ^ p)⁻¹

namespace Market.MatchState

/-- What both orders have left. -/
def both (s : MatchState) (rc : OrderRc) : Decimal :=
  min s.taker.remain (s.market.rcs.read rc).remain

/-- The budget of a market bid does not cover what both orders have left. -/
def Limited (s : MatchState) (ql : Decimal) (rc : OrderRc) : Prop :=
  s.taker.side = .bid ∧ s.taker.type_ = .market ∧
    ql < s.quoteSum + (s.market.rcs.read rc).price * s.both rc

instance : Decidable (s.Limited ql rc) := inferInstanceAs (Decidable (_ ∧ _))

/-- What there is to trade: what both have left, or what the rest of the budget buys. -/
def size (s : MatchState) (ql : Decimal) (rc : OrderRc) : Decimal :=
  if s.Limited ql rc then truncDp ((ql - s.quoteSum) / (s.market.rcs.read rc).price)
    s.market.amountPrec else s.both rc

/-- **The terms of a round are fair**: both orders have something left, the price is not
negative, there is budget where the budget decides, and the fees fit. -/
structure Fair (s : MatchState) (ql : Decimal) (rc : OrderRc) : Prop where
  taker : 0 < s.taker.remain
  maker : 0 < (s.market.rcs.read rc).remain
  price : 0 ≤ (s.market.rcs.read rc).price
  budget : s.Limited ql rc → s.quoteSum < ql
  askFee : FeeFits s.market.quotePrec ((s.market.rcs.read rc).price * s.size ql rc)
    (if s.taker.isAsk then s.taker.takerFee else (s.market.rcs.read rc).makerFee)
  bidFee : FeeFits s.market.basePrec (s.size ql rc)
    (if s.taker.isAsk then (s.market.rcs.read rc).makerFee else s.taker.takerFee)

end Market.MatchState

/-- **The trades of an accepted order are recorded** as they are: all those it emits, also when a
later round does not return, and a put that returns has emitted all its trades. -/
structure WellRecorded (E : Env) (now : Timestamp) (u : Uuid) (m : Market) (x : Ctx)
    (input : OrderInput) : Prop where
  emitted : ∀ ql rc s s' t, Emits E now u m x input ql rc s s' t → t.States rc s s'
  returned : ∀ o m' x', x.persistor.realPersist = true →
    m.putOrder E now x input u = .ok (.ok o, m', x') → ∃ ts,
    x'.persistor.trades = x.persistor.trades ++ ts ∧ ∀ t ∈ ts, ∃ ql rc s s',
    Emits E now u m x input ql rc s s' t

/-! ## Proper orders -/

/-- A fee rate between 0 and 1. -/
def IsRate (rate : Decimal) : Prop := 0 ≤ rate ∧ rate ≤ 1

instance (rate : Decimal) : Decidable (IsRate rate) := inferInstanceAs (Decidable (_ ∧ _))

/-- **A proper order**: for an amount that is not negative, and with a budget that is not negative
where it is a market bid (`Fair`); with a price above zero and a maker fee rate between 0 and 1
where it may rest, and such a taker fee rate. -/
structure Proper (u : Uuid) (m : Market) (x : Ctx) (input : OrderInput) : Prop where
  fair : Fair u m x input
  rests : input.type_ = .limit → 0 < input.price ∧ IsRate input.makerFee
  takerFee : IsRate input.takerFee

/-- What rests of a proper order. -/
structure Order.Proper (o : Order) : Prop where
  remain : 0 ≤ o.remain
  price : 0 < o.price
  makerFee : IsRate o.makerFee

/-- A proper order that is being put. -/
structure Taking.Proper (k : Taking) (u : Uuid) (m : Market) : Prop where
  fair : k.Fair u m
  rests : k.order.type_ = .limit → 0 < k.order.price ∧ IsRate k.order.makerFee
  takerFee : IsRate k.order.takerFee

/-- **Every step keeps orders proper.** -/
theorem proper_keeps (u : Uuid) : Keeps E u (Proper u) Order.Proper fun k m => k.Proper u m := by
  intro now d d' h hd hQ
  have hf : d.Fair u :=
    ⟨fun id o ho => (hQ.resting id o ho).remain, fun k hk => (hQ.taking k hk).fair⟩
  have hf' := (h.weaken fun _ _ _ hA => hA.fair).fair hd hf
  refine ⟨fun id o ho => ?_, fun k' hk' => ?_⟩
  · have hremain := hf'.resting id o ho
    rcases h.resting hd ho with ho | ⟨_, _, k, rc, t, -, -, hmeet, -, -, rfl⟩ |
      ⟨k, hk, -, hlimit, -, -, rfl⟩
    · exact hQ.resting id o ho
    · have hmaker := hQ.resting _ _ hmeet.resting
      exact ⟨hremain, hmaker.price, hmaker.makerFee⟩
    · obtain ⟨hprice, hfee⟩ := (hQ.taking k hk).rests hlimit
      exact ⟨hremain, hprice, hfee⟩
  · have hfair := hf'.taking k' hk'
    cases h with
    | accept hA _ _ =>
      obtain rfl := Option.some.inj hk'
      exact ⟨hfair, hA.rests, hA.takerFee⟩
    | @trade _ _ _ _ k _ _ _ _ =>
      obtain rfl := Option.some.inj hk'
      have hk := hQ.taking k rfl
      exact ⟨hfair, hk.rests, hk.takerFee⟩
    | @finish _ _ k _ _ _ =>
      obtain rfl := Option.some.inj hk'
      have hk := hQ.taking k rfl
      exact ⟨hfair, hk.rests, hk.takerFee⟩
    | _ => simp at hk'

/-! ## Fees -/

/-- **A truncated fee lies between nothing and all** exactly when it fits. -/
theorem feeFits_iff (hv : OnGrid p v) (h : 0 ≤ v) :
    0 ≤ truncDp (v * rate) p ∧ truncDp (v * rate) p ≤ v ↔ FeeFits p v rate := by
  unfold FeeFits
  rw [truncDp_nonneg_iff, truncDp_le_iff hv h]

/-- A rate between 0 and 1 fits. -/
theorem feeFits_of_rate (h : 0 ≤ v) (h0 : 0 ≤ rate) (h1 : rate ≤ 1) : FeeFits p v rate := by
  have hunit : (0 : ℚ) < (10 ^ p)⁻¹ := inv_pos.2 (pow_pos_rat p)
  have hle : v * rate ≤ v := mul_le_of_le_one_right h h1
  have hnonneg : 0 ≤ v * rate := mul_nonneg h h0
  constructor <;> linarith

theorem afterFee_of_nonneg {fee : Decimal} (h : 0 ≤ fee) : afterFee v fee = v - fee := if_pos h

/-! ## Amounts -/

theorem both_eq (s : MatchState) (rc : OrderRc) :
    min (s.ask rc).remain (s.bid rc).remain = s.both rc := by
  unfold MatchState.ask MatchState.bid MatchState.both askOf bidOf
  split
  · rfl
  · exact min_comm _ _

/-- **The size of a round** is what it trades; where the budget decides it is not zero, and neither
is the price. -/
theorem Market.Generates.size (h : Generates s ql rc amount) :
    amount = s.size ql rc ∧ (s.Limited ql rc → amount ≠ 0 ∧ (s.market.rcs.read rc).price ≠ 0) := by
  have hamount := h.amount
  have hboth := both_eq s rc
  unfold MatchState.ask MatchState.bid at hboth
  unfold tradedBaseAmount at hamount
  simp only [hboth] at hamount
  unfold MatchState.size
  split at hamount
  · rename_i hlimited
    have hl : s.Limited ql rc := hlimited
    rw [if_pos hl]
    split_ifs at hamount with hprice hz
    · simp at hamount
    · obtain rfl := Option.some.inj (Except.ok.inj hamount)
      exact ⟨rfl, fun _ => ⟨hz, hprice⟩⟩
  · rename_i hlimited
    have hl : ¬s.Limited ql rc := hlimited
    rw [if_neg hl]
    exact ⟨(Option.some.inj (Except.ok.inj hamount)).symm, fun hc => absurd hc hl⟩

/-- **A trade takes something, and pays for it**, exactly when both orders want something at a price
that is not negative, with budget left where it decides. -/
theorem Market.Generates.pays_iff (h : Generates s ql rc amount) :
    0 < amount ∧ 0 ≤ (s.market.rcs.read rc).price * amount ↔ 0 < s.taker.remain ∧
      0 < (s.market.rcs.read rc).remain ∧
      0 ≤ (s.market.rcs.read rc).price ∧ (s.Limited ql rc → s.quoteSum < ql) := by
  obtain ⟨hsize, hcut⟩ := h.size
  set price := (s.market.rcs.read rc).price with hp
  unfold MatchState.size at hsize
  have hpos : 0 < s.both rc ↔ 0 < s.taker.remain ∧ 0 < (s.market.rcs.read rc).remain := lt_min_iff
  by_cases hl : s.Limited ql rc
  · obtain ⟨hne, hprice⟩ := hcut hl
    have hover : ql < s.quoteSum + price * s.both rc := hl.2.2
    rw [if_pos hl] at hsize
    rw [← and_assoc, ← hpos]
    constructor
    · rintro ⟨hamount, hpay⟩
      have hprice : 0 < price :=
        lt_of_le_of_ne (nonneg_of_mul_nonneg_left hpay hamount) (Ne.symm hprice)
      -- a budget that is spent buys nothing at a positive price
      have hleft : s.quoteSum < ql := by
        by_contra hno
        have hquot : (ql - s.quoteSum) / price ≤ 0 :=
          div_nonpos_of_nonpos_of_nonneg (by linarith) hprice.le
        exact absurd (hsize ▸ hamount) (not_lt.2 (truncDp_nonpos hquot))
      have hcost : 0 < price * s.both rc := by linarith
      exact ⟨(mul_pos_iff_of_pos_left hprice).1 hcost, hprice.le, fun _ => hleft⟩
    · rintro ⟨-, hnonneg, hleft⟩
      have hquot : 0 ≤ (ql - s.quoteSum) / price := div_nonneg (by linarith [hleft hl]) hnonneg
      have hamount : 0 < amount := lt_of_le_of_ne (hsize ▸ truncDp_nonneg hquot) (Ne.symm hne)
      exact ⟨hamount, mul_nonneg hnonneg hamount.le⟩
  · rw [if_neg hl] at hsize
    rw [hsize, ← and_assoc, ← hpos]
    constructor
    · rintro ⟨hamount, hpay⟩
      exact ⟨hamount, nonneg_of_mul_nonneg_left hpay hamount, fun hc => absurd hc hl⟩
    · rintro ⟨hamount, hnonneg, -⟩
      exact ⟨hamount, mul_nonneg hnonneg hamount.le⟩

/-! ## What the balances and the orders do -/

/-- **What a trade does to the totals**: it adds what its record says, when no fee is negative. -/
theorem Trades.moved {x' : Ctx} {m' : Market} {k : Taking} (ht : Trades now m x k rc t m' x')
    (hbid : 0 ≤ t.bidFee) (hask : 0 ≤ t.askFee) :
    ∀ e ∈ t.changes,
      x'.balanceManager.total e.1 e.2.1 = x.balanceManager.total e.1 e.2.1 + e.2.2 := by
  have hu := ht.users_ne
  have ha := ht.assets_ne
  intro e he
  rw [ht.posted.held]
  simp only [Trade.changes, List.mem_cons, List.not_mem_nil, or_false, ht.base, ht.quote] at he
  rcases he with rfl | rfl | rfl | rfl <;>
    simp [Trade.postings, hu, hu.symm, ha, ha.symm, afterFee_of_nonneg hbid,
      afterFee_of_nonneg hask]

/-- It leaves all other totals alone. -/
theorem Trades.unmoved {x' : Ctx} {m' : Market} {k : Taking} (ht : Trades now m x k rc t m' x')
    {a : String} (h : ∀ e ∈ t.changes, (e.1, e.2.1) ≠ (u, a)) :
    x'.balanceManager.total u a = x.balanceManager.total u a := by
  rw [ht.posted.held, amountIn_eq_zero, add_zero]
  simp only [Trade.changes, List.forall_mem_cons, ne_eq, Prod.mk.injEq, ht.base, ht.quote,
    List.not_mem_nil, false_imp_iff,
    implies_true, and_true] at h
  obtain ⟨haskBase, haskQuote, hbidBase, hbidQuote⟩ := h
  intro e he
  simp only [Trade.postings, List.mem_cons, List.not_mem_nil, or_false] at he
  rcases he with rfl | rfl | rfl | rfl
  · exact hbidBase
  · exact haskBase
  · exact haskQuote
  · exact hbidQuote

/-- The orders of a round after its trade: their owners, and their fees. -/
theorem Trades.sides (ht : Trades now s.market s.ctx (s.taking ql) rc t s'.market s'.ctx)
    (htaking : s'.taking ql = filledTaking now (s.taking ql) t) :
    (s'.ask rc).user = (s.ask rc).user ∧ (s'.bid rc).user = (s.bid rc).user ∧
      (s'.ask rc).finishedFee = (s.ask rc).finishedFee + t.askFee ∧
      (s'.bid rc).finishedFee = (s.bid rc).finishedFee + t.bidFee := by
  have htaker : s'.taker = (filledTaking now (s.taking ql) t).order := congrArg Taking.order htaking
  have hmaker : s'.market.rcs.read rc = filledMaker now s.taker.isAsk (s.market.rcs.read rc) t := by
    rw [ht.market]
    exact Heap.write_read_self _ _ _
  have hside : s'.taker.isAsk = s.taker.isAsk := by rw [htaker]; rfl
  unfold MatchState.ask MatchState.bid askOf bidOf
  rw [hside, hmaker, htaker]
  cases hask : s.taker.isAsk <;>
    simp [filledTaking, filledMaker, fillOrder, releaseOrder, Order.touched, MatchState.taking,
      hask]

/-! ## The record of a round -/

/-- The balances a trade shows are those of its changes. -/
theorem tradeState_balances (haskUser : t.askUserId = (s.ask rc).user)
    (hbidUser : t.bidUserId = (s.bid rc).user) (hbase : t.base = s.market.base)
    (hquote : t.quote = s.market.quote) :
    (s.tradeState rc).balanceStates = t.changes.map fun e => ⟨e.1, e.2.1, s.held e.1 e.2.1⟩ := by
  unfold Trade.changes
  rw [haskUser, hbidUser, hbase, hquote]
  rfl

/-- **A record is true exactly where the terms are fair.** -/
theorem Market.Emits.states_iff (hd : DeskOK ⟨m, x, none⟩)
    (h : Emits E now u m x input ql rc s s' t) : t.States rc s s' ↔ s.Fair ql rc := by
  obtain ⟨hdesk, hmeet, ht, htaking, hbefore, hafter⟩ := h.trades hd
  obtain ⟨haskUser, hbidUser, haskFee, hbidFee⟩ := ht.sides htaking
  have hmaker := hdesk.backed _ _ hmeet.resting
  have hgrid : OnGrid s.market.amountPrec t.amount :=
    ht.amountGrid (hdesk.taking _ rfl).fits.remain hmaker.fits.remain
  have hbaseGrid : OnGrid s.market.basePrec t.amount := hgrid.mono hdesk.prec.amount_le
  have hquote :
      t.quoteAmount = (s.market.rcs.read rc).price * t.amount := by rw [ht.quoteAmount, ht.price]
  have hquoteGrid : OnGrid s.market.quotePrec t.quoteAmount := by
    rw [hquote, mul_comm]
    exact (hgrid.mul hmaker.fits.price).mono hdesk.prec.sum_le
  have hsize := h.generates.size.1
  have hpays := h.generates.pays_iff
  have hfees : 0 < t.amount → 0 ≤ t.quoteAmount →
      ((0 ≤ t.bidFee ∧ t.bidFee ≤ t.amount) ∧ 0 ≤ t.askFee ∧ t.askFee ≤ t.quoteAmount ↔
        FeeFits s.market.basePrec (s.size ql rc)
          (if s.taker.isAsk then (s.market.rcs.read rc).makerFee else s.taker.takerFee) ∧
          FeeFits s.market.quotePrec ((s.market.rcs.read rc).price * s.size ql rc)
            (if s.taker.isAsk then s.taker.takerFee else (s.market.rcs.read rc).makerFee)) := by
    intro hamount hpay
    rw [ht.bidFee, ht.askFee, feeFits_iff hbaseGrid hamount.le, feeFits_iff hquoteGrid hpay, hquote,
      ← hsize]
    rfl
  constructor
  · -- the ask's fee is between nothing and the quote amount, which is therefore not negative
    intro hstates
    have hpay : 0 ≤ t.quoteAmount := hstates.askFee.1.trans hstates.askFee.2
    obtain ⟨htaker, hmaker, hprice, hbudget⟩ := hpays.1 ⟨hstates.amount, hquote ▸ hpay⟩
    obtain ⟨hbid, hask⟩ := (hfees hstates.amount hpay).1 ⟨hstates.bidFee, hstates.askFee⟩
    exact ⟨htaker, hmaker, hprice, hbudget, hask, hbid⟩
  · intro hfair
    obtain ⟨hamount, hpay⟩ := hpays.2 ⟨hfair.taker, hfair.maker, hfair.price, hfair.budget⟩
    rw [← hquote] at hpay
    obtain ⟨hbid, hask⟩ := (hfees hamount hpay).2 ⟨hfair.bidFee, hfair.askFee⟩
    have hmoved := ht.moved hbid.1 hask.1
    refine ⟨hamount, ht.quoteAmount, hbid, hask, hmoved, fun u a hother => ht.unmoved hother, ?_,
      ?_, ?_, ?_, haskFee, hbidFee⟩
    · rw [hbefore, tradeState_balances ht.askUser ht.bidUser ht.base ht.quote]
    · have hbase : t.base = s'.market.base := by rw [ht.base, ht.market]; rfl
      have hquote : t.quote = s'.market.quote := by rw [ht.quote, ht.market]; rfl
      rw [hafter, tradeState_balances (ht.askUser.trans haskUser.symm)
        (ht.bidUser.trans hbidUser.symm) hbase hquote]
      exact List.map_congr_left fun e he =>
        congrArg (VerboseBalanceState.mk e.1 e.2.1) (hmoved e he)
    · rw [hbefore]
      rfl
    · rw [hafter, ← haskFee, ← hbidFee]
      rfl

/-! ## Every put -/

/-- **The terms of every round of a proper order are fair.** -/
theorem Market.Emits.fair (hd : DeskOK ⟨m, x, none⟩) (hQ : ∀ id o, m.resting id = some o → o.Proper)
    (hA : Proper u m x input) (h : Emits E now u m x input ql rc s s' t) : s.Fair ql rc := by
  obtain ⟨-, hmeet, ht, -, -, -⟩ := h.trades hd
  have hdesk := (proper_keeps u).comes hd hQ hA h.round
  have htaker : (s.taking ql).Proper u s.market := hdesk.taking _ rfl
  have hmaker : (s.market.rcs.read rc).Proper := hdesk.resting _ _ hmeet.resting
  obtain ⟨hamount, -⟩ := ht.fair hmeet htaker.fair hmaker.remain
  have htakerOpen : 0 < s.taker.remain :=
    lt_of_le_of_ne htaker.fair.remain (Ne.symm h.generates.takerOpen)
  have hmakerOpen : 0 < (s.market.rcs.read rc).remain :=
    lt_of_le_of_ne hmaker.remain (Ne.symm hmeet.makerOpen)
  have hpos : 0 < t.amount := by
    obtain ⟨hsize, hcut⟩ := h.generates.size
    by_cases hl : s.Limited ql rc
    · exact lt_of_le_of_ne hamount (Ne.symm (hcut hl).1)
    · have hboth : 0 < s.both rc := lt_min htakerOpen hmakerOpen
      unfold MatchState.size at hsize
      rwa [hsize, if_neg hl]
  have hpay : 0 ≤ (s.market.rcs.read rc).price * t.amount := mul_nonneg hmaker.price.le hamount
  obtain ⟨-, -, -, hbudget⟩ := h.generates.pays_iff.1 ⟨hpos, hpay⟩
  rw [h.generates.size.1] at hpos hpay
  have hrates :
      IsRate (if s.taker.isAsk then s.taker.takerFee else (s.market.rcs.read rc).makerFee) ∧
      IsRate (if s.taker.isAsk then (s.market.rcs.read rc).makerFee else s.taker.takerFee) := by
    split
    · exact ⟨htaker.takerFee, hmaker.makerFee⟩
    · exact ⟨hmaker.makerFee, htaker.takerFee⟩
  obtain ⟨⟨hask0, hask1⟩, hbid0, hbid1⟩ := hrates
  exact ⟨htakerOpen, hmakerOpen, hmaker.price.le, hbudget, feeFits_of_rate hpay hask0 hask1,
    feeFits_of_rate hpos.le hbid0 hbid1⟩

theorem putOrder_recorded (hd : DeskOK ⟨m, x, none⟩) (hQ : ∀ id o, m.resting id = some o → o.Proper)
    (hA : Proper u m x input) : WellRecorded E now u m x input := by
  refine ⟨fun ql rc s s' t h => (h.states_iff hd).2 (h.fair hd hQ hA), fun o m' x' hreal hput => ?_⟩
  obtain ⟨_, _, _, _, ts, _, _, hts, _, hends⟩ := putOrder_rounds hd hput fun ql hql =>
    emits_carried (putOrder_input hput) hql hreal
  exact ⟨ts, hends.trades hreal, hts⟩

/-- **A trade record states what was moved**, along every run of proper orders: for every trade that
an accepted order emits, put alone or in a batch. -/
theorem PutRun.trade_recorded (h : PutRun E settings Proper c) {q : Request}
    (hput : c.EachPut E (Proper q.user) q) : c.EachPut E (WellRecorded E q.now q.user) q :=
  h.eachPut proper_keeps hput fun _ _ _ hd hQ hA => putOrder_recorded hd hQ hA

/-! ## Two first trades -/

/-- A first trade with what the order was put on, and the states around it. -/
structure SampleTrade where
  controller : Controller
  market : Market
  input : OrderInput
  budget : Decimal
  handle : OrderRc
  before : MatchState
  after : MatchState
  trade : Trade

/-- The first trade of an order that is put after some calls, when it has the given amount. -/
def sampleFirst (qs : List Request) (user : Uuid) (req : OrderPutRequest)
    (amount : Decimal) : Except Panic SampleTrade := do
  let c ← sampleRun releaseEnv qs
  let m ← unwrap .marketName (c.markets.find? "ETH_USDT")
  let input ← unwrap .replay (OrderInput.tryFrom releaseEnv req).toOption
  let ql ← m.quoteLimit (c.ctx true).balanceManager input user
  let rc ← unwrap .lookup (m.counterOrders (m.putTaker 2 (c.ctx true) input user)).head?
  let s := m.putState 2 (c.ctx true) input user
  let s' ← executeTrade releaseEnv 2 ql rc amount s
  let t ← unwrap .lookup s'.ctx.persistor.trades.getLast?
  let () ← unwrap .lookup
      (if m.checkInput releaseEnv (c.ctx true).balanceManager input user = .ok () ∧
    m.FirstTrade 2 (c.ctx true) input user ql rc amount ∧
    s'.ctx.persistor.trades = s.ctx.persistor.trades ++ [t] ∧
    t.amount = amount then some () else none)
  return ⟨c, m, input, ql, rc, s, s', t⟩

theorem sampleFirst_ok {qs : List Request} {user : Uuid} {req : OrderPutRequest} {r : SampleTrade}
    (h : sampleFirst qs user req amount = .ok r) : sampleRun releaseEnv qs = .ok r.controller ∧
      r.controller.markets.find? "ETH_USDT" = some r.market ∧
      OrderInput.tryFrom releaseEnv req = .ok r.input ∧
      r.before = r.market.putState 2 (r.controller.ctx true) r.input user ∧
      r.trade.amount = amount ∧
      Emits releaseEnv 2 user r.market (r.controller.ctx true) r.input r.budget r.handle r.before
        r.after r.trade := by
  simp only [sampleFirst, bind_ok, pure_ok, unwrap_ok, toOption_some,
    Option.ite_none_right_eq_some] at h
  obtain ⟨c, hc, m, hm, input, hinput, ql, hql, rc, -, s', hexec, t, -, ⟨⟩,
      ⟨⟨hcheck, hfirst, htold, rfl⟩, -⟩, rfl⟩ := h
  obtain ⟨hround, hg⟩ := hfirst.round hcheck hql
  exact ⟨hc, hm, hinput, rfl, rfl, hround, hg, hexec, htold⟩

/-- A limit order for a positive price, at the rates of the samples. -/
theorem proper_limit {req : OrderPutRequest}
    (h : (OrderInput.tryFrom releaseEnv req).toOption.any
      (fun input => decide (input.type_ = .limit ∧ 0 ≤ input.amount ∧ 0 < input.price ∧
      IsRate input.makerFee ∧ IsRate input.takerFee)) = true)
    (c : Controller) : c.EachPut releaseEnv (Proper u) (requestAt now u (.orderPut req)) := by
  intro m input _ hinput _
  obtain ⟨hlimit, hamount, hprice, hmaker, htaker⟩ : input.type_ = .limit ∧ 0 ≤ input.amount ∧
      0 < input.price ∧
      IsRate input.makerFee ∧ IsRate input.takerFee := by simpa [hinput, Except.toOption] using h
  refine ⟨⟨hamount, fun hmarket => ?_⟩, fun _ => ⟨hprice, hmaker⟩, htaker⟩
  rw [hlimit] at hmarket
  cases hmarket

theorem sampleOneAsk_proper {c : Controller} (h : sampleRun releaseEnv sampleOneAsk = .ok c) :
    PutRun releaseEnv sampleSettings Proper c :=
  sampleOneAsk_putRun h (proper_limit (by decide +kernel))

/-- Alice buys 1 at 100 for a fee of a thousandth, and the record says so. -/
theorem PutRun.trade_recorded_alice :
    ∃ (c : Controller) (m : Market) (rc : OrderRc) (s s' : MatchState) (t : Trade),
    PutRun releaseEnv sampleSettings Proper c ∧ c.markets.find? "ETH_USDT" = some m ∧ t.amount = 1 ∧
    t.bidFee = 1 / 1000 ∧
    t.askFee = 1 / 10 ∧ t.States rc s s' := by
  have h : (sampleFirst sampleOneAsk alice (limitOrder .bid "1" "100") 1 >>=
      fun r => pure (r.trade.bidFee, r.trade.askFee)) =
      (.ok (1 / 1000, 1 / 10) : Except Panic (Decimal × Decimal)) := by decide +kernel
  simp only [bind_ok, pure_ok, Prod.mk.injEq] at h
  obtain ⟨r, hr, hbidFee, haskFee⟩ := h
  obtain ⟨hc, hm, hinput, -, hamount, hemits⟩ := sampleFirst_ok hr
  have hrun := sampleOneAsk_proper hc
  have hall := hrun.trade_recorded (q := requestAt 2 alice (.orderPut (limitOrder .bid "1" "100")))
    (proper_limit (by decide +kernel) _)
  have hstates := (hall r.market r.input hm hinput hemits.round.accepted).emitted _ _ _ _ _ hemits
  exact ⟨_, _, r.handle, r.before, r.after, r.trade, hrun, hm, hamount, hbidFee, haskFee, hstates⟩

/-- A bid for 1 at 100 that asks for a fee below zero. -/
def negativeFeeBid : OrderPutRequest := { limitOrder .bid "1" "100" with takerFee := "-0.5" }

/-- **A fee rate of -0.5 is accepted.** The record says that alice gets 1.5, and she gets 1. -/
theorem Reachable.not_record :
    ∃ (c : Controller) (m : Market) (input : OrderInput) (ql : Decimal) (rc : OrderRc)
    (s s' : MatchState)
    (t : Trade), Reachable releaseEnv sampleSettings c ∧ c.markets.find? "ETH_USDT" = some m ∧
    0 < m.feePrec ∧
    OrderInput.tryFrom releaseEnv negativeFeeBid = .ok input ∧
    Emits releaseEnv 2 alice m (c.ctx true) input ql rc s s' t ∧
    t.amount - t.bidFee = 3 / 2 ∧ s'.held alice "ETH" = s.held alice "ETH" + 1 ∧
    ¬t.States rc s s' := by
  have h : (sampleFirst sampleOneAsk alice negativeFeeBid 1 >>= fun r =>
      pure (r.market.feePrec, r.trade.bidFee, r.before.held alice "ETH",
        r.after.held alice "ETH")) =
      (.ok (2, -1 / 2, 0, 1) : Except Panic (ℕ × Decimal × Decimal × Decimal)) := by decide +kernel
  simp only [bind_ok, pure_ok, Prod.mk.injEq] at h
  obtain ⟨r, hr, hprec, hfee, hbefore, hafter⟩ := h
  obtain ⟨hc, hm, hinput, -, hamount, hemits⟩ := sampleFirst_ok hr
  refine ⟨_, _, r.input, r.budget, r.handle, r.before, r.after, r.trade, sampleRun_reachable hc,
    hm, by rw [hprec]; norm_num, hinput, hemits,
    by rw [hamount, hfee]; norm_num, by rw [hbefore, hafter]; norm_num, fun hstates => ?_⟩
  have hnonneg := hstates.bidFee.1
  rw [hfee] at hnonneg
  norm_num at hnonneg

end Dingir
