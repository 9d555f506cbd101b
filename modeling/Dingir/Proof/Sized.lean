import Dingir.Proof.Bystander
import Dingir.Proof.Range

/-!
# Runs whose arithmetic stays in range

Along a run whose orders are `Sized`, with amounts, values and rates of a moderate size, all that an
order put on top of it computes is in range. What rests has room for all it can still trade
(`Order.Roomy`), and so has the order being put (`Taking.Roomy`): a limit order pays no more than
its own price, a market bid no more than its budget, and an ask takes no more than the bids of the
book are worth.

- `sized_keeps`: the steps of sized orders keep the room of all orders.
- **`PutRun.put_inRange_iff`**: with balances below `10 ^ 18`, all that one more order computes is
  in range exactly when the cost of a limit bid is, which is computed before anything bounds it.
- `not_put_inRange`: a new exchange computes the cost of a bid of `10 ^ 20` at `10 ^ 20`.
-/

namespace Dingir

open Keyed Rounding Posting Outcome Market

/-- What a resting bid is worth. -/
def Order.bidWorth (o : Order) : Decimal := if o.side = .bid then o.price * o.remain else 0

/-- What the resting bids of a market are worth. -/
def Market.bidsWorth (m : Market) : Decimal := m.sumOf Order.bidWorth

/-- **An order of a moderate size**: amounts and values up to `10 ^ 28`, no rate above 1, no
negative amount, price or budget. An ask may meet all bids of the book, so they count, too. -/
structure Sized (u : Uuid) (m : Market) (x : Ctx) (input : OrderInput) : Prop where
  amount0 : 0 ≤ input.amount
  amount : input.amount ≤ 10 ^ 28
  makerFee : |input.makerFee| ≤ 1
  takerFee : |input.takerFee| ≤ 1
  limit : input.type_ = .limit → 0 < input.price ∧ input.amount * input.price ≤ 10 ^ 28
  ask : input.side = .ask → m.bidsWorth ≤ 10 ^ 28
  budget : input.side = .bid → input.type_ = .market → 0 ≤ m.budget x.balanceManager input u

/-- The sums of an order that has room for all it can still trade at its price. -/
structure Order.SumsFit (o : Order) : Prop where
  left : 0 ≤ o.remain
  makerFee : |o.makerFee| ≤ 1
  base0 : 0 ≤ o.finishedBase
  base : o.finishedBase + o.remain ≤ 10 ^ 28
  quote0 : 0 ≤ o.finishedQuote
  fee : |o.finishedFee| ≤ if o.isAsk then o.finishedQuote else o.finishedBase

/-- **A resting order with room** for all it can still trade. -/
structure Order.Roomy (o : Order) : Prop extends o.SumsFit where
  price : 0 < o.price
  worth : o.remain * o.price ≤ 10 ^ 28
  quote : o.finishedQuote + o.remain * o.price ≤ 2 * 10 ^ 28

/-- **An order being put with room** for all it can still trade. -/
structure Taking.Roomy (k : Taking) (m : Market) : Prop extends k.order.SumsFit where
  takerFee : |k.order.takerFee| ≤ 1
  finished : k.order.finishedQuote = k.quoteSum
  limit : k.order.type_ = .limit → 0 < k.order.price ∧ k.order.remain * k.order.price ≤ 10 ^ 28
  bid : k.order.side = .bid → k.order.type_ = .limit →
    k.quoteSum + k.order.remain * k.order.price ≤ 10 ^ 28
  ask : k.order.side = .ask → k.quoteSum + m.bidsWorth ≤ 10 ^ 28
  budget : k.order.side = .bid → k.order.type_ = .market → k.quoteSum ≤ k.quoteLimit

variable {E : Env} {settings : Settings} {now : Timestamp} {real : Bool} {u : Uuid}
  {ql amount v a : Decimal} {m m' : Market} {x x' : Ctx} {k : Taking} {rc : OrderRc}
  {s s' : MatchState} {o o' : Order} {t : Trade} {input : OrderInput} {b c : Controller}

/-! ## The worth of the bids -/

theorem Order.Roomy.bidWorth_nonneg (h : o.Roomy) : 0 ≤ o.bidWorth := by
  unfold Order.bidWorth
  split
  · exact mul_nonneg h.price.le h.left
  · exact le_rfl

theorem bidsWorth_nonneg (hQ : ∀ id o, m.resting id = some o → o.Roomy) : 0 ≤ m.bidsWorth :=
  tally_nonneg fun j rc hrc => (hQ j _ (resting_some.2 ⟨rc, hrc, rfl⟩)).bidWorth_nonneg

/-! ## A trade -/

/-- What an order has traded and been charged, after another trade. -/
theorem Order.SumsFit.fill {p rate : Decimal} (h : o.SumsFit) (hf : o.Filled m a p rate o')
    (hp : 0 ≤ p) (h0 : 0 ≤ a) (hle : a ≤ o.remain) (hrate : |rate| ≤ 1) : o'.SumsFit := by
  have hunit := o.unit_nonneg hp
  have hcut : |truncDp (a * o.unit p * rate) (m.feePrecOf o)| ≤ a * o.unit p := by
    refine (abs_truncDp_le _ _).trans ?_
    rw [abs_mul, abs_of_nonneg (mul_nonneg h0 hunit)]
    exact mul_le_of_le_one_right (mul_nonneg h0 hunit) hrate
  refine ⟨?_, hf.makerFee ▸ h.makerFee, ?_, ?_, ?_, ?_⟩
  · rw [hf.remain]
    exact sub_nonneg.2 hle
  · rw [hf.base]
    exact add_nonneg h.base0 h0
  · rw [hf.base, hf.remain]
    linarith [h.base]
  · rw [hf.quote]
    exact add_nonneg h.quote0 (mul_nonneg h0 hp)
  · rw [hf.fee, hf.quote, hf.base, show o'.isAsk = o.isAsk by unfold Order.isAsk; rw [hf.side]]
    refine (abs_add_le _ _).trans ((add_le_add h.fee hcut).trans (le_of_eq ?_))
    unfold Order.unit
    split
    · rfl
    · rw [mul_one]

/-- A maker has room for what it can still trade after a trade at its price. -/
theorem Order.Roomy.fill {rate : Decimal} (h : o.Roomy) (hf : o.Filled m a o.price rate o')
    (h0 : 0 ≤ a) (hle : a ≤ o.remain) (hrate : |rate| ≤ 1) : o'.Roomy := by
  have hpaid : 0 ≤ a * o.price := mul_nonneg h0 h.price.le
  refine ⟨h.toSumsFit.fill hf h.price.le h0 hle hrate, hf.price ▸ h.price, ?_, ?_⟩
  · rw [hf.remain, hf.price, sub_mul]
    linarith [h.worth]
  · rw [hf.quote, hf.remain, hf.price, sub_mul]
    linarith [h.quote]

/-- A trade of orders with room is for no more than both have left, and no more than the budget
pays. -/
theorem Trades.fits (ht : Trades now m x k rc t m' x') (hk : k.Roomy m)
    (ho : (m.rcs.read rc).Roomy) :
    0 ≤ t.amount ∧ t.amount ≤ k.order.remain ∧ t.amount ≤ (m.rcs.read rc).remain ∧
      (k.order.side = .bid → k.order.type_ = .market →
        k.quoteSum + t.quoteAmount ≤ k.quoteLimit) := by
  have hask := askOf_remain_nonneg hk.left ho.left
  have hbid := bidOf_remain_nonneg hk.left ho.left
  obtain ⟨hnonneg, hspent⟩ := tradedBaseAmount_nonneg hask hbid hk.budget ht.amount
  obtain ⟨hleask, hlebid⟩ :=
    tradedBaseAmount_le hask hbid (fun hs hm => .inl (hk.budget hs hm)) ht.amount
  rw [← ht.quoteAmount] at hspent
  unfold askOf at hleask
  unfold bidOf at hlebid
  split at hleask
  · rename_i hs
    rw [if_pos hs] at hlebid
    exact ⟨hnonneg, hleask, hlebid, hspent⟩
  · rename_i hs
    rw [if_neg hs] at hlebid
    exact ⟨hnonneg, hlebid, hleask, hspent⟩

/-- An ask that trades takes what it pays for from the worth of the bids. -/
theorem Trades.bidsWorth (hmeet : Meets m k rc) (ht : Trades now m x k rc t m' x')
    (hindex : m.IndexOK) :
    m'.bidsWorth = m.bidsWorth - if k.order.isAsk then t.quoteAmount else 0 := by
  have hrest := ht.resting hmeet hindex
  have hchange : m'.bidsWorth - m.bidsWorth = m'.sumAt Order.bidWorth (m.rcs.read rc).id -
      m.sumAt Order.bidWorth (m.rcs.read rc).id :=
    sumOf_change Order.bidWorth _ fun j hj => by rw [hrest, if_neg hj.symm]
  have hbefore : m.sumAt Order.bidWorth (m.rcs.read rc).id = (m.rcs.read rc).bidWorth := by
    unfold Market.sumAt
    rw [hmeet.resting]
    rfl
  have hafter : m'.sumAt Order.bidWorth (m.rcs.read rc).id =
      (filledMaker now k.order.isAsk (m.rcs.read rc) t).bidWorth := by
    unfold Market.sumAt
    rw [hrest, if_pos rfl]
    rfl
  have hside : (filledMaker now k.order.isAsk (m.rcs.read rc) t).bidWorth =
      (m.rcs.read rc).bidWorth - if k.order.isAsk then t.quoteAmount else 0 := by
    show (if (m.rcs.read rc).side = .bid then (m.rcs.read rc).price *
      ((m.rcs.read rc).remain - t.amount) else 0) = _
    unfold Order.bidWorth
    rw [ht.quoteAmount, ht.price]
    rcases hmeet.sides with ⟨hk, hs⟩ | ⟨hk, hs⟩
    · simp only [hk, hs, if_true]
      ring
    · simp [hk, hs]
  rw [hbefore, hafter, hside] at hchange
  linarith

/-- The order being put keeps its room when it trades. -/
theorem Taking.Roomy.trade (hmeet : Meets m k rc) (ht : Trades now m x k rc t m' x')
    (hindex : m.IndexOK) (hk : k.Roomy m) (ho : (m.rcs.read rc).Roomy) :
    (filledTaking now k t).Roomy m' := by
  obtain ⟨h0, hle, -, hspent⟩ := ht.fits hk ho
  have hprice0 : 0 ≤ t.price := ht.price ▸ ho.price.le
  have hfilled := ht.takerFilled
  have hsum : (filledTaking now k t).quoteSum = k.quoteSum + t.amount * t.price := by
    show k.quoteSum + t.quoteAmount = _
    rw [ht.quoteAmount, mul_comm]
  refine ⟨hk.toSumsFit.fill hfilled hprice0 h0 hle hk.takerFee, hk.takerFee, ?_, fun hlimit => ?_,
    fun hbid hlimit => ?_, fun hask => ?_,
    fun hbid hmarket => hspent hbid hmarket⟩
  · rw [hsum, hfilled.quote, hk.finished]
  · obtain ⟨hpos, hworth⟩ := hk.limit hlimit
    refine ⟨hpos, ?_⟩
    rw [hfilled.remain, hfilled.price, sub_mul]
    linarith [mul_nonneg h0 hpos.le]
  · -- a bid pays no more than its own price
    have hlimit : k.order.type_ = .limit := hlimit
    have hbid : k.order.side = .bid := hbid
    have hcross : t.price ≤ k.order.price := by
      have hmeets := hmeet.crosses hlimit
      rw [ht.price]
      simpa [askOf, bidOf, Order.isAsk, hbid] using hmeets
    have hpaid := mul_le_mul_of_nonneg_left hcross h0
    rw [hsum, hfilled.remain, hfilled.price, sub_mul]
    linarith [hk.bid hbid hlimit]
  · have hask : k.order.side = .ask := hask
    rw [ht.bidsWorth hmeet hindex, if_pos (isAsk_iff.2 hask), hsum, ht.quoteAmount]
    linarith [hk.ask hask]

/-- A limit order with something left rests with room. -/
theorem Taking.Roomy.rested (hk : k.Roomy m) (hQ : ∀ id o, m.resting id = some o → o.Roomy)
    (hlimit : k.order.type_ = .limit) : k.order.rested.Roomy := by
  obtain ⟨hpos, hworth⟩ := hk.limit hlimit
  refine ⟨⟨hk.left, hk.makerFee, hk.base0, hk.base, hk.quote0, hk.fee⟩, hpos, hworth, ?_⟩
  show k.order.finishedQuote + k.order.remain * k.order.price ≤ _
  rw [hk.finished]
  cases hside : k.order.side with
  | ask =>
    have := bidsWorth_nonneg hQ
    linarith [hk.ask hside]
  | bid => linarith [hk.bid hside hlimit]

/-- A sized order that is accepted has room. -/
theorem Sized.taking {id : ℕ} (hd : DeskOK ⟨m, x, none⟩) (hA : Sized u m x input)
    (hql : m.quoteLimit x.balanceManager input u = .ok ql) :
    Taking.Roomy ⟨m.newOrder id now input u, ql, 0⟩ m := by
  refine ⟨⟨hA.amount0, hA.makerFee, le_rfl, ?_, le_rfl, ?_⟩, hA.takerFee, rfl, hA.limit,
    fun _ hlimit => ?_, fun hask => ?_,
    fun hbid hmarket => ?_⟩
  · show (0 : Decimal) + input.amount ≤ 10 ^ 28
    rw [zero_add]
    exact hA.amount
  · show |(0 : Decimal)| ≤ if _ then (0 : Decimal) else 0
    simp
  · show (0 : Decimal) + input.amount * input.price ≤ 10 ^ 28
    rw [zero_add]
    exact (hA.limit hlimit).2
  · rw [zero_add]
    exact hA.ask hask
  · rw [quoteLimit_budget hd.prec hmarket hbid hql]
    exact hA.budget hbid hmarket

/-- **The steps of sized orders keep the room of all orders.** -/
theorem sized_keeps (u : Uuid) : Keeps E u (Sized u) Order.Roomy Taking.Roomy := by
  intro now d d' h hd hQ
  refine ⟨fun id o ho => ?_, fun k' hk' => ?_⟩
  · rcases h.resting hd ho with ho | ⟨_, _, k, rc, t, hk, -, hmeet, ht, -, rfl⟩ |
      ⟨k, hk, -, hlimit, -, -, rfl⟩
    · exact hQ.resting id o ho
    · have hmaker := hQ.resting _ _ hmeet.resting
      obtain ⟨h0, -, hle, -⟩ := ht.fits (hQ.taking k hk) hmaker
      have hfilled := ht.makerFilled hmeet
      rw [ht.price] at hfilled
      exact hmaker.fill hfilled h0 hle hmaker.makerFee
    · exact (hQ.taking k hk).rested hQ.resting hlimit
  · cases h with
    | accept hA _ hql =>
      obtain rfl := Option.some.inj hk'
      exact hA.taking hd hql
    | @trade m m' x x' k rc t hmeet ht =>
      obtain rfl := Option.some.inj hk'
      exact Taking.Roomy.trade hmeet ht hd.index (hQ.taking k rfl) (hQ.resting _ _ hmeet.resting)
    | @finish m x k rc hrc hz =>
      obtain rfl := Option.some.inj hk'
      have hk := hQ.taking k rfl
      have ho : m.resting (m.rcs.read rc).id = some (m.rcs.read rc) := resting_some.2 ⟨rc, hrc, rfl⟩
      -- a filled bid is worth nothing
      have hworth : (m.without (m.rcs.read rc)).bidsWorth = m.bidsWorth := by
        have hchange : (m.without (m.rcs.read rc)).bidsWorth - m.bidsWorth =
            (m.without (m.rcs.read rc)).sumAt Order.bidWorth (m.rcs.read rc).id -
            m.sumAt Order.bidWorth (m.rcs.read rc).id :=
          sumOf_change Order.bidWorth _ fun j hj => by rw [resting_without, if_neg hj.symm]
        have hnone : (m.without (m.rcs.read rc)).sumAt Order.bidWorth (m.rcs.read rc).id = 0 := by
          unfold Market.sumAt
          rw [resting_without, if_pos rfl]
          rfl
        have hzero : m.sumAt Order.bidWorth (m.rcs.read rc).id = 0 := by
          unfold Market.sumAt
          rw [ho]
          simp [Order.bidWorth, hz]
        rw [hnone, hzero, sub_zero] at hchange
        exact sub_eq_zero.1 hchange
      exact ⟨hk.toSumsFit, hk.takerFee, hk.finished, hk.limit, hk.bid,
        fun hask => hworth ▸ hk.ask hask, hk.budget⟩
    | close _ => cases hk'
    | rest _ _ _ _ _ => cases hk'
    | cancel _ _ _ => cases hk'

/-! ## The rounds -/

/-- Four amounts of the size a balance may have fit into a `Decimal`. -/
theorem room_le_maxDecimal : (4 : Decimal) * 10 ^ 28 ≤ maxDecimal := by norm_num [maxDecimal]

/-- What the rounds so far can have brought to an account of the asset. -/
def Market.MatchState.gain (s : MatchState) (a : String) : Decimal :=
  (if s.market.base = a then s.taker.finishedBase else 0) + if s.market.quote = a then s.quoteSum
    else 0

/-- **What the rounds keep**: all orders have room, and no balance is above what the rounds can have
brought. -/
structure Kept (ql : Decimal) (s : MatchState) : Prop where
  each : (s.desk ql).Each Order.Roomy Taking.Roomy
  holds : s.ctx.balanceManager.Holds s.gain

/-- A resting order has room for a trade of no more than what is left of it. -/
theorem Order.Roomy.takes (h : o.Roomy) (h0 : 0 ≤ a) (hle : a ≤ o.remain) : o.Takes a := by
  have hmax := room_le_maxDecimal
  have hpaid : o.price * a ≤ o.remain * o.price := by
    rw [mul_comm]
    exact mul_le_mul_of_nonneg_right hle h.price.le
  have hpaid0 : 0 ≤ o.price * a := mul_nonneg h.price.le h0
  refine ⟨h.left, h.price.le, .of_nonneg h.left (by linarith [h.base, h.base0]), ?_, ?_, ?_, ?_⟩
  · unfold Order.restFrozen
    split
    · exact .of_nonneg h.left (by linarith [h.base, h.base0])
    · exact .of_nonneg (mul_nonneg h.left h.price.le) (by linarith [h.worth])
  · rw [abs_of_nonneg h.base0]
    linarith [h.base]
  · rw [abs_of_nonneg h.quote0]
    linarith [h.quote]
  · have hcharged : o.unit o.price * a * |o.makerFee| ≤ o.unit o.price * a :=
      mul_le_of_le_one_right (mul_nonneg (o.unit_nonneg h.price.le) h0) h.makerFee
    have hfee := h.fee
    unfold Order.unit at hcharged ⊢
    split at hfee
    · rename_i hask
      simp only [hask, if_true] at hcharged ⊢
      linarith [h.quote]
    · rename_i hask
      simp only [hask, Bool.false_eq_true, if_false, one_mul] at hcharged ⊢
      linarith [h.base]

/-- The quote an order has paid or got is bounded. -/
theorem Taking.Roomy.quoteSum_le (hk : k.Roomy m) (hQ : ∀ id o, m.resting id = some o → o.Roomy)
    (hql : k.quoteLimit ≤ 10 ^ 28) : 0 ≤ k.quoteSum ∧ k.quoteSum ≤ 10 ^ 28 := by
  refine ⟨hk.finished ▸ hk.quote0, ?_⟩
  cases hside : k.order.side with
  | ask => linarith [hk.ask hside, bidsWorth_nonneg hQ]
  | bid =>
    cases htype : k.order.type_ with
    | limit => linarith [hk.bid hside htype, mul_nonneg hk.left (hk.limit htype).1.le]
    | market => exact (hk.budget hside htype).trans hql

/-- **Every round has room** for a trade of no more than both orders have left. -/
theorem Kept.room (h : Kept ql s) (hmaker : (s.market.rcs.read rc).Roomy) (hql : ql ≤ 10 ^ 28)
    (h0 : 0 ≤ amount) (htaker : amount ≤ s.taker.remain)
    (hle : amount ≤ (s.market.rcs.read rc).remain) : s.Room rc amount := by
  have hmax := room_le_maxDecimal
  have hk : (s.taking ql).Roomy s.market := h.each.taking _ rfl
  obtain ⟨hsum0, hsum⟩ : 0 ≤ s.quoteSum ∧ s.quoteSum ≤ 10 ^ 28 := hk.quoteSum_le h.each.resting hql
  have hbase0 : 0 ≤ s.taker.finishedBase := hk.base0
  have hbase : s.taker.finishedBase + s.taker.remain ≤ 10 ^ 28 := hk.base
  have hfinished : s.taker.finishedQuote = s.quoteSum := hk.finished
  have hleft : 0 ≤ s.taker.remain := hk.left
  have hpaid : (s.market.rcs.read rc).price * amount ≤ 10 ^ 28 := by
    rw [mul_comm]
    exact (mul_le_mul_of_nonneg_right hle hmaker.price.le).trans hmaker.worth
  refine ⟨h0, htaker, hle, .of_nonneg hleft (by linarith), ?_, ?_, ?_, ?_, hmaker.takes h0 hle⟩
  · rw [abs_of_nonneg hsum0]
    linarith
  · rw [abs_of_nonneg hbase0]
    linarith
  · rw [hfinished, abs_of_nonneg hsum0]
    linarith
  · have hrate : |s.taker.takerFee| ≤ 1 := hk.takerFee
    have hfee : |s.taker.finishedFee| ≤ if s.taker.isAsk then s.taker.finishedQuote
        else s.taker.finishedBase := hk.fee
    have hcharged : s.taker.unit (s.market.rcs.read rc).price * amount * |s.taker.takerFee| ≤
        s.taker.unit (s.market.rcs.read rc).price * amount :=
      mul_le_of_le_one_right (mul_nonneg (s.taker.unit_nonneg hmaker.price.le) h0) hrate
    unfold Order.unit at hcharged ⊢
    split at hfee
    · rename_i hask
      simp only [hask, if_true] at hcharged ⊢
      linarith
    · rename_i hask
      simp only [hask, Bool.false_eq_true, if_false, one_mul] at hcharged ⊢
      linarith

section Put

variable {done rest : List OrderRc} {ts : List Trade}

/-- **What the rounds keep**, from the first round on. -/
theorem kept_carried (hd : DeskOK ⟨m, x, none⟩) (hQ : ∀ id o, m.resting id = some o → o.Roomy)
    (hA : Sized u m x input) (h0 : ∀ k, 0 ≤ x.balanceManager.getByKey k)
    (hlt : ∀ k, x.balanceManager.getByKey k < 10 ^ 18)
    (hcheck : m.checkInput E x.balanceManager input u = .ok ())
    (hql : m.quoteLimit x.balanceManager input u = .ok ql) :
    Carried E now u ql m (m.putState now x input u).ctx (m.putTaker now x input u) fun _ _ s _ =>
      Kept ql s := by
  have hstart := putState_ok now hd hcheck hql
  constructor
  · have haccept : Step E now u (Sized u) ⟨m, x, none⟩ ((m.putState now x input u).desk ql) :=
      .accept hA hcheck hql
    have hgain : (m.putState now x input u).gain = fun _ => 0 := by
      funext a
      show (if m.base = a then (0 : Decimal) else 0) + (if m.quote = a then (0 : Decimal) else 0) =
        0
      simp
    refine ⟨sized_keeps u now _ _ haccept hd ⟨hQ, fun k hk => by simp at hk⟩, ?_⟩
    show x.balanceManager.Holds (m.putState now x input u).gain
    rw [hgain]
    exact BalanceManager.holds_of_lt h0 hlt
  · intro done rc rest s s' ts t hrounds hk hg hex ht htaking
    have hds : DeskOK (s.desk ql) := Steps.deskOK hrounds.loop.works.steps hstart
    have hmeet : Meets s.market (s.taking ql) rc :=
      (hrounds.meets hstart (hd.quiet rfl)).2 _ hg.toTries
    have hstep : Step E now u (Sized u) (s.desk ql) (s'.desk ql) := by
      have htrade : Step E now u (Sized u) ⟨s.market, s.ctx, some (s.taking ql)⟩ ⟨s'.market, s'.ctx,
          some (filledTaking now (s.taking ql) t)⟩ :=
        .trade hmeet ht
      rw [← htaking] at htrade
      exact htrade
    have hterms : s.market.SameTerms s'.market := hstep.sameTerms
    refine ⟨sized_keeps u now _ _ hstep hds hk.each, hk.holds.posted ht.posted ht.keeps fun a => ?_⟩
    obtain ⟨h0, -, -, -⟩ := ht.fits (hk.each.taking _ rfl) (hk.each.resting _ _ hmeet.resting)
    have hprice : 0 < (s.market.rcs.read rc).price := (hk.each.resting _ _ hmeet.resting).price
    have hquote0 : 0 ≤ t.quoteAmount := by
      rw [ht.quoteAmount, ht.price]
      exact mul_nonneg hprice.le h0
    have hgain := gainIn_postings (m := s.market) h0 hquote0 (s.taking ql).order.isAsk a
    have hbase : s'.taker.finishedBase = s.taker.finishedBase + t.amount :=
      congrArg (fun k => k.order.finishedBase) htaking
    have hsum : s'.quoteSum = s.quoteSum + t.quoteAmount := congrArg Taking.quoteSum htaking
    unfold Market.MatchState.gain
    rw [hterms.base, hterms.quote, hbase, hsum]
    split_ifs at hgain ⊢ <;> linarith

/-- A maker the order comes to has room. -/
theorem maker_roomy (hd : DeskOK ⟨m, x, none⟩) (hQ : ∀ id o, m.resting id = some o → o.Roomy)
    (hstart : DeskOK ((m.putState now x input u).desk ql))
    (h : Rounds E now u ql m (m.putState now x input u).ctx (m.putTaker now x input u) done
      (rc :: rest) s ts) :
    (s.market.rcs.read rc).Roomy := by
  rw [(h.meets hstart (hd.quiet rfl)).1]
  have hmem : rc ∈ m.counterOrders (m.putTaker now x input u) := by
    rw [← h.handles]
    simp
  exact hQ _ _ (resting_some.2 ⟨rc, ((counterOrders_spec hd.index _).2 rc hmem).1, rfl⟩)

/-- The budget of an order is one of its balances, or less. -/
theorem quoteLimit_lt {bm : BalanceManager} (hlt : ∀ k, bm.getByKey k < 10 ^ 18)
    (h : m.quoteLimit bm input u = .ok ql) : ql < 10 ^ 18 := by
  have hbalance : bm.get u .available m.quote < 10 ^ 18 := hlt ⟨u, .available, m.quote⟩
  unfold quoteLimit at h
  split at h
  · split at h
    · rw [pure_ok] at h
      exact h ▸ hbalance
    · obtain ⟨prec, -, h⟩ := bind_ok.1 h
      rw [pure_ok] at h
      exact h ▸ (min_le_left _ _).trans_lt hbalance
  · rw [pure_ok] at h
    rw [← h]
    norm_num

variable (hd : DeskOK ⟨m, x, none⟩) (hQ : ∀ id o, m.resting id = some o → o.Roomy)
  (hA : Sized u m x input) (h0 : ∀ k, 0 ≤ x.balanceManager.getByKey k)
  (hlt : ∀ k, x.balanceManager.getByKey k < 10 ^ 18)
include hd hQ hA h0 hlt

/-- What is kept when the order comes to a maker. -/
theorem comes_kept (h : Comes E now u m x input ql rc s) :
    Kept ql s ∧ (s.market.rcs.read rc).Roomy ∧ ql < 10 ^ 18 := by
  obtain ⟨done, rest, ts, hrounds, hk⟩ :=
    h.rounds hd (kept_carried hd hQ hA h0 hlt h.accepted h.budget)
  exact ⟨hk, maker_roomy hd hQ (putState_ok now hd h.accepted h.budget) hrounds,
    quoteLimit_lt hlt h.budget⟩

theorem putComputes_budget (hcomes : Comes E now u m x input ql rc s) (hbid : s.taker.side = .bid)
    (hmarket : s.taker.type_ = .market) :
    ∀ v ∈ budgetValues (s.market.rcs.read rc) (s.offered rc) ql s.quoteSum, InRange v := by
  obtain ⟨hk, hmaker, hql⟩ := comes_kept hd hQ hA h0 hlt hcomes
  have htaking : (s.taking ql).Roomy s.market := hk.each.taking _ rfl
  have hask : ¬s.taker.isAsk = true := by simp [Order.isAsk, hbid]
  have hoffered : s.offered rc = min (s.market.rcs.read rc).remain s.taker.remain := by
    unfold MatchState.offered askOf bidOf
    rw [if_neg hask, if_neg hask]
  rw [hoffered]
  have hnonneg : 0 ≤ min (s.market.rcs.read rc).remain s.taker.remain :=
    le_min hmaker.left htaking.left
  have hroom := hk.room hmaker (by linarith) hnonneg (min_le_right _ _) (min_le_left _ _)
  have hsum0 : 0 ≤ s.quoteSum :=
    (htaking.quoteSum_le hk.each.resting (by show ql ≤ 10 ^ 28; linarith)).1
  have hsum := hroom.sum
  rw [abs_of_nonneg hsum0] at hsum
  exact budgetValues_inRange hmaker.price.le hnonneg hroom.amount_le hsum0
    (htaking.budget hbid hmarket) hql.le hsum

/-- A round that trades has room for its trade, on the orders and on the accounts. -/
theorem generates_room (hcomes : Comes E now u m x input ql rc s) (hg : Generates s ql rc amount) :
    s.Room rc amount ∧ s.ctx.balanceManager.Holds s.gain ∧ ∀ a, 2 * 10 ^ 18 +
      (s.gain a + gainIn (fun k => k.asset = a)
        ((s.nextTrade now rc amount).postings s.market s.taker.isAsk)) ≤ maxDecimal := by
  obtain ⟨hk, hmaker, hql⟩ := comes_kept hd hQ hA h0 hlt hcomes
  have hmax := room_le_maxDecimal
  have htaking : (s.taking ql).Roomy s.market := hk.each.taking _ rfl
  have hask : 0 ≤ (askOf s.taker (s.market.rcs.read rc)).remain :=
    askOf_remain_nonneg htaking.left hmaker.left
  have hbid : 0 ≤ (bidOf s.taker (s.market.rcs.read rc)).remain :=
    bidOf_remain_nonneg htaking.left hmaker.left
  obtain ⟨hnonneg, -⟩ := tradedBaseAmount_nonneg hask hbid htaking.budget hg.amount
  obtain ⟨hleask, hlebid⟩ :=
    tradedBaseAmount_le hask hbid (fun hs hm => .inl (htaking.budget hs hm)) hg.amount
  obtain ⟨hle, hleMaker⟩ : amount ≤ s.taker.remain ∧ amount ≤ (s.market.rcs.read rc).remain := by
    unfold askOf at hleask
    unfold bidOf at hlebid
    split at hleask
    · rename_i hs
      rw [if_pos hs] at hlebid
      exact ⟨hleask, hlebid⟩
    · rename_i hs
      rw [if_neg hs] at hlebid
      exact ⟨hlebid, hleask⟩
  have hroom := hk.room hmaker (by linarith) hnonneg hle hleMaker
  refine ⟨hroom, hk.holds, fun a => ?_⟩
  have hgain := gainIn_postings (t := s.nextTrade now rc amount) (m := s.market) hnonneg
    hroom.quote_nonneg s.taker.isAsk a
  obtain ⟨hsum0, hsum⟩ : 0 ≤ s.quoteSum ∧ s.quoteSum ≤ 10 ^ 28 :=
    htaking.quoteSum_le hk.each.resting (by show ql ≤ 10 ^ 28; linarith)
  have hbase0 : 0 ≤ s.taker.finishedBase := htaking.base0
  have hbase : s.taker.finishedBase + s.taker.remain ≤ 10 ^ 28 := htaking.base
  have hpaid : (s.market.rcs.read rc).price * amount ≤ 10 ^ 28 := by
    rw [mul_comm]
    exact (mul_le_mul_of_nonneg_right hleMaker hmaker.price.le).trans hmaker.worth
  have hamount : (s.nextTrade now rc amount).amount = amount := rfl
  have hquote : (s.nextTrade now rc amount).quoteAmount = (s.market.rcs.read rc).price * amount :=
    rfl
  rw [hamount, hquote] at hgain
  unfold Market.MatchState.gain
  split_ifs at hgain ⊢ <;> linarith

theorem putComputes_trade (hcomes : Comes E now u m x input ql rc s)
    (hg : Generates s ql rc amount) :
    ∀ v ∈ tradeValues (s.nextTrade now rc amount) s.taker (s.market.rcs.read rc) s.quoteSum,
      InRange v := by
  obtain ⟨hds, hmeet, -⟩ := hd.generates hcomes hg
  obtain ⟨hroom, -⟩ := generates_room hd hQ hA h0 hlt hcomes hg
  exact hroom.values now hmeet.sides (hds.backed _ _ hmeet.resting).frozen

/-- The accounts after some legs of a trade have room for the others. -/
theorem settled_room {before after : List (BalanceMapKey × Decimal)} {z : Ctx}
    (hcomes : Comes E now u m x input ql rc s) (hg : Generates s ql rc amount)
    (hsplit : (s.nextTrade now rc amount).postings s.market s.taker.isAsk = before ++ after)
    (hbefore : settleLegs E now s.market (s.nextTrade now rc amount).id before s.settleCtx =
      .ok z) :
    Gridded z.balanceManager ∧ (∀ leg ∈ after, LegOnGrid z.balanceManager leg) ∧
      ∃ g, z.balanceManager.Holds g ∧
      ∀ a, 2 * 10 ^ 18 + (g a + gainIn (fun k => k.asset = a) after) ≤ maxDecimal := by
  obtain ⟨hds, -, hgrids⟩ := hd.generates hcomes hg
  obtain ⟨-, hholds, hroom⟩ := generates_room hd hQ hA h0 hlt hcomes hg
  have hlegs := postings_onGrid hgrids hds.prec s.taker.isAsk
  rw [hsplit] at hlegs hroom
  obtain ⟨hposted, hgridded, hkeeps⟩ := settleLegs_posted (x := s.settleCtx) hds.gridded
    (fun leg hleg => hlegs leg (List.mem_append_left _ hleg)) hbefore
  refine ⟨hgridded, fun leg hleg => ?_, fun a => s.gain a + gainIn (fun k => k.asset = a) before,
    hholds.posted hposted hkeeps fun a => le_rfl, fun a => ?_⟩
  · unfold LegOnGrid
    rw [hposted.assets]
    exact hlegs leg (List.mem_append_right _ hleg)
  · have hall := hroom a
    rwa [gainIn_append, ← add_assoc (s.gain a)] at hall

theorem putComputes_settle {before after : List (BalanceMapKey × Decimal)}
    {leg : BalanceMapKey × Decimal} {z : Ctx} (hcomes : Comes E now u m x input ql rc s)
    (hg : Generates s ql rc amount)
    (hsplit : (s.nextTrade now rc amount).postings s.market s.taker.isAsk = before ++ leg :: after)
    (hbefore : settleLegs E now s.market (s.nextTrade now rc amount).id before s.settleCtx = .ok z)
    (h : UpdateComputes E now z (legParams s.market (s.nextTrade now rc amount).id leg) v) :
    InRange v := by
  obtain ⟨-, hmeet, -⟩ := hd.generates hcomes hg
  obtain ⟨hroom, -⟩ := generates_room hd hQ hA h0 hlt hcomes hg
  obtain ⟨hgridded, hlegs, g, hholds, hrest⟩ :=
    settled_room hd hQ hA h0 hlt hcomes hg hsplit hbefore
  have hsize := hroom.sizes now hmeet.sides leg (by rw [hsplit]; simp)
  refine h.inRange hgridded (hlegs leg List.mem_cons_self) hsize hholds fun a => ?_
  have hall := hrest a
  rw [← List.singleton_append, gainIn_append] at hall
  have := gainIn_nonneg (P := fun k : BalanceMapKey => k.asset = a) after
  linarith

theorem putComputes_shown {z : Ctx} {w : Uuid} {a : String}
    (hcomes : Comes E now u m x input ql rc s) (hg : Generates s ql rc amount)
    (h : z = s.settleCtx ∨
      settle E now s.settleCtx s.market s.taker.isAsk (s.nextTrade now rc amount) = .ok z) :
    InRange (z.balanceManager.total w a) := by
  -- all legs are still to come, or none
  obtain ⟨before, after, hsplit, hbefore⟩ : ∃ before after,
      (s.nextTrade now rc amount).postings s.market s.taker.isAsk = before ++ after ∧
        settleLegs E now s.market (s.nextTrade now rc amount).id before s.settleCtx = .ok z := by
    rcases h with rfl | h
    · exact ⟨[], _, rfl, rfl⟩
    · exact ⟨_, [], (List.append_nil _).symm, (settle_legs _ _ _ _).symm.trans h⟩
  obtain ⟨-, -, g, hholds, hrest⟩ := settled_room hd hQ hA h0 hlt hcomes hg hsplit hbefore
  have hall := hrest a
  have := gainIn_nonneg (P := fun k : BalanceMapKey => k.asset = a) after
  exact hholds.inRange (by linarith)

/-- What is left of an order when it rests, and the balances it moves, are in range. -/
theorem putComputes_rest {y : Market × Ctx} {prec : ℕ} (hloop : Loops E now u m x input ql s)
    (htype : s.taker.type_ = .limit)
    (hfinish : s.finishedOrders.foldlM
      (fun (mx : Market × Ctx) item => mx.1.orderFinish E mx.2 item) (s.market, s.ctx) = .ok y) :
    ∀ v ∈ m.restValues y.2.balanceManager s.taker prec, InRange v := by
  have hexact : m.PutExact E now u x input := hd.putExact input
  have hfilled := hexact.finish ql s hloop
  rw [finish_balances hfilled hfinish]
  have hstart := putState_ok now hd hloop.accepted hloop.budget
  obtain ⟨done, rest, s, ts, hrounds, hk, -, b, rfl⟩ := loop_rounds (hd.quiet rfl) hstart
    (kept_carried hd hQ hA h0 hlt hloop.accepted hloop.budget) hloop.ended
  have hmax := room_le_maxDecimal
  have hql := quoteLimit_lt hlt hloop.budget
  have htaking : (s.taking ql).Roomy s.market := hk.each.taking _ rfl
  obtain ⟨hsum0, hsum⟩ : 0 ≤ s.quoteSum ∧ s.quoteSum ≤ 10 ^ 28 :=
    htaking.quoteSum_le hk.each.resting (by show ql ≤ 10 ^ 28; linarith)
  have hleft0 : 0 ≤ s.taker.remain := htaking.left
  have hbase0 : 0 ≤ s.taker.finishedBase := htaking.base0
  have hbase : s.taker.finishedBase + s.taker.remain ≤ 10 ^ 28 := htaking.base
  obtain ⟨hprice, hworth⟩ : 0 < s.taker.price ∧ s.taker.remain * s.taker.price ≤ 10 ^ 28 :=
    htaking.limit htype
  obtain ⟨hfrozen0, hfrozen⟩ : 0 ≤ s.taker.restFrozen ∧ s.taker.restFrozen ≤ 10 ^ 28 := by
    unfold Order.restFrozen
    split
    · exact ⟨hleft0, by linarith⟩
    · exact ⟨mul_nonneg hleft0 hprice.le, hworth⟩
  have hgrid : OnGrid prec (10 ^ 28 : Decimal) :=
    ⟨10 ^ 28 * 10 ^ prec, by field_simp; push_cast; ring⟩
  have hround0 : 0 ≤ roundDp s.taker.restFrozen prec := roundDp_nonneg hfrozen0
  have hround : roundDp s.taker.restFrozen prec ≤ 10 ^ 28 := roundDp_le hfrozen hgrid
  have hgain : ∀ a, s.gain a ≤ 2 * 10 ^ 28 := by
    intro a
    unfold Market.MatchState.gain
    split_ifs <;> linarith
  have hpay0 := hk.holds.nonneg (m.payAccount s.taker)
  have hpay := (hk.holds.balance (m.payAccount s.taker)).trans (add_le_add le_rfl (hgain _))
  have hback0 := hk.holds.nonneg (m.backAccount s.taker)
  have hback := (hk.holds.balance (m.backAccount s.taker)).trans (add_le_add le_rfl (hgain _))
  intro v hv
  simp only [restValues, List.mem_cons, List.not_mem_nil, or_false] at hv
  rcases hv with rfl | rfl | rfl
  · exact .of_nonneg hfrozen0 (by linarith)
  · exact .between le_rfl le_rfl (by linarith) (by linarith)
  · exact .of_nonneg (add_nonneg hback0 hround0) (by linarith)

omit hA in
/-- **All that an order computes is in range**, if it is sized where it is accepted, when the cost
of a limit bid is. -/
theorem putComputes_inRange
    (hA : m.checkInput E x.balanceManager input u = .ok () → Sized u m x input)
    (hcost : m.checkTerms input = .ok () → input.side = .bid → input.type_ = .limit →
      InRange (input.amount * input.price))
    (h : m.PutComputes E now u x input v) : InRange v := by
  cases h with
  | cost hterms hbid hlimit => exact hcost hterms hbid hlimit
  | budget hcomes _ hbid hmarket hv =>
    exact putComputes_budget hd hQ (hA hcomes.accepted) h0 hlt hcomes hbid hmarket v hv
  | trade hcomes hg hv => exact putComputes_trade hd hQ (hA hcomes.accepted) h0 hlt hcomes hg v hv
  | settle hcomes hg hsplit hbefore hv =>
    exact putComputes_settle hd hQ (hA hcomes.accepted) h0 hlt hcomes hg hsplit hbefore hv
  | shown hcomes hg hy => exact putComputes_shown hd hQ (hA hcomes.accepted) h0 hlt hcomes hg hy
  | finish hloop ho hopen => exact absurd ((hd.putExact input).finish _ _ hloop _ ho) hopen
  | rest hloop _ hlimit _ hfinish _ hv =>
    exact putComputes_rest hd hQ (hA hloop.accepted) h0 hlt hloop hlimit hfinish v hv

end Put

/-! ## Every run of sized orders -/

/-- A sized order has safe signs. -/
theorem Sized.signed (h : Sized u m x input) : Signed m x input := by
  refine .inl fun hbid => ?_
  split
  · rename_i hlimit
    exact (h.limit hlimit).1.le
  · rename_i hmarket
    have hmarket : input.type_ = .market := by
      cases htype : input.type_ with
      | limit => exact absurd htype hmarket
      | market => rfl
    have hbudget := h.budget hbid hmarket
    unfold Market.budget at hbudget
    split at hbudget
    · rename_i hz
      rw [hz]
      simp [truncDp, trunc]
    · exact .inl (hbudget.trans (min_le_right _ _))

/-- **The arithmetic of an order stays in range** along every run of sized orders: with balances
below `10 ^ 18`, what one more order computes, put alone or in a batch, is in range exactly when the
cost of a limit bid is. -/
theorem PutRun.put_inRange_iff (hmin : ∀ conf ∈ settings.markets, 0 ≤ conf.minAmount)
    (h : PutRun E settings Sized c) {q : Request} (hput : c.EachPut E (Sized q.user) q) :
    ∀ c₁ req m input, c.Puts E q c₁ req → c₁.markets.find? req.market = some m →
      OrderInput.tryFrom E req = .ok input →
      (∀ k, c₁.balanceManager.getByKey k < 10 ^ 18) →
      ((∀ v, m.PutComputes E q.now q.user (c₁.ctx q.real) input v → InRange v) ↔
        (m.checkTerms input = .ok () → input.side = .bid → input.type_ = .limit →
          InRange (input.amount * input.price))) := by
  intro c₁ req m input hputs hm hinput hlt
  obtain ⟨b, hb, hc, hback, hs⟩ := h.solvent (fun _ _ _ _ => Sized.signed) hmin
  obtain ⟨b', hb', -, heach⟩ := h.each sized_keeps
  obtain ⟨hmoves, hadmits⟩ := hputs.moves hc hput
  have hc₁ : ControllerOK b c₁ := hmoves.ok hc
  have hs₁ : c₁.Solvent := hmoves.solvent (fun _ _ _ => Sized.signed) hc hback hs
  have hQ : c₁.Each Order.Roomy := (sized_keeps q.user).moves hmoves hc heach
  refine ⟨fun hall hterms hbid hlimit => hall _ (.cost hterms hbid hlimit), fun hcost v hv => ?_⟩
  exact putComputes_inRange ((hc₁.desk _ m hm).2 q.real) (hQ _ m · · hm) hs₁.balances hlt
    (hadmits m input hm hinput) hcost hv

/-! ## Two sample orders -/

theorem getByKey_lt_of_entries {bm : BalanceManager} (h : ∀ e ∈ bm.balances.entries, e.2 < 10 ^ 18)
    (k : BalanceMapKey) : bm.getByKey k < 10 ^ 18 := by
  unfold BalanceManager.getByKey
  cases hk : bm.balances.find? k with
  | none => norm_num
  | some v => exact h ⟨k, v⟩ (mem_entries_iff.2 hk)

/-- A limit order at the rates of the samples is sized, an ask where the bids of the book are worth
little. -/
theorem sized_limit (hinput : input.type_ = .limit ∧ 0 ≤ input.amount ∧ input.amount ≤ 10 ^ 28 ∧
    |input.makerFee| ≤ 1 ∧
    |input.takerFee| ≤ 1 ∧ 0 < input.price ∧ input.amount * input.price ≤ 10 ^ 28)
    (hask : input.side = .ask → m.bidsWorth ≤ 10 ^ 28) : Sized u m x input := by
  obtain ⟨hlimit, hamount0, hamount, hmaker, htaker, hprice, hworth⟩ := hinput
  refine ⟨hamount0, hamount, hmaker, htaker, fun _ => ⟨hprice, hworth⟩, hask, fun _ hmarket => ?_⟩
  rw [hlimit] at hmarket
  cases hmarket

/-- Alice bids 100 for 2. -/
def sampleOneBid : List Request :=
  [requestAt 0 alice (depositOf "USDT" 1 "1000"), requestAt 0 bob (depositOf "ETH" 2 "10"),
    requestAt 1 alice (.orderPut (limitOrder .bid "2" "100"))]

theorem sampleOneBid_sized (h : sampleRun releaseEnv sampleOneBid = .ok c) :
    PutRun releaseEnv sampleSettings Sized c := by
  refine sampleRun_putRun h fun q hq c => ?_
  simp only [sampleOneBid, List.mem_cons, List.not_mem_nil, or_false] at hq
  rcases hq with rfl | rfl | rfl
  · trivial
  · trivial
  · intro m input _ hinput _
    have hterms :
        (OrderInput.tryFrom releaseEnv (limitOrder .bid "2" "100")).toOption.any (fun input =>
        decide ((input.type_ = .limit ∧ 0 ≤ input.amount ∧ input.amount ≤ 10 ^ 28 ∧
          |input.makerFee| ≤ 1 ∧ |input.takerFee| ≤ 1 ∧
          0 < input.price ∧ input.amount * input.price ≤ 10 ^ 28) ∧
          input.side = .bid)) = true := by decide +kernel
    simp only [hinput, Except.toOption, Option.any_some, decide_eq_true_eq] at hterms
    exact sized_limit hterms.1 fun hask => by rw [hterms.2] at hask; cases hask

/-- Bob sells to alice. -/
theorem PutRun.put_inRange_bob :
    ∃ (c : Controller) (m : Market) (input : OrderInput), PutRun releaseEnv sampleSettings Sized c ∧
    c.markets.find? "ETH_USDT" = some m ∧
    OrderInput.tryFrom releaseEnv (limitOrder .ask "1" "100") = .ok input ∧
    m.bidsWorth = 200 ∧ m.checkInput releaseEnv c.balanceManager input bob = .ok () ∧
    ∀ v, m.PutComputes releaseEnv 2 bob (c.ctx true) input v → InRange v := by
  have h : (sampleRun releaseEnv sampleOneBid >>=
      fun c => unwrap .marketName (c.markets.find? "ETH_USDT") >>= fun m =>
      unwrap .replay (OrderInput.tryFrom releaseEnv (limitOrder .ask "1" "100")).toOption >>=
        fun input =>
      pure (decide ((∀ e ∈ c.balanceManager.balances.entries, e.2 < 10 ^ 18) ∧ m.bidsWorth = 200 ∧
        m.checkInput releaseEnv c.balanceManager input bob = .ok () ∧ input.side = .ask ∧
        input.type_ = .limit ∧ 0 ≤ input.amount ∧ input.amount ≤ 10 ^ 28 ∧ |input.makerFee| ≤ 1 ∧
        |input.takerFee| ≤ 1 ∧
          0 < input.price ∧ input.amount * input.price ≤ 10 ^ 28))) = (.ok true :
            Except Panic Bool) := by decide +kernel
  simp only [bind_ok, pure_ok, unwrap_ok, toOption_some, decide_eq_true_eq] at h
  obtain ⟨c, hc, m, hm, input, hinput, hentries, hworth, hcheck, hside, hterms⟩ := h
  have hrun := sampleOneBid_sized hc
  have hput : c.EachPut releaseEnv (Sized bob)
      (requestAt 2 bob (.orderPut (limitOrder .ask "1" "100"))) := by
    intro m' input' hm' hinput' _
    obtain rfl : m = m' := Option.some.inj (hm.symm.trans hm')
    obtain rfl : input = input' := Except.ok.inj (hinput.symm.trans hinput')
    exact sized_limit hterms fun _ => by rw [hworth]; norm_num
  have hputs : c.Puts releaseEnv (requestAt 2 bob (.orderPut (limitOrder .ask "1" "100"))) c
      (limitOrder .ask "1" "100") := .order rfl rfl
  have hall := hrun.put_inRange_iff (by decide +kernel) hput c _ m input hputs hm hinput
    (getByKey_lt_of_entries hentries)
  refine ⟨c, m, input, hrun, hm, hinput, hworth, hcheck, hall.2 fun _ hbid _ => ?_⟩
  rw [hside] at hbid
  cases hbid

/-- **Nothing bounds a bid before its cost is computed**: 10 ^ 20 at 10 ^ 20, in a new exchange. -/
theorem not_put_inRange :
    ¬ ∀ E settings c (q : Request) c₁ req m input v, Reachable E settings c → c.Puts E q c₁ req →
    c₁.markets.find? req.market = some m → OrderInput.tryFrom E req = .ok input →
    (∀ k, c₁.balanceManager.getByKey k < 10 ^ 18) →
    m.PutComputes E q.now q.user (c₁.ctx q.real) input v → InRange v := by
  intro hall
  have h : (sampleRun releaseEnv [] >>= fun c => unwrap .marketName (c.markets.find? "ETH_USDT") >>=
      fun m =>
      unwrap .replay (OrderInput.tryFrom releaseEnv
        (limitOrder .bid "100000000000000000000" "100000000000000000000")).toOption >>= fun input =>
      pure (decide (c.balanceManager.balances.entries = [] ∧ m.checkTerms input = .ok () ∧
        input.side = .bid ∧ input.type_ = .limit ∧
        input.amount * input.price = 10 ^ 40))) = (.ok true :
          Except Panic Bool) := by decide +kernel
  simp only [bind_ok, pure_ok, unwrap_ok, toOption_some, decide_eq_true_eq] at h
  obtain ⟨c, hc, m, hm, input, hinput, hempty, hterms, hbid, hlimit, hcost⟩ := h
  have hrange := hall releaseEnv sampleSettings c
    (requestAt 1 alice
      (.orderPut (limitOrder .bid "100000000000000000000" "100000000000000000000"))) c _ m input _
    (sampleRun_reachable hc) (.order rfl rfl) hm hinput (getByKey_lt_of_entries (by simp [hempty]))
    (.cost hterms hbid hlimit)
  rw [hcost] at hrange
  norm_num [InRange, maxDecimal] at hrange

end Dingir
