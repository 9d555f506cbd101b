import Dingir.Proof.Conservation
import Dingir.Proof.Slices
import Dingir.Proof.Solvency
import Dingir.Proof.Assets
import Dingir.Spec.Columns

/-!
# What the columns of a slice hold

The scales of the columns are fixed, and `put_order` checks the digits of an amount and of
a price against the precisions of the market, and those of the fee rates against nothing.
An order that comes to rest is exact in the columns if its input is, and if what it may
come to have traded is small enough (`Market.ColumnSafe`): what is finished of an order and
what is left of it, at any price it may still trade at, add up to no more than before
(`Order.Room.fill`).

- `Step.ranged`: each step of a market keeps what rests exact.
- **`DumpRun.dump_exact`**: along every run of such orders, restarts included, the dump of the
  controller is held as it is.
- `not_dump_exact`: a fee rate of a thousandth of a percent loses its digits.
-/

namespace Dingir

open Keyed Rounding Posting Outcome Market

/-! ## Orders the columns hold -/

/-- What a unit of the base amount of an order counts for in its fee, at a price. -/
def Order.unit (o : Order) (p : Decimal) : Decimal := if o.isAsk then p else 1

/-- There is room in the columns of the order for all that is left of it to trade at a price. -/
structure Order.Room (o : Order) (p : Decimal) : Prop where
  quote : o.finishedQuote + o.remain * p < 10 ^ 14
  taker : |o.finishedFee| + o.remain * o.unit p * |o.takerFee| < 10 ^ 18
  maker : |o.finishedFee| + o.remain * o.unit p * |o.makerFee| < 10 ^ 18

/-- The digits of the asset an order is given, which its fee is taken from. -/
def Market.feePrecOf (m : Market) (o : Order) : ℕ := if o.isAsk then m.quotePrec else m.basePrec

/-- **An order the columns hold**, now and after any trade at its price. -/
structure Order.Ranged (o : Order) (m : Market) : Prop where
  price : DecimalColumn.Holds ⟨30, 8⟩ o.price
  pos : 0 ≤ o.price
  amount : DecimalColumn.Holds ⟨30, 8⟩ o.amount
  takerFee : DecimalColumn.Holds ⟨30, 4⟩ o.takerFee
  makerFee : DecimalColumn.Holds ⟨30, 4⟩ o.makerFee
  remain : OnGrid 8 o.remain
  left : 0 ≤ o.remain
  finished : o.finishedBase + o.remain = o.amount
  base : 0 ≤ o.finishedBase
  quote : OnGrid 16 o.finishedQuote
  quotePos : 0 ≤ o.finishedQuote
  fee : OnGrid 12 o.finishedFee
  feePrec : o.takerFee ≠ 0 ∨ o.makerFee ≠ 0 → m.feePrecOf o ≤ 12
  room : o.Room o.price

/-! ## Inputs the columns hold -/

/-- The prices a limit order may trade at when it is put: its own, and for an ask those of the
bids. -/
def Market.TradesAt (m : Market) (input : OrderInput) (p : Decimal) : Prop :=
  p = input.price ∨ input.side = .ask ∧ ∃ id o, m.resting id = some o ∧ o.side = .bid ∧ o.price = p

/-- A limit order the columns hold, whatever it trades. The value of a bid is not asked for: its
owner has to have it. -/
structure Market.LimitSafe (m : Market) (input : OrderInput) : Prop where
  price : DecimalColumn.Holds ⟨30, 8⟩ input.price
  pos : 0 ≤ input.price
  amount : DecimalColumn.Holds ⟨30, 8⟩ input.amount
  takerFee : DecimalColumn.Holds ⟨30, 4⟩ input.takerFee
  makerFee : DecimalColumn.Holds ⟨30, 4⟩ input.makerFee
  feePrec : input.takerFee ≠ 0 ∨ input.makerFee ≠ 0 →
    (if input.side = .ask then m.quotePrec else m.basePrec) ≤ 12
  value : input.side = .ask → ∀ p, m.TradesAt input p → input.amount * p < 10 ^ 14
  fee : ∀ p, m.TradesAt input p → ∀ rate ∈ [input.takerFee, input.makerFee],
    input.amount * (if input.side = .ask then p else 1) * |rate| < 10 ^ 18

/-- A market order that takes amounts the columns hold, with a budget that is not negative. -/
structure Market.MarketSafe (m : Market) (input : OrderInput) : Prop where
  amount : OnGrid 8 input.amount
  bid : input.side = .bid → m.amountPrec ≤ 8 ∧ 0 ≤ truncDp input.quoteLimit m.quotePrec

/-- **An order that leaves the slices exact.** -/
def Market.ColumnSafe (m : Market) (_ : Ctx) (input : OrderInput) : Prop :=
  match input.type_ with
  | .limit => m.LimitSafe input
  | .market => m.MarketSafe input

variable {E : Env} {settings : Settings} {now : Timestamp} {real : Bool} {w : Prop} {user : Uuid}
  {m m' : Market} {x x' : Ctx} {k : Taking} {rc : OrderRc} {t : Trade} {o : Order} {d d' : Desk}
  {c c' b : Controller} {p q a v : Decimal}

theorem Market.ColumnSafe.signed {input : OrderInput}
    (h : m.ColumnSafe x input) : Signed m x input := by
  unfold ColumnSafe at h
  refine .inl fun hside => ?_
  cases htype : input.type_ with
  | limit =>
    rw [htype] at h
    exact h.pos
  | market =>
    rw [htype] at h
    exact .inl (h.bid hside).2

/-! ## A trade -/

/-- What is finished grows by no more than what is left shrinks, at any price that there was room
for. -/
theorem room_after {done left bound : Decimal} (hv : done + left * v < bound)
    (hp : done + left * p < bound) (hle : a ≤ left) (h0 : 0 ≤ a) :
    done + a * p + (left - a) * v < bound := by
  rcases le_total p v with hpv | hpv
  · have := mul_le_mul_of_nonneg_left hpv h0
    nlinarith
  · have := mul_le_mul_of_nonneg_left hpv (sub_nonneg.2 hle)
    nlinarith

theorem abs_truncDp_le (y : Decimal) (n : ℕ) : |truncDp y n| ≤ |y| := by
  rcases le_total 0 y with hy | hy
  · rw [abs_of_nonneg (truncDp_nonneg hy), abs_of_nonneg hy]
    exact truncDp_le_self hy
  · rw [abs_of_nonpos (truncDp_nonpos hy), abs_of_nonpos hy]
    exact neg_le_neg (self_le_truncDp hy)

/-- An order before and after `a` of it is traded at the price `p`, with a fee at one of its
rates. -/
structure Order.Filled (o : Order) (m : Market) (a p rate : Decimal) (o' : Order) : Prop where
  side : o'.side = o.side
  price : o'.price = o.price
  amount : o'.amount = o.amount
  takerFee : o'.takerFee = o.takerFee
  makerFee : o'.makerFee = o.makerFee
  charged : rate = o.takerFee ∨ rate = o.makerFee
  remain : o'.remain = o.remain - a
  base : o'.finishedBase = o.finishedBase + a
  quote : o'.finishedQuote = o.finishedQuote + a * p
  fee : o'.finishedFee = o.finishedFee + truncDp (a * o.unit p * rate) (m.feePrecOf o)

/-- The maker of a trade is filled. -/
theorem Trades.makerFilled (hmeet : Meets m k rc) (ht : Trades now m x k rc t m' x') :
    (m.rcs.read rc).Filled m t.amount t.price (m.rcs.read rc).makerFee
      (filledMaker now k.order.isAsk (m.rcs.read rc) t) := by
  have hask := ht.askFee
  have hbid := ht.bidFee
  have hquote : t.quoteAmount = t.amount * t.price := by rw [ht.quoteAmount, mul_comm]
  refine ⟨rfl, rfl, rfl, rfl, rfl, .inr rfl, rfl, rfl, ?_, ?_⟩
  · show (m.rcs.read rc).finishedQuote + t.quoteAmount = _
    rw [hquote]
  · show (m.rcs.read rc).finishedFee + (if k.order.isAsk then t.bidFee else t.askFee) = _
    rcases hmeet.sides with ⟨hk, hs⟩ | ⟨hk, hs⟩
    · simp only [hk, if_true] at hbid ⊢
      rw [hbid]
      simp [Order.unit, feePrecOf, Order.isAsk, hs]
    · simp only [hk, Bool.false_eq_true, if_false] at hask ⊢
      rw [hask, hquote]
      simp [Order.unit, feePrecOf, Order.isAsk, hs]

/-- And so is the taker. -/
theorem Trades.takerFilled (ht : Trades now m x k rc t m' x') :
    k.order.Filled m t.amount t.price k.order.takerFee (filledTaking now k t).order := by
  have hask := ht.askFee
  have hbid := ht.bidFee
  have hquote : t.quoteAmount = t.amount * t.price := by rw [ht.quoteAmount, mul_comm]
  refine ⟨rfl, rfl, rfl, rfl, rfl, .inl rfl, rfl, rfl, ?_, ?_⟩
  · show k.order.finishedQuote + t.quoteAmount = _
    rw [hquote]
  · show k.order.finishedFee + (if k.order.isAsk then t.askFee else t.bidFee) = _
    cases hk : k.order.isAsk with
    | true =>
      simp only [hk, if_true] at hask ⊢
      rw [hask, hquote]
      simp [Order.unit, feePrecOf, hk]
    | false =>
      simp only [hk, Bool.false_eq_true, if_false] at hbid ⊢
      rw [hbid]
      simp [Order.unit, feePrecOf, hk]

theorem Order.Filled.unit {rate : Decimal} {o' : Order} (h : o.Filled m a p rate o')
    (v : Decimal) : o'.unit v = o.unit v := by
  unfold Order.unit Order.isAsk
  rw [h.side]

theorem Order.unit_nonneg (o : Order) (hp : 0 ≤ p) : 0 ≤ o.unit p := by
  unfold Order.unit
  split
  · exact hp
  · exact zero_le_one

/-- **A trade keeps room** at every price that there was room for. -/
theorem Order.Room.fill {rate : Decimal} {o' : Order} (h : o.Room v) (hf : o.Filled m a p rate o')
    (hp : o.Room p) (hpos : 0 ≤ p) (h0 : 0 ≤ a) (hle : a ≤ o.remain) : o'.Room v := by
  have hfee : ∀ r, r = o.takerFee ∨ r = o.makerFee →
      |o.finishedFee| + o.remain * (o.unit v * |r|) < 10 ^ 18 ∧
      |o.finishedFee| + o.remain * (o.unit p * |rate|) < 10 ^ 18 := by
    intro r hr
    constructor
    · rw [← mul_assoc]
      rcases hr with rfl | rfl
      · exact h.taker
      · exact h.maker
    · rw [← mul_assoc]
      rcases hf.charged with rfl | rfl
      · exact hp.taker
      · exact hp.maker
  have hcharged : |o'.finishedFee| ≤ |o.finishedFee| + a * (o.unit p * |rate|) := by
    rw [hf.fee]
    refine (abs_add_le _ _).trans (add_le_add le_rfl ((abs_truncDp_le _ _).trans_eq ?_))
    rw [abs_mul, abs_mul, abs_of_nonneg h0, abs_of_nonneg (o.unit_nonneg hpos), mul_assoc]
  have hroom : ∀ r, r = o.takerFee ∨ r = o.makerFee →
      |o'.finishedFee| + o'.remain * o'.unit v * |r| < 10 ^ 18 := by
    intro r hr
    obtain ⟨hv', hp'⟩ := hfee r hr
    have := room_after hv' hp' hle h0
    rw [hf.unit, hf.remain, mul_assoc]
    linarith
  refine ⟨?_, ?_, ?_⟩
  · rw [hf.quote, hf.remain]
    exact room_after h.quote hp.quote hle h0
  · rw [hf.takerFee]
    exact hroom _ (.inl rfl)
  · rw [hf.makerFee]
    exact hroom _ (.inr rfl)

/-- **A trade leaves an order the columns hold.** -/
theorem Order.Ranged.fill {rate : Decimal} {o' : Order} (h : o.Ranged m)
    (hf : o.Filled m a p rate o') (hp : o.Room p) (hgrid : OnGrid 8 p) (hpos : 0 ≤ p)
    (ha : OnGrid 8 a) (h0 : 0 ≤ a) (hle : a ≤ o.remain) : o'.Ranged m := by
  have hprec : m.feePrecOf o' = m.feePrecOf o := by
    unfold feePrecOf Order.isAsk
    rw [hf.side]
  refine ⟨hf.price ▸ h.price, hf.price ▸ h.pos, hf.amount ▸ h.amount, hf.takerFee ▸ h.takerFee,
    hf.makerFee ▸ h.makerFee, ?_, ?_,
    ?_, ?_, ?_, ?_, ?_, ?_, hf.price ▸ h.room.fill hf hp hpos h0 hle⟩
  · rw [hf.remain]
    exact h.remain.sub ha
  · rw [hf.remain]
    exact sub_nonneg.2 hle
  · rw [hf.base, hf.remain, hf.amount, ← h.finished]
    ring
  · rw [hf.base]
    exact add_nonneg h.base h0
  · rw [hf.quote]
    exact h.quote.add (ha.mul hgrid)
  · rw [hf.quote]
    exact add_nonneg h.quotePos (mul_nonneg h0 hpos)
  · rw [hf.fee]
    refine h.fee.add ?_
    by_cases hrate : rate = 0
    · rw [hrate, mul_zero, OnGrid.zero.truncDp_eq]
      exact OnGrid.zero
    · -- a fee is charged, so the digits of its asset fit
      refine (onGrid_truncDp _ _).mono (h.feePrec ?_)
      rcases hf.charged with heq | heq
      · exact .inl (heq ▸ hrate)
      · exact .inr (heq ▸ hrate)
  · rw [hprec, hf.takerFee, hf.makerFee]
    exact h.feePrec

/-- A bid has room at every price that is not above its own. -/
theorem Order.Room.le (h : o.Room v) (hbid : o.side = .bid) (hpv : p ≤ v)
    (hleft : 0 ≤ o.remain) : o.Room p := by
  have hunit : o.unit p = o.unit v := by simp [Order.unit, Order.isAsk, hbid]
  refine ⟨?_, hunit ▸ h.taker, hunit ▸ h.maker⟩
  have := mul_le_mul_of_nonneg_left hpv hleft
  have := h.quote
  linarith

theorem Order.Ranged.of_terms (h : o.Ranged m) (ht : m.SameTerms m') : o.Ranged m' := by
  obtain ⟨h₁, h₂, h₃, h₄, h₅, h₆, h₇, h₈, h₉, h₁₀, h₁₁, h₁₂, h₁₃, h₁₄⟩ := h
  refine ⟨h₁, h₂, h₃, h₄, h₅, h₆, h₇, h₈, h₉, h₁₀, h₁₁, h₁₂, fun hrate => ?_, h₁₄⟩
  unfold feePrecOf
  rw [ht.quotePrec, ht.basePrec]
  exact h₁₃ hrate

/-- Coming to rest changes nothing that the columns are asked for. -/
theorem Order.Ranged.rested (h : o.Ranged m) : o.rested.Ranged m :=
  ⟨h.price, h.pos, h.amount, h.takerFee, h.makerFee, h.remain, h.left, h.finished, h.base, h.quote,
    h.quotePos, h.fee, h.feePrec,
    ⟨h.room.quote, h.room.taker, h.room.maker⟩⟩

/-! ## The steps of a market -/

/-- The order being put is one the columns hold, if it may come to rest, and takes amounts they
hold. -/
structure Taking.Ranged (k : Taking) (m : Market) : Prop where
  remain : OnGrid 8 k.order.remain
  limit : k.order.type_ = .limit → k.order.Ranged m ∧
    (k.order.side = .ask → ∀ id o, m.resting id = some o → o.side = .bid → k.order.Room o.price)
  bid : k.order.type_ = .market → k.order.side = .bid → m.amountPrec ≤ 8 ∧ k.quoteSum ≤ k.quoteLimit

/-- **A market whose orders the columns hold**, with less than `10 ^ 14` of each asset. -/
structure Desk.Ranged (d : Desk) : Prop where
  total : ∀ a, d.ctx.balanceManager.statusTotal a < 10 ^ 14
  resting : ∀ id o, d.market.resting id = some o → o.Ranged d.market
  taking : ∀ k, d.taking = some k → k.Ranged d.market

theorem withheld_nonneg (ts : List Trade) (a : String) : 0 ≤ withheld ts a := by
  refine List.sum_nonneg fun y hy => ?_
  obtain ⟨t, -, rfl⟩ := List.mem_map.1 hy
  unfold Trade.withheld
  refine add_nonneg ?_ ?_
  · split
    · rename_i hfee
      exact hfee.2
    · exact le_rfl
  · split
    · rename_i hfee
      exact hfee.2
    · exact le_rfl

/-- No balance is more than there is of its asset, when none is negative. -/
theorem BalanceManager.getByKey_le_total {bm : BalanceManager} (h : ∀ j, 0 ≤ bm.getByKey j)
    (j : BalanceMapKey) : bm.getByKey j ≤ bm.statusTotal j.asset := by
  have hentry : ∀ k v, bm.balances.find? k = some v →
      (0 : Decimal) ≤ if k.asset = j.asset then v else 0 := by
    intro k v hk
    have hv := h k
    unfold getByKey at hv
    rw [hk] at hv
    split
    · exact hv
    · exact le_rfl
  unfold getByKey statusTotal
  cases hj : bm.balances.find? j with
  | none =>
    refine List.sum_nonneg fun y hy => ?_
    obtain ⟨e, he, rfl⟩ := List.mem_map.1 hy
    exact hentry e.1 e.2 (mem_entries_iff.1 he)
  | some v =>
    have hle := le_hashTally hentry hj
    simpa using hle

/-- What a trade takes is on the grid of the columns, and both orders have it. -/
theorem Desk.Ranged.trade (hr : Desk.Ranged ⟨m, x, some k⟩) (hs : Desk.Solvent ⟨m, x, some k⟩)
    (hmeet : Meets m k rc) (ht : Trades now m x k rc t m' x') :
    OnGrid 8 t.amount ∧ 0 ≤ t.amount ∧ t.amount ≤ k.order.remain ∧
      t.amount ≤ (m.rcs.read rc).remain ∧ (k.order.type_ = .market → k.order.side = .bid →
        k.quoteSum + t.quoteAmount ≤ k.quoteLimit) := by
  have hk := hr.taking k rfl
  have hmaker := hr.resting _ _ hmeet.resting
  have hsound := hs.taking k rfl
  have hrest := hs.resting _ _ hmeet.resting
  obtain ⟨hletaker, hlemaker⟩ := ht.amount_le hmeet hsound hrest
  obtain ⟨hnonneg, hspent⟩ :=
    tradedBaseAmount_nonneg (askOf_remain_nonneg hsound.remain hrest.remain)
    (bidOf_remain_nonneg hsound.remain hrest.remain) (fun hside htype => (hk.bid htype hside).2)
    ht.amount
  refine ⟨?_, hnonneg, hletaker, hlemaker, fun htype hside => ?_⟩
  · refine tradedBaseAmount_onGrid ?_ ?_ (fun hside htype => (hk.bid htype hside).1) ht.amount
    · unfold askOf
      split
      · exact hk.remain
      · exact hmaker.remain
    · unfold bidOf
      split
      · exact hmaker.remain
      · exact hk.remain
  · rw [ht.quoteAmount]
    exact hspent hside htype

/-- An accepted order is one the columns hold. -/
theorem accepted_ranged {input : OrderInput} {ql : Decimal} {id : ℕ} (hd : DeskOK ⟨m, x, none⟩)
    (hs : Desk.Solvent ⟨m, x, none⟩) (hr : Desk.Ranged ⟨m, x, none⟩) (hA : m.ColumnSafe x input)
    (hcheck : m.checkInput E x.balanceManager input user = .ok ())
    (hql : m.quoteLimit x.balanceManager input user = .ok ql) :
    Taking.Ranged ⟨m.newOrder id now input user, ql, 0⟩ m := by
  have ha := checkInput_ok hcheck
  have hamount : 0 ≤ input.amount := le_trans hs.min ha.min
  unfold ColumnSafe at hA
  cases htype : input.type_ with
  | market =>
    rw [htype] at hA
    refine ⟨hA.amount, fun hlim => ?_, fun _ hside => ?_⟩
    · exact absurd (htype.symm.trans hlim) (by simp)
    · obtain ⟨hprec, hbudget⟩ := hA.bid hside
      have hside : input.side = .bid := hside
      have hbalance : 0 ≤ x.balanceManager.get user .available m.quote := hs.available user m.quote
      refine ⟨hprec, ?_⟩
      show 0 ≤ ql
      unfold quoteLimit at hql
      simp only [htype, hside, and_self, if_true] at hql
      split at hql
      · rw [pure_ok] at hql
        exact hql ▸ hbalance
      · simp only [bind_ok, pure_ok, hd.prec.quote, Except.ok.injEq] at hql
        obtain ⟨n, rfl, rfl⟩ := hql
        exact le_min hbalance hbudget
  | limit =>
    rw [htype] at hA
    have hroom : ∀ v, m.TradesAt input v → input.amount * v < 10 ^ 14 →
        (m.newOrder id now input user).Room v := by
      intro v hv hvalue
      have hunit : (m.newOrder id now input user).unit v = if input.side = .ask then v else 1 := by
        unfold Order.unit Order.isAsk newOrder
        simp
      refine ⟨?_, ?_, ?_⟩
      · show (0 : Decimal) + input.amount * v < 10 ^ 14
        rwa [zero_add]
      · rw [hunit]
        show |(0 : Decimal)| + input.amount * _ * |input.takerFee| < 10 ^ 18
        rw [abs_zero, zero_add]
        exact hA.fee v hv _ (by simp)
      · rw [hunit]
        show |(0 : Decimal)| + input.amount * _ * |input.makerFee| < 10 ^ 18
        rw [abs_zero, zero_add]
        exact hA.fee v hv _ (by simp)
    have hvalue : input.amount * input.price < 10 ^ 14 := by
      cases hside : input.side with
      | ask => exact hA.value hside _ (.inl rfl)
      | bid =>
        -- the owner of a bid has its value
        have hbalances := hs.balances hd
        calc input.amount * input.price ≤ x.balanceManager.getByKey ⟨user, .available, m.quote⟩ :=
          ha.bid hside htype
          _ ≤ x.balanceManager.statusTotal m.quote := x.balanceManager.getByKey_le_total hbalances _
          _ < 10 ^ 14 := hr.total m.quote
    refine ⟨hA.amount.digits, fun _ => ⟨?_, ?_⟩, fun hmarket => ?_⟩
    · refine ⟨hA.price, hA.pos, hA.amount, hA.takerFee, hA.makerFee, hA.amount.digits, hamount,
        zero_add _, le_rfl, OnGrid.zero,
        le_rfl, OnGrid.zero, fun hrate => ?_, hroom _ (.inl rfl) hvalue⟩
      have hprec := hA.feePrec hrate
      unfold feePrecOf Order.isAsk newOrder
      simpa using hprec
    · intro hside i o ho hbid
      have hat : m.TradesAt input o.price := .inr ⟨hside, i, o, ho, hbid, rfl⟩
      exact hroom _ hat (hA.value hside _ hat)
    · exact absurd (htype.symm.trans hmarket) (by simp)

/-- The order being put stays one the columns hold when it trades. -/
theorem Trades.takingRanged (hr : Desk.Ranged ⟨m, x, some k⟩) (hs : Desk.Solvent ⟨m, x, some k⟩)
    (hindex : m.IndexOK) (hmeet : Meets m k rc) (ht : Trades now m x k rc t m' x')
    (hterms : m.SameTerms m') : (filledTaking now k t).Ranged m' := by
  obtain ⟨hgrid, h0, hle, -, hspent⟩ := hr.trade hs hmeet ht
  have hk := hr.taking k rfl
  have hmaker := hr.resting _ _ hmeet.resting
  have hfilled := ht.takerFilled
  refine ⟨?_, fun hlim => ?_, fun htype hside => ?_⟩
  · rw [hfilled.remain]
    exact hk.remain.sub hgrid
  · obtain ⟨hranged, hbids⟩ := hk.limit hlim
    have hpos : 0 ≤ t.price := by
      rw [ht.price]
      exact hmaker.pos
    have hroom : k.order.Room t.price := by
      rcases hmeet.sides with ⟨hk, hs⟩ | ⟨hk, hs⟩
      · rw [ht.price]
        exact hbids (isAsk_iff.1 hk) _ _ hmeet.resting hs
      · -- a bid pays no more than its own price
        have hcross := hmeet.crosses hlim
        have hbid : k.order.side = .bid := by
          cases hside : k.order.side with
          | bid => rfl
          | ask => simp [Order.isAsk, hside] at hk
        refine hranged.room.le hbid ?_ hranged.left
        rw [ht.price]
        simpa [askOf, bidOf, hk] using hcross
    refine ⟨(hranged.fill hfilled hroom ?_ hpos hgrid h0 hle).of_terms hterms,
      fun hask id o ho hbid => ?_⟩
    · rw [ht.price]
      exact hmaker.price.digits
    · -- a bid that rests after the trade has the price it had
      obtain ⟨i, o', ho', hbid', hprice⟩ : ∃ i o', m.resting i = some o' ∧ o'.side = .bid ∧
          o'.price = o.price := by
        rw [ht.resting hmeet hindex] at ho
        split at ho
        · obtain rfl := Option.some.inj ho
          exact ⟨_, _, hmeet.resting, hbid, rfl⟩
        · exact ⟨id, o, ho, hbid, rfl⟩
      rw [← hprice]
      exact (hbids hask i o' ho' hbid').fill hfilled hroom hpos h0 hle
  · obtain ⟨hprec, -⟩ := hk.bid htype hside
    rw [hterms.amountPrec]
    exact ⟨hprec, hspent htype hside⟩

/-- **Each step keeps the orders of a market ones the columns hold.** -/
theorem Step.ranged (h : Step E now user ColumnSafe d d') (hd : DeskOK d) (hs : d.Solvent)
    (hr : d.Ranged) : d'.Ranged := by
  have hterms := h.sameTerms
  refine ⟨fun a => ?_, fun id o ho => ?_, fun k' hk' => ?_⟩
  · obtain ⟨ts, hconserved⟩ := h.conserved hd
    rw [hconserved.total]
    have := withheld_nonneg ts a
    have := hr.total a
    linarith
  · rcases h.resting hd ho with ho | ⟨m', x', k, rc, t, hk, -, hmeet, ht, rfl, rfl⟩ |
      ⟨k, hk, -, hlim, -, -, rfl⟩
    · exact (hr.resting id o ho).of_terms hterms
    · obtain ⟨m, x, taking⟩ := d
      obtain rfl : taking = some k := hk
      obtain ⟨hgrid, h0, -, hle, -⟩ := hr.trade hs hmeet ht
      have hmaker := hr.resting _ _ hmeet.resting
      have hroom : (m.rcs.read rc).Room t.price := by
        rw [ht.price]
        exact hmaker.room
      refine (hmaker.fill (ht.makerFilled hmeet) hroom ?_ ?_ hgrid h0 hle).of_terms hterms
      · rw [ht.price]
        exact hmaker.price.digits
      · rw [ht.price]
        exact hmaker.pos
    · exact ((hr.taking k hk).limit hlim).1.rested.of_terms hterms
  · cases h with
    | accept hA hcheck hql =>
      rw [← Option.some.inj hk']
      exact accepted_ranged hd hs hr hA hcheck hql
    | trade hmeet ht =>
      rw [← Option.some.inj hk']
      exact ht.takingRanged hr hs hd.index hmeet hterms
    | finish hrc hz =>
      rw [← Option.some.inj hk']
      have hk := hr.taking _ rfl
      refine ⟨hk.remain,
        fun hlim => ⟨(hk.limit hlim).1.of_terms hterms, fun hask id o ho hbid => ?_⟩, hk.bid⟩
      rw [resting_without] at ho
      split at ho
      · simp at ho
      · exact (hk.limit hlim).2 hask id o ho hbid
    | _ => simp at hk'

/-! ## The controller -/

/-- **A controller whose orders the columns hold**, with less than `10 ^ 14` of each asset. -/
structure Controller.Ranged (c : Controller) : Prop where
  total : ∀ a, c.balanceManager.statusTotal a < 10 ^ 14
  resting : ∀ name m id o, c.markets.find? name = some m → m.resting id = some o → o.Ranged m

/-- A deposit that leaves less than `10 ^ 14` of its asset. -/
def Controller.DepositSafe (E : Env) (c : Controller) (q : Request) : Prop :=
  ∀ req prec p change detail, q.operation = .balanceUpdate req →
    c.balanceManager.assetManager.assetPrecShow req.asset = .ok prec →
    c.balanceManager.assetManager.assetPrec req.asset = .ok p →
    Controller.parseUpdate E prec req = .ok (change, detail) →
    0 ≤ change → c.balanceManager.statusTotal req.asset + roundDp change p < 10 ^ 14

/-- Orders, their trades and their cancellation keep what rests in range. -/
theorem Moves.ranged (hw : ¬w) (h : Moves E now real user w ColumnSafe c c') (hc : ControllerOK b c)
    (hb : c.Backing) (hs : c.Solvent) (hr : c.Ranged) : c'.Ranged := by
  induction h with
  | refl => exact hr
  | @tail c₁ _ hmoves hmove ih =>
    have hc₁ := Moves.ok hmoves hc
    have hb₁ := Moves.backed hmoves hc hb
    have hs₁ := Moves.solvent (fun _ _ _ => ColumnSafe.signed) hmoves hc hb hs
    cases hmove with
    | @market name m m' x' hm hsteps =>
      have hdesk : Desk.Ranged ⟨m, c₁.ctx real, none⟩ :=
        ⟨ih.total, fun id o ho => ih.resting name m id o hm ho, fun k hk => by simp at hk⟩
      have hrun : Desk.Solvent ⟨m', x', none⟩ ∧ Desk.Ranged ⟨m', x', none⟩ := by
        refine Steps.rule (P := fun d => d.Solvent ∧
          d.Ranged) ?_ hsteps ((hc₁.desk name m hm).2 real) ⟨hs₁.desk hc₁ hb₁ hm, hdesk⟩
        rintro d d' hd ⟨hsd, hrd⟩ hstep
        exact ⟨hstep.solvent (fun _ _ _ => ColumnSafe.signed) hd hsd, hstep.ranged hd hsd hrd⟩
      refine ⟨hrun.2.total, fun n mn id o hn ho => ?_⟩
      rw [Controller.find?_withMarket] at hn
      split at hn
      · obtain rfl := Option.some.inj hn
        exact hrun.2.resting id o ho
      · exact ih.resting n mn id o hn ho
    | update hupdates => exact absurd hupdates hw

/-- **A call of such orders and deposits keeps a controller in range.** -/
theorem call_ranged {q : Request} {reply : Except Status Response} (hc : ControllerOK b c)
    (hb : c.Backing) (hs : c.Solvent) (hr : c.Ranged) (hput : c.EachPut E ColumnSafe q)
    (hdeposit : c.DepositSafe E q) (h : c.call E q = .ok (reply, c')) : c'.Ranged := by
  have hlogged : ∀ {d : Controller} (op : Operation), d.Ranged →
      (d.logged q.now q.real op q.user).Ranged := by
    intro d op hd
    obtain ⟨s, l, hl, -, -⟩ := logged_eq d q.now q.real op q.user
    rw [hl]
    exact ⟨hd.total, hd.resting⟩
  by_cases hupdates : q.operation.Updates
  · cases hop : q.operation with
    | balanceUpdate req =>
      unfold Controller.call at h
      rw [hop] at h
      rcases Controller.updateBalance_cases h with ⟨-, rfl⟩ |
        ⟨-, prec, price, change, detail, x', hshow, hparse, -, happlied, rfl⟩
      · exact hr
      · refine hlogged _ ⟨fun a => ?_, hr.resting⟩
        obtain ⟨d, hd⟩ := applyChange_ok hc.gridded happlied.change
        obtain ⟨p, hp⟩ := hd.known
        have htotal := hd.posted.total a
        rw [amountIn_cons, amountIn_nil, add_zero] at htotal
        show x'.balanceManager.statusTotal a < 10 ^ 14
        rw [htotal]
        have hbefore := hr.total a
        split
        · rename_i hasset
          have hasset : req.asset = a := hasset
          subst hasset
          rcases le_or_gt 0 change with hpos | hneg
          · have hsize : |d| = roundDp |change| p := hd.size p hp
            rw [abs_of_nonneg (hd.deposit hpos), abs_of_nonneg hpos] at hsize
            rw [hsize]
            exact hdeposit req prec p change detail hop hshow hp hparse hpos
          · have := (hd.withdraw hneg).1
            show c.balanceManager.statusTotal req.asset + d < 10 ^ 14
            linarith
        · show c.balanceManager.statusTotal a + 0 < 10 ^ 14
          linarith
    | _ => simp [hop, Operation.Updates] at hupdates
  · obtain ⟨c₁, hmoves, hends⟩ := call_moves_each hc hput h
    have hr₁ := hmoves.ranged hupdates hc hb hs hr
    cases hends with
    | refused => exact hr₁
    | logged => exact hlogged _ hr₁

/-! ## Runs -/

/-- **The states along a run of orders and deposits that leave the slices exact**, those in the
middle of a recovery included. -/
inductive DumpRun (E : Env) (settings : Settings) : Controller → Prop
  | init {c : Controller} : createController settings = .ok c → DumpRun E settings c
  | call {c c' : Controller} {q : Request} {reply : Except Status Response} :
      DumpRun E settings c → c.EachPut E ColumnSafe q → c.DepositSafe E q →
      c.call E q = .ok (reply, c') → DumpRun E settings c'
  | reset {c : Controller} : DumpRun E settings c → DumpRun E settings c.resetState
  | load {c d b c₁ : Controller} : DumpRun E settings c → DumpRun E settings d →
      Startable settings d b →
      b.loadSlice E c.dump = .ok c₁ → DumpRun E settings { c₁ with
        sequencer :=
          (c₁.sequencer.setOrderId c.dump.history.endOrderId).setTradeId c.dump.history.endTradeId }
  | recovered {c : Controller} (id : ℕ) : DumpRun E settings c →
      DumpRun E settings { c with sequencer := c.sequencer.setOperationLogId id }

/-- What holds along such a run. -/
structure Controller.KeepsRange (E : Env) (c : Controller) : Prop where
  backing : c.Backing
  solvent : c.Solvent
  ranged : c.Ranged
  storable : c.balanceManager.Storable E

/-- The least amounts of the markets are those of the settings. -/
theorem ControllerOK.min (hb : createController settings = .ok b)
    (hmin : ∀ conf ∈ settings.markets, 0 ≤ conf.minAmount) (hc : ControllerOK b c) {name : String}
    (hm : c.markets.find? name = some m) : 0 ≤ m.minAmount := by
  obtain ⟨m₀, hm₀, hterms⟩ := hc.terms name m hm
  obtain ⟨-, -, hconf⟩ := createController_ok hb
  obtain ⟨conf, hmem, hcreated⟩ := hconf name m₀ hm₀
  rw [hterms.minAmount, hcreated.minAmount]
  exact hmin conf hmem

theorem statusTotal_congr {bm bm' : BalanceManager} (h : ∀ k, bm'.getByKey k = bm.getByKey k)
    (a : String) : bm'.statusTotal a = bm.statusTotal a :=
  hashTally_eq_of_getD (fun _ => ite_self 0) h

/-- A controller without orders and balances. -/
theorem Blank.keepsRange (hblank : c.Blank)
    (hmin : ∀ name m, c.markets.find? name = some m → 0 ≤ m.minAmount)
    (hstorable : c.balanceManager.Storable E) : c.KeepsRange E := by
  refine ⟨Blank.backed hblank, Blank.solvent hblank hmin,
    ⟨fun a => ?_, fun name m id o hm ho => ?_⟩, hstorable⟩
  · have hempty : c.balanceManager.statusTotal a =
        (⟨c.balanceManager.assetManager, ∅⟩ : BalanceManager).statusTotal a :=
      statusTotal_congr (fun k => (hblank.balances k).trans rfl) a
    rw [hempty]
    show (0 : Decimal) < 10 ^ 14
    norm_num
  · rw [(hblank.markets name m hm).resting] at ho
    simp at ho

/-- **The invariant of such a run.** -/
theorem DumpRun.ok (hmin : ∀ conf ∈ settings.markets, 0 ≤ conf.minAmount)
    (h : DumpRun E settings c) :
    ∃ b, createController settings = .ok b ∧ ControllerOK b c ∧ c.KeepsRange E := by
  induction h with
  | init hb =>
    obtain ⟨hok, hblank, -⟩ := createController_ok hb
    exact ⟨_, hb, hok,
      Blank.keepsRange hblank (fun _ _ hm => hok.min hb hmin hm) (storable_of_created hb)⟩
  | call _ hput hdeposit hcall ih =>
    obtain ⟨b, hb, hc, hk⟩ := ih
    have hsolvent :=
      call_solvent (fun _ _ _ => ColumnSafe.signed) hc hk.backing hk.solvent hput hcall
    refine ⟨b, hb, call_ok hc hcall, call_backing hc hk.backing hcall, hsolvent,
      call_ranged hc hk.backing hk.solvent hk.ranged hput hdeposit hcall, ?_⟩
    obtain ⟨c₁, hmoves, hends⟩ := call_moves hc hcall
    have hstorable := hmoves.storable hc hk.storable
    cases hends with
    | refused => exact hstorable
    | logged =>
      obtain ⟨s, l, hl, -⟩ := logged_eq c₁ _ _ _ _
      rw [hl]
      exact hstorable
  | reset _ ih =>
    obtain ⟨b, hb, hc, -⟩ := ih
    obtain ⟨hok, hblank⟩ := resetState_ok hc
    exact ⟨b, hb, hok,
      Blank.keepsRange hblank (fun _ _ hm => hok.min hb hmin hm) (storable_empty _)⟩
  | @load c d b' c₁ _ _ hstart hload ihc ihd =>
    obtain ⟨b, hb, hc, hk⟩ := ihc
    obtain ⟨b₁, hb₁, hd, -⟩ := ihd
    obtain rfl : b = b₁ := Except.ok.inj (hb.symm.trans hb₁)
    obtain ⟨hok, hblank⟩ := hstart.blank hb hd
    have hok₁ := loadSlice_ok hc hok hblank hload
    obtain ⟨hbooks, -⟩ := loadSlice_dump hc hok hblank hload
    -- a loaded order is the one that was dumped
    have hdumped : ∀ name m' id o, c₁.markets.find? name = some m' → m'.resting id = some o →
        ∃ m, c.markets.find? name = some m ∧ m.SameTerms m' ∧ m.resting id = some o := by
      intro name m' id o hm' ho
      obtain ⟨m, hm⟩ := Option.isSome_iff_exists.1 (hbooks.only name m' hm')
      obtain ⟨m'', hm'', hterms, -, hrest⟩ := hbooks.markets name m hm
      obtain rfl : m' = m'' := Option.some.inj (hm'.symm.trans hm'')
      exact ⟨m, hm, hterms, (hrest id).symm.trans ho⟩
    refine ⟨b, hb, hok₁, hbooks.backed hk.backing, ⟨?_, fun _ _ hm => hok₁.min hb hmin hm, ?_⟩,
      ⟨fun a => ?_, ?_⟩, ?_⟩
    · intro k
      exact (hk.solvent.balances k).trans_eq (hbooks.balances k).symm
    · intro name m' id o hm' ho
      obtain ⟨m, hm, -, ho⟩ := hdumped name m' id o hm' ho
      exact hk.solvent.resting name m id o hm ho
    · show c₁.balanceManager.statusTotal a < 10 ^ 14
      rw [statusTotal_congr hbooks.balances]
      exact hk.ranged.total a
    · intro name m' id o hm' ho
      obtain ⟨m, hm, hterms, ho⟩ := hdumped name m' id o hm' ho
      exact (hk.ranged.resting name m id o hm ho).of_terms hterms
    · have hstorable : b'.balanceManager.Storable E := by
        rcases hstart with hnew | rfl
        · exact storable_of_created hnew
        · exact storable_empty _
      have hloaded := loadSlice_storable hstorable hload
      exact hloaded
  | recovered id _ ih =>
    obtain ⟨b, hb, hc, hk⟩ := ih
    exact ⟨b, hb, hc.setOperationLogId id, hk.backing,
      ⟨hk.solvent.balances, hk.solvent.min, hk.solvent.resting⟩,
      ⟨hk.ranged.total, hk.ranged.resting⟩, hk.storable⟩

theorem created_prec (hb : createController settings = .ok b) {n : ℕ}
    (hassets : ∀ item ∈ settings.assets, item.precSave ≤ n) {id : String} {q : ℕ}
    (hq : b.balanceManager.assetManager.assetPrec id = .ok q) : q ≤ n := by
  obtain ⟨-, hafter, -⟩ := createController_assets hb
  obtain ⟨info, hinfo, rfl⟩ := AssetManager.assetPrec_ok.1 hq
  rcases hafter id with ⟨hsame, -⟩ | ⟨item, hitem, -, info', hget, hof⟩
  · rw [hsame] at hinfo
    exact absurd (hinfo.symm.trans (find?_empty id)) (by simp)
  · obtain rfl : info = info' := Option.some.inj (hinfo.symm.trans hget)
    rw [hof.1]
    exact hassets item hitem

/-- **Snapshots hold every number as it is.** In every run whose assets have no more than sixteen
digits, whose orders fit the columns and whose deposits leave less than `10 ^ 14` of an asset,
restarts included, the database holds the dump of the controller exactly. -/
theorem DumpRun.dump_exact (hassets : ∀ item ∈ settings.assets, item.precSave ≤ 16)
    (hmin : ∀ conf ∈ settings.markets, 0 ≤ conf.minAmount)
    (h : DumpRun E settings c) : c.dump.Exact := by
  obtain ⟨b, hb, hc, hk⟩ := h.ok hmin
  refine ⟨fun row hrow => ?_, fun row hrow => ?_⟩
  · have hentry : c.balanceManager.balances.find? row.key = some row.balance :=
      mem_entries_iff.1 (dumpBalance_entries c.balanceManager ▸ List.mem_map.2 ⟨row, hrow, rfl⟩)
    have hbalance : c.balanceManager.getByKey row.key = row.balance := by
      unfold BalanceManager.getByKey
      rw [hentry]
      rfl
    obtain ⟨n, hn⟩ := hk.storable.known row.key (by rw [hentry]; rfl)
    have hle : n ≤ 16 := created_prec hb hassets (hc.assets ▸ hn)
    have hnonneg := hk.solvent.balances row.key
    have htotal := c.balanceManager.getByKey_le_total hk.solvent.balances row.key
    have hgrid := hc.gridded row.key n hn
    rw [hbalance] at hnonneg htotal hgrid
    refine ⟨hgrid.mono hle, ?_⟩
    rw [abs_of_nonneg hnonneg]
    exact htotal.trans_lt (hk.ranged.total _)
  · obtain ⟨name, m, id, o, hm, ho, rfl⟩ := mem_dumpOrders.1 hrow
    have hr := hk.ranged.resting name m id o hm ho
    have hamount : |o.amount| < 10 ^ 22 := hr.amount.range
    rw [← hr.finished, abs_of_nonneg (add_nonneg hr.base hr.left)] at hamount
    have hbase : o.finishedBase = o.amount - o.remain := eq_sub_of_add_eq hr.finished
    refine ⟨hr.price, hr.amount, hr.takerFee, hr.makerFee, ⟨hr.remain, ?_⟩, ⟨?_, ?_⟩,
      ⟨hr.quote, ?_⟩, ⟨hr.fee, ?_⟩⟩
    · show |o.remain| < 10 ^ 22
      rw [abs_of_nonneg hr.left]
      linarith [hr.base]
    · show OnGrid 8 o.finishedBase
      rw [hbase]
      exact hr.amount.digits.sub hr.remain
    · show |o.finishedBase| < 10 ^ 22
      rw [abs_of_nonneg hr.base]
      linarith [hr.left]
    · show |o.finishedQuote| < 10 ^ 14
      rw [abs_of_nonneg hr.quotePos]
      have := mul_nonneg hr.left hr.pos
      linarith [hr.room.quote]
    · show |o.finishedFee| < 10 ^ 18
      have := mul_nonneg (mul_nonneg hr.left (o.unit_nonneg hr.pos)) (abs_nonneg o.takerFee)
      linarith [hr.room.taker]

/-! ### Samples -/

/-- A deposit of 1000 into an exchange without balances. -/
theorem sampleDeposit_safe (hempty : ∀ a, c.balanceManager.statusTotal a = 0) :
    c.DepositSafe releaseEnv (requestAt 0 alice (depositOf "USDT" 1 "1000")) := by
  intro req prec p change detail hop _ _ hparse _
  obtain rfl : _ = req := Operation.balanceUpdate.inj hop
  have hgrid : ∀ n : ℕ, OnGrid n 1000 := fun n => ⟨1000 * 10 ^ n, by field_simp; push_cast; ring⟩
  rcases Controller.parseUpdate_cases releaseEnv prec _ with ⟨-, st, herr⟩ |
    ⟨delta, detail', hdelta, hok, -⟩
  · exact absurd (herr.symm.trans hparse) (by simp)
  · have hread : releaseEnv.decimalFromStr "1000" = some 1000 := by decide +kernel
    obtain rfl : 1000 = delta := Option.some.inj (hread.symm.trans hdelta)
    have hchange : (roundDp 1000 prec, detail') = (change, detail) :=
      Except.ok.inj (hok.symm.trans hparse)
    rw [Prod.mk.injEq] at hchange
    rw [← hchange.1, (hgrid prec).roundDp_eq, (hgrid p).roundDp_eq, hempty]
    norm_num

/-- A bid of 2 at 100 in a market whose base asset has six digits. -/
theorem sampleBid_columnSafe (hprec : m.basePrec = 6) {input : OrderInput}
    (hinput : OrderInput.tryFrom releaseEnv (limitOrder .bid "2" "100") = .ok input) :
    m.ColumnSafe x input := by
  have h : (OrderInput.tryFrom releaseEnv (limitOrder .bid "2" "100")).toOption.any
      (fun input => decide
      (input.type_ = .limit ∧ input.side = .bid ∧ input.price = 100 ∧ input.amount = 2 ∧
        input.takerFee = 1 / 1000 ∧
        input.makerFee = 1 / 1000)) = true := by decide +kernel
  rw [hinput] at h
  simp only [Except.toOption, Option.any_some, decide_eq_true_eq] at h
  obtain ⟨htype, hside, hprice, hamount, htaker, hmaker⟩ := h
  have hfee : DecimalColumn.Holds ⟨30, 4⟩ (1 / 1000) := ⟨⟨10, by norm_num⟩, by norm_num⟩
  unfold ColumnSafe
  rw [htype]
  refine ⟨?_, ?_, ?_, htaker ▸ hfee, hmaker ▸ hfee, fun _ => ?_, fun hask => ?_,
    fun p _ rate hrate => ?_⟩
  · rw [hprice]
    exact ⟨⟨100 * 10 ^ 8, by norm_num⟩, by norm_num⟩
  · rw [hprice]
    norm_num
  · rw [hamount]
    exact ⟨⟨2 * 10 ^ 8, by norm_num⟩, by norm_num⟩
  · rw [if_neg (by simp [hside]), hprec]
    norm_num
  · simp [hside] at hask
  · have hrate : rate = 1 / 1000 := by simpa [htaker, hmaker] using hrate
    rw [if_neg (by simp [hside]), hamount, hrate]
    norm_num

theorem DumpRun.dump_exact_bid :
    ∃ c, DumpRun releaseEnv sampleSettings c ∧ c.dump.orders.length = 1 ∧ c.dump.Exact := by
  have h : (sampleRun releaseEnv (sampleBid "100") >>= fun c => pure c.dump.orders.length) =
      (.ok 1 : Except Panic ℕ) := by
    decide +kernel
  have hmarket : (createController sampleSettings >>= fun c => do
      let deposit ← c.call releaseEnv (requestAt 0 alice (depositOf "USDT" 1 "1000"))
      pure ((deposit.2.markets.find? "ETH_USDT").map Market.basePrec)) = (.ok (some 6) :
        Except Panic (Option ℕ)) := by decide +kernel
  simp only [bind_ok, pure_ok] at h
  obtain ⟨c, hc, hone⟩ := h
  obtain ⟨c₀, replies, hb, hcalls⟩ := sampleRun_ok hc
  simp only [sampleBid, Controller.calls, bind_ok, pure_ok, Prod.mk.injEq] at hcalls
  obtain ⟨⟨reply₁, c₁⟩, hdeposit, ⟨_, _⟩, ⟨⟨reply₂, c₂⟩, hbid, ⟨_, _⟩, hlast, -, rfl⟩, -, rfl⟩ :=
    hcalls
  obtain ⟨-, rfl⟩ := hlast
  simp only [bind_ok, pure_ok] at hmarket
  obtain ⟨c₀', hb', ⟨reply', c₁'⟩, hdeposit', hprec⟩ := hmarket
  obtain rfl : c₀ = c₀' := Except.ok.inj (hb.symm.trans hb')
  obtain ⟨-, rfl⟩ := Prod.mk.inj (Except.ok.inj (hdeposit.symm.trans hdeposit'))
  obtain ⟨-, hblank, -⟩ := createController_ok hb
  have hempty : ∀ a, c₀.balanceManager.statusTotal a = 0 := by
    intro a
    have hsame : c₀.balanceManager.statusTotal a =
        (⟨c₀.balanceManager.assetManager, ∅⟩ : BalanceManager).statusTotal a :=
      statusTotal_congr (fun k => (hblank.balances k).trans rfl) a
    rw [hsame]
    rfl
  have hput : c₀.EachPut releaseEnv ColumnSafe (requestAt 0 alice (depositOf "USDT" 1 "1000")) :=
    trivial
  have hrun₁ : DumpRun releaseEnv sampleSettings c₁ :=
    .call (.init hb) hput (sampleDeposit_safe hempty) hdeposit
  have hput₂ : c₁.EachPut releaseEnv ColumnSafe
      (requestAt 1 alice (.orderPut (limitOrder .bid "2" "100"))) := by
    intro m input hm hinput _
    have hm : c₁.markets.find? "ETH_USDT" = some m := hm
    rw [hm] at hprec
    exact sampleBid_columnSafe (Option.some.inj hprec) hinput
  have hrun₂ : DumpRun releaseEnv sampleSettings c₂ := by
    refine .call hrun₁ hput₂ (fun req _ _ _ _ hop => ?_) hbid
    cases hop
  exact ⟨c₂, hrun₂, hone, hrun₂.dump_exact (by decide +kernel) (by decide +kernel)⟩

/-- **The digits of a fee rate are not checked**: a bid that rests has one that its column
rounds. -/
theorem not_dump_exact : ¬ ∀ E settings c, Reachable E settings c → c.dump.Exact := by
  intro hall
  have h : (sampleRun releaseEnv [requestAt 0 alice (depositOf "USDT" 1 "1000"),
      requestAt 1 alice (.orderPut { limitOrder .bid "2" "100" with makerFee := "0.00001" })]
      >>= fun c => pure (c.dump.orders.map OrderSlice.makerFee)) = (.ok [1 / 100000] :
        Except Panic (List Decimal)) := by
    decide +kernel
  simp only [bind_ok, pure_ok] at h
  obtain ⟨c, hc, hrates⟩ := h
  obtain ⟨row, hrow, hrate⟩ : ∃ row ∈ c.dump.orders, row.makerFee = 1 / 100000 := by
    refine List.mem_map.1 ?_
    rw [hrates]
    simp
  obtain ⟨n, hn⟩ := ((hall _ _ _ (sampleRun_reachable hc)).orders row hrow).makerFee.digits
  rw [hrate] at hn
  -- ten times an integer is not one
  have hint : (n : ℚ) * 10 = 1 := by
    have hn : (1 : ℚ) / 100000 = n / 10 ^ 4 := hn
    field_simp at hn
    linarith
  have hint : n * 10 = 1 := by exact_mod_cast hint
  omega

end Dingir
