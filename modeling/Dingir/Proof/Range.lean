import Dingir.Proof.Columns
import Dingir.Proof.Duplicate
import Dingir.Proof.Exact
import Dingir.Spec.Range

/-!
# The arithmetic of an order

An operator of `Decimal` panics when its result is out of range, and `put_order` multiplies what the
request says before it looks at a balance. `Market.PutComputes` are the results of all operators an
order that is put comes to, also where a later step does not return.

- `MatchState.Room`: a round with room for its trade, on both orders and on the accounts.
- `MatchState.Room.values`, `UpdateComputes.inRange`: what it computes is in range.
- `putComputes_terms`: nothing is computed of an order before its terms are checked.
-/

namespace Dingir

open Keyed Rounding Posting Outcome Market

/-! ## What is computed -/

namespace Market

/-- The round of the maker behind `rc` gets to Step 3. -/
structure MatchState.Offers (s : MatchState) (rc : OrderRc) : Prop where
  takerOpen : s.taker.remain ≠ 0
  crosses : s.taker.type_ = .limit →
    (askOf s.taker (s.market.rcs.read rc)).price ≤ (bidOf s.taker (s.market.rcs.read rc)).price
  notPostOnly : s.taker.postOnly = false
  notOwn : ¬s.Own rc

/-- The most a round can trade. -/
def MatchState.offered (s : MatchState) (rc : OrderRc) : Decimal :=
  min (askOf s.taker (s.market.rcs.read rc)).remain (bidOf s.taker (s.market.rcs.read rc)).remain

/-- The results when what is left of an order comes to rest: what it freezes, and both balances. -/
def restValues (m : Market) (bm : BalanceManager) (o : Order) (prec : ℕ) : List Decimal :=
  [o.restFrozen, bm.getByKey (m.payAccount o) - roundDp o.restFrozen prec,
    bm.getByKey (m.backAccount o) + roundDp o.restFrozen prec]

/-- **The results of the operators `put_order` comes to.** A filled maker releases nothing when it
is finished; from one with something left anything could be computed. -/
inductive PutComputes (E : Env) (now : Timestamp) (u : Uuid) (m : Market) (x : Ctx)
    (input : OrderInput) : Decimal → Prop
  | cost : m.checkTerms input = .ok () → input.side = .bid → input.type_ = .limit →
      PutComputes E now u m x input (input.amount * input.price)
  | budget {ql v : Decimal} {rc : OrderRc} {s : MatchState} : Comes E now u m x input ql rc s →
      s.Offers rc →
      s.taker.side = .bid → s.taker.type_ = .market →
      v ∈ budgetValues (s.market.rcs.read rc) (s.offered rc) ql s.quoteSum →
      PutComputes E now u m x input v
  | trade {ql amount v : Decimal} {rc : OrderRc} {s : MatchState} :
      Comes E now u m x input ql rc s → Generates s ql rc amount →
      v ∈ tradeValues (s.nextTrade now rc amount) s.taker (s.market.rcs.read rc) s.quoteSum →
      PutComputes E now u m x input v
  | settle {ql amount v : Decimal} {rc : OrderRc} {s : MatchState}
      {before after : List (BalanceMapKey × Decimal)}
      {leg : BalanceMapKey × Decimal} {y : Ctx} : Comes E now u m x input ql rc s →
      Generates s ql rc amount →
      (s.nextTrade now rc amount).postings s.market s.taker.isAsk = before ++ leg :: after →
      settleLegs E now s.market (s.nextTrade now rc amount).id before s.settleCtx = .ok y →
      UpdateComputes E now y (legParams s.market (s.nextTrade now rc amount).id leg) v →
      PutComputes E now u m x input v
  | shown {ql amount : Decimal} {rc : OrderRc} {s : MatchState} {y : Ctx} {user : Uuid}
      {asset : String} : Comes E now u m x input ql rc s → Generates s ql rc amount →
      y = s.settleCtx ∨
        settle E now s.settleCtx s.market s.taker.isAsk (s.nextTrade now rc amount) = .ok y →
      PutComputes E now u m x input (y.balanceManager.total user asset)
  | finish {ql v : Decimal} {s : MatchState} {o : Order} : Loops E now u m x input ql s →
      o ∈ s.finishedOrders → o.remain ≠ 0 →
      PutComputes E now u m x input v
  | rest {ql v : Decimal} {s : MatchState} {mx : Market × Ctx} {prec : ℕ} :
      Loops E now u m x input ql s → s.needCancel = false →
      s.taker.type_ = .limit → s.taker.remain ≠ 0 →
      s.finishedOrders.foldlM (fun (mx : Market × Ctx) item => mx.1.orderFinish E mx.2 item)
        (s.market, s.ctx) = .ok mx →
      mx.2.balanceManager.assetManager.assetPrec (m.payAsset s.taker) = .ok prec →
      v ∈ m.restValues mx.2.balanceManager s.taker prec → PutComputes E now u m x input v

end Market

/-- **A maker that can trade** `a` more: it has nothing negative, and its sums have room for the
trade. -/
structure Order.Takes (o : Order) (a : Decimal) : Prop where
  left : 0 ≤ o.remain
  price : 0 ≤ o.price
  remain : InRange o.remain
  frozen : InRange o.restFrozen
  base : |o.finishedBase| + a ≤ maxDecimal
  quote : |o.finishedQuote| + o.price * a ≤ maxDecimal
  fee : |o.finishedFee| + o.unit o.price * a * |o.makerFee| ≤ maxDecimal

variable {E : Env} {now : Timestamp} {u : Uuid} {ql amount v y : Decimal} {n : ℕ}
  {bm bm' : BalanceManager} {k : BalanceMapKey} {m : Market} {x : Ctx} {rc : OrderRc}
  {s s' : MatchState} {o : Order} {t : Trade} {input : OrderInput} {g : String → Decimal}

theorem InRange.of_nonneg (h0 : 0 ≤ v) (h : v ≤ maxDecimal) : InRange v :=
  (abs_of_nonneg h0).trans_le h

theorem InRange.between {lo hi : Decimal} (hlo : -maxDecimal ≤ lo) (hhi : hi ≤ maxDecimal)
    (h₁ : lo ≤ v) (h₂ : v ≤ hi) : InRange v :=
  abs_le.2 ⟨hlo.trans h₁, h₂.trans hhi⟩

/-! ## One trade -/

/-- A fee is no more than what it is cut from. -/
theorem afterFee_le (h : 0 ≤ amount) (y : Decimal) : max (afterFee amount y) 0 ≤ amount := by
  refine max_le ?_ h
  unfold afterFee
  split
  · exact sub_le_self amount ‹_›
  · exact le_rfl

/-- What is left of an amount after a fee in range is in range. -/
theorem afterFeeValues_inRange (h0 : 0 ≤ amount) (h : amount ≤ maxDecimal) (hy : |y| ≤ maxDecimal) :
    ∀ v ∈ afterFeeValues amount (truncDp y n), InRange v := by
  intro v hv
  unfold afterFeeValues at hv
  split at hv
  · rename_i hfee
    obtain rfl := List.mem_singleton.1 hv
    have hle : truncDp y n ≤ maxDecimal := (le_abs_self _).trans ((abs_truncDp_le y n).trans hy)
    exact .between le_rfl h (by linarith) (sub_le_self amount hfee)
  · simp at hv

theorem afterFee_inRange (h0 : 0 ≤ amount) (h : amount ≤ maxDecimal) (hy : |y| ≤ maxDecimal) :
    InRange (afterFee amount (truncDp y n)) := by
  unfold afterFee
  split
  · rename_i hfee
    exact afterFeeValues_inRange (y := y) (n := n) h0 h hy _ (by simp [afterFeeValues, hfee])
  · exact .of_nonneg h0 h

/-- An order with room for a trade is filled in range. -/
theorem fillValues_inRange (h0 : 0 ≤ t.amount) (hq : 0 ≤ t.quoteAmount) (hle : t.amount ≤ o.remain)
    (hremain : InRange o.remain) (hbase : |o.finishedBase| + t.amount ≤ maxDecimal)
    (hquote : |o.finishedQuote| + t.quoteAmount ≤ maxDecimal)
    (hfee : |o.finishedFee| + |y| ≤ maxDecimal) :
    ∀ v ∈ fillValues o t (truncDp y n), InRange v := by
  intro v hv
  simp only [fillValues, List.mem_cons, List.not_mem_nil, or_false] at hv
  rcases hv with rfl | rfl | rfl | rfl
  · refine .of_nonneg (sub_nonneg.2 hle) ?_
    have := (abs_le.1 hremain).2
    linarith
  · exact (abs_add_le _ _).trans (by rwa [abs_of_nonneg h0])
  · exact (abs_add_le _ _).trans (by rwa [abs_of_nonneg hq])
  · exact (abs_add_le _ _).trans ((add_le_add le_rfl (abs_truncDp_le y n)).trans hfee)

/-- **A round that has room for its trade**, on both orders. -/
structure Market.MatchState.Room (s : MatchState) (rc : OrderRc) (amount : Decimal) : Prop where
  nonneg : 0 ≤ amount
  taker : amount ≤ s.taker.remain
  maker : amount ≤ (s.market.rcs.read rc).remain
  takerRange : InRange s.taker.remain
  sum : |s.quoteSum| + (s.market.rcs.read rc).price * amount ≤ maxDecimal
  base : |s.taker.finishedBase| + amount ≤ maxDecimal
  quote : |s.taker.finishedQuote| + (s.market.rcs.read rc).price * amount ≤ maxDecimal
  fee : |s.taker.finishedFee| + s.taker.unit (s.market.rcs.read rc).price * amount *
    |s.taker.takerFee| ≤ maxDecimal
  takes : (s.market.rcs.read rc).Takes amount

namespace Market.MatchState.Room

variable (h : s.Room rc amount)
include h

theorem amount_le : amount ≤ maxDecimal := by
  have := h.base
  have := abs_nonneg s.taker.finishedBase
  linarith

theorem quote_nonneg : 0 ≤ (s.market.rcs.read rc).price * amount :=
  mul_nonneg h.takes.price h.nonneg

theorem quote_le : (s.market.rcs.read rc).price * amount ≤ maxDecimal := by
  have := h.sum
  have := abs_nonneg s.quoteSum
  linarith

section Sides

variable
  (hsides : s.taker.isAsk = true ∧ (s.market.rcs.read rc).side = .bid ∨
    s.taker.isAsk = false ∧ (s.market.rcs.read rc).side = .ask)
include hsides

variable (now)

/-- What the fees of the trade are cut from leaves room on the order that pays it. -/
theorem fees :
    |(if s.taker.isAsk then s.market.rcs.read rc else s.taker).finishedFee| +
      |(s.nextTrade now rc amount).amount *
        if s.taker.isAsk then (s.market.rcs.read rc).makerFee else s.taker.takerFee| ≤ maxDecimal ∧
      |(if s.taker.isAsk then s.taker else s.market.rcs.read rc).finishedFee| +
        |(s.nextTrade now rc amount).quoteAmount *
        if s.taker.isAsk then s.taker.takerFee
        else (s.market.rcs.read rc).makerFee| ≤ maxDecimal := by
  have htaker := h.fee
  have hmaker := h.takes.fee
  have hamount : |(s.nextTrade now rc amount).amount| = amount := abs_of_nonneg h.nonneg
  have hquote : |(s.nextTrade now rc amount).quoteAmount| = (s.market.rcs.read rc).price * amount :=
    abs_of_nonneg h.quote_nonneg
  rw [abs_mul, abs_mul, hamount, hquote]
  unfold Order.unit at htaker hmaker
  rcases hsides with ⟨hask, hs⟩ | ⟨hask, hs⟩
  · rw [if_pos hask] at htaker
    rw [if_neg (by simp [Order.isAsk, hs]), one_mul] at hmaker
    simp only [hask, if_true]
    exact ⟨hmaker, htaker⟩
  · rw [if_neg (by simp [hask]), one_mul] at htaker
    rw [if_pos (by simp [Order.isAsk, hs])] at hmaker
    simp only [hask, Bool.false_eq_true, if_false]
    exact ⟨htaker, hmaker⟩

/-- What rests of the maker stays frozen. -/
theorem frozen (hback : (s.market.rcs.read rc).frozen = (s.market.rcs.read rc).restFrozen) :
    InRange ((s.market.rcs.read rc).frozen -
      if s.taker.isAsk then (s.nextTrade now rc amount).quoteAmount
      else (s.nextTrade now rc amount).amount) := by
  have hfrozen := h.takes.frozen
  have hquote : (s.nextTrade now rc amount).quoteAmount = (s.market.rcs.read rc).price * amount :=
    rfl
  have hamount : (s.nextTrade now rc amount).amount = amount := rfl
  have hleft : (s.market.rcs.read rc).remain - amount ≤ (s.market.rcs.read rc).remain :=
    sub_le_self _ h.nonneg
  rw [hback, hquote, hamount]
  unfold Order.restFrozen at hfrozen ⊢
  rcases hsides with ⟨hask, hs⟩ | ⟨hask, hs⟩
  · simp only [hask, hs, reduceCtorEq, if_false, if_true] at hfrozen ⊢
    have hrest : (s.market.rcs.read rc).remain * (s.market.rcs.read rc).price -
        (s.market.rcs.read rc).price * amount =
        ((s.market.rcs.read rc).remain - amount) * (s.market.rcs.read rc).price := by ring
    rw [hrest]
    refine .of_nonneg (mul_nonneg (sub_nonneg.2 h.maker) h.takes.price)
      (le_trans ?_ (abs_le.1 hfrozen).2)
    exact mul_le_mul_of_nonneg_right hleft h.takes.price
  · simp only [hask, hs, Bool.false_eq_true, if_false, if_true] at hfrozen ⊢
    exact .of_nonneg (sub_nonneg.2 h.maker) (hleft.trans (abs_le.1 hfrozen).2)

/-- **A trade with room is computed in range.** -/
theorem values (hback : (s.market.rcs.read rc).frozen = (s.market.rcs.read rc).restFrozen) :
    ∀ v ∈ tradeValues (s.nextTrade now rc amount) s.taker (s.market.rcs.read rc) s.quoteSum,
      InRange v := by
  obtain ⟨hbid, hask⟩ := h.fees now hsides
  have hfrozen := h.frozen now hsides hback
  have hquote : |(s.nextTrade now rc amount).quoteAmount| = (s.market.rcs.read rc).price * amount :=
    abs_of_nonneg h.quote_nonneg
  have hbidCut : (s.nextTrade now rc amount).bidFee = truncDp ((s.nextTrade now rc amount).amount *
      if s.taker.isAsk then (s.market.rcs.read rc).makerFee
      else s.taker.takerFee) s.market.basePrec := rfl
  have haskCut :
      (s.nextTrade now rc amount).askFee = truncDp ((s.nextTrade now rc amount).quoteAmount *
      if s.taker.isAsk then s.taker.takerFee
      else (s.market.rcs.read rc).makerFee) s.market.quotePrec := rfl
  have hbidFee := (le_add_of_nonneg_left (abs_nonneg _)).trans hbid
  have haskFee := (le_add_of_nonneg_left (abs_nonneg _)).trans hask
  intro v hv
  simp only [tradeValues, List.mem_append, List.mem_cons, List.not_mem_nil, or_false] at hv
  rcases hv with ((((((rfl | rfl | rfl | rfl) | hv) | hv) | hv) | hv) | rfl)
  · exact .of_nonneg h.quote_nonneg h.quote_le
  · exact (abs_add_le _ _).trans (by rw [hquote]; exact h.sum)
  · exact hbidFee
  · exact haskFee
  · -- the taker is filled
    have hfill := fun y n => fillValues_inRange (t := s.nextTrade now rc amount) (y := y) (n := n)
      h.nonneg h.quote_nonneg h.taker h.takerRange h.base h.quote
    rcases hsides with ⟨hs, -⟩ | ⟨hs, -⟩
    · simp only [hs, if_true, haskCut] at hv hask
      exact hfill _ _ hask v hv
    · simp only [hs, Bool.false_eq_true, if_false, hbidCut] at hv hbid
      exact hfill _ _ hbid v hv
  · -- the maker is filled
    have hfill := fun y n => fillValues_inRange (t := s.nextTrade now rc amount) (y := y) (n := n)
      h.nonneg h.quote_nonneg h.maker h.takes.remain h.takes.base h.takes.quote
    rcases hsides with ⟨hs, -⟩ | ⟨hs, -⟩
    · simp only [hs, if_true, hbidCut] at hv hbid
      exact hfill _ _ hbid v hv
    · simp only [hs, Bool.false_eq_true, if_false, haskCut] at hv hask
      exact hfill _ _ hask v hv
  · exact afterFeeValues_inRange h.nonneg h.amount_le hbidFee v hv
  · exact afterFeeValues_inRange h.quote_nonneg h.quote_le haskFee v hv
  · exact hfrozen

/-- And so are the amounts it posts. -/
theorem sizes :
    ∀ leg ∈ (s.nextTrade now rc amount).postings s.market s.taker.isAsk, InRange leg.2 := by
  obtain ⟨hbid, hask⟩ := h.fees now hsides
  intro leg hleg
  simp only [Trade.postings, List.mem_cons, List.not_mem_nil, or_false] at hleg
  rcases hleg with rfl | rfl | rfl | rfl
  · exact afterFee_inRange h.nonneg h.amount_le ((le_add_of_nonneg_left (abs_nonneg _)).trans hbid)
  · exact (abs_neg _).trans_le (InRange.of_nonneg h.nonneg h.amount_le)
  · exact afterFee_inRange h.quote_nonneg h.quote_le
      ((le_add_of_nonneg_left (abs_nonneg _)).trans hask)
  · exact (abs_neg _).trans_le (InRange.of_nonneg h.quote_nonneg h.quote_le)

end Sides

end Market.MatchState.Room

/-! ## Balances -/

/-- No balance is negative, and none is above what `g` may have brought to its asset. -/
structure BalanceManager.Holds (bm : BalanceManager) (g : String → Decimal) : Prop where
  nonneg : ∀ k, 0 ≤ bm.getByKey k
  balance : ∀ k, bm.getByKey k ≤ 10 ^ 18 + g k.asset
  total : ∀ u a, bm.total u a ≤ 2 * 10 ^ 18 + g a

/-- Balances below `10 ^ 18`. -/
theorem BalanceManager.holds_of_lt (h0 : ∀ k, 0 ≤ bm.getByKey k)
    (h : ∀ k, bm.getByKey k < 10 ^ 18) : bm.Holds fun _ => 0 := by
  refine ⟨h0, fun k => ?_, fun u a => ?_⟩
  · linarith [h k]
  · have h₁ := h ⟨u, .available, a⟩
    have h₂ := h ⟨u, .freeze, a⟩
    show bm.getByKey ⟨u, .available, a⟩ + bm.getByKey ⟨u, .freeze, a⟩ ≤ _
    linarith

/-- Postings bring no account more than they bring to its asset. -/
theorem BalanceManager.Holds.posted {l : List (BalanceMapKey × Decimal)} {g' : String → Decimal}
    (h : bm.Holds g) (hp : Posted bm bm' l) (hkeeps : ∀ j, 0 ≤ bm.getByKey j → 0 ≤ bm'.getByKey j)
    (hg : ∀ a, g a + gainIn (fun k => k.asset = a) l ≤ g' a) : bm'.Holds g' := by
  refine ⟨fun k => hkeeps k (h.nonneg k), fun k => ?_, fun u a => ?_⟩
  · have hgain : amountIn (· = k) l ≤ gainIn (fun j => j.asset = k.asset) l :=
      amountIn_le_gainIn (fun j hj => hj ▸ rfl) l
    rw [hp.balance]
    linarith [h.balance k, hg k.asset]
  · have hsplit := amountIn_split (P := (· = (⟨u, .available, a⟩ : BalanceMapKey)))
      (Q := (· = ⟨u, .freeze, a⟩))
      (R := fun j => j = ⟨u, .available, a⟩ ∨ j = ⟨u, .freeze, a⟩) (fun _ => Iff.rfl)
      (fun j hj => by simp [hj]) l
    have hgain : amountIn (fun j => j = (⟨u, .available, a⟩ : BalanceMapKey) ∨
        j = ⟨u, .freeze, a⟩) l ≤
        gainIn (fun j => j.asset = a) l :=
          amountIn_le_gainIn (fun j hj => by rcases hj with rfl | rfl <;> rfl) l
    have htotal : bm.getByKey ⟨u, .available, a⟩ + bm.getByKey ⟨u, .freeze, a⟩ ≤
        2 * 10 ^ 18 + g a := h.total u a
    show bm'.getByKey ⟨u, .available, a⟩ + bm'.getByKey ⟨u, .freeze, a⟩ ≤ _
    rw [hp.balance, hp.balance]
    linarith [hg a]

theorem BalanceManager.Holds.total_nonneg (h : bm.Holds g) (w : Uuid)
    (a : String) : 0 ≤ bm.total w a :=
  Left.add_nonneg (h.nonneg ⟨w, .available, a⟩) (h.nonneg ⟨w, .freeze, a⟩)

/-- The sums that are recorded are in range where there is room for them. -/
theorem BalanceManager.Holds.inRange {w : Uuid} {a : String} (h : bm.Holds g)
    (hroom : 2 * 10 ^ 18 + g a ≤ maxDecimal) :
    InRange (bm.total w a) := .of_nonneg (h.total_nonneg w a) ((h.total w a).trans hroom)

/-! ## A settlement -/

/-- The change of a leg is on the grid of its asset. -/
def LegOnGrid (bm : BalanceManager) (leg : BalanceMapKey × Decimal) : Prop :=
  ∃ p, bm.assetManager.assetPrec leg.1.asset = .ok p ∧ OnGrid p leg.2

/-- The legs of a trade on the grids of its market are on those of their assets. -/
theorem postings_onGrid (h : t.OnGrids m) (hp : m.PrecOK bm.assetManager) (b : Bool) :
    ∀ leg ∈ t.postings m b, LegOnGrid bm leg := by
  have hlegs : t.postings m b =
      (t.legs m b).map fun l => (⟨l.user, l.balanceType, l.asset⟩, l.change) := rfl
  rw [hlegs]
  intro leg hleg
  obtain ⟨l, hl, rfl⟩ := List.mem_map.1 hleg
  exact h.legs hp b l hl

/-- Legs that are settled are posted. -/
theorem settleLegs_posted {id : ℕ} {legs : List (BalanceMapKey × Decimal)} {z : Ctx}
    (hg : Gridded x.balanceManager) (hlegs : ∀ leg ∈ legs, LegOnGrid x.balanceManager leg)
    (h : settleLegs E now m id legs x = .ok z) :
    Posted x.balanceManager z.balanceManager legs ∧ Gridded z.balanceManager ∧
      ∀ j, 0 ≤ x.balanceManager.getByKey j → 0 ≤ z.balanceManager.getByKey j := by
  unfold settleLegs at h
  induction legs generalizing x with
  | nil =>
    rw [List.foldlM_nil, pure_ok] at h
    subst h
    exact ⟨.refl _, hg, fun _ hj => hj⟩
  | cons leg legs ih =>
    rw [List.foldlM_cons, bind_ok] at h
    obtain ⟨x₁, hone, h⟩ := h
    obtain ⟨p, hp, hgrid⟩ := hlegs leg List.mem_cons_self
    have hleg := settleOne_ok hg hp hgrid hone
    have hrest : ∀ l ∈ legs, LegOnGrid x₁.balanceManager l := by
      intro l hl
      unfold LegOnGrid
      rw [hleg.posted.assets]
      exact hlegs l (List.mem_cons_of_mem _ hl)
    obtain ⟨hposted, hgridded, hkeeps⟩ := ih hleg.gridded hrest h
    exact ⟨hleg.posted.trans hposted, hgridded, fun j hj => hkeeps j (hleg.keeps j hj)⟩

/-- **A leg is computed in range** where there is room for what it brings. -/
theorem UpdateComputes.inRange {id : ℕ} {leg : BalanceMapKey × Decimal}
    (h : UpdateComputes E now x (legParams m id leg) v) (hg : Gridded x.balanceManager)
    (hleg : LegOnGrid x.balanceManager leg) (hsize : InRange leg.2) (hh : x.balanceManager.Holds g)
    (hroom : ∀ a, 2 * 10 ^ 18 + (g a + gainIn (fun k => k.asset = a) [leg]) ≤ maxDecimal) :
    InRange v := by
  obtain ⟨p, hp, hgrid⟩ := hleg
  have hold := hh.balance leg.1
  have hold0 := hh.nonneg leg.1
  have hasset := hroom leg.1.asset
  have hgain : gainIn (fun k => k.asset = leg.1.asset) [leg] = max leg.2 0 := by
    show (if leg.1.asset = leg.1.asset then max leg.2 0 else 0) + 0 = _
    rw [if_pos rfl, add_zero]
  have hpos := le_max_right leg.2 0
  rw [hgain] at hasset
  have hround : ∀ {q}, x.balanceManager.assetManager.assetPrec leg.1.asset = .ok q →
      roundDp |leg.2| q = |leg.2| := by
    intro q hq
    obtain rfl : p = q := Except.ok.inj (hp.symm.trans hq)
    exact hgrid.abs.roundDp_eq
  cases h with
  | size =>
    show |(|leg.2|)| ≤ maxDecimal
    rwa [abs_abs]
  | added _ hq hchange =>
    have hchange : 0 ≤ leg.2 := hchange
    show InRange (x.balanceManager.getByKey leg.1 + roundDp |leg.2| _)
    rw [hround hq, abs_of_nonneg hchange]
    rw [max_eq_left hchange] at hasset
    exact .of_nonneg (add_nonneg hold0 hchange) (by linarith)
  | taken _ hq hchange hcover =>
    have hcover : |leg.2| ≤ x.balanceManager.getByKey leg.1 := hcover
    show InRange (x.balanceManager.getByKey leg.1 - roundDp |leg.2| _)
    rw [hround hq]
    refine .of_nonneg (sub_nonneg.2 hcover) ?_
    have := abs_nonneg leg.2
    linarith
  | @recorded bm _ hchange _ _ =>
    obtain ⟨d, hd⟩ := applyChange_ok hg hchange
    obtain rfl : d = leg.2 := hd.exact p hp hgrid
    have hafter : bm.Holds fun a => g a + gainIn (fun k => k.asset = a) [leg] :=
      hh.posted hd.posted (fun j => hd.keeps) fun a => le_rfl
    exact hafter.inRange (hroom _)

/-- A trade brings its amounts to the assets of the market. -/
theorem gainIn_postings (h0 : 0 ≤ t.amount) (hq : 0 ≤ t.quoteAmount) (b : Bool) (a : String) :
    gainIn (fun k => k.asset = a) (t.postings m b) ≤ (if m.base = a then t.amount else 0) +
      if m.quote = a then t.quoteAmount else 0 := by
  have hbase := afterFee_le h0 t.bidFee
  have hquote := afterFee_le hq t.askFee
  have hpaid : max (-t.amount) 0 = 0 := max_eq_right (neg_nonpos.2 h0)
  have hpaidQuote : max (-t.quoteAmount) 0 = 0 := max_eq_right (neg_nonpos.2 hq)
  simp only [Trade.postings, gainIn_cons, gainIn_nil, hpaid, hpaidQuote, ite_self, add_zero,
    zero_add]
  refine add_le_add ?_ ?_
  · split
    · exact hbase
    · exact le_rfl
  · split
    · exact hquote
    · exact le_rfl

/-! ## A put -/

/-- The budget of a market bid is computed in range where the trade it would like is. -/
theorem budgetValues_inRange {qs : Decimal} (hp : 0 ≤ o.price) (h0 : 0 ≤ amount)
    (hle : amount ≤ maxDecimal) (hqs : 0 ≤ qs) (hspent : qs ≤ ql) (hql : ql ≤ 10 ^ 18)
    (hsum : qs + o.price * amount ≤ maxDecimal) : ∀ v ∈ budgetValues o amount ql qs, InRange v := by
  have hcost : 0 ≤ o.price * amount := mul_nonneg hp h0
  have hmax : (10 : Decimal) ^ 18 ≤ maxDecimal := by norm_num [maxDecimal]
  intro v hv
  simp only [budgetValues, List.mem_append, List.mem_cons, List.not_mem_nil, or_false] at hv
  rcases hv with (rfl | rfl) | hv
  · exact .of_nonneg hcost (by linarith)
  · exact .of_nonneg (add_nonneg hqs hcost) hsum
  · split at hv
    · rename_i hover
      -- more than the budget is asked for, so the price is positive
      have hpos : 0 < o.price := by
        rcases hp.lt_or_eq with hlt | heq
        · exact hlt
        · rw [← heq, zero_mul, add_zero] at hover
          exact absurd hspent (not_le.2 hover)
      have hquotient : (ql - qs) / o.price ≤ amount := by
        rw [div_le_iff₀ hpos]
        linarith
      simp only [List.mem_cons, List.not_mem_nil, or_false] at hv
      rcases hv with rfl | rfl
      · exact .of_nonneg (sub_nonneg.2 hspent) (by linarith)
      · exact .of_nonneg (div_nonneg (sub_nonneg.2 hspent) hp) (hquotient.trans hle)
    · simp at hv

/-- Removing filled makers changes no balance. -/
theorem finish_balances {items : List Order} {y y' : Market × Ctx} (hz : ∀ o ∈ items, o.remain = 0)
    (h : items.foldlM (fun (mx : Market × Ctx) item => mx.1.orderFinish E mx.2 item) y = .ok y') :
    y'.2.balanceManager = y.2.balanceManager := by
  let P (items : List Order) (z : Market × Ctx) : Prop :=
    (∀ o ∈ items, o.remain = 0) ∧ z.2.balanceManager = y.2.balanceManager
  suffices hend : P [] y' from hend.2
  refine foldlM_rule (P := P) ?_ items y y' ⟨hz, rfl⟩ h
  rintro o items z ⟨m', x'⟩ ⟨hz, hsame⟩ hfinish
  obtain ⟨-, bm, hbm, rfl⟩ := orderFinish_ok hfinish
  exact ⟨fun p hp => hz p (List.mem_cons_of_mem _ hp),
    (unfrozenBalance_filled (hz o List.mem_cons_self) hbm).trans hsame⟩

/-- The terms are checked first, and then the balance. -/
theorem checkInput_eq (E : Env) (m : Market) (bm : BalanceManager) (input : OrderInput)
    (user : Uuid) :
    m.checkInput E bm input user =
      (m.checkTerms input >>= fun _ => m.checkBalance E bm input user) := by
  simp only [checkInput, checkTerms, bind_assoc]

/-- An order that is refused for its terms computes nothing. -/
theorem putComputes_terms (h : m.PutComputes E now u x input v) : m.checkTerms input = .ok () := by
  have haccepted : m.checkInput E x.balanceManager input u = .ok () →
      m.checkTerms input = .ok () := by
    intro hcheck
    rw [checkInput_eq, bind_ok] at hcheck
    obtain ⟨_, hterms, -⟩ := hcheck
    exact hterms
  cases h with
  | cost hterms => exact hterms
  | budget hcomes => exact haccepted hcomes.accepted
  | trade hcomes => exact haccepted hcomes.accepted
  | settle hcomes => exact haccepted hcomes.accepted
  | shown hcomes => exact haccepted hcomes.accepted
  | finish hloop => exact haccepted hloop.accepted
  | rest hloop => exact haccepted hloop.accepted

end Dingir
