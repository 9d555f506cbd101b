import Dingir.Proof.Assets

/-!
# The precisions of the markets

A market copies the precisions of its two assets when it is made, and checks its own
against them once. The orders of a market have the digits it allows, on whatever
balances, and so has what is traded between them and what they freeze
(`Market.OrdersOnGrids`). As long as no reload changes the stored precision of an
asset of a live market, the copies stay what the asset manager has, and it rounds
none of these amounts (`Operated.precs_valid`); **a reload that does change one takes
them apart** (`not_precs_valid`).

Nothing is assumed of the balances here. An asset that is in no market may lose
digits at a reload, and its balances are then off its grid.
-/

namespace Dingir

open Keyed Outcome Rounding Market

/-- The amounts of an order have the digits of its market. -/
structure Order.OnGrids (o : Order) (m : Market) : Prop where
  remain : OnGrid m.amountPrec o.remain
  price : OnGrid m.pricePrec o.price
  frozen : OnGrid (if o.isAsk then m.amountPrec else m.amountPrec + m.pricePrec) o.frozen

/-- The amounts of a trade have the digits of its market. -/
structure Trade.OnGrids (t : Trade) (m : Market) : Prop where
  market : t.market = m.name
  amount : OnGrid m.amountPrec t.amount
  quoteAmount : OnGrid (m.amountPrec + m.pricePrec) t.quoteAmount
  bidFee : OnGrid m.basePrec t.bidFee
  askFee : OnGrid m.quotePrec t.askFee

/-- **The orders of a market are on its grids**, and its two sides hold orders of their side. -/
structure Market.OrdersOnGrids (m : Market) : Prop where
  orders : ∀ rc, (m.rcs.read rc).OnGrids m
  asks : ∀ (k : MarketKeyAsk) (rc : OrderRc), m.asks[k]? = some rc → rc < m.rcs.next ∧
    (m.rcs.read rc).isAsk = true
  bids : ∀ (k : MarketKeyBid) (rc : OrderRc), m.bids[k]? = some rc → rc < m.rcs.next ∧
    (m.rcs.read rc).isAsk = false

/-- From `a` to `b`: the orders stay on the grids, and so are the trades told. -/
structure StayOnGrids (a b : Market × Ctx) : Prop where
  terms : a.1.SameTerms b.1
  orders : b.1.OrdersOnGrids
  trades : ∃ ts, b.2.persistor.trades = a.2.persistor.trades ++ ts ∧ ∀ t ∈ ts, t.OnGrids a.1

variable {E : Env} {settings : Settings} {now : Timestamp} {real : Bool} {u : Uuid}
  {am : AssetManager} {m m' : Market} {x x' : Ctx} {o o' : Order} {t : Trade} {c c' : Controller}

theorem Order.OnGrids.of_terms (h : o.OnGrids m) (ht : m.SameTerms m') : o.OnGrids m' := by
  obtain ⟨h₁, h₂, h₃⟩ := h
  exact ⟨ht.amountPrec ▸ h₁, ht.pricePrec ▸ h₂, by rw [ht.amountPrec, ht.pricePrec]; exact h₃⟩

theorem Trade.OnGrids.of_terms (h : t.OnGrids m) (ht : m.SameTerms m') : t.OnGrids m' := by
  obtain ⟨h₁, h₂, h₃, h₄, h₅⟩ := h
  exact ⟨ht.name ▸ h₁, ht.amountPrec ▸ h₂, by rw [ht.amountPrec, ht.pricePrec]; exact h₃,
    ht.basePrec ▸ h₄, ht.quotePrec ▸ h₅⟩

theorem StayOnGrids.refl {a : Market × Ctx} (h : a.1.OrdersOnGrids) : StayOnGrids a a :=
  ⟨.refl _, h, [], by simp, by simp⟩

theorem StayOnGrids.trans {a b d : Market × Ctx} (h : StayOnGrids a b)
    (h' : StayOnGrids b d) : StayOnGrids a d := by
  obtain ⟨ts, hts, hall⟩ := h.trades
  obtain ⟨ts', hts', hall'⟩ := h'.trades
  refine ⟨h.terms.trans h'.terms, h'.orders, ts ++ ts', by rw [hts', hts, List.append_assoc],
    fun t ht => ?_⟩
  rcases List.mem_append.1 ht with ht | ht
  · exact hall t ht
  · exact (hall' t ht).of_terms h.terms.symm

/-! ## What the balance manager makes of them -/

/-- The amounts a trade moves are not rounded. -/
theorem Trade.OnGrids.exact (h : t.OnGrids m) (hp : m.PrecOK am) (takerIsAsk : Bool) :
    ∀ l ∈ t.legs m takerIsAsk, ∃ p, am.assetPrec l.asset = .ok p ∧
      roundDp |l.change| p = |l.change| := by
  have hbase : OnGrid m.basePrec t.amount := h.amount.mono hp.amount_le
  have hquote : OnGrid m.quotePrec t.quoteAmount := h.quoteAmount.mono hp.sum_le
  intro l hl
  simp only [Trade.legs, List.mem_cons, List.not_mem_nil, or_false] at hl
  rcases hl with rfl | rfl | rfl | rfl
  · exact ⟨_, hp.base, (onGrid_afterFee hbase h.bidFee).abs.roundDp_eq⟩
  · exact ⟨_, hp.base, hbase.neg.abs.roundDp_eq⟩
  · exact ⟨_, hp.quote, (onGrid_afterFee hquote h.askFee).abs.roundDp_eq⟩
  · exact ⟨_, hp.quote, hquote.neg.abs.roundDp_eq⟩

/-- What an order has frozen is not rounded. -/
theorem Order.OnGrids.exact (h : o.OnGrids m) (hp : m.PrecOK am) :
    ∃ p, am.assetPrec (m.payAsset o) = .ok p ∧ roundDp o.frozen p = o.frozen := by
  refine ⟨m.payPrec o, hp.pay o, OnGrid.roundDp_eq ?_⟩
  have hfrozen := h.frozen
  unfold Market.payPrec
  by_cases hs : o.isAsk = true
  · rw [if_pos hs] at hfrozen ⊢
    exact hfrozen.mono hp.amount_le
  · rw [if_neg hs] at hfrozen ⊢
    exact hfrozen.mono hp.sum_le

/-! ## Trades -/

namespace Market

variable {ql amount : Decimal} {rc : OrderRc} {s s' : MatchState}

/-- A settlement tells no trade. -/
theorem settle_trades {takerIsAsk : Bool} (h : settle E now x m takerIsAsk t = .ok x') :
    x'.persistor.trades = x.persistor.trades := by
  have hone : ∀ {x x' tradeId bt u a v}, settleOne E now x m tradeId bt u a v = .ok x' →
      x'.persistor.trades = x.persistor.trades := by
    intro x x' tradeId bt u a v h
    unfold settleOne at h
    obtain ⟨⟨res, y⟩, hu, h⟩ := bind_ok.1 h
    rcases updateUserBalance_cases hu with ⟨⟨e, rfl⟩, -⟩ | ⟨rfl, happ⟩
    · exact absurd h throw_ok
    · simp only [pure_ok] at h
      exact h ▸ (persistUpdate_trades happ.persistor).1
  simp only [settle, bind_ok] at h
  obtain ⟨x₁, h₁, x₂, h₂, x₃, h₃, h₄⟩ := h
  exact (hone h₄).trans ((hone h₃).trans ((hone h₂).trans (hone h₁)))

/-- A trade is told at most, by a real persistor. -/
theorem persistTrade_tells (pe : PersistExector) (t : Trade) (maker : Order) :
    ∃ ts, (persistTrade pe t maker).trades = pe.trades ++ ts ∧ ∀ t' ∈ ts, t' = t := by
  cases pe with
  | real ms => exact ⟨[t], persistTrade_trades rfl t maker, by simp⟩
  | dummy =>
    refine ⟨[], ?_, by simp⟩
    unfold persistTrade
    split <;> rfl

/-- A maker is changed: it keeps its side. -/
theorem OrdersOnGrids.write (h : m.OrdersOnGrids) (rc : OrderRc) (ho : o.OnGrids m)
    (hside : o.isAsk = (m.rcs.read rc).isAsk) (price : Decimal) :
    (m.afterTrade rc o price).OrdersOnGrids := by
  have hterms : m.SameTerms (m.afterTrade rc o price) :=
    ⟨rfl, rfl, rfl, rfl, rfl, rfl, rfl, rfl, rfl, rfl, rfl⟩
  have hread : ∀ r, (m.afterTrade rc o price).rcs.read r = if r = rc then o else m.rcs.read r :=
    fun r => m.rcs.write_read rc r o
  have hsides : ∀ r, ((m.afterTrade rc o price).rcs.read r).isAsk = (m.rcs.read r).isAsk := by
    intro r
    rw [hread]
    by_cases hr : r = rc
    · rw [if_pos hr, hr]
      exact hside
    · rw [if_neg hr]
  refine ⟨fun r => ?_, fun k r hr => ?_, fun k r hr => ?_⟩
  · rw [hread]
    split
    · exact ho.of_terms hterms
    · exact (h.orders r).of_terms hterms
  · rw [hsides]
    exact h.asks k r hr
  · rw [hsides]
    exact h.bids k r hr

/-- The state of the loop, with what is left of the taker. -/
structure LoopOnGrids (m : Market) (x : Ctx) (takerIsAsk : Bool) (l : List OrderRc)
    (s : MatchState) : Prop where
  stay : StayOnGrids (m, x) (s.market, s.ctx)
  taker : s.taker.OnGrids s.market
  takerSide : s.taker.isAsk = takerIsAsk
  makers : ∀ rc ∈ l, (s.market.rcs.read rc).isAsk = !takerIsAsk

theorem executeTrade_onGrids {takerIsAsk : Bool} {rcs : List OrderRc}
    (hs : LoopOnGrids m x takerIsAsk (rc :: rcs) s) (hamount : OnGrid s.market.amountPrec amount)
    (h : executeTrade E now ql rc amount s = .ok s') : LoopOnGrids m x takerIsAsk rcs s' := by
  unfold executeTrade at h
  simp only [bind_ok] at h
  obtain ⟨_, -, _, -, _, -, _, -, _, -, _, -, y, hsettle, h⟩ := h
  rw [pure_ok] at h
  set maker := s.market.rcs.read rc with hmaker
  set t := createTrade now s.market s.ctx.sequencer.nextTradeId.1 (s.taker.touched now)
    (maker.touched now) amount with ht
  have htrades := settle_trades hsettle
  have hgrid := hs.stay.orders.orders rc
  have hquote : OnGrid (s.market.amountPrec + s.market.pricePrec) (maker.price * amount) := by
    rw [mul_comm]
    exact hamount.mul hgrid.price
  have htrade : t.OnGrids s.market := ⟨rfl, hamount, hquote, onGrid_truncDp _ _, onGrid_truncDp _ _⟩
  have hside : maker.isAsk = !takerIsAsk := hs.makers rc (by simp)
  have htakerSide : (s.taker.touched now).isAsk = takerIsAsk := hs.takerSide
  -- what the trade releases has the digits of what the maker has frozen
  have hmaker' : (releaseOrder (fillOrder (maker.touched now) t
      (if (s.taker.touched now).isAsk = true then t.bidFee else t.askFee))
      (if (s.taker.touched now).isAsk = true then t.quoteAmount else t.amount)).OnGrids
      s.market := by
    refine ⟨hgrid.remain.sub hamount, hgrid.price, ?_⟩
    have hfrozen := hgrid.frozen
    rw [htakerSide]
    cases takerIsAsk with
    | true =>
      have hbid : maker.isAsk = false := hside
      rw [if_neg (by rw [← hmaker, hbid]; simp)] at hfrozen
      show OnGrid (if maker.isAsk then _ else _) (maker.frozen - t.quoteAmount)
      rw [if_neg (by rw [hbid]; simp)]
      exact hfrozen.sub hquote
    | false =>
      have hask : maker.isAsk = true := hside
      rw [if_pos (by rw [← hmaker, hask])] at hfrozen
      show OnGrid (if maker.isAsk then _ else _) (maker.frozen - t.amount)
      rw [if_pos hask]
      exact hfrozen.sub hamount
  subst h
  have horders := hs.stay.orders.write rc hmaker' rfl t.price
  have hterms :
      s.market.SameTerms (s.market.afterTrade rc (releaseOrder (fillOrder (maker.touched now) t
      (if (s.taker.touched now).isAsk = true then t.bidFee else t.askFee))
      (if (s.taker.touched now).isAsk = true then t.quoteAmount else t.amount)) t.price) :=
    ⟨rfl, rfl, rfl, rfl, rfl, rfl, rfl, rfl, rfl, rfl, rfl⟩
  refine ⟨hs.stay.trans ⟨hterms, horders, ?_⟩, ?_, hs.takerSide, fun r hr => ?_⟩
  · obtain ⟨ts, hts, hall⟩ := persistTrade_tells y.persistor _ _
    refine ⟨ts, hts.trans (by rw [htrades]), fun t' ht' => ?_⟩
    rw [hall t' ht']
    exact ⟨htrade.market, htrade.amount, htrade.quoteAmount, htrade.bidFee, htrade.askFee⟩
  · exact ⟨hs.taker.remain.sub hamount, hs.taker.price, hs.taker.frozen⟩
  · have hkeep := hs.makers r (List.mem_cons_of_mem _ hr)
    show ((s.market.rcs.write rc _).read r).isAsk = _
    rw [Heap.write_read]
    by_cases hrc : r = rc
    · rw [if_pos hrc]
      exact hside
    · rw [if_neg hrc]
      exact hkeep

theorem loop_onGrids {takerIsAsk : Bool} {rcs : List OrderRc}
    (hs : LoopOnGrids m x takerIsAsk rcs s) (h : forBreak (matchMaker E now ql) rcs s = .ok s') :
    StayOnGrids (m, x) (s'.market, s'.ctx) ∧ s'.taker.OnGrids s'.market := by
  refine forBreak_rule (P := fun l t => LoopOnGrids m x takerIsAsk l t)
    (Q := fun t => StayOnGrids (m, x) (t.market, t.ctx) ∧
      t.taker.OnGrids t.market) (fun _ ht => ⟨ht.stay, ht.taker⟩)
    ?_ ?_ _ _ _ hs h
  · intro rc rest t t' ht hround
    rcases matchMaker_cases hround with ⟨b, hd, -⟩ | ⟨amount, t₁, hy, htries, htrade⟩
    · cases hd
    · obtain rfl : t' = t₁ := ForInStep.yield.inj hy
      have hmaker := (ht.stay.orders.orders rc).remain
      refine executeTrade_onGrids ht (tradedBaseAmount_grid ?_ ?_ htries.amount) htrade
      · unfold askOf
        split
        · exact ht.taker.remain
        · exact hmaker
      · unfold bidOf
        split
        · exact hmaker
        · exact ht.taker.remain
  · intro rc rest t t' ht hround
    rcases matchMaker_cases hround with ⟨b, hd, -⟩ | ⟨amount, t₁, hy, -, -⟩
    · obtain rfl := ForInStep.done.inj hd
      exact ⟨ht.stay, ht.taker⟩
    · cases hy

/-! ## Removal and insertion -/

theorem orderFinish_onGrids (hm : m.OrdersOnGrids) (h : m.orderFinish E x o = .ok (m', x')) :
    StayOnGrids (m, x) (m', x') := by
  obtain ⟨rfl, bm, -, rfl⟩ := orderFinish_ok h
  have hterms : m.SameTerms (m.without o) := ⟨rfl, rfl, rfl, rfl, rfl, rfl, rfl, rfl, rfl, rfl, rfl⟩
  refine ⟨hterms, ⟨fun r => (hm.orders r).of_terms hterms, fun k r hr => hm.asks k r ?_,
    fun k r hr => hm.bids k r ?_⟩, [],
    by simp, by simp⟩
  · simp only [without] at hr
    split at hr
    · rw [getElem?_erase] at hr
      split at hr
      · simp at hr
      · exact hr
    · exact hr
  · simp only [without] at hr
    split at hr
    · exact hr
    · rw [getElem?_erase] at hr
      split at hr
      · simp at hr
      · exact hr

theorem finish_onGrids {items : List Order} {a a' : Market × Ctx} (ha : a.1.OrdersOnGrids)
    (h : items.foldlM (fun (mx : Market × Ctx) item => mx.1.orderFinish E mx.2 item) a = .ok a') :
    StayOnGrids a a' :=
  foldlM_rule (P := fun _ b => StayOnGrids a b)
    (fun _ _ b _ hb hone => hb.trans (orderFinish_onGrids (m := b.1) (x := b.2) hb.orders hone)) _ _
    _ (.refl ha) h

/-- An order comes to rest, on its side and in a fresh cell. -/
theorem OrdersOnGrids.withRest (hm : m.OrdersOnGrids) (ho : o.OnGrids m) :
    (m.withRest o).OrdersOnGrids := by
  have hterms : m.SameTerms (m.withRest o) :=
    ⟨rfl, rfl, rfl, rfl, rfl, rfl, rfl, rfl, rfl, rfl, rfl⟩
  have hold : ∀ {r}, r < m.rcs.next → (m.withRest o).rcs.read r = m.rcs.read r :=
    m.rcs.alloc_read_of_lt o
  refine ⟨fun r => ?_, fun k r hr => ?_, fun k r hr => ?_⟩
  · show ((m.rcs.alloc o).2.read r).OnGrids _
    by_cases hr : r = m.rcs.next
    · rw [hr, Heap.alloc_read_self]
      exact ho.of_terms hterms
    · rw [show (m.rcs.alloc o).2.read r = m.rcs.read r from Function.update_of_ne hr _ _]
      exact (hm.orders r).of_terms hterms
  · have hcase : (o.isAsk = true ∧ r = m.rcs.next) ∨ m.asks[k]? = some r := by
      simp only [Market.withRest] at hr
      split at hr
      · rename_i hs
        rw [getElem?_insert] at hr
        split at hr
        · exact .inl ⟨isAsk_iff.2 hs, (Option.some.inj hr).symm⟩
        · exact .inr hr
      · exact .inr hr
    rcases hcase with ⟨hs, rfl⟩ | hr
    · exact ⟨Nat.lt_succ_self _, by rw [withRest_read_self]; exact hs⟩
    · obtain ⟨hlt, hs⟩ := hm.asks k r hr
      exact ⟨hlt.trans (Nat.lt_succ_self _), by rw [hold hlt]; exact hs⟩
  · have hcase : (o.isAsk = false ∧ r = m.rcs.next) ∨ m.bids[k]? = some r := by
      simp only [Market.withRest] at hr
      split at hr
      · exact .inr hr
      · rename_i hs
        rw [getElem?_insert] at hr
        split at hr
        · exact .inl ⟨by simpa [Order.isAsk] using hs, (Option.some.inj hr).symm⟩
        · exact .inr hr
    rcases hcase with ⟨hs, rfl⟩ | hr
    · exact ⟨Nat.lt_succ_self _, by rw [withRest_read_self]; exact hs⟩
    · obtain ⟨hlt, hs⟩ := hm.bids k r hr
      exact ⟨hlt.trans (Nat.lt_succ_self _), by rw [hold hlt]; exact hs⟩

theorem insertOrder_onGrids (hm : m.OrdersOnGrids) (ho : o.OnGrids m)
    (h : m.insertOrderIntoOrderbook E o = .ok (o', m')) : m.SameTerms m' ∧ m'.OrdersOnGrids := by
  obtain ⟨-, rfl, rfl⟩ := insertOrder_iff.1 h
  refine ⟨⟨rfl, rfl, rfl, rfl, rfl, rfl, rfl, rfl, rfl, rfl, rfl⟩,
    hm.withRest ⟨ho.remain, ho.price, ?_⟩⟩
  show OnGrid (if o.isAsk then m.amountPrec else m.amountPrec + m.pricePrec) o.restFrozen
  unfold Order.restFrozen
  by_cases hs : o.side = .ask
  · rw [if_pos hs, if_pos (isAsk_iff.2 hs)]
    exact ho.remain
  · rw [if_neg hs, if_neg (fun hc => hs (isAsk_iff.1 hc))]
    exact ho.remain.mul ho.price

theorem endOrder_onGrids (hm : m.OrdersOnGrids) (ho : s.taker.OnGrids m)
    (h : endOrder E s m x = .ok (o, m', x')) : StayOnGrids (m, x) (m', x') := by
  have hclosed : ∀ {o m' x'},
      (pure (s.taker, m, ({ x with persistor := x.persistor.putOrder s.taker .finish } : Ctx)) :
      Except Panic (Order × Market × Ctx)) = .ok (o, m', x') → StayOnGrids (m, x) (m', x') := by
    intro o m' x' he
    simp only [pure_ok, Prod.mk.injEq] at he
    obtain ⟨-, rfl, rfl⟩ := he
    exact ⟨.refl _, hm, [], by simp, by simp⟩
  unfold endOrder at h
  split at h
  · exact hclosed h
  split at h
  · exact hclosed h
  split at h
  · exact hclosed h
  simp only [bind_ok, pure_ok, Prod.mk.injEq] at h
  obtain ⟨⟨o₁, m₁⟩, hinsert, bm, -, -, rfl, rfl⟩ := h
  obtain ⟨hterms, horders⟩ := insertOrder_onGrids hm ho hinsert
  exact ⟨hterms, horders, [], by simp, by simp⟩

/-! ## The methods of a market -/

theorem executeOrder_onGrids (hm : m.OrdersOnGrids) (ho : o.OnGrids m)
    (h : m.executeOrder E now x o ql = .ok (o', m', x')) : StayOnGrids (m, x) (m', x') := by
  rw [executeOrder_eq] at h
  obtain ⟨s, hloop, h⟩ := bind_ok.1 h
  obtain ⟨mx, hfinish, h⟩ := bind_ok.1 h
  have hmakers : ∀ rc ∈ m.counterOrders o, (m.rcs.read rc).isAsk = !o.isAsk := by
    intro rc hrc
    unfold counterOrders at hrc
    by_cases hs : o.isAsk = true
    · rw [if_pos hs] at hrc
      obtain ⟨k, hk⟩ := mem_values.1 hrc
      rw [hs]
      exact (hm.bids k rc hk).2
    · rw [if_neg hs] at hrc
      obtain ⟨k, hk⟩ := mem_values.1 hrc
      rw [Bool.eq_false_iff.2 hs]
      exact (hm.asks k rc hk).2
  have hput : StayOnGrids (m, x) (m, { x with persistor := x.persistor.putOrder o .put }) :=
    ⟨.refl _, hm, [], by simp, by simp⟩
  have hbegin : LoopOnGrids m x o.isAsk (m.counterOrders o)
      { market := m, ctx := { x with persistor := x.persistor.putOrder o .put }, taker := o,
        quoteSum := 0,
        finishedOrders := [], needCancel := false } := ⟨hput, ho, rfl, hmakers⟩
  obtain ⟨hstay, htaker⟩ := loop_onGrids hbegin hloop
  have hfinish := finish_onGrids hstay.orders hfinish
  exact (hstay.trans hfinish).trans
    (endOrder_onGrids hfinish.orders (htaker.of_terms hfinish.terms) h)

theorem putOrder_onGrids {input : OrderInput} {res : Except String Order} (hm : m.OrdersOnGrids)
    (h : m.putOrder E now x input u = .ok (res, m', x')) : StayOnGrids (m, x) (m', x') := by
  unfold putOrder at h
  split at h
  · simp only [pure_ok, Prod.mk.injEq] at h
    obtain ⟨-, rfl, rfl⟩ := h
    exact .refl hm
  · rename_i hcheck
    simp only [bind_ok, pure_ok, Prod.mk.injEq] at h
    obtain ⟨ql, -, ⟨o, m₁, x₁⟩, hexec, -, rfl, rfl⟩ := h
    have haccepted := checkInput_ok hcheck
    have hstay :=
      executeOrder_onGrids hm ⟨haccepted.amountGrid, haccepted.priceGrid, OnGrid.zero⟩ hexec
    exact ⟨hstay.terms, hstay.orders, hstay.trades⟩

theorem cancel_onGrids {id : ℕ} (hm : m.OrdersOnGrids) (h : m.cancel E x id = .ok (o, m', x')) :
    StayOnGrids (m, x) (m', x') := by
  simp only [cancel, bind_ok, pure_ok, Prod.mk.injEq] at h
  obtain ⟨p, -, ⟨m₁, x₁⟩, hfinish, -, rfl, rfl⟩ := h
  exact orderFinish_onGrids hm hfinish

theorem cancelAllForUser_onGrids {n : ℕ} (hm : m.OrdersOnGrids)
    (h : m.cancelAllForUser E x u = .ok (n, m', x')) : StayOnGrids (m, x) (m', x') := by
  simp only [cancelAllForUser, bind_ok, pure_ok, Prod.mk.injEq] at h
  obtain ⟨mx, hloop, -, rfl, rfl⟩ := h
  refine foldlM_rule (P := fun _ b => StayOnGrids (m, x) b) (fun id _ b b' hb hone => ?_) _ _ _
    (.refl hm) hloop
  obtain ⟨p, -, hfinish⟩ := bind_ok.1 hone
  exact hb.trans (orderFinish_onGrids (m := b.1) (x := b.2) hb.orders hfinish)

theorem Method.onGrids (hm : m.OrdersOnGrids) (h : m.Method E x m' x') :
    StayOnGrids (m, x) (m', x') := by
  cases h with
  | put h => exact putOrder_onGrids hm h
  | cancel h => exact cancel_onGrids hm h
  | cancelAll h => exact cancelAllForUser_onGrids hm h

/-- A market without orders, in whose heap nothing but the default was. -/
theorem ordersOnGrids_of_empty (hrcs : m.rcs = Heap.empty default) (hasks : m.asks = ∅)
    (hbids : m.bids = ∅) : m.OrdersOnGrids := by
  refine ⟨fun rc => ?_, fun k rc hk => ?_, fun k rc hk => ?_⟩
  · rw [hrcs]
    refine ⟨OnGrid.zero, OnGrid.zero, ?_⟩
    exact OnGrid.zero
  · rw [hasks] at hk
    simp at hk
  · rw [hbids] at hk
    simp at hk

end Market

/-! ## The precisions of the markets -/

/-- A reload leaves the stored precisions of the assets of live markets as the markets have them. -/
def KeepsPrecs (c : Controller) (assets : Fetch AssetDesc) : Prop :=
  assets.error = none → ∀ row ∈ assets.rows, ∀ name m, c.markets.find? name = some m →
    (row.id = m.base → row.precisionStor = m.basePrec) ∧
    (row.id = m.quote → row.precisionStor = m.quotePrec)

/-- What `AssetManager.After` needs to know of the rows that were loaded. -/
theorem KeepsPrecs.loaded {assets : Fetch AssetDesc} (h : KeepsPrecs c assets) {name : String}
    (hm : c.markets.find? name = some m) {item : AssetConf} (hitem : item ∈ assets.loaded) :
    (item.id = m.base → item.precSave = m.basePrec) ∧
      (item.id = m.quote → item.precSave = m.quotePrec) := by
  unfold Fetch.loaded at hitem
  cases herror : assets.error with
  | some e => simp [herror] at hitem
  | none =>
    simp only [herror, Option.isNone_none, if_true] at hitem
    obtain ⟨row, hrow, rfl⟩ := List.mem_map.1 hitem
    exact h herror row hrow name m hm

/-- A market whose precisions stay what they are in the asset manager. -/
theorem Market.PrecOK.after {l : List AssetConf} (h : m.PrecOK am) (ham : am.After l am')
    (hbase : ∀ item ∈ l, item.id = m.base → item.precSave = m.basePrec)
    (hquote : ∀ item ∈ l, item.id = m.quote → item.precSave = m.quotePrec) : m.PrecOK am' :=
  ⟨ham.assetPrec h.base hbase, ham.assetPrec h.quote hquote, h.amount_le, h.sum_le⟩

/-- Every market agrees with the asset manager on its precisions. -/
def Controller.PrecsOK (c : Controller) : Prop :=
  ∀ name m, c.markets.find? name = some m → m.PrecOK c.balanceManager.assetManager

theorem Controller.Framed.precsOK (h : c.Framed c') (hc : c.PrecsOK) : c'.PrecsOK := by
  intro name m' hm'
  have hrel := h.markets name
  rw [hm'] at hrel
  generalize ha : c.markets.find? name = a at hrel
  cases hrel with
  | @some m _ hm =>
    rw [show c'.balanceManager.assetManager =
      c.balanceManager.assetManager from h.ctx.balances.assets]
    exact (hc name m ha).of_terms hm.terms

theorem Operated.precsOK (h : Operated E settings KeepsPrecs recovers c) : c.PrecsOK := by
  refine h.rule (I := Controller.PrecsOK) (fun d hd name m hm => ?_)
    (fun d d' hd hframe => hframe.precsOK hd) (fun d assets d' hd hP hload name m hm => ?_)
  · obtain ⟨-, -, hcreated⟩ := createController_ok hd
    obtain ⟨conf, -, hcr⟩ := hcreated name m hm
    exact hcr.prec
  · rcases hload.markets name m hm with hold | ⟨-, -, conf, hcr⟩
    · exact (hd name m hold).after hload.assets (fun item hitem => (hP.loaded hold hitem).1)
        fun item hitem => (hP.loaded hold hitem).2
    · exact hcr.prec

/-! ## Engines in operation -/

/-- The markets of a controller are on their grids, and so is every trade it has told. -/
structure Controller.OnGrids (c : Controller) : Prop where
  markets : ∀ name m, c.markets.find? name = some m → m.name = name ∧ m.OrdersOnGrids
  trades : ∀ t ∈ c.trades, ∃ m, c.markets.find? t.market = some m ∧ t.OnGrids m

namespace Controller

/-- The trades of the borrowed parts, put back. -/
theorem trades_withCtx (ts : List Trade)
    (h : x.persistor.trades = (c.ctx real).persistor.trades ++ ts) :
    ∀ t ∈ (c.withCtx x).trades, t ∈ c.trades ∨ t ∈ ts := by
  obtain ⟨s, bm, uc, pe⟩ := x
  intro t ht
  cases pe with
  | dummy => exact .inl ht
  | real ms =>
    have hms : t ∈ (c.ctx real).persistor.trades ++ ts := h ▸ ht
    rcases List.mem_append.1 hms with hold | hnew
    · cases real with
      | true => exact .inl hold
      | false => simp [ctx, PersistExector.trades] at hold
    · exact .inr hnew

/-- Markets that keep their terms keep the trades on their grids. -/
theorem OnGrids.kept {t : Trade} (hc : c.OnGrids) (ht : t ∈ c.trades)
    (hkept : ∀ name m, c.markets.find? name = some m → ∃ m', c'.markets.find? name = some m' ∧
      m.SameTerms m') :
    ∃ m, c'.markets.find? t.market = some m ∧ t.OnGrids m := by
  obtain ⟨m, hm, hgrid⟩ := hc.trades t ht
  obtain ⟨m', hm', hterms⟩ := hkept _ m hm
  exact ⟨m', hm', hgrid.of_terms hterms⟩

theorem onGrids_rules : CallRules E fun c c' => c.OnGrids → c'.OnGrids where
  trans := fun h h' hc => h' (h hc)
  alike := fun {c c'} h hc => by
    refine ⟨fun name m hm => hc.markets name m (by rw [← h.markets]; exact hm), fun t ht => ?_⟩
    have hsame : t ∈ c.trades := by
      unfold trades at ht ⊢
      rw [← h.messages]
      exact ht
    exact hc.kept hsame fun name m hm => ⟨m, (h.markets name).trans hm, .refl m⟩
  update := fun {c now real p x} happ hc => by
    have htrades := (persistUpdate_trades happ.persistor).1
    refine ⟨hc.markets, fun t ht => ?_⟩
    rcases trades_withCtx [] (by rw [htrades, List.append_nil]) t ht with hold | hnew
    · exact hc.kept hold fun name m hm => ⟨m, hm, .refl m⟩
    · simp at hnew
  method := fun {c name m real m' x} hm hmethod hc => by
    have hmarket := hc.markets name m hm
    have hstay := hmethod.onGrids hmarket.2
    have hterms : m.SameTerms m' := hstay.terms
    have hfind := find?_withMarket c name
    refine ⟨fun other mo hmo => ?_, fun t ht => ?_⟩
    · rw [hfind] at hmo
      by_cases hother : other = name
      · rw [if_pos hother] at hmo
        obtain rfl := Option.some.inj hmo
        exact ⟨hterms.name.trans (hmarket.1.trans hother.symm), hstay.orders⟩
      · rw [if_neg hother] at hmo
        exact hc.markets other mo hmo
    · obtain ⟨ts, hts, hgrids⟩ := hstay.trades
      rcases trades_withCtx ts hts t ht with hold | hnew
      · refine hc.kept hold fun other mo hmo => ?_
        by_cases hother : other = name
        · rw [hother, hm] at hmo
          obtain rfl := Option.some.inj hmo
          exact ⟨m', by rw [hfind, if_pos hother], hterms⟩
        · exact ⟨mo, by rw [hfind, if_neg hother]; exact hmo, .refl mo⟩
      · have hgrid : t.OnGrids m := hgrids t hnew
        refine ⟨m', ?_, hgrid.of_terms hterms⟩
        rw [hfind, if_pos (hgrid.market.trans hmarket.1)]

theorem resetState_onGrids (hc : c.OnGrids) : c.resetState.OnGrids := by
  have hfind : ∀ name, c.resetState.markets.find? name = (c.markets.find? name).map Market.reset :=
    fun name => find?_mapValues _ _ _
  refine ⟨fun name m hm => ?_,
    fun t ht => hc.kept ht fun name m hm => ⟨m.reset, by rw [hfind, hm]; rfl, ?_⟩⟩
  · rw [hfind] at hm
    obtain ⟨m₀, hm₀, rfl⟩ := Option.map_eq_some_iff.1 hm
    exact ⟨(hc.markets name m₀ hm₀).1, Market.ordersOnGrids_of_empty rfl rfl rfl⟩
  · exact ⟨rfl, rfl, rfl, rfl, rfl, rfl, rfl, rfl, rfl, rfl, rfl⟩

theorem Reloads.onGrids {l : List AssetConf} (h : c.Reloads l c')
    (hc : c.OnGrids) : c'.OnGrids := by
  refine ⟨fun name m hm => ?_, fun t ht => ?_⟩
  · rcases h.markets name m hm with hold | ⟨-, hname, conf, hcreated⟩
    · exact hc.markets name m hold
    · exact ⟨hname,
        Market.ordersOnGrids_of_empty hcreated.rcs hcreated.noOrders.asks hcreated.noOrders.bids⟩
  · have hsame : t ∈ c.trades := by
      unfold trades at ht ⊢
      rw [← h.messages]
      exact ht
    exact hc.kept hsame fun name m hm => ⟨m, h.kept name m hm, .refl m⟩

end Controller

/-- Whatever a reload does to the assets, the orders and trades stay on the grids of their
markets. -/
theorem Operated.onGrids {P : Controller → Fetch AssetDesc → Prop}
    (h : Operated E settings P False c) : c.OnGrids := by
  induction h with
  | @init c hc =>
    obtain ⟨hok, -, hcreated⟩ := createController_ok hc
    refine ⟨fun name m hm => ?_, fun t ht => ?_⟩
    · obtain ⟨conf, -, hcr⟩ := hcreated name m hm
      exact ⟨(hok.desk name m hm).1,
        Market.ordersOnGrids_of_empty hcr.rcs hcr.noOrders.asks hcr.noOrders.bids⟩
    · simp [Controller.trades, (createController_begun hc).persistor] at ht
  | call _ hcall ih => exact Controller.onGrids_rules.call hcall ih
  | reload _ _ hload ih => exact (Configured.marketReload_reloads hload).onGrids ih
  | reset _ ih => exact Controller.resetState_onGrids ih
  | recover hrec _ _ _ => exact hrec.elim

/-- **As long as no reload changes the stored precision of an asset of a live market, the precisions
a market has copied are those of the asset manager**, and no amount that was traded or is frozen is
one the balance manager rounds. -/
theorem Operated.precs_valid (h : Operated E settings KeepsPrecs False c) :
    (∀ name m, c.markets.find? name = some m → m.PrecOK c.balanceManager.assetManager) ∧
      (∀ t ∈ c.trades, ∃ m, c.markets.find? t.market = some m ∧
        ∀ takerIsAsk, ∀ l ∈ t.legs m takerIsAsk,
        ∃ p, c.balanceManager.assetManager.assetPrec l.asset = .ok p ∧
          roundDp |l.change| p = |l.change|) ∧
      ∀ name m, c.markets.find? name = some m → ∀ rc, ∃ p,
        c.balanceManager.assetManager.assetPrec (m.payAsset (m.rcs.read rc)) = .ok p ∧
          roundDp (m.rcs.read rc).frozen p = (m.rcs.read rc).frozen := by
  have hprecs := h.precsOK
  have hgrids := h.onGrids
  refine ⟨hprecs, fun t ht => ?_, fun name m hm rc => ?_⟩
  · obtain ⟨m, hm, hgrid⟩ := hgrids.trades t ht
    exact ⟨m, hm, hgrid.exact (hprecs _ m hm)⟩
  · exact ((hgrids.markets name m hm).2.orders rc).exact (hprecs name m hm)

/-- After a trade an asset of its market is loaded again, with the precision it has. -/
theorem Operated.precs_valid_sample :
    ∃ c, Operated releaseEnv sampleSettings KeepsPrecs False c ∧ c.trades.length = 1 ∧
    ∀ t ∈ c.trades, ∃ m, c.markets.find? t.market = some m ∧
      ∀ takerIsAsk, ∀ l ∈ t.legs m takerIsAsk,
      ∃ p, c.balanceManager.assetManager.assetPrec l.asset = .ok p ∧
        roundDp |l.change| p = |l.change| := by
  have h : (sampleReload sampleTrade [assetRow "ETH" 6] >>= fun c => pure c.trades.length) =
      (.ok 1 : Except Panic ℕ) := by
    decide +kernel
  have hmarkets : (sampleRun releaseEnv sampleTrade >>= fun d => pure
      (d.markets.entries.map fun e => (e.2.base, e.2.basePrec, e.2.quote))) =
      (.ok [("ETH", 6, "USDT")] : Except Panic (List (String × ℕ × String))) := by decide +kernel
  simp only [bind_ok, pure_ok] at h hmarkets
  obtain ⟨c, hc, hone⟩ := h
  have hoperated : Operated releaseEnv sampleSettings KeepsPrecs False c := by
    refine sampleReload_operated hc fun d hd _ row hrow name m hm => ?_
    obtain rfl := List.mem_singleton.1 hrow
    obtain ⟨d', hd', hterms⟩ := hmarkets
    obtain rfl : d = d' := Except.ok.inj (hd.symm.trans hd')
    have hmem := List.mem_map_of_mem (f := fun e => (e.2.base, e.2.basePrec, e.2.quote))
      (mem_entries_iff.2 hm)
    rw [hterms, List.mem_singleton, Prod.mk.injEq, Prod.mk.injEq] at hmem
    obtain ⟨-, hprec, hquote⟩ := hmem
    refine ⟨fun _ => hprec.symm, fun hid => ?_⟩
    rw [hquote] at hid
    exact absurd hid (by decide)
  exact ⟨c, hoperated, hone, hoperated.precs_valid.2.1⟩

/-- A reload that takes the digits of an asset away leaves its market with what it had. -/
theorem not_precs_valid : ¬ ∀ E settings c, Operated E settings (fun _ _ => True) False c →
    ∀ name m, c.markets.find? name = some m → m.PrecOK c.balanceManager.assetManager := by
  intro hall
  have h : (sampleReload [] [assetRow "ETH" 0] >>= fun c => do
      let m ← unwrap .marketName (c.markets.find? "ETH_USDT")
      pure (m.base, m.basePrec, c.balanceManager.assetManager.assetPrec "ETH")) =
      (.ok ("ETH", 6, .ok 0) : Except Panic (String × ℕ × Except Panic ℕ)) := by decide +kernel
  simp only [bind_ok, pure_ok, unwrap_ok, Prod.mk.injEq] at h
  obtain ⟨c, hc, m, hm, hbase, hprec, hassets⟩ := h
  have hoperated : Operated releaseEnv sampleSettings (fun _ _ => True) False c :=
    sampleReload_operated hc fun _ _ => trivial
  have hkept := (hall _ _ _ hoperated "ETH_USDT" m hm).base
  rw [hbase, hprec, hassets] at hkept
  simp at hkept

end Dingir
