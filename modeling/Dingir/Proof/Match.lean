import Dingir.Proof.Desk

/-!
# The matching loop takes steps

`executeTrade` is a trade step (`executeTrade_spec`), one round of the loop leaves
it or trades (`matchMaker_cases`), and the loop over the counter orders, the
removal of the filled makers and the end of the order are steps one after the
other: **`putOrder_steps`**, `cancel_steps`, `cancelAllForUser_steps`.
-/

namespace Dingir

namespace Market

open Keyed Rounding Posting Outcome

variable {E : Env} {now : Timestamp} {u : Uuid} {ql amount : Decimal} {rc : OrderRc}
  {s s' : MatchState} {A : Market → Ctx → OrderInput → Prop}

/-- The order being put, in the matching loop. -/
def MatchState.taking (s : MatchState) (ql : Decimal) : Taking := ⟨s.taker, ql, s.quoteSum⟩

def MatchState.desk (s : MatchState) (ql : Decimal) : Desk := ⟨s.market, s.ctx, some (s.taking ql)⟩

/-- The order being put and the maker behind `rc` with their balances, as a trade shows them. -/
def MatchState.tradeState (s : MatchState) (rc : OrderRc) : VerboseTradeState :=
  getTradeState (askOf s.taker (s.market.rcs.read rc)) (bidOf s.taker (s.market.rcs.read rc))
    s.ctx.balanceManager s.market.base s.market.quote

theorem askOf_touched (taker maker : Order) :
    askOf (taker.touched now) (maker.touched now) = (askOf taker maker).touched now := by
  unfold askOf
  rw [show (taker.touched now).isAsk = taker.isAsk from rfl]
  split <;> rfl

theorem bidOf_touched (taker maker : Order) :
    bidOf (taker.touched now) (maker.touched now) = (bidOf taker maker).touched now := by
  unfold bidOf
  rw [show (taker.touched now).isAsk = taker.isAsk from rfl]
  split <;> rfl

/-- The states around a trade do not show when an order was touched or what it froze. -/
theorem getTradeState_touched (ask bid : Order) (bm : BalanceManager) (base quote : String) :
    getTradeState (ask.touched now) (bid.touched now) bm base quote =
      getTradeState ask bid bm base quote := rfl

theorem getTradeState_released (taker maker : Order) (a : Decimal) (bm : BalanceManager)
    (base quote : String) :
    getTradeState (askOf taker (releaseOrder maker a)) (bidOf taker (releaseOrder maker a)) bm base
      quote =
      getTradeState (askOf taker maker) (bidOf taker maker) bm base quote := by
  unfold askOf bidOf
  split <;> rfl

theorem append_filled (l : List Order) (o : Order) :
    (if o.remain = 0 then l ++ [o] else l) = l ++ [o].filter (fun o => o.remain = 0) := by
  by_cases h : o.remain = 0 <;> simp [h]

/-- **A call of `executeTrade` that returns is a trade**; a filled maker is put aside. -/
theorem executeTrade_spec (hd : DeskOK (s.desk ql)) (hm : Meets s.market (s.taking ql) rc)
    (ha : s.market.tradedBaseAmount s.taker (askOf s.taker (s.market.rcs.read rc))
      (bidOf s.taker (s.market.rcs.read rc)) (s.market.rcs.read rc).price ql s.quoteSum =
      .ok (some amount))
    (h : executeTrade E now ql rc amount s = .ok s') :
    ∃ t, Trades now s.market s.ctx (s.taking ql) rc t s'.market s'.ctx ∧
      s'.taking ql = filledTaking now (s.taking ql) t ∧
      s'.finishedOrders = s.finishedOrders ++
        [s'.market.rcs.read rc].filter (fun o => o.remain = 0) ∧
      s'.needCancel = s.needCancel ∧ t.stateBefore = s.tradeState rc ∧
      t.stateAfter = s'.tradeState rc := by
  unfold executeTrade at h
  simp only [bind_ok] at h
  obtain ⟨-, -, -, -, -, -, -, -, -, -, -, -, x₁, hsettle, h⟩ := h
  rw [pure_ok] at h
  set maker := s.market.rcs.read rc with hmaker
  set t := createTrade now s.market s.ctx.sequencer.nextTradeId.1 (s.taker.touched now)
    (maker.touched now) amount with ht
  have hk := hd.taking _ rfl
  have hb := hd.backed _ _ hm.resting
  have hgrid : OnGrid s.market.amountPrec t.amount := by
    refine tradedBaseAmount_grid ?_ ?_ ha
    · unfold askOf; split
      · exact hk.fits.remain
      · exact hb.fits.remain
    · unfold bidOf; split
      · exact hb.fits.remain
      · exact hk.fits.remain
  have hquote : OnGrid s.market.quotePrec t.quoteAmount := by
    rw [show t.quoteAmount = t.amount * maker.price from mul_comm _ _]
    exact (hgrid.mul hb.fits.price).mono hd.prec.sum_le
  have hset := settle_spec (x := { s.ctx with sequencer := s.ctx.sequencer.nextTradeId.2 })
    hd.gridded hd.prec.base hd.prec.quote (hgrid.mono hd.prec.amount_le) hquote
    (onGrid_truncDp _ _) (onGrid_truncDp _ _) hsettle
  obtain ⟨hcache, husers, hassets⟩ :=
    settle_cache (x := { s.ctx with sequencer := s.ctx.sequencer.nextTradeId.2 })
    hd.capacity hsettle
  subst h
  have hcarried : ∀ {p o o' : Order}, p = o' →
      (if p.finishedBase = 0 then some p else none) = some o → o = o' := by
    intro p o o' hp hc
    split at hc
    · exact (Option.some.inj hc).symm.trans hp
    · simp at hc
  refine ⟨completeTrade t (askOf (s.taker.touched now) (maker.touched now))
    (bidOf (s.taker.touched now) (maker.touched now)) _ _,
    ⟨rfl, rfl, ha, rfl, ?_, ?_, ?_, ?_, rfl, rfl, rfl, rfl,
      fun o => hcarried (askOf_touched s.taker maker),
      fun o => hcarried (bidOf_touched s.taker maker), rfl, rfl, rfl,
      husers, hassets, rfl, hset.posted, hset.gridded, hset.keeps, hset.known, hcache, ?_, ?_, ?_,
      ?_, ?_, ?_⟩, ?_, ?_, rfl, ?_, ?_⟩
  · exact (congrArg Order.user (askOf_touched s.taker maker)).trans rfl
  · exact (congrArg Order.user (bidOf_touched s.taker maker)).trans rfl
  · exact (congrArg Order.id (askOf_touched s.taker maker)).trans rfl
  · exact (congrArg Order.id (bidOf_touched s.taker maker)).trans rfl
  · exact hset.sequencer
  · intro hreal
    exact (persistTrade_trades (hset.real.trans hreal) _ _).trans (congrArg (· ++ _) hset.trades)
  · exact (persistTrade_finished _ _ _).trans hset.finished
  · exact (persistTrade_realPersist _ _ _).trans hset.real
  · intro ms hms
    obtain ⟨bs, hbs, hall, hlen⟩ := hset.messages ms hms
    refine ⟨bs, ?_, hall, hlen⟩
    show persistTrade x₁.persistor _ _ = _
    rw [hbs, persistTrade_real]
    rfl
  · exact hset.carries.trans (Ctx.carries_persistTrade x₁ _ _)
  · rfl
  · exact (append_filled _ _).trans
      (congrArg (fun o => _ ++ [o].filter _) (Heap.write_read_self _ _ _).symm)
  · show getTradeState _ _ _ _ _ = getTradeState _ _ _ _ _
    rw [askOf_touched, bidOf_touched, getTradeState_touched]
  · show getTradeState _ _ _ _ _ =
      getTradeState (askOf _ (Heap.read (Heap.write _ _ _) _))
        (bidOf _ (Heap.read (Heap.write _ _ _) _)) _ _ _
    rw [Heap.write_read_self]
    exact (getTradeState_released _ _ _ _ _ _).symm

/-- What a round of the loop needs in order to trade. -/
structure Tries (s : MatchState) (ql : Decimal) (rc : OrderRc) (amount : Decimal) : Prop where
  takerOpen : s.taker.remain ≠ 0
  crosses : s.taker.type_ = .limit →
    (askOf s.taker (s.market.rcs.read rc)).price ≤ (bidOf s.taker (s.market.rcs.read rc)).price
  notPostOnly : s.taker.postOnly = false
  amount : s.market.tradedBaseAmount s.taker (askOf s.taker (s.market.rcs.read rc))
    (bidOf s.taker (s.market.rcs.read rc)) (s.market.rcs.read rc).price ql s.quoteSum =
    .ok (some amount)

/-- **One round of the loop** leaves it without a trade, or trades. A limit order with
something left is only let go without cancelling it where the prices part. -/
theorem matchMaker_cases {r : ForInStep MatchState} (h : matchMaker E now ql rc s = .ok r) :
    (∃ b, r = .done { s with needCancel := b } ∧
        (b = false → s.taker.type_ = .limit → s.taker.remain ≠ 0 →
          s.taker.Apart (s.market.rcs.read rc))) ∨
      ∃ amount s', r = .yield s' ∧ Tries s ql rc amount ∧
        executeTrade E now ql rc amount s = .ok s' := by
  unfold matchMaker at h
  simp only at h
  split at h
  · rename_i hz
    rw [pure_ok] at h
    exact .inl ⟨s.needCancel, h.symm, fun _ _ hopen => absurd hz hopen⟩
  rename_i hopen
  split at h
  · rename_i hapart
    rw [pure_ok] at h
    exact .inl ⟨s.needCancel, h.symm, fun _ _ _ => hapart.2⟩
  rename_i hcross
  split at h
  · rw [pure_ok] at h
    exact .inl ⟨true, h.symm, by simp⟩
  rename_i hpost
  split at h
  · rw [pure_ok] at h
    exact .inl ⟨true, h.symm, by simp⟩
  obtain ⟨o, ho, h⟩ := bind_ok.1 h
  cases o with
  | none =>
    simp only [pure_ok] at h
    refine .inl ⟨s.needCancel, h.symm, fun _ hlim _ => ?_⟩
    -- only a market order runs out of budget
    simp [tradedBaseAmount, hlim] at ho
  | some amount =>
    simp only [bind_ok, pure_ok] at h
    obtain ⟨s', hs', rfl⟩ := h
    exact .inr ⟨amount, s', rfl,
      ⟨hopen, fun hl => not_lt.1 fun hlt => hcross ⟨hl, hlt⟩, by simpa using hpost, ho⟩, hs'⟩

/-! ## The loop -/

/-- Later bids are not above earlier ones. -/
theorem bidKey_le {k k' : MarketKeyBid} (h : compare k k' = .lt) :
    k'.orderPrice ≤ k.orderPrice := by
  refine not_lt.1 fun hlt => ?_
  have hc : compare k k' = .gt := by
    show ((compare k.orderPrice k'.orderPrice).swap.then _) = _
    rw [compare_lt_iff_lt.2 hlt]
    rfl
  simp [h] at hc

/-- Later asks are not below earlier ones. -/
theorem askKey_le {k k' : MarketKeyAsk} (h : compare k k' = .lt) :
    k.orderPrice ≤ k'.orderPrice := by
  refine not_lt.1 fun hlt => ?_
  have hc : compare k k' = .gt := by
    show ((compare k.orderPrice k'.orderPrice).then _) = _
    rw [compare_gt_iff_gt.2 hlt]
    rfl
  simp [h] at hc

/-- A taker tries handles of resting orders of the other side, each once. -/
theorem counterOrders_spec {m : Market} (h : m.IndexOK) (taker : Order) :
    (m.counterOrders taker).Nodup ∧ ∀ rc ∈ m.counterOrders taker,
      m.orders[(m.rcs.read rc).id]? = some rc ∧ (m.rcs.read rc).side ≠ taker.side := by
  unfold counterOrders
  by_cases hs : taker.isAsk = true
  · rw [if_pos hs]
    rw [isAsk_iff] at hs
    refine ⟨nodup_values fun k k' rc hk hk' => ?_, fun rc hrc => ?_⟩
    · obtain ⟨ho, -, hp⟩ := (h.bids k).1 hk
      obtain ⟨ho', -, hp'⟩ := (h.bids k').1 hk'
      have hid := h.id_inj ho ho'
      have hprice := hp.symm.trans hp'
      cases k; cases k'
      exact congrArg₂ _ hprice hid
    · obtain ⟨k, hk⟩ := mem_values.1 hrc
      obtain ⟨ho, hside, -⟩ := (h.bids k).1 hk
      exact ⟨by rw [h.ownId _ _ ho]; exact ho, by rw [hside, hs]; decide⟩
  · rw [if_neg hs]
    rw [isAsk_iff] at hs
    refine ⟨nodup_values fun k k' rc hk hk' => ?_, fun rc hrc => ?_⟩
    · obtain ⟨ho, -, hp⟩ := (h.asks k).1 hk
      obtain ⟨ho', -, hp'⟩ := (h.asks k').1 hk'
      have hid := h.id_inj ho ho'
      have hprice := hp.symm.trans hp'
      cases k; cases k'
      exact congrArg₂ _ hprice hid
    · obtain ⟨k, hk⟩ := mem_values.1 hrc
      obtain ⟨ho, hside, -⟩ := (h.asks k).1 hk
      exact ⟨by rw [h.ownId _ _ ho]; exact ho, by rw [hside]; exact fun hc => hs hc.symm⟩

/-- A taker tries all resting orders of the other side. -/
theorem mem_counterOrders {m : Market} (h : m.IndexOK) {taker : Order} {id : ℕ}
    (hrc : m.orders[id]? = some rc) (hs : (m.rcs.read rc).side ≠ taker.side) :
    rc ∈ m.counterOrders taker := by
  unfold counterOrders
  by_cases ht : taker.isAsk = true
  · rw [if_pos ht, mem_values]
    rw [isAsk_iff] at ht
    refine ⟨⟨(m.rcs.read rc).price, id⟩, (h.bids _).2 ⟨hrc, ?_, rfl⟩⟩
    rw [ht] at hs
    cases ho : (m.rcs.read rc).side with
    | bid => rfl
    | ask => exact absurd ho hs
  · rw [if_neg ht, mem_values]
    rw [isAsk_iff] at ht
    refine ⟨⟨(m.rcs.read rc).price, id⟩, (h.asks _).2 ⟨hrc, ?_, rfl⟩⟩
    cases ho : (m.rcs.read rc).side with
    | ask => rfl
    | bid =>
      cases ho' : taker.side with
      | ask => exact absurd ho' ht
      | bid => exact absurd (ho.trans ho'.symm) hs

/-- **Once the prices part they stay apart**: the handles come in the order of the side. -/
theorem counterOrders_sorted {m : Market} (h : m.IndexOK) {taker o : Order}
    (hs : o.side = taker.side) :
    (m.counterOrders taker).Pairwise fun r r' => o.Apart (m.rcs.read r) →
    o.Apart (m.rcs.read r') := by
  unfold counterOrders
  by_cases ht : taker.isAsk = true
  · have ho : o.isAsk = true := isAsk_iff.2 (hs.trans (isAsk_iff.1 ht))
    rw [if_pos ht, values, List.pairwise_map]
    refine (Std.TreeMap.ordered_keys_toList (t := m.bids)).imp_of_mem fun {e e'} he he' hlt => ?_
    obtain ⟨-, -, hp⟩ := (h.bids e.1).1 (Std.TreeMap.mem_toList_iff_getElem?_eq_some.1 he)
    obtain ⟨-, -, hp'⟩ := (h.bids e'.1).1 (Std.TreeMap.mem_toList_iff_getElem?_eq_some.1 he')
    simp only [Order.Apart, bidOf, askOf, ho, if_true, hp, hp']
    exact fun hapart => (bidKey_le hlt).trans_lt hapart
  · have ho : o.isAsk = false := by
      rw [← Bool.not_eq_true, isAsk_iff, hs, ← isAsk_iff]
      exact ht
    rw [if_neg ht, values, List.pairwise_map]
    refine (Std.TreeMap.ordered_keys_toList (t := m.asks)).imp_of_mem fun {e e'} he he' hlt => ?_
    obtain ⟨-, -, hp⟩ := (h.asks e.1).1 (Std.TreeMap.mem_toList_iff_getElem?_eq_some.1 he)
    obtain ⟨-, -, hp'⟩ := (h.asks e'.1).1 (Std.TreeMap.mem_toList_iff_getElem?_eq_some.1 he')
    simp only [Order.Apart, bidOf, askOf, ho, Bool.false_eq_true, if_false, hp, hp']
    exact fun hapart => hapart.trans_le (askKey_le hlt)

/-- The matching loop of an order that started at the desk `d₀` with the counter
orders `all`, when `rest` is still to come: it has taken steps, has changed only
orders already tried, and has put aside the filled ones among these. -/
structure LoopOK (E : Env) (now : Timestamp) (u : Uuid) (A : Market → Ctx → OrderInput → Prop)
    (ql : Decimal) (d₀ : Desk) (all rest : List OrderRc) (s : MatchState) : Prop where
  works : Works E now u A d₀ (s.desk ql)
  orders : s.market.orders = d₀.market.orders
  side : ∀ k, d₀.taking = some k → s.taker.side = k.order.side
  done : ∃ done, done ++ rest = all ∧
    (∀ rc, rc ∉ done → s.market.rcs.read rc = d₀.market.rcs.read rc) ∧
    s.finishedOrders = (done.map s.market.rcs.read).filter (fun o => o.remain = 0) ∧
    -- a limit order with something left has filled all it tried
    (s.taker.type_ = .limit → s.taker.remain ≠ 0 → ∀ rc ∈ done, (s.market.rcs.read rc).remain = 0)

/-- The loop is over: the filled orders are exactly those put aside. -/
structure LoopEnd (E : Env) (now : Timestamp) (u : Uuid) (A : Market → Ctx → OrderInput → Prop)
    (ql : Decimal) (d₀ : Desk) (s : MatchState) : Prop where
  works : Works E now u A d₀ (s.desk ql)
  stored : ∀ o ∈ s.finishedOrders, o.remain = 0 ∧ s.market.resting o.id = some o
  nodup : (s.finishedOrders.map Order.id).Nodup
  all : ∀ id o, s.market.resting id = some o → o.remain = 0 → o ∈ s.finishedOrders
  clear : s.needCancel = false → s.taker.type_ = .limit → s.taker.remain ≠ 0 →
    ∀ id o, s.market.resting id = some o → o.remain ≠ 0 → o.side ≠ s.taker.side → s.taker.Apart o

variable {d₀ : Desk} {k₀ : Taking} {all rest : List OrderRc}

theorem tradedBaseAmount_limit {m : Market} {taker ask bid : Order} {price qs : Decimal}
    (hlim : taker.type_ = .limit) :
    m.tradedBaseAmount taker ask bid price ql qs = .ok (some (min ask.remain bid.remain)) := by
  unfold tradedBaseAmount
  simp [hlim]

/-- A limit order that a trade leaves open has filled the maker. -/
theorem Trades.filled {m m' : Market} {x x' : Ctx} {k : Taking} {t : Trade}
    (ht : Trades now m x k rc t m' x') (hlim : k.order.type_ = .limit)
    (hopen : (filledTaking now k t).order.remain ≠ 0) :
    (filledMaker now k.order.isAsk (m.rcs.read rc) t).remain = 0 := by
  have hamount := ht.amount
  rw [tradedBaseAmount_limit hlim, Except.ok.injEq, Option.some.injEq] at hamount
  have hopen : k.order.remain - t.amount ≠ 0 := hopen
  show (m.rcs.read rc).remain - t.amount = 0
  rw [← hamount] at hopen ⊢
  unfold askOf bidOf at hopen ⊢
  split at hopen <;> rename_i hk <;> simp only [hk, if_true] <;>
    rcases min_choice k.order.remain (m.rcs.read rc).remain with hm | hm <;>
    simp_all [min_comm]

/-- The next order to be tried is as it was before the loop, and one that is tried is met. -/
theorem LoopOK.meets (hd : DeskOK d₀) (hq : d₀.market.Quiet) (hk : d₀.taking = some k₀)
    (hall : all = d₀.market.counterOrders k₀.order)
    (h : LoopOK E now u A ql d₀ all (rc :: rest) s) :
    s.market.rcs.read rc = d₀.market.rcs.read rc ∧
      ∀ amount, Tries s ql rc amount → Meets s.market (s.taking ql) rc := by
  obtain ⟨-, horders, hside, done, hdone, hsame, -, -⟩ := h
  obtain ⟨hnodup, hcounter⟩ := counterOrders_spec hd.index k₀.order
  rw [← hall, ← hdone] at hnodup
  have hnew : rc ∉ done := fun hc => (List.nodup_append.1 hnodup).2.2 rc hc rc (by simp) rfl
  obtain ⟨hstored, hne⟩ := hcounter rc (by rw [← hall, ← hdone]; simp)
  have hread := hsame rc hnew
  refine ⟨hread, fun amount htry =>
    ⟨by rw [horders, hread]; exact hstored, ?_, ?_, htry.takerOpen, htry.notPostOnly,
    htry.crosses⟩⟩
  · rw [hread]; exact (hside k₀ hk).symm ▸ hne
  · rw [hread]; exact hq _ _ (resting_some.2 ⟨rc, hstored, rfl⟩)

/-- A round that trades keeps `LoopOK`. -/
theorem LoopOK.yield (hd : DeskOK d₀) (hq : d₀.market.Quiet) (hk : d₀.taking = some k₀)
    (hall : all = d₀.market.counterOrders k₀.order) (h : LoopOK E now u A ql d₀ all (rc :: rest) s)
    (hr : matchMaker E now ql rc s = .ok (.yield s')) : LoopOK E now u A ql d₀ all rest s' := by
  obtain ⟨-, hmeets⟩ := h.meets hd hq hk hall
  obtain ⟨hsteps, horders, hside, done, hdone, hsame, hfin, hfilled⟩ := h
  have hnodup := (counterOrders_spec hd.index k₀.order).1
  rw [← hall, ← hdone] at hnodup
  have hnew : rc ∉ done := fun hc => (List.nodup_append.1 hnodup).2.2 rc hc rc (by simp) rfl
  rcases matchMaker_cases hr with ⟨b, hb, -⟩ | ⟨amount, s'', hs, htry, hex⟩
  · simp at hb
  obtain rfl : s' = s'' := by simpa using hs
  have hmeet := hmeets amount htry
  obtain ⟨t, ht, htaking, hfinished, -⟩ :=
    executeTrade_spec (Steps.deskOK hsteps.steps hd) hmeet htry.amount hex
  have hmarket := ht.market
  have hkept : ∀ r ∈ done, s'.market.rcs.read r = s.market.rcs.read r := by
    intro r hrd
    rw [hmarket]
    exact Heap.write_read_of_ne _ _ (fun hc : r = rc => hnew (hc ▸ hrd))
  refine ⟨hsteps.tail ?_, ?_, fun k hk' => ?_, done ++ [rc], by simpa using hdone, fun r hr => ?_,
    ?_,
    fun hlim hopen r hr => ?_⟩
  · unfold MatchState.desk
    rw [htaking]
    exact ⟨Step.trade hmeet ht, rfl, rfl⟩
  · rw [hmarket]; exact horders
  · have hside' : s'.taker = (filledTaking now (s.taking ql) t).order :=
      congrArg Taking.order htaking
    rw [hside', ← hside k hk']; rfl
  · rw [List.mem_append, List.mem_singleton, not_or] at hr
    rw [hmarket, ← hsame r hr.1]
    exact Heap.write_read_of_ne _ _ hr.2
  · rw [hfinished, hfin, List.map_append, List.filter_append]
    congr 2
    exact List.map_congr_left fun r hrd => (hkept r hrd).symm
  · have htaker : s'.taker = (filledTaking now (s.taking ql) t).order :=
      congrArg Taking.order htaking
    rw [htaker] at hlim hopen
    rcases List.mem_append.1 hr with hr | hr
    · rw [hkept r hr]
      exact hfilled hlim htry.takerOpen r hr
    · rw [List.mem_singleton.1 hr, hmarket]
      show ((s.market.rcs.write rc _).read rc).remain = 0
      rw [Heap.write_read_self]
      exact Trades.filled ht hlim hopen

/-- Wherever the loop is left, the filled orders are those put aside, and a limit order left
where the prices part is clear of the book. -/
theorem LoopOK.toEnd (hd : DeskOK d₀) (hq : d₀.market.Quiet) (hk : d₀.taking = some k₀)
    (hall : all = d₀.market.counterOrders k₀.order) (h : LoopOK E now u A ql d₀ all rest s)
    (hstop : s.needCancel = false → s.taker.type_ = .limit → s.taker.remain ≠ 0 →
      ∀ rc rest', rest = rc :: rest' → s.taker.Apart (s.market.rcs.read rc)) :
    LoopEnd E now u A ql d₀ s := by
  obtain ⟨hsteps, horders, hside, done, hdone, hsame, hfin, hfilled⟩ := h
  obtain ⟨hnodup, hcounter⟩ := counterOrders_spec hd.index k₀.order
  rw [← hall, ← hdone] at hnodup
  have hindex : s.market.IndexOK := (Steps.deskOK hsteps.steps hd).index
  have hstored : ∀ r ∈ done, s.market.orders[(s.market.rcs.read r).id]? = some r := by
    intro r hr
    obtain ⟨ho, -⟩ := hcounter r (by rw [← hall, ← hdone]; simp [hr])
    rw [← horders] at ho
    rw [hindex.ownId _ _ ho]; exact ho
  refine ⟨hsteps, fun o ho => ?_, ?_, fun id o ho hz => ?_, fun hnc hlim hopen id o ho hne hs => ?_⟩
  · rw [hfin, List.mem_filter, List.mem_map] at ho
    obtain ⟨⟨r, hr, rfl⟩, hz⟩ := ho
    exact ⟨by simpa using hz, resting_some.2 ⟨r, hstored r hr, rfl⟩⟩
  · rw [hfin]
    refine List.Nodup.sublist (List.filter_sublist.map Order.id) ?_
    rw [List.map_map]
    refine List.Nodup.map_on (fun r hr r' hr' he => ?_) (List.nodup_append.1 hnodup).1
    have h₁ := hstored r hr
    rw [show (s.market.rcs.read r).id = (s.market.rcs.read r').id from he, hstored r' hr'] at h₁
    exact (Option.some.inj h₁).symm
  · obtain ⟨r, hr, rfl⟩ := resting_some.1 ho
    rw [hfin, List.mem_filter, List.mem_map]
    refine ⟨⟨r, ?_, rfl⟩, by simpa using hz⟩
    by_contra hnew
    rw [horders] at hr
    rw [hsame r hnew] at hz
    exact hq id _ (resting_some.2 ⟨r, hr, rfl⟩) hz
  · obtain ⟨r, hr, rfl⟩ := resting_some.1 ho
    have hnew : r ∉ done := fun hc => hne (hfilled hlim hopen r hc)
    have hside' := hside k₀ hk
    rw [hsame r hnew] at hs ⊢
    have hmem : r ∈ all := by
      rw [hall]
      exact mem_counterOrders hd.index (horders ▸ hr) (by rwa [← hside'])
    rw [← hdone] at hmem
    have hrest := (List.mem_append.1 hmem).resolve_left hnew
    -- the first order not tried parts, and all behind it do
    cases rest with
    | nil => simp at hrest
    | cons rc rest' =>
      have hfirst := hstop hnc hlim hopen rc rest' rfl
      have hrc : rc ∉ done := fun hc => (List.nodup_append.1 hnodup).2.2 rc hc rc (by simp) rfl
      rw [hsame rc hrc] at hfirst
      rcases List.mem_cons.1 hrest with rfl | hlater
      · exact hfirst
      · have hsorted := counterOrders_sorted hd.index hside'
        rw [← hall, ← hdone] at hsorted
        exact (List.pairwise_cons.1 (List.pairwise_append.1 hsorted).2.1).1 r hlater hfirst

/-- **The matching loop takes steps**, and puts aside exactly the orders it fills. -/
theorem loop_steps (hd : DeskOK d₀) (hq : d₀.market.Quiet) (hk : d₀.taking = some k₀)
    (hs : s.desk ql = d₀) (hfin : s.finishedOrders = [])
    (h : forBreak (matchMaker E now ql) (d₀.market.counterOrders k₀.order) s = .ok s') :
    LoopEnd E now u A ql d₀ s' := by
  have hstart : LoopOK E now u A ql d₀ (d₀.market.counterOrders k₀.order)
      (d₀.market.counterOrders k₀.order) s := by
    subst hs
    refine ⟨Relation.ReflTransGen.refl, rfl, fun k hk' => ?_, [], rfl, fun _ _ => rfl,
      hfin, by simp⟩
    rw [← Option.some.inj hk']; rfl
  refine forBreak_rule (P := LoopOK E now u A ql d₀ (d₀.market.counterOrders k₀.order))
    (Q := LoopEnd E now u A ql d₀)
    (fun t ht => ht.toEnd hd hq hk rfl (by simp))
    (fun rc rest t t' ht hr => ht.yield hd hq hk rfl hr)
    (fun rc rest t t' ht hr => ?_) _ s s' hstart h
  rcases matchMaker_cases hr with ⟨b, hb, hreason⟩ | ⟨_, _, hb, -⟩
  · obtain rfl : t' = { t with needCancel := b } := by simpa using hb
    have ht' : LoopOK E now u A ql d₀ (d₀.market.counterOrders k₀.order) (rc :: rest)
        { t with needCancel := b } :=
      ⟨ht.works, ht.orders, ht.side, ht.done⟩
    refine ht'.toEnd hd hq hk rfl fun hnc hlim hopen r rest' he => ?_
    rw [← (List.cons.inj he).1]
    exact hreason hnc hlim hopen
  · simp at hb

/-! ## Removing orders -/

variable {m m' : Market} {x x' : Ctx} {o o' : Order}

/-- The assertions and the `unwrap` of `order_finish` pass. -/
structure Removable (E : Env) (m : Market) (o : Order) : Prop where
  side : (if o.side = .ask then E.debugAssert .lookup (o.askKey ∈ m.asks)
    else E.debugAssert .lookup (o.bidKey ∈ m.bids)) = .ok ()
  order : E.debugAssert .lookup (o.id ∈ m.orders) = .ok ()
  user : (m.users[o.user]?).isSome
  userOrder : E.debugAssert .lookup (o.id ∈ m.userOrders o.user) = .ok ()

/-- **A call of `order_finish` that returns** takes the order out of the indexes
and releases what it still backs. -/
theorem orderFinish_iff : m.orderFinish E x o = .ok (m', x') ↔
    Removable E m o ∧ ∃ bm, m.unfrozenBalance E x.balanceManager o = .ok bm ∧ m' = m.without o ∧
      x' = { x with balanceManager := bm, persistor := x.persistor.putOrder o .finish } := by
  have huser : ∀ {users}, m.users[o.user]? = some users → m.userOrders o.user = users :=
    fun hu => by
    simp [userOrders, hu]
  have hsome : ∀ {P : Std.TreeMap ℕ OrderRc → Prop},
      (∃ users, m.users[o.user]? = some users ∧ P users) ↔ (m.users[o.user]?).isSome ∧
      P (m.userOrders o.user) := by
    intro P
    constructor
    · rintro ⟨users, hu, hP⟩
      exact ⟨by rw [hu]; rfl, by rwa [huser hu]⟩
    · rintro ⟨hu, hP⟩
      obtain ⟨users, hu⟩ := Option.isSome_iff_exists.1 hu
      exact ⟨users, hu, by rwa [huser hu] at hP⟩
  unfold orderFinish removeFromSide
  by_cases hs : o.side = .ask
  · simp only [if_pos hs, bind_ok, pure_ok, unwrap_ok, Prod.mk.injEq]
    constructor
    · rintro ⟨_, ⟨_, d₁, rfl⟩, bm, hbm, _, d₂, h⟩
      obtain ⟨hu, _, d₃, rfl, rfl⟩ := hsome.1 h
      exact ⟨⟨by rw [if_pos hs]; exact d₁, d₂, hu, d₃⟩, bm,
        hbm, by rw [without, if_pos hs, if_pos hs], rfl⟩
    · rintro ⟨⟨d₁, d₂, hu, d₃⟩, bm, hbm, rfl, rfl⟩
      rw [if_pos hs] at d₁
      exact ⟨_, ⟨(), d₁, rfl⟩, bm, hbm, (), d₂,
        hsome.2 ⟨hu, (), d₃, by rw [without, if_pos hs, if_pos hs], rfl⟩⟩
  · simp only [if_neg hs, bind_ok, pure_ok, unwrap_ok, Prod.mk.injEq]
    constructor
    · rintro ⟨_, ⟨_, d₁, rfl⟩, bm, hbm, _, d₂, h⟩
      obtain ⟨hu, _, d₃, rfl, rfl⟩ := hsome.1 h
      exact ⟨⟨by rw [if_neg hs]; exact d₁, d₂, hu, d₃⟩, bm,
        hbm, by rw [without, if_neg hs, if_neg hs], rfl⟩
    · rintro ⟨⟨d₁, d₂, hu, d₃⟩, bm, hbm, rfl, rfl⟩
      rw [if_neg hs] at d₁
      exact ⟨_, ⟨(), d₁, rfl⟩, bm, hbm, (), d₂,
        hsome.2 ⟨hu, (), d₃, by rw [without, if_neg hs, if_neg hs], rfl⟩⟩

theorem orderFinish_ok (h : m.orderFinish E x o = .ok (m', x')) : m' = m.without o ∧
    ∃ bm, m.unfrozenBalance E x.balanceManager o = .ok bm ∧
      x' = { x with balanceManager := bm, persistor := x.persistor.putOrder o .finish } := by
  obtain ⟨-, bm, hbm, rfl, rfl⟩ := orderFinish_iff.1 h
  exact ⟨rfl, bm, hbm, rfl⟩

/-- Nothing is released of a filled order. -/
theorem unfrozenBalance_filled {bm bm' : BalanceManager} (hz : o.remain = 0)
    (h : m.unfrozenBalance E bm o = .ok bm') : bm' = bm := by
  unfold unfrozenBalance at h
  obtain ⟨-, -, h⟩ := bind_ok.1 h
  rw [if_pos hz, pure_ok] at h
  exact h.symm

/-- The filled makers leave the indexes, one step each, and the others stay. -/
theorem finish_steps {d₀ : Desk} {k : Taking} (hd : DeskOK d₀) {items : List Order}
    {s s' : Market × Ctx} (hsteps : Works E now u A d₀ ⟨s.1, s.2, some k⟩)
    (hstored : ∀ o ∈ items, o.remain = 0 ∧ s.1.resting o.id = some o)
    (hnodup : (items.map Order.id).Nodup)
    (hall : ∀ id o, s.1.resting id = some o → o.remain = 0 → o ∈ items)
    (h : items.foldlM (fun (mx : Market × Ctx) item => mx.1.orderFinish E mx.2 item) s = .ok s') :
    Works E now u A d₀ ⟨s'.1, s'.2, some k⟩ ∧ s'.1.Quiet ∧
      ∀ id o, s'.1.resting id = some o → s.1.resting id = some o := by
  let P (l : List Order) (t : Market × Ctx) : Prop :=
    Works E now u A d₀ ⟨t.1, t.2, some k⟩ ∧ (∀ o ∈ l, o.remain = 0 ∧ t.1.resting o.id = some o) ∧
      (l.map Order.id).Nodup ∧ (∀ id o, t.1.resting id = some o → o.remain = 0 → o ∈ l) ∧
      ∀ id o, t.1.resting id = some o → s.1.resting id = some o
  have hend : P [] s' := by
    refine foldlM_rule (P := P) ?_ items s s' ⟨hsteps, hstored, hnodup, hall, fun _ _ => id⟩ h
    rintro o l ⟨m, x⟩ ⟨m', x'⟩ ⟨hsteps, hstored, hnodup, hall, hkept⟩ h
    obtain ⟨rfl, bm, hbm, rfl⟩ := orderFinish_ok h
    obtain ⟨hz, hrest⟩ := hstored o (by simp)
    obtain ⟨rc, hrc, rfl⟩ := resting_some.1 hrest
    rw [List.map_cons, List.nodup_cons] at hnodup
    obtain rfl := unfrozenBalance_filled hz hbm
    have hne : ∀ p ∈ l, (m.rcs.read rc).id ≠ p.id := fun p hp he =>
      hnodup.1 (List.mem_map.2 ⟨p, hp, he.symm⟩)
    refine ⟨hsteps.tail ⟨Step.finish hrc hz, rfl, rfl⟩, fun p hp => ?_, hnodup.2,
      fun id p hp hpz => ?_, fun id p hp => ?_⟩
    · obtain ⟨hpz, hprest⟩ := hstored p (List.mem_cons_of_mem _ hp)
      refine ⟨hpz, ?_⟩
      rw [resting_without, if_neg (hne p hp)]; exact hprest
    · rw [resting_without] at hp
      split at hp
      · simp at hp
      · rename_i hid
        rcases List.mem_cons.1 (hall id p hp hpz) with rfl | hpl
        · have := (Steps.deskOK hsteps.steps hd).index.resting_id hp
          exact absurd this hid
        · exact hpl
    · rw [resting_without] at hp
      split at hp
      · simp at hp
      · exact hkept id p hp
  exact ⟨hend.1, fun id o ho hz => by simpa using hend.2.2.2.1 id o ho hz, hend.2.2.2.2⟩

/-- The assertions of `insert_order_into_orderbook` pass. -/
structure Insertable (E : Env) (m : Market) (o : Order) : Prop where
  limit : E.debugAssert .debugAssert (o.type_ = .limit) = .ok ()
  order : E.debugAssert .lookup (o.id ∉ m.orders) = .ok ()
  userOrder : E.debugAssert .lookup (o.id ∉ m.userOrders o.user) = .ok ()
  side : (if o.side = .ask then E.debugAssert .lookup (o.askKey ∉ m.asks)
    else E.debugAssert .lookup (o.bidKey ∉ m.bids)) = .ok ()

/-- **A call of `insert_order_into_orderbook` that returns** files the order as it rests. -/
theorem insertOrder_iff : m.insertOrderIntoOrderbook E o = .ok (o', m') ↔
    Insertable E m o ∧ o' = o.rested ∧ m' = m.withRest o.rested := by
  have hread : (m.rcs.alloc o.rested).2.read m.rcs.next = o.rested := m.rcs.alloc_read_self _
  unfold insertOrderIntoOrderbook
  by_cases hs : o.side = .ask
  · have hs' : o.rested.side = .ask := hs
    simp only [if_pos hs', bind_ok, pure_ok, Prod.mk.injEq]
    constructor
    · rintro ⟨_, d₁, _, d₂, _, d₃, _, d₄, rfl, rfl⟩
      refine ⟨⟨d₁, d₂, d₃, by rw [if_pos hs]; exact d₄⟩, hread, ?_⟩
      rw [withRest, if_pos hs', if_pos hs']; rfl
    · rintro ⟨⟨d₁, d₂, d₃, d₄⟩, rfl, rfl⟩
      rw [if_pos hs] at d₄
      refine ⟨(), d₁, (), d₂, (), d₃, (), d₄, hread, ?_⟩
      rw [withRest, if_pos hs', if_pos hs']; rfl
  · have hs' : ¬ o.rested.side = .ask := hs
    simp only [if_neg hs', bind_ok, pure_ok, Prod.mk.injEq]
    constructor
    · rintro ⟨_, d₁, _, d₂, _, d₃, _, d₄, rfl, rfl⟩
      refine ⟨⟨d₁, d₂, d₃, by rw [if_neg hs]; exact d₄⟩, hread, ?_⟩
      rw [withRest, if_neg hs', if_neg hs']; rfl
    · rintro ⟨⟨d₁, d₂, d₃, d₄⟩, rfl, rfl⟩
      rw [if_neg hs] at d₄
      refine ⟨(), d₁, (), d₂, (), d₃, (), d₄, hread, ?_⟩
      rw [withRest, if_neg hs', if_neg hs']; rfl

theorem insertOrder_ok (h : m.insertOrderIntoOrderbook E o = .ok (o', m')) :
    o' = o.rested ∧ m' = m.withRest o.rested := (insertOrder_iff.1 h).2

/-- The order an execution starts with, before it has met anyone. -/
def startDesk (m : Market) (x : Ctx) (taker : Order) (ql : Decimal) : Desk :=
  ⟨m, x, some ⟨taker, ql, 0⟩⟩

/-- How an order that has been tried ends: it is closed, or what is left of it rests. -/
inductive Ending (E : Env) : Desk → Order → Market → Ctx → Prop
  | closed {m : Market} {x : Ctx} {k : Taking} : m.Quiet →
      Ending E ⟨m, x, some k⟩ k.order m { x with persistor := x.persistor.putOrder k.order .finish }
  | rests {m : Market} {x : Ctx} {k : Taking} {bm : BalanceManager} :
      m.Quiet → k.order.type_ = .limit →
      k.order.remain ≠ 0 → m.frozenBalance E x.balanceManager k.order.rested = .ok bm →
      m.Clear k.order →
      Ending E ⟨m, x, some k⟩ k.order.rested (m.withRest k.order.rested)
        { x with balanceManager := bm }

theorem Ending.step {d : Desk} (h : Ending E d o m' x') : Step E now u A d ⟨m', x', none⟩ := by
  cases h with
  | closed hq => exact .close hq
  | rests hq hlim hopen hfreeze hclear => exact .rest hq hlim hopen hfreeze hclear

/-- **`execute_order` takes steps** from the order just put to its ending. -/
theorem executeOrder_ends {taker : Order} (hq : m.Quiet)
    (hd : DeskOK (startDesk m { x with persistor := x.persistor.putOrder taker .put } taker ql))
    (h : m.executeOrder E now x taker ql = .ok (o', m', x')) :
    ∃ d, Works E now u A
      (startDesk m { x with persistor := x.persistor.putOrder taker .put } taker ql) d ∧
      Ending E d o' m' x' := by
  unfold executeOrder at h
  simp only [bind_ok] at h
  obtain ⟨s, hloop, ⟨m₁, x₁⟩, hfinish, h⟩ := h
  have hend := loop_steps (u := u) (A := A) hd hq rfl rfl rfl hloop
  obtain ⟨hsteps, hquiet, hkept⟩ :=
    finish_steps hd hend.works hend.stored hend.nodup hend.all hfinish
  refine ⟨_, hsteps, ?_⟩
  have hclose : ∀ {y}, y = { x₁ with persistor := x₁.persistor.putOrder s.taker .finish } →
      Ending E ⟨m₁, x₁, some (s.taking ql)⟩ s.taker m₁ y := by
    rintro y rfl
    exact .closed (k := s.taking ql) hquiet
  simp only at h
  split at h
  · simp only [pure_ok, Prod.mk.injEq] at h
    obtain ⟨rfl, rfl, hx⟩ := h
    exact hclose hx.symm
  rename_i hcancel
  split at h
  · simp only [pure_ok, Prod.mk.injEq] at h
    obtain ⟨rfl, rfl, hx⟩ := h
    exact hclose hx.symm
  rename_i hlimit
  split at h
  · simp only [pure_ok, Prod.mk.injEq] at h
    obtain ⟨rfl, rfl, hx⟩ := h
    exact hclose hx.symm
  rename_i hopen
  simp only [bind_ok, pure_ok, Prod.mk.injEq] at h
  obtain ⟨⟨o₂, m₂⟩, hinsert, bm, hfreeze, rfl, rfl, rfl⟩ := h
  obtain ⟨rfl, rfl⟩ := insertOrder_ok hinsert
  have hlim : s.taker.type_ = .limit := by
    cases ht : s.taker.type_ with
    | limit => rfl
    | market => exact absurd ht hlimit
  refine .rests (k := s.taking ql) hquiet hlim hopen hfreeze fun id p hp hs => ?_
  exact hend.clear (by simpa using hcancel) hlim hopen id p (hkept id p hp) (hquiet id p hp) hs

theorem executeOrder_steps {taker : Order} (hq : m.Quiet)
    (hd : DeskOK (startDesk m { x with persistor := x.persistor.putOrder taker .put } taker ql))
    (h : m.executeOrder E now x taker ql = .ok (o', m', x')) :
    Steps E now u A (startDesk m { x with persistor := x.persistor.putOrder taker .put } taker ql)
      ⟨m', x', none⟩ := by
  obtain ⟨d, hsteps, hend⟩ := executeOrder_ends (u := u) (A := A) hq hd h
  exact hsteps.steps.tail hend.step

/-- **`put_order` takes steps**: a refused order takes none. -/
theorem putOrder_steps {input : OrderInput} {res : Except String Order} (hd : DeskOK ⟨m, x, none⟩)
    (hA : m.checkInput E x.balanceManager input u = .ok () → A m x input)
    (h : m.putOrder E now x input u = .ok (res, m', x')) :
    Steps E now u A ⟨m, x, none⟩ ⟨m', x', none⟩ := by
  unfold putOrder at h
  split at h
  · simp only [pure_ok, Prod.mk.injEq] at h
    obtain ⟨-, rfl, rfl⟩ := h
    exact Relation.ReflTransGen.refl
  · rename_i hcheck
    simp only [bind_ok, pure_ok, Prod.mk.injEq] at h
    obtain ⟨ql, hql, ⟨o, m₁, x₁⟩, hex, -, rfl, rfl⟩ := h
    have hstep : Step E now u A ⟨m, x, none⟩ _ := Step.accept (hA hcheck) hcheck hql
    exact (executeOrder_steps (x := { x with sequencer := x.sequencer.nextOrderId.2 })
      (hd.quiet rfl) (hstep.deskOK hd) hex).head hstep

/-- **`cancel` takes one step.** -/
theorem cancel_steps {id : ℕ} (hd : DeskOK ⟨m, x, none⟩) (h : m.cancel E x id = .ok (o, m', x')) :
    m.resting id = some o ∧ Steps E now o.user A ⟨m, x, none⟩ ⟨m', x', none⟩ := by
  simp only [cancel, deep, bind_ok, pure_ok, unwrap_ok, Prod.mk.injEq] at h
  obtain ⟨_, ⟨rc, hrc, rfl⟩, ⟨m₁, x₁⟩, hfin, rfl, rfl, rfl⟩ := h
  obtain ⟨rfl, bm, hbm, rfl⟩ := orderFinish_ok hfin
  refine ⟨resting_some.2 ⟨rc, hrc, rfl⟩, Relation.ReflTransGen.single (Step.cancel ?_ rfl hbm)⟩
  rw [hd.index.ownId _ _ hrc]; exact hrc

/-- **`cancel_all_for_user` takes one step for each order of the user.** -/
theorem cancelAllForUser_steps {n : ℕ} (hd : DeskOK ⟨m, x, none⟩)
    (h : m.cancelAllForUser E x u = .ok (n, m', x')) :
    Steps E now u A ⟨m, x, none⟩ ⟨m', x', none⟩ := by
  simp only [cancelAllForUser, bind_ok, pure_ok, Prod.mk.injEq] at h
  obtain ⟨s, hloop, -, rfl, rfl⟩ := h
  -- the ids still to come are those of resting orders of the user
  let P (l : List ℕ) (s : Market × Ctx) : Prop :=
    Steps E now u A ⟨m, x, none⟩ ⟨s.1, s.2, none⟩ ∧ l.Nodup ∧
      ∀ id ∈ l, ∃ o, s.1.resting id = some o ∧ o.user = u
  have hstart : P (((m.users[u]?).getD ∅).toList.map Prod.fst) (m, x) := by
    refine ⟨Relation.ReflTransGen.refl, nodup_keys _, fun id hid => ?_⟩
    obtain ⟨⟨i, rc⟩, he, rfl⟩ := List.mem_map.1 hid
    rw [Std.TreeMap.mem_toList_iff_getElem?_eq_some] at he
    obtain ⟨ho, hu⟩ := (hd.index.users u i rc).1 he
    exact ⟨_, resting_some.2 ⟨rc, ho, rfl⟩, hu⟩
  refine (foldlM_rule (P := P) ?_ _ _ s hstart hloop).1
  rintro id l ⟨m, x⟩ ⟨m', x'⟩ ⟨hsteps, hnodup, hrest⟩ h
  simp only [deep, bind_ok, pure_ok, unwrap_ok] at h
  obtain ⟨_, ⟨rc, hrc, rfl⟩, hfin⟩ := h
  obtain ⟨rfl, bm, hbm, rfl⟩ := orderFinish_ok hfin
  have hid : (m.rcs.read rc).id = id := (Steps.deskOK hsteps hd).index.ownId _ _ hrc
  obtain ⟨o, ho, hu⟩ := hrest id (by simp)
  obtain rfl : m.rcs.read rc = o := by
    obtain ⟨r, hr, rfl⟩ := resting_some.1 ho
    rw [Option.some.inj (hrc.symm.trans hr)]
  refine ⟨hsteps.tail (Step.cancel (by rw [hid]; exact hrc) hu hbm), (List.nodup_cons.1 hnodup).2,
    fun j hj => ?_⟩
  obtain ⟨p, hp, hpu⟩ := hrest j (List.mem_cons_of_mem _ hj)
  refine ⟨p, ?_, hpu⟩
  have hne : id ≠ j := fun hc => (List.nodup_cons.1 hnodup).1 (hc ▸ hj)
  rw [resting_without, hid, if_neg hne]; exact hp

end Market

end Dingir
