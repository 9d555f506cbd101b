import Dingir.Proof.Solvency
import Dingir.Proof.Slices
import Dingir.Proof.Conservation

/-!
# When an order is executed to its end

No `unwrap` and no assertion of a settlement fails when its keys are not in the
filter and each of its four balances covers what is taken (`settle_total`). From
there the matching loop, the removal of the filled makers and the end of the
order return as well, in every build: **`putOrder_total`**.

What carries it is `Plain`: limit orders without fees, at a positive price as long
as they want something.
-/

namespace Dingir

open Keyed Rounding Posting Outcome Market

variable {E : Env} {settings : Settings} {now : Timestamp} {real : Bool} {u : Uuid} {m m' : Market}
  {x x' : Ctx} {k : Taking} {rc : OrderRc} {t : Trade} {o : Order} {d d' : Desk}
  {c c' b : Controller}

/-! ## Balances -/

namespace BalanceManager

variable {bm : BalanceManager} {a : String} {v : Decimal} {p : ℕ} {bt : BalanceType}

theorem setByKey_total (E : Env) {k : BalanceMapKey}
    (hp : bm.assetManager.assetPrec k.asset = .ok p) (hv : 0 ≤ v) :
    ∃ bm', bm.setByKey E k v = .ok bm' := by
  unfold setByKey
  rw [Env.debugAssert_of hv, hp]
  exact ⟨_, rfl⟩

theorem add_total (E : Env) (hp : bm.assetManager.assetPrec a = .ok p)
    (hold : 0 ≤ bm.getByKey ⟨u, bt, a⟩) (hv : 0 ≤ v) : ∃ r, bm.add E u bt a v = .ok r := by
  have hround : 0 ≤ roundDp v p := roundDp_nonneg hv
  have hnew : 0 ≤ bm.getByKey ⟨u, bt, a⟩ + roundDp v p := by linarith
  obtain ⟨bm', hbm'⟩ := setByKey_total E (k := ⟨u, bt, a⟩) hp hnew
  simp only [add, bind_ok, pure_ok]
  exact ⟨_, (), Env.debugAssert_of hv, p, hp, bm', hbm', rfl⟩

theorem sub_total (E : Env) (hp : bm.assetManager.assetPrec a = .ok p) (hv : 0 ≤ v)
    (hcover : roundDp v p ≤ bm.getByKey ⟨u, bt, a⟩) : ∃ r, bm.sub E u bt a v = .ok r := by
  have hnew : 0 ≤ bm.getByKey ⟨u, bt, a⟩ - roundDp v p := by linarith
  obtain ⟨bm', hbm'⟩ := setByKey_total E (k := ⟨u, bt, a⟩) hp hnew
  simp only [sub, bind_ok, pure_ok]
  exact ⟨_, (), Env.debugAssert_of hv, p, hp, (), Env.debugAssert_of hcover, (),
    Env.debugAssert_of hnew, bm', hbm', rfl⟩

/-- **Freezing returns** when `AVAILABLE` covers the amount. -/
theorem frozen_total (E : Env) (hg : Gridded bm) (hp : bm.assetManager.assetPrec a = .ok p)
    (hgrid : OnGrid p v) (hv : 0 ≤ v) (hcover : v ≤ bm.getByKey ⟨u, .available, a⟩)
    (hfreeze : 0 ≤ bm.getByKey ⟨u, .freeze, a⟩) : ∃ bm', bm.frozen E u a v = .ok bm' := by
  have hround : roundDp v p = v := hgrid.roundDp_eq
  obtain ⟨⟨w, bm₁⟩, h₁⟩ := sub_total E hp hv (hround.trans_le hcover)
  obtain ⟨q, hq, hpost⟩ := sub_posted hg h₁
  have hsame : bm₁.getByKey ⟨u, .freeze, a⟩ = bm.getByKey ⟨u, .freeze, a⟩ := by
    rw [hpost.balance, amountIn_cons, if_neg (by simp), amountIn_nil, add_zero, add_zero]
  have hp₁ : bm₁.assetManager.assetPrec a = .ok p := by
    rw [hpost.assets]
    exact hp
  obtain ⟨r, h₂⟩ := add_total E hp₁ (hsame.symm ▸ hfreeze) hv
  have hcover' : roundDp v p ≤ bm.getByKey ⟨u, .available, a⟩ := hround.trans_le hcover
  simp only [frozen, bind_ok, pure_ok]
  exact ⟨_, (), Env.debugAssert_of hv, p, hp, (), Env.debugAssert_of hcover', (w, bm₁),
    hround.symm ▸ h₁, r,
    hround.symm ▸ h₂, rfl⟩

end BalanceManager

/-! ## A settlement -/

theorem persistUpdate_total (E : Env) (now : Timestamp) {bm : BalanceManager} {pe : PersistExector}
    {p : BalanceUpdateParams} (hp : p.detail = .null) :
    ∃ pe', persistUpdate E now bm pe p = .ok pe' := by
  unfold persistUpdate
  split
  · rw [hp]
    cases hb : p.businessType <;> exact ⟨_, rfl⟩
  · exact ⟨_, rfl⟩

/-- A change returns when the balance stays non-negative. -/
theorem applyChange_total (E : Env) {bm : BalanceManager} {p : BalanceUpdateParams} {q : ℕ}
    (hq : bm.assetManager.assetPrec p.asset = .ok q) (hgrid : OnGrid q p.change)
    (hold : 0 ≤ bm.getByKey p.account) (hnew : 0 ≤ bm.getByKey p.account + p.change) :
    ∃ bm', applyChange E bm p = .ok (.ok bm') := by
  unfold applyChange
  simp only
  by_cases hpos : 0 ≤ p.change
  · rw [if_pos hpos]
    obtain ⟨r, hr⟩ := BalanceManager.add_total E hq hold (abs_nonneg p.change)
    exact ⟨r.2, bind_ok.2 ⟨r, hr, rfl⟩⟩
  · have habs : |p.change| = -p.change := abs_of_neg (not_le.1 hpos)
    have hle : |p.change| ≤ bm.getByKey p.account := by linarith
    have hround : roundDp |p.change| q ≤ bm.getByKey ⟨p.userId, p.balanceType, p.asset⟩ := by
      rw [hgrid.abs.roundDp_eq]
      exact hle
    obtain ⟨r, hr⟩ := BalanceManager.sub_total E hq (abs_nonneg p.change) hround
    have hcover : ¬ bm.get p.userId p.balanceType p.asset < |p.change| := not_lt.2 hle
    rw [if_neg hpos, if_neg hcover]
    exact ⟨r.2, bind_ok.2 ⟨r, hr, rfl⟩⟩

/-- **A leg of a settlement returns** when its key is free and its balance stays non-negative. -/
theorem settleOne_total {tradeId : ℕ} {bt : BalanceType} {asset : String} {change : Decimal} {q : ℕ}
    (hq : x.balanceManager.assetManager.assetPrec asset = .ok q) (hgrid : OnGrid q change)
    (hfree : ∀ a ∈ x.updateController.cache.entries, a.1 ≠ tradeKey tradeId bt u asset)
    (hold : 0 ≤ x.balanceManager.getByKey ⟨u, bt, asset⟩)
    (hnew : 0 ≤ x.balanceManager.getByKey ⟨u, bt, asset⟩ + change) :
    ∃ x', settleOne E now x m tradeId bt u asset change = .ok x' := by
  have hfresh : x.updateController.cache.containsKey now (tradeKey tradeId bt u asset) = false :=
    TtlCache.containsKey_eq_false hfree
  unfold settleOne
  set p : BalanceUpdateParams :=
    { balanceType := bt, businessType := .trade, userId := u, businessId := tradeId, asset,
                                   business := "trade", marketPrice := m.price, change,
                                   detail := .null }
  obtain ⟨bm, hbm⟩ := applyChange_total E (p := p) hq hgrid hold hnew
  have hpersist : ∃ pe, persistUpdate E now bm x.persistor p = .ok pe :=
    persistUpdate_total E now rfl
  obtain ⟨pe, hpe⟩ := hpersist
  have hupdate : updateUserBalance E now x p = .ok (.ok (), { x with
      balanceManager := bm
      updateController := ⟨x.updateController.cache.insert now p.key filterTtl⟩
      persistor := pe }) := by
    unfold updateUserBalance
    rw [if_neg (by rw [show p.key = tradeKey tradeId bt u asset from rfl, hfresh]; simp)]
    exact bind_ok.2 ⟨.ok bm, hbm, bind_ok.2 ⟨pe, hpe, rfl⟩⟩
  exact ⟨_, bind_ok.2 ⟨_, hupdate, rfl⟩⟩

/-- The legs of a settlement one after the other. -/
theorem settle_eq (x : Ctx) (m : Market) (takerIsAsk : Bool) (t : Trade) :
    settle E now x m takerIsAsk t = (t.postings m takerIsAsk).foldlM
      (fun y e => settleOne E now y m t.id e.1.balanceType e.1.userId e.1.asset e.2) x := by
  unfold settle Trade.postings
  simp only [List.foldlM_cons, List.foldlM_nil, bind_pure]

/-- **A settlement returns** when its keys are free, its four balances differ, and each
stays non-negative. -/
theorem settle_total {takerIsAsk : Bool} (hg : Gridded x.balanceManager)
    (hgrid : ∀ e ∈ t.postings m takerIsAsk, ∃ q,
      x.balanceManager.assetManager.assetPrec e.1.asset = .ok q ∧ OnGrid q e.2)
    (hfree : ∀ a ∈ x.updateController.cache.entries, ¬ TradeKeys t.id a.1)
    (hnodup : ((t.postings m takerIsAsk).map Prod.fst).Nodup)
    (hcover : ∀ e ∈ t.postings m takerIsAsk, 0 ≤ x.balanceManager.getByKey e.1 ∧
      0 ≤ x.balanceManager.getByKey e.1 + e.2) :
    ∃ x', settle E now x m takerIsAsk t = .ok x' := by
  rw [settle_eq]
  let P (l : List (BalanceMapKey × Decimal)) (y : Ctx) : Prop :=
    (∀ e ∈ l, e ∈ t.postings m takerIsAsk) ∧ (l.map Prod.fst).Nodup ∧ Gridded y.balanceManager ∧
      y.balanceManager.assetManager = x.balanceManager.assetManager ∧
      ∀ e ∈ l, y.balanceManager.getByKey e.1 = x.balanceManager.getByKey e.1 ∧
        ∀ a ∈ y.updateController.cache.entries,
          a.1 ≠ tradeKey t.id e.1.balanceType e.1.userId e.1.asset
  have hstart : P (t.postings m takerIsAsk) x :=
    ⟨fun _ => id, hnodup, hg, rfl, fun e _ => ⟨rfl, fun a ha hk => hfree a ha (hk ▸ ⟨rfl, rfl⟩)⟩⟩
  refine (foldlM_total (P := P) ?_ _ _ hstart).imp fun x' h => h.1
  rintro e l y ⟨hmem, hnodup, hgy, hassets, hrest⟩
  rw [List.map_cons, List.nodup_cons] at hnodup
  obtain ⟨q, hq, hgrid⟩ := hgrid e (hmem e (by simp))
  obtain ⟨hold, hnew⟩ := hcover e (hmem e (by simp))
  obtain ⟨hsame, hfree⟩ := hrest e (by simp)
  have hone : ∃ y', settleOne E now y m t.id e.1.balanceType e.1.userId e.1.asset e.2 = .ok y' :=
    settleOne_total (hassets ▸ hq) hgrid hfree (by rw [hsame]; exact hold)
      (by rw [hsame]; exact hnew)
  obtain ⟨y', hy'⟩ := hone
  have hleg := settleOne_ok hgy (hassets ▸ hq) hgrid hy'
  obtain ⟨-, hcache⟩ := settleOne_cache hy'
  refine ⟨y', hy', fun e' he' => hmem e' (List.mem_cons_of_mem _ he'), hnodup.2, hleg.gridded,
    hleg.posted.assets.trans hassets, fun e' he' => ?_⟩
  -- the legs to come are of other balances
  have hne : e.1 ≠ e'.1 := fun he => hnodup.1 (he ▸ List.mem_map_of_mem he')
  obtain ⟨hsame', hfree'⟩ := hrest e' (List.mem_cons_of_mem _ he')
  refine ⟨?_, fun a ha => ?_⟩
  · rw [hleg.posted.balance, amountIn_cons, if_neg hne, amountIn_nil, add_zero, add_zero]
    exact hsame'
  · have hins : TtlCache.Inserted (· = tradeKey t.id e.1.balanceType e.1.userId e.1.asset)
        y.updateController.cache 1 y'.updateController.cache := by
      rw [hcache]
      exact .insert .refl rfl
    rcases hins.mem ha with hold | hnew
    · exact hfree' a hold
    · intro hk
      obtain ⟨hbt, hu, ha⟩ := tradeKey_inj.1 (hnew.symm.trans hk)
      obtain ⟨⟨_, _, _⟩, _⟩ := e
      obtain ⟨⟨_, _, _⟩, _⟩ := e'
      simp only at hbt hu ha
      exact hne (by rw [hbt, hu, ha])

/-! ## Orders that are sure to settle -/

/-- A limit order without fees, at a positive price unless it is for nothing. -/
def Plain (_ : Market) (_ : Ctx) (input : OrderInput) : Prop :=
  input.type_ = .limit ∧ input.takerFee = 0 ∧ input.makerFee = 0 ∧
    (input.amount ≠ 0 → 0 < input.price)

theorem Plain.signed {input : OrderInput} (h : Plain m x input) : Signed m x input := by
  obtain ⟨hlim, -, -, hprice⟩ := h
  by_cases hz : input.amount = 0
  · exact .inr ⟨hlim, hz⟩
  · refine .inl fun _ => ?_
    rw [if_pos hlim]
    exact (hprice hz).le

/-- The same of an order. -/
structure Order.Plain (o : Order) : Prop where
  limit : o.type_ = .limit
  takerFee : o.takerFee = 0
  makerFee : o.makerFee = 0
  price : o.remain ≠ 0 → 0 < o.price

/-- All orders of a market at work are plain. -/
structure Desk.Plain (d : Desk) : Prop where
  resting : ∀ id o, d.market.resting id = some o → o.Plain
  taking : ∀ k, d.taking = some k → k.order.Plain

theorem Step.plain (h : Step E now u Plain d d') (hd : DeskOK d) (hp : d.Plain) : d'.Plain := by
  refine ⟨fun id o ho => ?_, fun k' hk' => ?_⟩
  · rcases h.resting hd ho with ho | ⟨_, _, k, rc, t, -, -, hmeet, -, -, rfl⟩ |
      ⟨k, hk, -, -, -, -, rfl⟩
    · exact hp.resting id o ho
    · have hm := hp.resting _ _ hmeet.resting
      exact ⟨hm.limit, hm.takerFee, hm.makerFee, fun _ => hm.price hmeet.makerOpen⟩
    · have hk := hp.taking k hk
      exact ⟨hk.limit, hk.takerFee, hk.makerFee, hk.price⟩
  · cases h with
    | accept hA _ _ =>
      obtain ⟨hlim, htaker, hmaker, hprice⟩ := hA
      rw [← Option.some.inj hk']
      exact ⟨hlim, htaker, hmaker, hprice⟩
    | @trade m m' x x' k rc t hmeet ht =>
      have hk := hp.taking k rfl
      rw [← Option.some.inj hk']
      exact ⟨hk.limit, hk.takerFee, hk.makerFee, fun _ => hk.price hmeet.takerOpen⟩
    | finish _ _ =>
      rw [← Option.some.inj hk']
      exact hp.taking _ rfl
    | _ => simp at hk'

/-- **A market at work whose next order is sure to settle.** -/
structure Desk.Settles (d : Desk) : Prop where
  ok : DeskOK d
  solvent : d.Solvent
  plain : d.Plain
  filtered : Filtered (fun _ => True) d.ctx
  selfTrade : d.market.disableSelfTrade = true
  assets : d.market.base ≠ d.market.quote

theorem Step.settles (h : Step E now u Plain d d') (hd : d.Settles) : d'.Settles := by
  have hterms := h.sameTerms
  refine ⟨h.deskOK hd.ok, h.solvent (fun _ _ _ => Plain.signed) hd.ok hd.solvent,
    h.plain hd.ok hd.plain, h.filtered hd.filtered,
    hterms.disableSelfTrade.trans hd.selfTrade, ?_⟩
  rw [hterms.base, hterms.quote]
  exact hd.assets

theorem Steps.settles (h : Steps E now u Plain d d') (hd : d.Settles) : d'.Settles := by
  induction h with
  | refl => exact hd
  | tail _ hstep ih => exact hstep.settles ih

/-! ## A trade -/

/-- What backs a resting order is there. -/
theorem Desk.Settles.backs (hd : d.Settles) {id : ℕ} (ho : d.market.resting id = some o) :
    o.restFrozen ≤ d.ctx.balanceManager.getByKey (d.market.backAccount o) := by
  have hexcess := hd.solvent.excess o.user (d.market.payAsset o)
  have hsum := frozenOf_eq d.market id o.user (d.market.payAsset o)
  have hrest : 0 ≤ Keyed.tally
      (fun _ rc => (d.market.rcs.read rc).frozenOf d.market o.user (d.market.payAsset o))
      (d.market.orders.erase id) := by
    refine tally_nonneg fun j rc hrc => ?_
    rw [getElem?_erase] at hrc
    split at hrc
    · simp at hrc
    · have hj : d.market.resting j = some (d.market.rcs.read rc) := resting_some.2 ⟨rc, hrc, rfl⟩
      refine ite_nonneg ?_ le_rfl
      rw [(hd.ok.backed j _ hj).frozen]
      exact (hd.solvent.resting j _ hj).restFrozen
  have hat : d.market.frozenAt id o.user (d.market.payAsset o) = o.restFrozen := by
    unfold Market.frozenAt
    rw [ho]
    show o.frozenOf d.market o.user (d.market.payAsset o) = _
    rw [Order.frozenOf_eq,
      if_pos (show d.market.backAccount o = ⟨o.user, .freeze, d.market.payAsset o⟩ from rfl)]
    exact (hd.ok.backed id o ho).frozen
  unfold Desk.excess at hexcess
  show o.restFrozen ≤ d.ctx.balanceManager.getByKey ⟨o.user, .freeze, d.market.payAsset o⟩
  linarith

section Trade

variable {s s' : MatchState} {ql amount : Decimal} {tradeId : ℕ}

/-- The trade of a round. -/
def roundTrade (now : Timestamp) (s : MatchState) (rc : OrderRc) (tradeId : ℕ)
    (amount : Decimal) : Trade :=
  createTrade now s.market tradeId (s.taker.touched now) ((s.market.rcs.read rc).touched now) amount

theorem afterFee_zero (a b : Decimal) (p : ℕ) : afterFee a (truncDp (b * 0) p) = a := by
  have hz : truncDp (b * 0) p = 0 := by simp [truncDp, trunc]
  rw [hz]
  simp [afterFee]

/-- **The funds of a trade are there**: what its four legs leave of their balances is not
negative. -/
theorem Desk.Settles.covers (hd : (s.desk ql).Settles) (hm : Meets s.market (s.taking ql) rc)
    (hpos : 0 < amount) (htaker : amount ≤ s.taker.remain)
    (hmaker : amount ≤ (s.market.rcs.read rc).remain) :
    ∀ e ∈ (roundTrade now s rc tradeId amount).postings s.market s.taker.isAsk,
      0 ≤ s.ctx.balanceManager.getByKey e.1 ∧ 0 ≤ s.ctx.balanceManager.getByKey e.1 + e.2 := by
  have hbal : ∀ j, 0 ≤ s.ctx.balanceManager.getByKey j := hd.solvent.balances hd.ok
  have hk := hd.plain.taking _ rfl
  have ho : (s.market.rcs.read rc).Plain := hd.plain.resting _ _ hm.resting
  have hprice := ho.price hm.makerOpen
  have hfunds : s.taker.restFrozen ≤ s.ctx.balanceManager.getByKey (s.market.payAccount s.taker) :=
    ((hd.solvent.taking _ rfl).limit hk.limit).2
  have hback : (s.market.rcs.read rc).restFrozen ≤
      s.ctx.balanceManager.getByKey (s.market.backAccount (s.market.rcs.read rc)) :=
        hd.backs hm.resting
  have hkfee : s.taker.takerFee = 0 := hk.takerFee
  have hofee : (s.market.rcs.read rc).makerFee = 0 := ho.makerFee
  have hcost : 0 < (s.market.rcs.read rc).price * amount := mul_pos hprice hpos
  rcases hm.sides with ⟨hs, hside⟩ | ⟨hs, hside⟩
  · -- the taker gives the base, the maker has frozen the quote
    have hs : s.taker.isAsk = true := hs
    have htakerSide : s.taker.side = .ask := isAsk_iff.1 hs
    have hbase : s.taker.remain ≤
        s.ctx.balanceManager.getByKey ⟨s.taker.user, .available, s.market.base⟩ := by
      simpa [Order.restFrozen, htakerSide, Market.payAccount, Market.payAsset, hs] using hfunds
    have hquote : (s.market.rcs.read rc).remain * (s.market.rcs.read rc).price ≤
        s.ctx.balanceManager.getByKey ⟨(s.market.rcs.read rc).user, .freeze, s.market.quote⟩ := by
      simpa [Order.restFrozen, hside, Market.backAccount, Market.payAsset, Order.isAsk] using hback
    have hle := mul_le_mul_of_nonneg_right hmaker hprice.le
    intro e he
    simp only [Trade.postings, roundTrade, createTrade, askOf, bidOf, Order.touched, Order.isAsk,
      htakerSide,
      decide_true, if_true, hkfee, hofee, afterFee_zero, List.mem_cons, List.not_mem_nil,
      or_false] at he
    rcases he with rfl | rfl | rfl | rfl <;> refine ⟨hbal _, ?_⟩ <;> simp only
    · linarith [hbal ⟨(s.market.rcs.read rc).user, .available, s.market.base⟩]
    · linarith
    · linarith [hbal ⟨s.taker.user, .available, s.market.quote⟩]
    · linarith
  · -- the taker pays the quote at the maker's price, the maker has frozen the base
    have hs : s.taker.isAsk = false := hs
    have htakerSide : s.taker.side ≠ .ask := fun hc => by simp [Order.isAsk, hc] at hs
    have hcross : (s.market.rcs.read rc).price ≤ s.taker.price := by
      have hc := hm.crosses hk.limit
      simpa [askOf, bidOf, MatchState.taking, hs] using hc
    have hquote : s.taker.remain * s.taker.price ≤
        s.ctx.balanceManager.getByKey ⟨s.taker.user, .available, s.market.quote⟩ := by
      simpa [Order.restFrozen, htakerSide, Market.payAccount, Market.payAsset, hs] using hfunds
    have hbase : (s.market.rcs.read rc).remain ≤
        s.ctx.balanceManager.getByKey ⟨(s.market.rcs.read rc).user, .freeze, s.market.base⟩ := by
      simpa [Order.restFrozen, hside, Market.backAccount, Market.payAsset, Order.isAsk] using hback
    have hle : (s.market.rcs.read rc).price * amount ≤ s.taker.remain * s.taker.price := by
      calc (s.market.rcs.read rc).price * amount ≤ s.taker.price * amount :=
            mul_le_mul_of_nonneg_right hcross hpos.le
        _ ≤ s.taker.price * s.taker.remain :=
          mul_le_mul_of_nonneg_left htaker (hprice.le.trans hcross)
        _ = s.taker.remain * s.taker.price := mul_comm _ _
    intro e he
    simp only [Trade.postings, roundTrade, createTrade, askOf, bidOf, Order.touched, Order.isAsk,
      htakerSide,
      decide_false, Bool.false_eq_true, if_false, hkfee, hofee, afterFee_zero, List.mem_cons,
      List.not_mem_nil,
      or_false] at he
    rcases he with rfl | rfl | rfl | rfl <;> refine ⟨hbal _, ?_⟩ <;> simp only
    · linarith [hbal ⟨s.taker.user, .available, s.market.base⟩]
    · linarith
    · linarith [hbal ⟨(s.market.rcs.read rc).user, .available, s.market.quote⟩]
    · linarith

/-- Between two users and in two assets the four balances of a trade differ. -/
theorem postings_nodup {takerIsAsk : Bool} (hu : t.askUserId ≠ t.bidUserId)
    (ha : m.base ≠ m.quote) : ((t.postings m takerIsAsk).map Prod.fst).Nodup := by
  simp [Trade.postings, hu, hu.symm, ha]

/-- **A trade returns**, between orders of two users. -/
theorem executeTrade_total (E : Env) (now : Timestamp) (hd : (s.desk ql).Settles)
    (hm : Meets s.market (s.taking ql) rc)
    (hamount : amount = min s.taker.remain (s.market.rcs.read rc).remain)
    (hself : (s.market.rcs.read rc).user ≠ s.taker.user) :
    ∃ s', executeTrade E now ql rc amount s = .ok s' := by
  set maker := s.market.rcs.read rc with hmaker
  have hk := hd.plain.taking _ rfl
  have ho : maker.Plain := hd.plain.resting _ _ hm.resting
  have hprice : 0 < maker.price := ho.price hm.makerOpen
  have htakerNonneg : 0 ≤ s.taker.remain := (hd.solvent.taking _ rfl).remain
  have hmakerNonneg : 0 ≤ maker.remain := (hd.solvent.resting _ _ hm.resting).remain
  have htakerLe : amount ≤ s.taker.remain := hamount ▸ min_le_left _ _
  have hmakerLe : amount ≤ maker.remain := hamount ▸ min_le_right _ _
  have hpos : 0 < amount := by
    rw [hamount]
    exact lt_min (htakerNonneg.lt_of_ne' hm.takerOpen) (hmakerNonneg.lt_of_ne' hm.makerOpen)
  have hlim : s.taker.type_ = .limit := hk.limit
  set t := roundTrade now s rc (s.ctx.sequencer.tradeId + 1) amount with ht
  have husers : t.askUserId ≠ t.bidUserId := by
    show (askOf (s.taker.touched now) (maker.touched now)).user ≠
      (bidOf (s.taker.touched now) (maker.touched now)).user
    unfold askOf bidOf
    split
    · exact hself.symm
    · exact hself
  have hgrid : OnGrid s.market.amountPrec amount := by
    rw [hamount]
    exact (hd.ok.taking _ rfl).fits.remain.min (hd.ok.backed _ _ hm.resting).fits.remain
  have hquote : OnGrid s.market.quotePrec (maker.price * amount) := by
    rw [mul_comm]
    exact (hgrid.mul (hd.ok.backed _ _ hm.resting).fits.price).mono hd.ok.prec.sum_le
  have hgrids : ∀ e ∈ t.postings s.market s.taker.isAsk,
      ∃ q, s.ctx.balanceManager.assetManager.assetPrec e.1.asset = .ok q ∧ OnGrid q e.2 := by
    have hbase := hgrid.mono hd.ok.prec.amount_le
    intro e he
    simp only [Trade.postings, List.mem_cons, List.not_mem_nil, or_false] at he
    rcases he with rfl | rfl | rfl | rfl
    · exact ⟨_, hd.ok.prec.base, onGrid_afterFee hbase (onGrid_truncDp _ _)⟩
    · exact ⟨_, hd.ok.prec.base, hbase.neg⟩
    · exact ⟨_, hd.ok.prec.quote, onGrid_afterFee hquote (onGrid_truncDp _ _)⟩
    · exact ⟨_, hd.ok.prec.quote, hquote.neg⟩
  have hfree : ∀ a ∈ s.ctx.updateController.cache.entries, ¬ TradeKeys t.id a.1 := by
    rintro a ha ⟨htype, hid⟩
    have hle := hd.filtered.trade a ha htype
    rw [hid] at hle
    exact absurd hle (Nat.not_succ_le_self _)
  have hsettles : ∃ x₁, settle E now { s.ctx with sequencer := s.ctx.sequencer.nextTradeId.2 }
    s.market s.taker.isAsk t =
      .ok x₁ := settle_total hd.ok.gridded hgrids hfree (postings_nodup husers hd.assets)
    (hd.covers hm hpos htakerLe hmakerLe)
  obtain ⟨x₁, hsettle⟩ := hsettles
  have hremains : 0 ≤ s.taker.remain - amount ∧ 0 ≤ maker.remain - amount :=
    ⟨by linarith, by linarith⟩
  unfold executeTrade
  simp only [bind_ok, pure_ok]
  refine ⟨_, (), Env.debugAssert_of hpos.ne', (), Env.debugAssert_of (mul_pos hprice hpos).ne', (),
    Env.debugAssert_of ?_, (), Env.debugAssert_of fun _ => husers, (), Env.debugAssert_of ?_, (),
    Env.debugAssert_of ?_, x₁,
    hsettle, rfl⟩
  · rintro ⟨-, hmarket⟩
    exact absurd (hmarket.symm.trans hlim) (by decide)
  · exact askOf_remain_nonneg hremains.1 hremains.2
  · exact bidOf_remain_nonneg hremains.1 hremains.2

/-- **A round of the matching loop returns.** -/
theorem matchMaker_total (E : Env) (now : Timestamp) (hd : (s.desk ql).Settles)
    (hm : ∀ amount, Tries s ql rc amount → Meets s.market (s.taking ql) rc) :
    ∃ r, matchMaker E now ql rc s = .ok r := by
  have hlim : s.taker.type_ = .limit := (hd.plain.taking _ rfl).limit
  have huser : (askOf s.taker (s.market.rcs.read rc)).user =
      (bidOf s.taker (s.market.rcs.read rc)).user ↔
      (s.market.rcs.read rc).user = s.taker.user := by
    unfold askOf bidOf
    split <;> simp [eq_comm]
  have hmin : min (askOf s.taker (s.market.rcs.read rc)).remain
      (bidOf s.taker (s.market.rcs.read rc)).remain =
      min s.taker.remain (s.market.rcs.read rc).remain := by
    unfold askOf bidOf
    split
    · rfl
    · exact min_comm _ _
  have hselfTrade : s.market.disableSelfTrade = true := hd.selfTrade
  have hamount : s.market.tradedBaseAmount s.taker (askOf s.taker (s.market.rcs.read rc))
      (bidOf s.taker (s.market.rcs.read rc)) (s.market.rcs.read rc).price ql s.quoteSum =
      .ok (some (min (askOf s.taker (s.market.rcs.read rc)).remain
        (bidOf s.taker (s.market.rcs.read rc)).remain)) :=
    tradedBaseAmount_limit hlim
  unfold matchMaker
  simp only
  by_cases hopen : s.taker.remain = 0
  · exact ⟨_, by rw [if_pos hopen]; rfl⟩
  rw [if_neg hopen]
  by_cases hapart : s.taker.type_ = .limit ∧
      (bidOf s.taker (s.market.rcs.read rc)).price < (askOf s.taker (s.market.rcs.read rc)).price
  · exact ⟨_, by rw [if_pos hapart]; rfl⟩
  rw [if_neg hapart]
  by_cases hpost : s.taker.postOnly = true
  · exact ⟨_, by rw [if_pos hpost]; rfl⟩
  rw [if_neg hpost]
  by_cases hself : (s.market.rcs.read rc).user = s.taker.user
  · exact ⟨_, by rw [if_pos ⟨huser.2 hself, hselfTrade⟩]; rfl⟩
  rw [if_neg fun hc => hself (huser.1 hc.1), hamount]
  -- the two orders are of two users and meet
  have htries : Tries s ql rc _ :=
    ⟨hopen, fun hl => not_lt.1 fun hlt => hapart ⟨hl, hlt⟩, by simpa using hpost, hamount⟩
  obtain ⟨s', hs'⟩ := executeTrade_total E now hd (hm _ htries) hmin hself
  exact ⟨_, bind_ok.2 ⟨_, rfl, bind_ok.2 ⟨s', hs', rfl⟩⟩⟩

end Trade

/-! ## The end of an order -/

/-- A filled order is taken off without a failure. -/
theorem orderFinish_total (E : Env) (hm : m.IndexOK) (ho : m.resting o.id = some o)
    (hz : o.remain = 0) : ∃ r, m.orderFinish E x o = .ok r := by
  obtain ⟨rc, hrc, hread⟩ := resting_some.1 ho
  have hid : o.id ∈ m.orders := Std.TreeMap.mem_iff_isSome_getElem?.2 (by rw [hrc]; rfl)
  have huser : (m.userOrders o.user)[o.id]? = some rc := (hm.users _ _ _).2 ⟨hrc, by rw [hread]⟩
  have hfree : m.unfrozenBalance E x.balanceManager o = .ok x.balanceManager := by
    unfold unfrozenBalance
    rw [Env.debugAssert_of hz.ge]
    show (if o.remain = 0 then _ else _) = _
    rw [if_pos hz]
    rfl
  refine ⟨_, orderFinish_iff.2 ⟨⟨?_, Env.debugAssert_of hid, ?_, Env.debugAssert_of ?_⟩, _, hfree,
    rfl, rfl⟩⟩
  · split
    · rename_i hs
      have hask : m.asks[o.askKey]? = some rc := (hm.asks _).2 ⟨hrc, by rw [hread]; exact ⟨hs, rfl⟩⟩
      exact Env.debugAssert_of (Std.TreeMap.mem_iff_isSome_getElem?.2 (by rw [hask]; rfl))
    · rename_i hs
      have hbid : m.bids[o.bidKey]? = some rc := (hm.bids _).2 ⟨hrc, by
        rw [hread]
        refine ⟨?_, rfl⟩
        cases hside : o.side with
        | ask => exact absurd hside hs
        | bid => rfl⟩
      exact Env.debugAssert_of (Std.TreeMap.mem_iff_isSome_getElem?.2 (by rw [hbid]; rfl))
  · by_contra hnone
    have hempty : m.userOrders o.user = ∅ := by
      unfold userOrders
      rw [Option.not_isSome_iff_eq_none.1 hnone]
      rfl
    rw [hempty] at huser
    simp at huser
  · exact Std.TreeMap.mem_iff_isSome_getElem?.2 (by rw [huser]; rfl)

/-- The filled makers are taken off one after the other. -/
theorem finishAll_total (E : Env) {items : List Order} (hm : m.IndexOK)
    (hstored : ∀ o ∈ items, o.remain = 0 ∧ m.resting o.id = some o)
    (hnodup : (items.map Order.id).Nodup) :
    ∃ r, items.foldlM (fun (mx : Market × Ctx) item => mx.1.orderFinish E mx.2 item) (m, x) =
      .ok r := by
  let P (l : List Order) (t : Market × Ctx) : Prop :=
    t.1.IndexOK ∧ (∀ o ∈ l, o.remain = 0 ∧ t.1.resting o.id = some o) ∧ (l.map Order.id).Nodup
  refine (foldlM_total (P := P) ?_ items (m, x) ⟨hm, hstored, hnodup⟩).imp fun r h => h.1
  rintro o l ⟨m, x⟩ ⟨hm, hstored, hnodup⟩
  obtain ⟨hz, ho⟩ := hstored o (by simp)
  obtain ⟨⟨m', x'⟩, h⟩ := orderFinish_total E (x := x) hm ho hz
  obtain ⟨rfl, -⟩ := orderFinish_ok h
  obtain ⟨rc, hrc, rfl⟩ := resting_some.1 ho
  rw [List.map_cons, List.nodup_cons] at hnodup
  refine ⟨_, h, hm.without hrc, fun p hp => ?_, hnodup.2⟩
  obtain ⟨hpz, hp'⟩ := hstored p (List.mem_cons_of_mem _ hp)
  have hne : (m.rcs.read rc).id ≠ p.id := fun he => hnodup.1 (List.mem_map.2 ⟨p, hp, he.symm⟩)
  refine ⟨hpz, ?_⟩
  rw [resting_without, if_neg hne]
  exact hp'

/-- **What is left of a limit order comes to rest.** -/
theorem rest_total (E : Env) (hd : Desk.Settles ⟨m, x, some k⟩) (hlim : k.order.type_ = .limit)
    (hopen : k.order.remain ≠ 0) :
    m.insertOrderIntoOrderbook E k.order = .ok (k.order.rested, m.withRest k.order.rested) ∧
      ∃ bm, (m.withRest k.order.rested).frozenBalance E x.balanceManager k.order.rested =
        .ok bm := by
  have hk := hd.ok.taking k rfl
  have hsound := hd.solvent.taking k rfl
  have hnew : m.resting k.order.id = none := by
    by_contra hsome
    obtain ⟨o, ho⟩ := Option.ne_none_iff_exists'.1 hsome
    have hlt := hk.fresh _ o ho
    rw [hk.id] at hlt
    exact absurd hlt (lt_irrefl _)
  refine ⟨insertOrder_total hd.ok.index hlim hnew, ?_⟩
  have hgrid : OnGrid (m.payPrec k.order) k.order.restFrozen := hk.fits.restFrozen hd.ok.prec
  have hkept : k.order.Sound := ⟨hsound.remain, fun _ => ((hd.plain.taking k rfl).price hopen).le⟩
  exact BalanceManager.frozen_total E hd.ok.gridded (hd.ok.prec.pay k.order) hgrid hkept.restFrozen
    (hsound.limit hlim).2 (hd.solvent.balances hd.ok _)

/-- **`execute_order` returns** when the order and the book are plain. -/
theorem executeOrder_total (E : Env) (now : Timestamp) {taker : Order} {ql : Decimal} (hq : m.Quiet)
    (hd : (startDesk m { x with persistor := x.persistor.putOrder taker .put } taker ql).Settles) :
    ∃ r, m.executeOrder E now x taker ql = .ok r := by
  set d₀ := startDesk m { x with persistor := x.persistor.putOrder taker .put } taker ql with hd₀
  have hstart : LoopOK E now taker.user Plain ql d₀ (m.counterOrders taker) (m.counterOrders taker)
      { market := m, ctx := d₀.ctx, taker, quoteSum := 0, finishedOrders := [],
        needCancel := false } := by
    refine ⟨Relation.ReflTransGen.refl, rfl, fun k hk => ?_, [], rfl, fun _ _ => rfl, rfl, by simp⟩
    rw [← Option.some.inj hk]
  -- every round returns, since the market still settles before it
  have hround :
      ∀ rc rest t, LoopOK E now taker.user Plain ql d₀ (m.counterOrders taker) (rc :: rest) t →
      ∃ r, matchMaker E now ql rc t = .ok r ∧
        ∀ t', r = .yield t' →
          LoopOK E now taker.user Plain ql d₀ (m.counterOrders taker) rest t' := by
    intro rc rest t ht
    have hsettles : (t.desk ql).Settles := Steps.settles ht.works.steps hd
    obtain ⟨r, hr⟩ := matchMaker_total E now hsettles (ht.meets hd.ok hq rfl rfl).2
    refine ⟨r, hr, fun t' he => ?_⟩
    subst he
    exact ht.yield hd.ok hq rfl rfl hr
  obtain ⟨s, hloop⟩ := forBreak_total hround _ _ hstart
  have hend := loop_steps (u := taker.user) (A := Plain) hd.ok hq rfl rfl rfl hloop
  have hindex : s.market.IndexOK := (Steps.deskOK hend.works.steps hd.ok).index
  obtain ⟨⟨m₁, x₁⟩, hfinish⟩ := finishAll_total E (x := s.ctx) hindex hend.stored hend.nodup
  obtain ⟨hworks, -, -⟩ := finish_steps hd.ok hend.works hend.stored hend.nodup hend.all hfinish
  have hsettles : Desk.Settles ⟨m₁, x₁, some (s.taking ql)⟩ := Steps.settles hworks.steps hd
  unfold executeOrder
  simp only [bind_ok]
  by_cases hcancel : s.needCancel = true
  · exact ⟨_, s, hloop, _, hfinish, by rw [if_pos hcancel]; rfl⟩
  by_cases hmarket : s.taker.type_ = .market
  · exact ⟨_, s, hloop, _, hfinish, by rw [if_neg hcancel, if_pos hmarket]; rfl⟩
  by_cases hopen : s.taker.remain = 0
  · exact ⟨_, s, hloop, _, hfinish, by rw [if_neg hcancel, if_neg hmarket, if_pos hopen]; rfl⟩
  have hlim : s.taker.type_ = .limit := (hsettles.plain.taking _ rfl).limit
  obtain ⟨hinsert, bm, hfreeze⟩ := rest_total E hsettles hlim hopen
  refine ⟨(s.taker.rested, m₁.withRest s.taker.rested, { x₁ with balanceManager := bm }), s, hloop,
    _, hfinish, ?_⟩
  rw [if_neg hcancel, if_neg hmarket, if_neg hopen]
  exact bind_ok.2 ⟨_, hinsert, bind_ok.2 ⟨bm, hfreeze, rfl⟩⟩

/-- **`put_order` returns**, and no balance is negative afterwards. -/
theorem putOrder_total (E : Env) (now : Timestamp) {input : OrderInput}
    (hd : Desk.Settles ⟨m, x, none⟩)
    (hA : m.checkInput E x.balanceManager input u = .ok () → Plain m x input) :
    ∃ r, m.putOrder E now x input u = .ok r ∧ ∀ j, 0 ≤ r.2.2.balanceManager.getByKey j := by
  have hreturns : ∃ r, m.putOrder E now x input u = .ok r := by
    unfold putOrder
    cases hcheck : m.checkInput E x.balanceManager input u with
    | error e => exact ⟨_, rfl⟩
    | ok _ =>
      have hplain := hA hcheck
      have hlim : ¬ (input.type_ = .market ∧ input.side = .bid) :=
        fun hc => by simp [hplain.1] at hc
      have hql : m.quoteLimit x.balanceManager input u = .ok 0 := by
        unfold Market.quoteLimit
        rw [if_neg hlim]
        rfl
      have hstep : Step E now u Plain ⟨m, x, none⟩ _ := Step.accept hplain hcheck hql
      obtain ⟨⟨o, m', x'⟩, hex⟩ := executeOrder_total E now
        (x := { x with sequencer := x.sequencer.nextOrderId.2 }) (hd.ok.quiet rfl)
        (hstep.settles hd)
      exact ⟨_, bind_ok.2 ⟨_, hql, bind_ok.2 ⟨_, hex, rfl⟩⟩⟩
  obtain ⟨⟨res, m', x'⟩, h⟩ := hreturns
  have hend := Steps.settles (putOrder_steps hd.ok hA h) hd
  exact ⟨_, h, hend.solvent.balances hend.ok⟩

end Dingir
