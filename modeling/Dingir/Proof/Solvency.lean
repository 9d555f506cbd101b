import Dingir.Proof.Backing

/-!
# Solvency

No balance goes below zero in a run whose orders carry the signs of `SignSafe`:
**`createController_solvent`**. A settlement and a balance update look at the
balance they take from. Freezing and releasing do not; they are safe because an
order being put can pay what it will freeze (`Taking.Sound`), because what
rests has a non-negative amount left at a non-negative price, and because
`FREEZE` is the sum of what rests (`Backing.lean`).
-/

namespace Dingir

open Keyed Rounding Posting Outcome Market

/-- The signs of a bid that keep its owner and its makers solvent: a price that is
not negative, and for a market bid a budget that is not, unless no ask has a
negative price. -/
def SignSafe (m : Market) (_ : Ctx) (input : OrderInput) : Prop :=
  input.side = .bid →
    if input.type_ = .limit then 0 ≤ input.price
    else 0 ≤ truncDp input.quoteLimit m.quotePrec ∨ ∀ id o, m.resting id = some o → o.side = .ask →
    0 < o.price

/-- Also safe is a limit order for nothing, which is closed at once, whatever its price. -/
def Signed (m : Market) (x : Ctx) (input : OrderInput) : Prop :=
  SignSafe m x input ∨ input.type_ = .limit ∧ input.amount = 0

/-- A resting order with something left, that freezes no negative amount. -/
structure Order.Sound (o : Order) : Prop where
  remain : 0 ≤ o.remain
  price : o.side = .bid → 0 ≤ o.price

/-- The order being put can pay: a limit order what it will freeze, and a market bid
stays within its budget or meets positive prices only. -/
structure Taking.Sound (k : Taking) (m : Market) (x : Ctx) : Prop where
  remain : 0 ≤ k.order.remain
  limit : k.order.type_ = .limit → (k.order.side = .bid → k.order.remain ≠ 0 → 0 ≤ k.order.price) ∧
    k.order.restFrozen ≤ x.balanceManager.getByKey (m.payAccount k.order)
  market : k.order.type_ = .market → k.order.side = .bid →
    (0 ≤ k.quoteLimit ∧ k.quoteSum ≤ k.quoteLimit) ∨ ∀ id o, m.resting id = some o → o.side = .ask →
    0 < o.price

/-- **Solvency of a market at work.** -/
structure Desk.Solvent (d : Desk) : Prop where
  min : 0 ≤ d.market.minAmount
  available : ∀ u a, 0 ≤ d.ctx.balanceManager.getByKey ⟨u, .available, a⟩
  excess : ∀ u a, 0 ≤ d.excess u a
  resting : ∀ id o, d.market.resting id = some o → o.Sound
  taking : ∀ k, d.taking = some k → k.Sound d.market d.ctx

variable {E : Env} {settings : Settings} {now : Timestamp} {real : Bool} {w : Prop} {user : Uuid}
  {m m' : Market} {x x' : Ctx} {k : Taking} {rc : OrderRc} {t : Trade} {o : Order} {d d' : Desk}
  {c c' b : Controller}

theorem Order.Sound.restFrozen (h : o.Sound) : 0 ≤ o.restFrozen := by
  unfold Order.restFrozen
  split
  · exact h.remain
  · rename_i hs
    exact mul_nonneg h.remain (h.price (by cases ho : o.side <;> simp_all))

/-! ## The amount of a trade -/

theorem askOf_remain_nonneg {o o' : Order} (ho : 0 ≤ o.remain)
    (ho' : 0 ≤ o'.remain) : 0 ≤ (askOf o o').remain := by
  unfold askOf
  split
  · exact ho
  · exact ho'

theorem bidOf_remain_nonneg {o o' : Order} (ho : 0 ≤ o.remain)
    (ho' : 0 ≤ o'.remain) : 0 ≤ (bidOf o o').remain := by
  unfold bidOf
  split
  · exact ho'
  · exact ho

section Amount

variable {taker ask bid : Order} {price ql qs amount : Decimal}

/-- A trade takes no more than both orders have left, within the budget or at a positive price. -/
theorem tradedBaseAmount_le (hask : 0 ≤ ask.remain) (hbid : 0 ≤ bid.remain)
    (hcase : taker.side = .bid → taker.type_ = .market → qs ≤ ql ∨ 0 < price)
    (h : m.tradedBaseAmount taker ask bid price ql qs = .ok (some amount)) :
    amount ≤ ask.remain ∧ amount ≤ bid.remain := by
  unfold tradedBaseAmount at h
  simp only at h
  have hmin : 0 ≤ min ask.remain bid.remain := le_min hask hbid
  suffices amount ≤
      min ask.remain bid.remain from ⟨this.trans (min_le_left _ _), this.trans (min_le_right _ _)⟩
  split_ifs at h with hover hzero <;>
    simp only [Except.ok.injEq, Option.some.injEq, reduceCtorEq] at h <;> subst h
  · obtain ⟨hs, ht, hover⟩ := hover
    -- the budget is exceeded, so the price is positive
    have hprice : 0 < price := by
      rcases hcase hs ht with hle | hp
      · by_contra hneg
        have := mul_nonpos_of_nonpos_of_nonneg (not_lt.1 hneg) hmin
        linarith
      · exact hp
    have hlt : (ql - qs) / price < min ask.remain bid.remain := by
      rw [div_lt_iff₀ hprice]
      linarith
    rcases le_or_gt 0 ((ql - qs) / price) with hx | hx
    · exact (truncDp_le_self hx).trans hlt.le
    · exact (truncDp_nonpos hx.le).trans hmin
  · exact le_rfl

/-- Within the budget a trade takes a non-negative amount and stays within the budget. -/
theorem tradedBaseAmount_nonneg (hask : 0 ≤ ask.remain) (hbid : 0 ≤ bid.remain)
    (hcase : taker.side = .bid → taker.type_ = .market → qs ≤ ql)
    (h : m.tradedBaseAmount taker ask bid price ql qs = .ok (some amount)) :
    0 ≤ amount ∧ (taker.side = .bid → taker.type_ = .market → qs + price * amount ≤ ql) := by
  unfold tradedBaseAmount at h
  simp only at h
  have hmin : 0 ≤ min ask.remain bid.remain := le_min hask hbid
  split_ifs at h with hover hzero <;>
    simp only [Except.ok.injEq, Option.some.injEq, reduceCtorEq] at h <;> subst h
  · obtain ⟨hs, ht, hover⟩ := hover
    have hle := hcase hs ht
    have hprice : 0 < price := by
      by_contra hneg
      have := mul_nonpos_of_nonpos_of_nonneg (not_lt.1 hneg) hmin
      linarith
    have hx : 0 ≤ (ql - qs) / price := div_nonneg (by linarith) hprice.le
    refine ⟨truncDp_nonneg hx, fun _ _ => ?_⟩
    have hcost : price * truncDp ((ql - qs) / price) m.amountPrec ≤ ql - qs :=
      (mul_le_mul_of_nonneg_left (truncDp_le_self hx) hprice.le).trans_eq
        (mul_div_cancel₀ _ hprice.ne')
    linarith
  · exact ⟨hmin, fun hs ht => not_lt.1 fun hlt => hover ⟨hs, ht, hlt⟩⟩

end Amount

/-! ## The balances of a trade -/

/-- The taker pays from `AVAILABLE`, and nothing else of the trade touches that balance. -/
theorem Trades.pay (hmeet : Meets m k rc) (ht : Trades now m x k rc t m' x') :
    x'.balanceManager.getByKey (m.payAccount k.order) =
      x.balanceManager.getByKey (m.payAccount k.order) - if k.order.isAsk then t.amount
        else t.quoteAmount := by
  have hu := ht.users_ne
  have ha := ht.assets_ne
  rw [ht.posted.balance]
  rcases hmeet.sides with ⟨hk, -⟩ | ⟨hk, -⟩
  · have huser : t.askUserId = k.order.user := by rw [ht.askUser]; simp [askOf, hk]
    have hne : t.bidUserId ≠ k.order.user := fun he => hu (huser.trans he.symm)
    simp [Trade.postings, Market.payAccount, Market.payAsset, hk, huser, ha.symm, hne]
    ring
  · have huser : t.bidUserId = k.order.user := by rw [ht.bidUser]; simp [bidOf, hk]
    have hne : t.askUserId ≠ k.order.user := fun he => hu (he.trans huser.symm)
    simp [Trade.postings, Market.payAccount, Market.payAsset, hk, huser, ha, hne]
    ring

/-! ## The steps -/

theorem Taking.Sound.hcase (hk : k.Sound m x) (hmeet : Meets m k rc) (hs : k.order.side = .bid)
    (ht : k.order.type_ = .market) : k.quoteSum ≤ k.quoteLimit ∨ 0 < (m.rcs.read rc).price := by
  rcases hk.market ht hs with hle | hpos
  · exact .inl hle.2
  · refine .inr (hpos _ _ hmeet.resting ?_)
    have hne := hmeet.counter
    rw [hs] at hne
    cases ho : (m.rcs.read rc).side with
    | ask => rfl
    | bid => exact absurd ho hne

/-- A trade takes no more than the maker and the taker have left. -/
theorem Trades.amount_le (hmeet : Meets m k rc) (ht : Trades now m x k rc t m' x')
    (hk : k.Sound m x) (ho : (m.rcs.read rc).Sound) :
    t.amount ≤ k.order.remain ∧ t.amount ≤ (m.rcs.read rc).remain := by
  have hle := tradedBaseAmount_le
    (by unfold askOf; split; exacts [hk.remain, ho.remain])
    (by unfold bidOf; split; exacts [ho.remain, hk.remain])
    (fun hs hm => by rw [ht.price]; exact hk.hcase hmeet hs hm) ht.amount
  unfold askOf bidOf at hle
  split at hle
  · exact hle
  · exact hle.symm

theorem filledMaker_remain (b : Bool) : (filledMaker now b o t).remain = o.remain - t.amount := rfl

/-- **What rests stays sound.** -/
theorem Step.sound {A : Market → Ctx → OrderInput → Prop} (h : Step E now user A d d')
    (hd : DeskOK d) (hs : d.Solvent) {id : ℕ} (ho : d'.market.resting id = some o) : o.Sound := by
  rcases h.resting hd ho with ho | ⟨m', x', k, rc, t, hk, -, hmeet, ht, rfl, rfl⟩ |
    ⟨k, hk, -, hlim, hopen, -, rfl⟩
  · exact hs.resting id o ho
  · have hm := hs.resting _ _ hmeet.resting
    have hle := (ht.amount_le hmeet (hs.taking k hk) hm).2
    exact ⟨by rw [filledMaker_remain]; linarith, hm.price⟩
  · have hsound := hs.taking k hk
    exact ⟨hsound.remain, fun hside => (hsound.limit hlim).1 hside hopen⟩

/-- A trade leaves the taker able to pay for what it has left. -/
theorem Trades.takingSound (hmeet : Meets m k rc) (ht : Trades now m x k rc t m' x')
    (hindex : m.IndexOK) (hterms : m.SameTerms m') (hk : k.Sound m x) (ho : (m.rcs.read rc).Sound) :
    (filledTaking now k t).Sound m' x' := by
  have hle := (ht.amount_le hmeet hk ho).1
  have hbase : m'.base = m.base := hterms.base
  have hquote : m'.quote = m.quote := hterms.quote
  have hnonneg (hcase : k.order.side = .bid → k.order.type_ = .market →
      k.quoteSum ≤ k.quoteLimit) :=
    tradedBaseAmount_nonneg
      (by unfold askOf; split; exacts [hk.remain, ho.remain])
      (by unfold bidOf; split; exacts [ho.remain, hk.remain]) hcase ht.amount
  refine ⟨?_, fun hlim => ⟨fun hside _ => (hk.limit hlim).1 hside hmeet.takerOpen, ?_⟩,
    fun hm hs => ?_⟩
  · show 0 ≤ k.order.remain - t.amount
    linarith
  · have hamount :=
      (hnonneg fun _ hm => by rw [show k.order.type_ = .limit from hlim] at hm; simp at hm).1
    have hpay := ht.pay hmeet
    have hfunds := (hk.limit hlim).2
    have haccount : m'.payAccount (filledTaking now k t).order = m.payAccount k.order := by
      simp [Market.payAccount, Market.payAsset, filledTaking, fillOrder, Order.touched, Order.isAsk,
        hbase, hquote]
    rw [haccount, hpay]
    rcases hmeet.sides with ⟨hka, -⟩ | ⟨hka, -⟩
    · have hs : k.order.side = .ask := isAsk_iff.1 hka
      simp only [Order.restFrozen, hs, if_true] at hfunds
      simp only [Order.restFrozen, filledTaking, fillOrder, Order.touched, hs, hka, if_true]
      linarith
    · have hs : ¬ k.order.side = .ask := fun hc => by simp [Order.isAsk, hc] at hka
      -- the taker pays the maker's price, which is not above its own
      have hprice : t.price ≤ k.order.price := by
        have hc := hmeet.crosses hlim
        rw [ht.price]
        simpa [askOf, bidOf, hka] using hc
      have hcost : t.price * t.amount ≤ k.order.price * t.amount :=
        mul_le_mul_of_nonneg_right hprice hamount
      simp only [Order.restFrozen, hs, if_false] at hfunds
      simp only [Order.restFrozen, filledTaking, fillOrder, Order.touched, hs, hka, if_false,
        ht.quoteAmount,
        Bool.false_eq_true]
      have hexpand : (k.order.remain - t.amount) * k.order.price =
          k.order.remain * k.order.price - k.order.price * t.amount := by ring
      rw [hexpand]
      linarith
  · rcases hk.market hm hs with hbudget | hpos
    · exact .inl ⟨hbudget.1, by
        have hspent := (hnonneg fun _ _ => hbudget.2).2 hs hm
        rw [← ht.quoteAmount] at hspent
        exact hspent⟩
    · refine .inr fun id o hrest hside => ?_
      rw [ht.resting hmeet hindex] at hrest
      split at hrest
      · obtain rfl := Option.some.inj hrest
        exact hpos _ (m.rcs.read rc) hmeet.resting hside
      · exact hpos id o hrest hside

/-- An accepted order of safe signs can pay. -/
theorem accepted_sound {input : OrderInput} {ql : Decimal} {id : ℕ} (hd : DeskOK ⟨m, x, none⟩)
    (hs : Desk.Solvent ⟨m, x, none⟩) (hA : Signed m x input)
    (hcheck : m.checkInput E x.balanceManager input user = .ok ())
    (hql : m.quoteLimit x.balanceManager input user = .ok ql) (y : Ctx)
    (hy : y.balanceManager = x.balanceManager) :
    Taking.Sound ⟨m.newOrder id now input user, ql, 0⟩ m y := by
  have ha := checkInput_ok hcheck
  have hamount : 0 ≤ input.amount := le_trans hs.min ha.min
  refine ⟨hamount, fun hlim => ⟨fun hside hopen => ?_, ?_⟩, fun hmarket hside => ?_⟩
  · have hsafe := hA.resolve_right (fun hz => hopen hz.2) hside
    rwa [if_pos (show input.type_ = .limit from hlim)] at hsafe
  · rw [hy]
    cases hside : input.side with
    | ask => simpa [Order.restFrozen, newOrder, hside, Market.payAccount, Market.payAsset,
        Order.isAsk,
        BalanceManager.get] using ha.ask hside
    | bid => simpa [Order.restFrozen, newOrder, hside, Market.payAccount, Market.payAsset,
        Order.isAsk,
        BalanceManager.get] using ha.bid hside hlim
  · have hmarket' : input.type_ = .market := hmarket
    have hside' : input.side = .bid := hside
    have hbal : 0 ≤ x.balanceManager.get user .available m.quote := hs.available user m.quote
    have hsafe := hA.resolve_right (fun hlim => by simp [hmarket'] at hlim) hside'
    rw [if_neg (by simp [hmarket'])] at hsafe
    refine hsafe.imp_left fun hbudget => ?_
    unfold quoteLimit at hql
    simp only [hmarket', hside', and_self, if_true] at hql
    split at hql
    · rw [pure_ok] at hql
      exact ⟨hql ▸ hbal, hql ▸ hbal⟩
    · simp only [bind_ok, pure_ok, hd.prec.quote, Except.ok.injEq] at hql
      obtain ⟨p, rfl, rfl⟩ := hql
      exact ⟨le_min hbal hbudget, le_min hbal hbudget⟩

section Safe

variable {A : Market → Ctx → OrderInput → Prop}
  (hsafe : ∀ m x input, A m x input → Signed m x input)
include hsafe

/-- **A step with orders of safe signs keeps a market solvent.** -/
theorem Step.solvent (h : Step E now user A d d') (hd : DeskOK d)
    (hs : d.Solvent) : d'.Solvent := by
  have hterms := h.sameTerms
  refine ⟨hterms.minAmount ▸ hs.min, fun u a => ?_, fun u a => (h.excess hd).symm ▸ hs.excess u a,
    fun id o => h.sound hd hs, fun k' hk' => ?_⟩
  · cases h with
    | trade _ ht => exact ht.keeps _ (hs.available u a)
    | @rest m x k bm _ hlim _ hfreeze _ =>
      have hk := hs.taking k rfl
      rw [(frozenBalance_posted hd.gridded hd.prec (hd.taking k rfl).fits hfreeze).balance,
        amountIn_cons, amountIn_cons,
        amountIn_nil,
        if_neg (show ¬ m.backAccount k.order = ⟨u, .available, a⟩ by simp [Market.backAccount])]
      split
      · rename_i hu
        have hle := (hk.limit hlim).2
        rw [hu] at hle
        linarith
      · have := hs.available u a
        simpa using this
    | @cancel m x rc bm hrc _ hfree =>
      have ho : m.resting (m.rcs.read rc).id = some (m.rcs.read rc) := resting_some.2 ⟨rc, hrc, rfl⟩
      have hfrozen := (hs.resting _ _ ho).restFrozen
      have hbal := hs.available u a
      simp only at hbal
      rw [(unfrozenBalance_posted hd.gridded hd.prec (hd.backed _ _ ho) hfree).balance,
        amountIn_cons, amountIn_cons,
        amountIn_nil,
        if_neg (show ¬ m.backAccount (m.rcs.read rc) =
          ⟨u, .available, a⟩ by simp [Market.backAccount])]
      split <;> linarith
    | _ => exact hs.available u a
  · cases h with
    | @accept m x input ql hA hcheck hql =>
      rw [← Option.some.inj hk']
      exact accepted_sound hd hs (hsafe m x input hA) hcheck hql _ rfl
    | @trade m m' x x' k rc t hmeet ht =>
      rw [← Option.some.inj hk']
      exact ht.takingSound hmeet hd.index hterms (hs.taking k rfl) (hs.resting _ _ hmeet.resting)
    | @finish m x k rc _ _ =>
      rw [← Option.some.inj hk']
      have hk := hs.taking k rfl
      refine ⟨hk.remain, hk.limit,
        fun hm hside => (hk.market hm hside).imp_right fun hpos id o ho => ?_⟩
      rw [resting_without] at ho
      split at ho
      · simp at ho
      · exact hpos id o ho
    | _ => simp at hk'

theorem Steps.solvent (h : Steps E now user A d d') (hd : DeskOK d) (hs : d.Solvent) : d'.Solvent :=
  Steps.rule (P := Desk.Solvent) (fun _ _ he hP hstep => hstep.solvent hsafe he hP) h hd hs

end Safe

/-! ## The controller -/

/-- **Solvency of a controller**: no balance is negative, and what rests is sound. -/
structure Controller.Solvent (c : Controller) : Prop where
  balances : ∀ k, 0 ≤ c.balanceManager.getByKey k
  min : ∀ name m, c.markets.find? name = some m → 0 ≤ m.minAmount
  resting : ∀ name m id o, c.markets.find? name = some m → m.resting id = some o → o.Sound

/-- Sound orders freeze no negative amount. -/
theorem frozenOf_nonneg {u : Uuid} {a : String} (hb : ∀ id o, m.resting id = some o → o.Backed m)
    (hs : ∀ id o, m.resting id = some o → o.Sound) : 0 ≤ m.frozenOf u a := by
  refine tally_nonneg fun id rc hrc => ?_
  have ho : m.resting id = some (m.rcs.read rc) := resting_some.2 ⟨rc, hrc, rfl⟩
  have hfrozen : 0 ≤ (m.rcs.read rc).frozen := by
    rw [(hb id _ ho).frozen]
    exact (hs id _ ho).restFrozen
  exact ite_nonneg hfrozen le_rfl

/-- The market of a solvent controller is solvent at work. -/
theorem Controller.Solvent.desk (hs : c.Solvent) (hc : ControllerOK b c) (hb : c.Backing)
    {name : String} (hm : c.markets.find? name = some m) : Desk.Solvent ⟨m, c.ctx real, none⟩ := by
  refine ⟨hs.min name m hm, fun u a => hs.balances _, fun u a => ?_,
    fun id o => hs.resting name m id o hm,
    fun k hk => by simp at hk⟩
  have hle : m.frozenOf u a ≤ c.frozenOf u a :=
    le_hashTally (f := fun _ m => Market.frozenOf m u a) (fun n mn hn =>
      frozenOf_nonneg ((hc.desk n mn hn).2 true).backed fun id o => hs.resting n mn id o hn) hm
  have hfreeze : c.balanceManager.getByKey ⟨u, .freeze, a⟩ = c.frozenOf u a := hb u a
  show 0 ≤ c.balanceManager.getByKey ⟨u, .freeze, a⟩ - m.frozenOf u a
  rw [hfreeze]
  linarith

/-- No balance of a solvent market at work is negative. -/
theorem Desk.Solvent.balances (hs : d.Solvent) (hd : DeskOK d) :
    ∀ j, 0 ≤ d.ctx.balanceManager.getByKey j := by
  rintro ⟨u, t, a⟩
  cases t with
  | available => exact hs.available u a
  | freeze =>
    have hexcess := hs.excess u a
    have hfrozen := frozenOf_nonneg (u := u) (a := a) hd.backed hs.resting
    unfold Desk.excess at hexcess
    linarith

theorem Moves.solvent {A : Market → Ctx → OrderInput → Prop}
    (hsafe : ∀ m x input, A m x input → Signed m x input) (h : Moves E now real user w A c c')
    (hc : ControllerOK b c) (hb : c.Backing) (hs : c.Solvent) : c'.Solvent := by
  induction h with
  | refl => exact hs
  | @tail c₁ _ hmoves hmove ih =>
    have hc₁ := Moves.ok hmoves hc
    have hb₁ := Moves.backed hmoves hc hb
    cases hmove with
    | @market name m m' x' hm hsteps =>
      have hd := (hc₁.desk name m hm).2 real
      have hd' := hsteps.solvent hsafe hd (ih.desk hc₁ hb₁ hm)
      refine ⟨hd'.balances (hsteps.deskOK hd), fun n mn hn => ?_, fun n mn id o hn ho => ?_⟩ <;>
        rw [Controller.find?_withMarket] at hn <;> split at hn
      · exact Option.some.inj hn ▸ hd'.min
      · exact ih.min n mn hn
      · obtain rfl := Option.some.inj hn
        exact hd'.resting id o ho
      · exact ih.resting n mn id o hn ho
    | @update p x' _ _ _ _ ha =>
      obtain ⟨d, hd⟩ := applyChange_ok hc₁.gridded ha.change
      exact ⟨fun k => hd.keeps (ih.balances k), ih.min, ih.resting⟩

/-- **A call whose orders have safe signs keeps a controller solvent.** -/
theorem call_solvent {A : Market → Ctx → OrderInput → Prop}
    (hsafe : ∀ m x input, A m x input → Signed m x input) {q : Request}
    {reply : Except Status Response} (hc : ControllerOK b c) (hb : c.Backing) (hs : c.Solvent)
    (hA : c.EachPut E A q) (h : c.call E q = .ok (reply, c')) : c'.Solvent := by
  obtain ⟨c₁, hmoves, hends⟩ := call_moves_each hc hA h
  have hs₁ := hmoves.solvent hsafe hc hb hs
  cases hends with
  | refused => exact hs₁
  | logged =>
    obtain ⟨s, l, hl, -, -⟩ := logged_eq c₁ q.now q.real q.operation q.user
    rw [hl]
    exact ⟨hs₁.balances, hs₁.min, hs₁.resting⟩

/-- A controller without orders and balances is solvent. -/
theorem Blank.solvent (hblank : c.Blank)
    (hmin : ∀ name m, c.markets.find? name = some m → 0 ≤ m.minAmount) : c.Solvent := by
  refine ⟨fun k => (hblank.balances k).ge, hmin, fun name m id o hm ho => ?_⟩
  rw [(hblank.markets name m hm).resting] at ho
  simp at ho

/-- **Solvency.** From empty balances, in a run in which every order accepted has
safe signs, no balance is ever negative. -/
theorem createController_solvent {c₀ : Controller} {qs : List Request}
    {replies : List (Except Status Response)} (hb : createController settings = .ok c₀)
    (hmin : ∀ conf ∈ settings.markets, 0 ≤ conf.minAmount)
    (halong : c₀.Along E (fun c q => c.EachPut E SignSafe q) qs)
    (h : c₀.calls E qs = .ok (replies, c)) : ∀ k, 0 ≤ c.balanceManager.getByKey k := by
  obtain ⟨hok, hblank, hconf⟩ := createController_ok hb
  have hstart : c₀.Solvent := by
    refine Blank.solvent hblank fun name m hm => ?_
    obtain ⟨conf, hmem, hm'⟩ := hconf name m hm
    exact hm'.minAmount ▸ hmin conf hmem
  have hback := Blank.backed hblank
  have hrun : ControllerOK c₀ c ∧ c.Backing ∧ c.Solvent := by
    refine Controller.calls_rule (P := fun e => ControllerOK c₀ e ∧ e.Backing ∧ e.Solvent) ?_ ⟨hok,
      hback, hstart⟩ halong h
    rintro e e' q reply ⟨he, hbe, hs⟩ hput hcall
    exact ⟨call_ok he hcall, call_backing he hbe hcall,
      call_solvent (fun _ _ _ => .inl) he hbe hs hput hcall⟩
  exact hrun.2.2.balances

/-- A deposit and a bid that crosses nothing. -/
def sampleBid (price : String) : List Request :=
  [requestAt 0 alice (depositOf "USDT" 1 "1000"),
    requestAt 1 alice (.orderPut (limitOrder .bid "2" price))]

/-- A bid at a positive price is safe, wherever it is put. -/
theorem sampleBid_safe (c : Controller) :
    c.Along releaseEnv (fun c q => c.EachPut releaseEnv SignSafe q) (sampleBid "100") := by
  have hinput : ∃ input, OrderInput.tryFrom releaseEnv (limitOrder .bid "2" "100") = .ok input ∧
      (input.type_ = .limit ∧ 0 ≤ input.price) := by
    have h : (OrderInput.tryFrom releaseEnv (limitOrder .bid "2" "100")).toOption.any
        (fun input => decide (input.type_ = .limit ∧ 0 ≤ input.price)) = true := by decide +kernel
    cases hi : OrderInput.tryFrom releaseEnv (limitOrder .bid "2" "100") with
    | error e => simp [hi, Except.toOption] at h
    | ok input => exact ⟨input, rfl, by simpa [hi, Except.toOption] using h⟩
  obtain ⟨input, hi, hlim, hprice⟩ := hinput
  refine ⟨trivial, fun _ c₁ _ => ⟨fun m i _ hi' _ => ?_, fun _ _ _ => trivial⟩⟩
  obtain rfl : input = i := Except.ok.inj (hi.symm.trans hi')
  intro _
  rw [if_pos hlim]
  exact hprice

theorem createController_solvent_sample : ∃ c₀ replies c, createController sampleSettings = .ok c₀ ∧
    c₀.calls releaseEnv (sampleBid "100") = .ok (replies, c) ∧
    c.balanceManager.get alice .freeze "USDT" = 200 ∧
    ∀ k, 0 ≤ c.balanceManager.getByKey k := by
  have h : (sampleRun releaseEnv (sampleBid "100") >>=
      fun c => pure (c.balanceManager.get alice .freeze "USDT")) =
      (.ok 200 : Except Panic Decimal) := by decide +kernel
  simp only [bind_ok, pure_ok] at h
  obtain ⟨c, hc, hfreeze⟩ := h
  obtain ⟨c₀, replies, hb, hcalls⟩ := sampleRun_ok hc
  exact ⟨c₀, replies, c, hb, hcalls, hfreeze,
    createController_solvent hb (by decide +kernel) (sampleBid_safe c₀) hcalls⟩

/-- **A bid at a negative price is accepted**, and freezes a negative amount. -/
theorem not_solvent : ∃ c₀ replies c, createController sampleSettings = .ok c₀ ∧
    (∀ conf ∈ sampleSettings.markets, 0 ≤ conf.minAmount) ∧
    c₀.calls releaseEnv (sampleBid "-100") = .ok (replies, c) ∧
    c.balanceManager.getByKey ⟨alice, .freeze, "USDT"⟩ < 0 := by
  have h : (sampleRun releaseEnv (sampleBid "-100") >>= fun c =>
      pure (c.balanceManager.getByKey ⟨alice, .freeze, "USDT"⟩)) = (.ok (-200) :
        Except Panic Decimal) := by
    decide +kernel
  simp only [bind_ok, pure_ok] at h
  obtain ⟨c, hc, hfreeze⟩ := h
  obtain ⟨c₀, replies, hb, hcalls⟩ := sampleRun_ok hc
  exact ⟨c₀, replies, c, hb, by decide +kernel, hcalls, hfreeze ▸ by norm_num⟩

end Dingir
