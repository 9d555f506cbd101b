import Dingir.Proof.Conservation
import Dingir.Proof.PutRun
import Dingir.Proof.Solvency

/-!
# What a request does to other users

A request of one user may meet the resting orders of another, the *bystander*, and
nothing else of his: his orders trade at their own prices and are filled by what they
trade, his frozen funds pay for that, and what he has available never shrinks
(`Spares`).

This is so along every run of `Fair` orders (`FairRun.harmless`): none is for a negative
amount, and no market bid has a budget below zero that buys something. The budget is
not checked, and with a negative one a market bid trades negative amounts
(`not_harmless`).
-/

namespace Dingir

open Keyed Rounding Posting Outcome Market

/-! ## The maker of a trade -/

def Trade.makerOrderId (t : Trade) : ℕ := if t.askRole = .maker then t.askOrderId else t.bidOrderId

def Trade.makerUserId (t : Trade) : Uuid := if t.askRole = .maker then t.askUserId else t.bidUserId

/-- What the maker's frozen funds in an asset pay in a trade. -/
def Trade.makerPays (t : Trade) (asset : String) : Decimal :=
  if t.askRole = .maker then if asset = t.base then t.amount else 0
  else if asset = t.quote then t.quoteAmount else 0

/-- What the frozen funds of a user in an asset have paid as a maker. -/
def makerPaid (ts : List Trade) (v : Uuid) (asset : String) : Decimal :=
  ((ts.filter fun t => t.makerUserId = v).map fun t => t.makerPays asset).sum

/-- The trades of an order of the user `v` as a maker. -/
def fills (ts : List Trade) (v : Uuid) (market : String) (id : ℕ) : List Trade :=
  ts.filter fun t => t.makerUserId = v ∧ t.market = market ∧ t.makerOrderId = id

/-! ## What a bystander is owed -/

/-- The resting order of the user `v` with an id in the market with a name. -/
def Controller.restingOf (c : Controller) (v : Uuid) (market : String) (id : ℕ) : Option Order :=
  ((c.markets.find? market).bind fun m => m.resting id).filter fun o => o.user = v

/-- The orders have positive prices and maker fee rates in `[0, 1]`. -/
def Regular (resting : String → ℕ → Option Order) : Prop :=
  ∀ market id o, resting market id = some o → 0 < o.price ∧ 0 ≤ o.makerFee ∧ o.makerFee ≤ 1

/-- An order after fills: all else is as it was. -/
def Order.SameTicket (o o' : Order) : Prop :=
  o' = { o with remain := o'.remain, frozen := o'.frozen, finishedBase := o'.finishedBase,
                finishedQuote := o'.finishedQuote, finishedFee := o'.finishedFee,
                updateTime := o'.updateTime }

/-- What trades leave of a resting order: all traded at its price, none for a negative amount, and
what they traded is gone from it. Without a trade it is untouched, and it is removed only when
nothing is left. -/
structure FilledBy (o : Order) (after : Option Order) (ts : List Trade) : Prop where
  trades : ∀ t ∈ ts, 0 ≤ t.amount ∧ t.price = o.price
  kept : ∀ o', after = some o' → o.SameTicket o' ∧
    o'.remain = o.remain - (ts.map Trade.amount).sum ∧ 0 ≤ o'.remain ∧
    (ts = [] → o' = o)
  removed : after = none → (ts.map Trade.amount).sum = o.remain

/-- **The user `v` is spared**: the trades `ts` were made, and all that changed for `v`, whose
orders were `resting` and are now `resting'`, is what they did to these orders as makers. -/
structure Spares (v : Uuid) (resting resting' : String → ℕ → Option Order)
    (balance balance' : BalanceMapKey → Decimal) (ts : List Trade) : Prop where
  available : ∀ a, balance ⟨v, .available, a⟩ ≤ balance' ⟨v, .available, a⟩
  freeze : ∀ a, balance' ⟨v, .freeze, a⟩ = balance ⟨v, .freeze, a⟩ - makerPaid ts v a
  orders : ∀ market id o, resting market id = some o →
    FilledBy o (resting' market id) (fills ts v market id)
  noneNew : ∀ market id o', resting' market id = some o' → ∃ o, resting market id = some o ∧
    o.SameTicket o'
  makers : ∀ t ∈ ts, t.makerUserId = v → (resting t.market t.makerOrderId).isSome

/-! ## Fair orders -/

/-- What a market bid may spend. -/
def Market.budget (m : Market) (bm : BalanceManager) (input : OrderInput) (u : Uuid) : Decimal :=
  let balance := bm.get u .available m.quote
  if input.quoteLimit = 0 then balance else min balance (truncDp input.quoteLimit m.quotePrec)

/-- An order for an amount that is not negative; for a market bid, with a budget that is not
negative either, unless it is too small to buy anything from any ask. -/
def Fair (u : Uuid) (m : Market) (x : Ctx) (input : OrderInput) : Prop :=
  0 ≤ input.amount ∧
    (input.type_ = .market → input.side = .bid → input.amount ≠ 0 →
      0 ≤ m.budget x.balanceManager input u ∨
      ∀ id o, m.resting id = some o → o.side = .ask →
        0 < o.price ∧ truncDp (m.budget x.balanceManager input u / o.price) m.amountPrec = 0)

/-- **The states along a run of fair orders**, those in the middle of a recovery included. -/
abbrev FairRun (E : Env) (settings : Settings) : Controller → Prop := PutRun E settings Fair

variable {E : Env} {settings : Settings} {now : Timestamp} {real : Bool} {u v : Uuid} {w : Prop}
  {m m' : Market} {x x' : Ctx} {k : Taking} {rc : OrderRc} {t : Trade} {o o' o'' : Order}
  {d d' : Desk} {c c' b : Controller} {ts ts' : List Trade}

/-! ## One change after the other -/

namespace Order.SameTicket

theorem refl (o : Order) : o.SameTicket o := rfl

theorem trans (h : o.SameTicket o') (h' : o'.SameTicket o'') : o.SameTicket o'' := by
  unfold SameTicket at *
  rw [h'] at *
  rw [h]

theorem terms (h : o.SameTicket o') : o'.price = o.price ∧ o'.makerFee = o.makerFee := by
  unfold SameTicket at h
  rw [h]
  exact ⟨rfl, rfl⟩

end Order.SameTicket

@[simp] theorem makerPaid_nil (a : String) : makerPaid [] v a = 0 := rfl

@[simp] theorem makerPaid_append (a : String) :
    makerPaid (ts ++ ts') v a = makerPaid ts v a + makerPaid ts' v a := by
  simp [makerPaid]

@[simp] theorem fills_nil (name : String) (id : ℕ) : fills [] v name id = [] := rfl

@[simp] theorem fills_append (name : String) (id : ℕ) :
    fills (ts ++ ts') v name id = fills ts v name id ++ fills ts' v name id := by
  simp [fills]

namespace FilledBy

theorem refl (h : 0 ≤ o.remain) : FilledBy o (some o) [] := by
  refine ⟨by simp, fun o' ho => ?_, by simp⟩
  obtain rfl := Option.some.inj ho
  exact ⟨.refl _, by simp, h, fun _ => rfl⟩

theorem trans {after : Option Order} (h : FilledBy o (some o') ts) (h' : FilledBy o' after ts') :
    FilledBy o after (ts ++ ts') := by
  obtain ⟨hsame, hremain, -, hnone⟩ := h.kept o' rfl
  refine ⟨fun t ht => ?_, fun o'' ho'' => ?_, fun hafter => ?_⟩
  · rcases List.mem_append.1 ht with ht | ht
    · exact h.trades t ht
    · obtain ⟨hamount, hprice⟩ := h'.trades t ht
      exact ⟨hamount, hprice.trans hsame.terms.1⟩
  · obtain ⟨hsame', hremain', hnonneg, hnone'⟩ := h'.kept o'' ho''
    refine ⟨hsame.trans hsame', ?_, hnonneg, fun hnil => ?_⟩
    · rw [hremain', hremain, List.map_append, List.sum_append]
      ring
    · obtain ⟨hts, hts'⟩ := List.append_eq_nil_iff.1 hnil
      rw [hnone' hts', hnone hts]
  · have hsum := h'.removed hafter
    rw [List.map_append, List.sum_append]
    linarith

end FilledBy

namespace Spares

variable {R R' R'' : String → ℕ → Option Order} {B B' B'' : BalanceMapKey → Decimal}

/-- A change that is not `v`'s business. -/
theorem of_same (hts : ∀ t ∈ ts, t.makerUserId ≠ v)
    (havailable : ∀ a, B ⟨v, .available, a⟩ ≤ B' ⟨v, .available, a⟩)
    (hfreeze : ∀ a, B' ⟨v, .freeze, a⟩ = B ⟨v, .freeze, a⟩) (hR : R' = R)
    (hnonneg : ∀ name id o, R name id = some o → 0 ≤ o.remain) : Spares v R R' B B' ts := by
  subst hR
  refine ⟨havailable, fun a => ?_, fun name id o ho => ?_, fun name id o' ho' => ⟨o', ho', .refl _⟩,
    fun t ht hu => absurd hu (hts t ht)⟩
  · have hpaid : makerPaid ts v a = 0 := by
      unfold makerPaid
      rw [List.filter_eq_nil_iff.2 fun t ht hu => hts t ht (of_decide_eq_true hu)]
      rfl
    rw [hpaid, sub_zero, hfreeze]
  · have hnone : fills ts v name id = [] :=
      List.filter_eq_nil_iff.2 fun t ht hu => hts t ht (of_decide_eq_true hu).1
    rw [ho, hnone]
    exact FilledBy.refl (hnonneg name id o ho)

/-- A change of one resting order of `v`. -/
theorem of_one {name : String} {id : ℕ} {after : Option Order} (ho : R name id = some o)
    (hts : ∀ t ∈ ts, t.makerUserId = v ∧ t.market = name ∧ t.makerOrderId = id)
    (havailable : ∀ a, B ⟨v, .available, a⟩ ≤ B' ⟨v, .available, a⟩)
    (hfreeze : ∀ a, B' ⟨v, .freeze, a⟩ = B ⟨v, .freeze, a⟩ - makerPaid ts v a)
    (hR : ∀ n i, R' n i = if n = name ∧ i = id then after else R n i)
    (hfilled : FilledBy o after ts)
    (hnonneg : ∀ name id o, R name id = some o → 0 ≤ o.remain) : Spares v R R' B B' ts := by
  have hfills : ∀ n i, fills ts v n i = if n = name ∧ i = id then ts else [] := by
    intro n i
    unfold fills
    by_cases hkey : n = name ∧ i = id
    · obtain ⟨rfl, rfl⟩ := hkey
      rw [if_pos ⟨rfl, rfl⟩]
      exact List.filter_eq_self.2 fun t ht => decide_eq_true (hts t ht)
    · rw [if_neg hkey]
      refine List.filter_eq_nil_iff.2 fun t ht hc => hkey ?_
      obtain ⟨-, hmarket, hid⟩ := of_decide_eq_true hc
      obtain ⟨-, hmarket', hid'⟩ := hts t ht
      exact ⟨hmarket.symm.trans hmarket', hid.symm.trans hid'⟩
  refine ⟨havailable, hfreeze, fun n i p hp => ?_, fun n i p hp => ?_, fun t ht _ => ?_⟩
  · rw [hR, hfills]
    by_cases hkey : n = name ∧ i = id
    · obtain ⟨rfl, rfl⟩ := hkey
      obtain rfl : o = p := Option.some.inj (ho.symm.trans hp)
      rw [if_pos ⟨rfl, rfl⟩, if_pos ⟨rfl, rfl⟩]
      exact hfilled
    · rw [if_neg hkey, if_neg hkey, hp]
      exact FilledBy.refl (hnonneg n i p hp)
  · rw [hR] at hp
    by_cases hkey : n = name ∧ i = id
    · obtain ⟨rfl, rfl⟩ := hkey
      rw [if_pos ⟨rfl, rfl⟩] at hp
      exact ⟨o, ho, (hfilled.kept p hp).1⟩
    · rw [if_neg hkey] at hp
      exact ⟨p, hp, .refl _⟩
  · obtain ⟨-, hmarket, hid⟩ := hts t ht
    rw [hmarket, hid, ho]
    rfl

theorem regular (h : Spares v R R' B B' ts) (hr : Regular R) : Regular R' := by
  intro name id o' ho'
  obtain ⟨o, ho, hsame⟩ := h.noneNew name id o' ho'
  obtain ⟨hprice, hfee⟩ := hsame.terms
  rw [hprice, hfee]
  exact hr name id o ho

theorem trans (h : Spares v R R' B B' ts) (h' : Spares v R' R'' B' B'' ts') :
    Spares v R R'' B B'' (ts ++ ts') := by
  refine ⟨fun a => (h.available a).trans (h'.available a), fun a => ?_, fun name id o ho => ?_,
    fun name id o' ho' => ?_,
    fun t ht hu => ?_⟩
  · rw [h'.freeze, h.freeze, makerPaid_append]
    ring
  · rw [fills_append]
    have hfirst := h.orders name id o ho
    cases hmid : R' name id with
    | none =>
      -- the order is gone, it does not come back, and no later trade is one of its
      rw [hmid] at hfirst
      have hgone : R'' name id = none := by
        by_contra hne
        obtain ⟨p, hp⟩ := Option.ne_none_iff_exists'.1 hne
        obtain ⟨q, hq, -⟩ := h'.noneNew name id p hp
        rw [hmid] at hq
        simp at hq
      have hlater : fills ts' v name id = [] := by
        refine List.filter_eq_nil_iff.2 fun t ht hc => ?_
        obtain ⟨htu, rfl, rfl⟩ := of_decide_eq_true hc
        have hmaker := h'.makers t ht htu
        rw [hmid] at hmaker
        simp at hmaker
      rw [hgone, hlater, List.append_nil]
      exact hfirst
    | some o' =>
      rw [hmid] at hfirst
      exact hfirst.trans (h'.orders name id o' hmid)
  · obtain ⟨o, ho, hsame⟩ := h'.noneNew name id o' ho'
    obtain ⟨p, hp, hsame'⟩ := h.noneNew name id o ho
    exact ⟨p, hp, hsame'.trans hsame⟩
  · rcases List.mem_append.1 ht with ht | ht
    · exact h.makers t ht hu
    · obtain ⟨o, ho⟩ := Option.isSome_iff_exists.1 (h'.makers t ht hu)
      obtain ⟨p, hp, -⟩ := h.noneNew _ _ o ho
      exact Option.isSome_iff_exists.2 ⟨p, hp⟩

end Spares

/-! ## Fair orders at work -/

/-- The order being put is one of the user `u`, and a market bid stays within its budget or buys
nothing. -/
structure Taking.Fair (k : Taking) (u : Uuid) (m : Market) : Prop where
  user : k.order.user = u
  remain : 0 ≤ k.order.remain
  market : k.order.type_ = .market → k.order.side = .bid → k.order.remain ≠ 0 →
    k.quoteSum ≤ k.quoteLimit ∨
    k.quoteSum = 0 ∧ k.quoteLimit < 0 ∧ ∀ id o, m.resting id = some o → o.side = .ask →
      0 < o.price ∧ truncDp (k.quoteLimit / o.price) m.amountPrec = 0

structure Desk.Fair (d : Desk) (u : Uuid) : Prop where
  resting : ∀ id o, d.market.resting id = some o → 0 ≤ o.remain
  taking : ∀ k, d.taking = some k → k.Fair u d.market

/-- The budget of an accepted market bid. -/
theorem quoteLimit_budget {input : OrderInput} {ql : Decimal}
    (hp : m.PrecOK x.balanceManager.assetManager) (hmarket : input.type_ = .market)
    (hside : input.side = .bid) (h : m.quoteLimit x.balanceManager input u = .ok ql) :
    ql = m.budget x.balanceManager input u := by
  unfold Market.quoteLimit at h
  unfold Market.budget
  simp only [hmarket, hside, and_self, if_true] at h
  by_cases hz : input.quoteLimit = 0
  · rw [if_pos hz, pure_ok] at h
    rw [if_pos hz]
    exact h.symm
  · rw [if_neg hz] at h
    simp only [bind_ok, pure_ok, hp.quote, Except.ok.injEq] at h
    obtain ⟨p, rfl, rfl⟩ := h
    rw [if_neg hz]

/-- A budget that buys nothing trades nothing. -/
theorem tradedBaseAmount_shut {taker ask bid : Order} {price ql : Decimal} (hask : 0 ≤ ask.remain)
    (hbid : 0 ≤ bid.remain) (hmarket : taker.type_ = .market) (hside : taker.side = .bid)
    (hql : ql < 0) (hprice : 0 < price) (hshut : truncDp (ql / price) m.amountPrec = 0) :
    m.tradedBaseAmount taker ask bid price ql 0 = .ok none := by
  have hcost : 0 ≤ price * min ask.remain bid.remain := mul_nonneg hprice.le (le_min hask hbid)
  have hover : ql < 0 + price * min ask.remain bid.remain := by linarith
  unfold tradedBaseAmount
  simp only [hmarket, hside, hover, and_self, if_true, hprice.ne', if_false, sub_zero, hshut]

/-- **A trade of fair orders** takes from both what they have left and no more, within the
budget. -/
theorem Trades.fair (hmeet : Meets m k rc) (ht : Trades now m x k rc t m' x') (hk : k.Fair u m)
    (ho : 0 ≤ (m.rcs.read rc).remain) :
    0 ≤ t.amount ∧ t.amount ≤ k.order.remain ∧ t.amount ≤ (m.rcs.read rc).remain ∧
      (k.order.type_ = .market → k.order.side = .bid →
        k.quoteSum + t.quoteAmount ≤ k.quoteLimit) := by
  have hask : 0 ≤ (askOf k.order (m.rcs.read rc)).remain := askOf_remain_nonneg hk.remain ho
  have hbid : 0 ≤ (bidOf k.order (m.rcs.read rc)).remain := bidOf_remain_nonneg hk.remain ho
  have hbudget : k.order.side = .bid → k.order.type_ = .market → k.quoteSum ≤ k.quoteLimit := by
    intro hside hmarket
    rcases hk.market hmarket hside hmeet.takerOpen with hle | ⟨hsum, hneg, hshut⟩
    · exact hle
    · exfalso
      have hmakerSide : (m.rcs.read rc).side = .ask := by
        rcases hmeet.sides with ⟨htaker, -⟩ | ⟨-, hmaker⟩
        · rw [isAsk_iff, hside] at htaker
          simp at htaker
        · exact hmaker
      obtain ⟨hprice, hzero⟩ := hshut _ _ hmeet.resting hmakerSide
      have hamount := ht.amount
      rw [ht.price, hsum,
        tradedBaseAmount_shut hask hbid hmarket hside hneg hprice hzero] at hamount
      simp at hamount
  obtain ⟨hnonneg, hspent⟩ := tradedBaseAmount_nonneg hask hbid hbudget ht.amount
  have hle := tradedBaseAmount_le hask hbid (fun hs hm => .inl (hbudget hs hm)) ht.amount
  refine ⟨hnonneg, ?_, ?_, fun hmarket hside => ?_⟩
  · unfold askOf bidOf at hle
    split at hle
    · exact hle.1
    · exact hle.2
  · unfold askOf bidOf at hle
    split at hle
    · exact hle.2
    · exact hle.1
  · rw [ht.quoteAmount]
    exact hspent hside hmarket

/-- **Fair orders stay fair.** -/
theorem Step.fair (h : Step E now u (Fair u) d d') (hd : DeskOK d) (hf : d.Fair u) : d'.Fair u := by
  refine ⟨fun id o ho => ?_, fun k' hk' => ?_⟩
  · rcases h.resting hd ho with ho | ⟨_, _, k, rc, t, hk, -, hmeet, ht, -, rfl⟩ |
      ⟨k, hk, -, -, -, -, rfl⟩
    · exact hf.resting id o ho
    · have hle := (ht.fair hmeet (hf.taking k hk) (hf.resting _ _ hmeet.resting)).2.2.1
      rw [filledMaker_remain]
      linarith
    · exact (hf.taking k hk).remain
  · have hterms := h.sameTerms
    cases h with
    | @accept m x input ql hA hcheck hql =>
      obtain rfl := Option.some.inj hk'
      obtain ⟨hamount, hbudget⟩ := hA
      refine ⟨rfl, hamount, fun hmarket hside hopen => ?_⟩
      have hql' := quoteLimit_budget hd.prec hmarket hside hql
      rw [← hql'] at hbudget
      rcases lt_or_ge ql 0 with hneg | hpos
      · exact .inr ⟨rfl, hneg, (hbudget hmarket hside hopen).resolve_left (not_le.2 hneg)⟩
      · exact .inl hpos
    | @trade m m' x x' k rc t hmeet ht =>
      obtain rfl := Option.some.inj hk'
      have hk := hf.taking k rfl
      obtain ⟨-, hle, -, hspent⟩ := ht.fair hmeet hk (hf.resting _ _ hmeet.resting)
      refine ⟨hk.user, ?_, fun hmarket hside _ => .inl (hspent hmarket hside)⟩
      show 0 ≤ k.order.remain - t.amount
      linarith
    | @finish m x k rc _ _ =>
      obtain rfl := Option.some.inj hk'
      have hk := hf.taking k rfl
      refine ⟨hk.user, hk.remain,
        fun hmarket hside hopen => (hk.market hmarket hside hopen).imp_right ?_⟩
      rintro ⟨hsum, hneg, hshut⟩
      refine ⟨hsum, hneg, fun id o ho => ?_⟩
      rw [resting_without] at ho
      split at ho
      · simp at ho
      · exact hshut id o ho
    | _ => simp at hk'

/-! ## What a step does to a bystander -/

/-- The resting orders of `v`, when the market of the desk is at work beside others. -/
def Desk.restingOf (d : Desk) (v : Uuid) (R₀ : String → ℕ → Option Order) (name : String)
    (id : ℕ) : Option Order :=
  if name = d.market.name then (d.market.resting id).filter fun o => o.user = v else R₀ name id

/-- The trades made from `x` to `x'`, as the persistor has them. -/
structure Made (x x' : Ctx) (ts : List Trade) : Prop where
  real : x'.persistor.realPersist = x.persistor.realPersist
  trades : x.persistor.realPersist = true → x'.persistor.trades = x.persistor.trades ++ ts

theorem Made.refl (x : Ctx) : Made x x [] := ⟨rfl, by simp⟩

theorem Made.trans {x'' : Ctx} (h : Made x x' ts)
    (h' : Made x' x'' ts') : Made x x'' (ts ++ ts') := by
  refine ⟨h'.real.trans h.real, fun hr => ?_⟩
  rw [h'.trades (h.real.trans hr), h.trades hr, List.append_assoc]

/-- Postings to accounts of one user change no balance of another. -/
theorem Posted.bystander {bm bm' : BalanceManager} {l : List (BalanceMapKey × Decimal)}
    (h : Posted bm bm' l) (hl : ∀ e ∈ l, e.1.userId ≠ v) (bt : BalanceType) (a : String) :
    bm'.getByKey ⟨v, bt, a⟩ = bm.getByKey ⟨v, bt, a⟩ := by
  have hzero : amountIn (· = (⟨v, bt, a⟩ : BalanceMapKey)) l = 0 := by
    refine amountIn_eq_zero fun e he hk => hl e he ?_
    rw [hk]
  rw [h.balance, hzero, add_zero]

/-- An amount moved between accounts of one user. -/
theorem Posted.bystander_move {bm bm' : BalanceManager} {j j' : BalanceMapKey} {a a' : Decimal}
    (h : Posted bm bm' [(j, a), (j', a')]) (hj : j.userId ≠ v) (hj' : j'.userId ≠ v)
    (bt : BalanceType) (asset : String) :
    bm'.getByKey ⟨v, bt, asset⟩ = bm.getByKey ⟨v, bt, asset⟩ := by
  refine h.bystander (fun e he => ?_) bt asset
  simp only [List.mem_cons, List.not_mem_nil, or_false] at he
  rcases he with rfl | rfl
  · exact hj
  · exact hj'

/-- A credit less a fee within `[0, 1]` of it. -/
theorem afterFee_nonneg {amount rate : Decimal} {p : ℕ} (ha : 0 ≤ amount) (hr : 0 ≤ rate)
    (hr' : rate ≤ 1) : 0 ≤ afterFee amount (truncDp (amount * rate) p) := by
  have hfee : 0 ≤ amount * rate := mul_nonneg ha hr
  have hle : truncDp (amount * rate) p ≤ amount :=
    (truncDp_le_self hfee).trans (mul_le_of_le_one_right ha hr')
  unfold afterFee
  rw [if_pos (truncDp_nonneg hfee)]
  linarith

/-- The maker of a trade. -/
theorem Trades.maker (hmeet : Meets m k rc) (ht : Trades now m x k rc t m' x') :
    t.makerUserId = (m.rcs.read rc).user ∧ t.makerOrderId = (m.rcs.read rc).id := by
  unfold Trade.makerUserId Trade.makerOrderId
  rcases hmeet.sides with ⟨hk, -⟩ | ⟨hk, -⟩
  · have hrole : t.askRole ≠ .maker := by
      rw [ht.askRole, if_pos hk]
      decide
    rw [if_neg hrole, if_neg hrole, ht.bidUser, ht.bidOrder]
    simp [bidOf, hk]
  · have hrole : t.askRole = .maker := by rw [ht.askRole, if_neg (by simp [hk])]
    rw [if_pos hrole, if_pos hrole, ht.askUser, ht.askOrder]
    simp [askOf, hk]

/-- **What a trade does to its maker's balances**: the frozen funds pay, and the credit is no
loss. -/
theorem Trades.makerBalances (hmeet : Meets m k rc) (ht : Trades now m x k rc t m' x')
    (hne : (m.rcs.read rc).user ≠ k.order.user) (hamount : 0 ≤ t.amount)
    (hprice : 0 < (m.rcs.read rc).price) (hfee : 0 ≤ (m.rcs.read rc).makerFee)
    (hfee' : (m.rcs.read rc).makerFee ≤ 1) (a : String) :
    x.balanceManager.getByKey ⟨(m.rcs.read rc).user, .available, a⟩ ≤
        x'.balanceManager.getByKey ⟨(m.rcs.read rc).user, .available, a⟩ ∧
      x'.balanceManager.getByKey ⟨(m.rcs.read rc).user, .freeze, a⟩ =
        x.balanceManager.getByKey ⟨(m.rcs.read rc).user, .freeze, a⟩ - t.makerPays a := by
  have hquote : 0 ≤ t.quoteAmount := by
    rw [ht.quoteAmount, ht.price]
    exact mul_nonneg hprice.le hamount
  have hask := ht.askUser
  have hbid := ht.bidUser
  rcases hmeet.sides with ⟨hk, -⟩ | ⟨hk, -⟩
  · simp only [askOf, bidOf, hk, if_true] at hask hbid
    have hcredit : 0 ≤ afterFee t.amount t.bidFee := by
      rw [ht.bidFee, if_pos hk]
      exact afterFee_nonneg hamount hfee hfee'
    have hrole : t.askRole ≠ .maker := by
      rw [ht.askRole, if_pos hk]
      decide
    unfold Trade.makerPays
    rw [ht.posted.balance, ht.posted.balance, if_neg hrole, ht.quote]
    simp only [Trade.postings, hk, if_true, hask, hbid, amountIn_cons, amountIn_nil,
      BalanceMapKey.mk.injEq, hne.symm,
      false_and, if_false, true_and, reduceCtorEq, and_false, add_zero, zero_add]
    constructor
    · split
      · linarith
      · linarith
    · by_cases ha : m.quote = a
      · rw [if_pos ha, if_pos ha.symm]
        ring
      · rw [if_neg ha, if_neg (fun hc => ha hc.symm)]
        ring
  · simp only [askOf, bidOf, hk, Bool.false_eq_true, if_false] at hask hbid
    have hcredit : 0 ≤ afterFee t.quoteAmount t.askFee := by
      rw [ht.askFee, if_neg (by simp [hk])]
      exact afterFee_nonneg hquote hfee hfee'
    have hrole : t.askRole = .maker := by rw [ht.askRole, if_neg (by simp [hk])]
    unfold Trade.makerPays
    rw [ht.posted.balance, ht.posted.balance, if_pos hrole, ht.base]
    simp only [Trade.postings, hk, Bool.false_eq_true, if_false, hask, hbid, amountIn_cons,
      amountIn_nil,
      BalanceMapKey.mk.injEq, hne.symm, false_and, true_and, reduceCtorEq, and_false, add_zero,
      zero_add]
    constructor
    · split
      · linarith
      · linarith
    · by_cases ha : m.base = a
      · rw [if_pos ha, if_pos ha.symm]
        ring
      · rw [if_neg ha, if_neg (fun hc => ha hc.symm)]
        ring

/-- A market in which at most the order with the id `key` is another one. -/
def Market.Replaced (m m' : Market) (key : ℕ) (after : Option Order) : Prop :=
  ∀ id, m'.resting id = if key = id then after else m.resting id

section View

variable {R₀ : String → ℕ → Option Order} {key : ℕ} {after : Option Order}

/-- The view of `v` after a change of another user's order. -/
theorem restingOf_others (hname : d'.market.name = d.market.name)
    (h : d.market.Replaced d'.market key after)
    (hbefore : ∀ o, d.market.resting key = some o → o.user ≠ v)
    (hafter : ∀ o, after = some o → o.user ≠ v) : d'.restingOf v R₀ = d.restingOf v R₀ := by
  have hnone : ∀ p : Option Order, (∀ o, p = some o → o.user ≠ v) →
      p.filter (fun o => o.user = v) = none := by
    intro p hp
    rw [Option.filter_eq_none_iff]
    intro o ho
    simpa using hp o ho
  funext name id
  unfold Desk.restingOf
  rw [hname]
  by_cases hkey : key = id
  · rw [h id, if_pos hkey, ← hkey, hnone _ hbefore, hnone _ hafter]
  · rw [h id, if_neg hkey]

/-- The view of `v` after a change of one of its own orders. -/
theorem restingOf_one (hname : d'.market.name = d.market.name)
    (h : d.market.Replaced d'.market key after) (hafter : ∀ o, after = some o → o.user = v)
    (name : String) (id : ℕ) :
    d'.restingOf v R₀ name id = if name = d.market.name ∧ id = key then after
      else d.restingOf v R₀ name id := by
  have hown : after.filter (fun o => o.user = v) = after := by
    cases after with
    | none => rfl
    | some o => rw [Option.filter_some, if_pos (by simpa using hafter o rfl)]
  unfold Desk.restingOf
  rw [hname, h id]
  by_cases hm : name = d.market.name
  · by_cases hkey : key = id
    · rw [if_pos hm, if_pos hkey, if_pos ⟨hm, hkey.symm⟩, hown]
    · rw [if_pos hm, if_neg hkey, if_neg (fun hc => hkey hc.2.symm), if_pos hm]
  · rw [if_neg hm, if_neg (fun hc => hm hc.1), if_neg hm]

theorem restingOf_some (ho : d.market.resting key = some o) (hu : o.user = v) :
    d.restingOf v R₀ d.market.name key = some o := by
  unfold Desk.restingOf
  rw [if_pos rfl, ho, Option.filter_some, if_pos (by simpa using hu)]

end View

/-- What a trade leaves of its maker. -/
theorem Trades.filledBy (hmeet : Meets m k rc) (ht : Trades now m x k rc t m' x') (hk : k.Fair u m)
    (ho : 0 ≤ (m.rcs.read rc).remain) :
    FilledBy (m.rcs.read rc) (some (filledMaker now k.order.isAsk (m.rcs.read rc) t)) [t] := by
  obtain ⟨hamount, -, hle, -⟩ := ht.fair hmeet hk ho
  have hsum : ([t].map Trade.amount).sum = t.amount := by simp
  refine ⟨fun t' ht' => ?_, fun o' ho' => ?_, by simp⟩
  · obtain rfl := List.mem_singleton.1 ht'
    exact ⟨hamount, ht.price⟩
  · obtain rfl := Option.some.inj ho'
    refine ⟨rfl, ?_, ?_, by simp⟩
    · rw [filledMaker_remain, hsum]
    · rw [filledMaker_remain]
      linarith

/-- **Every step spares the other users**: it touches no order of theirs but the maker of its
trade. -/
theorem Step.spares (h : Step E now u (Fair u) d d') (hd : DeskOK d) (hf : d.Fair u) :
    ∃ ts, Made d.ctx d'.ctx ts ∧
    ∀ v R₀, v ≠ u → (∀ name id o, R₀ name id = some o → 0 ≤ o.remain) → Regular (d.restingOf v R₀) →
      Spares v (d.restingOf v R₀) (d'.restingOf v R₀) d.ctx.balanceManager.getByKey
        d'.ctx.balanceManager.getByKey ts := by
  have hnonneg : ∀ v R₀, (∀ name id o, R₀ name id = some o → 0 ≤ o.remain) →
      ∀ name id o, d.restingOf v R₀ name id = some o → 0 ≤ o.remain := by
    intro v R₀ hR₀ name id o ho
    unfold Desk.restingOf at ho
    split at ho
    · exact hf.resting id o (Option.filter_eq_some_iff.1 ho).1
    · exact hR₀ name id o ho
  have hname := h.sameTerms.name
  cases h with
  | accept _ _ _ =>
    refine ⟨[], ⟨by simp, by simp⟩, fun v R₀ _ hR₀ _ => ?_⟩
    exact .of_same (by simp) (fun a => le_rfl) (fun a => rfl) rfl (hnonneg v R₀ hR₀)
  | close _ =>
    refine ⟨[], ⟨by simp, by simp⟩, fun v R₀ _ hR₀ _ => ?_⟩
    exact .of_same (by simp) (fun a => le_rfl) (fun a => rfl) rfl (hnonneg v R₀ hR₀)
  | @finish m x k rc hrc hz =>
    refine ⟨[], ⟨by simp, by simp⟩, fun v R₀ _ hR₀ _ => ?_⟩
    have hrest : m.resting (m.rcs.read rc).id = some (m.rcs.read rc) :=
      resting_some.2 ⟨rc, hrc, rfl⟩
    have hgone : m.Replaced (m.without (m.rcs.read rc)) (m.rcs.read rc).id none :=
      fun id => resting_without id
    -- it was filled before, so nothing moves with it
    by_cases hmaker : (m.rcs.read rc).user = v
    · have hfilled : FilledBy (m.rcs.read rc) none [] := ⟨by simp, by simp, fun _ => hz.symm⟩
      exact .of_one (restingOf_some hrest hmaker) (by simp) (fun a => le_rfl) (fun a => by simp)
        (restingOf_one hname hgone (by simp)) hfilled (hnonneg v R₀ hR₀)
    · refine .of_same (by simp) (fun a => le_rfl) (fun a => rfl) ?_ (hnonneg v R₀ hR₀)
      refine restingOf_others hname hgone (fun o ho => ?_) (by simp)
      obtain rfl := Option.some.inj (hrest.symm.trans ho)
      exact hmaker
  | @trade m m' x x' k rc t hmeet ht =>
    refine ⟨[t], ⟨ht.real, ht.trades⟩, fun v R₀ hv hR₀ hregular => ?_⟩
    have hk := hf.taking k rfl
    have hremain := hf.resting _ _ hmeet.resting
    obtain ⟨huser, hid⟩ := ht.maker hmeet
    have hfilled :
        m.Replaced m' (m.rcs.read rc).id (some (filledMaker now k.order.isAsk (m.rcs.read rc) t)) :=
      fun id => ht.resting hmeet hd.index id
    by_cases hmaker : (m.rcs.read rc).user = v
    · -- the maker is the user's own, and fair to it
      have hown : Desk.restingOf ⟨m, x, some k⟩ v R₀ m.name (m.rcs.read rc).id =
          some (m.rcs.read rc) :=
        restingOf_some (d := ⟨m, x, some k⟩) hmeet.resting hmaker
      obtain ⟨hprice, hfee, hfee'⟩ := hregular _ _ _ hown
      have hne : (m.rcs.read rc).user ≠ k.order.user := by
        rw [hmaker, hk.user]
        exact hv
      have hbalances := ht.makerBalances hmeet hne (ht.fair hmeet hk hremain).1 hprice hfee hfee'
      rw [hmaker] at hbalances
      have hpaid : ∀ a, makerPaid [t] v a = t.makerPays a := by
        intro a
        simp [makerPaid, huser, hmaker]
      refine .of_one hown (fun t' ht' => ?_) (fun a => (hbalances a).1) (fun a => ?_)
        (restingOf_one hname hfilled fun o ho => ?_) (ht.filledBy hmeet hk hremain)
        (hnonneg v R₀ hR₀)
      · obtain rfl := List.mem_singleton.1 ht'
        exact ⟨huser.trans hmaker, ht.name, hid⟩
      · rw [hpaid]
        exact (hbalances a).2
      · obtain rfl := Option.some.inj ho
        exact hmaker
    · -- a trade of others posts to others
      have hposted : ∀ e ∈ t.postings m k.order.isAsk, e.1.userId ≠ v := by
        have hask := ht.askUser
        have hbid := ht.bidUser
        have htaker : k.order.user ≠ v := by
          rw [hk.user]
          exact hv.symm
        have hasker : t.askUserId ≠ v := by
          rw [hask]
          unfold askOf
          split
          · exact htaker
          · exact hmaker
        have hbidder : t.bidUserId ≠ v := by
          rw [hbid]
          unfold bidOf
          split
          · exact hmaker
          · exact htaker
        intro e he
        simp only [Trade.postings, List.mem_cons, List.not_mem_nil, or_false] at he
        rcases he with rfl | rfl | rfl | rfl
        all_goals first | exact hasker | exact hbidder
      have hsame := ht.posted.bystander hposted
      refine .of_same (fun t' ht' => ?_) (fun a => (hsame _ a).ge) (fun a => hsame _ a) ?_
        (hnonneg v R₀ hR₀)
      · obtain rfl := List.mem_singleton.1 ht'
        rw [huser]
        exact hmaker
      · refine restingOf_others hname hfilled (fun o ho => ?_) (fun o ho => ?_)
        · obtain rfl := Option.some.inj (hmeet.resting.symm.trans ho)
          exact hmaker
        · obtain rfl := Option.some.inj ho
          exact hmaker
  | @rest m x k bm hq hlim hopen hfreeze hclear =>
    refine ⟨[], ⟨rfl, by simp⟩, fun v R₀ hv hR₀ _ => ?_⟩
    have hk := hd.taking k rfl
    have huser : k.order.user ≠ v := by
      rw [(hf.taking k rfl).user]
      exact hv.symm
    -- the freeze is the taker's
    have hsame :=
      (frozenBalance_posted hd.gridded hd.prec hk.fits hfreeze).bystander_move huser huser
    refine .of_same (by simp) (fun a => (hsame _ a).ge) (fun a => hsame _ a) ?_ (hnonneg v R₀ hR₀)
    have hnew : m.Replaced (m.withRest k.order.rested) k.order.id (some k.order.rested) :=
      fun id => resting_withRest hd.index id
    refine restingOf_others hname hnew (fun o ho => ?_) (fun o ho => ?_)
    · -- the id is a new one
      have hlt := hk.fresh _ _ ho
      have hid := hk.id
      omega
    · obtain rfl := Option.some.inj ho
      exact huser
  | @cancel m x rc bm hrc hu hfree =>
    refine ⟨[], ⟨by simp, by simp⟩, fun v R₀ hv hR₀ _ => ?_⟩
    have hrest : m.resting (m.rcs.read rc).id = some (m.rcs.read rc) :=
      resting_some.2 ⟨rc, hrc, rfl⟩
    have huser : (m.rcs.read rc).user ≠ v := by
      rw [hu]
      exact hv.symm
    -- what is freed is the canceller's
    have hsame :=
      (unfrozenBalance_posted hd.gridded hd.prec (hd.backed _ _ hrest) hfree).bystander_move huser
      huser
    refine .of_same (by simp) (fun a => (hsame _ a).ge) (fun a => hsame _ a) ?_ (hnonneg v R₀ hR₀)
    have hgone : m.Replaced (m.without (m.rcs.read rc)) (m.rcs.read rc).id none :=
      fun id => resting_without id
    refine restingOf_others hname hgone (fun o ho => ?_) (by simp)
    obtain rfl := Option.some.inj (hrest.symm.trans ho)
    exact huser

theorem Steps.spares (h : Steps E now u (Fair u) d d') (hd : DeskOK d) (hf : d.Fair u) : d'.Fair u ∧
    ∃ ts, Made d.ctx d'.ctx ts ∧ ∀ v R₀, v ≠ u → (∀ name id o, R₀ name id = some o → 0 ≤ o.remain) →
      Regular (d.restingOf v R₀) →
      Spares v (d.restingOf v R₀) (d'.restingOf v R₀) d.ctx.balanceManager.getByKey
        d'.ctx.balanceManager.getByKey ts := by
  induction h with
  | refl =>
    refine ⟨hf, [], .refl _, fun v R₀ _ hR₀ _ => ?_⟩
    refine .of_same (by simp) (fun a => le_rfl) (fun a => rfl) rfl fun name id o ho => ?_
    unfold Desk.restingOf at ho
    split at ho
    · exact hf.resting id o (Option.filter_eq_some_iff.1 ho).1
    · exact hR₀ name id o ho
  | tail hsteps hstep ih =>
    obtain ⟨hfair, ts, hmade, hspares⟩ := ih
    have hd' := Steps.deskOK hsteps hd
    obtain ⟨ts', hmade', hspares'⟩ := hstep.spares hd' hfair
    refine ⟨hstep.fair hd' hfair, ts ++ ts', hmade.trans hmade', fun v R₀ hv hR₀ hregular => ?_⟩
    have hfirst := hspares v R₀ hv hR₀ hregular
    exact hfirst.trans (hspares' v R₀ hv hR₀ (hfirst.regular hregular))

/-! ## Calls -/

/-- No resting order has a negative amount left. -/
def Controller.Fair (c : Controller) : Prop :=
  ∀ name m id o, c.markets.find? name = some m → m.resting id = some o → 0 ≤ o.remain

/-- The orders of `v` in a controller, as the market with a name sees them. -/
theorem restingOf_desk {name : String} (hname : m.name = name) (hm : c.markets.find? name = some m)
    (y : Ctx) : Desk.restingOf ⟨m, y, none⟩ v (c.restingOf v) = c.restingOf v := by
  funext other id
  unfold Desk.restingOf
  subst hname
  split
  · subst_vars
    unfold Controller.restingOf
    rw [hm]
    rfl
  · rfl

theorem restingOf_withMarket {name : String} (hname : m'.name = name) (y : Ctx) :
    Desk.restingOf ⟨m', y, none⟩ v (c.restingOf v) = (c.withMarket name m' y).restingOf v := by
  funext other id
  subst hname
  unfold Desk.restingOf Controller.restingOf
  rw [Controller.find?_withMarket]
  split
  · rfl
  · rfl

theorem ctx_withCtx (h : x.persistor.realPersist = real) : (c.withCtx x).ctx real = x := by
  subst h
  obtain ⟨s, bm, uc, pe⟩ := x
  cases pe with
  | real ms => rfl
  | dummy => rfl

theorem Controller.Fair.restingOf (hc : c.Fair) (name : String) (id : ℕ) (o : Order)
    (ho : c.restingOf v name id = some o) : 0 ≤ o.remain := by
  unfold Controller.restingOf at ho
  obtain ⟨ho, -⟩ := Option.filter_eq_some_iff.1 ho
  obtain ⟨m, hm, hrest⟩ := Option.bind_eq_some_iff.1 ho
  exact hc name m id o hm hrest

/-- **A call of fair orders spares the other users.** -/
theorem Moves.spares (h : Moves E now real u w (Fair u) c c') (hc : ControllerOK b c)
    (hf : c.Fair) : c'.Fair ∧
    ∃ ts, Made (c.ctx real) (c'.ctx real) ts ∧ ∀ v, v ≠ u → Regular (c.restingOf v) →
      Spares v (c.restingOf v) (c'.restingOf v) c.balanceManager.getByKey c'.balanceManager.getByKey
        ts := by
  induction h with
  | refl =>
    refine ⟨hf, [], .refl _, fun v _ _ => ?_⟩
    exact .of_same (by simp) (fun a => le_rfl) (fun a => rfl) rfl hf.restingOf
  | @tail c₁ c₂ hmoves hmove ih =>
    obtain ⟨hfair, ts, hmade, hspares⟩ := ih
    have hc₁ := Moves.ok hmoves hc
    suffices hone : c₂.Fair ∧ ∃ ts', Made (c₁.ctx real) (c₂.ctx real) ts' ∧ ∀ v, v ≠ u →
        Regular (c₁.restingOf v) →
        Spares v (c₁.restingOf v) (c₂.restingOf v) c₁.balanceManager.getByKey
          c₂.balanceManager.getByKey ts' by
      obtain ⟨hfair', ts', hmade', hspares'⟩ := hone
      refine ⟨hfair', ts ++ ts', hmade.trans hmade', fun v hv hregular => ?_⟩
      have hfirst := hspares v hv hregular
      exact hfirst.trans (hspares' v hv (hfirst.regular hregular))
    cases hmove with
    | @market name m m' x' hm hsteps =>
      obtain ⟨hname, hdesk⟩ := hc₁.desk name m hm
      have hstart : Desk.Fair ⟨m, c₁.ctx real, none⟩ u :=
        ⟨fun id o => hfair name m id o hm, by simp⟩
      obtain ⟨hfair', ts', hmade', hspares'⟩ := hsteps.spares (hdesk real) hstart
      have hname' : m'.name = name := hsteps.sameTerms.name.trans hname
      refine ⟨fun other mo id o hmo ho => ?_, ts', ?_, fun v hv hregular => ?_⟩
      · rw [Controller.find?_withMarket] at hmo
        split at hmo
        · obtain rfl := Option.some.inj hmo
          exact hfair'.resting id o ho
        · exact hfair other mo id o hmo ho
      · rw [Controller.ctx_withMarket (hmade'.real.trans (Controller.realPersist_ctx _))]
        exact hmade'
      · have hview := restingOf_desk (v := v) hname hm (c₁.ctx real)
        have hspare :=
          hspares' v (c₁.restingOf v) hv hfair.restingOf (by rw [hview]; exact hregular)
        rw [hview, restingOf_withMarket hname'] at hspare
        exact hspare
    | @update p x' _ huser _ _ ha =>
      obtain ⟨d, hd⟩ := applyChange_ok hc₁.gridded ha.change
      obtain ⟨htrades, -, hreal⟩ := persistUpdate_trades ha.persistor
      refine ⟨hfair, [], ?_, fun v hv _ => ?_⟩
      · rw [ctx_withCtx (hreal.trans (Controller.realPersist_ctx _))]
        exact ⟨hreal, fun _ => htrades.trans (List.append_nil _).symm⟩
      · have hother : ∀ e ∈ [(p.account, d)], e.1.userId ≠ v := by
          intro e he
          obtain rfl := List.mem_singleton.1 he
          show p.userId ≠ v
          rw [huser]
          exact hv.symm
        have hsame := hd.posted.bystander hother
        exact .of_same (by simp) (fun a => (hsame _ a).ge) (fun a => hsame _ a) rfl hfair.restingOf

/-- **A call of fair orders spares the other users.** -/
theorem call_spares {q : Request} {reply : Except Status Response} (hc : ControllerOK b c)
    (hf : c.Fair) (hput : c.EachPut E (Fair q.user) q) (h : c.call E q = .ok (reply, c')) :
    c'.Fair ∧
    ∃ ts, (q.real = true → c'.trades = c.trades ++ ts) ∧ ∀ v, v ≠ q.user → Regular (c.restingOf v) →
      Spares v (c.restingOf v) (c'.restingOf v) c.balanceManager.getByKey c'.balanceManager.getByKey
        ts := by
  obtain ⟨c₁, hmoves, hends⟩ := call_moves_each hc hput h
  obtain ⟨hfair, ts, hmade, hspares⟩ := hmoves.spares hc hf
  have htrades : q.real = true → c₁.trades = c.trades ++ ts := by
    intro hreal
    have hmade' := hmade.trades
    rw [hreal] at hmade'
    exact hmade' rfl
  cases hends with
  | refused => exact ⟨hfair, ts, htrades, hspares⟩
  | logged =>
    obtain ⟨s, l, hl, -, -⟩ := logged_eq c₁ q.now q.real q.operation q.user
    rw [hl]
    exact ⟨hfair, ts, htrades, hspares⟩

/-! ## Runs of fair orders -/

/-- Fair orders keep every order from being overfilled. -/
theorem fair_keeps (u : Uuid) :
    Keeps E u (Fair u) (fun o => 0 ≤ o.remain) fun k m => k.Fair u m := by
  intro now d d' h hd hQ
  have hf := h.fair hd ⟨hQ.resting, hQ.taking⟩
  exact ⟨hf.resting, hf.taking⟩

/-- **Every state along a run of fair orders** is well formed, with no order overfilled. -/
theorem FairRun.ok (h : FairRun E settings c) :
    ∃ b, createController settings = .ok b ∧ ControllerOK b c ∧ c.Fair :=
  PutRun.each fair_keeps h

/-- **Nobody is harmed by somebody else's request** in a run of fair orders: every call spares every
other user whose resting orders are regular, up to the trades of the call. -/
theorem FairRun.harmless (h : FairRun E settings c) {q : Request} {reply : Except Status Response}
    (hput : c.EachPut E (Fair q.user) q) (hcall : c.call E q = .ok (reply, c')) :
    ∃ ts, (q.real = true → c'.trades = c.trades ++ ts) ∧ ∀ v, v ≠ q.user → Regular (c.restingOf v) →
      Spares v (c.restingOf v) (c'.restingOf v) c.balanceManager.getByKey c'.balanceManager.getByKey
        ts := by
  obtain ⟨b, -, hc, hf⟩ := h.ok
  exact (call_spares hc hf hput hcall).2

/-! ## Samples -/

/-- All orders of a controller are regular when all it would dump are. -/
theorem regular_of_dump
    (h : ∀ row ∈ dumpOrders c, 0 < row.price ∧ 0 ≤ row.makerFee ∧ row.makerFee ≤ 1) :
    Regular (c.restingOf v) := by
  intro name id o ho
  unfold Controller.restingOf at ho
  obtain ⟨m, hm, hrest⟩ := Option.bind_eq_some_iff.1 (Option.filter_eq_some_iff.1 ho).1
  exact h _ (mem_dumpOrders.2 ⟨name, m, id, o, hm, hrest, rfl⟩)

/-- A limit order for an amount that is not negative is fair, wherever it is put. -/
theorem fair_limit {req : OrderPutRequest} (h : (OrderInput.tryFrom releaseEnv req).toOption.any
    (fun input => decide (input.type_ = .limit ∧ 0 ≤ input.amount)) = true) (c : Controller) :
    c.EachPut releaseEnv (Fair u) (requestAt now u (.orderPut req)) := by
  intro m input _ hinput _
  obtain ⟨hlim, hamount⟩ : input.type_ = .limit ∧
      0 ≤ input.amount := by simpa [hinput, Except.toOption] using h
  refine ⟨hamount, fun hmarket => ?_⟩
  rw [hlim] at hmarket
  simp at hmarket

/-- Bob's ask is filled by half: what he froze pays, and no more. -/
theorem FairRun.harmless_trade : ∃ c c' reply ts, FairRun releaseEnv sampleSettings c ∧
    c.call releaseEnv (requestAt 2 alice (.orderPut (limitOrder .bid "1" "100"))) =
      .ok (reply, c') ∧
    ts.length = 1 ∧ c'.trades = c.trades ++ ts ∧
    c.balanceManager.getByKey ⟨bob, .freeze, "ETH"⟩ = 2 ∧
    c'.balanceManager.getByKey ⟨bob, .freeze, "ETH"⟩ = 1 ∧
    Spares bob (c.restingOf bob) (c'.restingOf bob)
      c.balanceManager.getByKey c'.balanceManager.getByKey ts := by
  have h : (createController sampleSettings >>= fun c₀ => do
      let first ← c₀.call releaseEnv (requestAt 0 bob (depositOf "ETH" 1 "10"))
      let second ← first.2.call releaseEnv (requestAt 0 alice (depositOf "USDT" 2 "1000"))
      let ask ← second.2.call releaseEnv (requestAt 1 bob (.orderPut (limitOrder .ask "2" "100")))
      let bid ← ask.2.call releaseEnv (requestAt 2 alice (.orderPut (limitOrder .bid "1" "100")))
      return (decide (∀ row ∈ dumpOrders ask.2, 0 < row.price ∧ 0 ≤ row.makerFee ∧
        row.makerFee ≤ 1), ask.2.trades.length,
        bid.2.trades.length, ask.2.balanceManager.getByKey ⟨bob, .freeze, "ETH"⟩,
        bid.2.balanceManager.getByKey ⟨bob, .freeze, "ETH"⟩)) =
      (.ok (true, 0, 1, 2, 1) : Except Panic _) := by decide +kernel
  simp only [bind_ok, pure_ok, Prod.exists, Prod.mk.injEq, decide_eq_true_eq] at h
  obtain ⟨c₀, hb, r₁, c₁, hfirst, r₂, c₂, hsecond, r₃, c, hask, reply, c', hbid, hdump, hn, hn',
      hfreeze, hfreeze'⟩ := h
  have hrun₁ : FairRun releaseEnv sampleSettings c₁ :=
    PutRun.call (q := requestAt 0 bob (depositOf "ETH" 1 "10")) (.init hb) trivial hfirst
  have hrun₂ : FairRun releaseEnv sampleSettings c₂ :=
    PutRun.call (q := requestAt 0 alice (depositOf "USDT" 2 "1000")) hrun₁ trivial hsecond
  have hrun : FairRun releaseEnv sampleSettings c :=
    hrun₂.call (fair_limit (by decide +kernel) c₂) hask
  obtain ⟨ts, htrades, hspares⟩ := FairRun.harmless hrun (fair_limit (by decide +kernel) c) hbid
  have hlength : ts.length = 1 := by
    have hcount := congrArg List.length (htrades rfl)
    rw [List.length_append] at hcount
    omega
  exact ⟨c, c', reply, ts, hrun, hbid, hlength, htrades rfl, hfreeze, hfreeze',
    hspares bob (by decide) (regular_of_dump hdump)⟩

/-- **A market bid with a negative budget** makes its maker pay for the trade: it is for a negative
amount. -/
theorem not_harmless :
    ¬ ∀ c c' q reply, Reachable releaseEnv sampleSettings c →
    c.call releaseEnv q = .ok (reply, c') →
    ∃ ts, (q.real = true → c'.trades = c.trades ++ ts) ∧ ∀ v, v ≠ q.user → Regular (c.restingOf v) →
      Spares v (c.restingOf v) (c'.restingOf v) c.balanceManager.getByKey c'.balanceManager.getByKey
        ts := by
  intro hclaim
  have h : (sampleRun releaseEnv [requestAt 0 alice (depositOf "ETH" 1 "10"),
      requestAt 0 alice (depositOf "USDT" 2 "1000"),
      requestAt 0 bob (depositOf "ETH" 3 "10"),
      requestAt 1 alice (.orderPut (limitOrder .ask "5" "100"))] >>= fun c => do
      let bid ← c.call releaseEnv (requestAt 2 bob (.orderPut (marketOrder .bid "1" "-100")))
      return (decide (∀ row ∈ dumpOrders c, 0 < row.price ∧ 0 ≤ row.makerFee ∧ row.makerFee ≤ 1),
        c.balanceManager.getByKey ⟨alice, .available, "USDT"⟩,
        bid.2.balanceManager.getByKey ⟨alice, .available, "USDT"⟩)) =
      (.ok (true, 1000, 900) : Except Panic _) := by decide +kernel
  simp only [bind_ok, pure_ok, Prod.exists, Prod.mk.injEq, decide_eq_true_eq] at h
  obtain ⟨c, hc, reply, c', hcall, hdump, hbefore, hafter⟩ := h
  obtain ⟨ts, -, hspares⟩ := hclaim c c' _ reply (sampleRun_reachable hc) hcall
  have havailable := (hspares alice (by decide) (regular_of_dump hdump)).available "USDT"
  rw [hbefore, hafter] at havailable
  norm_num at havailable

end Dingir
