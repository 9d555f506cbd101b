import Dingir.Proof.CancelAll
import Dingir.Proof.Execution
import Dingir.Proof.Limit
import Dingir.Proof.Producer
import Dingir.Proof.Record

/-!
# Two calls and the headroom

A bid that takes one ask fits (`Reachable.neverPanics_iff_bid`). A user whose limit
allows it may open 1002 orders, and to cancel them all at once does not fit
(`not_neverPanics`).

* `putOrder_rests`: on a market without bids an ask comes to rest.
* `Stacked.put`: so a user with funds for it can put one after the other.
-/

namespace Dingir

open Keyed Rounding Posting Outcome Market

variable {E : Env} {now : Timestamp} {u : Uuid} {m m' : Market} {x : Ctx} {bm bm' : BalanceManager}
  {taker : Order} {input : OrderInput} {ql : Decimal} {c : Controller} {n k : ℕ}

/-! ## A bid that fits -/

/-- **A bid for 1 at 100 fits**: it takes 1 from the ask of bob, and pushes eight messages. -/
theorem Reachable.neverPanics_iff_bid :
    ∃ (c : Controller) (reply : Except Status Response) (c' : Controller) (messages : List Message),
    Reachable releaseEnv sampleSettings c ∧
    c.call releaseEnv (requestAt 2 alice (.orderPut (limitOrder .bid "1" "100"))) =
      .ok (reply, c') ∧
    c'.persistor = c.persistor ++ messages ∧ messages.length = 8 ∧
    ∀ stub : RdProducerStub, stub.isBlock = false → stub.NeverPanics messages := by
  have h : (sampleRun releaseEnv sampleOneAsk >>= fun c =>
      c.call releaseEnv (requestAt 2 alice (.orderPut (limitOrder .bid "1" "100"))) >>= fun r => do
        let m ← unwrap .marketName (c.markets.find? "ETH_USDT")
        let input ← unwrap .marketName
            (OrderInput.tryFrom releaseEnv (limitOrder .bid "1" "100")).toOption
        let budget ← m.quoteLimit c.balanceManager input alice
        let taker := m.putTaker 2 (c.ctx true) input alice
        return (decide ((m.reference taker budget (m.makers taker)).length ≤ 166),
          r.2.persistor.length, c.persistor.length)) =
      (.ok (true, 15, 7) : Except Panic (Bool × ℕ × ℕ)) := by decide +kernel
  simp only [bind_ok, pure_ok, unwrap_ok, toOption_some, Prod.mk.injEq, decide_eq_true_eq] at h
  obtain ⟨c, hc, ⟨reply, c'⟩, hcall, m, hm, input, hin, budget, hql, hfew, hafter, hbefore⟩ := h
  have hreach := sampleRun_reachable hc
  obtain ⟨messages, hmessages, hiff⟩ := hreach.neverPanics_iff rfl rfl hcall
  have hlen := congrArg List.length hmessages
  rw [List.length_append, hafter, hbefore] at hlen
  refine ⟨c, reply, c', messages, hreach, hcall, hmessages, by omega,
    hiff.2 fun m₁ input₁ budget₁ hm₁ hin₁ _ _ hql₁ => ?_⟩
  obtain rfl : m = m₁ := Option.some.inj (hm.symm.trans hm₁)
  obtain rfl : input = input₁ := Except.ok.inj (hin.symm.trans hin₁)
  obtain rfl : budget = budget₁ := Except.ok.inj (hql.symm.trans hql₁)
  exact putFits_of_length hfew

/-! ## An ask that comes to rest -/

/-- Where nothing is on the other side the order rests. -/
theorem executeOrder_rests (E : Env) (now : Timestamp) (ql : Decimal)
    (hcounter : m.counterOrders taker = []) (hlim : taker.type_ = .limit) (hopen : taker.remain ≠ 0)
    (hinsert : m.insertOrderIntoOrderbook E taker = .ok (taker.rested, m.withRest taker.rested))
    (hfreeze : (m.withRest taker.rested).frozenBalance E x.balanceManager taker.rested = .ok bm) :
    m.executeOrder E now x taker ql = .ok (taker.rested, m.withRest taker.rested,
      { x with persistor := x.persistor.putOrder taker .put, balanceManager := bm }) := by
  unfold executeOrder
  rw [hcounter]
  refine bind_ok.2 ⟨_, rfl, bind_ok.2 ⟨_, rfl, ?_⟩⟩
  simp only [Bool.false_eq_true, if_false, hlim, reduceCtorEq, hopen]
  exact bind_ok.2 ⟨_, hinsert, bind_ok.2 ⟨bm, hfreeze, rfl⟩⟩

/-- **An ask rests** on a market without bids, and freezes its amount. -/
theorem putOrder_rests (E : Env) (now : Timestamp) (hd : DeskOK ⟨m, x, none⟩)
    (hcheck : m.checkInput E x.balanceManager input u = .ok ()) (hlim : input.type_ = .limit)
    (hask : input.side = .ask) (hpos : 0 < input.amount) (hbids : values m.bids = [])
    (hfreeze : 0 ≤ x.balanceManager.getByKey ⟨u, .freeze, m.base⟩) :
    ∃ x', m.putOrder E now x input u =
        .ok (.ok (m.putTaker now x input u).rested, m.withRest (m.putTaker now x input u).rested,
          x') ∧
      m.resting (m.putTaker now x input u).id = none ∧ Posted x.balanceManager x'.balanceManager
        [(⟨u, .available, m.base⟩, -input.amount), (⟨u, .freeze, m.base⟩, input.amount)] := by
  set taker := m.putTaker now x input u with htaker
  have hql : m.quoteLimit x.balanceManager input u = .ok 0 := by
    unfold quoteLimit
    rw [if_neg (by simp [hlim])]
    rfl
  have hstart := putState_ok now hd hcheck hql
  have htaking := hstart.taking _ rfl
  have hisAsk : taker.isAsk = true := decide_eq_true hask
  have hcounter : m.counterOrders taker = [] := by
    unfold counterOrders
    rw [hisAsk]
    exact hbids
  have hnew : m.resting taker.id = none := by
    by_contra hsome
    obtain ⟨o, ho⟩ := Option.ne_none_iff_exists'.1 hsome
    have hlt := htaking.fresh _ o ho
    rw [← htaking.id] at hlt
    exact lt_irrefl _ hlt
  have hinsert := insertOrder_total (E := E) hd.index (o := taker) hlim hnew
  have hamount : taker.restFrozen = input.amount := if_pos hask
  have hpay : m.payAsset taker = m.base := if_pos hisAsk
  have hgrid : OnGrid m.basePrec input.amount :=
    (checkInput_ok hcheck).amountGrid.mono hd.prec.amount_le
  obtain ⟨bm, hbm⟩ := BalanceManager.frozen_total E hd.gridded hd.prec.base hgrid hpos.le
    ((checkInput_ok hcheck).ask hask) hfreeze
  have hfrozen :
      (m.withRest taker.rested).frozenBalance E x.balanceManager taker.rested = .ok bm := by
    show x.balanceManager.frozen E u (m.payAsset taker) taker.restFrozen = .ok bm
    rw [hamount, hpay]
    exact hbm
  have hex := executeOrder_rests (x := { x with sequencer := x.sequencer.nextOrderId.2 }) E now 0
    hcounter hlim hpos.ne' hinsert hfrozen
  refine ⟨{ x with
      sequencer := x.sequencer.nextOrderId.2
      persistor := x.persistor.putOrder taker .put
      balanceManager := bm }, ?_, hnew, BalanceManager.frozen_posted hd.gridded hd.prec.base hgrid hbm⟩
  unfold putOrder
  rw [hcheck]
  exact bind_ok.2 ⟨0, hql, bind_ok.2 ⟨_, hex, rfl⟩⟩

/-- The checks of an ask look at the terms of the market and at what its user has. -/
theorem checkInput_again (h : m.checkInput E bm input u = .ok ()) (hm : m.SameTerms m')
    (hlim : input.type_ = .limit) (hask : input.side = .ask)
    (hcover : input.amount ≤ bm'.getByKey ⟨u, .available, m.base⟩) :
    m'.checkInput E bm' input u = .ok () := by
  simp only [checkInput, bind_ok, bailIf_ok, checkType, hlim, reduceCtorEq, if_false, checkBalance,
    hask, if_true, false_and,
    not_false_iff, true_and, hm.minAmount, hm.feePrec, hm.amountPrec, hm.pricePrec, hm.base,
    not_lt] at h ⊢
  obtain ⟨_, _, hmin, _, hfees, _, hamount, _, hprice, _, htype, -⟩ := h
  exact ⟨(), (), hmin, (), hfees, (), hamount, (), hprice, (), htype, hcover⟩

/-- A new order is one more of its user. -/
theorem getOrderNumOfUser_withRest (hm : m.IndexOK) {o : Order} (hnew : m.resting o.id = none) :
    (m.withRest o).getOrderNumOfUser o.user = m.getOrderNumOfUser o.user + 1 := by
  have hfree : o.id ∉ m.userOrders o.user := by
    intro hmem
    obtain ⟨p, hp, -⟩ := (mem_userOrders hm o.id).1 (Std.TreeMap.mem_keys.2 hmem)
    rw [hnew] at hp
    cases hp
  have huser : (m.withRest o).userOrders o.user = (m.userOrders o.user).insert o.id m.rcs.next := by
    show (m.users.insert o.user _)[o.user]?.getD ∅ = _
    rw [getElem?_insert, if_pos rfl]
    rfl
  rw [getOrderNumOfUser_eq, getOrderNumOfUser_eq, huser, Std.TreeMap.length_keys,
    Std.TreeMap.length_keys,
    Std.TreeMap.size_insert, if_neg (by simpa using hfree)]

/-! ## One ask after the other -/

/-- Bob has `n` open asks, all on this market, which has no bids; and he has ETH for `k` more. -/
structure Stacked (input : OrderInput) (c : Controller) (m : Market) (n k : ℕ) : Prop where
  reach : Reachable releaseEnv (sampleSettings.limited 2000) c
  limit : c.settings.userOrderNumLimit = 2000
  market : c.markets.find? "ETH_USDT" = some m
  base : m.base = "ETH"
  bids : values m.bids = []
  check : m.checkInput releaseEnv c.balanceManager input bob = .ok () ∨ k = 0
  num : m.getOrderNumOfUser bob = n
  total : c.totalOrderNum bob = n
  available : c.balanceManager.getByKey ⟨bob, .available, "ETH"⟩ = k
  freeze : 0 ≤ c.balanceManager.getByKey ⟨bob, .freeze, "ETH"⟩

/-- An ask for 1 at 100. -/
def stackedAsk : OrderPutRequest := limitOrder .ask "1" "100"

/-- **Bob puts one more.** -/
theorem Stacked.put (hin : OrderInput.tryFrom releaseEnv stackedAsk = .ok input)
    (hlim : input.type_ = .limit) (hask : input.side = .ask) (hone : input.amount = 1)
    (h : Stacked input c m n (k + 1)) (hroom : n < 2000) :
    ∃ c' m', Stacked input c' m' (n + 1) k := by
  obtain ⟨b, -, hc⟩ := h.reach.ok
  obtain ⟨-, hdesk⟩ := hc.desk _ _ h.market
  have hd : DeskOK ⟨m, c.ctx true, none⟩ := hdesk true
  have hcheck : m.checkInput releaseEnv (c.ctx true).balanceManager input bob = .ok () :=
    h.check.resolve_right (by omega)
  obtain ⟨x', hput, hnew, hposted⟩ :=
    putOrder_rests releaseEnv 1 hd hcheck hlim hask (by rw [hone]; norm_num) h.bids
    (h.base.symm ▸ h.freeze)
  rw [hone, h.base] at hposted
  set o := (m.putTaker 1 (c.ctx true) input bob).rested with ho
  have hcall : c.call releaseEnv (requestAt 1 bob (.orderPut stackedAsk)) =
      .ok (.ok (.orderInfo o),
        (c.withMarket "ETH_USDT" (m.withRest o) x').logged 1 true (.orderPut stackedAsk) bob) := by
    have hputs : c.putOrder releaseEnv 1 true stackedAsk bob =
        .ok (.ok o, c.withMarket "ETH_USDT" (m.withRest o) x') := by
      unfold Controller.putOrder
      simp only [show c.markets.find? stackedAsk.market = some m from h.market, hin]
      rw [Env.debugAssert_of (by rw [h.total, h.limit]; exact hroom.le)]
      show (if _ then _ else _) = _
      rw [if_neg (by rw [h.total, h.limit]; exact hroom.ne)]
      show (m.putOrder releaseEnv 1 (c.ctx true) input bob >>= _) = _
      rw [hput]
      rfl
    show c.orderPut releaseEnv 1 true true stackedAsk bob = _
    unfold Controller.orderPut
    rw [if_neg (by simp), hputs]
    rfl
  have hnum : (m.withRest o).getOrderNumOfUser bob = m.getOrderNumOfUser bob + 1 :=
    getOrderNumOfUser_withRest hd.index hnew
  have htotal :
      (c.withMarket "ETH_USDT" (m.withRest o) x').totalOrderNum bob + m.getOrderNumOfUser bob =
      c.totalOrderNum bob + (m.withRest o).getOrderNumOfUser bob :=
        Controller.totalOrderNum_withMarket h.market
  have hleft : x'.balanceManager.getByKey ⟨bob, .available, "ETH"⟩ = k := by
    have havailable : (c.ctx true).balanceManager.getByKey ⟨bob, .available, "ETH"⟩ = (k + 1 : ℕ) :=
      h.available
    rw [hposted.balance, havailable]
    simp [amountIn]
  have hfrozen : 0 ≤ x'.balanceManager.getByKey ⟨bob, .freeze, "ETH"⟩ := by
    have hfreeze : 0 ≤ (c.ctx true).balanceManager.getByKey ⟨bob, .freeze, "ETH"⟩ := h.freeze
    rw [hposted.balance]
    simp [amountIn]
    linarith
  refine ⟨_, m.withRest o, h.reach.call hcall, h.limit, find?_insert_self _ _ _, h.base, ?_, ?_, ?_,
    ?_, hleft, hfrozen⟩
  · show values (if o.side = .ask then m.bids else _) = []
    rw [if_pos (show o.side = .ask from hask)]
    exact h.bids
  · rcases Nat.eq_zero_or_pos k with hk | hk
    · exact .inr hk
    · refine .inl (checkInput_again hcheck ⟨rfl, rfl, rfl, rfl, rfl, rfl, rfl, rfl, rfl, rfl,
        rfl⟩ hlim hask ?_)
      rw [h.base, hone]
      exact hleft.symm ▸ Nat.one_le_cast.2 hk
  · rw [hnum, h.num]
  · have hnums := h.num
    have htotals := h.total
    show (c.withMarket "ETH_USDT" (m.withRest o) x').totalOrderNum bob = n + 1
    omega

/-- **He puts them all.** -/
theorem Stacked.puts (hin : OrderInput.tryFrom releaseEnv stackedAsk = .ok input)
    (hlim : input.type_ = .limit) (hask : input.side = .ask) (hone : input.amount = 1)
    (h : Stacked input c m n k) (hroom : n + k ≤ 2000) :
    ∃ c' m', Stacked input c' m' (n + k) 0 := by
  induction k generalizing c m n with
  | zero => exact ⟨c, m, h⟩
  | succ k ih =>
    obtain ⟨c₁, m₁, h₁⟩ := h.put hin hlim hask hone (by omega)
    obtain ⟨c', m', h'⟩ := ih h₁ (by omega)
    exact ⟨c', m', by rwa [show n + (k + 1) = n + 1 + k by omega]⟩

/-! ## Too many at once -/

/-- **An admitted cancel-all that does not fit**: bob cancels 1002 asks while 1047 messages wait in
a channel. -/
theorem not_neverPanics :
    ∃ (c : Controller) (reply : Except Status Response) (c' : Controller) (messages : List Message)
    (stub : RdProducerStub), Reachable releaseEnv (sampleSettings.limited 2000) c ∧
    c.totalOrderNum bob = 1002 ∧
    c.call releaseEnv (requestAt 2 bob (.orderCancelAll ⟨"ETH_USDT"⟩)) = .ok (reply, c') ∧
    c'.persistor = c.persistor ++ messages ∧ stub.isBlock = false ∧ ¬stub.NeverPanics messages := by
  have h : (createController (sampleSettings.limited 2000) >>= fun c₀ =>
      c₀.call releaseEnv (requestAt 0 bob (depositOf "ETH" 1 "1002")) >>= fun r => do
        let m ← unwrap .marketName (r.2.markets.find? "ETH_USDT")
        let input ← unwrap .marketName (OrderInput.tryFrom releaseEnv stackedAsk).toOption
        return (decide (input.type_ = .limit ∧ input.side = .ask ∧ input.amount = 1 ∧
          m.base = "ETH" ∧ values m.bids = [] ∧
          m.checkInput releaseEnv r.2.balanceManager input bob = .ok () ∧
          m.getOrderNumOfUser bob = 0 ∧
          r.2.totalOrderNum bob = 0 ∧ r.2.settings.userOrderNumLimit = 2000 ∧
          r.2.balanceManager.getByKey ⟨bob, .available, "ETH"⟩ = 1002 ∧
          r.2.balanceManager.getByKey ⟨bob, .freeze, "ETH"⟩ = 0))) = (.ok true :
            Except Panic Bool) := by decide +kernel
  simp only [bind_ok, pure_ok, unwrap_ok, toOption_some, decide_eq_true_eq] at h
  obtain ⟨c₀, hc₀, ⟨_, c₁⟩, hdeposit, m, hm, input, hin, hlim, hask, hone, hbase, hbids, hcheck,
      hnum, htotal, hlimit,
    havailable, hfreeze⟩ := h
  have hstart : Stacked input c₁ m 0 1002 :=
    ⟨(Reachable.init hc₀).call hdeposit, hlimit, hm, hbase, hbids, .inl hcheck, hnum, htotal,
      havailable, hfreeze.ge⟩
  obtain ⟨c, m', hall⟩ := hstart.puts hin hlim hask hone (by norm_num)
  obtain ⟨b, -, hc⟩ := hall.reach.ok
  obtain ⟨reply, c', hcancel⟩ :=
    orderCancelAll_returns (E := releaseEnv) rfl hc hall.market 2 true bob
  obtain ⟨messages, hmessages, hlen⟩ := Controller.orderCancelAll_pushes hcancel
  have hcount : c.orderNumIn "ETH_USDT" bob = 1002 := by
    unfold Controller.orderNumIn
    rw [hall.market]
    exact hall.num
  have hmany : ¬∀ stub : RdProducerStub, stub.isBlock = false → stub.NeverPanics messages := by
    rw [RdProducerStub.forall_neverPanics_iff, hlen, hcount]
    decide
  simp only [not_forall] at hmany
  obtain ⟨stub, hopen, hpanics⟩ := hmany
  exact ⟨c, reply, c', messages, stub, hall.reach, hall.total, hcancel, hmessages, hopen, hpanics⟩

end Dingir
