import Dingir.Proof.Execution
import Dingir.Spec.Handler
import Dingir.Spec.Sample

/-!
# Orders that come through the handler settle

`commit_order` has formed `amount * price` as an unsigned number, and `put_order`
refuses an amount below a minimum that is not negative and a price of 0. So with the
shipped configuration what comes through the handler is `Plain`
(`Operation.Entered.eachPut`), and with it everything that rests
(`HandledReachable.settles`). **`HandledReachable.putOrder_completes`**: then no order
is stopped on its way, in any build.
-/

namespace Dingir

open Keyed Rounding Outcome Market

variable {E : Env} {toU64 : ToU64} {settings : Settings} {now : Timestamp} {real : Bool} {u : Uuid}
  {w : Prop} {stub b b' c c' : Controller} {m : Market} {req : OrderPutRequest}

/-! ## What the check promises -/

/-- `to_u64` gives an unsigned number, so it has one for no negative decimal. -/
def ToU64.Unsigned (toU64 : ToU64) : Prop := ∀ x p n, toU64 x p = some n → 0 ≤ x

/-- A commitment has formed the total of the order. -/
theorem commitOrder_ok {am : AssetManager} {k : OrderCommitment} (hU : toU64.Unsigned)
    (h : am.commitOrder E toU64 req m = .ok k) :
    ∃ amount price, E.decimalFromStr req.amount = some amount ∧
      E.decimalFromStr req.price = some price ∧
      0 ≤ truncDp amount m.amountPrec * roundDp price m.pricePrec := by
  unfold AssetManager.commitOrder at h
  split at h
  · simp only [bind_ok, orBail_ok] at h
    obtain ⟨base, -, quote, -, amount, hamount, price, hprice, h⟩ := h
    refine ⟨amount, price, hamount, hprice, ?_⟩
    unfold AssetManager.commitTotals at h
    split at h
    · simp only [bind_ok, orPanic_ok] at h
      obtain ⟨total, htotal, -⟩ := h
      exact hU _ _ _ htotal
    · split at h
      · simp only [bind_ok, orPanic_ok] at h
        obtain ⟨-, -, total, htotal, -⟩ := h
        exact hU _ _ _ htotal
      · simp [bail] at h
  · simp [bail] at h

theorem checkOrder_ok (h : GrpcHandler.checkOrder E toU64 stub req = .ok ()) :
    ∃ m k, stub.markets.find? req.market = some m ∧
      stub.balanceManager.assetManager.commitOrder E toU64 req m = .ok k := by
  unfold GrpcHandler.checkOrder at h
  split at h
  · simp at h
  rename_i m hm
  split at h
  · simp at h
  · simp at h
  · rename_i k hk
    exact ⟨m, k, hm, hk⟩

/-! ## The shipped configuration -/

/-- What the shipped configuration says of a market. -/
structure Market.Shipped (m : Market) : Prop where
  disableSelfTrade : m.disableSelfTrade = true
  disableMarketOrder : m.disableMarketOrder = true
  feePrec : m.feePrec = 0
  minAmount : 0 ≤ m.minAmount
  assets : m.base ≠ m.quote

theorem ControllerOK.shipped (hc : ControllerOK b c) (hb : createController settings = .ok b)
    (hs : settings.Shipped) {name : String} (hm : c.markets.find? name = some m) : m.Shipped := by
  obtain ⟨m₀, h₀, ht⟩ := hc.terms name m hm
  obtain ⟨-, -, hconf⟩ := createController_ok hb
  obtain ⟨conf, hmem, hcr⟩ := hconf name m₀ h₀
  refine ⟨?_, ?_, ?_, ?_, ?_⟩
  · rw [ht.disableSelfTrade, hcr.disableSelfTrade]
    exact hs.disableSelfTrade
  · rw [ht.disableMarketOrder, hcr.disableMarketOrder]
    exact hs.disableMarketOrder
  · rw [ht.feePrec, hcr.feePrec]
    exact hs.feePrec conf hmem
  · rw [ht.minAmount, hcr.minAmount]
    exact hs.minAmount conf hmem
  · rw [ht.base, ht.quote, hcr.base, hcr.quote]
    exact hs.assets conf hmem

/-! ## Plain orders -/

/-- The fields of an input of a limit order. -/
theorem tryFrom_ok {input : OrderInput} (h : OrderInput.tryFrom E req = .ok input)
    (hlim : input.type_ = .limit) :
    E.decimalFromStr req.amount = some input.amount ∧
    E.decimalFromStr req.price = some input.price := by
  unfold OrderInput.tryFrom at h
  simp only [bind_ok, pure_ok] at h
  obtain ⟨amount, hamount, price, hprice, _, -, _, -, _, -, rfl⟩ := h
  have horError : ∀ {e : String} {v : Option Decimal} {a : Decimal}, orError e v = .ok a →
      v = some a := by
    intro e v a h
    cases v with
    | none => simp [orError] at h
    | some v => simpa [orError] using h
  have htype : req.orderType = 0 := by
    by_contra hne
    simp [hne] at hlim
  have hamount := horError hamount
  have hprice := horError hprice
  simp only [strToDecimal, htype] at hamount hprice
  exact ⟨by simpa using hamount, by simpa using hprice⟩

/-- **What comes through the handler is plain.** -/
theorem Entered.plain (hU : toU64.Unsigned) (hs : settings.Shipped)
    (hb : createController settings = .ok b) (hstub : ControllerOK b stub) (hc : ControllerOK b c)
    {input : OrderInput} (hcheck : GrpcHandler.checkOrder E toU64 stub req = .ok ())
    (hm : c.markets.find? req.market = some m) (hin : OrderInput.tryFrom E req = .ok input)
    (hinput : m.checkInput E c.balanceManager input u = .ok ()) : Plain m (c.ctx real) input := by
  have hshipped := hc.shipped hb hs hm
  have ha := checkInput_ok hinput
  have hlim : input.type_ = .limit := ha.marketOrder hshipped.disableMarketOrder
  obtain ⟨htaker, hmaker⟩ := ha.fees hshipped.feePrec
  refine ⟨hlim, htaker, hmaker, fun hopen => ?_⟩
  -- the total the handler has formed is that of the input: the digits of the market never change
  obtain ⟨m₁, k, hm₁, hk⟩ := checkOrder_ok hcheck
  obtain ⟨amount, price, hamount, hprice, htotal⟩ := commitOrder_ok hU hk
  obtain ⟨hamount', hprice'⟩ := tryFrom_ok hin hlim
  obtain rfl : input.amount = amount := Option.some.inj (hamount'.symm.trans hamount)
  obtain rfl : input.price = price := Option.some.inj (hprice'.symm.trans hprice)
  obtain ⟨m₀, h₀, ht⟩ := hc.terms _ m hm
  obtain ⟨m₀', h₀', ht₁⟩ := hstub.terms _ m₁ hm₁
  obtain rfl : m₀ = m₀' := Option.some.inj (h₀.symm.trans h₀')
  have hamountPrec : m₁.amountPrec = m.amountPrec := ht₁.amountPrec.trans ht.amountPrec.symm
  have hpricePrec : m₁.pricePrec = m.pricePrec := ht₁.pricePrec.trans ht.pricePrec.symm
  rw [hamountPrec, hpricePrec, ha.amountGrid.truncDp_eq, ha.priceGrid.roundDp_eq] at htotal
  have hpos : 0 < input.amount := lt_of_le_of_ne (hshipped.minAmount.trans ha.min) (Ne.symm hopen)
  have hnonneg : 0 ≤ input.price := nonneg_of_mul_nonneg_right htotal hpos
  exact lt_of_le_of_ne hnonneg (Ne.symm (ha.limit hlim))

theorem Entered.eachPut (hU : toU64.Unsigned) (hs : settings.Shipped)
    (hb : createController settings = .ok b) (hstub : ControllerOK b stub) (hc : ControllerOK b c)
    {q : Request} (h : q.operation.Entered E toU64 stub) : c.EachPut E Plain q := by
  unfold Controller.EachPut
  cases hop : q.operation with
  | orderPut req =>
    rw [hop] at h
    intro m input hm hin hinput
    exact Entered.plain hU hs hb hstub hc h hm hin hinput
  | batchOrderPut req =>
    rw [hop] at h
    have hnone : req.orders = [] := h
    intro c' _
    rw [hnone]
    trivial
  | _ => trivial

/-! ## The invariant of a run -/

/-- Solvent, with plain orders in all books. -/
structure Controller.Settles (c : Controller) : Prop where
  solvent : c.Solvent
  plain : ∀ name m id o, c.markets.find? name = some m → m.resting id = some o → o.Plain

theorem Moves.plain (h : Moves E now real u w Plain c c') (hc : ControllerOK b c)
    (hp : ∀ name m id o, c.markets.find? name = some m → m.resting id = some o → o.Plain) :
    ∀ name m id o, c'.markets.find? name = some m → m.resting id = some o → o.Plain := by
  induction h with
  | refl => exact hp
  | @tail c₁ _ hmoves hmove ih =>
    cases hmove with
    | @market name m m' x' hm hsteps =>
      have hd := ((Moves.ok hmoves hc).desk name m hm).2 real
      have hstart : Desk.Plain ⟨m, c₁.ctx real, none⟩ :=
        ⟨fun id o => ih name m id o hm, fun k hk => by simp at hk⟩
      have hend := Steps.rule (P := Desk.Plain) (fun _ _ he hP hstep => hstep.plain he hP) hsteps hd
        hstart
      intro n mn id o hn ho
      rw [Controller.find?_withMarket] at hn
      split at hn
      · obtain rfl := Option.some.inj hn
        exact hend.resting id o ho
      · exact ih n mn id o hn ho
    | update _ _ _ _ _ => exact ih

/-- **A call that enters keeps the invariant.** -/
theorem call_settles {q : Request} {reply : Except Status Response} (hc : ControllerOK b c)
    (hback : c.Backing) (hset : c.Settles) (hA : c.EachPut E Plain q)
    (h : c.call E q = .ok (reply, c')) : c'.Settles := by
  refine ⟨call_solvent (fun _ _ _ => Plain.signed) hc hback hset.solvent hA h, ?_⟩
  obtain ⟨c₁, hmoves, hends⟩ := call_moves_each hc hA h
  have hplain := hmoves.plain hc hset.plain
  cases hends with
  | refused => exact hplain
  | logged =>
    obtain ⟨s, l, hl, -, -⟩ := logged_eq c₁ q.now q.real q.operation q.user
    rw [hl]
    exact hplain

/-- A blank controller has it. -/
theorem Blank.settles (hblank : c.Blank)
    (hmin : ∀ name m, c.markets.find? name = some m → 0 ≤ m.minAmount) : c.Settles := by
  refine ⟨Blank.solvent hblank hmin, fun name m id o hm ho => ?_⟩
  rw [(hblank.markets name m hm).resting] at ho
  simp at ho

/-- A loaded slice gives it back. -/
theorem SameBooks.settles (h : SameBooks c c') (hset : c.Settles) : c'.Settles := by
  have hback : ∀ name m', c'.markets.find? name = some m' → ∃ m, c.markets.find? name = some m ∧
      m.SameTerms m' ∧
      ∀ id, m'.resting id = m.resting id := by
    intro name m' hm'
    obtain ⟨m, hm⟩ := Option.isSome_iff_exists.1 (h.only name m' hm')
    obtain ⟨m'', hm'', hterms, -, hrest⟩ := h.markets name m hm
    obtain rfl : m' = m'' := Option.some.inj (hm'.symm.trans hm'')
    exact ⟨m, hm, hterms, hrest⟩
  refine ⟨⟨fun k => ?_, fun name m' hm' => ?_, fun name m' id o hm' ho => ?_⟩,
    fun name m' id o hm' ho => ?_⟩
  · rw [h.balances k]
    exact hset.solvent.balances k
  · obtain ⟨m, hm, hterms, -⟩ := hback name m' hm'
    rw [hterms.minAmount]
    exact hset.solvent.min name m hm
  · obtain ⟨m, hm, -, hrest⟩ := hback name m' hm'
    exact hset.solvent.resting name m id o hm ((hrest id).symm.trans ho)
  · obtain ⟨m, hm, -, hrest⟩ := hback name m' hm'
    exact hset.plain name m id o hm ((hrest id).symm.trans ho)

theorem HandledReachable.reachable
    (h : HandledReachable E toU64 settings c) : Reachable E settings c := by
  induction h with
  | init hb => exact .init hb
  | call _ _ _ hcall _ ih => exact ih.call hcall
  | reset _ ih => exact ih.reset
  | restart _ _ hstart hslice _ _ hrun ihc ihd _ => exact .restart ihc ihd hstart hslice hrun

/-- **Every state of a run through the handler can settle.** -/
theorem HandledReachable.settles (hU : toU64.Unsigned) (hs : settings.Shipped)
    (h : HandledReachable E toU64 settings c) : c.Settles := by
  induction h with
  | init hb =>
    obtain ⟨hok, hblank, -⟩ := createController_ok hb
    exact Blank.settles hblank fun name m hm => (hok.shipped hb hs hm).minAmount
  | call hstub hc hentered hcall _ ih =>
    obtain ⟨b, hb, hok⟩ := hc.reachable.ok
    obtain ⟨b₁, hb₁, hokStub⟩ := hstub.reachable.ok
    obtain rfl : b = b₁ := Except.ok.inj (hb.symm.trans hb₁)
    exact call_settles hok hc.reachable.frozen ih (Entered.eachPut hU hs hb hokStub hok hentered)
      hcall
  | reset hc _ =>
    obtain ⟨b, hb, hok⟩ := hc.reachable.ok
    obtain ⟨hokReset, hblank⟩ := resetState_ok hok
    exact Blank.settles hblank fun name m hm => (hokReset.shipped hb hs hm).minAmount
  | @restart c d b' c' slice now log stub hc hd hstart hslice hstubs hentered hrun ihc _ _ =>
    obtain ⟨b, hb, hok⟩ := hc.reachable.ok
    obtain ⟨b₁, hb₁, hokd⟩ := hd.reachable.ok
    obtain rfl : b = b₁ := Except.ok.inj (hb.symm.trans hb₁)
    obtain ⟨hok', hblank⟩ := hstart.blank hb hokd
    -- the entries of the log came through the handler
    have hreplay : ∀ {e : Controller} {start : ℕ}, ControllerOK b e → e.Backing → e.Settles →
        e.loadOperationLog E now log start = .ok c' → c'.Settles := by
      intro e start he hback hset hload
      refine (loadOperationLog_rows (P := fun e => ControllerOK b e ∧ e.Backing ∧ e.Settles) ?_ ?_
        ⟨he, hback, hset⟩ hload).2.2
      · rintro row hrow e reply e' ⟨he, hback, hset⟩ hcall
        obtain ⟨b₂, hb₂, hokStub⟩ := (hstubs row hrow).reachable.ok
        obtain rfl : b = b₂ := Except.ok.inj (hb.symm.trans hb₂)
        have hput := Entered.eachPut (q := ⟨now, true, false, row.userId, row.operation⟩) hU hs hb
          hokStub he (hentered row hrow)
        exact ⟨call_ok he hcall, call_backing he hback hcall, call_settles he hback hset hput hcall⟩
      · rintro e id ⟨he, hback, hset⟩
        exact ⟨he.setOperationLogId id, hback,
          ⟨hset.solvent.balances, hset.solvent.min, hset.solvent.resting⟩, hset.plain⟩
    rcases hslice with rfl | rfl
    · exact hreplay hok' (Blank.backed hblank)
        (Blank.settles hblank fun name m hm => (hok'.shipped hb hs hm).minAmount) hrun
    · simp only [Controller.initFromDb, bind_ok] at hrun
      obtain ⟨c₁, hload, hrun⟩ := hrun
      have hbooks := (loadSlice_dump hok hok' hblank hload).1
      have hset := hbooks.settles ihc
      refine hreplay (loadSlice_ok hok hok' hblank hload) (hbooks.backed hc.reachable.frozen) ⟨?_,
        hset.plain⟩ hrun
      exact ⟨hset.solvent.balances, hset.solvent.min, hset.solvent.resting⟩

/-- A market is settling between two orders. -/
theorem HandledReachable.desk (hU : toU64.Unsigned) (hs : settings.Shipped)
    (hc : HandledReachable E toU64 settings c) {name : String} (hm : c.markets.find? name = some m)
    (real : Bool) : Desk.Settles ⟨m, c.ctx real, none⟩ := by
  obtain ⟨b, hb, hok⟩ := hc.reachable.ok
  have hset := hc.settles hU hs
  have hshipped := hok.shipped hb hs hm
  have hfiltered := hc.reachable.filtered
  exact ⟨(hok.desk _ m hm).2 real, hset.solvent.desk hok hc.reachable.frozen hm,
    ⟨fun id o => hset.plain _ m id o hm, fun k hk => by simp at hk⟩,
    ⟨hfiltered.trade, hfiltered.other⟩, hshipped.disableSelfTrade, hshipped.assets⟩

/-- An order that was checked on one state is plain on another. -/
theorem HandledReachable.entered (hU : toU64.Unsigned) (hs : settings.Shipped)
    (hstub : HandledReachable E toU64 settings stub) (hc : HandledReachable E toU64 settings c)
    (hcheck : GrpcHandler.checkOrder E toU64 stub req = .ok ())
    (hm : c.markets.find? req.market = some m) {input : OrderInput}
    (hin : OrderInput.tryFrom E req = .ok input)
    (hinput : m.checkInput E c.balanceManager input u = .ok ()) : Plain m (c.ctx real) input := by
  obtain ⟨b, hb, hok⟩ := hc.reachable.ok
  obtain ⟨b₁, hb₁, hokStub⟩ := hstub.reachable.ok
  obtain rfl : b = b₁ := Except.ok.inj (hb.symm.trans hb₁)
  exact Entered.plain hU hs hb hokStub hok hcheck hm hin hinput

/-- **Settlement completes.** With the shipped configuration, when all orders come through the
handler, an order that has passed its check is executed or refused, in any build: no `unwrap` and no
assertion on its way fails, and no balance is negative after it. -/
theorem HandledReachable.putOrder_completes (hU : toU64.Unsigned) (hs : settings.Shipped)
    (hstub : HandledReachable E toU64 settings stub) (hc : HandledReachable E toU64 settings c)
    (hcheck : GrpcHandler.checkOrder E toU64 stub req = .ok ())
    (hm : c.markets.find? req.market = some m) {input : OrderInput}
    (hin : OrderInput.tryFrom E req = .ok input) (now : Timestamp) (real : Bool) (user : Uuid) :
    ∃ res m' x', m.putOrder E now (c.ctx real) input user = .ok (res, m', x') ∧
      ∀ k, 0 ≤ x'.balanceManager.getByKey k := by
  obtain ⟨⟨res, m', x'⟩, h, hbalances⟩ := putOrder_total (u := user) E now
    (hc.desk hU hs hm real) fun hinput => hstub.entered hU hs hc hcheck hm hin hinput
  exact ⟨res, m', x', h, hbalances⟩

/-! ## An order of the shipped exchange -/

/-- `to_u64` of the decimals that fit: the digits kept, the rest cut off, and a panic below 0. -/
def sampleToU64 : ToU64 :=
  fun x p => if 0 ≤ x then some (Rounding.trunc (x * 10 ^ p)).toNat else none

theorem sampleToU64_unsigned : sampleToU64.Unsigned := by
  intro x p n h
  unfold sampleToU64 at h
  split at h
  · assumption
  · simp at h

def shippedSettings : Settings :=
  { sampleSettings with disableMarketOrder := true, markets := [{ sampleMarket with feePrec := 0 }] }

theorem shippedSettings_shipped : shippedSettings.Shipped :=
  ⟨rfl, rfl, by decide, by decide +kernel, by decide⟩

/-- A limit order without fees. -/
def freeOrder (side : OrderSide) (amount price : String) : OrderPutRequest :=
  { limitOrder side amount price with takerFee := "", makerFee := "" }

/-- Calls that entered before the first of them. -/
theorem HandledReachable.calls {qs : List Request} {replies : List (Except Status Response)}
    (hstub : HandledReachable E toU64 settings stub)
    (hentered : ∀ q ∈ qs, q.operation.Entered E toU64 stub)
    (hc : HandledReachable E toU64 settings c) (h : c.calls E qs = .ok (replies, c')) :
    HandledReachable E toU64 settings c' := by
  exact Controller.calls_rule (fun _ _ _ _ hc hq hcall => hstub.call hc hq hcall) hc
    (Controller.along_of hentered c) h

/-- Alice offers 2 at 100, and Bob has the money for more. -/
def shippedRun : List Request :=
  [requestAt 0 alice (depositOf "ETH" 1 "5"), requestAt 1 bob (depositOf "USDT" 1 "1000"),
   requestAt 2 alice (.orderPut (freeOrder .ask "2" "100"))]

/-- Bob's bid for 3 at 101 is checked on the new exchange, and then buys 2 and freezes what the
third costs. -/
theorem HandledReachable.putOrder_completes_bid : ∃ c₀ c m input res m' x',
    HandledReachable debugEnv sampleToU64 shippedSettings c₀ ∧
    HandledReachable debugEnv sampleToU64 shippedSettings c ∧
    GrpcHandler.checkOrder debugEnv sampleToU64 c₀ (freeOrder .bid "3" "101") = .ok () ∧
    c.markets.find? "ETH_USDT" = some m ∧
    OrderInput.tryFrom debugEnv (freeOrder .bid "3" "101") = .ok input ∧
    m.putOrder debugEnv 3 (c.ctx true) input bob = .ok (res, m', x') ∧
    x'.balanceManager.get bob .available "ETH" = 2 ∧
    x'.balanceManager.get bob .freeze "USDT" = 101 ∧ ∀ k, 0 ≤ x'.balanceManager.getByKey k := by
  have h : (createController shippedSettings >>= fun c₀ => do
      let c := (← c₀.calls debugEnv shippedRun).2
      let m ← unwrap .marketName (c.markets.find? "ETH_USDT")
      let input ← unwrap .replay (OrderInput.tryFrom debugEnv (freeOrder .bid "3" "101")).toOption
      let put ← m.putOrder debugEnv 3 (c.ctx true) input bob
      return ((GrpcHandler.checkOrder debugEnv sampleToU64 c₀ (freeOrder .ask "2" "100")).isOk,
        (GrpcHandler.checkOrder debugEnv sampleToU64 c₀ (freeOrder .bid "3" "101")).isOk,
        put.2.2.balanceManager.get bob .available "ETH",
        put.2.2.balanceManager.get bob .freeze "USDT")) =
      (.ok (true, true, 2, 101) : Except Panic _) := by decide +kernel
  simp only [bind_ok, pure_ok, unwrap_ok, toOption_some, Prod.exists, Prod.mk.injEq] at h
  obtain ⟨c₀, hb, replies, c, hcalls, m, hm, input, hin, res, m', x', hput, hask, hbid, heth,
      husdt⟩ := h
  have hisOk : ∀ {r : Except GrpcHandler.Stopped Unit}, r.isOk = true → r = .ok () := by
    intro r hr
    cases r with
    | error e => simp [Except.isOk, Except.toBool] at hr
    | ok _ => rfl
  have hstart : HandledReachable debugEnv sampleToU64 shippedSettings c₀ := .init hb
  have hentered : ∀ q ∈ shippedRun, q.operation.Entered debugEnv sampleToU64 c₀ := by
    intro q hq
    simp only [shippedRun, List.mem_cons, List.not_mem_nil, or_false] at hq
    rcases hq with rfl | rfl | rfl
    · trivial
    · trivial
    · exact hisOk hask
  have hc := HandledReachable.calls hstart hentered hstart hcalls
  obtain ⟨res', m'', x'', hput', hbalances⟩ :=
    HandledReachable.putOrder_completes sampleToU64_unsigned
    shippedSettings_shipped hstart hc (hisOk hbid) hm hin 3 true bob
  obtain ⟨-, -, rfl⟩ : res = res' ∧ m' = m'' ∧ x' = x'' := by simpa using hput.symm.trans hput'
  exact ⟨c₀, c, m, input, res, m', x', hstart, hc, hisOk hbid, hm, hin, hput, heth, husdt,
    hbalances⟩

end Dingir
