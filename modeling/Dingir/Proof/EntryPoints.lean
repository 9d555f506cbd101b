import Dingir.Proof.Handler

/-!
# One order, alone or in a batch

`batch_order_put` hands an order to the engine unseen, while the handler of
`order_put` reads it once more, in `commit_order`, by rules of its own: the market name must be
two asset ids, the side one of two, the price a number even where a market order has
none, and the totals must fit 64 bits. **`GrpcHandler.orderPut_places_iff`**: an order that a batch
places is placed alone exactly when it also keeps these rules (`Committable`).
-/

namespace Dingir

open Keyed Rounding Outcome Market

variable {E : Env} {toU64 : ToU64} {now : Timestamp} {available : Bool} {user : Uuid}
  {c c' : Controller} {m : Market} {am : AssetManager} {req : OrderPutRequest}

/-- A decimal with that many digits fits an unsigned number of 64 bits. -/
def Fits64 (p : ℕ) (x : Decimal) : Prop := 0 ≤ x ∧ x * 10 ^ p < 2 ^ 64

/-- `to_u64` panics exactly on what does not fit. -/
def ToU64.Exact (toU64 : ToU64) : Prop := ∀ x p, OnGrid p x → ((toU64 x p).isSome ↔ Fits64 p x)

/-- The rules of `commit_order` for an order on `m`. -/
structure Committable (E : Env) (am : AssetManager) (m : Market)
    (req : OrderPutRequest) : Prop where
  name : ∃ base quote, splitName req.market = [base, quote] ∧ am.assetExist base ∧
    am.assetExist quote
  side : req.orderSide = 0 ∨ req.orderSide = 1
  price : (E.decimalFromStr req.price).isSome
  amount : (E.decimalFromStr req.amount).isSome
  fits : ∀ amount price, E.decimalFromStr req.amount = some amount →
    E.decimalFromStr req.price = some price →
    Fits64 m.amountPrec (truncDp amount m.amountPrec) ∧
      Fits64 (m.amountPrec + m.pricePrec) (truncDp amount m.amountPrec * roundDp price m.pricePrec)

/-! ## What `commit_order` commits -/

/-- The totals are formed for the two sides, and fail only where `to_u64` does. -/
theorem commitTotals_ok {side : ℤ} {base quote : AssetInfo} {amount price : Decimal} :
    (∃ k, AssetManager.commitTotals toU64 m side base quote amount price = .ok k) ↔
      (side = 0 ∨ side = 1) ∧
      (toU64 amount m.amountPrec).isSome ∧
      (toU64 (amount * price) (m.amountPrec + m.pricePrec)).isSome := by
  unfold AssetManager.commitTotals
  by_cases hask : side = 0
  · rw [if_pos hask]
    simp only [bind_ok, orPanic_ok, pure_ok, Option.isSome_iff_exists]
    constructor
    · rintro ⟨k, total, htotal, sell, hsell, -⟩
      exact ⟨.inl hask, ⟨sell, hsell⟩, ⟨total, htotal⟩⟩
    · rintro ⟨-, ⟨sell, hsell⟩, ⟨total, htotal⟩⟩
      exact ⟨_, total, htotal, sell, hsell, rfl⟩
  rw [if_neg hask]
  by_cases hbid : side = 1
  · rw [if_pos hbid]
    simp only [bind_ok, orPanic_ok, pure_ok, Option.isSome_iff_exists]
    constructor
    · rintro ⟨k, buy, hbuy, total, htotal, -⟩
      exact ⟨.inr hbid, ⟨buy, hbuy⟩, ⟨total, htotal⟩⟩
    · rintro ⟨-, ⟨buy, hbuy⟩, ⟨total, htotal⟩⟩
      exact ⟨_, buy, hbuy, total, htotal, rfl⟩
  · rw [if_neg hbid]
    constructor
    · rintro ⟨k, hk⟩
      simp [bail] at hk
    · rintro ⟨hside, -⟩
      omega

/-- **An order is committed exactly when it is committable.** -/
theorem commitOrder_ok_iff (hto : toU64.Exact) :
    (∃ k, am.commitOrder E toU64 req m = .ok k) ↔ Committable E am m req := by
  have hexists : ∀ {id : String}, am.assetExist id = true ↔ ∃ info, am.assetGet id = some info := by
    intro id
    exact Option.isSome_iff_exists
  -- the digits are cut before the totals are formed
  have hamount : ∀ amount, (toU64 (truncDp amount m.amountPrec) m.amountPrec).isSome ↔
      Fits64 m.amountPrec (truncDp amount m.amountPrec) := by
    intro amount
    exact hto _ _ (onGrid_truncDp _ _)
  have htotal : ∀ amount price,
      (toU64 (truncDp amount m.amountPrec * roundDp price m.pricePrec)
        (m.amountPrec + m.pricePrec)).isSome ↔
        Fits64 (m.amountPrec + m.pricePrec)
          (truncDp amount m.amountPrec * roundDp price m.pricePrec) := by
    intro amount price
    exact hto _ _ ((onGrid_truncDp _ _).mul (onGrid_roundDp _ _))
  unfold AssetManager.commitOrder
  split
  · rename_i base quote hsplit
    constructor
    · rintro ⟨k, hk⟩
      simp only [bind_ok, orBail_ok] at hk
      obtain ⟨baseToken, hbase, quoteToken, hquote, amount, ha, price, hp, hk⟩ := hk
      obtain ⟨hside, hsell, hbuy⟩ := commitTotals_ok.1 ⟨k, hk⟩
      have hname : ∃ base quote, splitName req.market = [base, quote] ∧ am.assetExist base ∧
          am.assetExist quote :=
        ⟨base, quote, hsplit, hexists.2 ⟨_, hbase⟩, hexists.2 ⟨_, hquote⟩⟩
      refine ⟨hname, hside, by rw [hp]; rfl, by rw [ha]; rfl, ?_⟩
      intro amount' price' ha' hp'
      obtain rfl : amount = amount' := Option.some.inj (ha.symm.trans ha')
      obtain rfl : price = price' := Option.some.inj (hp.symm.trans hp')
      exact ⟨(hamount _).1 hsell, (htotal _ _).1 hbuy⟩
    · rintro ⟨⟨base', quote', hsplit', hbase, hquote⟩, hside, hp, ha, hfits⟩
      obtain ⟨rfl, rfl⟩ : base = base' ∧ quote = quote' := by simpa using hsplit.symm.trans hsplit'
      obtain ⟨baseToken, hbase⟩ := hexists.1 hbase
      obtain ⟨quoteToken, hquote⟩ := hexists.1 hquote
      obtain ⟨amount, ha⟩ := Option.isSome_iff_exists.1 ha
      obtain ⟨price, hp⟩ := Option.isSome_iff_exists.1 hp
      obtain ⟨hsell, hbuy⟩ := hfits amount price ha hp
      obtain ⟨k, hk⟩ := commitTotals_ok.2 ⟨hside, (hamount _).2 hsell, (htotal _ _).2 hbuy⟩
      refine ⟨k, ?_⟩
      simp only [bind_ok, orBail_ok]
      exact ⟨baseToken, hbase, quoteToken, hquote, amount, ha, price, hp, hk⟩
  · rename_i hsplit
    constructor
    · rintro ⟨k, hk⟩
      simp [bail] at hk
    · rintro ⟨⟨base, quote, hsplit', -⟩, -⟩
      exact absurd hsplit' (hsplit base quote)

/-! ## What a batch places -/

/-- A batch of one order that places it has put it. -/
theorem Controller.batchOrderPut_single {id : ℕ}
    (h : c.batchOrderPut E now available true
      { market := req.market, reset := false, orders := [req] } user =
      .ok (.ok (.batchOrderPut ⟨.success, "", [id]⟩), c')) :
    available = true ∧ ∃ o c₁, c.putOrder E now true req user = .ok (.ok o, c₁) ∧ o.id = id := by
  unfold Controller.batchOrderPut at h
  cases available with
  | false => simp [pure_ok] at h
  | true =>
    refine ⟨rfl, ?_⟩
    rw [if_neg (by simp)] at h
    split at h
    · simp [pure_ok] at h
    simp only [Controller.batchStart, Bool.false_eq_true, if_false, bind_ok, Except.ok.injEq] at h
    obtain ⟨⟨r, c₀⟩, ⟨rfl, rfl⟩, h⟩ := h
    obtain ⟨⟨response, c₂⟩, hput, h⟩ := bind_ok.1 h
    unfold Controller.batchPut at hput
    rw [if_neg (not_not.2 rfl)] at hput
    obtain ⟨⟨res, c₁⟩, horder, hput⟩ := bind_ok.1 hput
    cases res with
    | error st =>
      simp only [pure_ok, Prod.mk.injEq] at hput
      obtain ⟨rfl, -⟩ := hput
      simp [pure_ok] at h
    | ok o =>
      simp only [Controller.batchPut, List.nil_append, Except.ok.injEq, Prod.mk.injEq] at hput
      obtain ⟨rfl, -⟩ := hput
      simp only [pure_ok, Prod.mk.injEq, Except.ok.injEq, Response.batchOrderPut.injEq,
        BatchOrderPutResponse.mk.injEq,
        true_and, List.cons.injEq, and_true] at h
      exact ⟨o, c₁, horder, h.1⟩

/-- The handler passes an order exactly when it is committable. -/
theorem GrpcHandler.checkOrder_iff (hto : toU64.Exact) :
    GrpcHandler.checkOrder E toU64 c req = .ok () ↔
    ∃ m, c.markets.find? req.market = some m ∧
      Committable E c.balanceManager.assetManager m req := by
  constructor
  · intro h
    obtain ⟨m, k, hm, hk⟩ := checkOrder_ok h
    exact ⟨m, hm, (commitOrder_ok_iff hto).1 ⟨k, hk⟩⟩
  · rintro ⟨m, hm, hcommit⟩
    obtain ⟨k, hk⟩ := (commitOrder_ok_iff hto).2 hcommit
    unfold checkOrder
    rw [hm]
    simp only [hk]

/-- **An order that a batch places is placed alone exactly when it is committable.** -/
theorem GrpcHandler.orderPut_places_iff {id : ℕ} (hto : toU64.Exact)
    (hbatch : GrpcHandler.batchOrderPut E now available c
      { market := req.market, reset := false, orders := [req] } user =
      .ok (.ok (.ok (.batchOrderPut ⟨.success, "", [id]⟩), c'))) :
    (∃ o c'', GrpcHandler.orderPut E toU64 now available c c req user =
      .ok (.ok (.ok (.orderInfo o), c''))) ↔
      ∃ m, c.markets.find? req.market = some m ∧
        Committable E c.balanceManager.assetManager m req := by
  obtain ⟨rfl, o, c₁, hput, -⟩ := Controller.batchOrderPut_single (Except.ok.inj hbatch)
  have halone : c.orderPut E now true true req user =
      .ok (.ok (.orderInfo o), c₁.logged now true (.orderPut req) user) := by
    unfold Controller.orderPut
    simp only [Bool.not_true, Bool.false_eq_true, if_false, hput]
    rfl
  rw [← checkOrder_iff hto]
  unfold orderPut
  constructor
  · rintro ⟨o', c'', h⟩
    split at h
    · cases h
    · assumption
  · intro hcheck
    rw [hcheck]
    exact ⟨o, _, congrArg Except.ok halone⟩

/-! ## A market order -/

/-- `to_u64` that cuts off what is behind the digits. -/
def exactToU64 : ToU64 :=
  fun x p => if 0 ≤ x ∧ x * 10 ^ p < 2 ^ 64 then some (Rounding.trunc (x * 10 ^ p)).toNat else none

theorem exactToU64_exact : exactToU64.Exact := by
  intro x p _
  unfold exactToU64 Fits64
  split <;> simp_all

/-- Alice offers 2 at 100, and Bob has money. -/
def offeredRun : List Request :=
  [requestAt 0 alice (depositOf "ETH" 1 "5"), requestAt 1 bob (depositOf "USDT" 1 "1000"),
   requestAt 2 alice (.orderPut (limitOrder .ask "2" "100"))]

/-- The identifiers of the orders that a batch of one order places. -/
def placedIds (c : Controller) (req : OrderPutRequest) (user : Uuid) :
    Except Panic (List ℕ × Controller) := do
  let (reply, c') ← c.batchOrderPut releaseEnv 3 true true { market := req.market, reset := false,
                                                             orders := [req] } user
  match reply with
  | .ok (.batchOrderPut r) =>
    if r.resultCode = .success ∧ r.errorMessage = "" then return (r.orderIds, c') else throw .lookup
  | _ => throw .lookup

theorem placedIds_ok {req : OrderPutRequest} {ids : List ℕ}
    (h : placedIds c req user = .ok (ids, c')) :
    GrpcHandler.batchOrderPut releaseEnv 3 true c
      { market := req.market, reset := false, orders := [req] } user =
      .ok (.ok (.ok (.batchOrderPut ⟨.success, "", ids⟩), c')) := by
  unfold placedIds at h
  obtain ⟨⟨reply, c₁⟩, hbatch, h⟩ := bind_ok.1 h
  cases reply with
  | error st => exact absurd h throw_ok
  | ok response =>
    cases response with
    | batchOrderPut r =>
      simp only at h
      split at h
      · rename_i hr
        simp only [pure_ok, Prod.mk.injEq] at h
        obtain ⟨rfl, rfl⟩ := h
        obtain ⟨code, message, ids⟩ := r
        obtain ⟨rfl, rfl⟩ := hr
        unfold GrpcHandler.batchOrderPut
        rw [if_neg (show ¬ GrpcHandler.maxBatchOrderNum <
          [req].length by simp [GrpcHandler.maxBatchOrderNum]), hbatch]
      · exact absurd h throw_ok
    | _ => exact absurd h throw_ok

/-- Bob's limit order is committable, and placed both ways. -/
theorem GrpcHandler.orderPut_places_iff_limit :
    ∃ c c' id o c'', Reachable releaseEnv sampleSettings c ∧
    GrpcHandler.batchOrderPut releaseEnv 3 true c
        { market := "ETH_USDT", reset := false, orders := [limitOrder .bid "1" "99"] } bob =
      .ok (.ok (.ok (.batchOrderPut ⟨.success, "", [id]⟩), c')) ∧
    GrpcHandler.orderPut releaseEnv exactToU64 3 true c c (limitOrder .bid "1" "99") bob =
      .ok (.ok (.ok (.orderInfo o), c'')) := by
  have h : (sampleRun releaseEnv offeredRun >>= fun c => do
      let placed ← placedIds c (limitOrder .bid "1" "99") bob
      return (decide (placed.1 = [2]),
        (GrpcHandler.checkOrder releaseEnv exactToU64 c (limitOrder .bid "1" "99")).isOk)) =
      (.ok (true, true) : Except Panic _) := by decide +kernel
  simp only [bind_ok, pure_ok, Prod.exists, Prod.mk.injEq, decide_eq_true_eq] at h
  obtain ⟨c, hc, ids, c', hids, rfl, hcheck⟩ := h
  have hpassed :
      GrpcHandler.checkOrder releaseEnv exactToU64 c (limitOrder .bid "1" "99") = .ok () := by
    cases hr : GrpcHandler.checkOrder releaseEnv exactToU64 c (limitOrder .bid "1" "99") with
    | error e => simp [hr, Except.isOk, Except.toBool] at hcheck
    | ok _ => rfl
  have hbatch := placedIds_ok hids
  obtain ⟨o, c'', halone⟩ :=
    (orderPut_places_iff exactToU64_exact hbatch).2 ((checkOrder_iff exactToU64_exact).1 hpassed)
  exact ⟨c, c', 2, o, c'', sampleRun_reachable hc, hbatch, halone⟩

/-- A market order has no price, which `OrderInput` allows and `commit_order` does not. -/
theorem GrpcHandler.not_orderPut_places :
    ¬ ∀ (toU64 : ToU64) (now : Timestamp) (available : Bool) (c c' : Controller)
    (req : OrderPutRequest) (user : Uuid) (id : ℕ), toU64.Exact →
    Reachable releaseEnv sampleSettings c →
    GrpcHandler.batchOrderPut releaseEnv now available c
      { market := req.market, reset := false, orders := [req] } user =
      .ok (.ok (.ok (.batchOrderPut ⟨.success, "", [id]⟩), c')) →
    ∃ o c'', GrpcHandler.orderPut releaseEnv toU64 now available c c req user =
      .ok (.ok (.ok (.orderInfo o), c'')) := by
  intro hall
  have h : (sampleRun releaseEnv offeredRun >>= fun c => do
      let placed ← placedIds c (marketOrder .bid "1" "100") bob
      return decide (placed.1 = [2])) = (.ok true : Except Panic _) := by decide +kernel
  simp only [bind_ok, pure_ok, Prod.exists, decide_eq_true_eq] at h
  obtain ⟨c, hc, ids, c', hids, rfl⟩ := h
  obtain ⟨o, c'', halone⟩ :=
    hall exactToU64 3 true c c' (marketOrder .bid "1" "100") bob 2 exactToU64_exact
    (sampleRun_reachable hc) (placedIds_ok hids)
  have hcheck : checkOrder releaseEnv exactToU64 c (marketOrder .bid "1" "100") = .ok () := by
    unfold GrpcHandler.orderPut at halone
    split at halone
    · cases halone
    · assumption
  obtain ⟨m, -, hcommit⟩ := (checkOrder_iff exactToU64_exact).1 hcheck
  have hprice : (releaseEnv.decimalFromStr "").isSome := hcommit.price
  simp [releaseEnv, sampleEnv, readDecimal, unsignedDecimal] at hprice

end Dingir
