import Dingir.Proof.Execution
import Dingir.Proof.Slices
import Dingir.Spec.Range
import Dingir.Spec.Sample

/-!
# When a balance update panics

`update_balance` changes the balance before it puts the business id into the detail
of the request, and an index assignment panics on JSON that is neither an object nor
null. It also adds to the balance, and adds both balances for the record, and a sum
of `Decimal`s panics when it is out of range.

* **`Reachable.updateBalance_safe_iff`**: `update_balance` returns, refused with
  nothing changed or done and told (`Controller.UpdateSafe`), with no operator out of range on the
  way, exactly when it does not reach such a detail (`Controller.HaltsAt`) and the balances
  stay in range (`Controller.OverflowsAt`).
* **`Reachable.not_updateBalance_safe`**: a deposit with the detail `7` panics, and one to
  an available balance that is in range, while the sum with the frozen one is not.
-/

namespace Dingir

open Keyed Outcome Rounding Posting

variable {E : Env} {settings : Settings} {now : Timestamp} {u : Uuid} {b c c' : Controller}
  {bm bm' : BalanceManager} {p : BalanceUpdateParams} {req : BalanceUpdateRequest} {a : String}
  {bt : BalanceType} {v : Decimal} {q : ℕ}

/-- An assertion that holds in a debug build. -/
theorem Env.debugAssert_when {e : Panic} {P : Prop} [Decidable P]
    (h : E.debugAssertions = true → P) : E.debugAssert e P = .ok () := by
  cases hE : E.debugAssertions with
  | true => exact Env.debugAssert_of (h hE)
  | false => exact Env.debugAssert_release hE _ _

/-! ## The change -/

theorem BalanceManager.add_returns (E : Env) (hp : bm.assetManager.assetPrec a = .ok q)
    (hold : E.debugAssertions = true → 0 ≤ bm.getByKey ⟨u, bt, a⟩) (hv : 0 ≤ v) :
    ∃ r, bm.add E u bt a v = .ok r := by
  have hround : 0 ≤ roundDp v q := roundDp_nonneg hv
  have hnew : E.debugAssertions = true → 0 ≤ bm.getByKey ⟨u, bt, a⟩ + roundDp v q := by
    intro hE
    linarith [hold hE]
  simp only [add, setByKey, bind_ok, pure_ok]
  exact ⟨_, (), Env.debugAssert_of hv, q, hp, _, ⟨(), Env.debugAssert_when hnew, q, hp, rfl⟩, rfl⟩

/-- **A change is made or refused**: a withdrawal that the balance does not cover is. -/
theorem applyChange_returns (hg : Gridded bm) (hp : bm.assetManager.assetPrec p.asset = .ok q)
    (hold : E.debugAssertions = true → 0 ≤ bm.getByKey p.account) :
    (p.change < 0 ∧ bm.getByKey p.account < |p.change| ∧
      applyChange E bm p = .ok (.error "balance not enough")) ∨
      (0 ≤ p.change ∨ |p.change| ≤ bm.getByKey p.account) ∧
      ∃ bm', applyChange E bm p = .ok (.ok bm') := by
  unfold applyChange
  by_cases hpos : 0 ≤ p.change
  · obtain ⟨r, hr⟩ := BalanceManager.add_returns E hp hold (abs_nonneg p.change)
    refine .inr ⟨.inl hpos, r.2, ?_⟩
    simp only [if_pos hpos]
    exact bind_ok.2 ⟨r, hr, rfl⟩
  · by_cases hcover : bm.getByKey p.account < |p.change|
    · refine .inl ⟨not_le.1 hpos, hcover, ?_⟩
      have hcover' : bm.get p.userId p.balanceType p.asset < |p.change| := hcover
      simp only [if_neg hpos, if_pos hcover']
      rfl
    · have hround : roundDp |p.change| q ≤ bm.getByKey p.account :=
        roundDp_le (not_lt.1 hcover) (hg p.account q hp)
      obtain ⟨r, hr⟩ := BalanceManager.sub_total E hp (abs_nonneg p.change) hround
      refine .inr ⟨.inr (not_lt.1 hcover), r.2, ?_⟩
      have hcover' : ¬bm.get p.userId p.balanceType p.asset < |p.change| := hcover
      simp only [if_neg hpos, if_neg hcover']
      exact bind_ok.2 ⟨r, hr, rfl⟩

/-- A change that is made is covered. -/
theorem applyChange_covers (h : applyChange E bm p = .ok (.ok bm')) :
    0 ≤ p.change ∨ |p.change| ≤ bm.getByKey p.account := by
  unfold applyChange at h
  by_cases hpos : 0 ≤ p.change
  · exact .inl hpos
  by_cases hcover : bm.get p.userId p.balanceType p.asset < |p.change|
  · simp only [if_neg hpos, if_pos hcover, pure_ok, reduceCtorEq] at h
  · exact .inr (not_lt.1 hcover)

/-! ## The messages -/

/-- Values whose fields can be assigned to. -/
def Value.Indexable : Value → Prop
  | .null => True
  | .object _ => True
  | _ => False

theorem Value.indexAssign_ok {key : String} {w x : Value} :
    (∃ y, indexAssign key w x = .ok y) ↔ x.Indexable := by
  cases x <;> simp [indexAssign, Indexable]

theorem Value.indexAssign_error {key : String} {w x : Value} (h : ¬x.Indexable) :
    indexAssign key w x = .error .detail := by
  cases x <;> simp_all [indexAssign, Indexable]

/-- The message of a deposit or a withdrawal. -/
def moveMessage (change : Decimal) (h : BalanceHistory) : Message :=
  if 0 ≤ change then .depositMessage h else .withdrawMessage h

theorem persistUpdate_zero {ms : List Message} (h : p.change = 0) :
    persistUpdate E now bm (.real ms) p = .ok (.real ms) := by
  simp [persistUpdate, h, pure, Except.pure]

/-- What is told of an update: its balance, then a deposit or a withdrawal. -/
theorem persistUpdate_told (E : Env) (now : Timestamp) (bm : BalanceManager) (ms : List Message)
    (h : p.change ≠ 0) (hbt : p.businessType = if 0 ≤ p.change then .deposit else .withdraw)
    (hd : p.detail.Indexable) :
    ∃ history : BalanceHistory, history.userId = p.userId ∧ history.asset = p.asset ∧
      history.change = p.change ∧
      history.balanceAvailable = bm.get p.userId .available p.asset ∧
      history.balanceFrozen = bm.get p.userId .freeze p.asset ∧
      persistUpdate E now bm (.real ms) p =
        .ok (.real (ms ++ [.balanceMessage history, moveMessage p.change history])) := by
  obtain ⟨detail, hdetail⟩ := Value.indexAssign_ok.2 hd
  let balanceAvailable := bm.get p.userId .available p.asset
  let balanceFrozen := bm.get p.userId .freeze p.asset
  refine ⟨{ time := now, userId := p.userId, businessId := p.businessId, asset := p.asset,
            business := p.business,
            marketPrice := p.marketPrice, change := p.change,
            balance := balanceAvailable + balanceFrozen,
            balanceAvailable, balanceFrozen, detail := E.jsonToString detail }, rfl, rfl, rfl, rfl,
            rfl, ?_⟩
  unfold persistUpdate
  rw [if_pos (by simp [PersistExector.realPersist, h]), bind_ok]
  refine ⟨detail, hdetail, ?_⟩
  unfold moveMessage
  rw [hbt]
  by_cases hpos : 0 ≤ p.change
  · simp [hpos, PersistExector.putBalance, PersistExector.putDeposit, PersistExector.push, pure,
      Except.pure, balanceAvailable,
      balanceFrozen]
  · simp [hpos, PersistExector.putBalance, PersistExector.putWithdraw, PersistExector.push, pure,
      Except.pure, balanceAvailable,
      balanceFrozen]

theorem persistUpdate_halts {ms : List Message} (h : p.change ≠ 0) (hd : ¬p.detail.Indexable) :
    persistUpdate E now bm (.real ms) p = .error .detail := by
  unfold persistUpdate
  rw [if_pos (by simp [PersistExector.realPersist, h]), Value.indexAssign_error hd]
  rfl

/-! ## `update_user_balance` -/

/-- **An update by a real persistor**: refused, made and told, or stopped at its detail. -/
theorem updateUserBalance_real (now : Timestamp) {x : Ctx} {ms : List Message}
    (p : BalanceUpdateParams) (hx : x.persistor = .real ms) (hg : Gridded x.balanceManager)
    (hp : x.balanceManager.assetManager.assetPrec p.asset = .ok q)
    (hold : E.debugAssertions = true → 0 ≤ x.balanceManager.getByKey p.account)
    (hbt : p.businessType = if 0 ≤ p.change then .deposit else .withdraw) :
    ((x.updateController.cache.containsKey now p.key = true ∨
        p.change < 0 ∧ x.balanceManager.getByKey p.account < |p.change|) ∧
      ∃ e, updateUserBalance E now x p = .ok (.error e, x)) ∨
    (x.updateController.cache.containsKey now p.key = false ∧
        (0 ≤ p.change ∨ |p.change| ≤ x.balanceManager.getByKey p.account)) ∧
      ((p.change = 0 ∨ p.detail.Indexable) ∧
        (∃ x', updateUserBalance E now x p = .ok (.ok (), x')) ∨
        (p.change ≠ 0 ∧ ¬p.detail.Indexable) ∧ updateUserBalance E now x p = .error .detail) := by
  unfold updateUserBalance
  cases hkey : x.updateController.cache.containsKey now p.key with
  | true => exact .inl ⟨.inl rfl, "duplicate request", rfl⟩
  | false =>
    rcases applyChange_returns hg hp hold with ⟨hneg, hcover, hrefused⟩ | ⟨hcover, bm', happ⟩
    · refine .inl ⟨.inr ⟨hneg, hcover⟩, "balance not enough", ?_⟩
      rw [hrefused]
      rfl
    · refine .inr ⟨⟨rfl, hcover⟩, ?_⟩
      rw [happ, hx]
      by_cases hzero : p.change = 0
      · refine .inl ⟨.inl hzero, _,
          bind_ok.2 ⟨_, rfl, bind_ok.2 ⟨_, persistUpdate_zero hzero, rfl⟩⟩⟩
      by_cases hd : p.detail.Indexable
      · obtain ⟨history, -, -, -, -, -, htold⟩ := persistUpdate_told E now bm' ms hzero hbt hd
        exact .inl ⟨.inr hd, _, bind_ok.2 ⟨_, rfl, bind_ok.2 ⟨_, htold, rfl⟩⟩⟩
      · refine .inr ⟨⟨hzero, hd⟩, ?_⟩
        show (persistUpdate E now bm' (.real ms) p >>= _) = _
        rw [persistUpdate_halts hzero hd]
        rfl

/-! ## `update_balance` -/

namespace Controller

/-- The change a request asks for. -/
def Asks (E : Env) (c : Controller) (req : BalanceUpdateRequest) (change : Decimal) : Prop :=
  ∃ prec delta, c.balanceManager.assetManager.assetPrecShow req.asset = .ok prec ∧
    E.decimalFromStr req.delta = some delta ∧ change = roundDp delta prec

/-- **An update that is made and told.** -/
structure Updated (now : Timestamp) (c : Controller) (req : BalanceUpdateRequest) (u : Uuid)
    (change : Decimal) (c' : Controller) : Prop where
  available : ∀ prec, c.balanceManager.assetManager.assetPrec req.asset = .ok prec →
    c'.balanceManager.get u .available req.asset =
      c.balanceManager.get u .available req.asset + if 0 ≤ change then roundDp |change| prec
        else -roundDp |change| prec
  others : ∀ k : BalanceMapKey, k ≠ ⟨u, .available, req.asset⟩ →
    c'.balanceManager.getByKey k = c.balanceManager.getByKey k
  log : ∃ id, c'.logHandler = c.logHandler ++
    [{ id, userId := u, time := now, operation := .balanceUpdate req }]
  silent : change = 0 → c'.persistor = c.persistor
  told : change ≠ 0 → ∃ history : BalanceHistory, history.userId = u ∧ history.asset = req.asset ∧
    history.change = change ∧
    history.balanceAvailable = c'.balanceManager.get u .available req.asset ∧
    history.balanceFrozen = c'.balanceManager.get u .freeze req.asset ∧
    c'.persistor = c.persistor ++ [.balanceMessage history, moveMessage change history]

/-- **`update_balance` returns**: an `Err` with nothing changed, or `Ok` with all done and told. -/
def UpdateSafe (E : Env) (now : Timestamp) (available : Bool) (c : Controller)
    (req : BalanceUpdateRequest) (u : Uuid) : Prop :=
  ∃ reply c', c.updateBalance E now available true req u = .ok (reply, c') ∧
    ((∃ st, reply = .error st) ∧ c' = c ∨
      reply = .ok .balanceUpdate ∧ ∃ change, c.Asks E req change ∧ c.Updated now req u change c')

/-- **The requests at which it does not**: they pass the filter and change a balance that covers
them, with a detail that is neither an object nor null. -/
def HaltsAt (E : Env) (now : Timestamp) (available : Bool) (c : Controller)
    (req : BalanceUpdateRequest) (u : Uuid) : Prop :=
  available = true ∧ ∃ change detail, c.Asks E req change ∧ req.detail.isEmpty = false ∧
    E.jsonFromStr req.detail = some detail ∧ ¬detail.Indexable ∧ change ≠ 0 ∧
    c.updateController.cache.containsKey now
      ⟨.available, if 0 ≤ change then .deposit else .withdraw, u, req.asset, req.business,
        req.businessId⟩ = false ∧
    (0 ≤ change ∨ |change| ≤ c.balanceManager.get u .available req.asset)

/-- The request is read and no duplicate: what it asks for is about to be done. -/
structure GetsTo (E : Env) (now : Timestamp) (available : Bool) (c : Controller)
    (req : BalanceUpdateRequest) (u : Uuid) (change : Decimal) (prec : ℕ) : Prop where
  available : available = true
  asks : c.Asks E req change
  prec : c.balanceManager.assetManager.assetPrec req.asset = .ok prec
  detail : req.detail.isEmpty = true ∨ ∃ detail, E.jsonFromStr req.detail = some detail
  fresh : c.updateController.cache.containsKey now
    ⟨.available, if 0 ≤ change then .deposit else .withdraw, u, req.asset, req.business,
      req.businessId⟩ = false

/-- The available balance with a change. -/
def changedBy (c : Controller) (asset : String) (u : Uuid) (change : Decimal)
    (prec : ℕ) : Decimal :=
  c.balanceManager.get u .available asset + if 0 ≤ change then roundDp |change| prec
    else -roundDp |change| prec

/-- **The requests at which a sum is out of range**: that of the balance and the change, or, for a
change that is not zero, that of both balances. A withdrawal that is not covered is refused
before. -/
def OverflowsAt (E : Env) (now : Timestamp) (available : Bool) (c : Controller)
    (req : BalanceUpdateRequest) (u : Uuid) : Prop :=
  ∃ change prec, c.GetsTo E now available req u change prec ∧ (¬InRange change ∨
    (0 ≤ change ∨ |change| ≤ c.balanceManager.get u .available req.asset) ∧
      (¬InRange (c.changedBy req.asset u change prec) ∨
        change ≠ 0 ∧ ¬InRange
          (c.changedBy req.asset u change prec + c.balanceManager.get u .freeze req.asset)))

/-- **`update_balance` never halts**: it returns, and no operator it uses panics. -/
def NeverHalts (E : Env) (now : Timestamp) (available : Bool) (c : Controller)
    (req : BalanceUpdateRequest) (u : Uuid) : Prop :=
  c.UpdateSafe E now available req u ∧ ∀ v, c.BalanceComputes E now available req u v → InRange v

/-- **What a call that returns has done.** -/
theorem updateBalance_done (hc : ControllerOK b c) {available : Bool}
    {reply : Except Status Response}
    (h : c.updateBalance E now available true req u = .ok (reply, c')) :
    (∃ st, reply = .error st) ∧ c' = c ∨
      reply = .ok .balanceUpdate ∧ ∃ change, c.Asks E req change ∧
        c.Updated now req u change c' := by
  rcases updateBalance_cases h with hrefused |
    ⟨hreply, prec, price, change, detail, x', hprec, hparse, -, happ, rfl⟩
  · exact .inl hrefused
  refine .inr ⟨hreply, change, ?_, ?_⟩
  · rcases parseUpdate_cases E prec req with ⟨-, st, hst⟩ | ⟨delta, detail', hdelta, hparse', -⟩
    · rw [hst] at hparse
      cases hparse
    · rw [hparse'] at hparse
      cases hparse
      exact ⟨prec, delta, hprec, hdelta, rfl⟩
  obtain ⟨d, hchanged⟩ := applyChange_ok hc.gridded happ.change
  have hbalance : ∀ k : BalanceMapKey, x'.balanceManager.getByKey k =
      c.balanceManager.getByKey k + if (⟨u, .available, req.asset⟩ : BalanceMapKey) = k then d
        else 0 := by
    intro k
    rw [hchanged.posted.balance, amountIn_cons, amountIn_nil, add_zero]
    rfl
  have hpersist : persistUpdate E now x'.balanceManager (.real c.persistor)
      (updateParams req u price change detail) = .ok x'.persistor := happ.persistor
  refine ⟨fun q hq => ?_, fun k hk => ?_, ⟨_, rfl⟩, fun hzero => ?_, fun hzero => ?_⟩
  · have hd : |d| = roundDp |change| q := hchanged.size q hq
    show x'.balanceManager.getByKey ⟨u, .available, req.asset⟩ = _
    rw [hbalance, if_pos rfl, ← hd]
    by_cases hpos : 0 ≤ change
    · rw [if_pos hpos, abs_of_nonneg (hchanged.deposit hpos)]
      rfl
    · rw [if_neg hpos, abs_of_nonpos (hchanged.withdraw (not_le.1 hpos)).1, neg_neg]
      rfl
  · show x'.balanceManager.getByKey k = _
    rw [hbalance, if_neg (Ne.symm hk), add_zero]
  · rw [persistUpdate_zero hzero] at hpersist
    unfold Controller.withCtx
    rw [← Except.ok.inj hpersist]
    rfl
  · by_cases hd : (updateParams req u price change detail).detail.Indexable
    · obtain ⟨history, huser, hasset, hchange, havail, hfrozen, htold⟩ := persistUpdate_told E now
        x'.balanceManager c.persistor (p := updateParams req u price change detail) hzero rfl hd
      refine ⟨history, huser, hasset, hchange, havail, hfrozen, ?_⟩
      rw [htold] at hpersist
      unfold Controller.withCtx
      rw [← Except.ok.inj hpersist]
      rfl
    · rw [persistUpdate_halts hzero hd] at hpersist
      cases hpersist

/-- The markets named for a pair of assets are there. -/
theorem createController_names (h : createController settings = .ok c) {pair : String × String}
    {name : String} (hname : c.assetMarketNames.find? pair = some name) :
    (c.markets.find? name).isSome = true := by
  unfold createController at h
  simp only [bind_ok, pure_ok] at h
  obtain ⟨bm, hbm, ⟨markets, names⟩, hloop, rfl⟩ := h
  refine foldlM_rule (P := fun _ (s : HashMap String Market × HashMap (String × String) String) =>
    ∀ pair name, s.2.find? pair = some name →
      (s.1.find? name).isSome = true) ?_ _ _ _ (by simp [find?_empty]) hloop pair
    name hname
  intro entry l s s' hP hstep pair name hname
  unfold createMarket at hstep
  obtain ⟨r, hr, hstep⟩ := bind_ok.1 hstep
  cases r with
  | error e => exact absurd hstep throw_ok
  | ok market =>
    simp only [pure_ok] at hstep
    subst hstep
    rw [find?_insert] at hname ⊢
    by_cases hn : name = entry.name
    · rw [if_pos hn]
      rfl
    · rw [if_neg hn]
      split at hname
      · exact absurd (Option.some.inj hname).symm hn
      · exact hP pair name hname

end Controller

/-- The last price of an asset can be read. -/
theorem Reachable.marketPrice_returns (h : Reachable E settings c) (asset : String) :
    ∃ price, c.marketPrice asset = .ok price := by
  obtain ⟨b, hb, hc⟩ := h.ok
  unfold Controller.marketPrice
  cases hname : c.assetMarketNames.find? (asset, "USDT") with
  | none => exact ⟨0, rfl⟩
  | some name =>
    rw [hc.names] at hname
    obtain ⟨m₀, hm₀⟩ := Option.isSome_iff_exists.1 (Controller.createController_names hb hname)
    obtain ⟨m, hm⟩ := Option.isSome_iff_exists.1 (hc.kept name m₀ hm₀)
    exact ⟨m.price, by simp only [hm]; rfl⟩

/-- Whether a request halts, once its texts are read. -/
theorem Controller.haltsAt_iff {prec : ℕ} {delta : Decimal} {detail : Value}
    (hprec : c.balanceManager.assetManager.assetPrecShow req.asset = .ok prec)
    (hdelta : E.decimalFromStr req.delta = some delta)
    (hdetail : req.detail.isEmpty = true ∧ detail = .object [] ∨ req.detail.isEmpty = false ∧
      E.jsonFromStr req.detail = some detail) :
    c.HaltsAt E now true req u ↔ ¬detail.Indexable ∧ roundDp delta prec ≠ 0 ∧
      c.updateController.cache.containsKey now
        (updateParams req u 0 (roundDp delta prec) detail).key = false ∧
      (0 ≤ roundDp delta prec ∨
        |roundDp delta prec| ≤ c.balanceManager.get u .available req.asset) := by
  constructor
  · rintro ⟨-, change, detail', ⟨prec', delta', hprec', hdelta', rfl⟩, hempty, hjson, hrest⟩
    obtain rfl : prec = prec' := Except.ok.inj (hprec.symm.trans hprec')
    obtain rfl : delta = delta' := Option.some.inj (hdelta.symm.trans hdelta')
    rcases hdetail with ⟨hempty', -⟩ | ⟨-, hjson'⟩
    · simp [hempty] at hempty'
    · obtain rfl : detail = detail' := Option.some.inj (hjson'.symm.trans hjson)
      exact hrest
  · intro hrest
    rcases hdetail with ⟨-, rfl⟩ | ⟨hempty, hjson⟩
    · exact absurd trivial hrest.1
    · exact ⟨rfl, _, detail, ⟨prec, delta, hprec, hdelta, rfl⟩, hempty, hjson, hrest⟩

/-- A call with what its texts and its market say. -/
theorem Controller.updateBalance_of_parsed (now : Timestamp) (u : Uuid) {prec : ℕ}
    {price change : Decimal} {detail : Value} {r : Except Panic (Except String Unit × Ctx)}
    (hexist : c.balanceManager.assetManager.assetExist req.asset = true)
    (hprec : c.balanceManager.assetManager.assetPrecShow req.asset = .ok prec)
    (hparse : parseUpdate E prec req = .ok (change, detail))
    (hprice : c.marketPrice req.asset = .ok price)
    (hr : updateUserBalance E now (c.ctx true) (updateParams req u price change detail) = r) :
    c.updateBalance E now true true req u = r >>= fun (res, x) =>
      match res with
      | .error e => .ok (.error (invalidArgument e), c.withCtx x)
      | .ok () => .ok (.ok .balanceUpdate,
          (c.withCtx x).logged now true (.balanceUpdate req) u) := by
  unfold updateBalance
  simp only [Bool.not_true, Bool.false_eq_true, if_false, hexist, hprec, bind, Except.bind, hparse,
    hprice, hr]
  rfl

/-- **A call returns, or stops at its detail.** -/
theorem Reachable.updateBalance_returns (h : Reachable E settings c) (now : Timestamp)
    (available : Bool) (req : BalanceUpdateRequest) (u : Uuid) :
    ¬c.HaltsAt E now available req u ∧
    (∃ reply c', c.updateBalance E now available true req u = .ok (reply, c')) ∨
      c.HaltsAt E now available req u ∧
      c.updateBalance E now available true req u = .error .detail := by
  obtain ⟨b, -, hc⟩ := h.ok
  cases available with
  | false => exact .inl ⟨fun hh => Bool.false_ne_true hh.1, _, _, rfl⟩
  | true =>
  cases hasset : c.balanceManager.assetManager.assetGet req.asset with
  | none =>
    have hexist : c.balanceManager.assetManager.assetExist req.asset = false := by
      unfold AssetManager.assetExist
      rw [show c.balanceManager.assetManager.assets.find? req.asset = none from hasset]
      rfl
    refine .inl ⟨?_, _, _, by simp only [Controller.updateBalance, hexist]; rfl⟩
    rintro ⟨-, -, -, ⟨prec, -, hprec, -⟩, -⟩
    simp [AssetManager.assetPrecShow, hasset, unwrap, bind, Except.bind] at hprec
  | some info =>
  have hexist : c.balanceManager.assetManager.assetExist req.asset = true := by
    unfold AssetManager.assetExist
    rw [show c.balanceManager.assetManager.assets.find? req.asset = some info from hasset]
    rfl
  have hprec : c.balanceManager.assetManager.assetPrecShow req.asset = .ok info.precShow := by
    simp [AssetManager.assetPrecShow, hasset, unwrap, bind, Except.bind, pure, Except.pure]
  have hsave : c.balanceManager.assetManager.assetPrec req.asset = .ok info.precSave := by
    simp [AssetManager.assetPrec, hasset, unwrap, bind, Except.bind, pure, Except.pure]
  rcases Controller.parseUpdate_cases E info.precShow req with ⟨hbad, st, hst⟩ |
    ⟨delta, detail, hdelta, hparse, hdetail⟩
  · refine .inl ⟨?_, .error st, c, ?_⟩
    · rintro ⟨-, -, detail, ⟨-, delta, -, hdelta, -⟩, hempty, hjson, -⟩
      rcases hbad with hbad | ⟨-, hbad⟩
      · simp [hbad] at hdelta
      · simp [hbad] at hjson
    · unfold Controller.updateBalance
      simp only [Bool.not_true, Bool.false_eq_true, if_false, hexist, hprec, bind, Except.bind, hst]
      rfl
  rw [Controller.haltsAt_iff hprec hdelta hdetail]
  obtain ⟨price, hprice⟩ := h.marketPrice_returns req.asset
  have hold : E.debugAssertions = true →
      0 ≤ (c.ctx true).balanceManager.getByKey
        (Controller.updateParams req u price (roundDp delta info.precShow) detail).account :=
    fun hE => h.storable.nonneg hE _
  have hcall :=
    fun r => Controller.updateBalance_of_parsed now u (r := r) hexist hprec hparse hprice
  have hreal : (c.ctx true).persistor = .real c.persistor := rfl
  rcases updateUserBalance_real now
    (Controller.updateParams req u price (roundDp delta info.precShow) detail) hreal
    hc.gridded hsave hold rfl with
    ⟨hwhy, e, hrefused⟩ | ⟨⟨hfree, hcover⟩, ⟨hgood, x', hmade⟩ | ⟨⟨hzero, hbad⟩, hstops⟩⟩
  · refine .inl ⟨?_, _, _, (hcall _ hrefused).trans rfl⟩
    rintro ⟨-, -, hfree, hcover⟩
    rcases hwhy with hkey | ⟨hneg, hlow⟩
    · exact Bool.false_ne_true (hfree.symm.trans hkey)
    · exact hcover.elim (fun hpos => hpos.not_gt hneg) fun hle => (hle.trans_lt hlow).false
  · refine .inl ⟨?_, _, _, (hcall _ hmade).trans rfl⟩
    rintro ⟨hbad, hzero, -⟩
    exact hgood.elim hzero hbad
  · exact .inr ⟨⟨hbad, hzero, hfree, hcover⟩, (hcall _ hstops).trans rfl⟩

/-- **A call returns with all done or nothing, exactly when it does not reach a detail that it
cannot complete.** -/
theorem Reachable.updateSafe_iff (h : Reachable E settings c) (now : Timestamp) (available : Bool)
    (req : BalanceUpdateRequest) (u : Uuid) :
    c.UpdateSafe E now available req u ↔ ¬c.HaltsAt E now available req u := by
  obtain ⟨b, -, hc⟩ := h.ok
  rcases h.updateBalance_returns now available req u with ⟨hgood, reply, c', hcall⟩ | ⟨hbad, hstops⟩
  · exact iff_of_true ⟨reply, c', hcall, Controller.updateBalance_done hc hcall⟩ hgood
  · refine iff_of_false ?_ (not_not_intro hbad)
    rintro ⟨reply, c', hcall, -⟩
    rw [hstops] at hcall
    cases hcall

/-! ## The range -/

/-- What is recorded of a change that is made: the available balance with it, and the frozen one. -/
theorem total_of_change {price change : Decimal} {detail : Value} {prec : ℕ}
    (hg : Gridded c.balanceManager)
    (hprec : c.balanceManager.assetManager.assetPrec req.asset = .ok prec)
    (h : applyChange E c.balanceManager (Controller.updateParams req u price change detail) =
      .ok (.ok bm)) :
    bm.total u req.asset = c.changedBy req.asset u change prec +
      c.balanceManager.get u .freeze req.asset := by
  obtain ⟨d, hd⟩ := applyChange_ok hg h
  have hsize : |d| = roundDp |change| prec := hd.size prec hprec
  have hsign : d = if 0 ≤ change then roundDp |change| prec else -roundDp |change| prec := by
    rw [← hsize]
    split
    · rename_i hpos
      exact (abs_of_nonneg (hd.deposit hpos)).symm
    · rename_i hneg
      rw [abs_of_nonpos (hd.withdraw (not_le.1 hneg)).1, neg_neg]
  have havailable : bm.getByKey ⟨u, .available, req.asset⟩ =
      c.balanceManager.getByKey ⟨u, .available, req.asset⟩ + d := by
    rw [hd.posted.balance, amountIn_cons, amountIn_nil, add_zero, if_pos]
    rfl
  have hfrozen : bm.getByKey ⟨u, .freeze, req.asset⟩ =
      c.balanceManager.getByKey ⟨u, .freeze, req.asset⟩ := by
    rw [hd.posted.balance, amountIn_cons, amountIn_nil, add_zero, if_neg, add_zero]
    simp [BalanceUpdateParams.account, Controller.updateParams]
  unfold BalanceManager.total Controller.changedBy BalanceManager.get
  rw [havailable, hfrozen, hsign]

/-- An asset that is shown is kept. -/
theorem AssetManager.assetPrec_of_show {am : AssetManager} {asset : String} {prec : ℕ}
    (h : am.assetPrecShow asset = .ok prec) : ∃ q, am.assetPrec asset = .ok q := by
  cases hasset : am.assetGet asset with
  | none => simp [AssetManager.assetPrecShow, hasset, unwrap, bind, Except.bind] at h
  | some info =>
    exact ⟨info.precSave, by simp [AssetManager.assetPrec, hasset, unwrap, bind, Except.bind, pure,
    Except.pure]⟩

/-- **No operator is out of range exactly when no sum is.** -/
theorem Reachable.balanceComputes_iff (h : Reachable E settings c) (now : Timestamp)
    (available : Bool) (req : BalanceUpdateRequest) (u : Uuid) :
    (∀ v, c.BalanceComputes E now available req u v → InRange v) ↔
      ¬c.OverflowsAt E now available req u := by
  obtain ⟨b, -, hc⟩ := h.ok
  constructor
  · rintro hall ⟨change, prec, ⟨rfl, ⟨precShow, delta, hshow, hdelta, rfl⟩, hprec, hdetail, hfresh⟩,
      hover⟩
    obtain ⟨price, hprice⟩ := h.marketPrice_returns req.asset
    have hparse :
        ∃ detail, Controller.parseUpdate E precShow req = .ok (roundDp delta precShow, detail) := by
      rcases Controller.parseUpdate_cases E precShow req with ⟨hbad, -⟩ |
        ⟨delta', detail, hdelta', hparse, -⟩
      · rcases hbad with hbad | ⟨hempty, hbad⟩
        · cases hdelta.symm.trans hbad
        · rcases hdetail with hdetail | ⟨detail, hdetail⟩
          · simp [hdetail] at hempty
          · cases hdetail.symm.trans hbad
      · obtain rfl := Option.some.inj (hdelta.symm.trans hdelta')
        exact ⟨detail, hparse⟩
    obtain ⟨detail, hparse⟩ := hparse
    set change := roundDp delta precShow with hchange
    have hcomputes : ∀ v, UpdateComputes E now (c.ctx true)
        (Controller.updateParams req u price change detail) v → InRange v :=
      fun v hv => hall v (.update rfl hshow hparse hprice hv)
    rcases hover with hsize | ⟨hcover, hover⟩
    · have habs : InRange |change| := hcomputes _ (.size hfresh)
      unfold InRange at habs
      rw [abs_abs] at habs
      exact hsize habs
    have hafter : InRange (c.changedBy req.asset u change prec) := by
      unfold Controller.changedBy
      by_cases hpos : 0 ≤ change
      · rw [if_pos hpos]
        exact hcomputes _ (.added hfresh hprec hpos)
      · rw [if_neg hpos, ← sub_eq_add_neg]
        exact hcomputes _ (.taken hfresh hprec (not_le.1 hpos) (hcover.resolve_left hpos))
    rcases hover with hover | ⟨hzero, hover⟩
    · exact hover hafter
    have hold : E.debugAssertions = true →
        0 ≤ c.balanceManager.getByKey (Controller.updateParams req u price change detail).account :=
      fun hE => h.storable.nonneg hE _
    rcases applyChange_returns (p := Controller.updateParams req u price change detail) hc.gridded
      hprec hold with ⟨hneg, hlow, -⟩ | ⟨-, bm, hbm⟩
    · exact hcover.elim (fun hpos => (not_lt.2 hpos hneg).elim) fun hle => (hle.trans_lt hlow).false
    · exact hover (total_of_change hc.gridded hprec hbm ▸
        hcomputes _ (.recorded hfresh hbm rfl hzero))
  · rintro hno v ⟨rfl, hshow, hparse, hprice, hv⟩
    rename_i precShow price change detail
    obtain ⟨prec, hprec⟩ := AssetManager.assetPrec_of_show hshow
    rcases Controller.parseUpdate_cases E precShow req with ⟨-, st, hst⟩ |
      ⟨delta, detail', hdelta, hparse', hdetail⟩
    · cases hst.symm.trans hparse
    obtain ⟨rfl, rfl⟩ : roundDp delta precShow = change ∧ detail' = detail := by
      simpa using hparse'.symm.trans hparse
    have hgets : ∀ fresh, c.GetsTo E now true req u (roundDp delta precShow) prec := fun fresh =>
      ⟨rfl, ⟨precShow, delta, hshow, hdelta, rfl⟩, hprec,
        hdetail.imp And.left fun hjson => ⟨_, hjson.2⟩, fresh⟩
    have hin : ∀ {P : Prop}, (¬P → c.OverflowsAt E now true req u) → P :=
      fun hP => by_contra fun hc => hno (hP hc)
    cases hv with
    | size hfresh =>
      have hsize : InRange (roundDp delta precShow) :=
        hin fun hbad => ⟨_, prec, hgets hfresh, .inl hbad⟩
      simpa [InRange, Controller.updateParams] using hsize
    | @added q hfresh hq hpos =>
      obtain rfl : prec = q := Except.ok.inj (hprec.symm.trans hq)
      have hpos : 0 ≤ roundDp delta precShow := hpos
      have hafter := hin fun hbad => ⟨_, prec, hgets hfresh, .inr ⟨.inl hpos, .inl hbad⟩⟩
      rwa [Controller.changedBy, if_pos hpos] at hafter
    | @taken q hfresh hq hneg hcover =>
      obtain rfl : prec = q := Except.ok.inj (hprec.symm.trans hq)
      have hneg : roundDp delta precShow < 0 := hneg
      have hafter := hin fun hbad => ⟨_, prec, hgets hfresh, .inr ⟨.inr hcover, .inl hbad⟩⟩
      rwa [Controller.changedBy, if_neg (not_le.2 hneg), ← sub_eq_add_neg] at hafter
    | @recorded bm hfresh hbm _ hzero =>
      have hcover : 0 ≤ roundDp delta precShow ∨
          |roundDp delta precShow| ≤ c.balanceManager.get u .available req.asset :=
        applyChange_covers hbm
      rw [show (Controller.updateParams req u price (roundDp delta precShow) detail').userId =
        u from rfl]
      exact (total_of_change hc.gridded hprec hbm).symm ▸
        hin fun hbad => ⟨_, prec, hgets hfresh, .inr ⟨hcover, .inr ⟨hzero, hbad⟩⟩⟩

/-- A deposit of alice with a detail. -/
def depositWith (detail : String) : BalanceUpdateRequest :=
  { asset := "ETH", business := "deposit", businessId := 1, delta := "2", detail }

/-- The release build, with a JSON text that is a number. -/
def numberEnv : Env :=
  { releaseEnv with
    jsonFromStr := fun s => if s = "7" then some (.number 7) else releaseEnv.jsonFromStr s }

/-- Alice has 4·10²⁸ frozen and 2·10²⁸ available. -/
def sampleHoard : List Request :=
  [requestAt 0 alice (depositOf "ETH" 1 "60000000000000000000000000000"),
    requestAt 1 alice (.orderPut (limitOrder .ask "40000000000000000000000000000" "1"))]

end Dingir
