import Dingir.Proof.Execution
import Dingir.Proof.Rounds

/-!
# A trade is no duplicate

The four legs of a settlement go through the filter that turns away repeated
deposits. Their keys carry the id of the trade, which no key in the filter has
(`Reachable.filtered`), so a leg can only be taken for another leg of its own trade.

* **`Reachable.noDuplicate_iff`**: the legs of a trade differ and are new exactly when the
  maker belongs to another user.
* **`Reachable.not_noDuplicate`**: with self trades enabled, an order of bob that meets his own
  ask stops the engine halfway through the settlement.
-/

namespace Dingir

open Keyed Outcome Market

variable {E : Env} {settings : Settings} {now : Timestamp} {u : Uuid} {ql amount : Decimal}
  {rc : OrderRc} {s : MatchState} {m : Market} {x y : Ctx} {t : Trade} {takerIsAsk : Bool}
  {input : OrderInput} {c : Controller}

/-- The balance update of a leg. -/
def legParams (m : Market) (tradeId : ℕ) (leg : BalanceMapKey × Decimal) : BalanceUpdateParams :=
  { balanceType := leg.1.balanceType, businessType := .trade, userId := leg.1.userId,
    businessId := tradeId,
    asset := leg.1.asset, business := "trade", marketPrice := m.price, change := leg.2,
    detail := .null }

/-- The legs of a settlement, one after the other. -/
def settleLegs (E : Env) (now : Timestamp) (m : Market) (tradeId : ℕ)
    (legs : List (BalanceMapKey × Decimal)) (x : Ctx) : Except Panic Ctx :=
  legs.foldlM (fun y leg =>
    settleOne E now y m tradeId leg.1.balanceType leg.1.userId leg.1.asset leg.2) x

/-- The keys of the legs. -/
def Trade.keys (t : Trade) (m : Market) (takerIsAsk : Bool) : List BalanceUpdateKey :=
  (t.postings m takerIsAsk).map fun leg => (legParams m t.id leg).key

/-- **No leg of the trade is taken for a duplicate** when it is settled from `x`. -/
structure NoDuplicate (E : Env) (now : Timestamp) (m : Market) (takerIsAsk : Bool) (t : Trade)
    (x : Ctx) : Prop where
  distinct : (t.keys m takerIsAsk).Nodup
  fresh : ∀ k ∈ t.keys m takerIsAsk, x.updateController.cache.containsKey now k = false
  passes : ∀ legs leg rest y, t.postings m takerIsAsk = legs ++ leg :: rest →
    settleLegs E now m t.id legs x = .ok y →
    y.updateController.cache.containsKey now (legParams m t.id leg).key = false

/-- The context a round settles its trade from: the id of the trade is drawn. -/
def Market.MatchState.settleCtx (s : MatchState) : Ctx :=
  { s.ctx with sequencer := s.ctx.sequencer.nextTradeId.2 }

/-- Every trade an order generates is no duplicate if and only if its maker belongs to another
user. -/
def DuplicateIff (E : Env) (now : Timestamp) (u : Uuid) (m : Market) (x : Ctx)
    (input : OrderInput) : Prop :=
  m.base ≠ m.quote → ∀ ql rc s amount, Comes E now u m x input ql rc s → Generates s ql rc amount →
    (NoDuplicate E now s.market s.taker.isAsk
      (roundTrade now s rc s.ctx.sequencer.nextTradeId.1 amount) s.settleCtx ↔
      (s.market.rcs.read rc).user ≠ u)

/-! ## The keys -/

theorem settle_legs (x : Ctx) (m : Market) (takerIsAsk : Bool) (t : Trade) :
    settle E now x m takerIsAsk t = settleLegs E now m t.id (t.postings m takerIsAsk) x :=
  settle_eq x m takerIsAsk t

/-- In two assets, the keys differ exactly when the users do. -/
theorem keys_nodup (ha : m.base ≠ m.quote) :
    (t.keys m takerIsAsk).Nodup ↔ t.askUserId ≠ t.bidUserId := by
  constructor
  · rintro hnodup hu
    cases takerIsAsk <;>
      simp [Trade.keys, Trade.postings, legParams, BalanceUpdateParams.key, hu] at hnodup
  · intro hu
    simp [Trade.keys, Trade.postings, legParams, BalanceUpdateParams.key, hu, hu.symm, ha]

/-- The filter after some legs holds what it held before and their keys. -/
theorem settleLegs_cache {tradeId : ℕ} {legs : List (BalanceMapKey × Decimal)}
    (h : settleLegs E now m tradeId legs x = .ok y) :
    ∀ a ∈ y.updateController.cache.entries,
      a ∈ x.updateController.cache.entries ∨
        a.1 ∈ legs.map fun leg => (legParams m tradeId leg).key := by
  unfold settleLegs at h
  induction legs generalizing x with
  | nil =>
    rw [List.foldlM_nil, pure_ok] at h
    subst h
    exact fun a ha => .inl ha
  | cons leg legs ih =>
    rw [List.foldlM_cons, bind_ok] at h
    obtain ⟨z, hz, h⟩ := h
    obtain ⟨-, hcache⟩ := settleOne_cache hz
    have hins : TtlCache.Inserted (· = (legParams m tradeId leg).key) x.updateController.cache 1
        z.updateController.cache := by
      rw [hcache]
      exact .insert .refl rfl
    intro a ha
    rw [List.map_cons]
    rcases ih h a ha with hold | hnew
    · rcases hins.mem hold with hold | hkey
      · exact .inl hold
      · exact .inr (hkey ▸ List.mem_cons_self)
    · exact .inr (List.mem_cons_of_mem _ hnew)

/-- A trade with a new id is no duplicate exactly between two users. -/
theorem noDuplicate_iff_users (ha : m.base ≠ m.quote)
    (hfree : ∀ a ∈ x.updateController.cache.entries, ¬TradeKeys t.id a.1) :
    NoDuplicate E now m takerIsAsk t x ↔ t.askUserId ≠ t.bidUserId := by
  constructor
  · exact fun h => (keys_nodup ha).1 h.distinct
  · intro hu
    have hnodup : (t.keys m takerIsAsk).Nodup := (keys_nodup ha).2 hu
    have hkeys : ∀ k ∈ t.keys m takerIsAsk, TradeKeys t.id k := by
      intro k hk
      obtain ⟨leg, -, rfl⟩ := List.mem_map.1 hk
      exact ⟨rfl, rfl⟩
    refine ⟨hnodup, fun k hk => TtlCache.containsKey_eq_false fun a hmem heq =>
      hfree a hmem (heq ▸ hkeys k hk), ?_⟩
    intro legs leg rest y hlegs hsettle
    refine TtlCache.containsKey_eq_false fun a hmem heq => ?_
    have hsplit : t.keys m takerIsAsk = (legs.map fun leg => (legParams m t.id leg).key) ++
        (legParams m t.id leg).key :: rest.map fun leg => (legParams m t.id leg).key := by
      unfold Trade.keys
      rw [hlegs, List.map_append, List.map_cons]
    rcases settleLegs_cache hsettle a hmem with hold | hnew
    · exact hfree a hold (heq ▸ ⟨rfl, rfl⟩)
    · -- the key of a leg before
      rw [hsplit] at hnodup
      exact (List.nodup_append.1 hnodup).2.2 _ hnew _ List.mem_cons_self heq

/-! ## Every trade -/

theorem roundTrade_users {tradeId : ℕ} :
    (roundTrade now s rc tradeId amount).askUserId ≠
      (roundTrade now s rc tradeId amount).bidUserId ↔
    (s.market.rcs.read rc).user ≠ s.taker.user := not_congr sides_user

theorem putOrder_duplicate (hd : DeskOK ⟨m, x, none⟩) (hf : Filtered (fun _ => True) x) :
    DuplicateIff E now u m x input := by
  intro ha ql rc s amount hround hg
  obtain ⟨done, rest, ts, hrounds, -⟩ := hround.rounds hd carried_true
  have hterms := hrounds.tried.terms
  have hfiltered : Filtered (fun _ => True) s.ctx :=
    Steps.filtered hrounds.loop.works.steps ⟨hf.trade, hf.other⟩
  have hfree : ∀ a ∈ s.settleCtx.updateController.cache.entries,
      ¬TradeKeys (roundTrade now s rc s.ctx.sequencer.nextTradeId.1 amount).id a.1 := by
    rintro a hmem ⟨htype, hid⟩
    have hle := hfiltered.trade a hmem htype
    rw [hid] at hle
    exact absurd hle (Nat.not_succ_le_self _)
  have huser : s.taker.user = u := by rw [hrounds.order]; rfl
  rw [noDuplicate_iff_users (by rw [hterms.base, hterms.quote]; exact ha) hfree, roundTrade_users,
    huser]

/-- **A trade is no duplicate exactly when its maker belongs to another user.** So it is of every
trade that is generated while self trades are disabled. -/
theorem Reachable.noDuplicate_iff (h : Reachable E settings c) (q : Request) :
    c.EachPut E (DuplicateIff E q.now q.user) q := by
  obtain ⟨b, -, hc⟩ := h.ok
  refine eachPut_of (P := fun c => Filtered (fun _ => True) (c.ctx true)) hc h.filtered
    (fun c c' _ hf hmoves => hmoves.filtered hf) fun c' name m input hc' hf hm => ?_
  exact putOrder_duplicate ((hc'.desk name m hm).2 q.real) ⟨hf.trade, hf.other⟩

/-! ## Two first rounds -/

/-- A trade of alice with bob is settled under four new keys. -/
theorem Reachable.noDuplicate_iff_alice :
    ∃ (c : Controller) (m : Market) (s : MatchState) (rc : OrderRc) (amount : Decimal),
    Reachable releaseEnv sampleSettings c ∧ c.markets.find? "ETH_USDT" = some m ∧ amount = 1 ∧
    NoDuplicate releaseEnv 2 s.market s.taker.isAsk
      (roundTrade 2 s rc s.ctx.sequencer.nextTradeId.1 amount) s.settleCtx := by
  have h : (sampleRun releaseEnv sampleOneAsk >>=
      fun c => unwrap .marketName (c.markets.find? "ETH_USDT") >>= fun m =>
      unwrap .replay (OrderInput.tryFrom releaseEnv (limitOrder .bid "1" "100")).toOption >>=
        fun input =>
      m.quoteLimit (c.ctx true).balanceManager input alice >>= fun ql =>
      unwrap .lookup (m.counterOrders (m.putTaker 2 (c.ctx true) input alice)).head? >>= fun rc =>
      pure (decide (m.checkInput releaseEnv (c.ctx true).balanceManager input alice = .ok () ∧
        m.base ≠ m.quote ∧
        m.FirstTrade 2 (c.ctx true) input alice ql rc 1 ∧ (m.rcs.read rc).user = bob))) =
      (.ok true : Except Panic Bool) := by decide +kernel
  simp only [bind_ok, pure_ok, unwrap_ok, toOption_some, decide_eq_true_eq] at h
  obtain ⟨c, hc, m, hm, input, hinput, ql, hql, rc, -, hcheck, hassets, hfirst, huser⟩ := h
  obtain ⟨hround, hg⟩ := hfirst.round hcheck hql
  have hreach := sampleRun_reachable hc
  have hall := hreach.noDuplicate_iff (requestAt 2 alice (.orderPut (limitOrder .bid "1" "100")))
  have hiff := hall m input hm hinput hcheck hassets ql rc _ 1 hround hg
  have hbob : ((m.putState 2 (c.ctx true) input alice).market.rcs.read rc).user ≠ alice := by
    rw [show (m.putState 2 (c.ctx true) input alice).market.rcs.read rc = m.rcs.read rc from rfl,
      huser]
    decide
  exact ⟨c, m, _, rc, 1, hreach, hm, rfl, hiff.2 hbob⟩

/-- The settings with self trades enabled. -/
def selfTradeSettings : Settings := { sampleSettings with disableSelfTrade := false }

/-- **Bob meets his own ask**: two legs of the trade have the same key, and the settlement
panics. -/
theorem Reachable.not_noDuplicate :
    ∃ (c : Controller) (m : Market) (input : OrderInput) (ql : Decimal) (s : MatchState)
    (rc : OrderRc) (amount : Decimal), Reachable releaseEnv selfTradeSettings c ∧
    c.markets.find? "ETH_USDT" = some m ∧
    m.base ≠ m.quote ∧ Comes releaseEnv 2 bob m (c.ctx true) input ql rc s ∧
    Generates s ql rc amount ∧
    ¬NoDuplicate releaseEnv 2 s.market s.taker.isAsk
      (roundTrade 2 s rc s.ctx.sequencer.nextTradeId.1 amount) s.settleCtx ∧
    c.call releaseEnv (requestAt 2 bob (.orderPut (limitOrder .bid "1" "100"))) =
      .error .settlement := by
  have h : (createController selfTradeSettings >>= fun c₀ => c₀.calls releaseEnv sampleOneAsk >>=
      fun r =>
      let c := r.2
      unwrap .marketName (c.markets.find? "ETH_USDT") >>= fun m =>
      unwrap .replay (OrderInput.tryFrom releaseEnv (limitOrder .bid "1" "100")).toOption >>=
        fun input =>
      m.quoteLimit (c.ctx true).balanceManager input bob >>= fun ql =>
      unwrap .lookup (m.counterOrders (m.putTaker 2 (c.ctx true) input bob)).head? >>= fun rc =>
      pure (decide (m.checkInput releaseEnv (c.ctx true).balanceManager input bob = .ok () ∧
        m.base ≠ m.quote ∧
        m.FirstTrade 2 (c.ctx true) input bob ql rc 1 ∧ (m.rcs.read rc).user = bob),
        match c.call releaseEnv (requestAt 2 bob (.orderPut (limitOrder .bid "1" "100"))) with
          | .error e => decide (e = .settlement)
          | .ok _ => false)) =
      (.ok (true, true) : Except Panic (Bool × Bool)) := by decide +kernel
  simp only [bind_ok, pure_ok, unwrap_ok, Prod.mk.injEq, decide_eq_true_eq] at h
  obtain ⟨c₀, hc₀, ⟨replies, c⟩, hcalls, m, hm, input, hinput, ql, hql, rc, -,
      ⟨hcheck, hassets, hfirst, huser⟩, hpanic⟩ := h
  obtain ⟨hround, hg⟩ := hfirst.round hcheck hql
  refine ⟨c, m, input, ql, _, rc, 1, (Reachable.init hc₀).calls hcalls, hm, hassets, hround, hg,
    fun hno => ?_, ?_⟩
  · exact roundTrade_users.1 ((keys_nodup hassets).1 hno.distinct) huser
  · split at hpanic
    · rename_i e he
      rw [he, of_decide_eq_true hpanic]
    · cases hpanic

end Dingir
