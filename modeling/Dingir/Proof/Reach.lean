import Dingir.Proof.Moves

/-!
# Every reachable controller is well formed

A fresh controller is (`createController_ok`), calls keep it (`call_ok`), and so
do a reset (`resetState_ok`) and a restart (`restart_ok`). **`Reachable.ok`**.

A restart from a faithful slice gives back the state it was dumped from: the
same balances (`loadBalances`) and the same resting orders (`loadOrders`), each
frozen again for the same amount.
-/

namespace Dingir

open Keyed Rounding Posting Outcome Market Paging

variable {E : Env} {settings : Settings} {c c' b b' : Controller}

/-! ## Creation -/

/-- What `Market::new` makes. -/
structure Market.Created (m : Market) (conf : MarketConf) (settings : Settings)
    (am : AssetManager) : Prop where
  name : m.name = conf.name
  base : m.base = conf.base
  quote : m.quote = conf.quote
  amountPrec : m.amountPrec = conf.amountPrec
  pricePrec : m.pricePrec = conf.pricePrec
  feePrec : m.feePrec = conf.feePrec
  minAmount : m.minAmount = conf.minAmount
  disableSelfTrade : m.disableSelfTrade = settings.disableSelfTrade
  disableMarketOrder : m.disableMarketOrder = settings.disableMarketOrder
  prec : m.PrecOK am
  noOrders : m.NoOrders
  rcs : m.rcs = Heap.empty default
  price : m.price = 0
  tradeCount : m.tradeCount = 0

theorem Market.new_ok {conf : MarketConf} {bm : BalanceManager} {m : Market}
    (h : Market.new conf settings bm = .ok (.ok m)) : m.Created conf settings bm.assetManager := by
  unfold Market.new at h
  split at h
  · simp [pure, Except.pure] at h
  simp only [bind_ok] at h
  obtain ⟨basePrec, hbase, quotePrec, hquote, h⟩ := h
  split at h
  · simp [pure, Except.pure] at h
  rename_i hprec
  rw [pure_ok, Except.ok.injEq] at h
  subst h
  simp only [Bool.or_eq_true, decide_eq_true_eq, not_or, not_lt] at hprec
  exact ⟨rfl, rfl, rfl, rfl, rfl, rfl, rfl, rfl, rfl, ⟨hbase, hquote, hprec.1, hprec.2⟩,
    ⟨rfl, rfl, rfl, rfl⟩, rfl, rfl, rfl⟩

/-- A controller without orders and balances. -/
structure Controller.Blank (c : Controller) : Prop where
  balances : ∀ k, c.balanceManager.getByKey k = 0
  markets : ∀ name m, c.markets.find? name = some m → m.NoOrders

theorem Market.NoOrders.resting {m : Market} (h : m.NoOrders) (id : ℕ) : m.resting id = none := by
  unfold Market.resting
  rw [h.orders]; simp

theorem NoOrders.deskOK {m : Market} {x : Ctx} (h : m.NoOrders)
    (hp : m.PrecOK x.balanceManager.assetManager) (hg : Gridded x.balanceManager)
    (hc : 4 ≤ x.updateController.cache.capacity) : DeskOK ⟨m, x, none⟩ := by
  have hnone : ∀ {P : Prop} {id o}, m.resting id = some o → P :=
    fun ho => by rw [h.resting] at ho; simp at ho
  exact ⟨h.indexOK, hp, hg, hc, fun _ _ => hnone, fun _ _ => hnone, fun _ _ _ _ ho => hnone ho,
    fun _ _ _ => hnone,
    fun _ hk => by simp at hk⟩

/-- What a new controller has besides its assets and markets. -/
structure Controller.Begun (c : Controller) : Prop where
  log : c.logHandler = []
  persistor : c.persistor = []
  sequencer : c.sequencer = ⟨0, 0, 0, 0⟩
  balances : c.balanceManager.balances = ∅
  filter : c.updateController = BalanceUpdateController.new

theorem createController_begun (h : createController settings = .ok c) : c.Begun := by
  simp only [createController, bind_ok, pure_ok] at h
  obtain ⟨bm, hbm, _, -, rfl⟩ := h
  simp only [BalanceManager.new, bind_ok, pure_ok] at hbm
  obtain ⟨am, -, rfl⟩ := hbm
  exact ⟨rfl, rfl, rfl, rfl, rfl⟩

/-- **A fresh controller is well formed and blank**, and its markets are those of the settings. -/
theorem createController_ok (h : createController settings = .ok c) :
    ControllerOK c c ∧ c.Blank ∧ ∀ name m, c.markets.find? name = some m →
      ∃ conf ∈ settings.markets, m.Created conf settings c.balanceManager.assetManager := by
  unfold createController at h
  simp only [bind_ok, pure_ok] at h
  obtain ⟨bm, hbm, ⟨markets, names⟩, hloop, rfl⟩ := h
  obtain ⟨am, -, rfl⟩ : ∃ am, AssetManager.new settings.assets = .ok am ∧ ⟨am, ∅⟩ = bm := by
    simpa only [BalanceManager.new, bind_ok, pure_ok] using hbm
  let P (s : HashMap String Market × HashMap (String × String) String) : Prop :=
    ∀ name m, s.1.find? name = some m → ∃ conf ∈ settings.markets, m.Created conf settings am ∧
      conf.name = name
  have hmarkets : P (markets, names) := by
    refine foldlM_rule (P := fun l s => (∀ conf ∈ l, conf ∈ settings.markets) ∧ P s) ?_ _ _ _
      ⟨fun _ => id, fun name m hm => by simp [find?_empty] at hm⟩ hloop |>.2
    rintro entry l s s' ⟨hl, hP⟩ hstep
    refine ⟨fun conf hconf => hl conf (List.mem_cons_of_mem _ hconf), fun name m hm => ?_⟩
    unfold createMarket at hstep
    obtain ⟨r, hr, hstep⟩ := bind_ok.1 hstep
    cases r with
    | error e => exact absurd hstep throw_ok
    | ok market =>
      simp only [pure_ok] at hstep
      subst hstep
      rw [find?_insert] at hm
      split at hm
      · subst_vars
        obtain rfl := Option.some.inj hm
        exact ⟨entry, hl entry (by simp), Market.new_ok hr, rfl⟩
      · exact hP name m hm
  refine ⟨⟨rfl, rfl, rfl, gridded_empty am, rfl, fun name m hm => ?_, fun name m hm => ?_,
    fun name m hm => ?_,
    fun n n' m m' id o o' hm _ ho _ => ?_, fun n m id o hm ho => ?_⟩, ⟨fun _ => rfl,
    fun name m hm => ?_⟩,
    fun name m hm => ?_⟩
  · obtain ⟨conf, -, hcr, rfl⟩ := hmarkets name m hm
    exact ⟨hcr.name, fun real => NoOrders.deskOK hcr.noOrders hcr.prec (gridded_empty am)
      (show 4 ≤ 1000000 by decide)⟩
  · exact ⟨m, hm, SameTerms.refl m⟩
  · rw [show HashMap.find? _ name = some m from hm]; rfl
  iterate 2
    obtain ⟨conf, -, hcr, -⟩ := hmarkets n m hm
    rw [hcr.noOrders.resting] at ho; simp at ho
  · obtain ⟨conf, -, hcr, -⟩ := hmarkets name m hm
    exact hcr.noOrders
  · obtain ⟨conf, hconf, hcr, -⟩ := hmarkets name m hm
    exact ⟨conf, hconf, hcr⟩

/-! ## Reset -/

/-- **A reset controller is well formed and blank.** -/
theorem resetState_ok (hc : ControllerOK b c) :
    ControllerOK b c.resetState ∧ c.resetState.Blank := by
  have hfind : ∀ name m, c.resetState.markets.find? name = some m →
      ∃ m', c.markets.find? name = some m' ∧ m = m'.reset := by
    intro name m hm
    rw [show c.resetState.markets = mapValues Market.reset c.markets from rfl,
      find?_mapValues] at hm
    obtain ⟨m', hm', rfl⟩ := Option.map_eq_some_iff.1 hm
    exact ⟨m', hm', rfl⟩
  have hgrid : Gridded c.resetState.balanceManager := gridded_empty _
  refine ⟨⟨hc.settings, hc.names, hc.assets, hgrid, hc.capacity, fun name m hm => ?_,
    fun name m hm => ?_,
    fun name m₀ h₀ => ?_, fun n n' m m' id o o' hm _ ho _ => ?_, fun n m id o hm ho => ?_⟩,
    fun _ => rfl,
    fun name m hm => ?_⟩
  · obtain ⟨m', hm', rfl⟩ := hfind name m hm
    obtain ⟨hname, hdesk⟩ := hc.desk name m' hm'
    have hp := (hdesk true).prec
    exact ⟨hname, fun real =>
      NoOrders.deskOK m'.reset_noOrders ⟨hp.base, hp.quote, hp.amount_le, hp.sum_le⟩ hgrid
      (show 4 ≤ c.updateController.cache.capacity by rw [hc.capacity]; decide)⟩
  · obtain ⟨m', hm', rfl⟩ := hfind name m hm
    obtain ⟨m₀, h₀, ht⟩ := hc.terms name m' hm'
    exact ⟨m₀, h₀, ht.name, ht.base, ht.quote, ht.amountPrec, ht.pricePrec, ht.basePrec,
      ht.quotePrec, ht.feePrec,
      ht.minAmount, ht.disableSelfTrade, ht.disableMarketOrder⟩
  · rw [show c.resetState.markets = mapValues Market.reset c.markets from rfl, find?_mapValues,
      Option.isSome_map]
    exact hc.kept name m₀ h₀
  iterate 2
    obtain ⟨m', -, rfl⟩ := hfind n m hm
    rw [m'.reset_noOrders.resting] at ho; simp at ho
  · obtain ⟨m', -, rfl⟩ := hfind name m hm
    exact m'.reset_noOrders

/-! ## Loading the balances -/

def BalanceSlice.key (row : BalanceSlice) : BalanceMapKey := ⟨row.userId, row.t, row.asset⟩

theorem loadBalances {rows : List BalanceSlice} {bm bm' : BalanceManager}
    (hnodup : (rows.map BalanceSlice.key).Nodup)
    (hgrid : ∀ row ∈ rows, ∀ p, bm.assetManager.assetPrec row.asset = .ok p → OnGrid p row.balance)
    (h : rows.foldlM (loadBalance E) bm = .ok bm') :
    bm'.assetManager = bm.assetManager ∧ (Gridded bm → Gridded bm') ∧
      (∀ row ∈ rows, bm'.getByKey row.key = row.balance) ∧
      ∀ k, k ∉ rows.map BalanceSlice.key → bm'.getByKey k = bm.getByKey k := by
  induction rows generalizing bm with
  | nil =>
    rw [List.foldlM_nil, pure_ok] at h
    subst h
    exact ⟨rfl, id, by simp, fun _ _ => rfl⟩
  | cons row rows ih =>
    rw [List.foldlM_cons, bind_ok] at h
    obtain ⟨bm₁, hset, h⟩ := h
    rw [List.map_cons, List.nodup_cons] at hnodup
    obtain ⟨p, hp, hbm₁⟩ := BalanceManager.setByKey_ok (k := row.key) hset
    have hassets : bm₁.assetManager = bm.assetManager := by rw [hbm₁]
    obtain ⟨ha, hg, hrows, hothers⟩ := ih hnodup.2
      (fun r hr p hp => hgrid r (List.mem_cons_of_mem _ hr) p (hassets ▸ hp)) h
    have hbal : ∀ k, bm₁.getByKey k = if k = row.key then row.balance else bm.getByKey k := by
      intro k
      rw [hbm₁, BalanceManager.getByKey_insert, (hgrid row (by simp) p hp).roundDp_eq]
    refine ⟨ha.trans hassets, fun hgm => hg (BalanceManager.setByKey_gridded hgm hset),
      fun r hr => ?_, fun k hk => ?_⟩
    · rcases List.mem_cons.1 hr with rfl | hr
      · rw [hothers _ hnodup.1, hbal, if_pos rfl]
      · exact hrows r hr
    · rw [List.map_cons, List.mem_cons, not_or] at hk
      rw [hothers k hk.2, hbal, if_neg hk.1]

/-- A dump of the balances is the map of the balances, entry by entry. -/
theorem dumpBalance_entries (bm : BalanceManager) :
    ((dumpBalance bm).map fun row =>
      (⟨row.key, row.balance⟩ : Sigma fun _ : BalanceMapKey => Decimal)) = bm.balances.entries := by
  unfold dumpBalance
  rw [List.map_map]
  exact List.zipIdx_map_fst 0 bm.balances.entries

theorem dumpBalance_ids (bm : BalanceManager) :
    ((dumpBalance bm).map BalanceSlice.id).Nodup ∧ ∀ row ∈ dumpBalance bm, 0 < row.id := by
  constructor
  · unfold dumpBalance
    rw [List.map_map]
    have : (BalanceSlice.id ∘ fun e : (Sigma fun _ : BalanceMapKey => Decimal) × ℕ =>
        ({ id := e.2 + 1, userId := e.1.1.userId, asset := e.1.1.asset, t := e.1.1.balanceType,
           balance := e.1.2 } : BalanceSlice)) = (· + 1) ∘ Prod.snd := rfl
    rw [this, ← List.map_map, List.zipIdx_map_snd]
    exact (List.nodup_range').map (fun a b hab => Nat.succ_injective hab)
  · intro row hrow
    obtain ⟨e, -, rfl⟩ := List.mem_map.1 hrow
    exact Nat.succ_pos _

/-- The balances are read back as they were dumped. -/
theorem loadBalances_dump {bm b b' : BalanceManager} (hbm : Gridded bm)
    (hb : b.assetManager = bm.assetManager) (hzero : ∀ k, b.getByKey k = 0)
    (h : (pages BalanceSlice.id QUERY_LIMIT false (dumpBalance bm) 0).flatten.foldlM (loadBalance E)
      b = .ok b') :
    b'.assetManager = bm.assetManager ∧ (Gridded b → Gridded b') ∧
      ∀ k, b'.getByKey k = bm.getByKey k := by
  obtain ⟨hids, hpos⟩ := dumpBalance_ids bm
  rw [flatten_pages _ (by decide) _ hids] at h
  have hperm := above_perm BalanceSlice.id hpos
  have hentries := dumpBalance_entries bm
  have hkeys : (dumpBalance bm).map BalanceSlice.key = bm.balances.entries.map Sigma.fst := by
    rw [← hentries, List.map_map]; rfl
  have hmem : ∀ row, row ∈ dumpBalance bm → bm.balances.find? row.key = some row.balance :=
    fun row hrow =>
    mem_entries_iff.1 (hentries ▸ List.mem_map.2 ⟨row, hrow, rfl⟩)
  have hbal : ∀ row, row ∈ dumpBalance bm → bm.getByKey row.key = row.balance := by
    intro row hrow
    unfold BalanceManager.getByKey
    rw [hmem row hrow]; rfl
  obtain ⟨ha, hg, hrows, hothers⟩ := loadBalances
    ((hperm.map BalanceSlice.key).nodup_iff.2 (hkeys ▸ bm.balances.nodupKeys))
    (fun row hrow p hp => by
      rw [← hbal row (hperm.mem_iff.1 hrow)]
      exact hbm row.key p (hb ▸ hp)) h
  refine ⟨ha.trans hb, hg, fun k => ?_⟩
  cases hk : bm.balances.find? k with
  | some v =>
    obtain ⟨row, hrow, he⟩ := List.mem_map.1 (hentries ▸ mem_entries_iff.2 hk)
    obtain ⟨rfl, -⟩ := Sigma.mk.inj_iff.1 he
    rw [hrows row (hperm.mem_iff.2 hrow), hbal row hrow]
  | none =>
    rw [hothers k ?_, hzero, BalanceManager.getByKey, hk]
    · rfl
    · intro hc
      obtain ⟨row, hrow, rfl⟩ := List.mem_map.1 hc
      rw [hmem row (hperm.mem_iff.1 hrow)] at hk
      simp at hk

/-! ## Loading the orders -/

theorem OrderSlice.toOrder_of_terms {m m' : Market} (h : m.SameTerms m') (row : OrderSlice) :
    row.toOrder m' = row.toOrder m := by
  unfold OrderSlice.toOrder
  rw [h.name, h.base, h.quote]

/-- The market `m` holds exactly the orders of `rows` that name it, at rest. -/
def Market.Holds (m : Market) (name : String) (rows : List OrderSlice) : Prop :=
  ∀ id o, m.resting id = some o ↔ ∃ row ∈ rows, row.market = name ∧ row.id = id ∧
    o = (row.toOrder m).rested

/-- Markets loaded from `rows`, starting without orders from `blank`. -/
def Loaded (blank markets : HashMap String Market) (rows : List OrderSlice) : Prop :=
  ∀ name, (∀ m, markets.find? name = some m → ∃ m₀, blank.find? name = some m₀ ∧ m₀.SameTerms m ∧
    m.IndexOK ∧
    m.Holds name rows) ∧ ((blank.find? name).isSome → (markets.find? name).isSome)

theorem Loaded.start {blank : HashMap String Market}
    (h : ∀ name m, blank.find? name = some m → m.NoOrders) : Loaded blank blank [] := by
  refine fun name => ⟨fun m hm => ?_, id⟩
  have hn := h name m hm
  exact ⟨m, hm, SameTerms.refl m, hn.indexOK, fun id o => by simp [hn.resting]⟩

/-- The order of the rows does not matter. -/
theorem Loaded.perm {blank markets : HashMap String Market} {rows rows' : List OrderSlice}
    (hl : Loaded blank markets rows) (h : rows.Perm rows') : Loaded blank markets rows' := by
  refine fun name => ⟨fun m hm => ?_, (hl name).2⟩
  obtain ⟨m₀, h₀, hterms, hindex, hholds⟩ := (hl name).1 m hm
  exact ⟨m₀, h₀, hterms, hindex, fun id o => by simpa only [h.mem_iff] using hholds id o⟩

/-- A row with a new id finds no order in the way. -/
theorem Loaded.fresh {blank markets : HashMap String Market} {rows : List OrderSlice}
    {row : OrderSlice} {m : Market} (hl : Loaded blank markets rows)
    (hnew : row.id ∉ rows.map OrderSlice.id)
    (hm : markets.find? row.market = some m) : m.resting row.id = none := by
  obtain ⟨-, -, -, -, hholds⟩ := (hl row.market).1 m hm
  cases hr : m.resting row.id with
  | none => rfl
  | some o =>
    obtain ⟨r, hr, -, hid, -⟩ := (hholds row.id o).1 hr
    exact absurd (List.mem_map.2 ⟨r, hr, hid⟩) hnew

/-- One row more. -/
theorem Loaded.step {blank markets markets' : HashMap String Market} {rows : List OrderSlice}
    {row : OrderSlice} (hl : Loaded blank markets rows) (hnew : row.id ∉ rows.map OrderSlice.id)
    (h : loadOrder E markets row = .ok markets') : Loaded blank markets' (rows ++ [row]) := by
  simp only [loadOrder, bind_ok, pure_ok, unwrap_ok] at h
  obtain ⟨m, hm, ⟨o, m'⟩, hinsert, rfl⟩ := h
  obtain ⟨rfl, rfl⟩ := insertOrder_ok hinsert
  obtain ⟨m₀, h₀, hterms, hindex, hholds⟩ := (hl row.market).1 m hm
  have hnone := hl.fresh hnew hm
  have hfree : m.orders[(row.toOrder m).rested.id]? = none := by
    cases hr : m.orders[(row.toOrder m).rested.id]? with
    | none => rfl
    | some rc =>
      have := resting_some.2 ⟨rc, hr, rfl⟩
      rw [show (row.toOrder m).rested.id = row.id from rfl, hnone] at this
      simp at this
  intro name
  refine ⟨fun m₁ hm₁ => ?_, fun hsome => ?_⟩
  · rw [find?_insert] at hm₁
    split at hm₁
    · subst_vars
      obtain rfl := Option.some.inj hm₁
      have hterms' : m.SameTerms (m.withRest (row.toOrder m).rested) :=
        ⟨rfl, rfl, rfl, rfl, rfl, rfl, rfl, rfl, rfl, rfl, rfl⟩
      refine ⟨m₀, h₀, hterms.trans hterms', hindex.withRest hfree, fun id o => ?_⟩
      rw [resting_withRest hindex]
      simp only [List.mem_append, List.mem_singleton, OrderSlice.toOrder_of_terms hterms']
      split
      · rename_i hid
        rw [Option.some.injEq]
        constructor
        · rintro rfl; exact ⟨row, .inr rfl, rfl, hid, rfl⟩
        · rintro ⟨r, hr | rfl, -, hrid, rfl⟩
          · exact absurd (List.mem_map.2 ⟨r, hr, hrid.trans hid.symm⟩) hnew
          · rfl
      · rename_i hid
        rw [hholds id o]
        constructor
        · rintro ⟨r, hr, h₁, h₂, h₃⟩; exact ⟨r, .inl hr, h₁, h₂, h₃⟩
        · rintro ⟨r, hr | rfl, h₁, h₂, h₃⟩
          · exact ⟨r, hr, h₁, h₂, h₃⟩
          · exact absurd h₂ hid
    · rename_i hne
      obtain ⟨m₀', h₀', ht', hi', hh'⟩ := (hl name).1 m₁ hm₁
      refine ⟨m₀', h₀', ht', hi', fun id o => (hh' id o).trans ⟨?_, ?_⟩⟩
      · rintro ⟨r, hr, h⟩; exact ⟨r, by simp [hr], h⟩
      · rintro ⟨r, hr, hrm, h⟩
        rcases List.mem_append.1 hr with hr | hr
        · exact ⟨r, hr, hrm, h⟩
        · rw [List.mem_singleton] at hr
          subst hr; exact absurd hrm.symm hne
  · rw [find?_insert]
    split
    · rfl
    · exact (hl name).2 hsome

theorem loadOrders {blank markets : HashMap String Market} {rows : List OrderSlice}
    (hblank : ∀ name m, blank.find? name = some m → m.NoOrders)
    (hnodup : (rows.map OrderSlice.id).Nodup) (h : rows.foldlM (loadOrder E) blank = .ok markets) :
    Loaded blank markets rows := by
  let P (rest : List OrderSlice) (markets : HashMap String Market) : Prop :=
    ∃ done, done ++ rest = rows ∧ Loaded blank markets done
  have hend : P [] markets := by
    refine foldlM_rule (P := P) ?_ _ _ _ ⟨[], rfl, Loaded.start hblank⟩ h
    rintro row rest s s' ⟨done, hdone, hl⟩ hstep
    refine ⟨done ++ [row], by simpa using hdone, hl.step ?_ hstep⟩
    rw [← hdone, List.map_append, List.map_cons] at hnodup
    exact fun hc => (List.nodup_append.1 hnodup).2.2 _ hc _ (by simp) rfl
  obtain ⟨done, hdone, hl⟩ := hend
  rw [List.append_nil] at hdone
  exact hdone ▸ hl

/-! ## Restart -/

/-- The rows of a dump are the resting orders. -/
theorem mem_dumpOrders {row : OrderSlice} : row ∈ dumpOrders c ↔
    ∃ name m id o, c.markets.find? name = some m ∧ m.resting id = some o ∧
      row = OrderSlice.fromOrder o := by
  unfold dumpOrders
  simp only [List.mem_flatMap, List.mem_map, mem_values]
  constructor
  · rintro ⟨⟨name, m⟩, he, rc, ⟨id, hid⟩, rfl⟩
    exact ⟨name, m, id, _, mem_entries_iff.1 he, resting_some.2 ⟨rc, hid, rfl⟩, rfl⟩
  · rintro ⟨name, m, id, o, hm, ho, rfl⟩
    obtain ⟨rc, hrc, rfl⟩ := resting_some.1 ho
    exact ⟨⟨name, m⟩, mem_entries_iff.2 hm, rc, ⟨id, hrc⟩, rfl⟩

theorem dumped_ids {m : Market} (h : m.IndexOK) :
    ((values m.orders).map fun rc => OrderSlice.fromOrder (m.rcs.read rc)).map OrderSlice.id =
      m.orders.toList.map Prod.fst := by
  unfold values
  rw [List.map_map, List.map_map]
  apply List.map_congr_left
  rintro ⟨id, rc⟩ he
  exact h.ownId id rc (Std.TreeMap.mem_toList_iff_getElem?_eq_some.1 he)

/-- The ids of a dump differ, also across markets. -/
theorem dumpOrders_nodup (hc : ControllerOK b c) : ((dumpOrders c).map OrderSlice.id).Nodup := by
  unfold dumpOrders
  rw [List.map_flatMap, List.nodup_flatMap]
  have hindex : ∀ e ∈ c.markets.entries, e.2.IndexOK := fun e he =>
    ((hc.desk e.1 e.2 (mem_entries_iff.1 he)).2 true).index
  constructor
  · intro e he
    rw [dumped_ids (hindex e he)]
    exact nodup_keys _
  · have hkeys : c.markets.entries.Pairwise fun e e' => e.1 ≠ e'.1 := by
      have := c.markets.nodupKeys
      rwa [List.NodupKeys, List.keys, List.nodup_iff_pairwise_ne, List.pairwise_map] at this
    refine hkeys.imp_of_mem fun {e e'} he he' hne => ?_
    rw [Function.onFun, dumped_ids (hindex e he), dumped_ids (hindex e' he'), List.disjoint_left]
    rintro id hid hid'
    obtain ⟨⟨i, rc⟩, hmem, rfl⟩ := List.mem_map.1 hid
    obtain ⟨⟨j, rc'⟩, hmem', hj⟩ := List.mem_map.1 hid'
    rw [Std.TreeMap.mem_toList_iff_getElem?_eq_some] at hmem hmem'
    obtain rfl : j = i := hj
    exact hne (hc.disjoint _ _ e.2 e'.2 j _ _ (mem_entries_iff.1 he) (mem_entries_iff.1 he')
      (resting_some.2 ⟨rc, hmem, rfl⟩) (resting_some.2 ⟨rc', hmem', rfl⟩))

/-- The rows read back are those dumped. -/
theorem ControllerOK.dumped_perm (hc : ControllerOK b c) :
    (pages OrderSlice.id QUERY_LIMIT false c.dump.orders 0).flatten.Perm (dumpOrders c) := by
  rw [show c.dump.orders = dumpOrders c from rfl,
    flatten_pages OrderSlice.id (by decide) false (dumpOrders_nodup hc) 0]
  refine above_perm OrderSlice.id fun row hrow => ?_
  obtain ⟨name, m, id, o, hm, ho, rfl⟩ := mem_dumpOrders.1 hrow
  have hid := ((hc.desk name m hm).2 true).index.resting_id ho
  exact lt_of_lt_of_eq (hc.pos name m id o hm ho) hid.symm

/-- A dumped order is loaded as it was: it freezes again what it froze. -/
theorem Order.Backed.roundTrip {m : Market} {o : Order} (h : o.Backed m) :
    ((OrderSlice.fromOrder o).toOrder m).rested = o := by
  have hf := h.frozen
  obtain ⟨h₁, h₂, h₃, -, -⟩ := h.fits
  cases o
  simp only [OrderSlice.fromOrder, OrderSlice.toOrder, Order.rested, Order.restFrozen] at *
  simp [← h₁, ← h₂, ← h₃]
  exact hf.symm

/-- What a loaded slice gives back. -/
structure SameBooks (c c' : Controller) : Prop where
  balances : ∀ k, c'.balanceManager.getByKey k = c.balanceManager.getByKey k
  markets : ∀ name m, c.markets.find? name = some m → ∃ m', c'.markets.find? name = some m' ∧
    m.SameTerms m' ∧
    m'.IndexOK ∧ ∀ id, m'.resting id = m.resting id
  only : ∀ name m', c'.markets.find? name = some m' → (c.markets.find? name).isSome

/-- **A slice loaded into a blank controller gives back the state it was dumped from.** -/
theorem loadSlice_dump (hc : ControllerOK b c) (hb' : ControllerOK b b') (hblank : b'.Blank)
    {c₁ : Controller} (h : b'.loadSlice E c.dump = .ok c₁) : SameBooks c c₁ ∧ ∃ bm markets,
      c₁ = { b' with balanceManager := bm, markets } ∧
      bm.assetManager = c.balanceManager.assetManager ∧
        Gridded bm := by
  simp only [Controller.loadSlice, bind_ok, pure_ok] at h
  obtain ⟨bm, hbm, markets, hmk, rfl⟩ := h
  obtain ⟨hassets, hgrid, hbal⟩ :=
    loadBalances_dump hc.gridded (hb'.assets.trans hc.assets.symm) hblank.balances hbm
  have hperm := hc.dumped_perm
  have hl := loadOrders hblank.markets ((hperm.map _).nodup_iff.2 (dumpOrders_nodup hc)) hmk
  refine ⟨⟨hbal, fun name m hm => ?_, fun name m' hm' => ?_⟩, bm, markets, rfl, hassets,
    hgrid hb'.gridded⟩
  · obtain ⟨m₀, h₀, ht₀⟩ := hc.terms name m hm
    obtain ⟨m', hm'⟩ := Option.isSome_iff_exists.1 ((hl name).2 (hb'.kept name m₀ h₀))
    obtain ⟨mb, hmb, htb, hindex, hholds⟩ := (hl name).1 m' hm'
    obtain ⟨m₀', h₀', ht₀'⟩ := hb'.terms name mb hmb
    obtain rfl : m₀ = m₀' := Option.some.inj (h₀.symm.trans h₀')
    have hterms : m.SameTerms m' := ht₀.symm.trans (ht₀'.trans htb)
    refine ⟨m', hm', hterms, hindex, fun id => Option.ext fun o => ?_⟩
    obtain ⟨hname, hdesk⟩ := hc.desk name m hm
    have hd := hdesk true
    rw [hholds id o]
    simp only [hperm.mem_iff, mem_dumpOrders, OrderSlice.toOrder_of_terms hterms]
    constructor
    · rintro ⟨_, ⟨n, mn, i, p, hn, hp, rfl⟩, hmarket, hid, rfl⟩
      have hdn := (hc.desk n mn hn).2 true
      have hb := hdn.backed i p hp
      obtain rfl : n = name := by
        rw [← (hc.desk n mn hn).1, ← hb.fits.market]; exact hmarket
      obtain rfl : m = mn := Option.some.inj (hm.symm.trans hn)
      rw [hb.roundTrip, ← hid]
      rw [← hdn.index.resting_id hp] at hp
      exact hp
    · intro ho
      have hb := hd.backed id o ho
      exact ⟨_, ⟨name, m, id, o, hm, ho, rfl⟩, hb.fits.market.trans hname, hd.index.resting_id ho,
        hb.roundTrip.symm⟩
  · obtain ⟨mb, hmb, -⟩ := (hl name).1 m' hm'
    obtain ⟨m₀, h₀, -⟩ := hb'.terms name mb hmb
    exact hc.kept name m₀ h₀

/-- The state after a slice is loaded, its counters set. -/
def Controller.withCounters (c : Controller) (history : SliceHistory) : Controller :=
  { c with sequencer := (c.sequencer.setOrderId history.endOrderId).setTradeId history.endTradeId }

theorem loadSlice_ok (hc : ControllerOK b c) (hb' : ControllerOK b b') (hblank : b'.Blank)
    {c₁ : Controller} (h : b'.loadSlice E c.dump = .ok c₁) :
    ControllerOK b (c₁.withCounters c.dump.history) := by
  obtain ⟨hbooks, bm, markets, rfl, hassets, hgrid⟩ := loadSlice_dump hc hb' hblank h
  have hback : ∀ name m', markets.find? name = some m' → ∃ m, c.markets.find? name = some m ∧
      m.SameTerms m' ∧
      m'.IndexOK ∧ ∀ id, m'.resting id = m.resting id := by
    intro name m' hm'
    obtain ⟨m, hm⟩ := Option.isSome_iff_exists.1 (hbooks.only name m' hm')
    obtain ⟨m'', hm'', hrest⟩ := hbooks.markets name m hm
    obtain rfl : m' = m'' := Option.some.inj (hm'.symm.trans hm'')
    exact ⟨m, hm, hrest⟩
  refine ⟨hb'.settings, hb'.names, hassets.trans hc.assets, hgrid, hb'.capacity,
    fun name m' hm' => ?_,
    fun name m' hm' => ?_, fun name m₀ h₀ => ?_, fun n₁ n₂ m₁ m₂ id o o' h₁ h₂ hr₁ hr₂ => ?_,
    fun name m' id o hm' ho => ?_⟩
  · obtain ⟨m, hm, hterms, hindex, hrest⟩ := hback name m' hm'
    obtain ⟨hname, hdesk⟩ := hc.desk name m hm
    have hd := hdesk true
    have hprec : m'.PrecOK bm.assetManager := by rw [hassets]; exact hd.prec.of_terms hterms
    refine ⟨hterms.name.trans hname, fun real => ⟨hindex, hprec, hgrid,
      (show 4 ≤ b'.updateController.cache.capacity by rw [hb'.capacity]; decide), fun id o ho => ?_,
      fun id o ho => ?_,
      fun id id' p q hp hq => ?_, fun _ id o ho => ?_, fun k hk => by simp at hk⟩⟩
    · exact (hd.backed id o ((hrest id).symm.trans ho)).of_terms hterms
    · exact hd.ids id o ((hrest id).symm.trans ho)
    · exact hd.uncrossed id id' p q ((hrest id).symm.trans hp) ((hrest id').symm.trans hq)
    · exact hd.quiet rfl id o ((hrest id).symm.trans ho)
  · obtain ⟨m, hm, hterms, -⟩ := hback name m' hm'
    obtain ⟨m₀, h₀, ht⟩ := hc.terms name m hm
    exact ⟨m₀, h₀, ht.trans hterms⟩
  · obtain ⟨m, hm⟩ := Option.isSome_iff_exists.1 (hc.kept name m₀ h₀)
    obtain ⟨m', hm', -⟩ := hbooks.markets name m hm
    exact Option.isSome_iff_exists.2 ⟨m', hm'⟩
  · obtain ⟨p₁, hp₁, -, -, hrest₁⟩ := hback n₁ m₁ h₁
    obtain ⟨p₂, hp₂, -, -, hrest₂⟩ := hback n₂ m₂ h₂
    exact hc.disjoint n₁ n₂ p₁ p₂ id o o' hp₁ hp₂ ((hrest₁ id).symm.trans hr₁)
      ((hrest₂ id).symm.trans hr₂)
  · obtain ⟨m, hm, -, -, hrest⟩ := hback name m' hm'
    exact hc.pos name m id o hm ((hrest id).symm.trans ho)

/-- Replaying a log entry is a call. -/
theorem replay_call {now : Timestamp} {log : OperationLog} (h : c.replay E now log = .ok c') :
    ∃ response, c.call E
      { now, available := true, real := false, user := log.userId, operation := log.operation } =
      .ok (.ok response, c') := by
  unfold Controller.replay at h
  simp only [bind_ok] at h
  obtain ⟨⟨r, c₁⟩, hcall, h⟩ := h
  cases r with
  | error st => exact absurd h throw_ok
  | ok response =>
    simp only [pure_ok] at h
    subst h
    exact ⟨response, hcall⟩

/-- What a replayed log does is done by the calls of its entries. -/
theorem loadOperationLog_rows {P : Controller → Prop} {now : Timestamp} {log : List OperationLog}
    {start : ℕ} (hcall : ∀ row ∈ log, ∀ c reply c', P c →
      c.call E
        { now, available := true, real := false, user := row.userId, operation := row.operation } =
        .ok (reply, c') → P c')
    (hset : ∀ c id, P c → P { c with sequencer := c.sequencer.setOperationLogId id })
    (hc : P c) (h : c.loadOperationLog E now log start = .ok c') : P c' := by
  unfold Controller.loadOperationLog at h
  simp only [bind_ok, pure_ok] at h
  obtain ⟨c₁, hloop, rfl⟩ := h
  refine hset c₁ _ (foldlM_rule (P := fun rows c => (∀ row ∈ rows, row ∈ log) ∧
    P c) (fun row rows s s' hs hr => ?_)
    _ _ _ ⟨fun row => mem_of_mem_pages OperationLog.id, hc⟩ hloop).2
  obtain ⟨response, hr⟩ := replay_call hr
  exact ⟨fun r hr => hs.1 r (List.mem_cons_of_mem _ hr),
    hcall row (hs.1 row (by simp)) _ _ _ hs.2 hr⟩

/-- The rule for recovery, whatever the entries are. -/
theorem loadOperationLog_rule {P : Controller → Prop} {now : Timestamp} {log : List OperationLog}
    {start : ℕ} (hcall : ∀ c q reply c', P c → c.call E q = .ok (reply, c') → P c')
    (hset : ∀ c id, P c → P { c with sequencer := c.sequencer.setOperationLogId id })
    (hc : P c) (h : c.loadOperationLog E now log start = .ok c') : P c' :=
  loadOperationLog_rows (fun _ _ c reply c' => hcall c _ reply c') hset hc h

theorem ControllerOK.setOperationLogId (hc : ControllerOK b c) (id : ℕ) :
    ControllerOK b { c with sequencer := c.sequencer.setOperationLogId id } :=
  ⟨hc.settings, hc.names, hc.assets, hc.gridded, hc.capacity, fun name m hm =>
    ⟨(hc.desk name m hm).1,
      fun real => ((hc.desk name m hm).2 real).undisturbed ⟨rfl, hc.gridded, rfl, le_rfl⟩⟩,
    hc.terms, hc.kept, hc.disjoint, hc.pos⟩

/-- **A restart keeps the invariant.** -/
theorem restart_ok {slice : Option Slice} {now : Timestamp} {log : List OperationLog}
    (hc : ControllerOK b c) (hb' : ControllerOK b b') (hblank : b'.Blank)
    (hslice : slice = none ∨ slice = some c.dump)
    (h : b'.initFromDb E now slice log = .ok c') : ControllerOK b c' := by
  have hrule : ∀ {c₀ : Controller} {start : ℕ}, ControllerOK b c₀ →
      c₀.loadOperationLog E now log start = .ok c' →
      ControllerOK b c' := fun h₀ =>
    loadOperationLog_rule (P := ControllerOK b) (fun c q reply c' => call_ok)
      (fun c id hc => hc.setOperationLogId id) h₀
  rcases hslice with rfl | rfl
  · exact hrule hb' h
  · simp only [Controller.initFromDb, bind_ok] at h
    obtain ⟨c₁, hload, h⟩ := h
    exact hrule (loadSlice_ok hc hb' hblank hload) h

/-- What a restart starts from is well formed and blank. -/
theorem Startable.blank {d : Controller} (h : Startable settings d b')
    (hb : createController settings = .ok b) (hd : ControllerOK b d) :
    ControllerOK b b' ∧ b'.Blank := by
  rcases h with hb' | rfl
  · obtain rfl : b = b' := Except.ok.inj (hb.symm.trans hb')
    obtain ⟨hok, hblank, -⟩ := createController_ok hb
    exact ⟨hok, hblank⟩
  · exact resetState_ok hd

/-- Well formed beside one controller is well formed beside another that is. -/
theorem ControllerOK.beside (h : ControllerOK b b')
    (hc : ControllerOK b c) : ControllerOK b' c := by
  refine ⟨hc.settings.trans h.settings.symm, hc.names.trans h.names.symm,
    hc.assets.trans h.assets.symm, hc.gridded,
    hc.capacity, hc.desk, fun name m hm => ?_, fun name m₀ h₀ => ?_, hc.disjoint, hc.pos⟩
  · obtain ⟨m₀, h₀, hterms⟩ := hc.terms name m hm
    obtain ⟨m', hm'⟩ := Option.isSome_iff_exists.1 (h.kept name m₀ h₀)
    obtain ⟨m₁, h₁, hterms'⟩ := h.terms name m' hm'
    obtain rfl : m₀ = m₁ := Option.some.inj (h₀.symm.trans h₁)
    exact ⟨m', hm', hterms'.symm.trans hterms⟩
  · obtain ⟨m, hm, -⟩ := h.terms name m₀ h₀
    exact hc.kept name m hm

/-- A controller in which nothing has happened. -/
structure Controller.Fresh (b : Controller) : Prop where
  ok : ControllerOK b b
  blank : b.Blank
  balances : ∀ k, b.balanceManager.balances.find? k = none
  filter : b.updateController.cache.entries = []
  orderId : b.sequencer.orderId = 0
  tradeId : b.sequencer.tradeId = 0
  operationLogId : b.sequencer.operationLogId = 0

theorem createController_fresh (hb : createController settings = .ok b) : b.Fresh := by
  obtain ⟨hok, hblank, -⟩ := createController_ok hb
  have hbegun := createController_begun hb
  refine ⟨hok, hblank, fun k => ?_, ?_, ?_, ?_, ?_⟩
  · rw [hbegun.balances]
    exact find?_empty k
  · rw [hbegun.filter]
    rfl
  all_goals rw [hbegun.sequencer]

theorem resetState_fresh (hc : ControllerOK b c) : c.resetState.Fresh := by
  obtain ⟨hok, hblank⟩ := resetState_ok hc
  exact ⟨hok.beside hok, hblank, fun k => find?_empty k, rfl, rfl, rfl, rfl⟩

/-- **Every reachable controller is well formed.** -/
theorem Reachable.ok (h : Reachable E settings c) :
    ∃ b, createController settings = .ok b ∧ ControllerOK b c := by
  induction h with
  | init hb => exact ⟨_, hb, (createController_ok hb).1⟩
  | call _ hcall ih =>
    obtain ⟨b, hb, hc⟩ := ih
    exact ⟨b, hb, call_ok hc hcall⟩
  | reset _ ih =>
    obtain ⟨b, hb, hc⟩ := ih
    exact ⟨b, hb, (resetState_ok hc).1⟩
  | restart _ _ hstart hslice hrun ihc ihd =>
    obtain ⟨b, hb, hc⟩ := ihc
    obtain ⟨b₁, hb₁, hd⟩ := ihd
    obtain rfl : b = b₁ := Except.ok.inj (hb.symm.trans hb₁)
    obtain ⟨hok, hblank⟩ := hstart.blank hb hd
    exact ⟨b, hb, restart_ok hc hok hblank hslice hrun⟩

/-- **The rule for a property of reachable controllers**: a new one has it, and it is
kept by calls, by a reset, and by loading a slice. -/
theorem Reachable.rule {P : Controller → Prop} (hinit : ∀ c, createController settings = .ok c →
    P c) (hcall : ∀ b c q reply c', ControllerOK b c → P c → c.call E q = .ok (reply, c') → P c')
    (hset : ∀ c id, P c → P { c with sequencer := c.sequencer.setOperationLogId id })
    (hreset : ∀ b c, ControllerOK b c → P c → P c.resetState)
    (hload : ∀ b c d b' c₁, ControllerOK b c → P c → ControllerOK b b' → b'.Blank →
      Startable settings d b' → P b' →
      b'.loadSlice E c.dump = .ok c₁ → P (c₁.withCounters c.dump.history))
    (h : Reachable E settings c) : P c := by
  induction h with
  | init hb => exact hinit _ hb
  | call hreach hc ih =>
    obtain ⟨b, -, hok⟩ := hreach.ok
    exact hcall b _ _ _ _ hok ih hc
  | reset hreach ih =>
    obtain ⟨b, -, hok⟩ := hreach.ok
    exact hreset b _ hok ih
  | @restart c d b' c' slice now log hreach hreachd hstart hslice hrun ihc ihd =>
    obtain ⟨b, hb, hc⟩ := hreach.ok
    obtain ⟨b₁, hb₁, hd⟩ := hreachd.ok
    obtain rfl : b = b₁ := Except.ok.inj (hb.symm.trans hb₁)
    obtain ⟨hok, hblank⟩ := hstart.blank hb hd
    have hb' : P b' := by
      rcases hstart with hnew | rfl
      · exact hinit _ hnew
      · exact hreset b d hd ihd
    have hrule : ∀ {c₀ : Controller} {start : ℕ}, ControllerOK b c₀ → P c₀ →
        c₀.loadOperationLog E now log start = .ok c' → P c' := by
      intro c₀ start h₀ hP hlog
      refine (loadOperationLog_rule (P := fun e => ControllerOK b e ∧ P e) ?_ ?_ ⟨h₀, hP⟩ hlog).2
      · exact fun e q reply e' he hc => ⟨call_ok he.1 hc, hcall b _ _ _ _ he.1 he.2 hc⟩
      · exact fun e id he => ⟨he.1.setOperationLogId id, hset e id he.2⟩
    rcases hslice with rfl | rfl
    · exact hrule hok hb' hrun
    · simp only [Controller.initFromDb, bind_ok] at hrun
      obtain ⟨c₁, hslice, hrun⟩ := hrun
      exact hrule (loadSlice_ok hc hok hblank hslice)
        (hload b c d b' c₁ hc ihc hok hblank hstart hb' hslice) hrun

end Dingir
