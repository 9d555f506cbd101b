import Dingir.Proof.Reach
import Dingir.Proof.Twin
import Dingir.Spec.Database

/-!
# What the rows of a slice give back

Loading never fails on rows a reachable controller has written: every balance it
holds can be set again (`Reachable.storable`), and every resting order can be
inserted again (`loadOrders_total`). Of the rows of one balance the newest counts
(`loadBalances_total`).

`SameHoldings` compares a loaded controller with the one that was dumped: the
same balance map, and in every market the same orders in all four indexes, but
for their times.
-/

namespace Dingir

open Keyed Rounding Posting Outcome Market Paging

variable {E : Env} {settings : Settings} {now : Timestamp} {real : Bool} {u : Uuid} {w : Prop}
  {A : Market → Ctx → OrderInput → Prop} {c c' b b' : Controller} {d d' : Desk} {m m' : Market}

/-! ## The balances can be set again -/

theorem unfrozenBalance_storable {bm bm' : BalanceManager} {o : Order} (hs : bm.Storable E)
    (h : m.unfrozenBalance E bm o = .ok bm') : bm'.Storable E := by
  unfold Market.unfrozenBalance at h
  obtain ⟨-, -, h⟩ := bind_ok.1 h
  split at h
  · rw [pure_ok] at h
    exact h ▸ hs
  · exact BalanceManager.unfrozen_storable hs h

theorem Step.storable (h : Step E now u A d d') (hs : d.ctx.balanceManager.Storable E) :
    d'.ctx.balanceManager.Storable E := by
  cases h with
  | accept _ _ _ => exact hs
  | trade _ ht => exact ⟨ht.known hs.known, fun hE k => ht.keeps k (hs.nonneg hE k)⟩
  | finish _ _ => exact hs
  | close _ => exact hs
  | rest _ _ _ hfreeze _ => exact BalanceManager.frozen_storable hs hfreeze
  | cancel _ _ hfree => exact unfrozenBalance_storable hs hfree

theorem Moves.storable (h : Moves E now real u w A c c') (hc : ControllerOK b c)
    (hs : c.balanceManager.Storable E) : c'.balanceManager.Storable E := by
  induction h with
  | refl => exact hs
  | tail hmoves hmove ih =>
    cases hmove with
    | market hm hsteps =>
      have hrun : ∀ {a a' : Desk}, Steps E now u A a a' → a.ctx.balanceManager.Storable E →
          a'.ctx.balanceManager.Storable E := by
        intro a a' hsteps ha
        induction hsteps with
        | refl => exact ha
        | tail _ hstep ih => exact hstep.storable ih
      exact hrun hsteps ih
    | update _ _ _ _ ha =>
      obtain ⟨_, hchanged⟩ := applyChange_ok (Moves.ok hmoves hc).gridded ha.change
      exact ⟨applyChange_known ih.known ha.change, fun hE k => hchanged.keeps (ih.nonneg hE k)⟩

/-- A call keeps the balances such that they can be set again. -/
theorem call_storable {q : Request} {reply : Except Status Response} (hc : ControllerOK b c)
    (hs : c.balanceManager.Storable E) (h : c.call E q = .ok (reply, c')) :
    c'.balanceManager.Storable E := by
  obtain ⟨c₁, hmoves, hends⟩ := call_moves hc h
  have hs₁ := hmoves.storable hc hs
  cases hends with
  | refused _ _ => exact hs₁
  | logged _ _ =>
    obtain ⟨s, l, heq, -⟩ := logged_eq c₁ q.now q.real q.operation q.user
    rw [heq]
    exact hs₁

theorem loadSlice_storable {slice : Slice} (hs : c.balanceManager.Storable E)
    (h : c.loadSlice E slice = .ok c') : c'.balanceManager.Storable E := by
  simp only [Controller.loadSlice, bind_ok, pure_ok] at h
  obtain ⟨bm, hbm, markets, -, rfl⟩ := h
  refine foldlM_rule (P := fun _ bm => bm.Storable E) (fun row _ s s' hs hset => ?_) _ _ _ hs hbm
  exact ⟨BalanceManager.setByKey_known hs.known hset,
    fun hE k => BalanceManager.setByKey_nonneg hE (hs.nonneg hE k) hset⟩

theorem storable_empty (am : AssetManager) : BalanceManager.Storable E ⟨am, ∅⟩ :=
  ⟨known_empty am, fun _ _ => le_rfl⟩

theorem storable_of_created (h : createController settings = .ok c) :
    c.balanceManager.Storable E := by
  simp only [createController, bind_ok, pure_ok] at h
  obtain ⟨bm, hbm, _, -, rfl⟩ := h
  simp only [BalanceManager.new, bind_ok, pure_ok] at hbm
  obtain ⟨am, -, rfl⟩ := hbm
  exact storable_empty am

/-- **Every balance of a reachable controller can be set again.** -/
theorem Reachable.storable (h : Reachable E settings c) : c.balanceManager.Storable E := by
  refine h.rule (P := fun c => c.balanceManager.Storable E) (fun _ => storable_of_created)
    (fun _ _ _ _ _ => call_storable)
    (fun _ _ hs => hs) (fun _ c _ _ => storable_empty _) fun b c d b' c₁ _ _ _ _ _ hs hload => ?_
  have hloaded := loadSlice_storable hs hload
  exact hloaded

/-! ## Loading the balances -/

/-- A row that can be loaded: its asset is known, its balance on the grid, and not
negative where `debug_assert!` would say so. -/
structure BalanceSlice.Loads (E : Env) (am : AssetManager) (row : BalanceSlice) : Prop where
  grid : ∃ p, am.assetPrec row.asset = .ok p ∧ OnGrid p row.balance
  nonneg : E.debugAssertions = true → 0 ≤ row.balance

/-- The last of the rows of a balance. -/
def lastBalance (rows : List BalanceSlice) (k : BalanceMapKey) : Option Decimal :=
  (rows.reverse.find? fun row => row.key = k).map BalanceSlice.balance

theorem loadBalance_ok {bm : BalanceManager} {row : BalanceSlice}
    (h : row.Loads E bm.assetManager) :
    loadBalance E bm row = .ok { bm with balances := bm.balances.insert row.key row.balance } := by
  obtain ⟨⟨p, hp, hgrid⟩, hnonneg⟩ := h
  have hassert : E.debugAssert .debugAssert (0 ≤ row.balance) = .ok () := by
    by_cases hE : E.debugAssertions = true
    · exact Env.debugAssert_of (hnonneg hE)
    · exact Env.debugAssert_release (by simpa using hE) _ _
  refine bind_ok.2 ⟨(), hassert, bind_ok.2 ⟨p, hp, ?_⟩⟩
  rw [hgrid.roundDp_eq]
  rfl

/-- **Loading balances returns**, and the last row of a balance counts. -/
theorem loadBalances_total {rows : List BalanceSlice} {bm : BalanceManager}
    (hrows : ∀ row ∈ rows, row.Loads E bm.assetManager) :
    ∃ bm', rows.foldlM (loadBalance E) bm = .ok bm' ∧
      ∀ k, bm'.balances.find? k = (lastBalance rows k).or (bm.balances.find? k) := by
  induction rows generalizing bm with
  | nil => exact ⟨bm, rfl, fun k => rfl⟩
  | cons row rows ih =>
    have hset := loadBalance_ok (hrows row (by simp))
    have hlater :
        ∀ r ∈ rows, r.Loads E ({ bm with balances := bm.balances.insert row.key row.balance } :
        BalanceManager).assetManager := fun r hr => hrows r (List.mem_cons_of_mem _ hr)
    obtain ⟨bm', hbm', hfind⟩ := ih hlater
    refine ⟨bm', by rw [List.foldlM_cons, hset]; exact hbm', fun k => ?_⟩
    have hinsert : HashMap.find? (bm.balances.insert row.key row.balance) k =
        if k = row.key then some row.balance else bm.balances.find? k := find?_insert _ _ _ _
    rw [hfind k, hinsert]
    unfold lastBalance
    rw [List.reverse_cons, List.find?_append]
    cases (rows.reverse.find? fun row => row.key = k) with
    | some r => rfl
    | none =>
      by_cases hk : k = row.key
      · subst hk
        simp
      · have hk' : ¬ row.key = k := fun h => hk h.symm
        simp [hk, hk']

/-- A balance without a row has none. -/
theorem lastBalance_none {rows : List BalanceSlice} {k : BalanceMapKey}
    (h : ∀ row ∈ rows, row.key ≠ k) : lastBalance rows k = none := by
  unfold lastBalance
  rw [List.find?_eq_none.2 (by simpa using h)]
  rfl

/-- In ascending rows, the row of a balance with the highest id is the last. -/
theorem lastBalance_of_newest {rows : List BalanceSlice}
    (hsorted : rows.Pairwise fun a b => a.id < b.id) {row : BalanceSlice} (hrow : row ∈ rows)
    (hnewest : ∀ r ∈ rows, r.key = row.key → r.id ≤ row.id) :
    lastBalance rows row.key = some row.balance := by
  have hsome : (rows.reverse.find? fun r => r.key = row.key).isSome := by
    rw [List.find?_isSome]
    exact ⟨row, List.mem_reverse.2 hrow, by simp⟩
  obtain ⟨r, hr⟩ := Option.isSome_iff_exists.1 hsome
  obtain ⟨hkey, front, back, hsplit, hfront⟩ := List.find?_eq_some_iff_append.1 hr
  have hkey : r.key = row.key := by simpa using hkey
  have hdesc : rows.reverse.Pairwise fun a b => b.id < a.id := List.pairwise_reverse.2 hsorted
  rw [hsplit] at hdesc
  -- `row` is not in front of `r`, whose key it has, and nothing behind `r` is as new
  have hmem : row ∈ front ++ r :: back := hsplit ▸ List.mem_reverse.2 hrow
  have hrmem : r ∈ rows := List.mem_reverse.1 (hsplit ▸ List.mem_append_right _ List.mem_cons_self)
  obtain rfl : r = row := by
    rcases List.mem_append.1 hmem with hf | hb
    · have hno := hfront row hf
      simp at hno
    · rcases List.mem_cons.1 hb with rfl | hb
      · rfl
      · have hlt := (List.pairwise_cons.1 (List.pairwise_append.1 hdesc).2.1).1 row hb
        have hle := hnewest r hrmem hkey
        omega
  unfold lastBalance
  rw [hr]
  rfl

/-! ## Loading the orders -/

/-- An order with a new id can be inserted. -/
theorem insertOrder_total {o : Order} (hm : m.IndexOK) (hlimit : o.type_ = .limit)
    (hnew : m.resting o.id = none) :
    m.insertOrderIntoOrderbook E o = .ok (o.rested, m.withRest o.rested) := by
  have hnone : m.orders[o.id]? = none := by
    cases hr : m.orders[o.id]? with
    | none => rfl
    | some rc => rw [resting_some.2 ⟨rc, hr, rfl⟩] at hnew; simp at hnew
  have hfree : ∀ {rc : OrderRc}, ¬ m.orders[o.id]? = some rc :=
    fun hr => by rw [hnone] at hr; simp at hr
  refine insertOrder_iff.2
    ⟨⟨Env.debugAssert_of hlimit, Env.debugAssert_of ?_, Env.debugAssert_of ?_, ?_⟩, rfl, rfl⟩
  · exact fun hmem => hfree (Std.TreeMap.getElem?_eq_some_getElem hmem)
  · exact fun hmem =>
      hfree ((hm.users o.user o.id _).1 (Std.TreeMap.getElem?_eq_some_getElem hmem)).1
  · split
    · exact Env.debugAssert_of fun hmem =>
        hfree ((hm.asks o.askKey).1 (Std.TreeMap.getElem?_eq_some_getElem hmem)).1
    · exact Env.debugAssert_of fun hmem =>
        hfree ((hm.bids o.bidKey).1 (Std.TreeMap.getElem?_eq_some_getElem hmem)).1

/-- A row that can be loaded: a limit order of a market there is. -/
structure OrderSlice.Loads (markets : HashMap String Market) (row : OrderSlice) : Prop where
  market : (markets.find? row.market).isSome
  limit : row.orderType = .limit

/-- **Loading orders returns.** -/
theorem loadOrders_total {blank : HashMap String Market} {rows : List OrderSlice}
    (hblank : ∀ name m, blank.find? name = some m → m.NoOrders)
    (hnodup : (rows.map OrderSlice.id).Nodup) (hrows : ∀ row ∈ rows, row.Loads blank) :
    ∃ markets, rows.foldlM (loadOrder E) blank = .ok markets ∧ Loaded blank markets rows := by
  let P (rest : List OrderSlice) (markets : HashMap String Market) : Prop :=
    ∃ done, done ++ rest = rows ∧ Loaded blank markets done
  have hstep : ∀ row rest s, P (row :: rest) s → ∃ s', loadOrder E s row = .ok s' ∧ P rest s' := by
    rintro row rest s ⟨done, hdone, hl⟩
    have hrow := hrows row (hdone ▸ by simp)
    have hnew : row.id ∉ done.map OrderSlice.id := by
      rw [← hdone, List.map_append, List.map_cons] at hnodup
      exact fun hc => (List.nodup_append.1 hnodup).2.2 _ hc _ (by simp) rfl
    obtain ⟨m, hm⟩ := Option.isSome_iff_exists.1 ((hl row.market).2 hrow.market)
    obtain ⟨-, -, -, hindex, -⟩ := (hl row.market).1 m hm
    have hfresh := hl.fresh hnew hm
    have hload : loadOrder E s row =
        .ok (s.insert row.market (m.withRest (row.toOrder m).rested)) :=
      bind_ok.2 ⟨m, unwrap_ok.2 hm, bind_ok.2 ⟨_, insertOrder_total hindex hrow.limit hfresh, rfl⟩⟩
    exact ⟨_, hload, done ++ [row], by simpa using hdone, hl.step hnew hload⟩
  obtain ⟨markets, hfold, -⟩ := foldlM_total hstep rows blank ⟨[], rfl, Loaded.start hblank⟩
  exact ⟨markets, hfold, loadOrders hblank hnodup hfold⟩

/-! ## The same holdings -/

/-- Two markets with the same orders, but for their times, in all four indexes. -/
structure Market.SameBook (m m' : Market) : Prop where
  orders : ∀ id, Option.Rel Order.Twin (m.resting id) (m'.resting id)
  users : ∀ (u : Uuid) (id : ℕ),
    Option.Rel Order.Twin ((m.userOrders u)[id]?.map m.rcs.read)
      ((m'.userOrders u)[id]?.map m'.rcs.read)
  asks : ∀ k : MarketKeyAsk,
    Option.Rel Order.Twin (m.asks[k]?.map m.rcs.read) (m'.asks[k]?.map m'.rcs.read)
  bids : ∀ k : MarketKeyBid,
    Option.Rel Order.Twin (m.bids[k]?.map m.rcs.read) (m'.bids[k]?.map m'.rcs.read)

/-- An index that files the orders under a part without times holds the same orders. -/
theorem Market.Files.twin {α : Type} [DecidableEq α] {f : Order → α} {g g' : α → ℕ → Option OrderRc}
    (h : m.Files f g) (h' : m'.Files f g') (hf : ∀ {o o' : Order}, o.Twin o' → f o' = f o)
    (hrel : ∀ id, Option.Rel Order.Twin (m.resting id) (m'.resting id)) (a : α) (id : ℕ) :
    Option.Rel Order.Twin ((g a id).map m.rcs.read) ((g' a id).map m'.rcs.read) := by
  have hg : ∀ {m : Market} {g : α → ℕ → Option OrderRc}, m.Files f g →
      (g a id).map m.rcs.read = (m.resting id).filter fun o => f o = a := by
    intro m g h
    refine Option.ext fun o => ?_
    simp only [Option.map_eq_some_iff, Option.filter_eq_some_iff, resting_some, decide_eq_true_eq]
    constructor
    · rintro ⟨rc, hrc, rfl⟩
      obtain ⟨hr, ha⟩ := (h a id rc).1 hrc
      exact ⟨⟨rc, hr, rfl⟩, ha⟩
    · rintro ⟨⟨rc, hr, rfl⟩, ha⟩
      exact ⟨rc, (h a id rc).2 ⟨hr, ha⟩, rfl⟩
  rw [hg h, hg h']
  have hid := hrel id
  generalize m.resting id = x at hid ⊢
  generalize m'.resting id = y at hid ⊢
  cases hid with
  | none => exact .none
  | @some o o' htwin =>
    by_cases ha : f o = a
    · simpa [Option.filter, ha, hf htwin] using Option.Rel.some htwin
    · simp [Option.filter, ha, hf htwin]

theorem Market.IndexOK.sameBook (h : m.IndexOK) (h' : m'.IndexOK)
    (hrel : ∀ id, Option.Rel Order.Twin (m.resting id) (m'.resting id)) : m.SameBook m' := by
  have hside : ∀ {o o' : Order}, o.Twin o' → sideKey o' = sideKey o := by
    rintro o o' ⟨a, b, rfl⟩
    rfl
  exact ⟨hrel, h.users.twin h'.users Order.Twin.user hrel,
    fun k => h.sides.twin h'.sides hside hrel (.ask, k.orderPrice) k.orderId,
    fun k => h.sides.twin h'.sides hside hrel (.bid, k.orderPrice) k.orderId⟩

/-- The same balances and the same orders, but for their times. -/
structure SameHoldings (c c' : Controller) : Prop where
  balances : ∀ k, c'.balanceManager.balances.find? k = c.balanceManager.balances.find? k
  markets : ∀ name, Option.Rel Market.SameBook (c.markets.find? name) (c'.markets.find? name)

end Dingir
