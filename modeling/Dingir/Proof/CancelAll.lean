import Dingir.Spec.Sample
import Dingir.Proof.Reach

/-!
# Cancelling all orders of a user

`cancel_all_for_user` collects the ids from one index and takes the orders one by one
out of all four, each with a change of the balances. A cancellation needs nothing that
an earlier one of them took away: the other orders stay where they are, and each moves
what it froze itself (`Removed`, by induction over the orders).

- **`Reachable.orderCancelAll_exact`**: what is left is the market without the orders of
  the user, and the balances with what they froze back in `AVAILABLE`.
-/

namespace Dingir

open Keyed Posting Outcome Market

variable {E : Env} {settings : Settings} {now : Timestamp} {real : Bool} {u : Uuid}
  {m m' m'' : Market} {x x' x'' : Ctx} {o : Order} {os : List Order} {rc : OrderRc}
  {c c' b : Controller} {bm : BalanceManager} {n : ℕ}

/-- `get_order_of_user`: the orders of a user, by id. -/
def Market.getOrderOfUser (m : Market) (u : Uuid) : List Order :=
  (values (m.userOrders u)).map m.rcs.read

/-- A cancellation moves what the order froze. -/
def Market.releases (m : Market) (o : Order) : List (BalanceMapKey × Decimal) :=
  [(m.payAccount o, o.frozen), (m.backAccount o, -o.frozen)]

/-- The message of a cancelled order. -/
def Order.cancelled (o : Order) : Message := .orderMessage (OrderMessage.fromOrder o .finish)

/-- **What the removal of the orders `os` leaves**, all it changes. -/
structure Removed (m : Market) (x : Ctx) (os : List Order) (m' : Market) (x' : Ctx) : Prop where
  orders : ∀ id : ℕ, m'.orders[id]? = if id ∈ os.map Order.id then none else m.orders[id]?
  rcs : m'.rcs = m.rcs
  terms : m.SameTerms m'
  price : m'.price = m.price
  tradeCount : m'.tradeCount = m.tradeCount
  posted : Posted x.balanceManager x'.balanceManager (os.flatMap m.releases)
  persistor : x'.persistor = os.foldl (fun pe o => pe.push o.cancelled) x.persistor
  sequencer : x'.sequencer = x.sequencer
  updateController : x'.updateController = x.updateController

theorem Removed.refl (m : Market) (x : Ctx) : Removed m x [] m x :=
  ⟨by simp, rfl, .refl m, rfl, rfl, .refl _, rfl, rfl, rfl⟩

theorem Market.SameTerms.releases (h : m.SameTerms m') (o : Order) :
    m'.releases o = m.releases o := by
  simp [Market.releases, payAccount, backAccount, payAsset, h.base, h.quote]

theorem Removed.trans (h : Removed m x [o] m' x') (h' : Removed m' x' os m'' x'') :
    Removed m x (o :: os) m'' x'' := by
  refine ⟨fun id => ?_, h'.rcs.trans h.rcs, h.terms.trans h'.terms, h'.price.trans h.price,
    h'.tradeCount.trans h.tradeCount, ?_, ?_, h'.sequencer.trans h.sequencer,
    h'.updateController.trans h.updateController⟩
  · rw [h'.orders, h.orders]
    by_cases hos : id ∈ os.map Order.id <;> by_cases ho : id = o.id <;> simp [hos, ho]
  · have hposted := h.posted.trans h'.posted
    rwa [funext h.terms.releases, List.flatMap_singleton] at hposted
  · rw [h'.persistor, h.persistor]
    rfl

/-! ## One order -/

/-- Cancelling a resting order removes it. -/
theorem orderFinish_removed (hd : DeskOK ⟨m, x, none⟩)
    (hrc : m.orders[(m.rcs.read rc).id]? = some rc)
    (h : m.orderFinish E x (m.rcs.read rc) = .ok (m', x')) :
    Removed m x [m.rcs.read rc] m' x' ∧ DeskOK ⟨m', x', none⟩ := by
  obtain ⟨rfl, bm, hbm, rfl⟩ := orderFinish_ok h
  have hback := hd.backed _ _ (resting_some.2 ⟨rc, hrc, rfl⟩)
  have hposted := unfrozenBalance_posted hd.gridded hd.prec hback hbm
  have hstep : Step E 0 (m.rcs.read rc).user AnyOrder ⟨m, x, none⟩ _ := .cancel hrc rfl hbm
  refine ⟨⟨fun id => ?_, rfl, hstep.sameTerms, rfl, rfl, ?_, rfl, rfl, rfl⟩, hstep.deskOK hd⟩
  · rw [without_orders]
    simp [eq_comm]
  · rw [List.flatMap_singleton, Market.releases, hback.frozen]
    exact hposted

/-- Without assertions an unfreezing returns. -/
theorem unfrozenBalance_returns (hE : E.debugAssertions = false) (hp : m.PrecOK bm.assetManager)
    (o : Order) : ∃ bm', m.unfrozenBalance E bm o = .ok bm' := by
  unfold unfrozenBalance
  by_cases hz : o.remain = 0
  · exact ⟨bm, bind_ok.2 ⟨(), Env.debugAssert_release hE _ _, by rw [if_pos hz]; rfl⟩⟩
  · have hpay := hp.pay o
    simp [hz, Env.debugAssert_release hE, BalanceManager.unfrozen, BalanceManager.add,
      BalanceManager.sub,
      BalanceManager.setByKey, hpay, bind, Except.bind, pure, Except.pure]

/-- Without assertions the removal of a resting order returns. -/
theorem orderFinish_returns (hE : E.debugAssertions = false) (hd : DeskOK ⟨m, x, none⟩)
    (hrc : m.orders[(m.rcs.read rc).id]? = some rc) :
    ∃ s, m.orderFinish E x (m.rcs.read rc) = .ok s := by
  obtain ⟨bm, hbm⟩ := unfrozenBalance_returns hE hd.prec (m.rcs.read rc)
  refine ⟨(_, _),
    orderFinish_iff.2 ⟨⟨?_, Env.debugAssert_release hE _ _, ?_, Env.debugAssert_release hE _ _⟩, bm,
    hbm, rfl, rfl⟩⟩
  · split <;> exact Env.debugAssert_release hE _ _
  · have huser := (hd.index.users (m.rcs.read rc).user (m.rcs.read rc).id rc).2 ⟨hrc, rfl⟩
    cases husers : m.users[(m.rcs.read rc).user]? with
    | none => simp [userOrders, husers] at huser
    | some users => rfl

/-! ## All of them -/

/-- The body of the loop of `cancel_all_for_user`. -/
def cancelNext (E : Env) (s : Market × Ctx) (orderId : ℕ) : Except Panic (Market × Ctx) := do
  let order ← s.1.deep orderId
  s.1.orderFinish E s.2 order

/-- The entries of a list of orders that rest in a market. -/
def Market.Stores (m : Market) (entries : List (ℕ × OrderRc)) : Prop :=
  (entries.map Prod.fst).Nodup ∧ ∀ e ∈ entries, m.orders[e.1]? = some e.2

theorem cancelNext_iff {e : ℕ × OrderRc} (he : m.orders[e.1]? = some e.2) {s : Market × Ctx} :
    cancelNext E (m, x) e.1 = .ok s ↔ m.orderFinish E x (m.rcs.read e.2) = .ok s := by
  simp [cancelNext, deep, he, unwrap, bind, Except.bind, pure, Except.pure]

/-- The other entries stay. -/
theorem Market.Stores.tail {e : ℕ × OrderRc} {entries : List (ℕ × OrderRc)}
    (h : m.Stores (e :: entries)) (hid : (m.rcs.read e.2).id = e.1)
    (hr : Removed m x [m.rcs.read e.2] m' x') : m'.Stores entries := by
  obtain ⟨hnodup, hstored⟩ := h
  rw [List.map_cons, List.nodup_cons] at hnodup
  refine ⟨hnodup.2, fun e' he' => ?_⟩
  have hne : e'.1 ≠ e.1 := fun hc => hnodup.1 (hc ▸ List.mem_map_of_mem he')
  rw [hr.orders, List.map_singleton, hid, if_neg (by simpa using hne)]
  exact hstored e' (List.mem_cons_of_mem _ he')

/-- **The loop removes the orders**, by induction on those that are left. -/
theorem cancelNext_removed {entries : List (ℕ × OrderRc)} (hd : DeskOK ⟨m, x, none⟩)
    (hstores : m.Stores entries)
    (h : (entries.map Prod.fst).foldlM (cancelNext E) (m, x) = .ok (m', x')) :
    Removed m x (entries.map fun e => m.rcs.read e.2) m' x' ∧ DeskOK ⟨m', x', none⟩ := by
  induction entries generalizing m x with
  | nil =>
    simp only [List.map_nil, List.foldlM_nil, pure_ok, Prod.mk.injEq] at h
    obtain ⟨rfl, rfl⟩ := h
    exact ⟨.refl _ _, hd⟩
  | cons e entries ih =>
    simp only [List.map_cons, List.foldlM_cons, bind_ok] at h
    obtain ⟨⟨m₁, x₁⟩, hfirst, hrest⟩ := h
    have hstored := hstores.2 e (by simp)
    have hid := hd.index.ownId _ _ hstored
    obtain ⟨hremoved, hd₁⟩ :=
      orderFinish_removed hd (by rw [hid]; exact hstored) ((cancelNext_iff hstored).1 hfirst)
    obtain ⟨hothers, hd'⟩ := ih hd₁ (hstores.tail hid hremoved) hrest
    rw [hremoved.rcs] at hothers
    exact ⟨hremoved.trans hothers, hd'⟩

theorem cancelNext_returns {entries : List (ℕ × OrderRc)} (hE : E.debugAssertions = false)
    (hd : DeskOK ⟨m, x, none⟩) (hstores : m.Stores entries) :
    ∃ s, (entries.map Prod.fst).foldlM (cancelNext E) (m, x) = .ok s := by
  induction entries generalizing m x with
  | nil => exact ⟨_, rfl⟩
  | cons e entries ih =>
    have hstored := hstores.2 e (by simp)
    have hid := hd.index.ownId _ _ hstored
    have hown : m.orders[(m.rcs.read e.2).id]? = some e.2 := by rw [hid]; exact hstored
    obtain ⟨⟨m₁, x₁⟩, hfirst⟩ := orderFinish_returns hE hd hown
    obtain ⟨hremoved, hd₁⟩ := orderFinish_removed hd hown hfirst
    obtain ⟨s, hrest⟩ := ih hd₁ (hstores.tail hid hremoved)
    refine ⟨s, ?_⟩
    rw [List.map_cons, List.foldlM_cons]
    exact bind_ok.2 ⟨_, (cancelNext_iff hstored).2 hfirst, hrest⟩

/-! ## The market without a user -/

/-- **A market without the orders of the user `u`**: the others are where they were. -/
structure Market.WithoutUser (m : Market) (u : Uuid) (m' : Market) : Prop where
  resting : ∀ id, m'.resting id = (m.resting id).filter fun o => o.user ≠ u
  asks : (values m'.asks).map m'.rcs.read =
    ((values m.asks).map m.rcs.read).filter fun o => o.user ≠ u
  bids : (values m'.bids).map m'.rcs.read =
    ((values m.bids).map m.rcs.read).filter fun o => o.user ≠ u
  ofUser : m'.getOrderOfUser u = []
  ofOthers : ∀ v, v ≠ u → m'.getOrderOfUser v = m.getOrderOfUser v
  terms : m.SameTerms m'
  price : m'.price = m.price
  tradeCount : m'.tradeCount = m.tradeCount

/-- The listed orders of a user are those that rest. -/
theorem mem_getOrderOfUser (hm : m.IndexOK) :
    o ∈ m.getOrderOfUser u ↔ m.resting o.id = some o ∧ o.user = u := by
  simp only [getOrderOfUser, List.mem_map, mem_values]
  constructor
  · rintro ⟨rc, ⟨id, hrc⟩, rfl⟩
    obtain ⟨hstored, hu⟩ := (hm.users u id rc).1 hrc
    rw [hm.ownId _ _ hstored]
    exact ⟨resting_some.2 ⟨rc, hstored, rfl⟩, hu⟩
  · rintro ⟨ho, hu⟩
    obtain ⟨rc, hstored, hread⟩ := resting_some.1 ho
    exact ⟨rc, ⟨o.id, (hm.users u o.id rc).2 ⟨hstored, hread ▸ hu⟩⟩, hread⟩

/-- They are the entries of the index of the user. -/
theorem getOrderOfUser_ids (hm : m.IndexOK) :
    (m.getOrderOfUser u).map Order.id = (m.userOrders u).toList.map Prod.fst := by
  rw [getOrderOfUser, values, List.map_map, List.map_map]
  refine List.map_congr_left fun e he => ?_
  rw [Std.TreeMap.mem_toList_iff_getElem?_eq_some] at he
  exact hm.ownId _ _ ((hm.users u e.1 e.2).1 he).1

/-- Without the orders of a user, the handles of the others are stored. -/
theorem Removed.stored (h : Removed m x (m.getOrderOfUser u) m' x') (hm : m.IndexOK) {id : ℕ} :
    m'.orders[id]? = some rc ↔ m.orders[id]? = some rc ∧ (m.rcs.read rc).user ≠ u := by
  rw [h.orders]
  have hmem : ∀ {rc}, m.orders[id]? = some rc →
      (id ∈ (m.getOrderOfUser u).map Order.id ↔ (m.rcs.read rc).user = u) := by
    intro rc hrc
    have hid := hm.ownId _ _ hrc
    have hrest : m.resting id = some (m.rcs.read rc) := resting_some.2 ⟨rc, hrc, rfl⟩
    rw [List.mem_map]
    constructor
    · rintro ⟨o, ho, rfl⟩
      obtain ⟨ho, hu⟩ := (mem_getOrderOfUser hm).1 ho
      rw [Option.some.inj (hrest.symm.trans ho)]
      exact hu
    · intro hu
      exact ⟨m.rcs.read rc, (mem_getOrderOfUser hm).2 ⟨by rw [hid]; exact hrest, hu⟩, hid⟩
  by_cases hid : id ∈ (m.getOrderOfUser u).map Order.id
  · rw [if_pos hid]
    refine iff_of_false (by simp) ?_
    rintro ⟨hrc, hne⟩
    exact hne ((hmem hrc).1 hid)
  · rw [if_neg hid]
    exact ⟨fun hrc => ⟨hrc, fun hu => hid ((hmem hrc).2 hu)⟩, fun hrc => hrc.1⟩

/-- Every index drops the orders of the user, and no other. -/
theorem Removed.withoutUser (h : Removed m x (m.getOrderOfUser u) m' x') (hm : m.IndexOK)
    (hm' : m'.IndexOK) : m.WithoutUser u m' := by
  have hside : ∀ {K : Type} [Ord K] [Std.TransOrd K] [Std.LawfulEqOrd K]
      {s t : Std.TreeMap K OrderRc},
      (∀ (k : K) (rc : OrderRc), s[k]? = some rc ↔ t[k]? = some rc ∧ (m.rcs.read rc).user ≠ u) →
      (values s).map m'.rcs.read = ((values t).map m.rcs.read).filter fun o => o.user ≠ u := by
    intro K _ _ _ s t hst
    rw [values_eq_filter (p := fun rc => (m.rcs.read rc).user ≠ u) (by simpa using hst),
      List.filter_map, h.rcs]
    rfl
  refine ⟨fun id => ?_, hside fun k rc => ?_, hside fun k rc => ?_, ?_, fun v hv => ?_, h.terms,
    h.price, h.tradeCount⟩
  · refine Option.ext fun o => ?_
    rw [Option.filter_eq_some_iff, resting_some, resting_some]
    simp only [h.stored hm, h.rcs, decide_eq_true_eq]
    constructor
    · rintro ⟨rc, ⟨hrc, hu⟩, rfl⟩
      exact ⟨⟨rc, hrc, rfl⟩, hu⟩
    · rintro ⟨⟨rc, hrc, rfl⟩, hu⟩
      exact ⟨rc, ⟨hrc, hu⟩, rfl⟩
  · rw [hm'.asks, hm.asks, h.stored hm, h.rcs]
    tauto
  · rw [hm'.bids, hm.bids, h.stored hm, h.rcs]
    tauto
  · rw [List.eq_nil_iff_forall_not_mem]
    intro o ho
    obtain ⟨hrest, hu⟩ := (mem_getOrderOfUser hm').1 ho
    obtain ⟨rc, hrc, rfl⟩ := resting_some.1 hrest
    rw [h.rcs] at hu
    exact ((h.stored hm).1 hrc).2 hu
  · rw [getOrderOfUser, getOrderOfUser, h.rcs]
    congr 1
    have hall := values_eq_filter (s := m'.userOrders v) (t := m.userOrders v) (p := fun _ => true)
      fun id rc => by
      rw [hm'.users v id rc, hm.users v id rc, h.stored hm, h.rcs]
      constructor
      · rintro ⟨⟨hrc, -⟩, hv⟩
        exact ⟨⟨hrc, hv⟩, rfl⟩
      · rintro ⟨⟨hrc, hv'⟩, -⟩
        exact ⟨⟨hrc, hv' ▸ hv⟩, hv'⟩
    rw [hall, List.filter_true]

/-- **`cancel_all_for_user` removes all orders of the user.** -/
theorem cancelAllForUser_removed (hd : DeskOK ⟨m, x, none⟩)
    (h : m.cancelAllForUser E x u = .ok (n, m', x')) :
    n = (m.getOrderOfUser u).length ∧ Removed m x (m.getOrderOfUser u) m' x' ∧
    DeskOK ⟨m', x', none⟩ := by
  unfold cancelAllForUser at h
  simp only [bind_ok, pure_ok, Prod.mk.injEq] at h
  obtain ⟨⟨m₁, x₁⟩, hloop, rfl, rfl, rfl⟩ := h
  have hstores : m.Stores (m.userOrders u).toList := by
    refine ⟨nodup_keys _, fun e he => ?_⟩
    rw [Std.TreeMap.mem_toList_iff_getElem?_eq_some] at he
    exact ((hd.index.users u e.1 e.2).1 he).1
  obtain ⟨hremoved, hd'⟩ := cancelNext_removed hd hstores hloop
  refine ⟨?_, ?_, hd'⟩
  · rw [getOrderOfUser, values, List.length_map, List.length_map, List.length_map]
    rfl
  · rw [getOrderOfUser, values, List.map_map]
    exact hremoved

theorem cancelAllForUser_returns (hE : E.debugAssertions = false) (hd : DeskOK ⟨m, x, none⟩)
    (u : Uuid) : ∃ r, m.cancelAllForUser E x u = .ok r := by
  have hstores : m.Stores (m.userOrders u).toList := by
    refine ⟨nodup_keys _, fun e he => ?_⟩
    rw [Std.TreeMap.mem_toList_iff_getElem?_eq_some] at he
    exact ((hd.index.users u e.1 e.2).1 he).1
  obtain ⟨s, hs⟩ := cancelNext_returns hE hd hstores
  exact ⟨_, bind_ok.2 ⟨s, hs, rfl⟩⟩

/-! ## The controller -/

/-- **All that cancelling the orders of `u` in the market `name` changes.** -/
structure Controller.CancelsAll (c : Controller) (real : Bool) (u : Uuid) (name : String)
    (m : Market) (c' : Controller) : Prop where
  market : ∃ m', c'.markets.find? name = some m' ∧ m.WithoutUser u m'
  markets : ∀ name', name' ≠ name → c'.markets.find? name' = c.markets.find? name'
  posted : Posted c.balanceManager c'.balanceManager ((m.getOrderOfUser u).flatMap m.releases)
  bystanders : ∀ v, v ≠ u → ∀ t a, c'.balanceManager.get v t a = c.balanceManager.get v t a
  totals : ∀ a, c'.balanceManager.total u a = c.balanceManager.total u a
  messages : c'.persistor = if real then c.persistor ++ (m.getOrderOfUser u).map Order.cancelled
    else c.persistor
  orderId : c'.sequencer.orderId = c.sequencer.orderId
  tradeId : c'.sequencer.tradeId = c.sequencer.tradeId

/-- Cancellations of a user post to the two balances of the user. -/
theorem amountIn_releases (hos : ∀ o ∈ os, o.user = u) {P : BalanceMapKey → Prop} [DecidablePred P]
    (h : ∀ a, P ⟨u, .available, a⟩ ↔ P ⟨u, .freeze, a⟩) :
    amountIn P (os.flatMap m.releases) = 0 := by
  induction os with
  | nil => rfl
  | cons o os ih =>
    have ho := hos o (by simp)
    rw [List.flatMap_cons, amountIn_append, ih fun p hp => hos p (List.mem_cons_of_mem _ hp)]
    simp only [Market.releases, payAccount, backAccount, ho, amountIn_cons, amountIn_nil, h]
    split <;> ring

/-- What the user has in an asset is moved, and nobody else has any part in it. -/
theorem Posted.cancelled {bm bm' : BalanceManager} (hos : ∀ o ∈ os, o.user = u)
    (h : Posted bm bm' (os.flatMap m.releases)) :
    (∀ v, v ≠ u → ∀ t a, bm'.get v t a = bm.get v t a) ∧ ∀ a, bm'.total u a = bm.total u a := by
  refine ⟨fun v hv t a => ?_, fun a => ?_⟩
  · refine (h.balance _).trans ?_
    rw [amountIn_releases hos fun a' => by simp [hv.symm], add_zero]
    rfl
  · have hboth := amountIn_releases (m := m) (P := fun k => k = ⟨u, .available, a⟩ ∨
      k = ⟨u, .freeze, a⟩) hos (by simp)
    have hsplit := amountIn_split (P := fun k : BalanceMapKey => k = ⟨u, .available, a⟩)
      (Q := fun k => k = ⟨u, .freeze, a⟩)
      (fun k => Iff.rfl) (by rintro k rfl; simp) (os.flatMap m.releases)
    simp only [BalanceManager.total, BalanceManager.get, h.balance]
    linarith

/-- The messages of the cancelled orders, one after the other. -/
theorem foldl_cancelled (os : List Order) (ms : List Message) :
    os.foldl (fun pe o => pe.push o.cancelled) (PersistExector.real ms) =
      .real (ms ++ os.map Order.cancelled) := by
  induction os generalizing ms with
  | nil => simp
  | cons o os ih =>
    rw [List.foldl_cons, PersistExector.push, ih]
    simp

theorem foldl_cancelled_dummy (os : List Order) :
    os.foldl (fun pe o => pe.push o.cancelled) PersistExector.dummy = .dummy := by
  induction os with
  | nil => rfl
  | cons o os ih => exact ih

theorem orderCancelAll_cancels {name : String} {reply : Except Status Response}
    (hc : ControllerOK b c) (hm : c.markets.find? name = some m)
    (h : c.orderCancelAll E now true real ⟨name⟩ u = .ok (reply, c')) :
    reply = .ok (.orderCancelAll (m.getOrderOfUser u).length) ∧ c.CancelsAll real u name m c' := by
  have hd := (hc.desk _ _ hm).2 real
  unfold Controller.orderCancelAll Controller.cancelAllIn at h
  simp only [Bool.not_true, Bool.false_eq_true, if_false, hm, bind_ok, pure_ok, Prod.mk.injEq] at h
  obtain ⟨⟨_, _⟩, ⟨⟨n, m', x'⟩, hcancel, rfl, rfl⟩, rfl, rfl⟩ := h
  obtain ⟨rfl, hremoved, hd'⟩ := cancelAllForUser_removed hd hcancel
  obtain ⟨s, l, hl, hs, ht⟩ :=
    logged_eq (c.withMarket name m' x') now real (.orderCancelAll ⟨name⟩) u
  rw [hl]
  have hos : ∀ o ∈ m.getOrderOfUser u, o.user = u :=
    fun o ho => ((mem_getOrderOfUser hd.index).1 ho).2
  obtain ⟨hbystanders, htotals⟩ := hremoved.posted.cancelled hos
  refine ⟨rfl, ⟨m', find?_insert_self _ _ _, hremoved.withoutUser hd.index hd'.index⟩,
    fun name' hne => find?_insert_of_ne _ _ hne, hremoved.posted, hbystanders, htotals, ?_, ?_, ?_⟩
  · have hpersistor := hremoved.persistor
    cases real with
    | true =>
      rw [show (c.ctx true).persistor = .real c.persistor from rfl, foldl_cancelled] at hpersistor
      simp [Controller.withMarket, Controller.withCtx, hpersistor]
    | false =>
      rw [show (c.ctx false).persistor = .dummy from rfl, foldl_cancelled_dummy] at hpersistor
      simp [Controller.withMarket, Controller.withCtx, hpersistor]
  · exact hs.trans (congrArg Sequencer.orderId hremoved.sequencer)
  · exact ht.trans (congrArg Sequencer.tradeId hremoved.sequencer)

theorem orderCancelAll_returns {name : String} (hE : E.debugAssertions = false)
    (hc : ControllerOK b c) (hm : c.markets.find? name = some m) (now : Timestamp) (real : Bool)
    (u : Uuid) : ∃ reply c', c.orderCancelAll E now true real ⟨name⟩ u = .ok (reply, c') := by
  obtain ⟨⟨n, m', x'⟩, hcancel⟩ := cancelAllForUser_returns hE ((hc.desk _ _ hm).2 real) u
  unfold Controller.orderCancelAll Controller.cancelAllIn
  simp only [Bool.not_true, Bool.false_eq_true, if_false, hm, bind_ok, pure_ok]
  exact ⟨_, _, _, ⟨_, hcancel, rfl⟩, rfl⟩

/-- **Cancel-all is exact and local**: it takes away the resting orders of the user, each once, and
answers how many they were. Without assertions it always returns. -/
theorem Reachable.orderCancelAll_exact (h : Reachable E settings c) {name : String}
    (hm : c.markets.find? name = some m) (now : Timestamp) (real : Bool) (u : Uuid) :
    (∀ o, o ∈ m.getOrderOfUser u ↔ m.resting o.id = some o ∧ o.user = u) ∧
      ((m.getOrderOfUser u).map Order.id).Nodup ∧
    (E.debugAssertions = false →
      ∃ reply c', c.orderCancelAll E now true real ⟨name⟩ u = .ok (reply, c')) ∧
    ∀ reply c', c.orderCancelAll E now true real ⟨name⟩ u = .ok (reply, c') →
      reply = .ok (.orderCancelAll (m.getOrderOfUser u).length) ∧
      c.CancelsAll real u name m c' := by
  obtain ⟨b, -, hc⟩ := h.ok
  have hindex := ((hc.desk _ _ hm).2 real).index
  refine ⟨fun o => mem_getOrderOfUser hindex, ?_,
    fun hE => orderCancelAll_returns hE hc hm now real u,
    fun reply c' hcall => orderCancelAll_cancels hc hm hcall⟩
  rw [getOrderOfUser_ids hindex]
  exact nodup_keys _

/-- An ask and a bid of alice, and an ask of bob between them. -/
theorem Reachable.orderCancelAll_exact_two : ∃ c m c', Reachable releaseEnv sampleSettings c ∧
    c.markets.find? "ETH_USDT" = some m ∧
    c.orderCancelAll releaseEnv 3 true true ⟨"ETH_USDT"⟩ alice = .ok (.ok (.orderCancelAll 2), c') ∧
    c.CancelsAll true alice "ETH_USDT" m c' := by
  have h : (sampleRun releaseEnv [requestAt 0 bob (depositOf "ETH" 1 "10"),
      requestAt 0 alice (depositOf "ETH" 2 "10"),
      requestAt 0 alice (depositOf "USDT" 3 "1000"),
      requestAt 1 alice (.orderPut (limitOrder .ask "1" "200")),
      requestAt 1 bob (.orderPut (limitOrder .ask "1" "200")),
      requestAt 2 alice (.orderPut (limitOrder .bid "2" "100"))]
      >>= fun c => pure ((c.markets.find? "ETH_USDT").map fun m =>
        (m.getOrderOfUser alice).length)) =
      (.ok (some 2) : Except Panic (Option ℕ)) := by decide +kernel
  simp only [bind_ok, pure_ok, Option.map_eq_some_iff] at h
  obtain ⟨c, hc, m, hm, hlen⟩ := h
  have hreach := sampleRun_reachable hc
  obtain ⟨-, -, hreturns, hexact⟩ := hreach.orderCancelAll_exact hm 3 true alice
  obtain ⟨reply, c', hcall⟩ := hreturns rfl
  obtain ⟨hreply, hcancels⟩ := hexact reply c' hcall
  rw [hlen] at hreply
  exact ⟨c, m, c', hreach, hm, hreply ▸ hcall, hcancels⟩

end Dingir
