import Dingir.Spec.Market

/-!
# The four indexes of a market

`IndexOK m`: `orders`, `users`, `asks` and `bids` hold the same handles. Every
order is found under its own id in `orders`, under its own id in the map of its
own user, under its own key on its own side, and nowhere else.

The per-user maps and the two sides are alike: each files the orders under some
part of them (`Files`). `without` and `withRest` are what `order_finish` and
`insert_order_into_orderbook` do to the indexes. Both keep `IndexOK`, and so
does a change of an order that keeps what the indexes read.
-/

namespace Dingir

open Keyed Outcome

namespace Market

/-- The orders of a user, by id. -/
def userOrders (m : Market) (u : Uuid) : Std.TreeMap ℕ OrderRc := (m.users[u]?).getD ∅

/-- The handle on a side under a price and an id. -/
def sideOrder (m : Market) (k : OrderSide × Decimal) (id : ℕ) : Option OrderRc :=
  match k.1 with
  | .ask => m.asks[(⟨k.2, id⟩ : MarketKeyAsk)]?
  | .bid => m.bids[(⟨k.2, id⟩ : MarketKeyBid)]?

/-- The resting order of an id. -/
def resting (m : Market) (id : ℕ) : Option Order := (m.orders[id]?).map m.rcs.read

variable {α : Type} {E : Env} {m m' : Market} {o : Order} {rc : OrderRc}

/-- The index `g` files the orders under `f`: it holds exactly the handles of
`orders`, each under its own id and the `f` of its order. -/
def Files (m : Market) (f : Order → α) (g : α → ℕ → Option OrderRc) : Prop :=
  ∀ a id rc, g a id = some rc ↔ m.orders[id]? = some rc ∧ f (m.rcs.read rc) = a

/-- The side and price of an order, its key up to the id. -/
def sideKey (o : Order) : OrderSide × Decimal := (o.side, o.price)

/-- **The four indexes agree.** -/
structure IndexOK (m : Market) : Prop where
  alloc : ∀ (id : ℕ) (rc : OrderRc), m.orders[id]? = some rc → rc < m.rcs.next
  ownId : ∀ (id : ℕ) (rc : OrderRc), m.orders[id]? = some rc → (m.rcs.read rc).id = id
  users : m.Files Order.user fun u id => (m.userOrders u)[id]?
  sides : m.Files sideKey m.sideOrder

/-- No order, no entry. -/
structure NoOrders (m : Market) : Prop where
  orders : m.orders = ∅
  users : m.users = ∅
  asks : m.asks = ∅
  bids : m.bids = ∅

theorem reset_noOrders (m : Market) : m.reset.NoOrders := ⟨rfl, rfl, rfl, rfl⟩

theorem NoOrders.indexOK (h : m.NoOrders) : m.IndexOK := by
  obtain ⟨h₁, h₂, h₃, h₄⟩ := h
  refine ⟨by simp [h₁], by simp [h₁], fun u id rc => by simp [userOrders, h₁, h₂], ?_⟩
  rintro ⟨s, p⟩ id rc
  cases s <;> simp [sideOrder, h₁, h₃, h₄]

/-- Handles of different orders differ. -/
theorem IndexOK.id_inj (h : m.IndexOK) {i j : ℕ} (hi : m.orders[i]? = some rc)
    (hj : m.orders[j]? = some rc) : i = j := (h.ownId i rc hi).symm.trans (h.ownId j rc hj)

theorem resting_some {id : ℕ} :
    m.resting id = some o ↔ ∃ rc, m.orders[id]? = some rc ∧ m.rcs.read rc = o := by
  simp [resting]

theorem IndexOK.resting_id (h : m.IndexOK) {id : ℕ} (ho : m.resting id = some o) : o.id = id := by
  obtain ⟨rc, hrc, rfl⟩ := resting_some.1 ho
  exact h.ownId id rc hrc

theorem IndexOK.asks (h : m.IndexOK) (k : MarketKeyAsk) : m.asks[k]? = some rc ↔
    m.orders[k.orderId]? = some rc ∧ (m.rcs.read rc).side = .ask ∧
    (m.rcs.read rc).price = k.orderPrice :=
  (h.sides (.ask, k.orderPrice) k.orderId rc).trans (by simp [sideKey])

theorem IndexOK.bids (h : m.IndexOK) (k : MarketKeyBid) : m.bids[k]? = some rc ↔
    m.orders[k.orderId]? = some rc ∧ (m.rcs.read rc).side = .bid ∧
    (m.rcs.read rc).price = k.orderPrice :=
  (h.sides (.bid, k.orderPrice) k.orderId rc).trans (by simp [sideKey])

/-! ## A change of one order -/

/-- What the indexes read of an order. -/
structure SameKeys (o o' : Order) : Prop where
  id : o'.id = o.id
  user : o'.user = o.user
  side : o'.side = o.side
  price : o'.price = o.price

theorem SameKeys.refl (o : Order) : SameKeys o o := ⟨rfl, rfl, rfl, rfl⟩

/-- The order behind a handle is changed. -/
def withOrder (m : Market) (rc : OrderRc) (o : Order) : Market := { m with rcs := m.rcs.write rc o }

theorem IndexOK.withOrder (h : m.IndexOK) (ho : SameKeys (m.rcs.read rc) o) :
    (m.withOrder rc o).IndexOK := by
  have hread : ∀ r, SameKeys (m.rcs.read r) ((m.withOrder rc o).rcs.read r) := by
    intro r
    show SameKeys _ ((m.rcs.write rc o).read r)
    rw [Heap.write_read]
    split
    · subst_vars; exact ho
    · exact SameKeys.refl _
  refine ⟨h.alloc, fun id r hr => ?_, fun u id r => ?_, fun k id r => ?_⟩
  · rw [(hread r).id]; exact h.ownId id r hr
  · rw [(hread r).user]; exact h.users u id r
  · unfold sideKey
    rw [(hread r).side, (hread r).price]; exact h.sides k id r

theorem resting_withOrder (h : m.IndexOK) (hrc : m.orders[(m.rcs.read rc).id]? = some rc) (id : ℕ) :
    (m.withOrder rc o).resting id = if (m.rcs.read rc).id = id then some o else m.resting id := by
  unfold resting withOrder
  simp only
  split
  · rename_i hid
    rw [← hid, hrc]
    simp
  · rename_i hid
    cases hr : m.orders[id]? with
    | none => rfl
    | some r =>
      have hne : r ≠ rc := by
        rintro rfl
        exact hid (h.id_inj hrc hr)
      simp [Heap.write_read_of_ne _ _ hne]

/-! ## Removal -/

/-- The indexes without an order. -/
def without (m : Market) (o : Order) : Market :=
  { m with
    asks := if o.side = .ask then m.asks.erase o.askKey else m.asks
    bids := if o.side = .ask then m.bids else m.bids.erase o.bidKey
    orders := m.orders.erase o.id
    users := m.users.insert o.user ((m.userOrders o.user).erase o.id) }

@[simp] theorem without_rcs : (m.without o).rcs = m.rcs := rfl

theorem without_orders (id : ℕ) :
    (m.without o).orders[id]? = if o.id = id then none else m.orders[id]? :=
  getElem?_erase _ _ _

theorem without_userOrders (u : Uuid) (id : ℕ) :
    ((m.without o).userOrders u)[id]? = if o.user = u ∧ o.id = id then none
      else (m.userOrders u)[id]? := by
  show ((m.users.insert o.user ((m.userOrders o.user).erase o.id))[u]?.getD ∅)[id]? = _
  rw [getElem?_insert]
  by_cases hu : o.user = u
  · subst hu
    simp only [if_true, Option.getD_some, true_and]
    exact getElem?_erase _ _ _
  · simp only [hu, if_false, false_and]
    rfl

theorem without_sideOrder (k : OrderSide × Decimal) (id : ℕ) :
    (m.without o).sideOrder k id = if sideKey o = k ∧ o.id = id then none
      else m.sideOrder k id := by
  obtain ⟨s, p⟩ := k
  cases s with
  | ask =>
    show (if o.side = .ask then m.asks.erase o.askKey else m.asks)[(⟨p, id⟩ : MarketKeyAsk)]? = _
    cases hs : o.side <;> simp [sideOrder, sideKey, hs, getElem?_erase, Order.askKey]
  | bid =>
    show (if o.side = .ask then m.bids else m.bids.erase o.bidKey)[(⟨p, id⟩ : MarketKeyBid)]? = _
    cases hs : o.side <;> simp [sideOrder, sideKey, hs, getElem?_erase, Order.bidKey]

theorem resting_without (id : ℕ) :
    (m.without o).resting id = if o.id = id then none else m.resting id := by
  unfold resting
  rw [without_orders]
  split <;> rfl

/-- An index that drops the entry of a removed order still files the orders. -/
theorem Files.without {f : Order → α} {g g' : α → ℕ → Option OrderRc} [DecidableEq α]
    (h : m.Files f g) (hrc : m.orders[(m.rcs.read rc).id]? = some rc)
    (hg : ∀ a id,
      g' a id = if f (m.rcs.read rc) = a ∧ (m.rcs.read rc).id = id then none else g a id) :
    (m.without (m.rcs.read rc)).Files f g' := by
  intro a id r
  rw [hg, without_orders, without_rcs]
  by_cases hid : (m.rcs.read rc).id = id
  · rw [if_pos hid]
    by_cases ha : f (m.rcs.read rc) = a
    · simp [ha, hid]
    · rw [if_neg (fun hc => ha hc.1), h a id r, ← hid, hrc]
      constructor
      · rintro ⟨hr, hf⟩
        rw [← Option.some.inj hr] at hf
        exact absurd hf ha
      · rintro ⟨hr, -⟩; exact absurd hr (by simp)
  · rw [if_neg hid, if_neg (fun hc => hid hc.2)]
    exact h a id r

/-- **Removing an order that is there keeps the indexes in agreement.** -/
theorem IndexOK.without (h : m.IndexOK) (hrc : m.orders[(m.rcs.read rc).id]? = some rc) :
    (m.without (m.rcs.read rc)).IndexOK := by
  have hold : ∀ (id : ℕ) (r : OrderRc),
      (m.without (m.rcs.read rc)).orders[id]? = some r → m.orders[id]? = some r := by
    intro id r hr
    rw [without_orders] at hr
    split at hr
    · exact absurd hr (by simp)
    · exact hr
  exact ⟨fun id r hr => h.alloc id r (hold id r hr), fun id r hr => h.ownId id r (hold id r hr),
    h.users.without hrc without_userOrders, h.sides.without hrc without_sideOrder⟩

/-! ## Insertion -/

/-- The indexes with an order in a fresh cell. -/
def withRest (m : Market) (o : Order) : Market :=
  { m with
    rcs := (m.rcs.alloc o).2
    orders := m.orders.insert o.id m.rcs.next
    users := m.users.insert o.user ((m.userOrders o.user).insert o.id m.rcs.next)
    asks := if o.side = .ask then m.asks.insert o.askKey m.rcs.next else m.asks
    bids := if o.side = .ask then m.bids else m.bids.insert o.bidKey m.rcs.next }

theorem withRest_orders (id : ℕ) :
    (m.withRest o).orders[id]? = if o.id = id then some m.rcs.next else m.orders[id]? :=
  getElem?_insert _ _ _ _

theorem withRest_userOrders (u : Uuid) (id : ℕ) : ((m.withRest o).userOrders u)[id]? =
    if o.user = u ∧ o.id = id then some m.rcs.next else (m.userOrders u)[id]? := by
  show ((m.users.insert o.user ((m.userOrders o.user).insert o.id m.rcs.next))[u]?.getD ∅)[id]? = _
  rw [getElem?_insert]
  by_cases hu : o.user = u
  · subst hu
    simp only [if_true, Option.getD_some, true_and]
    exact getElem?_insert _ _ _ _
  · simp only [hu, if_false, false_and]
    rfl

theorem withRest_sideOrder (k : OrderSide × Decimal) (id : ℕ) : (m.withRest o).sideOrder k id =
    if sideKey o = k ∧ o.id = id then some m.rcs.next else m.sideOrder k id := by
  obtain ⟨s, p⟩ := k
  cases s with
  | ask =>
    show (if o.side = .ask then m.asks.insert o.askKey m.rcs.next
      else m.asks)[(⟨p, id⟩ : MarketKeyAsk)]? = _
    cases hs : o.side <;> simp [sideOrder, sideKey, hs, getElem?_insert, Order.askKey]
  | bid =>
    show (if o.side = .ask then m.bids
      else m.bids.insert o.bidKey m.rcs.next)[(⟨p, id⟩ : MarketKeyBid)]? = _
    cases hs : o.side <;> simp [sideOrder, sideKey, hs, getElem?_insert, Order.bidKey]

@[simp] theorem withRest_read_self : (m.withRest o).rcs.read m.rcs.next = o :=
  m.rcs.alloc_read_self o

theorem withRest_read (h : m.IndexOK) {id : ℕ} (hr : m.orders[id]? = some rc) :
    (m.withRest o).rcs.read rc = m.rcs.read rc := m.rcs.alloc_read_of_lt o (h.alloc id rc hr)

theorem resting_withRest (h : m.IndexOK) (id : ℕ) :
    (m.withRest o).resting id = if o.id = id then some o else m.resting id := by
  unfold resting
  rw [withRest_orders]
  split
  · simp
  · cases hr : m.orders[id]? with
    | none => rfl
    | some r => simp [withRest_read h hr]

/-- An index that gains the entry of a new order still files the orders. -/
theorem Files.withRest {f : Order → α} {g g' : α → ℕ → Option OrderRc} [DecidableEq α]
    (h : m.Files f g) (hm : m.IndexOK) (hid : m.orders[o.id]? = none)
    (hg : ∀ a id, g' a id = if f o = a ∧ o.id = id then some m.rcs.next else g a id) :
    (m.withRest o).Files f g' := by
  intro a id r
  rw [hg, withRest_orders]
  by_cases hi : o.id = id
  · subst hi
    have hnone : g a o.id ≠ some r := fun hc => by
      have hr := ((h a o.id r).1 hc).1
      rw [hid] at hr
      exact absurd hr (by simp)
    rw [if_pos rfl, Option.some.injEq]
    by_cases ha : f o = a
    · rw [if_pos ⟨ha, rfl⟩, Option.some.injEq]
      refine ⟨fun hr => ⟨hr, ?_⟩, fun hr => hr.1⟩
      rw [← hr, withRest_read_self]; exact ha
    · rw [if_neg (fun hc => ha hc.1)]
      refine ⟨fun hc => absurd hc hnone, ?_⟩
      rintro ⟨hr, hf⟩
      rw [← hr, withRest_read_self] at hf
      exact absurd hf ha
  · rw [if_neg hi, if_neg (fun hc => hi hc.2), h a id r]
    refine and_congr_right fun hr => ?_
    rw [withRest_read hm hr]

/-- **Inserting an order with a new id keeps the indexes in agreement.** -/
theorem IndexOK.withRest (h : m.IndexOK)
    (hid : m.orders[o.id]? = none) : (m.withRest o).IndexOK := by
  refine ⟨fun id r hr => ?_, fun id r hr => ?_, h.users.withRest h hid withRest_userOrders,
    h.sides.withRest h hid withRest_sideOrder⟩
  all_goals rw [withRest_orders] at hr
  · show r < (m.rcs.alloc o).2.next
    rw [Heap.alloc_next]
    split at hr
    · rw [← Option.some.inj hr]; exact Nat.lt_succ_self _
    · exact (h.alloc id r hr).trans (Nat.lt_succ_self _)
  · split at hr
    · rename_i hi
      rw [← Option.some.inj hr, withRest_read_self]; exact hi
    · rw [withRest_read h hr]; exact h.ownId id r hr

end Market

end Dingir
