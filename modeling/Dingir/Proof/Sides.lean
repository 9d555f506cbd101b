import Dingir.Proof.Match

/-!
# The two sides of a book

The orders of a side come in the order of their priority, best price first and then
by id (`sideOrders_sorted`), and they are the resting orders of the side
(`mem_sideOrders`).
-/

namespace Dingir

open Keyed

variable {m : Market} {o o' : Order} {rc : OrderRc} {side : OrderSide}

/-! ## Priority -/

/-- A price that comes first on a side. -/
def OrderSide.better : OrderSide → Decimal → Decimal → Prop
  | .ask, p, q => p < q
  | .bid, p, q => q < p

theorem OrderSide.better_trans {p q r : Decimal} (h : side.better p q)
    (h' : side.better q r) : side.better p r := by
  cases side with
  | ask => exact h.trans h'
  | bid => exact h'.trans h

theorem OrderSide.not_better_self {p : Decimal} : ¬side.better p p := by
  cases side <;> exact lt_irrefl p

/-- Price, then time. -/
def Order.Ahead (o o' : Order) : Prop :=
  o.side.better o.price o'.price ∨ o.price = o'.price ∧ o.id < o'.id

/-- On one side no two orders are ahead of each other. -/
theorem Order.Ahead.asymm (hs : o.side = o'.side) (h : o.Ahead o') : ¬o'.Ahead o := by
  rintro h'
  unfold Order.Ahead at h h'
  rw [← hs] at h'
  rcases h with hb | ⟨hp, hid⟩ <;> rcases h' with hb' | ⟨hp', hid'⟩
  · exact OrderSide.not_better_self (OrderSide.better_trans hb hb')
  · exact OrderSide.not_better_self (hp' ▸ hb)
  · exact OrderSide.not_better_self (hp ▸ hb')
  · omega

theorem Market.askKey_lt {k k' : MarketKeyAsk} :
    compare k k' = .lt ↔ k.orderPrice < k'.orderPrice ∨ k.orderPrice = k'.orderPrice ∧
      k.orderId < k'.orderId := by
  show (compare k.orderPrice k'.orderPrice).then (compare k.orderId k'.orderId) = .lt ↔ _
  rw [Ordering.then_eq_lt, compare_lt_iff_lt, compare_eq_iff_eq, compare_lt_iff_lt]

theorem Market.bidKey_lt {k k' : MarketKeyBid} :
    compare k k' = .lt ↔ k'.orderPrice < k.orderPrice ∨ k.orderPrice = k'.orderPrice ∧
      k.orderId < k'.orderId := by
  show (compare k.orderPrice k'.orderPrice).swap.then (compare k.orderId k'.orderId) = .lt ↔ _
  rw [Ordering.then_eq_lt, Ordering.swap_eq_lt, compare_gt_iff_gt, Ordering.swap_eq_eq,
    compare_eq_iff_eq, compare_lt_iff_lt]

namespace Market

/-- The handles of a side, in the order of its keys. -/
def sideHandles (m : Market) : OrderSide → List OrderRc
  | .ask => values m.asks
  | .bid => values m.bids

/-- The orders of a side, in the order of its keys. -/
def sideOrders (m : Market) (side : OrderSide) : List Order := (m.sideHandles side).map m.rcs.read

theorem mem_sideHandles (h : m.IndexOK) :
    rc ∈ m.sideHandles side ↔ m.orders[(m.rcs.read rc).id]? = some rc ∧
      (m.rcs.read rc).side = side := by
  cases side with
  | ask =>
    rw [sideHandles, mem_values]
    constructor
    · rintro ⟨k, hk⟩
      obtain ⟨ho, hs, -⟩ := (h.asks k).1 hk
      exact ⟨by rw [h.ownId _ _ ho]; exact ho, hs⟩
    · rintro ⟨ho, hs⟩
      exact ⟨⟨(m.rcs.read rc).price, (m.rcs.read rc).id⟩, (h.asks _).2 ⟨ho, hs, rfl⟩⟩
  | bid =>
    rw [sideHandles, mem_values]
    constructor
    · rintro ⟨k, hk⟩
      obtain ⟨ho, hs, -⟩ := (h.bids k).1 hk
      exact ⟨by rw [h.ownId _ _ ho]; exact ho, hs⟩
    · rintro ⟨ho, hs⟩
      exact ⟨⟨(m.rcs.read rc).price, (m.rcs.read rc).id⟩, (h.bids _).2 ⟨ho, hs, rfl⟩⟩

/-- **The resting orders of a side.** -/
theorem mem_sideOrders (h : m.IndexOK) :
    o ∈ m.sideOrders side ↔ m.resting o.id = some o ∧ o.side = side := by
  rw [sideOrders, List.mem_map, resting_some]
  constructor
  · rintro ⟨rc, hrc, rfl⟩
    obtain ⟨ho, hs⟩ := (mem_sideHandles h).1 hrc
    exact ⟨⟨rc, ho, rfl⟩, hs⟩
  · rintro ⟨⟨rc, ho, rfl⟩, hs⟩
    exact ⟨rc, (mem_sideHandles h).2 ⟨ho, hs⟩, rfl⟩

/-- The handles of a side stand by price, then by id. -/
theorem sideHandles_sorted (h : m.IndexOK) (side : OrderSide) :
    (m.sideHandles side).Pairwise fun r r' => (m.rcs.read r).Ahead (m.rcs.read r') := by
  cases side with
  | ask =>
    rw [sideHandles, values, List.pairwise_map]
    refine (Std.TreeMap.ordered_keys_toList (t := m.asks)).imp_of_mem fun {e e'} he he' hlt => ?_
    obtain ⟨ho, hs, hp⟩ := (h.asks e.1).1 (Std.TreeMap.mem_toList_iff_getElem?_eq_some.1 he)
    obtain ⟨ho', -, hp'⟩ := (h.asks e'.1).1 (Std.TreeMap.mem_toList_iff_getElem?_eq_some.1 he')
    unfold Order.Ahead
    rw [hs, hp, hp', h.ownId _ _ ho, h.ownId _ _ ho']
    exact askKey_lt.1 hlt
  | bid =>
    rw [sideHandles, values, List.pairwise_map]
    refine (Std.TreeMap.ordered_keys_toList (t := m.bids)).imp_of_mem fun {e e'} he he' hlt => ?_
    obtain ⟨ho, hs, hp⟩ := (h.bids e.1).1 (Std.TreeMap.mem_toList_iff_getElem?_eq_some.1 he)
    obtain ⟨ho', -, hp'⟩ := (h.bids e'.1).1 (Std.TreeMap.mem_toList_iff_getElem?_eq_some.1 he')
    unfold Order.Ahead
    rw [hs, hp, hp', h.ownId _ _ ho, h.ownId _ _ ho']
    exact bidKey_lt.1 hlt

/-- **The orders of a side stand by price, then by id.** -/
theorem sideOrders_sorted (h : m.IndexOK) (side : OrderSide) :
    (m.sideOrders side).Pairwise Order.Ahead :=
  List.pairwise_map.2 (sideHandles_sorted h side)

theorem sideOrders_nodup (h : m.IndexOK) (side : OrderSide) : (m.sideOrders side).Nodup := by
  refine (sideOrders_sorted h side).imp fun {o o'} hahead heq => ?_
  subst heq
  rcases hahead with hbetter | ⟨-, hid⟩
  · exact OrderSide.not_better_self hbetter
  · exact lt_irrefl _ hid

/-- What a taker tries is the other side. -/
theorem counterOrders_eq (m : Market) (taker : Order) :
    m.counterOrders taker = m.sideHandles (if taker.isAsk then .bid else .ask) := by
  unfold counterOrders sideHandles
  split <;> rfl

end Market

end Dingir
