import Dingir.Lib.Lockstep
import Dingir.Proof.Replay
import Dingir.Spec.Sample

/-!
# Handles do not show

An order is reached through a handle, and a balance through a hash map. Neither the number of a
handle nor the order of the entries shows outside: two controllers with the same books
(`Controller.Agrees`) run every call in lockstep. They give the same reply, write the same log, hand
over the same messages and panic alike, and have the same books again: `Controller.call_agrees`, and
for a run of calls **`Controller.calls_agree`**.

The handles of two markets are paired (`Market.Paired`); what rests later gets the next handle of
either side.
-/

namespace Dingir

open Keyed Outcome Market

variable {E : Env} {now : Timestamp} {real : Bool} {u : Uuid} {P : OrderRc → OrderRc → Prop}
  {bm bm' : BalanceManager} {x x' y : Ctx} {m m' : Market} {o : Order} {rc rc' : OrderRc}
  {t : Trade} {b c r : Controller}

theorem isSome_of_rel {α β : Type} {R : α → β → Prop} {v : Option α} {w : Option β}
    (h : Option.Rel R v w) : w.isSome = v.isSome := by
  cases h <;> rfl

theorem rel_swap {α β : Type} {R : α → β → Prop} {S : β → α → Prop} {v : Option α} {w : Option β}
    (h : Option.Rel R v w) (hS : ∀ a b, R a b → S b a) : Option.Rel S w v := by
  cases h with
  | some hab => exact .some (hS _ _ hab)
  | none => exact .none

theorem rel_trans {α β γ : Type} {R : α → β → Prop} {S : β → γ → Prop} {T : α → γ → Prop}
    {v : Option α} {w : Option β} {z : Option γ} (h : Option.Rel R v w) (h' : Option.Rel S w z)
    (hRS : ∀ a b c, R a b → S b c → T a c) : Option.Rel T v z := by
  cases h with
  | none =>
    cases h' with
    | none => exact .none
  | some hR =>
    cases h' with
    | some hS => exact .some (hRS _ _ _ hR hS)

/-! ## Balances -/

/-- The same assets and the same balances. -/
structure BalanceManager.Agrees (bm bm' : BalanceManager) : Prop where
  assets : bm'.assetManager = bm.assetManager
  balances : ∀ k, bm'.getByKey k = bm.getByKey k

namespace BalanceManager.Agrees

theorem refl (bm : BalanceManager) : bm.Agrees bm := ⟨rfl, fun _ => rfl⟩

theorem symm (h : bm.Agrees bm') : bm'.Agrees bm := ⟨h.assets.symm, fun k => (h.balances k).symm⟩

theorem get (h : bm.Agrees bm') (u : Uuid) (t : BalanceType) (a : String) :
    bm'.get u t a = bm.get u t a := h.balances _

theorem total (h : bm.Agrees bm') (u : Uuid) (a : String) : bm'.total u a = bm.total u a := by
  simp only [BalanceManager.total, h.get]

theorem setByKey (h : bm.Agrees bm') (k : BalanceMapKey) (v : Decimal) :
    Lockstep BalanceManager.Agrees (bm.setByKey E k v) (bm'.setByKey E k v) := by
  unfold BalanceManager.setByKey
  rw [h.assets]
  refine .bind_same rfl fun _ _ => .bind_same rfl fun prec _ => .pure ⟨rfl, fun a => ?_⟩
  simp only [BalanceManager.getByKey, find?_insert]
  split
  · rfl
  · exact h.balances a

/-- The value an operation reports, and the balances it leaves. -/
def Reports (a b : Decimal × BalanceManager) : Prop := b.1 = a.1 ∧ a.2.Agrees b.2

theorem add (h : bm.Agrees bm') (u : Uuid) (t : BalanceType) (a : String) (v : Decimal) :
    Lockstep Reports (bm.add E u t a v) (bm'.add E u t a v) := by
  simp only [BalanceManager.add, h.assets, h.balances]
  exact .bind_same rfl fun _ _ => .bind_same rfl fun _ _ =>
    (h.setByKey _ _).bind fun _ _ _ _ hset => .pure ⟨rfl, hset⟩

theorem sub (h : bm.Agrees bm') (u : Uuid) (t : BalanceType) (a : String) (v : Decimal) :
    Lockstep Reports (bm.sub E u t a v) (bm'.sub E u t a v) := by
  simp only [BalanceManager.sub, h.assets, h.balances]
  refine .bind_same rfl fun _ _ => .bind_same rfl fun _ _ => .bind_same rfl fun _ _ =>
    .bind_same rfl fun _ _ => ?_
  exact (h.setByKey _ _).bind fun _ _ _ _ hset => .pure ⟨rfl, hset⟩

theorem frozen (h : bm.Agrees bm') (u : Uuid) (a : String) (v : Decimal) :
    Lockstep BalanceManager.Agrees (bm.frozen E u a v) (bm'.frozen E u a v) := by
  simp only [BalanceManager.frozen, h.assets, h.balances]
  refine .bind_same rfl fun _ _ => .bind_same rfl fun _ _ => .bind_same rfl fun _ _ => ?_
  exact (h.sub _ _ _ _).bind fun _ _ _ _ hsub => (hsub.2.add _ _ _ _).bind fun _ _ _ _ hadd =>
    .pure hadd.2

theorem unfrozen (h : bm.Agrees bm') (u : Uuid) (a : String) (v : Decimal) :
    Lockstep BalanceManager.Agrees (bm.unfrozen E u a v) (bm'.unfrozen E u a v) := by
  simp only [BalanceManager.unfrozen, h.assets, h.balances]
  refine .bind_same rfl fun _ _ => .bind_same rfl fun _ _ => .bind_same rfl fun _ _ => ?_
  exact (h.add _ _ _ _).bind fun _ _ _ _ hadd => (hadd.2.sub _ _ _ _).bind fun _ _ _ _ hsub =>
    .pure hsub.2

theorem applyChange (h : bm.Agrees bm') (p : BalanceUpdateParams) :
    Lockstep (Lockstep BalanceManager.Agrees) (applyChange E bm p)
    (Dingir.applyChange E bm' p) := by
  simp only [Dingir.applyChange, h.get]
  split
  · exact (h.add _ _ _ _).bind fun _ _ _ _ hadd => .pure (.go hadd.2)
  · split
    · exact .pure (.stop _)
    · exact (h.sub _ _ _ _).bind fun _ _ _ _ hsub => .pure (.go hsub.2)

theorem persistUpdate (h : bm.Agrees bm') (pe : PersistExector) (p : BalanceUpdateParams) :
    persistUpdate E now bm' pe p = Dingir.persistUpdate E now bm pe p := by
  simp only [Dingir.persistUpdate, h.get]

theorem tradeState (h : bm.Agrees bm') (ask bid : Order) (base quote : String) :
    getTradeState ask bid bm' base quote = getTradeState ask bid bm base quote := by
  simp only [getTradeState, h.total]

end BalanceManager.Agrees

/-- The same balances, counters, filter and messages. -/
structure Ctx.Agrees (x y : Ctx) : Prop where
  sequencer : y.sequencer = x.sequencer
  balances : x.balanceManager.Agrees y.balanceManager
  filter : y.updateController = x.updateController
  persistor : y.persistor = x.persistor

namespace Ctx.Agrees

theorem symm (h : x.Agrees y) : y.Agrees x :=
  ⟨h.sequencer.symm, h.balances.symm, h.filter.symm, h.persistor.symm⟩

theorem updateUserBalance (h : x.Agrees y) (p : BalanceUpdateParams) :
    Lockstep (fun a b : Except String Unit × Ctx => b.1 = a.1 ∧ a.2.Agrees b.2)
    (updateUserBalance E now x p)
      (Dingir.updateUserBalance E now y p) := by
  unfold Dingir.updateUserBalance
  rw [h.filter, h.persistor]
  split
  · exact .pure ⟨rfl, h⟩
  · refine (h.balances.applyChange p).bind fun res res' _ _ hres => ?_
    cases hres with
    | stop e => exact .pure ⟨rfl, h⟩
    | go hbm =>
      refine .bind_same (hbm.persistUpdate _ _) fun pe _ => .pure ⟨rfl, ?_⟩
      exact ⟨h.sequencer, hbm, rfl, rfl⟩

end Ctx.Agrees

/-! ## Markets -/

/-- **The same market**, the handles of its orders paired by `P`. -/
structure Market.Paired (P : OrderRc → OrderRc → Prop) (m m' : Market) : Prop where
  terms : m.SameTerms m'
  price : m'.price = m.price
  tradeCount : m'.tradeCount = m.tradeCount
  unique : Relator.BiUnique P
  given : ∀ rc rc', P rc rc' → rc < m.rcs.next ∧ rc' < m'.rcs.next
  reads : ∀ rc rc', P rc rc' → m'.rcs.read rc' = m.rcs.read rc
  orders : ∀ id : ℕ, Option.Rel P m.orders[id]? m'.orders[id]?
  users : ∀ u (id : ℕ), Option.Rel P (m.userOrders u)[id]? (m'.userOrders u)[id]?
  sides : ∀ k id, Option.Rel P (m.sideOrder k id) (m'.sideOrder k id)

/-- The same market, under whatever handles. -/
def Market.Agrees (m m' : Market) : Prop := ∃ P, Paired P m m'

/-- What happens to the orders of two markets leaves their terms the same. -/
theorem Market.SameTerms.moved {m₁ m₁' : Market} (h : m.SameTerms m') (h₁ : m.SameTerms m₁)
    (h₁' : m'.SameTerms m₁') : m₁.SameTerms m₁' := h₁.symm.trans (h.trans h₁')

namespace Market.Paired

theorem symm (h : Paired P m m') : Paired (fun rc' rc => P rc rc') m' m := by
  have hflip : ∀ {v w : Option OrderRc}, Option.Rel P v w →
      Option.Rel (fun rc' rc => P rc rc') w v :=
    fun hvw => rel_swap hvw fun _ _ hP => hP
  exact ⟨h.terms.symm, h.price.symm, h.tradeCount.symm,
    ⟨fun _ _ _ h₁ h₂ => h.unique.2 h₁ h₂, fun _ _ _ h₁ h₂ => h.unique.1 h₁ h₂⟩,
    fun rc' rc hP => (h.given rc rc' hP).symm,
    fun rc' rc hP => (h.reads rc rc' hP).symm, fun id => hflip (h.orders id),
    fun u id => hflip (h.users u id),
    fun k id => hflip (h.sides k id)⟩

theorem resting (h : Paired P m m') (id : ℕ) : m'.resting id = m.resting id := by
  have hid := h.orders id
  unfold Market.resting
  generalize m.orders[id]? = v at hid ⊢
  generalize m'.orders[id]? = w at hid ⊢
  cases hid with
  | none => rfl
  | some hP => exact congrArg some (h.reads _ _ hP)

/-- An order leaves both. -/
theorem without (h : Paired P m m') (o : Order) : Paired P (m.without o) (m'.without o) := by
  have hdrop : ∀ {p : Prop} [Decidable p] {v w : Option OrderRc}, Option.Rel P v w →
      Option.Rel P (if p then none else v) (if p then none else w) := by
    intro p _ v w hvw
    split
    · exact .none
    · exact hvw
  refine ⟨h.terms.moved ⟨rfl, rfl, rfl, rfl, rfl, rfl, rfl, rfl, rfl, rfl, rfl⟩
    ⟨rfl, rfl, rfl, rfl, rfl, rfl, rfl, rfl, rfl, rfl, rfl⟩, h.price, h.tradeCount, h.unique,
    h.given, h.reads, fun id => ?_, fun u id => ?_, fun k id => ?_⟩
  · rw [without_orders, without_orders]
    exact hdrop (h.orders id)
  · rw [without_userOrders, without_userOrders]
    exact hdrop (h.users u id)
  · rw [without_sideOrder, without_sideOrder]
    exact hdrop (h.sides k id)

/-- An order comes to rest in both. -/
theorem withRest (h : Paired P m m') (o : Order) :
    Paired (fun rc rc' => P rc rc' ∨ rc = m.rcs.next ∧ rc' = m'.rcs.next) (m.withRest o)
    (m'.withRest o) := by
  have hput : ∀ {p : Prop} [Decidable p] {v w : Option OrderRc}, Option.Rel P v w →
      Option.Rel (fun rc rc' => P rc rc' ∨ rc = m.rcs.next ∧
        rc' = m'.rcs.next) (if p then some m.rcs.next else v)
        (if p then some m'.rcs.next else w) := by
    intro p _ v w hvw
    split
    · exact .some (.inr ⟨rfl, rfl⟩)
    · cases hvw with
      | none => exact .none
      | some hP => exact .some (.inl hP)
  refine ⟨h.terms.moved ⟨rfl, rfl, rfl, rfl, rfl, rfl, rfl, rfl, rfl, rfl, rfl⟩
    ⟨rfl, rfl, rfl, rfl, rfl, rfl, rfl, rfl, rfl, rfl, rfl⟩, h.price, h.tradeCount, ⟨?_, ?_⟩, ?_,
    ?_, fun id => ?_, fun u id => ?_, fun k id => ?_⟩
  · intro r₁ r₂ r' h₁ h₂
    rcases h₁ with h₁ | ⟨rfl, rfl⟩
    · rcases h₂ with h₂ | ⟨rfl, rfl⟩
      · exact h.unique.1 h₁ h₂
      · exact (lt_irrefl _ (h.given _ _ h₁).2).elim
    · rcases h₂ with h₂ | ⟨h₂, -⟩
      · exact (lt_irrefl _ (h.given _ _ h₂).2).elim
      · exact h₂.symm
  · intro r' r₁ r₂ h₁ h₂
    rcases h₁ with h₁ | ⟨rfl, rfl⟩
    · rcases h₂ with h₂ | ⟨rfl, rfl⟩
      · exact h.unique.2 h₁ h₂
      · exact (lt_irrefl _ (h.given _ _ h₁).1).elim
    · rcases h₂ with h₂ | ⟨-, h₂⟩
      · exact (lt_irrefl _ (h.given _ _ h₂).1).elim
      · exact h₂.symm
  · rintro rc rc' (hP | ⟨rfl, rfl⟩)
    · exact ⟨Nat.lt_succ_of_lt (h.given _ _ hP).1, Nat.lt_succ_of_lt (h.given _ _ hP).2⟩
    · exact ⟨Nat.lt_succ_self _, Nat.lt_succ_self _⟩
  · rintro rc rc' (hP | ⟨rfl, rfl⟩)
    · have hgiven := h.given _ _ hP
      show (m'.rcs.alloc o).2.read rc' = (m.rcs.alloc o).2.read rc
      rw [m.rcs.alloc_read_of_lt o hgiven.1, m'.rcs.alloc_read_of_lt o hgiven.2]
      exact h.reads _ _ hP
    · rw [withRest_read_self, withRest_read_self]
  · rw [withRest_orders, withRest_orders]
    exact hput (h.orders id)
  · rw [withRest_userOrders, withRest_userOrders]
    exact hput (h.users u id)
  · rw [withRest_sideOrder, withRest_sideOrder]
    exact hput (h.sides k id)

/-- A trade is written through paired handles. -/
theorem afterTrade (h : Paired P m m') (hP : P rc rc') (o : Order) (price : Decimal) :
    Paired P (m.afterTrade rc o price) (m'.afterTrade rc' o price) := by
  refine ⟨h.terms.moved ⟨rfl, rfl, rfl, rfl, rfl, rfl, rfl, rfl, rfl, rfl, rfl⟩
    ⟨rfl, rfl, rfl, rfl, rfl, rfl, rfl, rfl, rfl, rfl, rfl⟩, rfl, congrArg (· + 1) h.tradeCount,
    h.unique, h.given, fun s s' hs => ?_, h.orders, h.users, h.sides⟩
  show (m'.rcs.write rc' o).read s' = (m.rcs.write rc o).read s
  rw [Heap.write_read, Heap.write_read]
  by_cases he : s = rc
  · subst he
    rw [if_pos rfl, if_pos (h.unique.2 hs hP)]
  · rw [if_neg he, if_neg]
    · exact h.reads _ _ hs
    · rintro rfl
      exact he (h.unique.1 hs hP)

theorem asks (h : Paired P m m') (k : MarketKeyAsk) : Option.Rel P m.asks[k]? m'.asks[k]? :=
  h.sides (.ask, k.orderPrice) k.orderId

theorem bids (h : Paired P m m') (k : MarketKeyBid) : Option.Rel P m.bids[k]? m'.bids[k]? :=
  h.sides (.bid, k.orderPrice) k.orderId

/-- Both go through the same makers. -/
theorem counterOrders (h : Paired P m m') (taker : Order) :
    List.Forall₂ P (m.counterOrders taker) (m'.counterOrders taker) := by
  unfold Market.counterOrders
  split
  · exact values_forall₂ h.bids
  · exact values_forall₂ h.asks

/-- The ids of the orders of a user. -/
theorem userIds (h : Paired P m m') (u : Uuid) :
    (m'.userOrders u).toList.map Prod.fst = (m.userOrders u).toList.map Prod.fst :=
  keys_eq fun id => isSome_of_rel (h.users u id)

theorem getOrderNumOfUser (h : Paired P m m') (u : Uuid) :
    m'.getOrderNumOfUser u = m.getOrderNumOfUser u := by
  have hlength := congrArg List.length (h.userIds u)
  rwa [List.length_map, List.length_map] at hlength

end Market.Paired

/-! ## The methods of a market in lockstep -/

namespace Market

/-- A market and what it borrows, after a method. -/
def Leaves (P : OrderRc → OrderRc → Prop) (a b : Market × Ctx) : Prop :=
  Paired P a.1 b.1 ∧ a.2.Agrees b.2

/-- `order_finish` of an order whose user has a map. -/
theorem orderFinish_eq (hu : (m.users[o.user]?).isSome) : m.orderFinish E x o = (do
    let _ ← (if o.side = .ask then E.debugAssert .lookup (o.askKey ∈ m.asks)
      else E.debugAssert .lookup (o.bidKey ∈ m.bids))
    let bm ← m.unfrozenBalance E x.balanceManager o
    E.debugAssert .lookup (o.id ∈ m.orders)
    E.debugAssert .lookup (o.id ∈ m.userOrders o.user)
    return (m.without o,
      { x with balanceManager := bm, persistor := x.persistor.putOrder o .finish })) := by
  obtain ⟨users, hu⟩ := Option.isSome_iff_exists.1 hu
  have husers : m.userOrders o.user = users := by simp [userOrders, hu]
  unfold orderFinish removeFromSide without
  by_cases hs : o.side = .ask
  · simp only [if_pos hs, bind_assoc, pure_bind, hu, husers, unwrap_some]
    rfl
  · simp only [if_neg hs, bind_assoc, pure_bind, hu, husers, unwrap_some]
    rfl

theorem insertOrder_eq : m.insertOrderIntoOrderbook E o = (do
    E.debugAssert .debugAssert (o.type_ = .limit)
    E.debugAssert .lookup (o.id ∉ m.orders)
    E.debugAssert .lookup (o.id ∉ m.userOrders o.user)
    let _ ← (if o.side = .ask then E.debugAssert .lookup (o.askKey ∉ m.asks)
      else E.debugAssert .lookup (o.bidKey ∉ m.bids))
    return (o.rested, m.withRest o.rested)) := by
  have hread : (m.rcs.alloc o.rested).2.read m.rcs.next = o.rested := m.rcs.alloc_read_self _
  unfold insertOrderIntoOrderbook withRest
  by_cases hs : o.side = .ask
  · have hs' : o.rested.side = .ask := hs
    simp only [if_pos hs, if_pos hs', Heap.alloc_fst, hread]
    rfl
  · have hs' : ¬ o.rested.side = .ask := hs
    simp only [if_neg hs, if_neg hs', Heap.alloc_fst, hread]
    rfl

theorem deep_eq (id : ℕ) : m.deep id = unwrap .lookup (m.resting id) := by
  unfold deep resting
  cases m.orders[id]? <;> rfl

/-- A resting order is in the map of its user. -/
theorem IndexOK.inUsers (h : m.IndexOK) {id : ℕ} (ho : m.resting id = some o) :
    ((m.userOrders o.user)[o.id]?).isSome := by
  obtain ⟨rc, hrc, rfl⟩ := resting_some.1 ho
  have hid := h.ownId id rc hrc
  have huser : (m.userOrders (m.rcs.read rc).user)[id]? = some rc := (h.users _ _ _).2 ⟨hrc, rfl⟩
  rw [hid, huser]
  rfl

namespace Paired

theorem payAsset (h : Paired P m m') (o : Order) : m'.payAsset o = m.payAsset o := by
  unfold Market.payAsset
  rw [h.terms.base, h.terms.quote]

theorem deep (h : Paired P m m') (id : ℕ) : m'.deep id = m.deep id := by
  rw [deep_eq, deep_eq, h.resting]

theorem unfrozenBalance (h : Paired P m m') (hbm : bm.Agrees bm') (o : Order) :
    Lockstep BalanceManager.Agrees (m.unfrozenBalance E bm o) (m'.unfrozenBalance E bm' o) := by
  unfold Market.unfrozenBalance
  rw [h.payAsset]
  exact .bind_same rfl fun _ _ => .ite (fun _ => .pure hbm) fun _ => hbm.unfrozen _ _ _

theorem sideAssert (h : Paired P m m') (o : Order) :
    (if o.side = .ask then E.debugAssert .lookup (o.askKey ∈ m'.asks)
      else E.debugAssert .lookup (o.bidKey ∈ m'.bids)) =
      if o.side = .ask then E.debugAssert .lookup (o.askKey ∈ m.asks)
      else E.debugAssert .lookup (o.bidKey ∈ m.bids) := by
  split
  · exact debugAssert_congr
      (by simp only [Std.TreeMap.mem_iff_isSome_getElem?, isSome_of_rel (h.asks _)])
  · exact debugAssert_congr
      (by simp only [Std.TreeMap.mem_iff_isSome_getElem?, isSome_of_rel (h.bids _)])

theorem orderFinish (h : Paired P m m') (hx : x.Agrees y)
    (hstored : ((m.userOrders o.user)[o.id]?).isSome) :
    Lockstep (Leaves P) (m.orderFinish E x o) (m'.orderFinish E y o) := by
  have husers : ∀ {m : Market}, ((m.userOrders o.user)[o.id]?).isSome →
      (m.users[o.user]?).isSome := by
    intro m hm
    unfold userOrders at hm
    cases hu : m.users[o.user]? with
    | none => simp [hu] at hm
    | some _ => rfl
  rw [orderFinish_eq (husers hstored),
    orderFinish_eq (husers ((isSome_of_rel (h.users _ _)).trans hstored))]
  refine .bind_same (h.sideAssert o) fun _ _ =>
    (h.unfrozenBalance hx.balances o).bind fun bm₁ bm₁' _ _ hbm => ?_
  refine .bind_same (debugAssert_congr ?_) fun _ _ => .bind_same (debugAssert_congr ?_) fun _ _ =>
    .pure ⟨h.without o, ?_⟩
  · simp only [Std.TreeMap.mem_iff_isSome_getElem?, isSome_of_rel (h.orders _)]
  · simp only [Std.TreeMap.mem_iff_isSome_getElem?, isSome_of_rel (h.users _ _)]
  · exact ⟨hx.sequencer, hbm, hx.filter, by rw [hx.persistor]⟩

theorem insertOrder (h : Paired P m m') (o : Order) :
    Lockstep (fun a b : Order × Market => b.1 = a.1 ∧ a.2.Agrees b.2)
    (m.insertOrderIntoOrderbook E o)
      (m'.insertOrderIntoOrderbook E o) := by
  rw [insertOrder_eq, insertOrder_eq]
  refine .bind_same rfl fun _ _ => .bind_same (debugAssert_congr ?_) fun _ _ =>
    .bind_same (debugAssert_congr ?_) fun _ _ => ?_
  · simp only [Std.TreeMap.mem_iff_isSome_getElem?, isSome_of_rel (h.orders _)]
  · simp only [Std.TreeMap.mem_iff_isSome_getElem?, isSome_of_rel (h.users _ _)]
  · refine .bind_same ?_ fun _ _ => .pure ⟨rfl, _, h.withRest o.rested⟩
    split
    · exact debugAssert_congr
        (by simp only [Std.TreeMap.mem_iff_isSome_getElem?, isSome_of_rel (h.asks _)])
    · exact debugAssert_congr
        (by simp only [Std.TreeMap.mem_iff_isSome_getElem?, isSome_of_rel (h.bids _)])

theorem cancel (h : Paired P m m') (hm : m.IndexOK) (hx : x.Agrees y) (id : ℕ) :
    Lockstep (fun a b : Order × Market × Ctx => b.1 = a.1 ∧ Leaves P a.2 b.2) (m.cancel E x id)
    (m'.cancel E y id) := by
  unfold Market.cancel
  refine .bind_same (h.deep id) fun o ho => ?_
  rw [deep_eq, unwrap_ok] at ho
  exact (h.orderFinish hx (hm.inUsers ho)).bind fun _ _ _ _ hleaves => .pure ⟨rfl, hleaves⟩

theorem cancelAllForUser (h : Paired P m m') (hm : m.IndexOK) (hx : x.Agrees y) (u : Uuid) :
    Lockstep (fun a b : ℕ × Market × Ctx => b.1 = a.1 ∧ Leaves P a.2 b.2) (m.cancelAllForUser E x u)
      (m'.cancelAllForUser E y u) := by
  unfold Market.cancelAllForUser
  rw [show ((m'.users[u]?).getD ∅).toList.map Prod.fst =
    ((m.users[u]?).getD ∅).toList.map Prod.fst from h.userIds u]
  refine Lockstep.bind (R := fun a b : Market × Ctx => a.1.IndexOK ∧
    Leaves P a b) ?_ fun a b _ _ hab => .pure ⟨rfl, hab.2⟩
  refine Lockstep.foldlM (R := fun _ (a b : Market × Ctx) => a.1.IndexOK ∧
    Leaves P a b) ?_ _ _ _ ⟨hm, h, hx⟩
  rintro id ids ⟨m₁, x₁⟩ ⟨m₁', y₁⟩ ⟨hindex, hpaired, hagrees⟩
  refine .bind_same (hpaired.deep id) fun o ho => ?_
  rw [deep_eq, unwrap_ok] at ho
  have hfinish := hpaired.orderFinish (E := E) hagrees (hindex.inUsers ho)
  -- the order that goes is in the indexes
  obtain ⟨rc, hrc, rfl⟩ := resting_some.1 ho
  have hfiled :
      m₁.orders[(m₁.rcs.read rc).id]? = some rc := by rw [hindex.ownId id rc hrc]; exact hrc
  generalize hfin : m₁.orderFinish E x₁ (m₁.rcs.read rc) = res at hfinish ⊢
  generalize m₁'.orderFinish E y₁ (m₁.rcs.read rc) = res' at hfinish ⊢
  cases hfinish with
  | stop e => exact .stop e
  | @go a b hab =>
    obtain ⟨hwithout, -⟩ := orderFinish_ok hfin
    refine .go ⟨?_, hab⟩
    rw [hwithout]
    exact hindex.without hfiled

theorem frozenBalance (h : Paired P m m') (hbm : bm.Agrees bm') (o : Order) :
    Lockstep BalanceManager.Agrees (m.frozenBalance E bm o) (m'.frozenBalance E bm' o) := by
  unfold Market.frozenBalance
  rw [h.payAsset]
  exact hbm.frozen _ _ _

/-! ### Matching -/

theorem createTrade (h : Paired P m m') (id : ℕ) (taker maker : Order) (amount : Decimal) :
    createTrade now m' id taker maker amount = Market.createTrade now m id taker maker amount := by
  unfold Market.createTrade
  rw [h.terms.name, h.terms.base, h.terms.quote, h.terms.quotePrec, h.terms.basePrec]

theorem settleOne (h : Paired P m m') (hx : x.Agrees y) (id : ℕ) (t : BalanceType) (u : Uuid)
    (a : String) (change : Decimal) :
    Lockstep Ctx.Agrees (settleOne E now x m id t u a change)
    (Market.settleOne E now y m' id t u a change) := by
  unfold Market.settleOne
  rw [h.price]
  refine (hx.updateUserBalance _).bind ?_
  rintro ⟨res, x₁⟩ ⟨res', y₁⟩ - - ⟨hres, hx₁⟩
  obtain rfl : res' = res := hres
  cases res' with
  | error e => exact .stop _
  | ok _ => exact .pure hx₁

theorem settle (h : Paired P m m') (hx : x.Agrees y) (takerIsAsk : Bool) (t : Trade) :
    Lockstep Ctx.Agrees (settle E now x m takerIsAsk t)
    (Market.settle E now y m' takerIsAsk t) := by
  unfold Market.settle
  rw [h.terms.base, h.terms.quote]
  refine (h.settleOne hx _ _ _ _ _).bind fun _ _ _ _ hx =>
    (h.settleOne hx _ _ _ _ _).bind fun _ _ _ _ hx => ?_
  exact (h.settleOne hx _ _ _ _ _).bind fun _ _ _ _ hx => h.settleOne hx _ _ _ _ _

end Paired

/-- The loop at the same point, with the handles paired. -/
structure MatchState.Paired (P : OrderRc → OrderRc → Prop) (s t : MatchState) : Prop where
  market : Market.Paired P s.market t.market
  ctx : s.ctx.Agrees t.ctx
  taker : t.taker = s.taker
  quoteSum : t.quoteSum = s.quoteSum
  finished : t.finishedOrders = s.finishedOrders
  needCancel : t.needCancel = s.needCancel

namespace MatchState.Paired

variable {s s' : MatchState} {ql : Decimal}

theorem tradedBaseAmount (h : Market.Paired P m m') (taker ask bid : Order)
    (price ql qs : Decimal) :
    m'.tradedBaseAmount taker ask bid price ql qs =
      m.tradedBaseAmount taker ask bid price ql qs := by
  unfold Market.tradedBaseAmount
  rw [h.terms.amountPrec]

theorem executeTrade (h : Paired P s s') (hP : P rc rc') (amount : Decimal) :
    Lockstep (Paired P) (executeTrade E now ql rc amount s)
    (Market.executeTrade E now ql rc' amount s') := by
  obtain ⟨m, x, taker, qs, fin, nc⟩ := s
  obtain ⟨m', y, taker', qs', fin', nc'⟩ := s'
  obtain ⟨hm, hx, htaker, hqs, hfin, hnc⟩ := h
  dsimp only at hm hx htaker hqs hfin hnc
  subst htaker hqs hfin hnc
  unfold Market.executeTrade
  simp only [hm.reads _ _ hP, hx.sequencer, hm.createTrade, hm.terms.disableSelfTrade,
    hm.terms.base, hm.terms.quote,
    hx.balances.tradeState]
  refine .bind_same rfl fun _ _ => .bind_same rfl fun _ _ => .bind_same rfl fun _ _ =>
    .bind_same rfl fun _ _ => ?_
  refine .bind_same rfl fun _ _ => .bind_same rfl fun _ _ => ?_
  have hnext : ∀ sq : Sequencer, Ctx.Agrees { x with sequencer := sq } { y with sequencer := sq } :=
    fun _ => ⟨rfl, hx.balances, hx.filter, hx.persistor⟩
  refine (hm.settle (hnext _) _ _).bind fun x₁ y₁ _ _ hx₁ => .pure ?_
  rw [hx₁.balances.tradeState, hx₁.persistor]
  exact ⟨hm.afterTrade hP _ _, ⟨hx₁.sequencer, hx₁.balances, hx₁.filter, rfl⟩, rfl, rfl, rfl, rfl⟩

theorem matchMaker (h : Paired P s s') (hP : P rc rc') :
    Lockstep (StepRel (Paired P)) (matchMaker E now ql rc s) (Market.matchMaker E now ql rc' s') := by
  have hcancel : Paired P { s with needCancel := true }
      { s' with taker := s.taker, quoteSum := s.quoteSum, needCancel := true } :=
    ⟨h.market, h.ctx, rfl, rfl, h.finished, rfl⟩
  unfold Market.matchMaker
  simp only [h.market.reads _ _ hP, h.taker, h.quoteSum, h.market.terms.disableSelfTrade,
    tradedBaseAmount h.market]
  refine .ite (fun _ => .pure (.done h)) fun _ => .ite (fun _ => .pure (.done h)) fun _ => ?_
  refine .ite (fun _ => .pure (.done hcancel)) fun _ =>
    .ite (fun _ => .pure (.done hcancel)) fun _ => ?_
  refine .bind_same rfl fun amount _ => ?_
  cases amount with
  | none => exact .pure (.done h)
  | some amount => exact (h.executeTrade hP amount).bind fun _ _ _ _ hs => .pure (.yield hs)

end MatchState.Paired

namespace Paired

theorem endOrder {s s' : MatchState} (h : Paired P m m') (hx : x.Agrees y)
    (htaker : s'.taker = s.taker) (hcancel : s'.needCancel = s.needCancel) :
    Lockstep (fun a b : Order × Market × Ctx => b.1 = a.1 ∧ a.2.1.Agrees b.2.1 ∧ a.2.2.Agrees b.2.2)
    (endOrder E s m x)
      (Market.endOrder E s' m' y) := by
  have hclosed :
      (fun a b : Order × Market × Ctx => b.1 = a.1 ∧ a.2.1.Agrees b.2.1 ∧ a.2.2.Agrees b.2.2)
      (s.taker, m, { x with persistor := x.persistor.putOrder s.taker .finish })
      (s.taker, m', { y with persistor := y.persistor.putOrder s.taker .finish }) :=
    ⟨rfl, ⟨P, h⟩, hx.sequencer, hx.balances, hx.filter, by rw [hx.persistor]⟩
  unfold Market.endOrder
  rw [htaker, hcancel]
  refine .ite (fun _ => .pure hclosed) fun _ => .ite (fun _ => .pure hclosed) fun _ =>
    .ite (fun _ => .pure hclosed) fun _ => ?_
  refine (h.insertOrder s.taker).bind ?_
  rintro ⟨o, m₁⟩ ⟨o', m₁'⟩ - - ⟨ho, P', h'⟩
  obtain rfl : o' = o := ho
  exact (h'.frozenBalance hx.balances o').bind fun _ _ _ _ hbm =>
    .pure ⟨rfl, ⟨P', h'⟩, hx.sequencer, hbm, hx.filter, hx.persistor⟩

/-- The filled makers leave both. -/
theorem finishOrders {items : List Order} (h : Paired P m m') (hm : m.IndexOK) (hx : x.Agrees y)
    (hstored : ∀ o ∈ items, m.resting o.id = some o) (hnodup : (items.map Order.id).Nodup) :
    Lockstep (Leaves P)
    (items.foldlM (fun (mx : Market × Ctx) item => mx.1.orderFinish E mx.2 item) (m, x))
      (items.foldlM (fun (mx : Market × Ctx) item => mx.1.orderFinish E mx.2 item) (m', y)) := by
  refine Lockstep.mono (R := fun a b : Market × Ctx => a.1.IndexOK ∧
    (∀ o ∈ ([] : List Order), a.1.resting o.id = some o) ∧
    (([] : List Order).map Order.id).Nodup ∧ Leaves P a b) ?_ fun a b hab => hab.2.2.2
  refine Lockstep.foldlM (R := fun (items : List Order) (a b : Market × Ctx) => a.1.IndexOK ∧
    (∀ o ∈ items, a.1.resting o.id = some o) ∧ (items.map Order.id).Nodup ∧
    Leaves P a b) ?_ _ _ _ ⟨hm, hstored, hnodup, h, hx⟩
  rintro o items ⟨m₁, x₁⟩ ⟨m₁', y₁⟩ ⟨hindex, hstored, hnodup, hpaired, hagrees⟩
  have hfinish :=
    hpaired.orderFinish (E := E) hagrees (hindex.inUsers (hstored o List.mem_cons_self))
  obtain ⟨rc, hrc, hread⟩ := resting_some.1 (hstored o List.mem_cons_self)
  rw [List.map_cons, List.nodup_cons] at hnodup
  generalize hfin : m₁.orderFinish E x₁ o = res at hfinish ⊢
  generalize m₁'.orderFinish E y₁ o = res' at hfinish ⊢
  cases hfinish with
  | stop e => exact .stop e
  | @go a b hab =>
    obtain ⟨hwithout, -⟩ := orderFinish_ok hfin
    refine .go ⟨?_, fun p hp => ?_, hnodup.2, hab⟩
    · rw [hwithout, ← hread]
      exact hindex.without (by rw [hread]; exact hrc)
    · have hne : o.id ≠ p.id := fun he => hnodup.1 (List.mem_map.2 ⟨p, hp, he.symm⟩)
      rw [hwithout, resting_without, if_neg hne]
      exact hstored p (List.mem_cons_of_mem _ hp)

theorem executeOrder {ql : Decimal} (h : Paired P m m') (hx : x.Agrees y) (hq : m.Quiet)
    (hd : DeskOK (startDesk m { x with persistor := x.persistor.putOrder o .put } o ql)) :
    Lockstep (fun a b : Order × Market × Ctx => b.1 = a.1 ∧ a.2.1.Agrees b.2.1 ∧ a.2.2.Agrees b.2.2)
      (m.executeOrder E now x o ql) (m'.executeOrder E now y o ql) := by
  rw [executeOrder_eq, executeOrder_eq]
  have hopen : MatchState.Paired P
      { market := m, ctx := { x with persistor := x.persistor.putOrder o .put }, taker := o,
        quoteSum := 0,
        finishedOrders := [], needCancel := false }
      { market := m', ctx := { y with persistor := y.persistor.putOrder o .put }, taker := o,
        quoteSum := 0,
        finishedOrders := [], needCancel := false } :=
    ⟨h, ⟨hx.sequencer, hx.balances, hx.filter, by rw [hx.persistor]⟩, rfl, rfl, rfl, rfl⟩
  have hbody : ∀ a b s t, P a b → MatchState.Paired P s t →
      Lockstep (StepRel (MatchState.Paired P)) (matchMaker E now ql a s)
        (matchMaker E now ql b t) :=
    fun _ _ _ _ hP hs => hs.matchMaker hP
  have hloop := Lockstep.forBreak hbody (h.counterOrders o) _ _ hopen
  refine hloop.bind fun s s' hs _ hpaired => ?_
  have hend : LoopEnd E now o.user AnyOrder ql
      (startDesk m { x with persistor := x.persistor.putOrder o .put } o ql) s :=
    loop_steps hd hq rfl rfl rfl hs
  have hindex := (Steps.deskOK hend.works.steps hd).index
  rw [hpaired.finished]
  refine (hpaired.market.finishOrders hindex hpaired.ctx (fun p hp => (hend.stored p hp).2)
    hend.nodup).bind ?_
  rintro ⟨m₁, x₁⟩ ⟨m₁', y₁⟩ - - ⟨hm₁, hx₁⟩
  exact hm₁.endOrder hx₁ hpaired.taker hpaired.needCancel

theorem isEmpty (h : Paired P m m') :
    m'.asks.isEmpty = m.asks.isEmpty ∧ m'.bids.isEmpty = m.bids.isEmpty := by
  constructor
  · have hkeys := keys_eq fun k => isSome_of_rel (h.asks k)
    rw [← Std.TreeMap.isEmpty_toList, ← Std.TreeMap.isEmpty_toList, ← List.isEmpty_map, hkeys,
      List.isEmpty_map]
  · have hkeys := keys_eq fun k => isSome_of_rel (h.bids k)
    rw [← Std.TreeMap.isEmpty_toList, ← Std.TreeMap.isEmpty_toList, ← List.isEmpty_map, hkeys,
      List.isEmpty_map]

theorem checkInput (h : Paired P m m') (hbm : bm.Agrees bm') (input : OrderInput) (u : Uuid) :
    m'.checkInput E bm' input u = m.checkInput E bm input u := by
  simp only [Market.checkInput, Market.checkType, Market.checkBalance, hbm.get, h.isEmpty,
    h.terms.disableMarketOrder,
    h.terms.minAmount, h.terms.feePrec, h.terms.amountPrec, h.terms.pricePrec, h.terms.base,
    h.terms.quote]

theorem quoteLimit (h : Paired P m m') (hbm : bm.Agrees bm') (input : OrderInput) (u : Uuid) :
    m'.quoteLimit bm' input u = m.quoteLimit bm input u := by
  simp only [Market.quoteLimit, hbm.get, hbm.assets, h.terms.quote]

theorem newOrder (h : Paired P m m') (id : ℕ) (input : OrderInput) (u : Uuid) :
    m'.newOrder id now input u = m.newOrder id now input u := by
  simp only [Market.newOrder, h.terms.name, h.terms.base, h.terms.quote]

/-- **`put_order` runs in lockstep.** -/
theorem putOrder (h : Paired P m m') (hd : DeskOK ⟨m, x, none⟩) (hx : x.Agrees y)
    (input : OrderInput) (u : Uuid) :
    Lockstep (fun a b : Except String Order × Market × Ctx => b.1 = a.1 ∧ a.2.1.Agrees b.2.1 ∧
      a.2.2.Agrees b.2.2)
      (m.putOrder E now x input u) (m'.putOrder E now y input u) := by
  unfold Market.putOrder
  rw [h.checkInput hx.balances]
  cases hcheck : m.checkInput E x.balanceManager input u with
  | error e => exact .pure ⟨rfl, ⟨P, h⟩, hx⟩
  | ok _ =>
    refine .bind_same (h.quoteLimit hx.balances input u) fun ql hql => ?_
    simp only [hx.sequencer, Sequencer.nextOrderId, h.newOrder]
    have haccept : Step E now u AnyOrder ⟨m, x, none⟩ _ := Step.accept trivial hcheck hql
    have hagrees : Ctx.Agrees { x with sequencer := x.sequencer.nextOrderId.2 }
      { y with sequencer := x.sequencer.nextOrderId.2 } :=
      ⟨rfl, hx.balances, hx.filter, hx.persistor⟩
    refine (h.executeOrder hagrees (hd.quiet rfl) (haccept.deskOK hd)).bind ?_
    rintro ⟨o, m₁, x₁⟩ ⟨o', m₁', y₁⟩ - - ⟨ho, hm₁, hx₁⟩
    obtain rfl : o' = o := ho
    exact .pure ⟨rfl, hm₁, hx₁⟩

end Paired

end Market

/-! ## The controller -/

/-- **The same controller**, but for the handles of its orders and the order in its hash maps. -/
structure Controller.Agrees (c r : Controller) : Prop where
  limit : r.settings.userOrderNumLimit = c.settings.userOrderNumLimit
  names : ∀ pair, r.assetMarketNames.find? pair = c.assetMarketNames.find? pair
  sequencer : r.sequencer = c.sequencer
  balances : c.balanceManager.Agrees r.balanceManager
  filter : r.updateController = c.updateController
  markets : ∀ name, Option.Rel Market.Agrees (c.markets.find? name) (r.markets.find? name)
  log : r.logHandler = c.logHandler
  messages : r.persistor = c.persistor

/-- The same reply, and the same controller after it. -/
def Replies {α : Type} (a b : α × Controller) : Prop := b.1 = a.1 ∧ a.2.Agrees b.2

namespace Controller.Agrees

theorem symm (h : c.Agrees r) : r.Agrees c := by
  refine ⟨h.limit.symm, fun pair => (h.names pair).symm, h.sequencer.symm, h.balances.symm,
    h.filter.symm, fun name => ?_,
    h.log.symm, h.messages.symm⟩
  exact rel_swap (h.markets name) fun _ _ ⟨_, hP⟩ => ⟨_, hP.symm⟩

theorem ctx (h : c.Agrees r) (real : Bool) : (c.ctx real).Agrees (r.ctx real) :=
  ⟨h.sequencer, h.balances, h.filter, by simp only [Controller.ctx, h.messages]⟩

theorem withCtx (h : c.Agrees r) (hx : x.Agrees y) : (c.withCtx x).Agrees (r.withCtx y) :=
  ⟨h.limit, h.names, hx.sequencer, hx.balances, hx.filter, h.markets, h.log,
    by simp only [Controller.withCtx, hx.persistor, h.messages]⟩

theorem withMarket (h : c.Agrees r) (hx : x.Agrees y) (hm : m.Agrees m') (name : String) :
    (c.withMarket name m x).Agrees (r.withMarket name m' y) := by
  have hput := h.withCtx hx
  refine ⟨hput.limit, hput.names, hput.sequencer, hput.balances, hput.filter, fun other => ?_,
    hput.log, hput.messages⟩
  rw [Controller.find?_withMarket, Controller.find?_withMarket]
  split
  · exact .some hm
  · exact h.markets other

theorem logged (h : c.Agrees r) (op : Operation) :
    (c.logged now real op u).Agrees (r.logged now real op u) := by
  unfold Controller.logged
  split
  · refine ⟨h.limit, h.names, ?_, h.balances, h.filter, h.markets, ?_, h.messages⟩
    · simp only [Controller.appendOperationLog, h.sequencer]
    · simp only [Controller.appendOperationLog, h.sequencer, h.log]
  · exact h

theorem some (h : c.Agrees r) {name : String} (hm : c.markets.find? name = some m) :
    ∃ m', r.markets.find? name = some m' ∧ m.Agrees m' := by
  have hrel := h.markets name
  rw [hm] at hrel
  generalize r.markets.find? name = o at hrel
  cases hrel with
  | some hmm => exact ⟨_, rfl, hmm⟩

theorem none (h : c.Agrees r) {name : String} (hm : c.markets.find? name = none) :
    r.markets.find? name = none := by
  have hrel := h.markets name
  rw [hm] at hrel
  generalize r.markets.find? name = o at hrel
  cases hrel with
  | none => rfl

theorem totalOrderNum (h : c.Agrees r) (user : Uuid) :
    r.totalOrderNum user = c.totalOrderNum user := by
  unfold Controller.totalOrderNum
  refine (hashTally_eq_of_map fun name => ?_).symm
  cases hm : c.markets.find? name with
  | none => rw [h.none hm]
  | some m =>
    obtain ⟨m', hm', P, hP⟩ := h.some hm
    rw [hm']
    exact congrArg Option.some (hP.getOrderNumOfUser user).symm

theorem marketPrice (h : c.Agrees r) (asset : String) :
    r.marketPrice asset = c.marketPrice asset := by
  unfold Controller.marketPrice
  rw [h.names]
  split
  · rename_i name _
    cases hm : c.markets.find? name with
    | none => rw [h.none hm]
    | some m =>
      obtain ⟨m', hm', P, hP⟩ := h.some hm
      rw [hm']
      exact congrArg Except.ok hP.price
  · rfl

/-- An operation that is refused before it starts. -/
theorem refused {α : Type} (h : c.Agrees r) (res : α) :
    Lockstep Replies (pure (res, c) : Except Panic (α × Controller)) (pure (res, r)) :=
  .pure ⟨rfl, h⟩

theorem putOrder (h : c.Agrees r) (hc : ControllerOK b c) (req : OrderPutRequest) (user : Uuid) :
    Lockstep Replies (c.putOrder E now real req user) (r.putOrder E now real req user) := by
  unfold Controller.putOrder
  cases hm : c.markets.find? req.market with
  | none =>
    rw [h.none hm]
    exact h.refused _
  | some m =>
    obtain ⟨m', hm', P, hP⟩ := h.some hm
    simp only [hm', h.totalOrderNum, h.limit]
    refine .bind_same rfl fun _ _ => .ite (fun _ => h.refused _) fun _ => ?_
    cases OrderInput.tryFrom E req with
    | error e => exact h.refused _
    | ok input =>
      refine (hP.putOrder ((hc.desk _ _ hm).2 real) (h.ctx real) input user).bind ?_
      rintro ⟨res, m₁, x₁⟩ ⟨res', m₁', y₁⟩ - - ⟨hres, hm₁, hx₁⟩
      obtain rfl : res' = res := hres
      cases res' with
      | error e => exact (h.withMarket hx₁ hm₁ _).refused _
      | ok o => exact (h.withMarket hx₁ hm₁ _).refused _

theorem orderPut (h : c.Agrees r) (hc : ControllerOK b c) (available : Bool) (req : OrderPutRequest)
    (user : Uuid) :
    Lockstep Replies (c.orderPut E now available real req user)
    (r.orderPut E now available real req user) := by
  unfold Controller.orderPut
  refine .ite (fun _ => h.refused _) fun _ => (h.putOrder hc req user).bind ?_
  rintro ⟨res, c₁⟩ ⟨res', r₁⟩ - - ⟨hres, h₁⟩
  obtain rfl : res' = res := hres
  cases res' with
  | error st => exact h₁.refused _
  | ok o => exact (h₁.logged _).refused _

theorem cancelAllIn (h : c.Agrees r) (hc : ControllerOK b c) {name : String}
    (hm : c.markets.find? name = Option.some m) (hP : m.Agrees m') (user : Uuid) :
    Lockstep Replies (c.cancelAllIn E real name m user) (r.cancelAllIn E real name m' user) := by
  obtain ⟨P, hP⟩ := hP
  unfold Controller.cancelAllIn
  refine (hP.cancelAllForUser ((hc.desk _ _ hm).2 real).index (h.ctx real) user).bind ?_
  rintro ⟨n, m₁, x₁⟩ ⟨n', m₁', y₁⟩ - - ⟨hn, hm₁, hx₁⟩
  obtain rfl : n' = n := hn
  exact (h.withMarket hx₁ ⟨P, hm₁⟩ _).refused _

theorem batchReset (h : c.Agrees r) (hc : ControllerOK b c) {name : String} {user : Uuid}
    (orders : List OrderPutRequest) :
    Lockstep Replies (c.batchReset E real name user orders)
    (r.batchReset E real name user orders) := by
  induction orders generalizing c r with
  | nil => exact h.refused _
  | cons o orders ih =>
    unfold Controller.batchReset
    refine .ite (fun _ => h.refused _) fun _ => ?_
    cases hm : c.markets.find? name with
    | none =>
      rw [h.none hm]
      exact .stop _
    | some m =>
      obtain ⟨m', hm', hP⟩ := h.some hm
      rw [hm']
      refine (h.cancelAllIn hc hm hP user).bind ?_
      rintro ⟨n, c₁⟩ ⟨n', r₁⟩ hcancel - ⟨-, h₁⟩
      have hmoves : Moves E 0 real user False AnyOrder c c₁ := cancelAllIn_moves hc hm hcancel
      exact ih h₁ (hmoves.ok hc)

theorem batchPut (h : c.Agrees r) (hc : ControllerOK b c) {name : String} {user : Uuid}
    (orders : List OrderPutRequest) (ids : List ℕ) :
    Lockstep Replies (c.batchPut E now real name user orders ids)
    (r.batchPut E now real name user orders ids) := by
  induction orders generalizing c r ids with
  | nil => exact h.refused _
  | cons o orders ih =>
    unfold Controller.batchPut
    refine .ite (fun _ => h.refused _) fun _ => (h.putOrder hc o user).bind ?_
    rintro ⟨res, c₁⟩ ⟨res', r₁⟩ hput - ⟨hres, h₁⟩
    obtain rfl : res' = res := hres
    have hmoves : Moves E now real user False AnyOrder c c₁ := putOrder_moves hc admits_any hput
    cases res' with
    | error st => exact h₁.refused _
    | ok order => exact ih h₁ (hmoves.ok hc) _

theorem batchOrderPut (h : c.Agrees r) (hc : ControllerOK b c) (available : Bool)
    (req : BatchOrderPutRequest) (user : Uuid) :
    Lockstep Replies (c.batchOrderPut E now available real req user)
    (r.batchOrderPut E now available real req user) := by
  unfold Controller.batchOrderPut
  have hsame : (r.markets.find? req.market).isNone = (c.markets.find? req.market).isNone := by
    rw [← Option.not_isSome, ← Option.not_isSome, isSome_of_rel (h.markets req.market)]
  rw [hsame]
  refine .ite (fun _ => h.refused _) fun _ => .ite (fun _ => h.refused _) fun _ => ?_
  have hstart : Lockstep Replies (c.batchStart E real req user) (r.batchStart E real req user) := by
    unfold Controller.batchStart
    exact .ite (fun _ => h.batchReset hc _) fun _ => h.refused _
  refine hstart.bind ?_
  rintro ⟨res, c₁⟩ ⟨res', r₁⟩ hreset - ⟨hres, h₁⟩
  obtain rfl : res' = res := hres
  cases res' with
  | error st => exact h₁.refused _
  | ok _ =>
    have hmoves : Moves E now real user False AnyOrder c c₁ := batchStart_moves hc hreset
    refine (h₁.batchPut (hmoves.ok hc) req.orders []).bind ?_
    rintro ⟨res, c₂⟩ ⟨res', r₂⟩ - - ⟨hres, h₂⟩
    obtain rfl : res' = res := hres
    cases res' with
    | error st => exact h₂.refused _
    | ok response => exact (h₂.logged _).refused _

theorem orderCancel (h : c.Agrees r) (hc : ControllerOK b c) (available : Bool)
    (req : OrderCancelRequest) (user : Uuid) :
    Lockstep Replies (c.orderCancel E now available real req user)
    (r.orderCancel E now available real req user) := by
  unfold Controller.orderCancel
  refine .ite (fun _ => h.refused _) fun _ => ?_
  cases hm : c.markets.find? req.market with
  | none =>
    rw [h.none hm]
    exact h.refused _
  | some m =>
    obtain ⟨m', hm', P, hP⟩ := h.some hm
    have horder := hP.orders req.orderId
    rw [hm']
    dsimp only
    generalize m.orders[req.orderId]? = v at horder ⊢
    generalize m'.orders[req.orderId]? = w at horder ⊢
    cases horder with
    | none => exact h.refused _
    | some hrc =>
      simp only [hP.reads _ _ hrc]
      refine .ite (fun _ => h.refused _) fun _ => ?_
      refine (hP.cancel ((hc.desk _ _ hm).2 real).index (h.ctx real) _).bind ?_
      rintro ⟨o, m₁, x₁⟩ ⟨o', m₁', y₁⟩ - - ⟨-, hm₁, hx₁⟩
      exact ((h.withMarket hx₁ ⟨P, hm₁⟩ _).logged _).refused _

theorem orderCancelAll (h : c.Agrees r) (hc : ControllerOK b c) (available : Bool)
    (req : OrderCancelAllRequest) (user : Uuid) :
    Lockstep Replies (c.orderCancelAll E now available real req user)
    (r.orderCancelAll E now available real req user) := by
  unfold Controller.orderCancelAll
  refine .ite (fun _ => h.refused _) fun _ => ?_
  cases hm : c.markets.find? req.market with
  | none =>
    rw [h.none hm]
    exact h.refused _
  | some m =>
    obtain ⟨m', hm', hP⟩ := h.some hm
    rw [hm']
    refine (h.cancelAllIn hc hm hP user).bind ?_
    rintro ⟨n, c₁⟩ ⟨n', r₁⟩ - - ⟨hn, h₁⟩
    obtain rfl : n' = n := hn
    exact (h₁.logged _).refused _

theorem updateBalance (h : c.Agrees r) (available : Bool) (req : BalanceUpdateRequest)
    (user : Uuid) :
    Lockstep Replies (c.updateBalance E now available real req user)
    (r.updateBalance E now available real req user) := by
  unfold Controller.updateBalance
  simp only [h.balances.assets, h.marketPrice]
  refine .ite (fun _ => h.refused _) fun _ => .ite (fun _ => h.refused _) fun _ =>
    .bind_same rfl fun prec _ => ?_
  cases Controller.parseUpdate E prec req with
  | error st => exact h.refused _
  | ok parsed =>
    refine .bind_same rfl fun price _ => ((h.ctx real).updateUserBalance _).bind ?_
    rintro ⟨res, x₁⟩ ⟨res', y₁⟩ - - ⟨hres, hx₁⟩
    obtain rfl : res' = res := hres
    cases res' with
    | error e => exact (h.withCtx hx₁).refused _
    | ok _ => exact ((h.withCtx hx₁).logged _).refused _

end Controller.Agrees

/-- **Handles do not show.** A call on two controllers that differ in handles only, and in how the
hash maps are ordered, panics on both for the same reason, or gives the same reply, the same log and
the same messages, and leaves the controllers different in nothing else. -/
theorem Controller.call_agrees (hc : ControllerOK b c) (h : c.Agrees r) (q : Request) :
    Lockstep Replies (c.call E q) (r.call E q) := by
  unfold Controller.call
  cases q.operation with
  | balanceUpdate req => exact h.updateBalance _ _ _
  | orderPut req => exact h.orderPut hc _ _ _
  | batchOrderPut req => exact h.batchOrderPut hc _ _ _
  | orderCancel req => exact h.orderCancel hc _ _ _
  | orderCancelAll req => exact h.orderCancelAll hc _ _ _

/-- **Handles never show, in any run of calls.** Two controllers that differ in handles only, and in
how the hash maps are ordered, answer a run of calls alike, one reply after the other, or panic at
the same call. -/
theorem Controller.calls_agree (hc : ControllerOK b c) (h : c.Agrees r) (qs : List Request) :
    Lockstep Replies (c.calls E qs) (r.calls E qs) := by
  induction qs generalizing c r with
  | nil => exact .pure ⟨rfl, h⟩
  | cons q qs ih =>
    unfold Controller.calls
    refine (Controller.call_agrees hc h q).bind ?_
    rintro ⟨reply, c₁⟩ ⟨reply', r₁⟩ hcall - ⟨hreply, h₁⟩
    obtain rfl : reply' = reply := hreply
    refine (ih (call_ok hc hcall) h₁).bind ?_
    rintro ⟨replies, c₂⟩ ⟨replies', r₂⟩ - - ⟨hreplies, h₂⟩
    obtain rfl : replies' = replies := hreplies
    exact .pure ⟨rfl, h₂⟩

/-- Where nothing rests, nothing is filed. -/
theorem Market.Files.empty {α : Type} {f : Order → α} {g : α → ℕ → Option OrderRc} (h : m.Files f g)
    (hnone : ∀ id, m.resting id = none) (a : α) (id : ℕ) : g a id = none := by
  refine Option.eq_none_iff_forall_ne_some.2 fun rc hrc => ?_
  have hid := hnone id
  rw [resting_some.2 ⟨rc, ((h a id rc).1 hrc).1, rfl⟩] at hid
  cases hid

/-- A market without orders, under used handles, and the same market under new ones. -/
theorem Market.agrees_reset (hm : m.IndexOK)
    (hnone : ∀ id, m.resting id = none) : m.Agrees m.reset := by
  have hr := m.reset_noOrders.indexOK
  have hnone' : ∀ id, m.reset.resting id = none := m.reset_noOrders.resting
  have hrel : ∀ {v w : Option OrderRc}, v = none → w = none →
      Option.Rel (fun _ _ => False) v w := by
    rintro _ _ rfl rfl
    exact .none
  refine ⟨fun _ _ => False, ⟨rfl, rfl, rfl, rfl, rfl, rfl, rfl, rfl, rfl, rfl, rfl⟩, rfl, rfl,
    ⟨fun _ _ _ hP => hP.elim, fun _ _ _ hP => hP.elim⟩, fun _ _ hP => hP.elim,
    fun _ _ hP => hP.elim, fun id => ?_, fun u id => ?_,
    fun k id => ?_⟩
  · exact hrel (Option.map_eq_none_iff.1 (hnone id)) (Option.map_eq_none_iff.1 (hnone' id))
  · exact hrel (hm.users.empty hnone u id) (hr.users.empty hnone' u id)
  · exact hrel (hm.sides.empty hnone k id) (hr.sides.empty hnone' k id)

/-- The same controller, its markets under new handles. -/
theorem Controller.agrees_reset (hc : ControllerOK b c)
    (hnone : ∀ name m id, c.markets.find? name = some m → m.resting id = none) :
    c.Agrees { c with markets := mapValues Market.reset c.markets } := by
  refine ⟨rfl, fun _ => rfl, rfl, .refl _, rfl, fun name => ?_, rfl, rfl⟩
  rw [find?_mapValues]
  cases hm : c.markets.find? name with
  | none => exact .none
  | some m => exact .some (Market.agrees_reset ((hc.desk _ _ hm).2 true).index (hnone name m · hm))

/-- An ask that is cancelled has used a handle; the orders put after it get the same answers as
under new handles. -/
theorem Controller.calls_agree_sample :
    ∃ (c c₁ r₁ : Controller) (m : Market) (replies : List (Except Status Response)),
    c.markets.find? "ETH_USDT" = some m ∧ m.rcs.next = 1 ∧
      c.calls releaseEnv (sampleTrade.drop 2) = .ok (replies, c₁) ∧ replies.length = 2 ∧
      Controller.calls releaseEnv { c with markets := mapValues Market.reset c.markets }
      (sampleTrade.drop 2) = .ok (replies, r₁) ∧
      c₁.Agrees r₁ := by
  let qs := sampleTrade.take 2 ++ [requestAt 1 bob (.orderPut (limitOrder .ask "0.1" "200")),
    requestAt 1 bob (.orderCancelAll ⟨"ETH_USDT"⟩)]
  have h : (sampleRun releaseEnv qs >>= fun c => unwrap .marketName (c.markets.find? "ETH_USDT") >>=
      fun m =>
      c.calls releaseEnv (sampleTrade.drop 2) >>= fun t =>
        pure (m.rcs.next, m.orders.toList.length, c.markets.keys, t.1.length)) =
          (.ok (1, 0, ["ETH_USDT"], 2) : Except Panic _) := by
    decide +kernel
  simp only [bind_ok, pure_ok, unwrap_ok, Prod.mk.injEq] at h
  obtain ⟨c, hc, m, hm, ⟨replies, c₁⟩, hcalls, hnext, horders, hkeys, hlength⟩ := h
  obtain ⟨b, -, hok⟩ := (sampleRun_reachable hc).ok
  have hnone : ∀ name m, ∀ id, c.markets.find? name = some m → m.resting id = none := by
    intro name m' id hm'
    have hname : name ∈ c.markets.keys :=
      AList.lookup_isSome.1 (by rw [show c.markets.lookup name = some m' from hm']; rfl)
    rw [hkeys, List.mem_singleton] at hname
    subst hname
    obtain rfl := Option.some.inj (hm.symm.trans hm')
    have hempty : m.orders.isEmpty = true := by
      rw [← Std.TreeMap.isEmpty_toList, List.isEmpty_iff_length_eq_zero]
      exact horders
    exact Option.map_eq_none_iff.2 (Std.TreeMap.getElem?_of_isEmpty hempty)
  obtain ⟨⟨replies', r₁⟩, hr, hreplies, hagrees⟩ :=
    (Controller.calls_agree (E := releaseEnv) hok (Controller.agrees_reset hok hnone)
      (sampleTrade.drop 2)).matched hcalls
  obtain rfl : replies' = replies := hreplies
  exact ⟨c, c₁, r₁, m, replies', hm, hnext, hcalls, hlength, hr, hagrees⟩

end Dingir
