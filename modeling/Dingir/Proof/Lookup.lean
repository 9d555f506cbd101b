import Dingir.Proof.Reach

/-!
# Lookups never fail

`Panic.lookup` stands for the `unwrap`s and the `debug_assert!`s on lookups in
the four indexes. The balance side of the engine has none (`updateUserBalance_avoids`
and before); where the indexes agree, removing an order that is there and
inserting one with a new id find what they look for.
-/

namespace Dingir

open Keyed Outcome Market

variable {E : Env} {now : Timestamp} {x : Ctx} {bm : BalanceManager} {m : Market}

theorem debugAssert_avoids {p q : Panic} {b : Prop} [Decidable b] (h : p ≠ q) :
    Avoids q (E.debugAssert p b) :=
  fun he => h (Env.debugAssert_error he).symm

theorem debugAssert_avoids_of {p q : Panic} {b : Prop} [Decidable b] (h : b) :
    Avoids q (E.debugAssert p b) := by
  rw [Env.debugAssert_of h]; exact avoids_ok _

theorem unwrap_avoids {α : Type} {p q : Panic} (h : p ≠ q)
    (o : Option α) : Avoids q (unwrap p o) := by
  cases o with
  | none => exact avoids_error h
  | some a => exact avoids_ok a

/-! ## The balances -/

theorem assetPrec_avoids (am : AssetManager) (a : String) : Avoids .lookup (am.assetPrec a) :=
  (unwrap_avoids (by decide) _).bind fun _ _ => avoids_pure _

namespace BalanceManager

theorem setByKey_avoids (k : BalanceMapKey) (v : Decimal) : Avoids .lookup (bm.setByKey E k v) :=
  (debugAssert_avoids (by decide)).bind fun _ _ => (assetPrec_avoids _ _).bind fun _ _ =>
    avoids_pure _

theorem add_avoids (u : Uuid) (t : BalanceType) (a : String) (v : Decimal) :
    Avoids .lookup (bm.add E u t a v) :=
  (debugAssert_avoids (by decide)).bind fun _ _ => (assetPrec_avoids _ _).bind fun _ _ =>
    (setByKey_avoids _ _).bind fun _ _ => avoids_pure _

theorem sub_avoids (u : Uuid) (t : BalanceType) (a : String) (v : Decimal) :
    Avoids .lookup (bm.sub E u t a v) :=
  (debugAssert_avoids (by decide)).bind fun _ _ => (assetPrec_avoids _ _).bind fun _ _ =>
    (debugAssert_avoids (by decide)).bind fun _ _ =>
      (debugAssert_avoids (by decide)).bind fun _ _ =>
      (setByKey_avoids _ _).bind fun _ _ => avoids_pure _

theorem frozen_avoids (u : Uuid) (a : String) (v : Decimal) : Avoids .lookup (bm.frozen E u a v) :=
  (debugAssert_avoids (by decide)).bind fun _ _ => (assetPrec_avoids _ _).bind fun _ _ =>
    (debugAssert_avoids (by decide)).bind fun _ _ => (sub_avoids _ _ _ _).bind fun _ _ =>
      (add_avoids _ _ _ _).bind fun _ _ => avoids_pure _

theorem unfrozen_avoids (u : Uuid) (a : String) (v : Decimal) :
    Avoids .lookup (bm.unfrozen E u a v) :=
  (debugAssert_avoids (by decide)).bind fun _ _ => (assetPrec_avoids _ _).bind fun _ _ =>
    (debugAssert_avoids (by decide)).bind fun _ _ => (add_avoids _ _ _ _).bind fun _ _ =>
      (sub_avoids _ _ _ _).bind fun _ _ => avoids_pure _

end BalanceManager

theorem updateUserBalance_avoids (p : BalanceUpdateParams) :
    Avoids .lookup (updateUserBalance E now x p) := by
  unfold updateUserBalance
  split
  · exact avoids_pure _
  refine Avoids.bind ?_ fun r _ => ?_
  · unfold applyChange
    simp only
    split
    · exact (BalanceManager.add_avoids _ _ _ _).bind fun _ _ => avoids_pure _
    · split
      · exact avoids_pure _
      · exact (BalanceManager.sub_avoids _ _ _ _).bind fun _ _ => avoids_pure _
  · cases r with
    | error e => exact avoids_pure _
    | ok bm =>
      refine Avoids.bind ?_ fun _ _ => avoids_pure _
      unfold persistUpdate
      split
      · refine Avoids.bind ?_ fun _ _ => ?_
        · unfold Value.indexAssign
          split
          · exact avoids_ok _
          · exact avoids_ok _
          · exact avoids_error (by decide)
        · simp only
          split <;> exact avoids_pure _
      · exact avoids_pure _

/-! ## The matching loop -/

namespace Market

theorem settleOne_avoids (tradeId : ℕ) (t : BalanceType) (u : Uuid) (a : String) (v : Decimal) :
    Avoids .lookup (settleOne E now x m tradeId t u a v) := by
  refine (updateUserBalance_avoids _).bind fun r _ => ?_
  obtain ⟨res, y⟩ := r
  cases res with
  | error e => exact avoids_error (by decide)
  | ok _ => exact avoids_pure _

theorem executeTrade_avoids (ql amount : Decimal) (rc : OrderRc) (s : MatchState) :
    Avoids .lookup (executeTrade E now ql rc amount s) := by
  unfold executeTrade settle
  iterate 6 refine (debugAssert_avoids (by decide)).bind fun _ _ => ?_
  refine Avoids.bind ?_ fun _ _ => avoids_pure _
  exact (settleOne_avoids _ _ _ _ _).bind fun _ _ => (settleOne_avoids _ _ _ _ _).bind fun _ _ =>
    (settleOne_avoids _ _ _ _ _).bind fun _ _ => settleOne_avoids _ _ _ _ _

theorem matchMaker_avoids (ql : Decimal) (rc : OrderRc) (s : MatchState) :
    Avoids .lookup (matchMaker E now ql rc s) := by
  unfold matchMaker
  simp only
  split
  · exact avoids_pure _
  split
  · exact avoids_pure _
  split
  · exact avoids_pure _
  split
  · exact avoids_pure _
  refine Avoids.bind ?_ fun r _ => ?_
  · unfold tradedBaseAmount
    simp only
    split
    · split
      · exact avoids_error (by decide)
      · exact avoids_ok _
    · exact avoids_ok _
  · cases r with
    | none => exact avoids_pure _
    | some amount => exact (executeTrade_avoids _ _ _ _).bind fun _ _ => avoids_pure _

/-! ## Removal and insertion -/

theorem unfrozenBalance_avoids (o : Order) : Avoids .lookup (m.unfrozenBalance E bm o) := by
  unfold unfrozenBalance
  refine (debugAssert_avoids (by decide)).bind fun _ _ => ?_
  split
  · exact avoids_pure _
  · exact BalanceManager.unfrozen_avoids _ _ _

/-- **Removing an order that is there finds it in every index.** -/
theorem orderFinish_avoids (h : m.IndexOK) {o : Order} (ho : m.resting o.id = some o) :
    Avoids .lookup (m.orderFinish E x o) := by
  obtain ⟨rc, hrc, hread⟩ := resting_some.1 ho
  have hside : m.sideOrder (sideKey o) o.id = some rc := (h.sides _ _ _).2 ⟨hrc, by rw [hread]⟩
  have huser : (m.userOrders o.user)[o.id]? = some rc := (h.users _ _ _).2 ⟨hrc, by rw [hread]⟩
  -- the map of the user is there, since it holds the order
  obtain ⟨users, husers⟩ : ∃ t, m.users[o.user]? = some t := by
    cases hu : m.users[o.user]? with
    | some t => exact ⟨t, rfl⟩
    | none => simp [userOrders, hu] at huser
  have hin : o.id ∈ users := by
    have : (m.userOrders o.user) = users := by simp [userOrders, husers]
    rw [this] at huser
    exact Std.TreeMap.mem_iff_isSome_getElem?.2 (by rw [huser]; rfl)
  have horder : o.id ∈ m.orders := Std.TreeMap.mem_iff_isSome_getElem?.2 (by rw [hrc]; rfl)
  unfold orderFinish removeFromSide
  have hrest : ∀ m₁ : Market, m₁.orders = m.orders → m₁.users = m.users →
      Avoids .lookup (do
        let bm ← m₁.unfrozenBalance E x.balanceManager o
        E.debugAssert .lookup (o.id ∈ m₁.orders)
        let m₂ := { m₁ with orders := m₁.orders.erase o.id }
        let userMap ← unwrap .lookup m₂.users[o.user]?
        E.debugAssert .lookup (o.id ∈ userMap)
        let m₃ := { m₂ with users := m₂.users.insert o.user (userMap.erase o.id) }
        return (m₃,
          ({ x with balanceManager := bm, persistor := x.persistor.putOrder o .finish } : Ctx))) := by
    intro m₁ h₁ h₂
    refine (unfrozenBalance_avoids o).bind fun _ _ =>
      (debugAssert_avoids_of (by rw [h₁]; exact horder)).bind fun _ _ => ?_
    simp only [h₂, husers]
    exact (avoids_ok users).bind fun t ht => by
      obtain rfl := Except.ok.inj ht
      exact (debugAssert_avoids_of hin).bind fun _ _ => avoids_pure _
  cases hs : o.side with
  | ask =>
    have hmem : o.askKey ∈ m.asks := by
      refine Std.TreeMap.mem_iff_isSome_getElem?.2 ?_
      have : m.asks[o.askKey]? = some rc := by
        simpa [sideOrder, sideKey, hs, Order.askKey, Order.bidKey] using hside
      rw [this]; rfl
    simp only [if_true]
    refine Avoids.bind ((debugAssert_avoids_of hmem).bind fun _ _ => avoids_pure _) fun m₁ hm₁ => ?_
    simp only [bind_ok, pure_ok] at hm₁
    obtain ⟨-, -, rfl⟩ := hm₁
    exact hrest _ rfl rfl
  | bid =>
    have hmem : o.bidKey ∈ m.bids := by
      refine Std.TreeMap.mem_iff_isSome_getElem?.2 ?_
      have : m.bids[o.bidKey]? = some rc := by
        simpa [sideOrder, sideKey, hs, Order.askKey, Order.bidKey] using hside
      rw [this]; rfl
    simp only [reduceCtorEq, if_false]
    refine Avoids.bind ((debugAssert_avoids_of hmem).bind fun _ _ => avoids_pure _) fun m₁ hm₁ => ?_
    simp only [bind_ok, pure_ok] at hm₁
    obtain ⟨-, -, rfl⟩ := hm₁
    exact hrest _ rfl rfl

/-- **Inserting an order with a new id finds it in no index.** -/
theorem insertOrder_avoids (h : m.IndexOK) {o : Order} (ho : m.resting o.id = none) :
    Avoids .lookup (m.insertOrderIntoOrderbook E o) := by
  have hnone : m.orders[o.id]? = none := by simpa [resting] using ho
  have horder : o.id ∉ m.orders := by
    rw [Std.TreeMap.mem_iff_isSome_getElem?, hnone]; simp
  have huser : o.id ∉ (m.users[o.user]?).getD ∅ := by
    rw [Std.TreeMap.mem_iff_isSome_getElem?]
    cases hu : ((m.users[o.user]?).getD ∅)[o.id]? with
    | none => simp
    | some rc =>
      have := ((h.users o.user o.id rc).1 hu).1
      rw [hnone] at this
      simp at this
  have hask : o.askKey ∉ m.asks := by
    rw [Std.TreeMap.mem_iff_isSome_getElem?]
    cases hu : m.asks[o.askKey]? with
    | none => simp
    | some rc =>
      have := ((h.asks o.askKey).1 hu).1
      rw [show o.askKey.orderId = o.id from rfl, hnone] at this
      simp at this
  have hbid : o.bidKey ∉ m.bids := by
    rw [Std.TreeMap.mem_iff_isSome_getElem?]
    cases hu : m.bids[o.bidKey]? with
    | none => simp
    | some rc =>
      have := ((h.bids o.bidKey).1 hu).1
      rw [show o.bidKey.orderId = o.id from rfl, hnone] at this
      simp at this
  unfold insertOrderIntoOrderbook
  refine (debugAssert_avoids (by decide)).bind fun _ _ =>
    (debugAssert_avoids_of horder).bind fun _ _ =>
    (debugAssert_avoids_of huser).bind fun _ _ => ?_
  simp only
  split
  · exact (debugAssert_avoids_of hask).bind fun _ _ => avoids_pure _
  · exact (debugAssert_avoids_of hbid).bind fun _ _ => avoids_pure _

/-! ## The methods of a market -/

/-- What a removal leaves: the indexes in agreement, and the other orders where they were. -/
theorem orderFinish_keeps {m' : Market} {x' : Ctx} {o : Order} (h : m.IndexOK)
    (ho : m.resting o.id = some o) (hfin : m.orderFinish E x o = .ok (m', x')) :
    m'.IndexOK ∧ ∀ id, id ≠ o.id → m'.resting id = m.resting id := by
  obtain ⟨rfl, -⟩ := orderFinish_ok hfin
  obtain ⟨rc, hrc, rfl⟩ := resting_some.1 ho
  exact ⟨h.without hrc, fun id hid => by rw [resting_without, if_neg (Ne.symm hid)]⟩

theorem deep_avoids {id : ℕ} (hid : (m.resting id).isSome) : Avoids .lookup (m.deep id) := by
  obtain ⟨o, ho⟩ := Option.isSome_iff_exists.1 hid
  obtain ⟨rc, hrc, -⟩ := resting_some.1 ho
  unfold deep
  rw [hrc]
  exact (avoids_ok rc).bind fun _ _ => avoids_pure _

/-- The order `deep` reads is the resting one. -/
theorem deep_ok {id : ℕ} {o : Order} (h : m.IndexOK) (ho : m.deep id = .ok o) :
    o.id = id ∧ m.resting o.id = some o := by
  simp only [deep, bind_ok, pure_ok, unwrap_ok] at ho
  obtain ⟨rc, hrc, rfl⟩ := ho
  have hid := h.ownId id rc hrc
  exact ⟨hid, resting_some.2 ⟨rc, by rw [hid]; exact hrc, rfl⟩⟩

theorem cancel_avoids (h : m.IndexOK) {id : ℕ} (hid : (m.resting id).isSome) :
    Avoids .lookup (m.cancel E x id) :=
  (deep_avoids hid).bind fun _ ho => (orderFinish_avoids h (deep_ok h ho).2).bind fun _ _ =>
    avoids_pure _

/-- The ids `cancel_all_for_user` goes through are those of resting orders, so each is found. -/
theorem cancelAllForUser_avoids (h : m.IndexOK) (user : Uuid) :
    Avoids .lookup (m.cancelAllForUser E x user) := by
  refine Avoids.bind ?_ fun _ _ => avoids_pure _
  let P (l : List ℕ) (s : Market × Ctx) : Prop :=
    s.1.IndexOK ∧ l.Nodup ∧ ∀ id ∈ l, (s.1.resting id).isSome
  refine foldlM_avoids (P := P) ?_ ?_ _ _ ⟨h, nodup_keys _, fun id hid => ?_⟩
  · rintro id l s ⟨hs, -, hl⟩
    exact (deep_avoids (hl id (by simp))).bind fun _ ho => orderFinish_avoids hs (deep_ok hs ho).2
  · rintro id l s ⟨m', x'⟩ ⟨hs, hnodup, hl⟩ hstep
    obtain ⟨o, ho, hfin⟩ := bind_ok.1 hstep
    obtain ⟨rfl, hrest⟩ := deep_ok hs ho
    obtain ⟨hindex, hother⟩ := orderFinish_keeps hs hrest hfin
    refine ⟨hindex, (List.nodup_cons.1 hnodup).2, fun j hj => ?_⟩
    rw [hother j fun hc => (List.nodup_cons.1 hnodup).1 (hc ▸ hj)]
    exact hl j (List.mem_cons_of_mem _ hj)
  · obtain ⟨⟨i, rc⟩, he, rfl⟩ := List.mem_map.1 hid
    rw [Std.TreeMap.mem_toList_iff_getElem?_eq_some] at he
    rw [resting_some.2 ⟨rc, ((h.users user i rc).1 he).1, rfl⟩]; rfl

/-- The copies put aside by the matching loop are the orders still resting, so each is found. -/
theorem finished_avoids {items : List Order} {s : Market × Ctx} (h : s.1.IndexOK)
    (hstored : ∀ o ∈ items, s.1.resting o.id = some o) (hnodup : (items.map Order.id).Nodup) :
    Avoids .lookup
      (items.foldlM (fun (mx : Market × Ctx) item => mx.1.orderFinish E mx.2 item) s) := by
  let P (l : List Order) (s : Market × Ctx) : Prop :=
    s.1.IndexOK ∧ (∀ o ∈ l, s.1.resting o.id = some o) ∧ (l.map Order.id).Nodup
  refine foldlM_avoids (P := P) ?_ ?_ _ _ ⟨h, hstored, hnodup⟩
  · rintro o l s ⟨hs, hl, -⟩
    exact orderFinish_avoids hs (hl o (by simp))
  · rintro o l s ⟨m', x'⟩ ⟨hs, hl, hnodup⟩ hfin
    obtain ⟨hindex, hother⟩ := orderFinish_keeps hs (hl o (by simp)) hfin
    rw [List.map_cons, List.nodup_cons] at hnodup
    refine ⟨hindex, fun p hp => ?_, hnodup.2⟩
    rw [hother p.id fun hc => hnodup.1 (List.mem_map.2 ⟨p, hp, hc⟩)]
    exact hl p (List.mem_cons_of_mem _ hp)

theorem executeOrder_avoids {taker : Order} {ql : Decimal} (hq : m.Quiet)
    (hd : DeskOK (startDesk m { x with persistor := x.persistor.putOrder taker .put } taker ql)) :
    Avoids .lookup (m.executeOrder E now x taker ql) := by
  refine Avoids.bind (forBreak_avoids (fun rc s => matchMaker_avoids ql rc s) _ _) fun s hloop => ?_
  have hend := loop_steps (A := AnyOrder) (u := taker.user) hd hq rfl rfl rfl hloop
  have hds := Steps.deskOK hend.works.steps hd
  refine (finished_avoids hds.index (fun o ho => (hend.stored o ho).2) hend.nodup).bind
    fun mx hfin => ?_
  obtain ⟨hsteps, -, -⟩ := finish_steps hd hend.works hend.stored hend.nodup hend.all hfin
  have hd' := Steps.deskOK hsteps.steps hd
  simp only
  split
  · exact avoids_pure _
  split
  · exact avoids_pure _
  split
  · exact avoids_pure _
  -- the order has the newest id
  have hnew : mx.1.resting s.taker.id = none := by
    have hk := hd'.taking _ rfl
    cases hr : mx.1.resting s.taker.id with
    | none => rfl
    | some o => exact absurd hk.id (hk.fresh _ _ hr).ne
  refine (insertOrder_avoids hd'.index hnew).bind fun _ _ => ?_
  exact (BalanceManager.frozen_avoids _ _ _).bind fun _ _ => avoids_pure _

/-- **`put_order` finds what it looks for.** -/
theorem putOrder_avoids {user : Uuid} {input : OrderInput} (hd : DeskOK ⟨m, x, none⟩) :
    Avoids .lookup (m.putOrder E now x input user) := by
  unfold putOrder
  split
  · exact avoids_pure _
  rename_i hcheck
  refine Avoids.bind ?_ fun ql hql => ?_
  · unfold quoteLimit
    split
    · simp only
      split
      · exact avoids_pure _
      · exact (assetPrec_avoids _ _).bind fun _ _ => avoids_pure _
    · exact avoids_pure _
  · have hstep : Step E now user AnyOrder ⟨m, x, none⟩ _ := Step.accept trivial hcheck hql
    exact (executeOrder_avoids (x := { x with sequencer := x.sequencer.nextOrderId.2 })
      (hd.quiet rfl) (hstep.deskOK hd)).bind fun _ _ => avoids_pure _

end Market

end Dingir
