import Dingir.Proof.Backing
import Dingir.Proof.Depth
import Dingir.Spec.Query

/-!
# The frozen funds of an asset are what its open orders hold

`status` of the balance manager adds up the balances of an asset over all users, and
`market_summary` the open orders of a market. Per user and asset the `FREEZE` balance is
what the user's own orders froze (`Reachable.backing`); added up over the users, what is
frozen of an asset is the amount of the asks on the markets that trade it, and the value
of the bids on those quoted in it: **`Reachable.summary_frozen`**.
-/

namespace Dingir

open Keyed Outcome Market

variable {E : Env} {settings : Settings} {a : String} {m : Market} {rc : OrderRc} {real : Bool}
  {x : Ctx} {b c : Controller}

/-! ## One market -/

namespace Market

/-- What the bids of a market would pay. -/
def bidValue (m : Market) : Decimal :=
  ((values m.bids).map fun rc => (m.rcs.read rc).remain * (m.rcs.read rc).price).sum

/-- What the open orders of a market hold of an asset. -/
def holds (m : Market) (a : String) : Decimal :=
  (if m.base = a then m.status.askAmount else 0) + if m.quote = a then m.bidValue else 0

/-- The handles of the orders are those of the two sides. -/
theorem orders_perm (hm : m.IndexOK) : (values m.orders).Perm (values m.asks ++ values m.bids) := by
  have hread : ∀ side, (m.sideHandles side).Nodup := fun side => (sideOrders_nodup hm side).of_map
  have hmem : ∀ side rc, rc ∈ m.sideHandles side ↔ m.orders[(m.rcs.read rc).id]? = some rc ∧
      (m.rcs.read rc).side = side :=
    fun _ _ => mem_sideHandles hm
  refine (List.perm_ext_iff_of_nodup ?_ (List.nodup_append.2 ⟨hread .ask, hread .bid, ?_⟩)).2
    fun rc => ?_
  · exact nodup_values fun id id' rc h h' => hm.id_inj h h'
  · rintro rc hask _ hbid rfl
    have hs := ((hmem .ask rc).1 hask).2
    rw [((hmem .bid rc).1 hbid).2] at hs
    cases hs
  · have hstored : rc ∈ values m.orders ↔ m.orders[(m.rcs.read rc).id]? = some rc := by
      rw [mem_values]
      refine ⟨fun ⟨id, hid⟩ => by rw [hm.ownId id rc hid]; exact hid, fun h => ⟨_, h⟩⟩
    rw [hstored, List.mem_append]
    refine ⟨fun h => ?_, fun h => ?_⟩
    · cases hs : (m.rcs.read rc).side with
      | ask => exact .inl ((hmem .ask rc).2 ⟨h, hs⟩)
      | bid => exact .inr ((hmem .bid rc).2 ⟨h, hs⟩)
    · rcases h with h | h
      · exact ((hmem .ask rc).1 h).1
      · exact ((hmem .bid rc).1 h).1

/-- The counts of a summary are the open orders. -/
theorem status_count (hm : m.IndexOK) : m.status.askCount + m.status.bidCount = m.orders.size := by
  have h := (orders_perm hm).length_eq
  simp only [values, List.length_append, List.length_map, Std.TreeMap.length_toList] at h
  exact h.symm

/-- What the orders of a market froze of an asset, whoever they belong to. -/
theorem frozen_holds (hd : DeskOK ⟨m, x, none⟩) (a : String) :
    tally (fun _ rc => if (if (m.rcs.read rc).side = .ask then m.base else m.quote) =
      a then (m.rcs.read rc).frozen else 0) m.orders = m.holds a := by
  let F (rc : OrderRc) : Decimal :=
    if (if (m.rcs.read rc).side = .ask then m.base else m.quote) = a then (m.rcs.read rc).frozen
    else 0
  have hsum : tally (fun _ rc => F rc) m.orders = ((values m.orders).map F).sum := by
    unfold tally values
    rw [List.map_map]
    rfl
  have hbacked : ∀ side, ∀ rc ∈ m.sideHandles side, (m.rcs.read rc).side = side ∧
      (m.rcs.read rc).frozen = (m.rcs.read rc).restFrozen := by
    intro side rc hrc
    obtain ⟨hstored, hs⟩ := (mem_sideHandles hd.index).1 hrc
    exact ⟨hs, (hd.backed _ _ (resting_some.2 ⟨rc, hstored, rfl⟩)).frozen⟩
  have hasks : (values m.asks).map F =
      (values m.asks).map fun rc => if m.base = a then (m.rcs.read rc).remain else 0 := by
    refine List.map_congr_left fun rc hrc => ?_
    obtain ⟨hs, hfrozen⟩ := hbacked .ask rc hrc
    simp [F, hs, hfrozen, Order.restFrozen]
  have hbids : (values m.bids).map F =
      (values m.bids).map fun rc => if m.quote = a then (m.rcs.read rc).remain *
      (m.rcs.read rc).price else 0 := by
    refine List.map_congr_left fun rc hrc => ?_
    obtain ⟨hs, hfrozen⟩ := hbacked .bid rc hrc
    simp [F, hs, hfrozen, Order.restFrozen]
  have hout : ∀ (l : List OrderRc) (p : Prop) [Decidable p] (f : OrderRc → Decimal),
      (l.map fun rc => if p then f rc else 0).sum = if p then (l.map f).sum else 0 := by
    intro l p _ f
    split <;> simp
  refine hsum.trans ?_
  rw [((orders_perm hd.index).map F).sum_eq, List.map_append, List.sum_append, hasks, hbids, hout,
    hout]
  rfl

/-- Over the users it is what each of them froze. -/
theorem holds_parts (hd : DeskOK ⟨m, x, none⟩) (a : String) {users : Finset Uuid}
    (husers : ∀ id o, m.resting id = some o → o.user ∈ users) :
    m.holds a = ∑ u ∈ users, m.frozenOf u a := by
  rw [← frozen_holds hd a, tally_parts (fun rc => (m.rcs.read rc).user) _
    (fun id rc hrc => husers id _ (resting_some.2 ⟨rc, hrc, rfl⟩))]
  refine Finset.sum_congr rfl fun u _ => tally_congr fun id rc _ => ?_
  unfold Order.frozenOf
  split_ifs <;> simp_all

end Market

/-! ## The balances of an asset -/

namespace BalanceManager

/-- The sum of the balances of one kind. -/
def kindTotal (bm : BalanceManager) (balanceType : BalanceType) (a : String) : Decimal :=
  hashTally (fun k amount => if k.asset = a ∧ k.balanceType = balanceType then amount else 0)
    bm.balances

/-- What the loop of `status` has added up after some entries. -/
theorem count_entries (a : String) (l : List (Sigma fun _ : BalanceMapKey => Decimal))
    (s : BalanceStatus) : let r := l.foldl (fun result e => result.count a e.1 e.2) s
    r.total = s.total + (l.map fun e => if e.1.asset = a then e.2 else 0).sum ∧
    r.available = s.available +
      (l.map fun e => if e.1.asset = a ∧ e.1.balanceType = .available then e.2 else 0).sum ∧
    r.frozen = s.frozen +
      (l.map fun e => if e.1.asset = a ∧ e.1.balanceType = .freeze then e.2 else 0).sum := by
  induction l generalizing s with
  | nil => simp
  | cons e l ih =>
    have hcount : (s.count a e.1 e.2).total = s.total + (if e.1.asset = a then e.2 else 0) ∧
        (s.count a e.1 e.2).available =
        s.available + (if e.1.asset = a ∧ e.1.balanceType = .available then e.2 else 0) ∧
        (s.count a e.1 e.2).frozen =
        s.frozen + if e.1.asset = a ∧ e.1.balanceType = .freeze then e.2 else 0 := by
      unfold BalanceStatus.count
      by_cases ha : e.1.asset = a <;> by_cases hz :
        e.2 = 0 <;> cases e.1.balanceType <;> simp [ha, hz]
    obtain ⟨htotal, havailable, hfrozen⟩ := ih (s.count a e.1 e.2)
    simp only [List.foldl_cons, List.map_cons, List.sum_cons]
    rw [htotal, havailable, hfrozen, hcount.1, hcount.2.1, hcount.2.2]
    simp only [add_assoc, and_self]

/-- **What `status` reports.** -/
theorem status_totals (bm : BalanceManager) (a : String) :
    (bm.status a).total = bm.statusTotal a ∧ (bm.status a).available = bm.kindTotal .available a ∧
      (bm.status a).frozen = bm.kindTotal .freeze a := by
  have h := count_entries a bm.balances.entries .default
  simp only [BalanceStatus.default, zero_add] at h
  exact h

/-- Each balance is available or frozen. -/
theorem kindTotal_add (bm : BalanceManager) (a : String) :
    bm.kindTotal .available a + bm.kindTotal .freeze a = bm.statusTotal a := by
  unfold kindTotal statusTotal hashTally
  rw [← List.sum_map_add]
  refine congrArg List.sum (List.map_congr_left fun e _ => ?_)
  by_cases ha : e.1.asset = a <;> cases ht : e.1.balanceType <;> simp [ha, ht]

/-- The balances of one kind, user by user. -/
theorem kindTotal_parts (bm : BalanceManager) (balanceType : BalanceType) (a : String)
    {users : Finset Uuid} (husers : ∀ k v, bm.balances.find? k = some v → k.userId ∈ users) :
    bm.kindTotal balanceType a = ∑ u ∈ users, bm.get u balanceType a := by
  unfold kindTotal
  rw [hashTally_parts BalanceMapKey.userId _ husers]
  refine Finset.sum_congr rfl fun u _ => ?_
  refine (hashTally_congr fun k v _ => ?_).trans (hashTally_single bm.balances ⟨u, balanceType, a⟩)
  obtain ⟨v', t', a'⟩ := k
  simp only [BalanceMapKey.mk.injEq]
  split_ifs <;> simp_all

end BalanceManager

/-! ## The exchange -/

/-- Some users, among them all with a balance or an open order. -/
theorem exists_users (c : Controller) : ∃ users : Finset Uuid,
    (∀ k v, c.balanceManager.balances.find? k = some v → k.userId ∈ users) ∧
    ∀ name m id o, c.markets.find? name = some m → m.resting id = some o → o.user ∈ users := by
  let holders : List Uuid := c.balanceManager.balances.entries.map fun e => e.1.userId
  let owners : List Uuid :=
    c.markets.entries.flatMap fun e => (values e.2.orders).map fun rc => (e.2.rcs.read rc).user
  refine ⟨(holders ++ owners).toFinset, fun k v hk => ?_, fun name m id o hm ho => ?_⟩
  · exact List.mem_toFinset.2
      (List.mem_append_left _ (List.mem_map.2 ⟨⟨k, v⟩, mem_entries_iff.2 hk, rfl⟩))
  · obtain ⟨rc, hrc, rfl⟩ := resting_some.1 ho
    refine List.mem_toFinset.2
      (List.mem_append_right _ (List.mem_flatMap.2 ⟨⟨name, m⟩, mem_entries_iff.2 hm, ?_⟩))
    exact List.mem_map.2 ⟨rc, mem_values.2 ⟨id, hrc⟩, rfl⟩

/-- **All frozen funds of an asset are held by open orders.** -/
theorem ControllerOK.frozen_holds (hc : ControllerOK b c) (hback : c.Backing) (a : String) :
    c.balanceManager.kindTotal .freeze a = hashTally (fun _ m => m.holds a) c.markets := by
  obtain ⟨users, hholders, howners⟩ := exists_users c
  rw [BalanceManager.kindTotal_parts _ _ _ hholders]
  have hmarket : ∀ name m, c.markets.find? name = some m → m.holds a = ∑ u ∈ users,
      m.frozenOf u a := fun name m hm =>
    holds_parts ((hc.desk name m hm).2 true) a fun id o ho => howners name m id o hm ho
  rw [hashTally_congr hmarket]
  have hswap : hashTally (fun _ m => ∑ u ∈ users, m.frozenOf u a) c.markets = ∑ u ∈ users,
      c.frozenOf u a := by
    unfold Controller.frozenOf hashTally
    induction c.markets.entries with
    | nil => simp
    | cons e l ih => simp only [List.map_cons, List.sum_cons, ih, Finset.sum_add_distrib]
  rw [hswap]
  exact Finset.sum_congr rfl fun u _ => hback u a

/-- **What `market_summary` answers**: an unknown market is refused, and no market is missing behind
the `unwrap`. -/
theorem marketSummary_eq (E : Env) (c : Controller) (names : List String) :
    c.marketSummary E names = .ok (if ∀ name ∈ names, (c.markets.find? name).isSome
      then .ok ((if names.isEmpty then c.markets.keys else names).filterMap fun name =>
        (c.markets.find? name).map fun m => m.status.summary E)
      else .error (invalidArgument "invalid market")) := by
  have hmap : ∀ l : List String, (∀ name ∈ l, (c.markets.find? name).isSome) →
      (l.mapM fun market => do
        let m ← unwrap .marketName (c.markets.find? market)
        return m.status.summary E : Except Panic (List MarketSummary)) =
      .ok (l.filterMap fun name => (c.markets.find? name).map fun m => m.status.summary E) := by
    intro l
    induction l with
    | nil => exact fun _ => rfl
    | cons name l ih =>
      intro h
      obtain ⟨m, hm⟩ := Option.isSome_iff_exists.1 (h name List.mem_cons_self)
      rw [List.mapM_cons, ih fun name hname => h name (List.mem_cons_of_mem _ hname),
        List.filterMap_cons, hm]
      rfl
  unfold Controller.marketSummary
  by_cases hall : ∀ name ∈ names, (c.markets.find? name).isSome
  · have hnone : (names.any fun market => (c.markets.find? market).isNone) = false := by
      rw [List.any_eq_false]
      intro name hname
      rw [Option.isNone_iff_eq_none, ← ne_eq, Option.ne_none_iff_isSome]
      exact hall name hname
    have hkeys : ∀ name ∈ (if names.isEmpty then c.markets.keys else names),
        (c.markets.find? name).isSome := by
      intro name hname
      split at hname
      · exact AList.lookup_isSome.2 hname
      · exact hall name hname
    rw [if_pos hall, hnone]
    simp only [Bool.false_eq_true, if_false]
    rw [hmap _ hkeys]
    rfl
  · have hsome : (names.any fun market => (c.markets.find? market).isNone) = true := by
      push Not at hall
      obtain ⟨name, hname, hfind⟩ := hall
      exact List.any_eq_true.2 ⟨name, hname, by simpa using hfind⟩
    rw [if_neg hall, hsome]
    rfl

/-- Asked for no market by name, it answers for all. -/
theorem Controller.marketSummary_all (E : Env) (c : Controller) :
    c.marketSummary E [] = .ok (.ok (c.markets.entries.map fun e => e.2.status.summary E)) := by
  rw [marketSummary_eq, if_pos (by simp)]
  refine congrArg (fun l => Except.ok (Except.ok l)) ?_
  show (c.markets.entries.map Sigma.fst).filterMap _ = _
  rw [List.filterMap_map, ← List.filterMap_eq_map]
  refine List.filterMap_congr fun e he => ?_
  show (c.markets.find? e.1).map _ = _
  rw [mem_entries_iff.1 he]
  rfl

end Dingir
