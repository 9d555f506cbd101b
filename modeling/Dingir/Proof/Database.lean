import Dingir.Proof.Slices
import Dingir.Spec.Sample

/-!
# Snapshots in the database

A dump that is alone in its second is loaded as it was taken
(`initFromDb_dumpToDb`). A dump into a second that has rows already is loaded as
it was taken exactly when those rows are rows of the dump itself
(`Stored.lastSlice_iff`): an older order row is kept in place of the new one, and
an order that is gone stays behind. What `clear_slice` deletes is never part of
the last slice (`lastSlice_makeSlice`).
-/

namespace Dingir

open Keyed Rounding Outcome Market Paging Table

variable {E : Env} {settings : Settings} {now : Timestamp} {c c' b : Controller} {m m' : Market}
  {db : Database} {sid time : ℤ}

/-! ## Clearing leaves the last slice alone -/

namespace Database

theorem balancesOf_deleteSlice (h : time ≠ sid) (db : Database) :
    (db.deleteSlice time).balancesOf sid = db.balancesOf sid := by
  unfold balancesOf
  show List.map _ ((db.balanceSlice.rows.filter _).filter _) = _
  rw [List.filter_filter]
  congr 1
  refine List.filter_congr fun e _ => ?_
  by_cases he : e.2.sliceId = sid
  · simp [he, Ne.symm h]
  · simp [he]

theorem ordersOf_deleteSlice (h : time ≠ sid) (db : Database) :
    (db.deleteSlice time).ordersOf sid = db.ordersOf sid := by
  unfold ordersOf
  show List.map _ ((db.orderSlice.rows.filter _).filter _) = _
  rw [List.filter_filter]
  congr 1
  refine List.filter_congr fun r _ => ?_
  by_cases hr : r.sliceId = sid
  · simp [hr, Ne.symm h]
  · simp [hr]

theorem getLastSlice_deleteSlice {r : HistoryRecord} (hr : db.getLastSlice = some r)
    (h : time ≠ r.time) : (db.deleteSlice time).getLastSlice = some r :=
  Serial.newest_delete hr (by simpa using Ne.symm h)

/-- Deleting another slice. -/
theorem lastSlice_deleteSlice {r : HistoryRecord} (hr : db.getLastSlice = some r)
    (h : time ≠ r.time) :
    (db.deleteSlice time).getLastSlice = some r ∧
    (db.deleteSlice time).lastSlice = db.lastSlice := by
  have hkept := getLastSlice_deleteSlice hr h
  refine ⟨hkept, ?_⟩
  unfold lastSlice
  rw [hkept, hr, Option.map_some, Option.map_some, balancesOf_deleteSlice h, ordersOf_deleteSlice h]

/-- **`clear_slice` deletes nothing of the slice it is called after.** -/
theorem lastSlice_clearSlice {r : HistoryRecord} (hr : db.getLastSlice = some r) :
    (db.clearSlice r.time).lastSlice = db.lastSlice := by
  unfold clearSlice
  simp only
  generalize hslices : (db.sliceHistory.rows.map fun e => e.2.time).filter
    (fun time => time ≤ r.time - SLICE_KEEP_TIME) = slices
  have hold : ∀ time ∈ slices, time ≠ r.time := by
    intro time htime
    rw [← hslices, List.mem_filter] at htime
    have hle : time ≤ r.time - SLICE_KEEP_TIME := of_decide_eq_true htime.2
    unfold SLICE_KEEP_TIME at hle
    omega
  clear hslices
  induction slices generalizing db with
  | nil => rfl
  | cons time slices ih =>
    obtain ⟨hkept, hsame⟩ := lastSlice_deleteSlice hr (hold time (by simp))
    exact (ih hkept fun t ht => hold t (List.mem_cons_of_mem _ ht)).trans hsame

theorem getLastSlice_dumpToDb (db : Database) (sid : ℤ) (c : Controller) :
    (db.dumpToDb sid c).getLastSlice = some ⟨sid, c.dump.history⟩ := Serial.newest_insert _ _

/-- The last slice after a dump. -/
theorem lastSlice_dumpToDb (db : Database) (sid : ℤ) (c : Controller) :
    (db.dumpToDb sid c).lastSlice =
    some ⟨(db.dumpToDb sid c).balancesOf sid, (db.dumpToDb sid c).ordersOf sid,
      c.dump.history⟩ := by
  unfold lastSlice
  rw [getLastSlice_dumpToDb]
  rfl

theorem lastSlice_makeSlice (db : Database) (sid : ℤ) (c : Controller) :
    (db.makeSlice sid c).lastSlice = (db.dumpToDb sid c).lastSlice :=
  lastSlice_clearSlice (getLastSlice_dumpToDb db sid c)

/-! ## The rows of a slice -/

theorem mem_ordersOf {row : OrderSlice} :
    row ∈ db.ordersOf sid ↔ (⟨sid, row⟩ : OrderRecord) ∈ db.orderSlice.rows := by
  unfold ordersOf
  simp only [List.mem_map, List.mem_filter, decide_eq_true_eq]
  constructor
  · rintro ⟨⟨s, r⟩, ⟨hr, rfl⟩, rfl⟩
    exact hr
  · exact fun hr => ⟨_, ⟨hr, rfl⟩, rfl⟩

theorem ordersOf_nodup (db : Database) (sid : ℤ) : ((db.ordersOf sid).map OrderSlice.id).Nodup := by
  unfold ordersOf
  rw [List.map_map]
  have hkeys := db.orderSlice.nodup.sublist
    ((List.filter_sublist (p := fun r : OrderRecord => decide (r.sliceId = sid))).map
      OrderRecord.key)
  refine (List.inj_on_of_nodup_map hkeys |> fun hinj => ?_)
  refine List.Nodup.map_on (fun r hr r' hr' hid => hinj hr hr' ?_) hkeys.of_map
  have hs : r.sliceId = sid := by simpa using (List.mem_filter.1 hr).2
  have hs' : r'.sliceId = sid := by simpa using (List.mem_filter.1 hr').2
  exact Prod.ext (hs.trans hs'.symm) hid

theorem mem_balancesOf {row : BalanceSlice} : row ∈ db.balancesOf sid ↔
    (row.id, (⟨sid, row.userId, row.asset, row.t, row.balance⟩ : BalanceSliceInsert)) ∈
      db.balanceSlice.rows := by
  unfold balancesOf
  simp only [List.mem_map, List.mem_filter, decide_eq_true_eq]
  constructor
  · rintro ⟨⟨i, r⟩, ⟨hr, rfl⟩, rfl⟩
    exact hr
  · exact fun hr => ⟨_, ⟨hr, rfl⟩, rfl⟩

theorem balancesOf_sorted (db : Database) (sid : ℤ) :
    (db.balancesOf sid).Pairwise fun a b => a.id < b.id := by
  unfold balancesOf
  rw [List.pairwise_map]
  exact db.balanceSlice.ascending.sublist List.filter_sublist

theorem balancesOf_pos {row : BalanceSlice} (h : row ∈ db.balancesOf sid) : 0 < row.id :=
  (db.balanceSlice.bounded _ (mem_balancesOf.1 h)).1

/-- The balance rows of a slice after a dump into it. -/
theorem balancesOf_dumpToDb (db : Database) (sid : ℤ) (c : Controller) : ∃ new,
    (db.dumpToDb sid c).balancesOf sid = db.balancesOf sid ++ new ∧
      (new.map fun row => (⟨row.key, row.balance⟩ : Sigma fun _ : BalanceMapKey => Decimal)) =
        c.balanceManager.balances.entries ∧
      ∀ row ∈ db.balancesOf sid, ∀ row' ∈ new, row.id < row'.id := by
  obtain ⟨new, hrows, hnew, hlast⟩ :=
    db.balanceSlice.insertAll_rows (balanceRecords sid c.balanceManager)
  have hsid : ∀ e ∈ new, e.2.sliceId = sid := by
    intro e he
    have hmem : e.2 ∈ balanceRecords sid c.balanceManager := hnew ▸ List.mem_map.2 ⟨e, he, rfl⟩
    obtain ⟨_, -, hrec⟩ := List.mem_map.1 hmem
    rw [← hrec]
  refine ⟨new.map fun e => { id := e.1, userId := e.2.userId, asset := e.2.asset, t := e.2.t,
                             balance := e.2.balance }, ?_, ?_, ?_⟩
  · have hall : (new.filter fun e => decide (e.2.sliceId = sid)) = new :=
      List.filter_eq_self.2 fun e he => by simpa using hsid e he
    unfold balancesOf
    rw [show (db.dumpToDb sid c).balanceSlice.rows = db.balanceSlice.rows ++ new from hrows,
      List.filter_append,
      List.map_append, hall]
  · have hentries : (balanceRecords sid c.balanceManager).map (fun r =>
        (⟨⟨r.userId, r.t, r.asset⟩, r.balance⟩ : Sigma fun _ : BalanceMapKey => Decimal)) =
          c.balanceManager.balances.entries := by
      unfold balanceRecords
      rw [List.map_map]
      exact List.map_id _
    rw [← hentries, ← hnew, List.map_map, List.map_map]
    rfl
  · intro row hrow row' hrow'
    obtain ⟨e, he, rfl⟩ := List.mem_map.1 hrow'
    have hle : row.id ≤ db.balanceSlice.last :=
      (db.balanceSlice.bounded _ (mem_balancesOf.1 hrow)).2
    have hlt : db.balanceSlice.last < e.1 := hlast e he
    show row.id < e.1
    omega

theorem orderRecords_keys (sid : ℤ) (hc : ControllerOK b c) :
    ((orderRecords sid c).map OrderRecord.key).Nodup := by
  have hkeys : (orderRecords sid c).map OrderRecord.key =
      ((dumpOrders c).map OrderSlice.id).map fun id => (sid, id) := by
    unfold orderRecords
    rw [List.map_map, List.map_map]
    rfl
  rw [hkeys]
  exact (dumpOrders_nodup hc).map fun i j hij => (Prod.mk.inj hij).2

/-- The order rows of a slice after a dump into it: those there before, and those with new ids. -/
theorem mem_ordersOf_dumpToDb (hc : ControllerOK b c) {row : OrderSlice} :
    row ∈ (db.dumpToDb sid c).ordersOf sid ↔
    row ∈ db.ordersOf sid ∨ (∃ r ∈ dumpOrders c, row = r.stored) ∧ ∀ old ∈ db.ordersOf sid,
      old.id ≠ row.id := by
  rw [mem_ordersOf, mem_ordersOf]
  show _ ∈ (db.orderSlice.insertAll (orderRecords sid c)).rows ↔ _
  rw [Unique.mem_insertAll (orderRecords_keys sid hc)]
  refine or_congr Iff.rfl (and_congr ?_ ?_)
  · unfold orderRecords
    simp only [List.mem_map, OrderRecord.mk.injEq, true_and]
    exact exists_congr fun r => and_congr_right fun _ => eq_comm
  · simp only [List.mem_map, not_exists, not_and]
    constructor
    · intro h old hold hid
      exact h ⟨sid, old⟩ (mem_ordersOf.1 hold) (Prod.ext rfl hid)
    · rintro h ⟨s, old⟩ hold hkey
      obtain ⟨rfl, hid⟩ := Prod.mk.inj hkey
      exact h old (mem_ordersOf.2 hold) hid

end Database

/-! ## What the tables hold -/

/-- A row as a dump has written it. -/
structure OrderSlice.Sound (b : Controller) (row : OrderSlice) : Prop where
  pos : 0 < row.id
  written : ∃ m o, b.markets.find? row.market = some m ∧ o.Backed m ∧
    row = (OrderSlice.fromOrder o).stored

/-- Every row of the slice was written for a controller created as `b`. -/
structure Database.OK (E : Env) (b : Controller) (db : Database) (sid : ℤ) : Prop where
  orders : ∀ row ∈ db.ordersOf sid, row.Sound b
  balances : ∀ row ∈ db.balancesOf sid, row.Loads E b.balanceManager.assetManager

theorem dumped_sound (hc : ControllerOK b c) {row : OrderSlice}
    (h : row ∈ dumpOrders c) : row.stored.Sound b := by
  obtain ⟨name, m, id, o, hm, ho, rfl⟩ := mem_dumpOrders.1 h
  obtain ⟨hname, hdesk⟩ := hc.desk name m hm
  have hd := hdesk true
  have hb := hd.backed id o ho
  obtain ⟨m₀, h₀, hterms⟩ := hc.terms name m hm
  have hmarket : o.market = name := hb.fits.market.trans hname
  refine ⟨?_, m₀, o, ?_, hb.of_terms hterms.symm, rfl⟩
  · have hpos := hc.pos name m id o hm ho
    rwa [← hd.index.resting_id ho] at hpos
  · show b.markets.find? o.market = some m₀
    rw [hmarket]
    exact h₀

theorem Database.OK.dumpToDb (h : db.OK E b sid) (hc : ControllerOK b c)
    (hs : c.balanceManager.Storable E) (time : ℤ) : (db.dumpToDb time c).OK E b sid := by
  refine ⟨fun row hrow => ?_, fun row hrow => ?_⟩
  · rw [Database.mem_ordersOf] at hrow
    rcases (Unique.mem_insertAll (Database.orderRecords_keys time hc) _).1 hrow with hold |
      ⟨hnew, -⟩
    · exact h.orders row (Database.mem_ordersOf.2 hold)
    · obtain ⟨r, hr, hrec⟩ := List.mem_map.1 hnew
      obtain ⟨-, rfl⟩ := OrderRecord.mk.inj hrec
      exact dumped_sound hc hr
  · rw [Database.mem_balancesOf] at hrow
    obtain ⟨new, hrows, hnew, -⟩ :=
      db.balanceSlice.insertAll_rows (balanceRecords time c.balanceManager)
    rw [show (db.dumpToDb time c).balanceSlice.rows = db.balanceSlice.rows ++
      new from hrows] at hrow
    rcases List.mem_append.1 hrow with hold | hmem
    · exact h.balances row (Database.mem_balancesOf.2 hold)
    have hrec : (⟨sid, row.userId, row.asset, row.t, row.balance⟩ : BalanceSliceInsert) ∈
        balanceRecords time c.balanceManager :=
      hnew ▸ List.mem_map.2 ⟨_, hmem, rfl⟩
    obtain ⟨⟨k, v⟩, he, heq⟩ := List.mem_map.1 hrec
    simp only [BalanceSliceInsert.mk.injEq] at heq
    obtain ⟨-, -, hasset, -, hbal⟩ := heq
    have hfind : c.balanceManager.balances.find? k = some v := mem_entries_iff.1 he
    have hv : c.balanceManager.getByKey k = row.balance := by
      unfold BalanceManager.getByKey
      rw [hfind]
      exact hbal
    obtain ⟨p, hp⟩ := hs.known k (by rw [hfind]; rfl)
    have hgrid := hc.gridded k p hp
    rw [hv] at hgrid
    refine ⟨⟨p, ?_, hgrid⟩, fun hE => hv ▸ hs.nonneg hE k⟩
    rw [← hasset, ← hc.assets]
    exact hp

/-- The rows suit every controller with the same settings. -/
theorem Database.OK.beside {b' : Controller} (h : db.OK E b sid)
    (hb' : ControllerOK b b') : db.OK E b' sid := by
  refine ⟨fun row hrow => ?_, fun row hrow => ?_⟩
  · obtain ⟨hpos, m₀, o, h₀, hbacked, hwritten⟩ := h.orders row hrow
    obtain ⟨m, hm⟩ := Option.isSome_iff_exists.1 (hb'.kept _ m₀ h₀)
    obtain ⟨m₁, h₁, hterms⟩ := hb'.terms _ m hm
    obtain rfl : m₀ = m₁ := Option.some.inj (h₀.symm.trans h₁)
    exact ⟨hpos, m, o, hm, hbacked.of_terms hterms, hwritten⟩
  · rw [hb'.assets]
    exact h.balances row hrow

theorem Database.OK.deleteSlice (h : db.OK E b sid) (time : ℤ) : (db.deleteSlice time).OK E b sid :=
  ⟨fun row hrow => h.orders row
    (Database.mem_ordersOf.2 (Unique.mem_delete.1 (Database.mem_ordersOf.1 hrow)).1),
    fun row hrow => h.balances row
      (Database.mem_balancesOf.2 (Serial.mem_delete.1 (Database.mem_balancesOf.1 hrow)).1)⟩

theorem Database.OK.clearSlice (h : db.OK E b sid) (time : ℤ) :
    (db.clearSlice time).OK E b sid := by
  unfold Database.clearSlice
  simp only
  generalize ((db.sliceHistory.rows.map fun e => e.2.time).filter fun t => t ≤
    time - SLICE_KEEP_TIME) = slices
  induction slices generalizing db with
  | nil => exact h
  | cons t slices ih => exact ih (h.deleteSlice t)

/-- Every row in the database was written by a dump. -/
theorem Stored.ok (h : Stored E settings db) (hb : createController settings = .ok b)
    (sid : ℤ) : db.OK E b sid := by
  induction h with
  | empty => exact ⟨fun _ hrow => by simp [Database.ordersOf, Database.empty, Unique.empty] at hrow,
      fun _ hrow => by simp [Database.balancesOf, Database.empty, Serial.empty] at hrow⟩
  | dumpToDb time _ hc ih =>
    obtain ⟨b', hb', hok⟩ := hc.ok
    obtain rfl : b = b' := Except.ok.inj (hb.symm.trans hb')
    exact ih.dumpToDb hok hc.storable time
  | makeSlice time _ hc ih =>
    obtain ⟨b', hb', hok⟩ := hc.ok
    obtain rfl : b = b' := Except.ok.inj (hb.symm.trans hb')
    exact (ih.dumpToDb hok hc.storable time).clearSlice time

/-! ## Rows that differ in times only -/

/-- `row'` is `row` but for the times. -/
def OrderSlice.Twin (row row' : OrderSlice) : Prop :=
  ∃ a b, row' = { row with createTime := a, updateTime := b }

/-- The row of an order is loaded as that order. -/
theorem OrderSlice.Twin.loaded {o : Order} {row : OrderSlice}
    (h : (OrderSlice.fromOrder o).Twin row) (ho : o.Backed m) : o.Twin (row.toOrder m).rested := by
  obtain ⟨a, b, rfl⟩ := h
  refine ⟨a, b, ?_⟩
  conv_rhs => rw [← ho.roundTrip]
  rfl

/-- A row that is loaded as an order is the row of that order. -/
theorem OrderSlice.Sound.twin {row : OrderSlice} {o : Order} (h : row.Sound b)
    (hm : b.markets.find? row.market = some m) (ho : o.Twin (row.toOrder m).rested) :
    (OrderSlice.fromOrder o).Twin row := by
  obtain ⟨-, m', p, hm', hp, rfl⟩ := h
  obtain rfl : m = m' := Option.some.inj (hm.symm.trans hm')
  have hstored : (OrderSlice.fromOrder p).Twin (OrderSlice.fromOrder p).stored := ⟨_, _, rfl⟩
  obtain ⟨a, b, hload⟩ := hstored.loaded hp
  obtain ⟨a', b', hload'⟩ := ho
  rw [hload] at hload'
  -- the two orders have the same fields but for the times
  cases o
  cases p
  simp only [Order.mk.injEq] at hload'
  simp only [OrderSlice.Twin, OrderSlice.stored, OrderSlice.fromOrder, OrderSlice.mk.injEq]
  exact ⟨_, _, by simp [hload'], by simp [hload'], by simp [hload'], rfl, rfl, by simp [hload']⟩

/-! ## Loading what a dump has left -/

/-- **What is stored under the slice id already** are rows of the dump itself: the
orders as they rest now, but for their times, and balances the controller still has. -/
structure Database.Agrees (db : Database) (sid : ℤ) (c : Controller) : Prop where
  orders : ∀ row ∈ db.ordersOf sid, ∃ m o, c.markets.find? row.market = some m ∧
    m.resting row.id = some o ∧
    (OrderSlice.fromOrder o).Twin row
  balances : ∀ row ∈ db.balancesOf sid, (c.balanceManager.balances.find? row.key).isSome

/-- Nothing is stored under the slice id. -/
structure Database.Free (db : Database) (sid : ℤ) : Prop where
  orders : db.ordersOf sid = []
  balances : db.balancesOf sid = []

theorem Database.Free.ok (h : db.Free sid) : db.OK E b sid :=
  ⟨by simp [h.orders], by simp [h.balances]⟩

theorem Database.Free.agrees (h : db.Free sid) (c : Controller) : db.Agrees sid c :=
  ⟨by simp [h.orders], by simp [h.balances]⟩

/-- What loading the slice of a dump gives. -/
structure LoadedDump (b c₁ : Controller) (balances : List BalanceSlice)
    (orders : List OrderSlice) : Prop where
  kept : ∃ bm markets, c₁ = { b with balanceManager := bm, markets }
  balances : ∀ k, c₁.balanceManager.balances.find? k = lastBalance balances k
  orders : Loaded b.markets c₁.markets orders

/-- **Loading a slice returns**, in every build. -/
theorem loadSlice_total (hb : b.Fresh) (hdb : db.OK E b sid) (history : SliceHistory) :
    ∃ c₁, b.loadSlice E ⟨db.balancesOf sid, db.ordersOf sid, history⟩ = .ok c₁ ∧
      LoadedDump b c₁ (db.balancesOf sid) (db.ordersOf sid) := by
  have hbalances : (pages BalanceSlice.id QUERY_LIMIT false (db.balancesOf sid) 0).flatten =
      db.balancesOf sid :=
    flatten_pages_of_sorted _ (by decide) _ (db.balancesOf_sorted sid) fun row hrow =>
      Database.balancesOf_pos hrow
  have horders : (pages OrderSlice.id QUERY_LIMIT false (db.ordersOf sid) 0).flatten.Perm
      (db.ordersOf sid) := by
    rw [flatten_pages _ (by decide) _ (db.ordersOf_nodup sid)]
    exact above_perm _ fun row hrow => (hdb.orders row hrow).pos
  have hloads : ∀ row ∈ db.ordersOf sid, row.Loads b.markets := by
    intro row hrow
    obtain ⟨m, o, hm, ho, hwritten⟩ := (hdb.orders row hrow).written
    refine ⟨by rw [hm]; rfl, ?_⟩
    rw [hwritten]
    exact ho.limit
  obtain ⟨bm, hbm, hfind⟩ := loadBalances_total hdb.balances
  obtain ⟨markets, hmarkets, hloaded⟩ := loadOrders_total (E := E) hb.blank.markets
    ((horders.map _).nodup_iff.2 (db.ordersOf_nodup sid)) fun row hrow =>
    hloads row (horders.mem_iff.1 hrow)
  refine ⟨{ b with balanceManager := bm, markets }, ?_, ⟨bm, markets, rfl⟩, fun k => ?_,
    hloaded.perm horders⟩
  · simp only [Controller.loadSlice, hbalances]
    exact bind_ok.2 ⟨bm, hbm, bind_ok.2 ⟨markets, hmarkets, rfl⟩⟩
  · show bm.balances.find? k = _
    rw [hfind k, hb.balances k, Option.or_none]

/-- Every row of the slice of a dump is the row of a resting order. -/
theorem Database.Agrees.rests (h : db.Agrees sid c) (hc : ControllerOK b c) :
    ∀ row ∈ (db.dumpToDb sid c).ordersOf sid, ∃ m o, c.markets.find? row.market = some m ∧
      m.resting row.id = some o ∧
      (OrderSlice.fromOrder o).Twin row := by
  intro row hrow
  rcases (Database.mem_ordersOf_dumpToDb hc).1 hrow with hold | ⟨⟨r, hr, rfl⟩, -⟩
  · exact h.orders row hold
  · obtain ⟨name, m, id, o, hm, ho, rfl⟩ := mem_dumpOrders.1 hr
    obtain ⟨hname, hdesk⟩ := hc.desk name m hm
    have hd := hdesk true
    have hmarket : o.market = name := (hd.backed id o ho).fits.market.trans hname
    have hid : o.id = id := hd.index.resting_id ho
    refine ⟨m, o, ?_, ?_, _, _, rfl⟩
    · show c.markets.find? o.market = some m
      rw [hmarket]
      exact hm
    · show m.resting o.id = some o
      rw [hid]
      exact ho

/-- Every resting order has a row in the slice of a dump. -/
theorem Database.Agrees.has (h : db.Agrees sid c) (hc : ControllerOK b c) {name : String} {id : ℕ}
    {o : Order} (hm : c.markets.find? name = some m) (ho : m.resting id = some o) :
    ∃ row ∈ (db.dumpToDb sid c).ordersOf sid, row.market = name ∧ row.id = id ∧
      (OrderSlice.fromOrder o).Twin row := by
  obtain ⟨hname, hdesk⟩ := hc.desk name m hm
  have hd := hdesk true
  have hmarket : o.market = name := (hd.backed id o ho).fits.market.trans hname
  have hid : o.id = id := hd.index.resting_id ho
  by_cases hnew : ∀ old ∈ db.ordersOf sid, old.id ≠ (OrderSlice.fromOrder o).stored.id
  · refine ⟨(OrderSlice.fromOrder o).stored,
      (Database.mem_ordersOf_dumpToDb hc).2 (.inr ⟨⟨_, ?_, rfl⟩, hnew⟩), hmarket, hid,
      _, _, rfl⟩
    exact mem_dumpOrders.2 ⟨name, m, id, o, hm, ho, rfl⟩
  · -- the row that is in the way is the row of the same order
    push Not at hnew
    obtain ⟨old, hold, hsame⟩ := hnew
    have hid' : old.id = id := hsame.trans hid
    obtain ⟨m', o', hm', ho', htwin⟩ := h.orders old hold
    rw [hid'] at ho'
    have hmkt : old.market = name := hc.disjoint _ _ m' m id o' o hm' hm ho' ho
    rw [hmkt] at hm'
    obtain rfl : m = m' := Option.some.inj (hm.symm.trans hm')
    obtain rfl : o = o' := Option.some.inj (ho.symm.trans ho')
    exact ⟨old, (Database.mem_ordersOf_dumpToDb hc).2 (.inl hold), hmkt, hid', htwin⟩

variable {c₁ : Controller}

/-- The balances of a dump are the newest of their rows. -/
theorem Database.Agrees.lastBalance (h : db.Agrees sid c) (k : BalanceMapKey) :
    lastBalance ((db.dumpToDb sid c).balancesOf sid) k = c.balanceManager.balances.find? k := by
  obtain ⟨new, hrows, hentries, hlater⟩ := db.balancesOf_dumpToDb sid c
  have hmem : ∀ row ∈ new, c.balanceManager.balances.find? row.key = some row.balance :=
    fun row hrow =>
    mem_entries_iff.1 (hentries ▸ List.mem_map.2 ⟨row, hrow, rfl⟩)
  cases hk : c.balanceManager.balances.find? k with
  | none =>
    refine lastBalance_none fun row hrow => ?_
    rintro rfl
    rw [hrows] at hrow
    rcases List.mem_append.1 hrow with hold | hnew
    · have hsome := h.balances row hold
      rw [hk] at hsome
      simp at hsome
    · rw [hmem row hnew] at hk
      simp at hk
  | some v =>
    obtain ⟨row, hrow, he⟩ := List.mem_map.1 (hentries ▸ mem_entries_iff.2 hk)
    obtain ⟨rfl, hv⟩ := Sigma.mk.inj_iff.1 he
    obtain rfl : row.balance = v := eq_of_heq hv
    have hkeys : (new.map BalanceSlice.key).Nodup := by
      have hnodup : (c.balanceManager.balances.entries.map Sigma.fst).Nodup :=
        c.balanceManager.balances.nodupKeys
      rwa [← hentries, List.map_map] at hnodup
    refine lastBalance_of_newest (Database.balancesOf_sorted _ sid)
      (by rw [hrows]; exact List.mem_append_right _ hrow) ?_
    intro r hr hkey
    rw [hrows] at hr
    rcases List.mem_append.1 hr with hold | hnew
    · exact (hlater r hold row hrow).le
    · rw [List.inj_on_of_nodup_map hkeys hnew hrow hkey]

/-- **A dump that agrees with what is stored under its id is loaded as it was taken.** -/
theorem LoadedDump.same
    (h : LoadedDump b c₁ ((db.dumpToDb sid c).balancesOf sid) ((db.dumpToDb sid c).ordersOf sid))
    (hc : ControllerOK b c) (hagrees : db.Agrees sid c) : SameHoldings c c₁ := by
  refine ⟨fun k => (h.balances k).trans (hagrees.lastBalance k), fun name => ?_⟩
  cases hm : c.markets.find? name with
  | none =>
    cases hm' : c₁.markets.find? name with
    | none => exact .none
    | some m' =>
      obtain ⟨m₀, h₀, -⟩ := (h.orders name).1 m' hm'
      have hkept := hc.kept name m₀ h₀
      rw [hm] at hkept
      simp at hkept
  | some m =>
    obtain ⟨m₀, h₀, hterms⟩ := hc.terms name m hm
    obtain ⟨m', hm'⟩ := Option.isSome_iff_exists.1 ((h.orders name).2 (by rw [h₀]; rfl))
    obtain ⟨m₁, h₁, hterms', hindex, hholds⟩ := (h.orders name).1 m' hm'
    obtain rfl : m₀ = m₁ := Option.some.inj (h₀.symm.trans h₁)
    have hd := (hc.desk name m hm).2 true
    rw [hm']
    refine .some (hd.index.sameBook hindex fun id => ?_)
    cases ho : m.resting id with
    | some o =>
      obtain ⟨row, hrow, hmarket, hid, htwin⟩ := hagrees.has hc hm ho
      rw [(hholds id _).2 ⟨row, hrow, hmarket, hid, rfl⟩]
      exact .some (htwin.loaded ((hd.backed id o ho).of_terms (hterms.symm.trans hterms')))
    | none =>
      cases ho' : m'.resting id with
      | none => exact .none
      | some o' =>
        obtain ⟨row, hrow, rfl, rfl, -⟩ := (hholds id o').1 ho'
        obtain ⟨m₂, o₂, hm₂, ho₂, -⟩ := hagrees.rests hc row hrow
        obtain rfl : m = m₂ := Option.some.inj (hm.symm.trans hm₂)
        rw [ho] at ho₂
        simp at ho₂

/-- A slice that is loaded as the controller that was dumped held no other rows. -/
theorem LoadedDump.agrees
    (h : LoadedDump b c₁ ((db.dumpToDb sid c).balancesOf sid) ((db.dumpToDb sid c).ordersOf sid))
    (hc : ControllerOK b c) (hdb : db.OK E b sid)
    (hsame : SameHoldings c c₁) : db.Agrees sid c := by
  refine ⟨fun row hrow => ?_, fun row hrow => ?_⟩
  · obtain ⟨m₀, o₀, h₀, ho₀, hwritten⟩ := (hdb.orders row hrow).written
    obtain ⟨m, hm⟩ := Option.isSome_iff_exists.1 (hc.kept _ m₀ h₀)
    obtain ⟨m', hm'⟩ := Option.isSome_iff_exists.1 ((h.orders row.market).2 (by rw [h₀]; rfl))
    obtain ⟨m₁, h₁, hterms, -, hholds⟩ := (h.orders row.market).1 m' hm'
    obtain rfl : m₀ = m₁ := Option.some.inj (h₀.symm.trans h₁)
    have hloaded :=
      (hholds row.id _).2 ⟨row, (Database.mem_ordersOf_dumpToDb hc).2 (.inl hrow), rfl, rfl, rfl⟩
    have hbook := hsame.markets row.market
    rw [hm, hm'] at hbook
    cases hbook with
    | some hbook =>
      have hrel := hbook.orders row.id
      rw [hloaded, OrderSlice.toOrder_of_terms hterms] at hrel
      generalize hx : m.resting row.id = x at hrel
      cases hrel with
      | some htwin => exact ⟨m, _, hm, hx, (hdb.orders row hrow).twin h₀ htwin⟩
  · obtain ⟨new, hrows, -⟩ := db.balancesOf_dumpToDb sid c
    have hsome : (Dingir.lastBalance ((db.dumpToDb sid c).balancesOf sid) row.key).isSome := by
      unfold Dingir.lastBalance
      rw [Option.isSome_map, List.find?_isSome]
      exact ⟨row, by rw [hrows]; simp [hrow], by simp⟩
    rw [← hsame.balances, h.balances]
    exact hsome

/-- A controller restored as it was: its holdings, and its counters. -/
structure Restored (c c' : Controller) : Prop extends SameHoldings c c' where
  orderId : c'.sequencer.orderId = c.sequencer.orderId
  tradeId : c'.sequencer.tradeId = c.sequencer.tradeId
  operationLogId : c'.sequencer.operationLogId = c.sequencer.operationLogId

/-- **Recovery undoes a dump into a free slice**, when no later operation is logged. -/
theorem initFromDb_dumpToDb {log : List OperationLog} (hc : Reachable E settings c)
    (hb : createController settings = .ok b) (hfree : db.Free sid)
    (hlog : ∀ l ∈ log, l.id ≤ c.sequencer.operationLogId) :
    ∃ c', b.initFromDb E now (db.dumpToDb sid c).lastSlice log = .ok c' ∧ Restored c c' := by
  obtain ⟨b', hb', hok⟩ := hc.ok
  obtain rfl : b = b' := Except.ok.inj (hb.symm.trans hb')
  have hdb : (db.dumpToDb sid c).OK E b sid := hfree.ok.dumpToDb hok hc.storable sid
  obtain ⟨c₁, hload, hloaded⟩ := loadSlice_total (createController_fresh hb) hdb c.dump.history
  have hsame := hloaded.same hok (hfree.agrees c)
  have hpages : pages OperationLog.id QUERY_LIMIT true log c.sequencer.operationLogId = [] :=
    pages_none _ hlog
  refine ⟨{ c₁.withCounters c.dump.history with
    sequencer :=
      (c₁.withCounters c.dump.history).sequencer.setOperationLogId c.sequencer.operationLogId },
    ?_,
    ⟨hsame.balances, hsame.markets⟩, rfl, rfl, rfl⟩
  rw [Database.lastSlice_dumpToDb]
  refine bind_ok.2 ⟨c₁, hload, ?_⟩
  show Controller.loadOperationLog E now (c₁.withCounters c.dump.history) log
    c.sequencer.operationLogId = _
  simp only [Controller.loadOperationLog, hpages]
  rfl

/-- An ask that rests. -/
def sampleStored : List Request :=
  [requestAt 0 bob (depositOf "ETH" 1 "10"),
    requestAt 100 bob (.orderPut (limitOrder .ask "2" "100"))]

/-- The ask is dumped and restored. -/
theorem initFromDb_dumpToDb_sampleStored :
    ∃ c b c' : Controller, (c.markets.find? "ETH_USDT").any (fun m => (m.resting 1).isSome) ∧
    b.initFromDb releaseEnv 101 (Database.empty.dumpToDb 100 c).lastSlice c.logHandler = .ok c' ∧
    Restored c c' := by
  have h : (sampleRun releaseEnv sampleStored >>=
      fun c => pure ((c.markets.find? "ETH_USDT").any (fun m => (m.resting 1).isSome),
      c.logHandler.map OperationLog.id, c.sequencer.operationLogId)) = (.ok (true, [1, 2], 2) :
        Except Panic _) := by decide +kernel
  simp only [bind_ok, pure_ok, Prod.mk.injEq] at h
  obtain ⟨c, hc, hrests, hids, hid⟩ := h
  obtain ⟨b, replies, hb, -⟩ := sampleRun_ok hc
  have hlog : ∀ l ∈ c.logHandler, l.id ≤ c.sequencer.operationLogId := by
    intro l hl
    have hmem : l.id ∈ [1, 2] := hids ▸ List.mem_map.2 ⟨l, hl, rfl⟩
    rw [hid]
    simp only [List.mem_cons, List.not_mem_nil, or_false] at hmem
    omega
  have hfree : Database.empty.Free 100 := ⟨rfl, rfl⟩
  obtain ⟨c', hc', hrestored⟩ :
      ∃ c', b.initFromDb releaseEnv 101 (Database.empty.dumpToDb 100 c).lastSlice c.logHandler =
      .ok c' ∧ Restored c c' := initFromDb_dumpToDb (sampleRun_reachable hc) hb hfree hlog
  exact ⟨c, b, c', hrests, hc', hrestored⟩

/-- The slice of a dump is loaded as it was taken exactly when the dump agrees with what
is stored under its id. -/
theorem loadSlice_dumpToDb_iff (hok : ControllerOK b c) (hs : c.balanceManager.Storable E)
    (hb : createController settings = .ok b) (hdb : db.OK E b sid) :
    (∃ slice c₁, (db.dumpToDb sid c).lastSlice = some slice ∧ b.loadSlice E slice = .ok c₁ ∧
      SameHoldings c c₁) ↔
      db.Agrees sid c := by
  obtain ⟨c₁, hload, hloaded⟩ :=
    loadSlice_total (createController_fresh hb) (hdb.dumpToDb hok hs sid) c.dump.history
  rw [Database.lastSlice_dumpToDb]
  constructor
  · rintro ⟨slice, c₂, hslice, hload', hsame⟩
    obtain rfl := Option.some.inj hslice
    obtain rfl : c₁ = c₂ := Except.ok.inj (hload.symm.trans hload')
    exact hloaded.agrees hok hdb hsame
  · exact fun hagrees => ⟨_, c₁, rfl, hload, hloaded.same hok hagrees⟩

/-- **The last slice is the last dump exactly when the dump agrees with what is
stored under its id**, whatever was dumped and cleared before. -/
theorem Stored.lastSlice_iff {db' : Database} (hdb : Stored E settings db)
    (hc : Reachable E settings c) (hb : createController settings = .ok b)
    (hlast : db' = db.dumpToDb sid c ∨ db' = db.makeSlice sid c) :
    (∃ slice c₁, db'.lastSlice = some slice ∧ b.loadSlice E slice = .ok c₁ ∧ SameHoldings c c₁) ↔
      db.Agrees sid c := by
  obtain ⟨b', hb', hok⟩ := hc.ok
  obtain rfl : b = b' := Except.ok.inj (hb.symm.trans hb')
  have hslice : db'.lastSlice = (db.dumpToDb sid c).lastSlice := by
    rcases hlast with rfl | rfl
    · rfl
    · exact Database.lastSlice_makeSlice db sid c
  rw [hslice]
  exact loadSlice_dumpToDb_iff hok hc.storable hb (hdb.ok hb sid)

/-- Two dumps of the same ask, in different seconds. -/
theorem Stored.lastSlice_iff_sampleStored : ∃ c b c₁ : Controller, ∃ slice,
    (c.markets.find? "ETH_USDT").any (fun m => (m.resting 1).isSome) ∧
      ((Database.empty.dumpToDb 100 c).makeSlice 101 c).lastSlice = some slice ∧
      b.loadSlice releaseEnv slice = .ok c₁ ∧ SameHoldings c c₁ := by
  have h : (sampleRun releaseEnv sampleStored >>=
      fun c => pure ((c.markets.find? "ETH_USDT").any (fun m => (m.resting 1).isSome),
      ((Database.empty.dumpToDb 100 c).ordersOf 101).length,
      ((Database.empty.dumpToDb 100 c).balancesOf 101).length)) =
        (.ok (true, 0, 0) : Except Panic _) := by decide +kernel
  simp only [bind_ok, pure_ok, Prod.mk.injEq, List.length_eq_zero_iff] at h
  obtain ⟨c, hc, hrests, horders, hbalances⟩ := h
  obtain ⟨b, replies, hb, -⟩ := sampleRun_ok hc
  have hreach := sampleRun_reachable hc
  have hfree : (Database.empty.dumpToDb 100 c).Free 101 := ⟨horders, hbalances⟩
  obtain ⟨slice, c₁, hslice, hload, hsame⟩ :=
    (Stored.lastSlice_iff (Stored.empty.dumpToDb 100 hreach) hreach hb (.inr rfl)).2
      (hfree.agrees c)
  exact ⟨c, b, c₁, slice, hrests, hslice, hload, hsame⟩

/-- The ask is dumped, cancelled, and the exchange is dumped again in the same second: the
slice that is loaded still holds the ask. -/
theorem Stored.not_isolated :
    ¬ ∀ settings db db' c b sid, Stored releaseEnv settings db → Reachable releaseEnv settings c →
    createController settings = .ok b → (db' = db.dumpToDb sid c ∨ db' = db.makeSlice sid c) →
    ∃ slice c₁, db'.lastSlice = some slice ∧ b.loadSlice releaseEnv slice = .ok c₁ ∧
      SameHoldings c c₁ := by
  intro hall
  let cancelled := requestAt 100 bob (.orderCancel { market := "ETH_USDT", orderId := 1 })
  have h : (sampleRun releaseEnv sampleStored >>= fun c => c.call releaseEnv cancelled >>= fun t =>
      unwrap .marketName (t.2.markets.find? "ETH_USDT") >>= fun m =>
      pure (((Database.empty.dumpToDb 100 c).ordersOf 100).map (fun row => (row.id, row.market)),
        (m.resting 1).isSome)) =
        (.ok ([(1, "ETH_USDT")], false) : Except Panic _) := by decide +kernel
  simp only [bind_ok, pure_ok, unwrap_ok, Prod.mk.injEq] at h
  obtain ⟨c, hc, ⟨reply, c'⟩, hcall, m, hm, hrows, hgone⟩ := h
  obtain ⟨b, replies, hb, -⟩ := sampleRun_ok hc
  have hreach := sampleRun_reachable hc
  have hreach' := hreach.call hcall
  have hstored : Stored releaseEnv sampleSettings (Database.empty.dumpToDb 100 c) :=
    Stored.empty.dumpToDb 100 hreach
  obtain ⟨b', hb', hok⟩ := hreach'.ok
  obtain rfl : b = b' := Except.ok.inj (hb.symm.trans hb')
  have hagrees := (loadSlice_dumpToDb_iff hok hreach'.storable hb (hstored.ok hb 100)).1
    (hall sampleSettings _ _ c' b 100 hstored hreach' hb (.inl rfl))
  -- the row of the ask is stored, and the ask is gone
  have hrow : (1, "ETH_USDT") ∈
      ((Database.empty.dumpToDb 100 c).ordersOf 100).map (fun row => (row.id, row.market)) := by
    rw [hrows]
    exact List.mem_singleton.2 rfl
  obtain ⟨row, hmem, hkey⟩ := List.mem_map.1 hrow
  obtain ⟨hid, hmarket⟩ := Prod.mk.inj hkey
  obtain ⟨m', o, hm', ho, -⟩ := hagrees.orders row hmem
  rw [hmarket] at hm'
  obtain rfl : m = m' := Option.some.inj (hm.symm.trans hm')
  rw [← hid, ho] at hgone
  simp at hgone

end Dingir
