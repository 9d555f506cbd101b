import Dingir.Lib.Paging
import Dingir.Proof.Pipeline
import Dingir.Proof.Venue
import Dingir.Spec.History

/-!
# What the history shows

The rows of the history are those of the messages the engine told (`Pipeline.OK.tells`), and
each may be there more than once, since a persistor that starts again is handed the
messages behind the last commit once more. Two handlers read them.

* **`Pipeline.Runs.showsOrders`**: `order_history` has the id of the order as its key, and an order
  is closed once, so a row that is inserted again changes nothing. `my_orders` shows each
  closed order once, and once the history has caught up an order either rests or is shown.
* **`Pipeline.Runs.showsTrades`**: `user_trade` has no such key. `order_trades` shows the trades of
  the order as they were made, but a trade twice when its row was written twice
  (`Pipeline.Runs.showsTrade_twice`); without a restart what it shows adds up to the order.
-/

namespace Dingir

open Keyed Guarded Stream Outcome Market

variable {M T : Type} {E : Env} {settings : Settings} {config : DatabaseWriterConfig}
  {topic : Topic M T} {b c c₀ : Controller} {ms : List Message} {t : Trade} {id : ℕ}

/-! ## The engine of a pipeline -/

namespace Pipeline

variable {s s' s₀ : Pipeline M T} {p p' : ℤ} {message : Message}

/-- The engine moves by real calls only. -/
theorem step_engine {a : PipelineAction M T} (h : s.step E config topic a = some s') :
    s'.engine = s.engine ∨ ∃ q reply, q.real = true ∧
      s.engine.call E q = .ok (reply, s'.engine) := by
  cases a with
  | call q =>
    simp only [Pipeline.step] at h
    split at h
    · rename_i hguard
      split at h
      · rename_i reply engine hcall
        obtain rfl := Option.some.inj h
        exact .inr ⟨q, reply, hguard.2, hcall⟩
      · cases h
    · cases h
  | push =>
    simp only [Pipeline.step] at h
    split at h
    · cases h
    · obtain ⟨stub, -, rfl⟩ := Option.map_eq_some_iff.1 h
      exact .inl rfl
  | place partition =>
    simp only [Pipeline.step] at h
    split at h
    · obtain rfl := Option.some.inj h
      exact .inl rfl
    · cases h
  | deliver p =>
    simp only [Pipeline.step] at h
    split at h
    · cases h
    · obtain ⟨persistor, -, rfl⟩ := Option.map_eq_some_iff.1 h
      exact .inl rfl
  | persist a =>
    cases a with
    | deliver m => cases h
    | _ =>
      obtain ⟨persistor, -, rfl⟩ := Option.map_eq_some_iff.1 h
      exact .inl rfl
  | _ =>
    obtain ⟨_, -, rfl⟩ := Option.map_eq_some_iff.1 h
    exact .inl rfl

/-- The engine of a pipeline that began empty. -/
theorem recorded (hc : createController settings = .ok c₀) (hs : start topic c₀ = some s₀)
    (h : Guarded.Runs (Pipeline.step E config topic) (Orderly topic) s₀ s) :
    Recorded c₀ s.engine := by
  have hstart : Recorded c₀ s₀.engine := by
    obtain ⟨persistor, -, rfl⟩ := Option.map_eq_some_iff.1 hs
    exact .start hc
  refine Guarded.Runs.rule (I := fun s => Recorded c₀ s.engine) (fun s a s' hs _ hstep => ?_) hstart
    h
  rcases step_engine hstep with hsame | ⟨q, reply, hreal, hcall⟩
  · rwa [hsame]
  · exact hs.call hreal hcall

/-- An engine that began empty has told all of its messages since. -/
theorem mem_told (hempty : c₀.persistor = []) :
    message ∈ s.told topic c₀ ↔ message ∈ s.engine.persistor ∧ message.topic = topic.name := by
  unfold told
  rw [hempty, List.length_nil, List.drop_zero, List.mem_filter, decide_eq_true_eq]

/-! ## The log of a topic -/

/-- **The history has caught up**: all that was told is in the log, before the committed offsets. -/
structure CaughtUp (topic : Topic M T) (c₀ : Controller) (s : Pipeline M T) : Prop where
  sent : s.records topic = s.told topic c₀
  placed : s.placed.length = (s.records topic).length
  kept : none ∉ s.placed
  committed : ∀ p, (s.log topic p).length ≤ s.committed p

theorem mem_log : message ∈ s.log topic p ↔ (message, some p) ∈ (s.records topic).zip s.placed := by
  unfold log
  rw [List.mem_filterMap]
  constructor
  · rintro ⟨⟨m, partition⟩, he, hmatch⟩
    simp only [Option.ite_none_right_eq_some, Option.some.injEq] at hmatch
    obtain ⟨rfl, rfl⟩ := hmatch
    exact he
  · intro he
    exact ⟨_, he, if_pos rfl⟩

/-- **Each message has a place in the log**, before a committed offset. -/
theorem CaughtUp.logged (h : s.CaughtUp topic c₀) (hm : message ∈ s.told topic c₀) :
    ∃ p offset, (s.log topic p)[offset]? = some message ∧ offset < s.committed p := by
  rw [← h.sent] at hm
  obtain ⟨i, hi, hmessage⟩ := List.mem_iff_getElem.1 hm
  have hi' : i < s.placed.length := h.placed ▸ hi
  obtain ⟨p, hp⟩ : ∃ p, s.placed[i] = some p := by
    refine Option.ne_none_iff_exists'.1 fun hnone => h.kept ?_
    rw [← hnone]
    exact List.getElem_mem hi'
  have hlog : message ∈ s.log topic p := by
    rw [mem_log, List.mem_iff_getElem]
    exact ⟨i, by rw [List.length_zip]; omega, by rw [List.getElem_zip, hmessage, hp]⟩
  obtain ⟨offset, hoffset⟩ := List.mem_iff_getElem?.1 hlog
  have hlt := (List.getElem?_eq_some_iff.1 hoffset).1
  exact ⟨p, offset, hoffset, hlt.trans_le (h.committed p)⟩

/-- A topic with one partition has caught up when as many messages are committed as were told. -/
theorem CaughtUp.of_one (hsent : s.records topic <+: s.told topic c₀)
    (hplaced : s.placed = List.replicate (s.told topic c₀).length (some p))
    (hlength : (s.told topic c₀).length ≤ (s.records topic).length)
    (hcommitted : (s.told topic c₀).length ≤ s.committed p) : s.CaughtUp topic c₀ := by
  have hrecords : s.records topic = s.told topic c₀ := hsent.eq_of_length_le hlength
  refine ⟨hrecords, by rw [hplaced, hrecords, List.length_replicate], ?_, fun p' => ?_⟩
  · rw [hplaced]
    simp
  · by_cases hp : p' = p
    · subst hp
      exact (log_sublist topic s p').length_le.trans (hrecords ▸ hcommitted)
    · -- nothing was put on another partition
      have hnone : s.log topic p' = [] := by
        refine List.eq_nil_iff_forall_not_mem.2 fun message hm => ?_
        have hlabel := (List.of_mem_zip (mem_log.1 hm)).2
        rw [hplaced] at hlabel
        exact hp (Option.some.inj (List.eq_of_mem_replicate hlabel))
      rw [hnone]
      exact Nat.zero_le _

/-- Where no message is told twice, each has one place in the log. -/
theorem log_apart (hnodup : (s.records topic).Nodup) {i j : ℕ}
    (hi : (s.log topic p)[i]? = some message)
    (hj : (s.log topic p')[j]? = some message) : p = p' ∧ i = j := by
  have hzip : (((s.records topic).zip s.placed).map Prod.fst).Nodup := by
    rw [List.zip_eq_zip_take_min, List.map_fst_zip (by simp)]
    exact hnodup.sublist (List.take_sublist _ _)
  have hlabels := List.inj_on_of_nodup_map hzip (mem_log.1 (List.mem_of_getElem? hi))
    (mem_log.1 (List.mem_of_getElem? hj)) rfl
  obtain rfl : p = p' := Option.some.inj (Prod.mk.inj hlabels).2
  obtain ⟨hlt, hi⟩ := List.getElem?_eq_some_iff.1 hi
  obtain ⟨hlt', hj⟩ := List.getElem?_eq_some_iff.1 hj
  exact ⟨rfl, (hnodup.sublist (log_sublist topic s p)).getElem_inj_iff.1 (hi.trans hj.symm)⟩

end Pipeline

/-! ## The closed orders -/

theorem mem_orderHistoryRows {row : OrderHistory} :
    row ∈ orderHistoryRows ms ↔ ∃ m, Message.orderMessage m ∈ ms ∧
      ClosedOrder.into m = some row := by
  unfold orderHistoryRows
  rw [List.mem_filterMap]
  constructor
  · rintro ⟨m, hm, hinto⟩
    cases m with
    | orderMessage om => exact ⟨om, hm, hinto⟩
    | _ => simp at hinto
  · rintro ⟨om, hm, hinto⟩
    exact ⟨_, hm, hinto⟩

theorem ClosedOrder.into_some {m : OrderMessage} {row : OrderHistory}
    (h : ClosedOrder.into m = some row) : m.event = .finish ∧ row = .fromOrder m.order := by
  unfold ClosedOrder.into at h
  split at h
  · exact ⟨‹_›, (Option.some.inj h).symm⟩
  · cases h

/-- The row of an order that is closed, with all of its trades. -/
def Controller.Closed (c : Controller) (row : OrderHistory) : Prop :=
  ∃ o : Order, row = .fromOrder o ∧ o.Sums (tradesOf o.id c.persistor) ∧ ¬ ∃ p, c.Rests o.id p

namespace Recorded

theorem closed (h : Recorded b c) {row : OrderHistory}
    (hrow : row ∈ orderHistoryRows c.persistor) : c.Closed row := by
  obtain ⟨m, hm, hinto⟩ := mem_orderHistoryRows.1 hrow
  obtain ⟨hfinish, rfl⟩ := ClosedOrder.into_some hinto
  obtain ⟨hpos, hle⟩ := h.order_named hm
  have hsums := (accounted_of_finish h.chronicle.coherent hm hfinish).sums
  exact ⟨m.order, rfl, hsums, (h.life hpos hle).finished.1 ⟨_, hm, hfinish, rfl⟩⟩

/-- An order is closed once. -/
theorem closed_inj (h : Recorded b c) {row row' : OrderHistory}
    (hrow : row ∈ orderHistoryRows c.persistor) (hrow' : row' ∈ orderHistoryRows c.persistor)
    (hid : row.id = row'.id) : row = row' := by
  obtain ⟨m, hm, hinto⟩ := mem_orderHistoryRows.1 hrow
  obtain ⟨hfinish, heq⟩ := ClosedOrder.into_some hinto
  have hrowId : row.id = m.order.id := by rw [heq]; rfl
  obtain ⟨hpos, hle⟩ := h.order_named hm
  have hlife := h.life hpos hle
  obtain ⟨m', -, -, -, hrows, -⟩ := hlife.row (hlife.finished.1 ⟨_, hm, hfinish, rfl⟩)
  -- the engine told one row for the order
  have honly : ∀ {r : OrderHistory}, r ∈ orderHistoryRows c.persistor → r.id = m.order.id →
      r = .fromOrder m'.order := by
    intro r hr hid
    have hmem : r ∈ (orderHistoryRows c.persistor).filter (·.id = m.order.id) :=
      List.mem_filter.2 ⟨hr, by simpa using hid⟩
    rw [hrows] at hmem
    exact List.mem_singleton.1 hmem
  exact (honly hrow hrowId).trans (honly hrow' (hid ▸ hrowId)).symm

end Recorded

/-- **The pages of a table** are the rows of the user, the newest order first. -/
theorem myOrders_pages {table : List OrderHistory} (hnodup : (table.map OrderHistory.id).Nodup)
    (market : String) (userId : Uuid) :
    ∃ all : List OrderHistory, (all.Pairwise fun row row' => row'.id < row.id) ∧
      (∀ row, row ∈ all ↔ row ∈ table ∧ (market = "all" ∨ row.market = market) ∧
        row.userId = userId) ∧
      ∀ limit, 0 < limit → limit ≤ 100 → ∀ k,
        myOrders table ⟨market, some limit, some (k * limit)⟩ userId =
          ⟨all.length, Paging.slice limit all k⟩ := by
  have htotal : Std.Total fun row row' : OrderHistory => row'.id ≤ row.id :=
    ⟨fun row row' => le_total row'.id row.id⟩
  have htrans : IsTrans OrderHistory fun row row' => row'.id ≤ row.id :=
    ⟨fun _ _ _ h h' => h'.trans h⟩
  have hperm := List.perm_insertionSort (fun row row' : OrderHistory => row'.id ≤ row.id)
    (ordersWhere table market userId)
  have hids : (ordersWhere table market userId).Pairwise fun row row' => row.id ≠ row'.id :=
    List.pairwise_map.1 (hnodup.sublist (List.filter_sublist.map _))
  have hsorted := List.pairwise_insertionSort (fun row row' : OrderHistory => row'.id ≤ row.id)
    (ordersWhere table market userId)
  refine ⟨(ordersWhere table market userId).insertionSort fun row row' => row'.id ≤ row.id, ?_,
    fun row => ?_,
    fun limit _ hlimit k => ?_⟩
  · -- no id is there twice, so the order is strict
    exact hsorted.imp₂ (fun row row' hle hne => lt_of_le_of_ne hle (Ne.symm hne))
      ((hperm.pairwise_iff fun {_ _} h => h.symm).2 hids)
  · rw [hperm.mem_iff, ordersWhere, List.mem_filter]
    simp
  · unfold myOrders Paging.slice
    simp only [Option.getD_some, min_eq_right hlimit, hperm.length_eq]

namespace Pipeline

/-- **The history of the orders, as it is read.** -/
structure ShowsOrders (c₀ : Controller) (s : Pipeline OrderMessage OrderHistory) : Prop where
  /-- A row tells an order that is closed, with all of its trades. -/
  sound : ∀ row ∈ s.orderHistory.rows, row ∈ orderHistoryRows s.engine.persistor ∧
    s.engine.Closed row
  /-- Once the history has caught up, each order rests or is shown. -/
  complete : s.CaughtUp orderTopic c₀ → ∀ id, 0 < id → id ≤ s.engine.sequencer.orderId →
    (∃ o, s.engine.Rests id o) ∨ ∃ row ∈ s.orderHistory.rows, row.id = id
  /-- The pages that a user reads are the user's rows, each once, the newest order first. -/
  pages : ∀ market userId, ∃ all : List OrderHistory,
    (all.Pairwise fun row row' => row'.id < row.id) ∧
    (∀ row, row ∈ all ↔ row ∈ s.orderHistory.rows ∧ (market = "all" ∨ row.market = market) ∧
      row.userId = userId) ∧
    ∀ limit, 0 < limit → limit ≤ 100 → ∀ k,
      myOrders s.orderHistory.rows ⟨market, some limit, some (k * limit)⟩ userId =
        ⟨all.length, Paging.slice limit all k⟩

theorem parse_order {message : Message} {m : OrderMessage} (h : orderTopic.parse message = some m) :
    message = .orderMessage m := by
  cases message with
  | orderMessage om => exact congrArg _ (Option.some.inj h)
  | _ => cases h

section Orders

variable {s s₀ : Pipeline OrderMessage OrderHistory} {row : OrderHistory}

theorem Tells.orderHistoryRow (h : s.Tells orderTopic c₀) (hempty : c₀.persistor = [])
    (hrow : row ∈ (s.rows 0).map MessageRow.row) : row ∈ orderHistoryRows s.engine.persistor := by
  obtain ⟨r, hr, rfl⟩ := List.mem_map.1 hrow
  obtain ⟨message, hmessage, m, -, hparse, link, hlink, -, hinto⟩ := h.sound 0 r hr
  obtain rfl := parse_order hparse
  obtain rfl : ⟨0, ClosedOrder.into⟩ = link :=
    List.mem_singleton.1 (List.mem_of_getElem? hlink) ▸ rfl
  exact mem_orderHistoryRows.2 ⟨m, ((mem_told hempty).1 hmessage).1, hinto⟩

/-- No row is kept out by another: one that is inserted again has its key taken by itself. -/
theorem Tells.mem_orderHistory (h : s.Tells orderTopic c₀) (hrecorded : Recorded b s.engine)
    (hempty : c₀.persistor = []) :
    row ∈ s.orderHistory.rows ↔ row ∈ (s.rows 0).map MessageRow.row :=
  Table.Unique.mem_empty_insertAll fun _ hr _ hr' hid =>
    hrecorded.closed_inj (h.orderHistoryRow hempty hr) (h.orderHistoryRow hempty hr') hid

/-- **Each closed order has one row**, however often the persistor was started again. -/
theorem Runs.showsOrders (hc : createController settings = .ok c₀)
    (hs : start orderTopic c₀ = some s₀)
    (h : Guarded.Runs (Pipeline.step E config orderTopic) (Orderly orderTopic) s₀ s) :
    s.ShowsOrders c₀ := by
  have hrecorded := recorded hc hs h
  have hempty := (createController_begun hc).persistor
  have htells := (OK.run (createController_ok hc).1 hs h).tells
  refine ⟨fun row hrow => ?_, fun hcaught id hpos hle => ?_,
    fun market userId => myOrders_pages s.orderHistory.nodup market userId⟩
  · have hmem := htells.orderHistoryRow hempty ((htells.mem_orderHistory hrecorded hempty).1 hrow)
    exact ⟨hmem, hrecorded.closed hmem⟩
  · by_cases hrests : ∃ o, s.engine.Rests id o
    · exact .inl hrests
    -- an order that rests no more was finished, and its message is in the log
    obtain ⟨m, hm, hfinish, rfl, -, -⟩ := (hrecorded.life hpos hle).row hrests
    have htold : Message.orderMessage m ∈ s.told orderTopic c₀ := (mem_told hempty).2 ⟨hm, rfl⟩
    obtain ⟨p, offset, hlog, hlt⟩ := hcaught.logged htold
    have hinto : ClosedOrder.into m = some (.fromOrder m.order) := by
      unfold ClosedOrder.into
      rw [hfinish]
    have hrow := htells.complete p offset _ hlt hlog 0 ⟨0, ClosedOrder.into⟩ m (.fromOrder m.order)
      rfl rfl hinto
    exact .inr ⟨.fromOrder m.order,
      (htells.mem_orderHistory hrecorded hempty).2 (List.mem_map.2 ⟨_, hrow, rfl⟩), rfl⟩

end Orders

/-- The four messages about two orders are handled, and the row of the one that is filled is
inserted. -/
def writesOrders : List (PipelineAction OrderMessage OrderHistory) :=
  (List.replicate 4 [.deliver 0, .persist .handle, .persist .handle]).flatten ++
    ([.write 0 .recv, .write 0 .acquire, .write 0 (.statement 0 true), .write 0 (.report 0),
      .write 0 .recv] : List (PersistorAction OrderMessage OrderHistory)).map .persist

/-- The persistor dies before it has committed, and the next one writes the row again. -/
def writesTwice : List (PipelineAction OrderMessage OrderHistory) :=
  ((sampleTrade.zip [2, 2, 1, 8]).flatMap fun e => carries e.1 e.2) ++
    List.replicate 4 (.place (some 0)) ++ writesOrders ++
    [.restart] ++ writesOrders ++ [.persist (.changed 0 1), .commit 0]

/-- A run of the sample settings on one partition, after which the history has caught up. -/
theorem exists_caughtUp (topic : Topic M T) (actions : List (PipelineAction M T))
    (P : Pipeline M T → Prop) [DecidablePred P]
    (h : ((createController sampleSettings).toOption.bind fun c₀ => (start topic c₀).bind fun s₀ =>
      (Guarded.obey (Pipeline.step releaseEnv sampleWriterConfig topic) (Smooth topic) s₀
      actions).map fun s => decide (s.placed = List.replicate (s.told topic c₀).length (some 0) ∧
      (s.told topic c₀).length ≤ (s.records topic).length ∧
      (s.told topic c₀).length ≤ s.committed 0 ∧ P s)) = some true) :
    ∃ (c₀ : Controller) (s₀ s : Pipeline M T), createController sampleSettings = .ok c₀ ∧
      start topic c₀ = some s₀ ∧
      Guarded.Runs (Pipeline.step releaseEnv sampleWriterConfig topic) (Orderly topic) s₀ s ∧
      s.CaughtUp topic c₀ ∧ P s := by
  obtain ⟨c₀, s₀, s, hc, hs, hruns, hplaced, hsent, hcommitted, hP⟩ := exists_sample topic actions
    (fun c₀ s => s.placed = List.replicate (s.told topic c₀).length (some 0) ∧
      (s.told topic c₀).length ≤ (s.records topic).length ∧
      (s.told topic c₀).length ≤ s.committed 0 ∧ P s) h
  have htells := (OK.run (createController_ok hc).1 hs hruns).tells
  exact ⟨c₀, s₀, s, hc, hs, hruns, .of_one htells.sent hplaced hsent hcommitted, hP⟩

theorem Runs.showsOrders_twice : ∃ (c₀ : Controller) (s₀ s : Pipeline OrderMessage OrderHistory),
    createController sampleSettings = .ok c₀ ∧ start orderTopic c₀ = some s₀ ∧
    Guarded.Runs (Pipeline.step releaseEnv sampleWriterConfig orderTopic)
    (Orderly orderTopic) s₀ s ∧
    s.CaughtUp orderTopic c₀ ∧ (s.rows 0).length = 2 ∧
    s.orderHistory.rows.map OrderHistory.id = [2] ∧ s.ShowsOrders c₀ := by
  obtain ⟨c₀, s₀, s, hc, hs, hruns, hcaught, hrows, hids⟩ := exists_caughtUp orderTopic writesTwice
    (fun s => (s.rows 0).length = 2 ∧ s.orderHistory.rows.map OrderHistory.id = [2])
    (by decide +kernel)
  exact ⟨c₀, s₀, s, hc, hs, hruns, hcaught, hrows, hids, Runs.showsOrders hc hs hruns⟩

end Pipeline

/-! ## The trades of an order -/

/-- What is to be shown of a trade with an order. -/
def Trade.shownOf (t : Trade) (id : ℕ) : OrderTrade :=
  { tradeId := t.id, time := t.timestamp, amount := t.amount, quoteAmount := t.quoteAmount,
    price := t.price, fee := t.feeOf id }

/-- The row of one of the two orders of a trade. -/
structure UserTrade.Of (row : UserTrade) (t : Trade) (id : ℕ) : Prop where
  orderId : row.orderId = id
  names : t.askOrderId = id ∨ t.bidOrderId = id
  market : row.market = t.market
  shown : row.shown = t.shownOf id

theorem AskTrade.into_some {row : UserTrade}
    (h : AskTrade.into t = some row) : row.Of t t.askOrderId := by
  obtain rfl := Option.some.inj h
  refine ⟨rfl, .inl rfl, rfl, ?_⟩
  unfold Trade.shownOf Trade.feeOf
  rw [if_pos rfl]
  rfl

theorem BidTrade.into_some {row : UserTrade} (h : BidTrade.into t = some row)
    (hne : t.askOrderId ≠ t.bidOrderId) : row.Of t t.bidOrderId := by
  obtain rfl := Option.some.inj h
  refine ⟨rfl, .inr rfl, rfl, ?_⟩
  unfold Trade.shownOf Trade.feeOf
  rw [if_neg hne]
  rfl

/-- The rows of an order on a market, as they are selected, are shown in the order of their
trades. -/
theorem orderTrades_perm (table : List UserTrade) (market : String) (id : ℕ) :
    (orderTrades table market id).Perm
    ((table.filter fun row => row.market = market ∧ row.orderId = id).map UserTrade.shown) :=
  (List.perm_insertionSort _ _).map _

theorem orderTrades_ascend (table : List UserTrade) (market : String) (id : ℕ) :
    (orderTrades table market id).Pairwise fun e e' => e.tradeId ≤ e'.tradeId := by
  let before (row row' : UserTrade) : Prop :=
    row.tradeId < row'.tradeId ∨ row.tradeId = row'.tradeId ∧ row.time ≤ row'.time
  have htotal : Std.Total before := ⟨fun row row' => by
    rcases lt_trichotomy row.tradeId row'.tradeId with hlt | heq | hlt
    · exact .inl (.inl hlt)
    · exact (le_total row.time row'.time).imp (fun hle => .inr ⟨heq, hle⟩) fun hle =>
        .inr ⟨heq.symm, hle⟩
    · exact .inr (.inl hlt)⟩
  have htrans : IsTrans UserTrade before := ⟨fun row₁ row₂ row₃ h h' => by
    rcases h with h | ⟨h, hle⟩ <;> rcases h' with h' | ⟨h', hle'⟩
    · exact .inl (h.trans h')
    · exact .inl (h' ▸ h)
    · exact .inl (h ▸ h')
    · exact .inr ⟨h.trans h', hle.trans hle'⟩⟩
  refine List.pairwise_map.2 ((List.pairwise_insertionSort before _).imp fun {row row'} h => ?_)
  rcases h with h | ⟨h, -⟩
  · exact h.le
  · exact h.le

namespace Pipeline

variable {s₀ s : Pipeline Trade TradeRow}

theorem userTrade?_some {value : TradeRow} {row : UserTrade} :
    value.userTrade? = some row ↔ value = .userTrade row := by
  cases value <;> simp [TradeRow.userTrade?]

theorem mem_userTrades {row : UserTrade} :
    row ∈ s.userTrades ↔ ∃ r ∈ s.rows 1, r.row = .userTrade row := by
  simp only [userTrades, List.mem_filterMap, userTrade?_some]

theorem parse_trade {message : Message} (h : tradeTopic.parse message = some t) :
    message = .tradeMessage t := by
  cases message with
  | tradeMessage t' => exact congrArg _ (Option.some.inj h)
  | _ => cases h

/-- Where a row of `user_trade` comes from. -/
theorem Tells.userTrade (h : s.Tells tradeTopic c₀) {r : MessageRow TradeRow} {row : UserTrade}
    (hr : r ∈ s.rows 1) (hrow : r.row = .userTrade row) :
    ∃ t, Message.tradeMessage t ∈ s.told tradeTopic c₀ ∧
      (s.log tradeTopic r.partition)[r.offset]? = some (.tradeMessage t) ∧
      (r.handler = 0 ∧ BidTrade.into t = some row ∨ r.handler = 1 ∧
        AskTrade.into t = some row) := by
  obtain ⟨message, hmessage, t, hlog, hparse, link, hlink, hw, hinto⟩ := h.sound 1 r hr
  obtain rfl := parse_trade hparse
  refine ⟨t, hmessage, hlog, ?_⟩
  rw [hrow] at hinto
  obtain ⟨partition, offset, handler, row'⟩ := r
  match handler with
  | 0 =>
    obtain rfl := Option.some.inj hlink
    have hinto : (BidTrade.into t).map TradeRow.userTrade = some (.userTrade row) := hinto
    obtain ⟨row', hbid, hsame⟩ := Option.map_eq_some_iff.1 hinto
    obtain rfl := TradeRow.userTrade.inj hsame
    exact .inl ⟨rfl, hbid⟩
  | 1 =>
    obtain rfl := Option.some.inj hlink
    have hinto : (AskTrade.into t).map TradeRow.userTrade = some (.userTrade row) := hinto
    obtain ⟨row', hask, hsame⟩ := Option.map_eq_some_iff.1 hinto
    obtain rfl := TradeRow.userTrade.inj hsame
    exact .inr ⟨rfl, hask⟩
  | 2 =>
    obtain rfl := Option.some.inj hlink
    cases hw
  | _ + 3 => cases hlink

/-- What is filled of an order is what the trades shown sum to. -/
structure AddsUp (o : Order) (shown : List OrderTrade) : Prop where
  base : o.finishedBase = (shown.map OrderTrade.amount).sum
  quote : o.finishedQuote = (shown.map OrderTrade.quoteAmount).sum
  fee : o.finishedFee = (shown.map OrderTrade.fee).sum

/-- **The history of the trades, as it is read.** -/
structure ShowsTrades (c₀ : Controller) (s : Pipeline Trade TradeRow) : Prop where
  /-- What is shown of an order is a trade of the order, on that market. -/
  sound : ∀ market id, ∀ e ∈ orderTrades s.userTrades market id,
    ∃ t ∈ tradesOf id s.engine.persistor,
    t.market = market ∧ e = t.shownOf id
  /-- Once the history has caught up, all trades of the order are shown, in the order they were
  made. -/
  complete : s.CaughtUp tradeTopic c₀ → ∀ m : OrderMessage,
    Message.orderMessage m ∈ s.engine.persistor → m.event = .put →
    (orderTrades s.userTrades m.order.market m.order.id).dedup =
      (tradesOf m.order.id s.engine.persistor).map fun t => t.shownOf m.order.id
  /-- While the rows are all of one persistor, each trade is shown once. -/
  once : s.stored 1 = [] → ∀ market id, (orderTrades s.userTrades market id).Nodup
  /-- Then what is shown adds up to the order, whether it rests or is closed. -/
  sums : s.CaughtUp tradeTopic c₀ → s.stored 1 = [] → ∀ o : Order,
    ((∃ id, s.engine.Rests id o) ∨ ∃ m : OrderMessage, Message.orderMessage m ∈ s.engine.persistor ∧
      m.event = .finish ∧ m.order = o) →
      AddsUp o (orderTrades s.userTrades o.market o.id)

/-- No trade is told twice. -/
theorem told_nodup (hrecorded : Recorded b s.engine) (hempty : c₀.persistor = []) :
    (s.told tradeTopic c₀).Nodup := by
  have hids := hrecorded.tradeIds_ascend
  unfold tradeIds at hids
  unfold told
  rw [hempty, List.length_nil, List.drop_zero]
  -- each trade has a number of its own
  refine List.pairwise_filter.2
    ((List.pairwise_filterMap.1 hids).imp fun {m m'} hlt htopic _ hsame => ?_)
  obtain ⟨t, hparse⟩ :=
    Option.isSome_iff_exists.1 ((tradeTopic.reads m).2 (of_decide_eq_true htopic))
  obtain rfl := parse_trade hparse
  subst hsame
  exact lt_irrefl _ (hlt t.id rfl t.id rfl)

/-- The row of a trade with an order comes from one message and one handler. -/
theorem Tells.userTrade_inj (h : s.Tells tradeTopic c₀) (hrecorded : Recorded b s.engine)
    (hempty : c₀.persistor = []) {r r' : MessageRow TradeRow} {row row' : UserTrade}
    (hr : r ∈ s.rows 1) (hr' : r' ∈ s.rows 1) (hrow : r.row = .userTrade row)
    (hrow' : r'.row = .userTrade row') (hid : row.orderId = row'.orderId)
    (hshown : row.shown = row'.shown) : r = r' := by
  obtain ⟨t, htold, hlog, hfrom⟩ := h.userTrade hr hrow
  obtain ⟨t', htold', hlog', hfrom'⟩ := h.userTrade hr' hrow'
  have ht := ((mem_told hempty).1 htold).1
  have ht' := ((mem_told hempty).1 htold').1
  have hne := hrecorded.trade_ne ht
  have hids : row.tradeId = t.id ∧ row'.tradeId = t'.id := by
    constructor
    · rcases hfrom with ⟨-, hinto⟩ | ⟨-, hinto⟩ <;> obtain rfl := Option.some.inj hinto <;> rfl
    · rcases hfrom' with ⟨-, hinto⟩ | ⟨-, hinto⟩ <;> obtain rfl := Option.some.inj hinto <;> rfl
  have hnumber : row.tradeId = row'.tradeId := congrArg OrderTrade.tradeId hshown
  obtain rfl : t = t' := hrecorded.trade_inj ht ht' (by omega)
  obtain ⟨hpartition, hoffset⟩ :=
    log_apart ((told_nodup hrecorded hempty).sublist h.sent.sublist) hlog hlog'
  -- the two rows of a trade are of different orders
  have hhandler : r.handler = r'.handler ∧ row = row' := by
    rcases hfrom with ⟨h₁, hinto⟩ | ⟨h₁, hinto⟩ <;> rcases hfrom' with ⟨h₂, hinto'⟩ | ⟨h₂, hinto'⟩
    · exact ⟨h₁.trans h₂.symm, Option.some.inj (hinto.symm.trans hinto')⟩
    · have hbid := (BidTrade.into_some hinto hne).orderId
      have hask := (AskTrade.into_some hinto').orderId
      exact absurd (hask.symm.trans (hid.symm.trans hbid)) hne
    · have hask := (AskTrade.into_some hinto).orderId
      have hbid := (BidTrade.into_some hinto' hne).orderId
      exact absurd (hask.symm.trans (hid.trans hbid)) hne
    · exact ⟨h₁.trans h₂.symm, Option.some.inj (hinto.symm.trans hinto')⟩
  obtain ⟨hhandler, rfl⟩ := hhandler
  obtain ⟨partition, offset, handler, value⟩ := r
  obtain ⟨partition', offset', handler', value'⟩ := r'
  simp only at hpartition hoffset hhandler hrow hrow'
  rw [hpartition, hoffset, hhandler, hrow, hrow']

/-- A row is of an order of a trade that was told. -/
theorem Tells.userTrade_of (h : s.Tells tradeTopic c₀) (hrecorded : Recorded b s.engine)
    (hempty : c₀.persistor = []) {row : UserTrade} (hrow : row ∈ s.userTrades) :
    ∃ t, Message.tradeMessage t ∈ s.engine.persistor ∧ row.Of t row.orderId := by
  obtain ⟨r, hr, hrow⟩ := mem_userTrades.1 hrow
  obtain ⟨t, htold, -, hfrom⟩ := h.userTrade hr hrow
  have ht := ((mem_told hempty).1 htold).1
  rcases hfrom with ⟨-, hinto⟩ | ⟨-, hinto⟩
  · have hbid := BidTrade.into_some hinto (hrecorded.trade_ne ht)
    exact ⟨t, ht, hbid.orderId.symm ▸ hbid⟩
  · have hask := AskTrade.into_some hinto
    exact ⟨t, ht, hask.orderId.symm ▸ hask⟩

/-- Both orders of a trade get their row, once the history has caught up. -/
theorem Tells.exists_userTrade (h : s.Tells tradeTopic c₀) (hrecorded : Recorded b s.engine)
    (hempty : c₀.persistor = []) (hcaught : s.CaughtUp tradeTopic c₀)
    (ht : t ∈ tradesOf id s.engine.persistor) : ∃ row ∈ s.userTrades, row.Of t id := by
  obtain ⟨ht, hnames⟩ := mem_tradesOf.1 ht
  obtain ⟨p, offset, hlog, hlt⟩ := hcaught.logged ((mem_told hempty).2 ⟨ht, rfl⟩)
  rcases hnames with hask | hbid
  · have hrow := h.complete p offset _ hlt hlog 1 _ t _ rfl rfl rfl
    exact ⟨_, mem_userTrades.2 ⟨_, hrow, rfl⟩, hask ▸ AskTrade.into_some rfl⟩
  · have hrow := h.complete p offset _ hlt hlog 0 _ t _ rfl rfl rfl
    exact ⟨_, mem_userTrades.2 ⟨_, hrow, rfl⟩,
      hbid ▸ BidTrade.into_some rfl (hrecorded.trade_ne ht)⟩

theorem Tells.of_mem_orderTrades (h : s.Tells tradeTopic c₀) (hrecorded : Recorded b s.engine)
    (hempty : c₀.persistor = []) {market : String} {e : OrderTrade}
    (he : e ∈ orderTrades s.userTrades market id) :
    ∃ t ∈ tradesOf id s.engine.persistor, t.market = market ∧ e = t.shownOf id := by
  obtain ⟨row, hrow, rfl⟩ := List.mem_map.1 ((orderTrades_perm _ _ _).mem_iff.1 he)
  obtain ⟨hmem, hwhere⟩ := List.mem_filter.1 hrow
  obtain ⟨hmarket, hid⟩ := of_decide_eq_true hwhere
  obtain ⟨t, ht, hrowOf⟩ := h.userTrade_of hrecorded hempty hmem
  rw [hid] at hrowOf
  exact ⟨t, mem_tradesOf.2 ⟨ht, hrowOf.names⟩, hrowOf.market.symm.trans hmarket, hrowOf.shown⟩

/-- All trades of an order are shown on its market. -/
theorem Tells.mem_orderTrades (h : s.Tells tradeTopic c₀) (hrecorded : Recorded b s.engine)
    (hempty : c₀.persistor = []) (hcaught : s.CaughtUp tradeTopic c₀) {m : OrderMessage}
    (hm : Message.orderMessage m ∈ s.engine.persistor) (hput : m.event = .put)
    (ht : t ∈ tradesOf m.order.id s.engine.persistor) :
    t.shownOf m.order.id ∈ orderTrades s.userTrades m.order.market m.order.id := by
  have hmarket := hrecorded.market_of_trade hm hput ht
  obtain ⟨row, hrow, hrowOf⟩ := h.exists_userTrade hrecorded hempty hcaught ht
  refine (orderTrades_perm _ _ _).mem_iff.2
    (List.mem_map.2 ⟨row, List.mem_filter.2 ⟨hrow, ?_⟩, hrowOf.shown⟩)
  exact decide_eq_true ⟨hrowOf.market.trans hmarket, hrowOf.orderId⟩

/-- What is written again is shown again, next to the first. -/
theorem Tells.dedup_orderTrades (h : s.Tells tradeTopic c₀) (hrecorded : Recorded b s.engine)
    (hempty : c₀.persistor = []) (hcaught : s.CaughtUp tradeTopic c₀) {m : OrderMessage}
    (hm : Message.orderMessage m ∈ s.engine.persistor) (hput : m.event = .put) :
    (orderTrades s.userTrades m.order.market m.order.id).dedup =
      (tradesOf m.order.id s.engine.persistor).map fun t => t.shownOf m.order.id := by
  refine Paging.dedup_of_repeated OrderTrade.tradeId (orderTrades_ascend _ _ _) ?_ fun e =>
    ⟨fun he => ?_, fun he => ?_⟩
  · exact List.pairwise_map.2 (hrecorded.trades_ascend m.order.id)
  · obtain ⟨t, ht, -, rfl⟩ := h.of_mem_orderTrades hrecorded hempty he
    exact List.mem_map.2 ⟨t, ht, rfl⟩
  · obtain ⟨t, ht, rfl⟩ := List.mem_map.1 he
    exact h.mem_orderTrades hrecorded hempty hcaught hm hput ht

/-- One persistor writes the row of an order and a trade once. -/
theorem Tells.nodup_orderTrades (h : s.Tells tradeTopic c₀) (hrecorded : Recorded b s.engine)
    (hempty : c₀.persistor = []) (hstored : s.stored 1 = []) (market : String) (id : ℕ) :
    (orderTrades s.userTrades market id).Nodup := by
  have hrows : (s.rows 1).Nodup := by
    unfold rows
    rw [hstored, List.nil_append]
    exact h.once 1
  refine (orderTrades_perm _ _ _).nodup_iff.2
    (List.pairwise_map.2 (List.pairwise_filter.2 (List.pairwise_filterMap.2 ?_)))
  refine hrows.imp_of_mem fun {r r'} hr hr' hne row hrow row' hrow' hwhere hwhere' hshown => hne ?_
  have hid : row.orderId = row'.orderId :=
    (of_decide_eq_true hwhere).2.trans (of_decide_eq_true hwhere').2.symm
  exact h.userTrade_inj hrecorded hempty hr hr' (userTrade?_some.1 hrow) (userTrade?_some.1 hrow')
    hid hshown

theorem AddsUp.of_sums {o : Order} {ts : List Trade} (h : o.Sums ts) :
    AddsUp o (ts.map fun t => t.shownOf o.id) := by
  refine ⟨?_, ?_, ?_⟩
  · rw [h.finishedBase, List.map_map]
    rfl
  · rw [h.finishedQuote, List.map_map]
    rfl
  · rw [h.finishedFee, List.map_map]
    rfl

/-- **The trades of an order are shown as they were made**: all of them and nothing else once the
history has caught up, and each once while the persistor was not started again. -/
theorem Runs.showsTrades (hc : createController settings = .ok c₀)
    (hs : start tradeTopic c₀ = some s₀)
    (h : Guarded.Runs (Pipeline.step E config tradeTopic) (Orderly tradeTopic) s₀ s) :
    s.ShowsTrades c₀ := by
  have hrecorded := recorded hc hs h
  have hempty := (createController_begun hc).persistor
  have htells := (OK.run (createController_ok hc).1 hs h).tells
  refine ⟨fun market id e he => htells.of_mem_orderTrades hrecorded hempty he,
    fun hcaught m hm hput => htells.dedup_orderTrades hrecorded hempty hcaught hm hput,
    fun hstored market id => htells.nodup_orderTrades hrecorded hempty hstored market id,
    fun hcaught hstored o ho => ?_⟩
  obtain ⟨hsums, m, hm, hput, hterms⟩ := hrecorded.accountedFor ho
  have hshown := htells.dedup_orderTrades hrecorded hempty hcaught hm hput
  -- without a restart nothing is repeated
  rw [(htells.nodup_orderTrades hrecorded hempty hstored _ _).dedup, ← hterms.id,
    ← hterms.market] at hshown
  rw [hshown]
  exact .of_sums hsums

/-- The trade of two orders is carried to the history. -/
def writesTrade : List (PipelineAction Trade TradeRow) :=
  ((sampleTrade.zip [2, 2, 1, 8]).flatMap fun e => carries e.1 e.2) ++
    [.place (some 0), .deliver 0] ++ persistsTrade.tail.map .persist

theorem Runs.showsTrades_sample : ∃ (c₀ : Controller) (s₀ s : Pipeline Trade TradeRow),
    createController sampleSettings = .ok c₀ ∧ start tradeTopic c₀ = some s₀ ∧
    Guarded.Runs (Pipeline.step releaseEnv sampleWriterConfig tradeTopic)
    (Orderly tradeTopic) s₀ s ∧
    s.CaughtUp tradeTopic c₀ ∧ s.stored 1 = [] ∧
    (orderTrades s.userTrades "ETH_USDT" 1).map OrderTrade.amount = [0.05] ∧
    s.ShowsTrades c₀ := by
  obtain ⟨c₀, s₀, s, hc, hs, hruns, hcaught, hstored, hamounts⟩ :=
    exists_caughtUp tradeTopic (writesTrade ++ [.commit 0])
    (fun s => s.stored 1 = [] ∧
      (orderTrades s.userTrades "ETH_USDT" 1).map OrderTrade.amount = [0.05]) (by decide +kernel)
  exact ⟨c₀, s₀, s, hc, hs, hruns, hcaught, hstored, hamounts, Runs.showsTrades hc hs hruns⟩

/-- `user_trade` has no key: a persistor that starts again before a commit writes a trade twice, and
it is shown twice. -/
theorem Runs.showsTrade_twice : ∃ (c₀ : Controller) (s₀ s : Pipeline Trade TradeRow),
    createController sampleSettings = .ok c₀ ∧ start tradeTopic c₀ = some s₀ ∧
    Guarded.Runs (Pipeline.step releaseEnv sampleWriterConfig tradeTopic)
    (Orderly tradeTopic) s₀ s ∧
    (orderTrades s.userTrades "ETH_USDT" 1).map OrderTrade.amount = [0.05, 0.05] := by
  exact exists_sample tradeTopic
    (writesTrade ++ [.restart, .deliver 0] ++ persistsTrade.tail.map .persist)
    (fun _ s => (orderTrades s.userTrades "ETH_USDT" 1).map OrderTrade.amount = [0.05, 0.05])
    (by decide +kernel)

end Pipeline

end Dingir
