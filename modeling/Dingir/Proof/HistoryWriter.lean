import Dingir.Lib.Partition
import Dingir.Proof.History
import Dingir.Spec.HistoryWriter

/-!
# Both ways lead to the same history

The writers of the persistor are to be equal to those of `history.rs`. Each message makes the
rows that the direct writer appends for it (`WrittenTwice.put`), and a row stands in the
history for each place of the log (`Pipeline.CaughtUp.perm`).

**`Pipeline.Runs.copies`**: the tables of the orders, the trades and the balances have no other
rows than a direct writer had appended; once the history has caught up they have all of
them, and as many of each while the persistor was not started again. Of a balance the
topic keeps neither the id of the business nor the part of a second. The direct writer
would also tell an order that expired, which the topic would not; but none does.

`order_history` has a key, so there a restart makes no difference
(`Pipeline.Runs.orderHistory_perm`).
-/

namespace Dingir

open Guarded Outcome Partitioned

variable {M T : Type} {E : Env} {settings : Settings} {config : DatabaseWriterConfig}
  {topic : Topic M T} {b c₀ : Controller} {w : ℕ} {m : TopicMessage M} {ms : List Message}
  {direct : DatabaseHistoryWriter → List T}

/-! ## The rows of a message -/

theorem TopicMessage.rowsFor_rows (links : List (PersistTo M T)) (i : ℕ) :
    (m.rowsFor w i links).map MessageRow.row =
    links.filterMap fun link => if link.writer = w then link.into m.message else none := by
  induction links generalizing i with
  | nil => rfl
  | cons link links ih =>
    rw [TopicMessage.rowsFor, List.map_append, ih, List.filterMap_cons]
    split
    · cases link.into m.message <;> rfl
    · rfl

theorem TopicMessage.nodup_rowsFor (links : List (PersistTo M T)) (i : ℕ) :
    (m.rowsFor w i links).Nodup := by
  induction links generalizing i with
  | nil => exact List.nodup_nil
  | cons link links ih =>
    rw [TopicMessage.rowsFor]
    refine List.nodup_append.2 ⟨?_, ih (i + 1), fun r hr r' hr' heq => ?_⟩
    · split
      · exact Option.toList_nodup _
      · exact List.nodup_nil
    · -- the handler of one is the first, of the other a later one
      subst heq
      obtain ⟨k, _, _, -, -, -, hlater⟩ := mem_rowsFor.1 hr'
      split at hr
      · obtain ⟨row, -, hfirst⟩ := Option.map_eq_some_iff.1 (Option.mem_toList.1 hr)
        have hhandler : i = i + 1 + k := congrArg MessageRow.handler (hfirst.trans hlater)
        omega
      · cases hr

namespace Topic

/-- The rows that the handlers of a writer make of a message. -/
def rowsOf (topic : Topic M T) (w : ℕ) (message : Message) : List T :=
  (topic.parse message).toList.flatMap fun m => topic.chain.filterMap fun link =>
    if link.writer = w then link.into m else none

/-- The same with the place of the message. -/
def written (topic : Topic M T) (w : ℕ) (e : Place ℤ Message) : List (MessageRow T) :=
  (topic.parse e.entry).toList.flatMap fun m =>
    TopicMessage.rowsFor ⟨e.partition, e.offset, m⟩ w 0 topic.chain

theorem mem_written {e : Place ℤ Message} {r : MessageRow T} : r ∈ topic.written w e ↔
    ∃ m link row, topic.parse e.entry = some m ∧ topic.chain[r.handler]? = some link ∧
      link.writer = w ∧
      link.into m = some row ∧ r = ⟨e.partition, e.offset, r.handler, row⟩ := by
  simp only [written, List.mem_flatMap, Option.mem_toList, mem_rowsFor, zero_add]
  constructor
  · rintro ⟨m, hm, k, link, row, hlink, hw, hrow, rfl⟩
    exact ⟨m, link, row, hm, hlink, hw, hrow, rfl⟩
  · rintro ⟨m, link, row, hm, hlink, hw, hrow, hr⟩
    exact ⟨m, hm, _, link, row, hlink, hw, hrow, hr⟩

theorem written_yields (topic : Topic M T) (w : ℕ) :
    Yields (topic.written w) MessageRow.row (topic.rowsOf w) where
  nodup e := by
    unfold written
    cases topic.parse e.entry with
    | none => exact List.nodup_nil
    | some m => simpa using TopicMessage.nodup_rowsFor topic.chain 0
  apart e e' r hr hr' := by
    obtain ⟨_, _, _, -, -, -, -, h⟩ := mem_written.1 hr
    obtain ⟨_, _, _, -, -, -, -, h'⟩ := mem_written.1 hr'
    exact ⟨congrArg MessageRow.partition (h.symm.trans h'),
      congrArg MessageRow.offset (h.symm.trans h')⟩
  shown e := by
    unfold written rowsOf
    rw [List.map_flatMap]
    exact List.flatMap_congr fun m _ => TopicMessage.rowsFor_rows topic.chain 0

/-- The messages of other topics make no rows. -/
theorem flatMap_rowsOf (topic : Topic M T) (w : ℕ) (ms : List Message) :
    (ms.filter fun message => message.topic = topic.name).flatMap (topic.rowsOf w) =
      ms.flatMap (topic.rowsOf w) := by
  induction ms with
  | nil => rfl
  | cons message ms ih =>
    rw [List.filter_cons, List.flatMap_cons]
    split
    · rw [List.flatMap_cons, ih]
    · rename_i hother
      -- what is not of the topic is not parsed
      have hnone : topic.parse message = none :=
        Option.not_isSome_iff_eq_none.1 fun hsome =>
          hother (decide_eq_true ((topic.reads message).1 hsome))
      simp [rowsOf, hnone, ih]

end Topic

/-! ## The direct writer -/

/-- An order that expires is told by no engine. -/
theorem Recorded.not_expired {c : Controller} (h : Recorded b c) {m : OrderMessage}
    (hm : Message.orderMessage m ∈ c.persistor) : m.event ≠ .expired := by
  obtain ⟨pre, post, hms⟩ := List.append_of_mem hm
  have hcoh := h.chronicle.coherent
  rw [hms] at hcoh
  obtain ⟨-, hadmits, -⟩ := hcoh.split
  intro hevent
  have hadmits : Story.admitsOrder _ m.event m.order := hadmits
  rw [hevent] at hadmits
  exact hadmits

/-- The rows of a trade are those the topic makes for the two sides. -/
theorem DatabaseHistoryWriter.appendPairUserTrade_tradeWriter (writer : DatabaseHistoryWriter)
    (t : Trade) :
    (writer.appendPairUserTrade t).tradeWriter =
      writer.tradeWriter ++ ((AskTrade.into t).toList ++ (BidTrade.into t).toList) :=
  List.append_assoc ..

/-- An order is no matter of the other writers. -/
theorem DBBasedPersistor.putOrder_inner (persistor : DBBasedPersistor) (order : Order)
    (atStep : OrderEventType) :
    (persistor.putOrder order atStep).inner.balanceWriter = persistor.inner.balanceWriter ∧
      (persistor.putOrder order atStep).inner.tradeWriter = persistor.inner.tradeWriter := by
  cases atStep <;> exact ⟨rfl, rfl⟩

/-- **Each message makes the rows that the direct writer appends for it.** -/
theorem WrittenTwice.put (h : WrittenTwice topic w direct) (persistor : DBBasedPersistor)
    {message : Message} (hexpired : ∀ m, message = .orderMessage m → m.event ≠ .expired) :
    (direct (persistor.put message).inner).Perm
      (direct persistor.inner ++ topic.rowsOf w message) := by
  have hnone : ∀ {rows rows' : List T}, rows = rows' → rows.Perm (rows' ++ []) := fun h => by
    rw [h, List.append_nil]
  cases h with
  | orders =>
    cases message with
    | orderMessage m =>
      obtain ⟨event, order, base, quote⟩ := m
      cases event with
      | expired => exact absurd rfl (hexpired _ rfl)
      | finish => exact .refl _
      | _ => exact hnone rfl
    | _ => exact hnone rfl
  | trades =>
    cases message with
    | tradeMessage t =>
      show ((persistor.inner.appendPairUserTrade t).tradeWriter.map TradeRow.userTrade).Perm _
      rw [persistor.inner.appendPairUserTrade_tradeWriter, List.map_append]
      -- the ask comes first here, and last in the chain
      exact (List.Perm.swap _ _ []).append_left _
    | orderMessage m => exact hnone (congrArg _ (persistor.putOrder_inner m.order m.event).2)
    | _ => exact hnone rfl
  | balances =>
    cases message with
    | balanceMessage balance => exact List.Perm.of_eq List.map_append
    | orderMessage m => exact hnone (congrArg _ (persistor.putOrder_inner m.order m.event).1)
    | _ => exact hnone rfl

/-- **All that the direct writer appends** are the rows of the messages. -/
theorem WrittenTwice.fed (h : WrittenTwice topic w direct)
    (hexpired : ∀ m, Message.orderMessage m ∈ ms → m.event ≠ .expired) :
    (direct (DBBasedPersistor.fed ms)).Perm (ms.flatMap (topic.rowsOf w)) := by
  induction ms using List.reverseRecOn with
  | nil => cases h <;> exact .refl _
  | append_singleton ms message ih =>
    unfold DBBasedPersistor.fed at ih ⊢
    rw [List.foldl_concat, List.flatMap_append, List.flatMap_singleton]
    refine (h.put _ fun m hm =>
      hexpired m (hm ▸ List.mem_append_right _ (List.mem_singleton.2 rfl))).trans ?_
    exact (ih fun m hm => hexpired m (List.mem_append_left _ hm)).append_right _

/-- The rows of the closed orders. -/
theorem orderWriter_fed (hexpired : ∀ m, Message.orderMessage m ∈ ms → m.event ≠ .expired) :
    (DBBasedPersistor.fed ms).orderWriter.Perm (orderHistoryRows ms) := by
  refine (WrittenTwice.orders.fed hexpired).trans (.of_eq ?_)
  unfold orderHistoryRows
  rw [List.filterMap_eq_flatMap_toList]
  refine List.flatMap_congr fun message _ => ?_
  cases message with
  | orderMessage m =>
    cases h : m.event <;> simp [Topic.rowsOf, orderTopic, orderCfg, ClosedOrder.into, h]
  | _ => rfl

/-- An order is closed in one row. -/
theorem Recorded.closed_nodup {c : Controller} (h : Recorded b c) :
    (orderHistoryRows c.persistor).Nodup := by
  refine List.nodup_iff_count_le_one.2 fun row => ?_
  by_cases hrow : row ∈ orderHistoryRows c.persistor
  · obtain ⟨m, hm, hinto⟩ := mem_orderHistoryRows.1 hrow
    obtain ⟨hfinish, hrow⟩ := ClosedOrder.into_some hinto
    obtain ⟨hpos, hle⟩ := h.order_named hm
    have hlife := h.life hpos hle
    obtain ⟨m', -, -, -, hrows, -⟩ := hlife.row (hlife.finished.1 ⟨_, hm, hfinish, rfl⟩)
    have hid : row.id = m.order.id := by rw [hrow]; rfl
    -- the rows of the order are one row
    rw [← List.count_filter (p := fun r => r.id = m.order.id) (by simpa using hid), hrows]
    exact List.count_le_length
  · rw [List.count_eq_zero_of_not_mem hrow]
    exact Nat.zero_le 1

/-! ## The rows of the log -/

namespace Pipeline

variable {s s₀ : Pipeline M T} {r : MessageRow T}

/-- The entries of the topic with their places. -/
def places (topic : Topic M T) (s : Pipeline M T) : List (Place ℤ Message) :=
  Partitioned.places ((s.records topic).zip s.placed)

/-- Where the history has caught up, nothing was lost. -/
theorem CaughtUp.no_loss (h : s.CaughtUp topic c₀) :
    ∀ e ∈ (s.records topic).zip s.placed, e.2 ≠ none := by
  intro e he hnone
  exact h.kept (hnone ▸ (List.of_mem_zip he).2)

theorem CaughtUp.entries (h : s.CaughtUp topic c₀) :
    ((s.records topic).zip s.placed).map Prod.fst = s.told topic c₀ := by
  rw [List.map_fst_zip h.placed.ge, h.sent]

/-- Every row of the history stands for a place. -/
theorem Tells.written (h : s.Tells topic c₀) (hr : r ∈ s.rows w) :
    ∃ e ∈ s.places topic, r ∈ topic.written w e := by
  obtain ⟨message, -, m, hlog, hparse, link, hlink, hw, hinto⟩ := h.sound w r hr
  exact ⟨⟨r.partition, r.offset, message⟩, mem_places.2 hlog,
    Topic.mem_written.2 ⟨m, link, r.row, hparse, hlink, hw, hinto, rfl⟩⟩

/-- Once it has caught up, each place has its rows. -/
theorem Tells.writes (h : s.Tells topic c₀) (hcaught : s.CaughtUp topic c₀) :
    ∀ e ∈ s.places topic, ∀ r ∈ topic.written w e, r ∈ s.rows w := by
  intro e he r hr
  obtain ⟨m, link, row, hparse, hlink, rfl, hinto, hr⟩ := Topic.mem_written.1 hr
  have hlog : (s.log topic e.partition)[e.offset]? = some e.entry := mem_places.1 he
  have hlt := (List.getElem?_eq_some_iff.1 hlog).1.trans_le (hcaught.committed e.partition)
  rw [hr]
  exact h.complete e.partition e.offset e.entry hlt hlog r.handler link m row hparse hlink hinto

/-- Every row of the history is one of a message that was told. -/
theorem Tells.told_row (h : s.Tells topic c₀) (hr : r ∈ s.rows w) :
    r.row ∈ (s.told topic c₀).flatMap (topic.rowsOf w) := by
  obtain ⟨message, hmessage, m, -, hparse, link, hlink, hw, hinto⟩ := h.sound w r hr
  refine List.mem_flatMap.2 ⟨message, hmessage, ?_⟩
  simp only [Topic.rowsOf, hparse, Option.toList_some, List.flatMap_singleton, List.mem_filterMap]
  exact ⟨link, List.mem_of_getElem? hlink, by rw [if_pos hw, hinto]⟩

/-- Once it has caught up, every row of a message that was told is in the history. -/
theorem Tells.has_rows (h : s.Tells topic c₀) (hcaught : s.CaughtUp topic c₀) (w : ℕ) :
    ((s.told topic c₀).flatMap (topic.rowsOf w)).Subperm ((s.rows w).map MessageRow.row) := by
  have hall := (topic.written_yields w).subperm hcaught.no_loss (h.writes hcaught)
  rwa [hcaught.entries] at hall

/-- What a direct writer is fed with, message by message. -/
theorem fed_told (hboth : WrittenTwice topic w direct)
    (hc : createController settings = .ok c₀) (hrecorded : Recorded b s.engine) :
    (direct (DBBasedPersistor.fed s.engine.persistor)).Perm
      ((s.told topic c₀).flatMap (topic.rowsOf w)) := by
  unfold Pipeline.told
  rw [Topic.flatMap_rowsOf, (createController_begun hc).persistor, List.length_nil, List.drop_zero]
  exact hboth.fed fun m hm => hrecorded.not_expired hm

/-- **The table holds the rows of the direct writer.** -/
structure Copies (topic : Topic M T) (c₀ : Controller) (s : Pipeline M T) (w : ℕ)
    (rows : List T) : Prop where
  /-- It has no other row. -/
  sound : ∀ row ∈ (s.rows w).map MessageRow.row, row ∈ rows
  /-- Once the history has caught up, it has all of them. -/
  complete : s.CaughtUp topic c₀ → rows.Subperm ((s.rows w).map MessageRow.row)
  /-- And as many of each, while the rows are all of one persistor. -/
  perm : s.CaughtUp topic c₀ → s.stored w = [] → ((s.rows w).map MessageRow.row).Perm rows

/-- **Both ways lead to the same history.** -/
theorem Runs.copies (hboth : WrittenTwice topic w direct) (hc : createController settings = .ok c₀)
    (hs : start topic c₀ = some s₀)
    (h : Guarded.Runs (Pipeline.step E config topic) (Orderly topic) s₀ s) :
    s.Copies topic c₀ w (direct (DBBasedPersistor.fed s.engine.persistor)) := by
  have hrecorded := recorded hc hs h
  have htells := (OK.run (createController_ok hc).1 hs h).tells
  have hfed := fed_told hboth hc hrecorded
  refine ⟨fun row hrow => hfed.mem_iff.2 ?_, fun hcaught =>
    hfed.subperm.trans (htells.has_rows hcaught w), fun hcaught hstored => ?_⟩
  · obtain ⟨r, hr, rfl⟩ := List.mem_map.1 hrow
    exact htells.told_row hr
  · -- the rows of one persistor are all different, each with its place and handler
    have hnodup : (s.rows w).Nodup := by
      unfold rows
      rw [hstored, List.nil_append]
      exact htells.once w
    have hperm := (topic.written_yields w).perm hcaught.no_loss hnodup fun r =>
      ⟨htells.written, fun ⟨e, he, hr⟩ => htells.writes hcaught e he r hr⟩
    rw [hcaught.entries] at hperm
    exact hperm.trans hfed.symm

theorem Runs.copies_sample : ∃ (c₀ : Controller) (s₀ s : Pipeline Trade TradeRow),
    createController sampleSettings = .ok c₀ ∧ start tradeTopic c₀ = some s₀ ∧
    Guarded.Runs (Pipeline.step releaseEnv sampleWriterConfig tradeTopic)
    (Orderly tradeTopic) s₀ s ∧
    s.CaughtUp tradeTopic c₀ ∧ s.stored 1 = [] ∧ (s.rows 1).length = 2 ∧
    s.Copies tradeTopic c₀ 1
      ((DBBasedPersistor.fed s.engine.persistor).tradeWriter.map .userTrade) := by
  obtain ⟨c₀, s₀, s, hc, hs, hruns, hcaught, hstored, hrows⟩ :=
    exists_caughtUp tradeTopic (writesTrade ++ [.commit 0])
    (fun s => s.stored 1 = [] ∧ (s.rows 1).length = 2) (by decide +kernel)
  exact ⟨c₀, s₀, s, hc, hs, hruns, hcaught, hstored, hrows, Runs.copies .trades hc hs hruns⟩

/-- **`order_history` is what the direct writer would have written**, however often the persistor
was started again. -/
theorem Runs.orderHistory_perm {s₀ s : Pipeline OrderMessage OrderHistory}
    (hc : createController settings = .ok c₀) (hs : start orderTopic c₀ = some s₀)
    (h : Guarded.Runs (Pipeline.step E config orderTopic) (Orderly orderTopic) s₀ s)
    (hcaught : s.CaughtUp orderTopic c₀) :
    s.orderHistory.rows.Perm (DBBasedPersistor.fed s.engine.persistor).orderWriter := by
  have hrecorded := recorded hc hs h
  have hempty := (createController_begun hc).persistor
  have htells := (OK.run (createController_ok hc).1 hs h).tells
  have htold := fed_told .orders hc hrecorded
  have hfed := orderWriter_fed fun m hm => hrecorded.not_expired hm
  -- neither has a row twice, so the same rows are enough
  refine (List.perm_ext_iff_of_nodup (.of_map _ s.orderHistory.nodup)
    (hfed.nodup_iff.2 hrecorded.closed_nodup)).2 fun row => ?_
  rw [htells.mem_orderHistory hrecorded hempty]
  constructor
  · intro hrow
    obtain ⟨r, hr, rfl⟩ := List.mem_map.1 hrow
    exact htold.mem_iff.2 (htells.told_row hr)
  · exact fun hrow => (htells.has_rows hcaught 0).subset (htold.subset hrow)

end Pipeline

end Dingir
