import Mathlib.Algebra.Order.BigOperators.Group.List
import Dingir.Spec.Writer

/-!
# The database writer loses no row and writes none twice

A row that was accepted is in one place: in a task that waits, that failed or that
runs, in the channel, or in a statement that succeeded (`Writing.OK`). At every head
of the loop `spawning_tasks` counts the tasks spawned whose report has not been
received, those that failed included, so when the loop is left gracefully nothing is
held (`Writing.Reachable.rows_kept`).
-/

namespace Dingir

open Keyed

variable {U : Type} {config : DatabaseWriterConfig} {s s' : Writing U} {w : DatabaseWriter U}
  {P : Writing U → WriterAction U → Prop}

theorem popBack_some {α : Type} {l rest : List α} {a : α}
    (h : popBack l = some (a, rest)) : l = rest ++ [a] := by
  unfold popBack at h
  split at h
  · simp at h
  · rename_i b tail hl
    simp only [Option.some.injEq, Prod.mk.injEq] at h
    obtain ⟨rfl, rfl⟩ := h
    rw [← List.reverse_reverse l, hl, List.reverse_cons]

theorem popBack_none {α : Type} {l : List α} (h : popBack l = none) : l = [] := by
  unfold popBack at h
  split at h
  · rename_i hl
    exact List.reverse_eq_nil_iff.1 hl
  · simp at h

/-! ## What a step can do -/

/-- The scheduler after a new task was spawned. -/
def DatabaseWriter.spawned (w : DatabaseWriter U) (task : DatabaseWriterTask U)
    (rest : List (DatabaseWriterTask U)) : DatabaseWriter U :=
  { w with
    nextTaskStack := rest
    statusTracing :=
      { pendingCount := w.statusTracing.pendingCount - task.data.length
        spawningTasks := w.statusTracing.spawningTasks + 1 }
    notifyTracing := match task.notifyFlag with
      | some notifies => w.notifyTracing.updateFrom notifies
      | none => w.notifyTracing
    miniTasks := w.miniTasks ++ [.execute task] }

/-- **The steps of a writer**, with all that each needs and changes. -/
inductive WStep (config : DatabaseWriterConfig) : Writing U → WriterAction U → Writing U → Prop
  | accept {s : Writing U} {item : U} {notify : Option TaskNotification}
      {ch : Channel (WriterMsg U) channelLimit} :
      s.writer.left = false → ch.queue = s.writer.ctrlChn.queue ++ [.data item notify] →
      WStep config s (.append item notify)
        { s with writer := { s.writer with ctrlChn := ch }, accepted := s.accepted ++ [item] }
  | refuse {s : Writing U} {item : U} {notify : Option TaskNotification} :
      s.writer.appendWithNotify item notify = .error item → WStep config s (.append item notify) s
  | finish {s : Writing U} {ch : Channel (WriterMsg U) channelLimit} : s.writer.left = false →
      s.beforeExit = none →
      ch.queue = s.writer.ctrlChn.queue ++ [.exit true] →
      WStep config s .finish
        { s with writer := { s.writer with ctrlChn := ch }, beforeExit := some s.accepted }
  | retry {s : Writing U} {task : DatabaseWriterTask U} {rest : List (DatabaseWriterTask U)} :
      s.writer.left = false →
      s.writer.errorTaskStack = rest ++ [task] →
      WStep config s .acquire { s with writer := { s.writer with
        errorTaskStack := rest, miniTasks := s.writer.miniTasks ++ [.execute task] } }
  | spawn {s : Writing U} {task : DatabaseWriterTask U} {rest : List (DatabaseWriterTask U)} :
      s.writer.left = false →
      s.writer.errorTaskStack = [] → s.writer.nextTaskStack = rest ++ [task] →
      s.writer.statusTracing.spawningTasks < config.spawnLimit →
      WStep config s .acquire { s with writer := s.writer.spawned task rest }
  | recv {s : Writing U} {msg : WriterMsg U} {queue : List (WriterMsg U)}
      {ch : Channel (WriterMsg U) channelLimit} :
      s.writer.left = false → s.writer.ctrlChn.queue = msg :: queue → ch.queue = queue →
      WStep config s .recv { s with writer := { s.writer with ctrlChn := ch }.onMsg msg }
  | leave {s : Writing U} : s.writer.left = false → s.writer.graceDown = true →
      s.writer.statusTracing.spawningTasks = 0 →
      s.writer.nextTaskStack = [] →
      WStep config s .yieldNow { s with writer := { s.writer with left := true } }
  | insert {s : Writing U} {i : ℕ} {pre post : List (MiniTask U)} {task : DatabaseWriterTask U}
      {rest : List U} : s.writer.miniTasks = pre ++ .inserting task rest :: post →
      WStep config s (.statement i true) { s with
        writer := { s.writer with miniTasks := pre ++ .inserted task rest :: post }
        inserted := s.inserted ++ rest.take (statementLength rest) }
  | fail {s : Writing U} {i : ℕ} {pre post : List (MiniTask U)} {task : DatabaseWriterTask U}
      {rest : List U} : s.writer.miniTasks = pre ++ .inserting task rest :: post →
      WStep config s (.statement i false)
        { s with writer := { s.writer with miniTasks := pre ++ .failed task rest :: post } }
  | report {s : Writing U} {i : ℕ} {pre post : List (MiniTask U)} {msg : WriterMsg U}
      {ch : Channel (WriterMsg U) channelLimit} : s.writer.left = false →
      s.writer.miniTasks = pre ++ .sending msg :: post →
      ch.queue = s.writer.ctrlChn.queue ++ [msg] →
      WStep config s (.report i)
        { s with writer := { s.writer with ctrlChn := ch, miniTasks := pre ++ post } }
  | lost {s : Writing U} {i : ℕ} {pre post : List (MiniTask U)} {msg : WriterMsg U} :
      s.writer.left = true →
      s.writer.miniTasks = pre ++ .sending msg :: post →
      WStep config s (.report i) { s with writer := { s.writer with miniTasks := pre ++ post } }

/-- An element of a list, with what is before and after it. -/
theorem getElem?_split {α : Type} {l : List α} {i : ℕ} {a : α} (h : l[i]? = some a) :
    ∃ pre post, l = pre ++ a :: post ∧ l.eraseIdx i = pre ++ post ∧
      ∀ b, l.set i b = pre ++ b :: post := by
  obtain ⟨hi, rfl⟩ := List.getElem?_eq_some_iff.1 h
  have hsplit : l = l.take i ++ l[i] :: l.drop (i + 1) := by
    rw [← List.drop_eq_getElem_cons hi, List.take_append_drop]
  refine ⟨l.take i, l.drop (i + 1), hsplit, List.eraseIdx_eq_take_drop_succ _ _, fun b => ?_⟩
  rw [List.set_eq_take_append_cons_drop, if_pos hi]

/-- **Every step is one of these.** -/
theorem Writing.step_cases {a : WriterAction U}
    (h : s.step config a = some s') : WStep config s a s' := by
  cases a with
  | append item notify =>
    simp only [step] at h
    cases happ : s.writer.appendWithNotify item notify with
    | error item' =>
      rw [happ] at h
      obtain rfl := Option.some.inj h
      have hitem : item' = item := by
        unfold DatabaseWriter.appendWithNotify at happ
        split at happ
        · exact (Except.error.inj happ).symm
        · split at happ
          · simp at happ
          · exact (Except.error.inj happ).symm
      exact .refuse (hitem ▸ happ)
    | ok w =>
      rw [happ] at h
      obtain rfl := Option.some.inj h
      unfold DatabaseWriter.appendWithNotify at happ
      split at happ
      · simp at happ
      · rename_i hleft
        split at happ
        · rename_i ch hch
          obtain rfl := Except.ok.inj happ
          exact .accept (by simpa using hleft) (Channel.trySend_some.1 hch).2
        · simp at happ
  | finish =>
    simp only [step] at h
    split at h
    · simp at h
    · rename_i hnone
      obtain ⟨w, hw, rfl⟩ := Option.map_eq_some_iff.1 h
      unfold DatabaseWriter.finish at hw
      split at hw
      · simp at hw
      · rename_i hleft
        obtain ⟨ch, hch, rfl⟩ := Option.map_eq_some_iff.1 hw
        exact .finish (by simpa using hleft) (by simpa using hnone) (Channel.trySend_some.1 hch).2
  | acquire =>
    simp only [step] at h
    split at h
    · simp at h
    · rename_i hleft
      have hleft : s.writer.left = false := by simpa using hleft
      obtain ⟨w, hw, rfl⟩ := Option.map_eq_some_iff.1 h
      unfold DatabaseWriter.acquire at hw
      split at hw
      · rename_i task rest herr
        obtain rfl := Option.some.inj hw
        exact .retry hleft (popBack_some herr)
      · rename_i herr
        split at hw
        · rename_i task rest hnext
          split at hw
          · rename_i hlimit
            obtain rfl := Option.some.inj hw
            exact .spawn hleft (popBack_none herr) (popBack_some hnext) hlimit
          · simp at hw
        · simp at hw
  | recv =>
    simp only [step] at h
    split at h
    · simp at h
    · rename_i hleft
      obtain ⟨w, hw, rfl⟩ := Option.map_eq_some_iff.1 h
      unfold DatabaseWriter.recv at hw
      split at hw
      · simp at hw
      · rename_i msg queue hq
        obtain rfl := Option.some.inj hw
        refine .recv (by simpa using hleft) hq ?_
        show s.writer.ctrlChn.queue.tail = queue
        rw [hq]
        rfl
  | yieldNow =>
    simp only [step] at h
    split at h
    · simp at h
    · rename_i hleft
      obtain ⟨w, hw, rfl⟩ := Option.map_eq_some_iff.1 h
      unfold DatabaseWriter.yieldNow at hw
      split at hw
      · rename_i hguard
        obtain rfl := Option.some.inj hw
        exact .leave (by simpa using hleft) hguard.1 hguard.2.1 hguard.2.2
      · simp at hw
  | statement i ok =>
    simp only [step] at h
    split at h
    · rename_i task rest hi
      obtain ⟨pre, post, hsplit, -, hset⟩ := getElem?_split hi
      split at h
      · rename_i hok
        obtain rfl := Option.some.inj h
        rw [hset, show ok = true from hok]
        exact .insert hsplit
      · rename_i hok
        obtain rfl := Option.some.inj h
        rw [hset, show ok = false by simpa using hok]
        exact .fail hsplit
    · simp at h
  | report i =>
    simp only [step] at h
    split at h
    · rename_i msg hi
      obtain ⟨pre, post, hsplit, herase, -⟩ := getElem?_split hi
      split at h
      · rename_i hleft
        obtain rfl := Option.some.inj h
        rw [herase]
        exact .lost hleft hsplit
      · rename_i hleft
        obtain ⟨ch, hch, rfl⟩ := Option.map_eq_some_iff.1 h
        rw [herase]
        exact .report (by simpa using hleft) hsplit (Channel.trySend_some.1 hch).2
    · simp at h

/-! ## Where the rows are -/

/-- The rows a message carries that are still to be inserted. -/
def WriterMsg.rows : WriterMsg U → Multiset U
  | .data item _ => {item}
  | .done _ => 0
  | .fail task => (task.data : Multiset U)
  | .exit _ => 0

def WriterMsg.isReport : WriterMsg U → Bool
  | .done _ => true
  | .fail _ => true
  | _ => false

/-- The rows of a task's report. -/
def WriterMsg.reported (msg : WriterMsg U) : Multiset U := if msg.isReport then msg.rows else 0

def MiniTask.rows : MiniTask U → Multiset U
  | .inserting _ rest => (rest : Multiset U)
  | .sending msg => msg.rows

namespace DatabaseWriter

/-- The rows in tasks. -/
def inTasks (w : DatabaseWriter U) : Multiset U :=
  (w.nextTaskStack.map fun task => (task.data : Multiset U)).sum +
    (w.errorTaskStack.map fun task => (task.data : Multiset U)).sum +
    (w.miniTasks.map MiniTask.rows).sum

/-- The rows in the channel. -/
def inChannel (w : DatabaseWriter U) : Multiset U := (w.ctrlChn.queue.map WriterMsg.rows).sum

/-- The tasks spawned whose report has not been received, or that wait to be run again. -/
def spawnedTasks (w : DatabaseWriter U) : ℕ :=
  w.miniTasks.length + w.ctrlChn.queue.countP WriterMsg.isReport + w.errorTaskStack.length

/-- The rows that wait for a task to be spawned. -/
def pendingRows (w : DatabaseWriter U) : ℕ := (w.nextTaskStack.map fun task => task.data.length).sum

end DatabaseWriter

/-- The rows in a queue that were accepted before `Exit` was sent. -/
def owed : Bool → List (WriterMsg U) → Multiset U
  | _, [] => 0
  | true, msg :: rest => msg.reported + owed true rest
  | false, .exit _ :: rest => owed true rest
  | false, msg :: rest => msg.rows + owed false rest

def WriterMsg.isExit : WriterMsg U → Bool
  | .exit _ => true
  | _ => false

/-- **The invariant of a writer at work.** -/
structure Writing.OK (config : DatabaseWriterConfig) (s : Writing U) : Prop where
  rows : (s.accepted : Multiset U) = s.inserted + (s.writer.inTasks + s.writer.inChannel)
  spawning : s.writer.statusTracing.spawningTasks = s.writer.spawnedTasks
  limit : s.writer.statusTracing.spawningTasks ≤ config.spawnLimit
  pending : s.writer.statusTracing.pendingCount = s.writer.pendingRows
  reports : ∀ msg, .sending msg ∈ s.writer.miniTasks → msg.isReport = true
  graceful : ∀ grace, .exit grace ∈ s.writer.ctrlChn.queue → grace = true
  running : s.beforeExit = none → s.writer.graceDown = false ∧
    s.writer.ctrlChn.queue.any WriterMsg.isExit = false
  exit : ∀ rows, s.beforeExit = some rows →
    (rows : Multiset U) ≤
    s.inserted + (s.writer.inTasks + owed s.writer.graceDown s.writer.ctrlChn.queue) ∧
      (s.writer.graceDown = false → s.writer.ctrlChn.queue.any WriterMsg.isExit = true)
  left : s.writer.left = true → s.writer.graceDown = true ∧ s.writer.spawnedTasks = 0 ∧
    s.writer.nextTaskStack = []

/-! ### The parts of a task list -/

@[simp] theorem inTasks_execute (task : DatabaseWriterTask U) :
    (MiniTask.execute task).rows = (task.data : Multiset U) := by
  unfold MiniTask.execute
  split
  · rename_i hempty
    rw [List.isEmpty_iff.1 hempty]
    rfl
  · rfl

theorem statementLength_le (rest : List U) : statementLength rest ≤ rest.length := by
  unfold statementLength
  split
  · split
    · rename_i n hn
      have hle := List.find?_some hn
      simpa using hle
    · exact le_rfl
  · exact le_rfl

theorem inTasks_inserted (task : DatabaseWriterTask U) (rest : List U) :
    (rest.take (statementLength rest) : Multiset U) + (MiniTask.inserted task rest).rows =
      (rest : Multiset U) := by
  have hsplit : (rest.take (statementLength rest) : Multiset U) +
      (rest.drop (statementLength rest) : Multiset U) = (rest : Multiset U) := by
    rw [Multiset.coe_add, List.take_append_drop]
  unfold MiniTask.inserted
  split
  · rename_i hempty
    rw [List.isEmpty_iff.1 hempty] at hsplit
    exact hsplit
  · exact hsplit

@[simp] theorem inTasks_failed (task : DatabaseWriterTask U) (rest : List U) :
    (MiniTask.failed task rest).rows = (rest : Multiset U) := rfl

theorem sending_execute {task : DatabaseWriterTask U} {msg : WriterMsg U}
    (h : .sending msg = MiniTask.execute task) : msg.isReport = true := by
  unfold MiniTask.execute at h
  split at h
  · obtain rfl := MiniTask.sending.inj h
    rfl
  · simp at h

theorem sending_inserted {task : DatabaseWriterTask U} {rest : List U} {msg : WriterMsg U}
    (h : .sending msg = MiniTask.inserted task rest) : msg.isReport = true := by
  unfold MiniTask.inserted at h
  split at h
  · obtain rfl := MiniTask.sending.inj h
    rfl
  · simp at h

theorem sending_failed {task : DatabaseWriterTask U} {rest : List U} {msg : WriterMsg U}
    (h : .sending msg = MiniTask.failed task rest) : msg.isReport = true := by
  obtain rfl := MiniTask.sending.inj h
  rfl

/-! ### What is owed -/

theorem owed_true (queue : List (WriterMsg U)) :
    owed true queue = (queue.map WriterMsg.reported).sum := by
  induction queue with
  | nil => rfl
  | cons msg rest ih =>
    rw [List.map_cons, List.sum_cons, ← ih]
    rfl

theorem owed_report {msg : WriterMsg U} (hmsg : msg.isReport = true) (b : Bool)
    (queue : List (WriterMsg U)) : owed b (queue ++ [msg]) = owed b queue + msg.rows := by
  have hrows : msg.reported = msg.rows := by simp [WriterMsg.reported, hmsg]
  induction queue generalizing b with
  | nil =>
    cases b with
    | true => simp [owed, hrows]
    | false =>
      cases msg with
      | exit grace => simp [WriterMsg.isReport] at hmsg
      | _ => simp [owed]
  | cons head rest ih =>
    cases b with
    | true => simp [owed, ih, add_assoc]
    | false => cases head <;> simp [owed, ih, add_assoc]

/-- A row accepted after `Exit` was sent is not owed. -/
theorem owed_data {item : U} {notify : Option TaskNotification} {b : Bool}
    {queue : List (WriterMsg U)} (h : b = false → queue.any WriterMsg.isExit = true) :
    owed b (queue ++ [.data item notify]) = owed b queue := by
  induction queue generalizing b with
  | nil =>
    cases b with
    | true => simp [owed, WriterMsg.reported, WriterMsg.isReport]
    | false => simp at h
  | cons head rest ih =>
    cases b with
    | true =>
      have hrest := ih (b := true) (by simp)
      simp [owed, hrest]
    | false =>
      cases head with
      | exit grace =>
        have hrest := ih (b := true) (by simp)
        simpa [owed] using hrest
      | _ =>
        have hrest := ih (b := false) (by simpa [WriterMsg.isExit] using h)
        simp [owed, hrest]

/-- When `Exit` is sent, all rows in the channel are owed. -/
theorem owed_exit {queue : List (WriterMsg U)} (h : queue.any WriterMsg.isExit = false) :
    owed false (queue ++ [.exit true]) = (queue.map WriterMsg.rows).sum := by
  induction queue with
  | nil => rfl
  | cons head rest ih =>
    cases head with
    | exit grace => simp [WriterMsg.isExit] at h
    | _ =>
      have hrest := ih (by simpa [WriterMsg.isExit] using h)
      simp [owed, hrest]

/-! ### What a message changes -/

def WriterMsg.isDone : WriterMsg U → Bool
  | .done _ => true
  | _ => false

@[simp] theorem onMsg_ctrlChn (w : DatabaseWriter U) (msg : WriterMsg U) :
    (w.onMsg msg).ctrlChn = w.ctrlChn := by
  cases msg with
  | done task =>
    unfold DatabaseWriter.onMsg
    simp only
    split
    · rfl
    · rfl
  | _ => rfl

@[simp] theorem onMsg_miniTasks (w : DatabaseWriter U) (msg : WriterMsg U) :
    (w.onMsg msg).miniTasks = w.miniTasks := by
  cases msg with
  | done task =>
    unfold DatabaseWriter.onMsg
    simp only
    split
    · rfl
    · rfl
  | _ => rfl

/-- A task that is done is no longer counted, one that failed is. -/
theorem onMsg_counts (w : DatabaseWriter U) (msg : WriterMsg U) :
    (w.onMsg msg).statusTracing.spawningTasks = w.statusTracing.spawningTasks -
      (if msg.isDone then 1 else 0) ∧
      (w.onMsg msg).errorTaskStack.length + (if msg.isDone then 1 else 0) =
        w.errorTaskStack.length + if msg.isReport then 1 else 0 := by
  cases msg with
  | done task =>
    unfold DatabaseWriter.onMsg
    simp only
    split
    · exact ⟨rfl, rfl⟩
    · exact ⟨rfl, rfl⟩
  | fail task => exact ⟨(sub_zero _).symm, rfl⟩
  | _ => exact ⟨(sub_zero _).symm, rfl⟩

/-! ### Every step -/

/-- A row received goes to the newest waiting task, or to a new one. -/
theorem onMsg_data (w : DatabaseWriter U) (item : U) (notify : Option TaskNotification) :
    ((w.onMsg (.data item notify)).nextTaskStack.map fun task => (task.data : Multiset U)).sum =
        {item} + (w.nextTaskStack.map fun task => (task.data : Multiset U)).sum ∧
      (w.onMsg (.data item notify)).pendingRows = w.pendingRows + 1 := by
  have hadd : ∀ task : DatabaseWriterTask U,
      ((task.addData item notify).data : Multiset U) = {item} + (task.data : Multiset U) := by
    intro task
    show ((task.data ++ [item] : List U) : Multiset U) = _
    rw [← Multiset.coe_add, add_comm]
    rfl
  have hlen : ∀ task : DatabaseWriterTask U,
      (task.addData item notify).data.length = task.data.length + 1 := by
    intro task
    show (task.data ++ [item]).length = _
    simp
  unfold DatabaseWriter.onMsg DatabaseWriter.pendingRows
  cases hnext : w.nextTaskStack with
  | nil =>
    simp only [List.map_cons, List.map_nil, List.sum_cons, List.sum_nil, hadd, hlen]
    exact ⟨rfl, rfl⟩
  | cons front rest =>
    simp only
    split
    · rename_i hnew
      split at hnew
      · simp at hnew
      · simp at hnew
    · rename_i task tasks hnew
      split at hnew
      · obtain ⟨rfl, rfl⟩ := List.cons.inj hnew
        simp only [List.map_cons, List.sum_cons, hadd, hlen]
        refine ⟨?_, ?_⟩
        · show {item} + (([] : List U) : Multiset U) + _ = _
          rw [Multiset.coe_nil, add_zero]
        · show ([] : List U).length + 1 + _ = _
          simp only [List.length_nil]
          omega
      · obtain ⟨rfl, rfl⟩ := List.cons.inj hnew
        simp only [List.map_cons, List.sum_cons, hadd, hlen]
        refine ⟨by rw [add_assoc], by omega⟩

/-- What is received goes from the channel to the tasks. -/
theorem onMsg_rows (w : DatabaseWriter U) (msg : WriterMsg U) :
    (w.onMsg msg).inTasks = msg.rows + w.inTasks := by
  cases msg with
  | data item notify =>
    unfold DatabaseWriter.inTasks
    rw [(onMsg_data w item notify).1]
    show _ + _ + (w.errorTaskStack.map _).sum + (w.miniTasks.map _).sum = {item} + _
    abel
  | done task =>
    unfold DatabaseWriter.onMsg
    simp only
    split
    · exact (zero_add _).symm
    · exact (zero_add _).symm
  | fail task =>
    unfold DatabaseWriter.inTasks
    simp only [DatabaseWriter.onMsg, List.map_cons, List.sum_cons, WriterMsg.rows]
    abel
  | exit grace => exact (zero_add _).symm

/-- Rows move between the tasks that wait and those that run. -/
theorem inTasks_retry {task : DatabaseWriterTask U} {rest : List (DatabaseWriterTask U)}
    (h : w.errorTaskStack = rest ++ [task]) :
    ({ w with errorTaskStack := rest, miniTasks := w.miniTasks ++ [.execute task] } : DatabaseWriter
      U).inTasks = w.inTasks := by
  unfold DatabaseWriter.inTasks
  simp only [h, List.map_append, List.sum_append, List.map_cons, List.map_nil, List.sum_cons,
    List.sum_nil, add_zero,
    inTasks_execute]
  abel

theorem inTasks_spawned {task : DatabaseWriterTask U} {rest : List (DatabaseWriterTask U)}
    (h : w.nextTaskStack = rest ++ [task]) : (w.spawned task rest).inTasks = w.inTasks := by
  unfold DatabaseWriter.inTasks
  simp only [DatabaseWriter.spawned, h, List.map_append, List.sum_append, List.map_cons,
    List.map_nil, List.sum_cons,
    List.sum_nil, add_zero, inTasks_execute]
  abel

/-- The tasks that run, with another one in the place of `old`. -/
theorem inTasks_replace {pre post : List (MiniTask U)} {old new : MiniTask U} (rows : Multiset U)
    (h : w.miniTasks = pre ++ old :: post) (hrows : rows + new.rows = old.rows) :
    rows + ({ w with miniTasks := pre ++ new :: post } : DatabaseWriter U).inTasks = w.inTasks := by
  unfold DatabaseWriter.inTasks
  simp only [h, List.map_append, List.sum_append, List.map_cons, List.sum_cons]
  rw [← hrows]
  abel

theorem inTasks_remove {pre post : List (MiniTask U)} {old : MiniTask U}
    (h : w.miniTasks = pre ++ old :: post) :
    old.rows + ({ w with miniTasks := pre ++ post } : DatabaseWriter U).inTasks = w.inTasks := by
  unfold DatabaseWriter.inTasks
  simp only [h, List.map_append, List.sum_append, List.map_cons, List.sum_cons]
  abel

/-- A step keeps the rows. -/
theorem WStep.rows {a : WriterAction U} (h : WStep config s a s') (hs : s.OK config) :
    (s'.accepted : Multiset U) = s'.inserted + (s'.writer.inTasks + s'.writer.inChannel) := by
  have hrows := hs.rows
  cases h with
  | @accept item notify ch hleft hq =>
    have hchannel :
        DatabaseWriter.inChannel { s.writer with ctrlChn := ch } = s.writer.inChannel + {item} := by
      simp [DatabaseWriter.inChannel, hq, WriterMsg.rows]
    show ((s.accepted ++ [item] : List U) : Multiset U) = s.inserted + (s.writer.inTasks + _)
    rw [hchannel, ← Multiset.coe_add, hrows, Multiset.coe_singleton]
    abel
  | refuse _ => exact hrows
  | @finish ch _ _ hq =>
    have hchannel :
        DatabaseWriter.inChannel { s.writer with ctrlChn := ch } = s.writer.inChannel := by
      simp [DatabaseWriter.inChannel, hq, WriterMsg.rows]
    show (s.accepted : Multiset U) = s.inserted + (s.writer.inTasks + _)
    rw [hchannel]
    exact hrows
  | retry _ herr =>
    rw [inTasks_retry herr]
    exact hrows
  | spawn _ _ hnext _ =>
    rw [inTasks_spawned hnext]
    exact hrows
  | @recv msg queue ch hleft hq hq' =>
    have hchannel :
        s.writer.inChannel = msg.rows + ({ s.writer with ctrlChn := ch }.onMsg msg).inChannel := by
      unfold DatabaseWriter.inChannel
      rw [onMsg_ctrlChn, hq, hq', List.map_cons, List.sum_cons]
    show (s.accepted : Multiset U) = s.inserted + (_ + _)
    rw [onMsg_rows, hrows, hchannel]
    show _ = _ + (_ + s.writer.inTasks + _)
    abel
  | leave _ _ _ _ => exact hrows
  | @insert i pre post task rest hmini =>
    have htasks := inTasks_replace _ hmini (inTasks_inserted task rest)
    show (s.accepted : Multiset U) =
      ((s.inserted ++ rest.take (statementLength rest) : List U) : Multiset U) +
      (_ + s.writer.inChannel)
    rw [← Multiset.coe_add, hrows, ← htasks]
    abel
  | @fail i pre post task rest hmini =>
    have htasks := inTasks_replace 0 hmini (zero_add (MiniTask.failed task rest).rows)
    rw [zero_add] at htasks
    show (s.accepted : Multiset U) = s.inserted + (_ + s.writer.inChannel)
    rw [htasks]
    exact hrows
  | @report i pre post msg ch hleft hmini hq =>
    have htasks := inTasks_remove hmini
    have hchannel :
        DatabaseWriter.inChannel { s.writer with ctrlChn := ch, miniTasks := pre ++ post } =
        s.writer.inChannel + msg.rows := by
      simp [DatabaseWriter.inChannel, hq]
    show (s.accepted : Multiset U) =
      s.inserted + (DatabaseWriter.inTasks { s.writer with miniTasks := pre ++ post } + _)
    rw [hchannel, hrows, ← htasks]
    show _ + (msg.rows + _ + _) = _
    abel
  | @lost i pre post msg hleft hmini =>
    have hnone := (hs.left hleft).2.1
    simp [DatabaseWriter.spawnedTasks, hmini] at hnone

/-- A step keeps the count of the tasks spawned. -/
theorem WStep.spawning {a : WriterAction U} (h : WStep config s a s') (hs : s.OK config) :
    s'.writer.statusTracing.spawningTasks = s'.writer.spawnedTasks ∧
      s'.writer.statusTracing.spawningTasks ≤ config.spawnLimit := by
  have hspawning := hs.spawning
  have hlimit := hs.limit
  unfold DatabaseWriter.spawnedTasks at *
  cases h with
  | accept _ hq =>
    refine ⟨?_, hlimit⟩
    rw [hq, List.countP_append]
    simpa [WriterMsg.isReport] using hspawning
  | refuse _ => exact ⟨hspawning, hlimit⟩
  | finish _ _ hq =>
    refine ⟨?_, hlimit⟩
    rw [hq, List.countP_append]
    simpa [WriterMsg.isReport] using hspawning
  | retry _ herr =>
    refine ⟨?_, hlimit⟩
    simp only [herr, List.length_append, List.length_singleton] at hspawning ⊢
    rw [hspawning]
    push_cast
    ring
  | spawn _ herr _ hlt =>
    simp only [DatabaseWriter.spawned, herr, List.length_append, List.length_singleton,
      List.length_nil] at hspawning ⊢
    refine ⟨?_, by omega⟩
    rw [hspawning]
    push_cast
    ring
  | @recv msg queue ch _ hq hq' =>
    obtain ⟨hcount, herr⟩ := onMsg_counts { s.writer with ctrlChn := ch } msg
    have hqueue : s.writer.ctrlChn.queue.countP WriterMsg.isReport =
        ch.queue.countP WriterMsg.isReport + if msg.isReport then 1 else 0 := by
      rw [hq, hq', List.countP_cons]
    rw [hqueue] at hspawning
    simp only [hcount, onMsg_ctrlChn, onMsg_miniTasks] at herr ⊢
    have hdone : (if msg.isDone = true then (1 : ℤ) else 0) =
        ((if msg.isDone = true then 1 else 0 : ℕ) : ℤ) := by
      split
      · rfl
      · rfl
    rw [hdone]
    omega
  | leave _ _ _ _ => exact ⟨hspawning, hlimit⟩
  | insert hmini =>
    refine ⟨?_, hlimit⟩
    simpa [hmini] using hspawning
  | fail hmini =>
    refine ⟨?_, hlimit⟩
    simpa [hmini] using hspawning
  | @report i pre post msg ch _ hmini hq =>
    have hreport := hs.reports msg (by rw [hmini]; simp)
    refine ⟨?_, hlimit⟩
    simp only [hmini, hq, List.length_append, List.length_cons, List.countP_append,
      List.countP_singleton, hreport,
      if_true] at hspawning ⊢
    rw [hspawning]
    push_cast
    ring
  | lost hleft hmini =>
    have hnone := (hs.left hleft).2.1
    simp [DatabaseWriter.spawnedTasks, hmini] at hnone

/-- A step keeps the count of the rows that wait. -/
theorem WStep.pending {a : WriterAction U} (h : WStep config s a s') (hs : s.OK config) :
    s'.writer.statusTracing.pendingCount = s'.writer.pendingRows := by
  have hpending := hs.pending
  cases h with
  | spawn _ _ hnext _ =>
    unfold DatabaseWriter.pendingRows at *
    simp only [DatabaseWriter.spawned, hnext, List.map_append, List.map_cons, List.map_nil,
      List.sum_append, List.sum_cons,
      List.sum_nil, add_zero] at hpending ⊢
    omega
  | @recv msg queue ch _ _ _ =>
    cases msg with
    | data item notify =>
      rw [(onMsg_data _ item notify).2]
      show s.writer.statusTracing.pendingCount + 1 = s.writer.pendingRows + 1
      rw [hpending]
    | done task =>
      unfold DatabaseWriter.onMsg
      simp only
      split
      · exact hpending
      · exact hpending
    | fail task => exact hpending
    | exit grace => exact hpending
  | _ => exact hpending

/-- The rows of a new task are among those that wait. -/
theorem spawn_pending {task : DatabaseWriterTask U} {rest : List (DatabaseWriterTask U)}
    (hs : s.OK config) (hnext : s.writer.nextTaskStack = rest ++ [task]) :
    task.data.length ≤ s.writer.statusTracing.pendingCount := by
  rw [hs.pending, DatabaseWriter.pendingRows, hnext, List.map_append, List.sum_append]
  simp

/-- The reports and the `Exit` messages after a step. -/
theorem WStep.messages {a : WriterAction U} (h : WStep config s a s') (hs : s.OK config) :
    (∀ msg, .sending msg ∈ s'.writer.miniTasks → msg.isReport = true) ∧
      ∀ grace, .exit grace ∈ s'.writer.ctrlChn.queue → grace = true := by
  have hreports := hs.reports
  have hgraceful := hs.graceful
  cases h with
  | accept _ hq =>
    refine ⟨hreports, fun grace hg => hgraceful grace ?_⟩
    simpa [hq] using hg
  | refuse _ => exact ⟨hreports, hgraceful⟩
  | finish _ _ hq =>
    refine ⟨hreports, fun grace hg => ?_⟩
    simp only [hq, List.mem_append, List.mem_singleton, WriterMsg.exit.injEq] at hg
    exact hg.elim (hgraceful grace) id
  | retry _ _ =>
    refine ⟨fun msg hmsg => ?_, hgraceful⟩
    rcases List.mem_append.1 hmsg with hmsg | hmsg
    · exact hreports msg hmsg
    · exact sending_execute (List.mem_singleton.1 hmsg)
  | spawn _ _ _ _ =>
    refine ⟨fun msg hmsg => ?_, hgraceful⟩
    rcases List.mem_append.1 hmsg with hmsg | hmsg
    · exact hreports msg hmsg
    · exact sending_execute (List.mem_singleton.1 hmsg)
  | @recv msg queue ch _ hq hq' =>
    refine ⟨fun msg' hmsg => ?_, fun grace hg => hgraceful grace ?_⟩
    · rw [onMsg_miniTasks] at hmsg
      exact hreports msg' hmsg
    · rw [onMsg_ctrlChn, hq'] at hg
      rw [hq]
      exact List.mem_cons_of_mem _ hg
  | leave _ _ _ _ => exact ⟨hreports, hgraceful⟩
  | @insert i pre post task rest hmini =>
    refine ⟨fun msg hmsg => ?_, hgraceful⟩
    simp only [List.mem_append, List.mem_cons] at hmsg
    rcases hmsg with hmsg | hmsg | hmsg
    · exact hreports msg (by rw [hmini]; simp [hmsg])
    · exact sending_inserted hmsg
    · exact hreports msg (by rw [hmini]; simp [hmsg])
  | @fail i pre post task rest hmini =>
    refine ⟨fun msg hmsg => ?_, hgraceful⟩
    simp only [List.mem_append, List.mem_cons] at hmsg
    rcases hmsg with hmsg | hmsg | hmsg
    · exact hreports msg (by rw [hmini]; simp [hmsg])
    · exact sending_failed hmsg
    · exact hreports msg (by rw [hmini]; simp [hmsg])
  | @report i pre post msg ch _ hmini hq =>
    have hreport := hreports msg (by rw [hmini]; simp)
    refine ⟨fun msg' hmsg => hreports msg' ?_, fun grace hg => ?_⟩
    · rw [hmini]
      simp only [List.mem_append, List.mem_cons] at hmsg ⊢
      exact hmsg.imp_right .inr
    · simp only [hq, List.mem_append, List.mem_singleton] at hg
      rcases hg with hg | rfl
      · exact hgraceful grace hg
      · simp [WriterMsg.isReport] at hreport
  | lost hleft hmini =>
    have hnone := (hs.left hleft).2.1
    simp [DatabaseWriter.spawnedTasks, hmini] at hnone

/-- A message received was owed to the tasks. -/
theorem owed_cons (b : Bool) (msg : WriterMsg U) (queue : List (WriterMsg U)) :
    owed b (msg :: queue) ≤ msg.rows + owed (b || msg.isExit) queue := by
  have hreported : msg.reported ≤ msg.rows := by
    unfold WriterMsg.reported
    split
    · exact le_rfl
    · exact Multiset.zero_le _
  cases b with
  | true => exact add_le_add_left hreported _
  | false =>
    cases msg with
    | exit grace =>
      show owed true queue ≤ 0 + owed true queue
      rw [zero_add]
    | _ => exact le_rfl

theorem onMsg_graceDown (w : DatabaseWriter U) (msg : WriterMsg U) :
    (w.onMsg msg).graceDown = (w.graceDown || msg.isExit) := by
  cases msg with
  | done task =>
    unfold DatabaseWriter.onMsg
    simp only
    split
    · simp [WriterMsg.isExit]
    · simp [WriterMsg.isExit]
  | _ => simp [DatabaseWriter.onMsg, WriterMsg.isExit]

/-- Before `Exit` is sent, it is nowhere. -/
theorem WStep.running {a : WriterAction U} (h : WStep config s a s') (hs : s.OK config)
    (hnone : s'.beforeExit = none) :
    s'.writer.graceDown = false ∧ s'.writer.ctrlChn.queue.any WriterMsg.isExit = false := by
  cases h with
  | accept _ hq =>
    obtain ⟨hdown, hany⟩ := hs.running hnone
    refine ⟨hdown, ?_⟩
    rw [hq, List.any_append, hany]
    rfl
  | finish _ _ _ => simp at hnone
  | @recv msg queue ch _ hq hq' =>
    obtain ⟨hdown, hany⟩ := hs.running hnone
    rw [hq, List.any_cons, Bool.or_eq_false_iff] at hany
    refine ⟨?_, ?_⟩
    · rw [onMsg_graceDown, hany.1, Bool.or_false]
      exact hdown
    · rw [onMsg_ctrlChn, hq']
      exact hany.2
  | @report i pre post msg ch _ hmini hq =>
    obtain ⟨hdown, hany⟩ := hs.running hnone
    refine ⟨hdown, ?_⟩
    have hreport := hs.reports msg (by rw [hmini]; simp)
    rw [hq, List.any_append, hany]
    cases msg with
    | exit grace => simp [WriterMsg.isReport] at hreport
    | _ => rfl
  | _ => exact hs.running hnone

/-- After `Exit` was sent, the rows accepted before it are inserted or owed. -/
theorem WStep.exit {a : WriterAction U} (h : WStep config s a s') (hs : s.OK config) {rows : List U}
    (hrows : s'.beforeExit = some rows) :
    (rows : Multiset U) ≤
      s'.inserted + (s'.writer.inTasks + owed s'.writer.graceDown s'.writer.ctrlChn.queue) ∧
      (s'.writer.graceDown = false → s'.writer.ctrlChn.queue.any WriterMsg.isExit = true) := by
  cases h with
  | @accept item notify ch _ hq =>
    obtain ⟨hle, hany⟩ := hs.exit rows hrows
    refine ⟨?_, fun hdown => ?_⟩
    · rw [hq, owed_data hany]
      exact hle
    · rw [hq, List.any_append, hany hdown]
      rfl
  | refuse _ => exact hs.exit rows hrows
  | finish _ hnone hq =>
    obtain ⟨hdown, hany⟩ := hs.running hnone
    obtain rfl := Option.some.inj hrows
    refine ⟨?_, fun _ => ?_⟩
    · show (s.accepted : Multiset U) ≤
        (s.inserted : Multiset U) + (s.writer.inTasks + owed s.writer.graceDown _)
      rw [hdown, hq, owed_exit hany]
      exact hs.rows.le
    · rw [hq, List.any_append]
      simp [WriterMsg.isExit]
  | retry _ herr =>
    rw [inTasks_retry herr]
    exact hs.exit rows hrows
  | spawn _ _ hnext _ =>
    rw [inTasks_spawned hnext]
    exact hs.exit rows hrows
  | @recv msg queue ch _ hq hq' =>
    obtain ⟨hle, hany⟩ := hs.exit rows hrows
    refine ⟨?_, fun hdown => ?_⟩
    · rw [hq] at hle
      rw [onMsg_rows, onMsg_graceDown, onMsg_ctrlChn, hq']
      refine hle.trans (add_le_add_right ?_ _)
      show s.writer.inTasks + owed s.writer.graceDown (msg :: queue) ≤
        msg.rows + s.writer.inTasks + _
      rw [add_comm msg.rows, add_assoc]
      exact add_le_add_right (owed_cons _ msg queue) _
    · rw [onMsg_graceDown, Bool.or_eq_false_iff] at hdown
      have hany' := hany hdown.1
      rw [hq, List.any_cons, hdown.2, Bool.false_or] at hany'
      rw [onMsg_ctrlChn, hq']
      exact hany'
  | leave _ hdown _ _ =>
    obtain ⟨hle, -⟩ := hs.exit rows hrows
    refine ⟨hle, fun hc => ?_⟩
    rw [show s.writer.graceDown = false from hc] at hdown
    simp at hdown
  | @insert i pre post task rest hmini =>
    obtain ⟨hle, hany⟩ := hs.exit rows hrows
    have htasks := inTasks_replace _ hmini (inTasks_inserted task rest)
    refine ⟨hle.trans (le_of_eq ?_), hany⟩
    show _ = ((s.inserted ++ rest.take (statementLength rest) : List U) : Multiset U) +
      (_ + owed _ _)
    rw [← Multiset.coe_add, ← htasks]
    abel
  | @fail i pre post task rest hmini =>
    obtain ⟨hle, hany⟩ := hs.exit rows hrows
    have htasks := inTasks_replace 0 hmini (zero_add (MiniTask.failed task rest).rows)
    rw [zero_add] at htasks
    refine ⟨?_, hany⟩
    rw [htasks]
    exact hle
  | @report i pre post msg ch _ hmini hq =>
    obtain ⟨hle, hany⟩ := hs.exit rows hrows
    have hreport := hs.reports msg (by rw [hmini]; simp)
    have htasks : msg.rows + _ = s.writer.inTasks := inTasks_remove hmini
    refine ⟨hle.trans (le_of_eq ?_), fun hdown => ?_⟩
    · rw [hq, owed_report hreport, ← htasks]
      show _ + (_ + DatabaseWriter.inTasks { s.writer with miniTasks := pre ++ post } + _) =
        _ + (DatabaseWriter.inTasks { s.writer with miniTasks := pre ++ post } + _)
      abel
    · rw [hq, List.any_append, hany hdown]
      rfl
  | lost hleft hmini =>
    have hnone := (hs.left hleft).2.1
    simp [DatabaseWriter.spawnedTasks, hmini] at hnone

/-- The loop is left when no task is counted and none waits. -/
theorem WStep.left {a : WriterAction U} (h : WStep config s a s') (hs : s.OK config)
    (hleft : s'.writer.left = true) :
    s'.writer.graceDown = true ∧ s'.writer.spawnedTasks = 0 ∧ s'.writer.nextTaskStack = [] := by
  have hempty : ∀ {pre post : List (MiniTask U)} {t : MiniTask U}, s.writer.left = true →
      s.writer.miniTasks = pre ++ t :: post → False := by
    intro pre post t hl hmini
    have hnone := (hs.left hl).2.1
    simp [DatabaseWriter.spawnedTasks, hmini] at hnone
  cases h with
  | accept hl _ => simp [hl] at hleft
  | refuse _ => exact hs.left hleft
  | finish hl _ _ => simp [hl] at hleft
  | retry hl _ => simp [hl] at hleft
  | spawn hl _ _ _ => simp [DatabaseWriter.spawned, hl] at hleft
  | @recv msg queue ch hl hq _ =>
    exfalso
    cases msg with
    | data item notify => simp [DatabaseWriter.onMsg, hl] at hleft
    | done task =>
      unfold DatabaseWriter.onMsg at hleft
      simp only at hleft
      split at hleft
      · simp [hl] at hleft
      · simp [hl] at hleft
    | fail task => simp [DatabaseWriter.onMsg, hl] at hleft
    | exit grace =>
      have hgrace := hs.graceful grace (by rw [hq]; simp)
      simp [DatabaseWriter.onMsg, hgrace] at hleft
  | leave _ hdown hzero hnext =>
    refine ⟨hdown, ?_, hnext⟩
    have hspawning := hs.spawning
    rw [hzero] at hspawning
    show s.writer.spawnedTasks = 0
    omega
  | insert hmini => exact (hempty hleft hmini).elim
  | fail hmini => exact (hempty hleft hmini).elim
  | report hl _ _ => simp [hl] at hleft
  | lost hl hmini => exact (hempty hl hmini).elim

/-- **Every step keeps the invariant.** -/
theorem WStep.ok {a : WriterAction U} (h : WStep config s a s')
    (hs : s.OK config) : s'.OK config := by
  obtain ⟨hspawning, hlimit⟩ := h.spawning hs
  obtain ⟨hreports, hgraceful⟩ := h.messages hs
  exact ⟨h.rows hs, hspawning, hlimit, h.pending hs, hreports, hgraceful, h.running hs,
    fun _ => h.exit hs, h.left hs⟩

theorem Writing.Runs.ok (hlimit : 0 ≤ config.spawnLimit)
    (h : Writing.Runs config P s) : s.OK config := by
  induction h with
  | start =>
    refine ⟨rfl, rfl, hlimit, rfl, ?_, ?_, fun _ => ⟨rfl, rfl⟩, ?_, ?_⟩
    · intro msg hmsg
      simp [Writing.start, DatabaseWriter.startSchedule] at hmsg
    · intro grace hgrace
      simp [Writing.start, DatabaseWriter.startSchedule, Channel.empty] at hgrace
    · intro rows hrows
      simp [Writing.start] at hrows
    · intro hleft
      simp [Writing.start, DatabaseWriter.startSchedule] at hleft
  | step _ _ hstep ih => exact (Writing.step_cases hstep).ok ih

/-! ## The rows of a writer -/

/-- **The writer neither loses nor duplicates rows.** Each accepted row is inserted at most once and
nothing else is; at every head of the loop the counters count the tasks and the rows they are for,
and no subtraction underflows; and when the loop was left, every row accepted before `Exit` has been
inserted. -/
theorem Writing.Reachable.rows_kept (hlimit : 0 ≤ config.spawnLimit)
    (h : Writing.Reachable config s) :
    s.inserted.Subperm s.accepted ∧
      s.writer.statusTracing.spawningTasks = s.writer.spawnedTasks ∧
      (0 ≤ s.writer.statusTracing.spawningTasks ∧
        s.writer.statusTracing.spawningTasks ≤ config.spawnLimit) ∧
      s.writer.statusTracing.pendingCount = s.writer.pendingRows ∧
      (∀ task rest, s.writer.nextTaskStack = rest ++ [task] →
        task.data.length ≤ s.writer.statusTracing.pendingCount) ∧
      (s.writer.left = true → ∃ rows, s.beforeExit = some rows ∧ rows.Subperm s.inserted) := by
  have hs := h.ok hlimit
  refine ⟨?_, hs.spawning, ⟨?_, hs.limit⟩, hs.pending, fun task rest => spawn_pending hs,
    fun hleft => ?_⟩
  · rw [← Multiset.coe_le, hs.rows]
    exact Multiset.le_add_right _ _
  · rw [hs.spawning]
    exact Int.natCast_nonneg _
  · obtain ⟨hdown, hnone, hnext⟩ := hs.left hleft
    cases hexit : s.beforeExit with
    | none =>
      have hrunning := (hs.running hexit).1
      rw [hdown] at hrunning
      simp at hrunning
    | some rows =>
      obtain ⟨hle, -⟩ := hs.exit rows hexit
      refine ⟨rows, rfl, Multiset.coe_le.1 (hle.trans (le_of_eq ?_))⟩
      -- no task holds a row, and no report is on its way
      unfold DatabaseWriter.spawnedTasks at hnone
      have hmini : s.writer.miniTasks = [] := List.eq_nil_of_length_eq_zero (by omega)
      have herr : s.writer.errorTaskStack = [] := List.eq_nil_of_length_eq_zero (by omega)
      have hcount : s.writer.ctrlChn.queue.countP WriterMsg.isReport = 0 := by omega
      have howed : owed true s.writer.ctrlChn.queue = 0 := by
        rw [owed_true]
        refine List.sum_eq_zero fun rows hrows => ?_
        obtain ⟨msg, hmsg, rfl⟩ := List.mem_map.1 hrows
        have hno := List.countP_eq_zero.1 hcount msg hmsg
        unfold WriterMsg.reported
        rw [if_neg hno]
      unfold DatabaseWriter.inTasks
      rw [hdown, howed, hmini, herr, hnext]
      simp

/-- Any run reaches a reachable state. -/
theorem Writing.Reachable.run {as : List (WriterAction U)} (h : Writing.Reachable config s)
    (hrun : s.run config as = some s') : Writing.Reachable config s' := by
  induction as generalizing s with
  | nil =>
    obtain rfl := Option.some.inj hrun
    exact h
  | cons a as ih =>
    obtain ⟨s₁, hstep, hrest⟩ := Option.bind_eq_some_iff.1 hrun
    exact ih (h.step trivial hstep) hrest

def sampleWriterConfig : DatabaseWriterConfig := { spawnLimit := 4, capabilityLimit := 8192 }

/-- Two rows in two tasks: the first task fails once, the second one is faster, and `finish` waits
for both. -/
def sampleWrites : List (WriterAction ℕ) :=
  [.append 10 none, .recv, .acquire, .append 20 none, .finish, .recv, .acquire, .statement 0 false,
    .report 0,
    .statement 0 true, .report 0, .recv, .recv, .recv, .acquire, .statement 0 true, .report 0,
    .recv, .yieldNow]

theorem Writing.Reachable.rows_kept_retried :
    ∃ s : Writing ℕ, Writing.Reachable sampleWriterConfig s ∧
    s.writer.left = true ∧ s.inserted = [20, 10] ∧ s.accepted = [10, 20] ∧
    ∃ rows, s.beforeExit = some rows ∧ rows.Subperm s.inserted := by
  have h : ((Writing.start.run sampleWriterConfig sampleWrites).map fun s =>
      (s.writer.left, s.inserted, s.accepted)) =
      some (true, [20, 10], [10, 20]) := by decide +kernel
  obtain ⟨s, hrun, hs⟩ := Option.map_eq_some_iff.1 h
  simp only [Prod.mk.injEq] at hs
  obtain ⟨hleft, hinserted, haccepted⟩ := hs
  have hreach : Writing.Reachable sampleWriterConfig s := Writing.Reachable.run .start hrun
  exact ⟨s, hreach, hleft, hinserted, haccepted,
    (Writing.Reachable.rows_kept (by decide) hreach).2.2.2.2.2 hleft⟩

end Dingir
