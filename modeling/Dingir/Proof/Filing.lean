import Dingir.Spec.Persist
import Dingir.Proof.Tracing
import Dingir.Proof.Writer

/-!
# Where the rows of a partition are

A writer takes rows with the offsets of their messages. As long as its tasks take the
offsets in order (`InOrder`), each offset that is pushed is above those of the tasks
before, and below all that wait (`Filed`). Then what the stack of the partition reports
is done with, up to the offset (`Filed.behind`).

- `InOrder`: how the waiting tasks and what is coming are sorted, and what each step does.
- `Filed`: the same beside the stack and the tasks at work, with a lemma for each step.
-/

namespace Dingir

open Keyed Guarded Prefix

variable {T U : Type} {p : ℤ} {v n : ℕ}

/-! ## The offsets of one partition -/

/-- The offset a flag has for the partition. -/
def flagAt (p : ℤ) (flag : Option TaskNotifyFlag) : Option ℕ :=
  flag.bind fun notifies => notifies.find? p

theorem find?_addTo (notify : TaskNotification) (target : TaskNotifyFlag) (p : ℤ) :
    (notify.addTo target).find? p =
      if notify.partition = p then some (max ((target.find? p).getD 0) notify.offset)
      else target.find? p := by
  unfold TaskNotification.addTo
  by_cases hp : notify.partition = p
  · subst hp
    rw [if_pos rfl]
    cases hold : target.find? notify.partition with
    | none => simp
    | some old =>
      simp only [Option.getD_some]
      split
      · rename_i hlt
        simp [max_eq_left hlt.le]
      · rename_i hle
        simp [max_eq_right (not_lt.1 hle)]
  · rw [if_neg hp]
    cases hold : target.find? notify.partition with
    | none => simp [find?_insert_of_ne _ _ (Ne.symm hp)]
    | some old =>
      simp only
      split <;> simp [find?_insert_of_ne _ _ (Ne.symm hp)]

/-- The stack of the partition. -/
def ProgTracing.at (tracing : ProgTracing) (p : ℤ) : ProgTracingStack := (tracing.find? p).getD []

theorem updateFrom_at (tracing : ProgTracing) (notify : TaskNotifyFlag) (p : ℤ) :
    (tracing.updateFrom notify).at p = (notify.find? p).elim (tracing.at p) fun n =>
      (tracing.at p).pushTop n := by
  unfold ProgTracing.updateFrom
  exact foldl_entries (fun (tracing : ProgTracing) a v =>
    tracing.insert a (((tracing.find? a).getD []).pushTop v))
    (fun tracing => tracing.at p) (fun v stack => stack.pushTop v) (k := p)
    (fun s v => by simp [ProgTracing.at])
    (fun s a v ha => by simp [ProgTracing.at, find?_insert_of_ne _ _ (Ne.symm ha)]) notify tracing

/-- One entry of `finish_from`. -/
def finishEntry (state : TaskNotifyFlag × ProgTracing) (p : ℤ) (n : ℕ) :
    TaskNotifyFlag × ProgTracing :=
  match state.2.find? p with
  | some stack =>
    (match (stack.popTop n).1 with
      | some v => state.1.insert p v
      | none => state.1, state.2.insert p (stack.popTop n).2)
  | none => state

theorem finishFrom_at (tracing : ProgTracing) (notify : TaskNotifyFlag) (p : ℤ) :
    (tracing.finishFrom notify).1.find? p =
      (notify.find? p).bind (fun n => ((tracing.at p).popTop n).1) ∧
      (tracing.finishFrom notify).2.at p = (notify.find? p).elim (tracing.at p) fun n =>
        ((tracing.at p).popTop n).2 := by
  have h := foldl_entries finishEntry (fun state => (state.1.find? p, state.2.at p))
    (fun v x => ((x.2.popTop v).1.or x.1, (x.2.popTop v).2)) (k := p) ?_ ?_ notify (∅, tracing)
  · change (((tracing.finishFrom notify).1.find? p, (tracing.finishFrom notify).2.at p) : Option ℕ ×
      ProgTracingStack) = _ at h
    cases hv : notify.find? p with
    | none =>
      rw [hv] at h
      exact ⟨congrArg Prod.fst h, congrArg Prod.snd h⟩
    | some n =>
      rw [hv] at h
      exact ⟨(congrArg Prod.fst h).trans (Option.or_none ..), congrArg Prod.snd h⟩
  · intro state v
    unfold finishEntry ProgTracing.at
    cases hstack : state.2.find? p with
    | none => simp [hstack, ProgTracingStack.popTop]
    | some stack => cases hpop : (stack.popTop v).1 <;> simp [hpop]
  · intro state a v ha
    unfold finishEntry ProgTracing.at
    cases hstack : state.2.find? a with
    | none => rfl
    | some stack =>
      cases hpop : (stack.popTop v).1 <;> simp [hpop, find?_insert_of_ne _ _ (Ne.symm ha)]

/-- The offsets of the partition among some rows, in order. -/
def offs (p : ℤ) (rows : List (MessageRow T)) : List ℕ :=
  rows.filterMap fun row => if row.partition = p then some row.offset else none

theorem mem_offs {rows : List (MessageRow T)} :
    n ∈ offs p rows ↔ ∃ row ∈ rows, row.partition = p ∧ row.offset = n := by
  simp [offs]

theorem offs_append (rows rows' : List (MessageRow T)) :
    offs p (rows ++ rows') = offs p rows ++ offs p rows' :=
  List.filterMap_append

/-- A flag has the greatest of the offsets for the partition, if there are any. -/
structure Flagged (p : ℤ) (flag : Option TaskNotifyFlag) (rows : List (MessageRow T)) : Prop where
  greatest : ∀ v, flagAt p flag = some v → v ∈ offs p rows ∧ ∀ x ∈ offs p rows, x ≤ v
  empty : flagAt p flag = none → offs p rows = []

theorem Flagged.new : Flagged p none ([] : List (MessageRow T)) := ⟨by simp [flagAt], fun _ => rfl⟩

theorem Flagged.addData {task : DatabaseWriterTask (MessageRow T)}
    (h : Flagged p task.notifyFlag task.data) (row : MessageRow T) :
    Flagged p (task.addData row (some ⟨row.partition, row.offset⟩)).notifyFlag
      (task.addData row (some ⟨row.partition, row.offset⟩)).data := by
  have hflag : flagAt p (task.addData row (some ⟨row.partition, row.offset⟩)).notifyFlag =
      if row.partition = p then some (max ((flagAt p task.notifyFlag).getD 0) row.offset)
      else flagAt p task.notifyFlag := by
    show flagAt p (some _) = _
    unfold flagAt
    rw [Option.bind_some, find?_addTo]
    cases task.notifyFlag <;> simp [find?_empty]
  have hdata : offs p (task.addData row (some ⟨row.partition, row.offset⟩)).data =
      offs p task.data ++ if row.partition = p then [row.offset] else [] := by
    show offs p (task.data ++ [row]) = _
    rw [offs_append]
    by_cases hp : row.partition = p <;> simp [offs, hp]
  by_cases hp : row.partition = p
  · rw [if_pos hp] at hflag hdata
    refine ⟨fun v hv => ?_, fun hnone => by rw [hflag] at hnone; simp at hnone⟩
    rw [hflag] at hv
    obtain rfl := Option.some.inj hv
    rw [hdata]
    cases hold : flagAt p task.notifyFlag with
    | none => simp [h.empty hold]
    | some old =>
      obtain ⟨hmem, hle⟩ := h.greatest old hold
      refine ⟨?_, fun x hx => ?_⟩
      · rcases max_choice ((some old).getD 0) row.offset with hmax | hmax
        · rw [hmax]
          exact List.mem_append_left _ hmem
        · rw [hmax]
          simp
      · rcases List.mem_append.1 hx with hx | hx
        · exact le_max_of_le_left (hle x hx)
        · exact le_max_of_le_right (List.mem_singleton.1 hx).le
  · rw [if_neg hp] at hflag hdata
    rw [List.append_nil] at hdata
    refine ⟨fun v hv => ?_, fun hnone => ?_⟩
    · rw [hflag] at hv
      rw [hdata]
      exact h.greatest v hv
    · rw [hflag] at hnone
      rw [hdata]
      exact h.empty hnone

/-! ## The tasks at work -/

/-- A task that was spawned and whose offsets are not popped: its flag, and its rows that are not
inserted. -/
abbrev LiveTask (U : Type) := Option TaskNotifyFlag × List U

def WriterMsg.live : WriterMsg U → Option (LiveTask U)
  | .data _ _ => none
  | .done task => some (task.notifyFlag, [])
  | .fail task => some (task.notifyFlag, task.data)
  | .exit _ => none

def MiniTask.live : MiniTask U → Option (LiveTask U)
  | .inserting task rest => some (task.notifyFlag, rest)
  | .sending msg => msg.live

namespace DatabaseWriter

/-- The tasks at work. -/
def live (w : DatabaseWriter U) : Multiset (LiveTask U) :=
  (w.miniTasks.filterMap MiniTask.live : Multiset (LiveTask U)) +
    (w.ctrlChn.queue.filterMap WriterMsg.live : Multiset (LiveTask U)) +
    (w.errorTaskStack.map fun task => (task.notifyFlag, task.data) : Multiset (LiveTask U))

/-- The rows in the channel, with their offsets. -/
def sent (w : DatabaseWriter U) : List (U × Option TaskNotification) :=
  w.ctrlChn.queue.filterMap fun
    | .data item notify => some (item, notify)
    | _ => none

end DatabaseWriter

@[simp] theorem live_execute (task : DatabaseWriterTask U) :
    (MiniTask.execute task).live = some (task.notifyFlag, task.data) := by
  unfold MiniTask.execute
  split
  · rename_i hempty
    rw [List.isEmpty_iff.1 hempty]
    rfl
  · rfl

theorem live_inserted (task : DatabaseWriterTask U) (rest : List U) :
    (MiniTask.inserted task rest).live =
      some (task.notifyFlag, rest.drop (statementLength rest)) := by
  unfold MiniTask.inserted
  split
  · rename_i hempty
    rw [List.isEmpty_iff.1 hempty]
    rfl
  · rfl

theorem live_append_data (ch : Channel (WriterMsg U) channelLimit) {w : DatabaseWriter U} {item : U}
    {notify : Option TaskNotification} (hq : ch.queue = w.ctrlChn.queue ++ [.data item notify]) :
    ({ w with ctrlChn := ch } : DatabaseWriter U).live = w.live := by
  simp only [DatabaseWriter.live, hq, List.filterMap_append, List.filterMap_cons,
    List.filterMap_nil, WriterMsg.live,
    List.append_nil]

theorem live_append_exit (ch : Channel (WriterMsg U) channelLimit) {w : DatabaseWriter U}
    {grace : Bool} (hq : ch.queue = w.ctrlChn.queue ++ [.exit grace]) :
    ({ w with ctrlChn := ch } : DatabaseWriter U).live = w.live := by
  simp only [DatabaseWriter.live, hq, List.filterMap_append, List.filterMap_cons,
    List.filterMap_nil, WriterMsg.live,
    List.append_nil]

theorem live_retry {w : DatabaseWriter U} {task : DatabaseWriterTask U}
    {rest : List (DatabaseWriterTask U)} (herr : w.errorTaskStack = rest ++ [task]) :
    ({ w with errorTaskStack := rest, miniTasks := w.miniTasks ++ [.execute task] } : DatabaseWriter
      U).live = w.live := by
  simp only [DatabaseWriter.live, herr, List.filterMap_append, List.filterMap_cons,
    List.filterMap_nil, live_execute,
    List.map_append, List.map_cons, List.map_nil, ← Multiset.coe_add]
  abel

theorem live_report (ch : Channel (WriterMsg U) channelLimit) {w : DatabaseWriter U}
    {msg : WriterMsg U} {pre post : List (MiniTask U)}
    (hmini : w.miniTasks = pre ++ .sending msg :: post) (hq : ch.queue = w.ctrlChn.queue ++ [msg]) :
    ({ w with ctrlChn := ch, miniTasks := pre ++ post } : DatabaseWriter U).live = w.live := by
  cases hlive : msg.live with
  | none =>
    simp only [DatabaseWriter.live, hmini, hq, List.filterMap_append, List.filterMap_cons,
      List.filterMap_nil, MiniTask.live,
      hlive, List.append_nil]
  | some task =>
    simp only [DatabaseWriter.live, hmini, hq, List.filterMap_append, List.filterMap_cons,
      List.filterMap_nil, MiniTask.live,
      hlive, ← Multiset.coe_add, ← Multiset.cons_coe, ← Multiset.singleton_add]
    abel

theorem live_recv_fail (ch : Channel (WriterMsg U) channelLimit) {w : DatabaseWriter U}
    {ctx : DatabaseWriterTask U} {queue : List (WriterMsg U)}
    (hq : w.ctrlChn.queue = .fail ctx :: queue) (hch : ch.queue = queue) :
    ({ w with ctrlChn := ch, errorTaskStack := ctx :: w.errorTaskStack } : DatabaseWriter U).live =
      w.live := by
  simp only [DatabaseWriter.live, hq, hch, List.filterMap_cons, WriterMsg.live, List.map_cons,
    ← Multiset.cons_coe,
    ← Multiset.singleton_add]
  abel

/-- A task loses rows that were inserted. -/
theorem live_replace {w : DatabaseWriter U} {pre post : List (MiniTask U)} {old new : MiniTask U}
    {flag : Option TaskNotifyFlag} {rows rows' : List U} (hmini : w.miniTasks = pre ++ old :: post)
    (hold : old.live = some (flag, rows)) (hnew : new.live = some (flag, rows')) :
    ∃ others, w.live = (flag, rows) ::ₘ others ∧
      ({ w with miniTasks := pre ++ new :: post } : DatabaseWriter U).live =
        (flag, rows') ::ₘ others := by
  refine ⟨(pre.filterMap MiniTask.live : Multiset (LiveTask U)) +
    (post.filterMap MiniTask.live : Multiset (LiveTask U)) +
    (w.ctrlChn.queue.filterMap WriterMsg.live : Multiset (LiveTask U)) +
    (w.errorTaskStack.map fun task => (task.notifyFlag, task.data) : Multiset (LiveTask U)), ?_, ?_⟩
  · simp only [DatabaseWriter.live, hmini, List.filterMap_append, List.filterMap_cons, hold,
      ← Multiset.coe_add,
      ← Multiset.cons_coe, ← Multiset.singleton_add]
    abel
  · simp only [DatabaseWriter.live, List.filterMap_append, List.filterMap_cons, hnew,
      ← Multiset.coe_add,
      ← Multiset.cons_coe, ← Multiset.singleton_add]
    abel

theorem live_spawned {w : DatabaseWriter U} {task : DatabaseWriterTask U}
    {rest : List (DatabaseWriterTask U)} :
    (w.spawned task rest).live = (task.notifyFlag, task.data) ::ₘ w.live := by
  simp only [DatabaseWriter.live, DatabaseWriter.spawned, List.filterMap_append,
    List.filterMap_cons, List.filterMap_nil,
    live_execute, ← Multiset.coe_add, ← Multiset.singleton_add, Multiset.coe_singleton]
  abel

theorem live_recv_done (ch : Channel (WriterMsg U) channelLimit) {w : DatabaseWriter U}
    {ctx : DatabaseWriterTask U} {queue : List (WriterMsg U)}
    (hq : w.ctrlChn.queue = .done ctx :: queue) (hch : ch.queue = queue) :
    w.live = (ctx.notifyFlag, []) ::ₘ ({ w with ctrlChn := ch } : DatabaseWriter U).live := by
  simp only [DatabaseWriter.live, hq, hch, List.filterMap_cons, WriterMsg.live, ← Multiset.cons_coe,
    ← Multiset.singleton_add]
  abel

/-- What a received row does to the waiting tasks: it joins the newest, or a new one when that is
full. -/
theorem onMsg_data_cases (w : DatabaseWriter U) (item : U) (notify : Option TaskNotification) :
    (∃ front rest, w.nextTaskStack = front :: rest ∧ front.isLimited = false ∧
      (w.onMsg (.data item notify)).nextTaskStack = front.addData item notify :: rest) ∨
    (∀ front ∈ w.nextTaskStack.head?, front.isLimited = true) ∧
      (w.onMsg (.data item notify)).nextTaskStack = DatabaseWriterTask.new.addData item notify ::
        w.nextTaskStack := by
  cases hstack : w.nextTaskStack with
  | nil => exact .inr ⟨by simp, by simp [DatabaseWriter.onMsg, hstack]⟩
  | cons front rest =>
    cases hlim : front.isLimited with
    | true => exact .inr ⟨by simp [hlim], by simp [DatabaseWriter.onMsg, hstack, hlim]⟩
    | false => exact .inl ⟨front, rest, rfl, hlim, by simp [DatabaseWriter.onMsg, hstack, hlim]⟩

/-! ## Tasks in order -/

/-- The offsets that wait: in the tasks to be spawned, and coming. -/
def waiting (p : ℤ) (stack : List (DatabaseWriterTask (MessageRow T))) (coming : List ℕ) : List ℕ :=
  (stack.flatMap fun task => offs p task.data) ++ coming

/-- **The tasks take the offsets in order.** An offset that comes may be in the newest task already;
those of the other tasks are done with. -/
structure InOrder (p : ℤ) (stack : List (DatabaseWriterTask (MessageRow T)))
    (coming : List ℕ) : Prop where
  tasks : stack.Pairwise fun newer older => ∀ x ∈ offs p older.data, ∀ y ∈ offs p newer.data, x < y
  front : ∀ task ∈ stack, ∀ x ∈ offs p task.data, ∀ y ∈ coming, x ≤ y
  closed : ∀ task ∈ stack.tail, ∀ x ∈ offs p task.data, ∀ y ∈ coming, x < y
  ascending : coming.Pairwise (· ≤ ·)

section InOrder

variable {stack rest : List (DatabaseWriterTask (MessageRow T))}
  {task front : DatabaseWriterTask (MessageRow T)} {coming coming' : List ℕ} {row : MessageRow T}
  {notify : Option TaskNotification}

theorem offs_addData : offs p (task.addData row notify).data = offs p task.data ++ offs p [row] :=
  offs_append _ _

/-- The oldest task is spawned. -/
theorem InOrder.spawn (h : InOrder p (rest ++ [task]) coming)
    (hne : ∀ x ∈ offs p task.data, ∀ y ∈ coming, x ≠ y) :
    InOrder p rest coming ∧ ∀ x ∈ offs p task.data, ∀ y ∈ waiting p rest coming, x < y := by
  obtain ⟨htasks, -, hcross⟩ := List.pairwise_append.1 h.tasks
  refine ⟨⟨htasks, fun t ht => h.front t (by simp [ht]), fun t ht => ?_, h.ascending⟩,
    fun x hx y hy => ?_⟩
  · cases rest with
    | nil => simp at ht
    | cons a l => exact h.closed t (List.mem_append_left _ ht)
  · rcases List.mem_append.1 hy with hy | hy
    · obtain ⟨t, ht, hy⟩ := List.mem_flatMap.1 hy
      exact hcross t ht task (by simp) x hx y hy
    · exact lt_of_le_of_ne (h.front task (by simp) x hx y hy) (hne x hx y hy)

/-- A row joins the newest task. -/
theorem InOrder.join (h : InOrder p (front :: rest) (offs p [row] ++ coming)) :
    InOrder p (front.addData row notify :: rest) coming := by
  obtain ⟨hnewest, htasks⟩ := List.pairwise_cons.1 h.tasks
  obtain ⟨-, hascending, hcross⟩ := List.pairwise_append.1 h.ascending
  refine ⟨List.pairwise_cons.2 ⟨fun older holder x hx y hy => ?_, htasks⟩, fun t ht x hx y hy => ?_,
    fun t ht x hx y hy => h.closed t ht x hx y (by simp [hy]), hascending⟩
  · rw [offs_addData] at hy
    rcases List.mem_append.1 hy with hy | hy
    · exact hnewest older holder x hx y hy
    · exact h.closed older holder x hx y (by simp [hy])
  · rcases List.mem_cons.1 ht with rfl | ht
    · rw [offs_addData] at hx
      rcases List.mem_append.1 hx with hx | hx
      · exact h.front front (by simp) x hx y (by simp [hy])
      · exact hcross x hx y hy
    · exact h.front t (by simp [ht]) x hx y (by simp [hy])

/-- A row opens a new task. -/
theorem InOrder.open (h : InOrder p stack (offs p [row] ++ coming))
    (hne : ∀ front ∈ stack.head?, ∀ x ∈ offs p front.data, ∀ y ∈ offs p [row] ++ coming, x ≠ y) :
    InOrder p (DatabaseWriterTask.new.addData row notify :: stack) coming := by
  have hstrict : ∀ t ∈ stack, ∀ x ∈ offs p t.data, ∀ y ∈ offs p [row] ++ coming, x < y := by
    intro t ht x hx y hy
    cases stack with
    | nil => simp at ht
    | cons a l =>
      rcases List.mem_cons.1 ht with rfl | ht
      · exact lt_of_le_of_ne (h.front t (by simp) x hx y hy) (hne t rfl x hx y hy)
      · exact h.closed t ht x hx y hy
  obtain ⟨-, hascending, hcross⟩ := List.pairwise_append.1 h.ascending
  have hnew : offs p ((DatabaseWriterTask.new : DatabaseWriterTask (MessageRow T)).addData row
      notify).data = offs p [row] := by
    rw [offs_addData]
    rfl
  refine ⟨List.pairwise_cons.2 ⟨fun older holder x hx y hy => ?_, h.tasks⟩,
    fun t ht x hx y hy => ?_,
    fun t ht x hx y hy => hstrict t ht x hx y (by simp [hy]), hascending⟩
  · rw [hnew] at hy
    exact hstrict older holder x hx y (by simp [hy])
  · rcases List.mem_cons.1 ht with rfl | ht
    · rw [hnew] at hx
      exact hcross x hx y hy
    · exact (hstrict t ht x hx y (by simp [hy])).le

/-- An offset no less than all the others comes last. -/
theorem InOrder.deliver (h : InOrder p stack coming) (hn : ∀ x ∈ waiting p stack coming, x < n)
    (hcoming : ∀ y ∈ coming', y = n) : InOrder p stack (coming ++ coming') := by
  have hlt : ∀ t ∈ stack, ∀ x ∈ offs p t.data, x < n := fun t ht x hx =>
    hn x (List.mem_append_left _ (List.mem_flatMap.2 ⟨t, ht, hx⟩))
  have hcases : ∀ y ∈ coming ++ coming', y ∈ coming ∨ y = n :=
    fun y hy => (List.mem_append.1 hy).imp_right (hcoming y)
  refine ⟨h.tasks, fun t ht x hx y hy => ?_, fun t ht x hx y hy => ?_,
    List.pairwise_append.2 ⟨h.ascending, ?_, ?_⟩⟩
  · rcases hcases y hy with hy | rfl
    · exact h.front t ht x hx y hy
    · exact (hlt t ht x hx).le
  · rcases hcases y hy with hy | rfl
    · exact h.closed t ht x hx y hy
    · exact hlt t (List.mem_of_mem_tail ht) x hx
  · exact List.pairwise_of_forall_mem_list fun x hx y hy =>
      (hcoming x hx).trans (hcoming y hy).symm |>.le
  · intro x hx y hy
    rw [hcoming y hy]
    exact (hn x (List.mem_append_right _ hx)).le

end InOrder

/-! ## Rows on file -/

/-- The rows that are coming: in the channel, or to be appended next. -/
def DatabaseWriter.comingRows (w : DatabaseWriter (MessageRow T))
    (next : List (MessageRow T)) : List (MessageRow T) :=
  w.sent.map Prod.fst ++ next

/-- The offsets at work, of the tasks that were spawned. -/
def DatabaseWriter.liveFlags (p : ℤ) (w : DatabaseWriter U) : Multiset ℕ :=
  w.live.filterMap fun task => flagAt p task.1

/-- **The rows of a partition are on file.** The stack of the partition is `g`: it was pushed the
greatest offset of each task that was spawned, and has at work those of the tasks that are. -/
structure Filed (p : ℤ) (w : DatabaseWriter (MessageRow T)) (next : List (MessageRow T))
    (g : Progress) : Prop where
  traced : g.Traced
  stack : w.notifyTracing.at p = g.stack
  atWork : w.liveFlags p + (g.popped : Multiset ℕ) = (g.pushed : Multiset ℕ)
  rows : ∀ task ∈ w.live, ∀ x ∈ offs p task.2, ∃ v, flagAt p task.1 = some v ∧
    ∀ u ∈ g.pushed, u < v → u < x
  flagged : ∀ task ∈ w.nextTaskStack, Flagged p task.notifyFlag task.data
  inOrder : InOrder p w.nextTaskStack (offs p (w.comingRows next))
  pushed : ∀ u ∈ g.pushed, ∀ y ∈ waiting p w.nextTaskStack (offs p (w.comingRows next)), u < y
  notified : ∀ e ∈ w.sent, e.2 = some ⟨e.1.partition, e.1.offset⟩

/-- A row that is not inserted, and where it is. -/
def DatabaseWriter.Holds (w : DatabaseWriter (MessageRow T)) (next : List (MessageRow T))
    (row : MessageRow T) : Prop :=
  (∃ task ∈ w.live, row ∈ task.2) ∨ (∃ task ∈ w.nextTaskStack, row ∈ task.data) ∨
    row ∈ w.comingRows next

section Filed

variable {w w' : DatabaseWriter (MessageRow T)} {next next' : List (MessageRow T)} {g g' : Progress}
  {row : MessageRow T} {task : DatabaseWriterTask (MessageRow T)}
  {rest : List (DatabaseWriterTask (MessageRow T))}

/-- An offset at work was pushed and not popped. -/
theorem Filed.atWork_mem (h : Filed p w next g) (hv : v ∈ w.liveFlags p) :
    v ∈ g.pushed ∧ v ∉ g.popped := by
  have hnodup : (w.liveFlags p + (g.popped : Multiset ℕ)).Nodup := by
    rw [h.atWork, Multiset.coe_nodup]
    exact h.traced.ascending.imp ne_of_lt
  refine ⟨?_, ?_⟩
  · rw [← Multiset.mem_coe, ← h.atWork]
    exact Multiset.mem_add.2 (.inl hv)
  · intro hpopped
    exact (Multiset.disjoint_left.1 (Multiset.nodup_add.1 hnodup).2.2) hv
      (Multiset.mem_coe.2 hpopped)

/-- **What is behind a done offset is inserted**: no row of the partition up to it is held. -/
theorem Filed.behind (h : Filed p w next g) (hv : v ∈ g.completed) (hrow : w.Holds next row)
    (hp : row.partition = p) : v < row.offset := by
  have hpushed : v ∈ g.pushed := (List.takeWhile_subset _) hv
  have hoffs : ∀ rows : List (MessageRow T), row ∈ rows → row.offset ∈ offs p rows :=
    fun rows hmem => mem_offs.2 ⟨row, hmem, hp, rfl⟩
  rcases hrow with ⟨task, htask, hmem⟩ | ⟨task, htask, hmem⟩ | hmem
  · obtain ⟨u, hu, hbelow⟩ := h.rows task htask _ (hoffs _ hmem)
    have hwork : u ∈ w.liveFlags p := (Multiset.mem_filterMap _ _).2 ⟨task, htask, hu⟩
    obtain ⟨hupushed, hupopped⟩ := h.atWork_mem hwork
    apply hbelow v hpushed
    by_contra hle
    have hdone : u ∈ g.completed := mem_takeWhile_of_le h.traced.ascending hv hupushed (by omega)
    exact hupopped (by simpa using List.mem_takeWhile_imp hdone)
  · exact h.pushed v hpushed _
      (List.mem_append_left _ (List.mem_flatMap.2 ⟨task, htask, hoffs _ hmem⟩))
  · exact h.pushed v hpushed _ (List.mem_append_right _ (hoffs _ hmem))

/-- A step that leaves the stacks and the offsets as they are. -/
theorem Filed.relive (h : Filed p w next g) (htracing : w'.notifyTracing = w.notifyTracing)
    (hstack : w'.nextTaskStack = w.nextTaskStack)
    (hcoming : w'.comingRows next' = w.comingRows next)
    (hsent : ∀ e ∈ w'.sent, e ∈ w.sent ∨ e.2 = some ⟨e.1.partition, e.1.offset⟩)
    (hflags : w'.liveFlags p = w.liveFlags p)
    (hrows : ∀ task ∈ w'.live, ∃ task₀ ∈ w.live, task.1 = task₀.1 ∧ task.2 ⊆ task₀.2) :
    Filed p w' next' g := by
  refine ⟨h.traced, by rw [htracing]; exact h.stack, by rw [hflags]; exact h.atWork,
    ?_, by rw [hstack]; exact h.flagged,
    by rw [hstack, hcoming]; exact h.inOrder, by rw [hstack, hcoming]; exact h.pushed, ?_⟩
  · intro task htask x hx
    obtain ⟨task₀, hmem, hflag, hsub⟩ := hrows task htask
    obtain ⟨row, hrow, hp, rfl⟩ := mem_offs.1 hx
    rw [hflag]
    exact h.rows task₀ hmem _ (mem_offs.2 ⟨row, hsub hrow, hp, rfl⟩)
  · intro e he
    rcases hsent e he with he | he
    · exact h.notified e he
    · exact he

/-- A step that changes neither the offsets nor the tasks. -/
theorem Filed.same (h : Filed p w next g) (htracing : w'.notifyTracing = w.notifyTracing)
    (hstack : w'.nextTaskStack = w.nextTaskStack)
    (hcoming : w'.comingRows next' = w.comingRows next)
    (hsent : ∀ e ∈ w'.sent, e ∈ w.sent ∨ e.2 = some ⟨e.1.partition, e.1.offset⟩)
    (hlive : w'.live = w.live) : Filed p w' next' g := by
  refine h.relive htracing hstack hcoming hsent (by unfold DatabaseWriter.liveFlags; rw [hlive]) ?_
  intro task htask
  exact ⟨task, hlive ▸ htask, rfl, List.Subset.refl _⟩

/-! ### Steps that change the stacks -/

/-- The offsets that are there after a row was received were there before. -/
theorem mem_waiting_received {stack : List (DatabaseWriterTask (MessageRow T))}
    {notify : Option TaskNotification} {coming : List ℕ} {y : ℕ}
    {front : DatabaseWriterTask (MessageRow T)}
    (hy : y ∈ waiting p (front.addData row notify :: stack) coming) :
    y ∈ waiting p (front :: stack) (offs p [row] ++ coming) := by
  simp only [waiting, List.flatMap_cons, offs_addData, List.mem_append] at hy ⊢
  tauto

theorem sent_recv {ch : Channel (WriterMsg (MessageRow T)) channelLimit}
    {queue : List (WriterMsg (MessageRow T))} {notify : Option TaskNotification}
    (hq : w.ctrlChn.queue = .data row notify :: queue) (hch : ch.queue = queue) :
    w.sent = (row, notify) :: ({ w with ctrlChn := ch } : DatabaseWriter (MessageRow T)).sent := by
  simp only [DatabaseWriter.sent, hq, hch, List.filterMap_cons]

theorem coming_recv {ch : Channel (WriterMsg (MessageRow T)) channelLimit}
    {queue : List (WriterMsg (MessageRow T))} {notify : Option TaskNotification}
    (hq : w.ctrlChn.queue = .data row notify :: queue) (hch : ch.queue = queue) :
    offs p (w.comingRows next) =
      offs p [row] ++
        offs p (({ w with ctrlChn := ch } : DatabaseWriter (MessageRow T)).comingRows next) := by
  rw [← offs_append, DatabaseWriter.comingRows, sent_recv hq hch]
  rfl

theorem waiting_recv {ch : Channel (WriterMsg (MessageRow T)) channelLimit}
    {queue : List (WriterMsg (MessageRow T))}
    {notify : Option TaskNotification} (hq : w.ctrlChn.queue = .data row notify :: queue)
    (hch : ch.queue = queue) {y : ℕ}
    (hy : y ∈ waiting p (({ w with ctrlChn := ch } : DatabaseWriter (MessageRow T)).onMsg
      (.data row notify)).nextTaskStack
      (offs p (({ w with ctrlChn := ch } : DatabaseWriter (MessageRow T)).comingRows next))) :
    y ∈ waiting p w.nextTaskStack (offs p (w.comingRows next)) := by
  rw [coming_recv hq hch]
  rcases onMsg_data_cases ({ w with ctrlChn := ch } : DatabaseWriter (MessageRow T)) row notify with
    ⟨front, rest, hstack, -, hnew⟩ | ⟨-, hnew⟩
  · have hstack : w.nextTaskStack = front :: rest := hstack
    rw [hnew] at hy
    rw [hstack]
    exact mem_waiting_received hy
  · rw [hnew] at hy
    -- a new task has no offset yet
    have hempty : ∀ coming, waiting p (DatabaseWriterTask.new :: w.nextTaskStack) coming =
        waiting p w.nextTaskStack coming :=
      fun _ => rfl
    rw [← hempty]
    exact mem_waiting_received hy

/-- A row is received. -/
theorem Filed.recvData (h : Filed p w next g) {ch : Channel (WriterMsg (MessageRow T)) channelLimit}
    {queue : List (WriterMsg (MessageRow T))} {notify : Option TaskNotification}
    (hq : w.ctrlChn.queue = .data row notify :: queue) (hch : ch.queue = queue)
    (hopen : ∀ front ∈ w.nextTaskStack.head?, front.isLimited = true →
      ∀ x ∈ offs p front.data, ∀ y ∈ offs p (w.comingRows next), x ≠ y) :
    Filed p (({ w with ctrlChn := ch } : DatabaseWriter (MessageRow T)).onMsg (.data row notify))
      next g := by
  have hsent := sent_recv hq hch
  have hnotify : notify = some ⟨row.partition, row.offset⟩ :=
    h.notified (row, notify) (by rw [hsent]; simp)
  have hcoming : offs p (w.comingRows next) =
      offs p [row] ++
        offs p (({ w with ctrlChn := ch } : DatabaseWriter (MessageRow T)).comingRows next) :=
    coming_recv hq hch
  have hlive : (({ w with ctrlChn := ch } : DatabaseWriter (MessageRow T)).onMsg
    (.data row notify)).live = w.live := by
    simp only [DatabaseWriter.live, DatabaseWriter.onMsg, hq, hch, List.filterMap_cons,
      WriterMsg.live]
  have hinOrder := h.inOrder
  rw [hcoming] at hinOrder hopen
  have hflags :
      (({ w with ctrlChn := ch } : DatabaseWriter (MessageRow T)).onMsg
      (.data row notify)).liveFlags p = w.liveFlags p := by
    unfold DatabaseWriter.liveFlags
    rw [hlive]
  -- the row joins the newest task, or opens one
  rcases onMsg_data_cases ({ w with ctrlChn := ch } : DatabaseWriter (MessageRow T)) row notify with
    ⟨front, rest, hstack, -, hnew⟩ | ⟨hfull, hnew⟩
  · have hstack : w.nextTaskStack = front :: rest := hstack
    rw [hstack] at hinOrder
    refine ⟨h.traced, h.stack, by rw [hflags]; exact h.atWork, by rw [hlive]; exact h.rows, ?_, ?_,
      ?_, ?_⟩
    · intro task htask
      rw [hnew] at htask
      rcases List.mem_cons.1 htask with rfl | htask
      · rw [hnotify]
        exact (h.flagged front (by rw [hstack]; simp)).addData row
      · exact h.flagged task (by rw [hstack]; simp [htask])
    · rw [hnew]
      exact hinOrder.join
    · exact fun u hu y hy => h.pushed u hu y (waiting_recv hq hch hy)
    · intro e he
      exact h.notified e (by rw [hsent]; exact List.mem_cons_of_mem _ he)
  · have hnew' : (({ w with ctrlChn := ch } : DatabaseWriter (MessageRow T)).onMsg
      (.data row notify)).nextTaskStack =
        DatabaseWriterTask.new.addData row notify :: w.nextTaskStack := hnew
    refine ⟨h.traced, h.stack, by rw [hflags]; exact h.atWork, by rw [hlive]; exact h.rows, ?_, ?_,
      ?_, ?_⟩
    · intro task htask
      rw [hnew'] at htask
      rcases List.mem_cons.1 htask with rfl | htask
      · rw [hnotify]
        exact Flagged.new.addData row
      · exact h.flagged task htask
    · rw [hnew']
      exact hinOrder.open fun front hfront => hopen front hfront (hfull front hfront)
    · exact fun u hu y hy => h.pushed u hu y (waiting_recv hq hch hy)
    · intro e he
      exact h.notified e (by rw [hsent]; exact List.mem_cons_of_mem _ he)

theorem flags_cons (flag : Option TaskNotifyFlag) (rows : List U) (others : Multiset (LiveTask U)) :
    ((flag, rows) ::ₘ others).filterMap (fun task => flagAt p task.1) =
      ((flagAt p flag).toList : Multiset ℕ) + others.filterMap fun task => flagAt p task.1 := by
  cases hflag : flagAt p flag with
  | none =>
    rw [Multiset.filterMap_cons_none (f := fun task : LiveTask U => flagAt p task.1) _ _ hflag]
    simp
  | some v =>
    rw [Multiset.filterMap_cons_some (fun task : LiveTask U => flagAt p task.1) _ _ hflag]
    simp

theorem spawned_at : (w.spawned task rest).notifyTracing.at p =
    (flagAt p task.notifyFlag).elim (w.notifyTracing.at p) fun n =>
      (w.notifyTracing.at p).pushTop n := by
  unfold DatabaseWriter.spawned flagAt
  cases task.notifyFlag with
  | none => rfl
  | some notifies => exact updateFrom_at _ _ _

/-- **The oldest task is spawned.** -/
theorem Filed.spawn (h : Filed p w next g) (hstack : w.nextTaskStack = rest ++ [task])
    (hne : ∀ x ∈ offs p task.data, ∀ y ∈ offs p (w.comingRows next), x ≠ y) :
    ∃ g', Filed p (w.spawned task rest) next g' ∧ g'.reports = g.reports ∧
      ∀ u, u ∈ g'.pushed ∨ u ∈ waiting p rest (offs p (w.comingRows next)) →
        u ∈ g.pushed ∨ u ∈ waiting p w.nextTaskStack (offs p (w.comingRows next)) := by
  have hinOrder := h.inOrder
  rw [hstack] at hinOrder
  obtain ⟨hrest, hbelow⟩ := hinOrder.spawn hne
  have hflagged := h.flagged task (by rw [hstack]; simp)
  have hwaiting : ∀ y ∈ waiting p rest (offs p (w.comingRows next)),
      y ∈ waiting p w.nextTaskStack (offs p (w.comingRows next)) := by
    intro y hy
    rw [hstack]
    simp only [waiting, List.flatMap_append, List.mem_append] at hy ⊢
    tauto
  have hmem : ∀ x ∈ offs p task.data,
      x ∈ waiting p w.nextTaskStack (offs p (w.comingRows next)) := by
    intro x hx
    rw [hstack]
    simp only [waiting, List.flatMap_append, List.flatMap_cons, List.mem_append]
    tauto
  cases hflag : flagAt p task.notifyFlag with
  | none =>
    -- a task without an offset of the partition has no row of it
    have hempty := hflagged.empty hflag
    refine ⟨g, ⟨h.traced, ?_, ?_, ?_, ?_, hrest, ?_, h.notified⟩, rfl,
      fun u hu => hu.imp_right (hwaiting u)⟩
    · rw [spawned_at, hflag]
      exact h.stack
    · rw [← h.atWork, DatabaseWriter.liveFlags, live_spawned, flags_cons, hflag]
      simp [DatabaseWriter.liveFlags]
    · intro t ht x hx
      rw [live_spawned, Multiset.mem_cons] at ht
      rcases ht with rfl | ht
      · rw [hempty] at hx
        cases hx
      · exact h.rows t ht x hx
    · intro t ht
      exact h.flagged t (by rw [hstack]; exact List.mem_append_left _ ht)
    · intro u hu y hy
      exact h.pushed u hu y (hwaiting y hy)
  | some v =>
    obtain ⟨hv, hgreatest⟩ := hflagged.greatest v hflag
    -- its offset is above all that were pushed
    have hturn : g.InTurn (.pushTop v) := fun u hu => h.pushed u hu v (hmem v hv)
    have hstep : g.step (.pushTop v) =
        some { g with stack := g.stack.pushTop v, pushed := g.pushed ++ [v] } := rfl
    refine ⟨_, ⟨h.traced.pushTop hturn hstep, ?_, ?_, ?_, ?_, hrest, ?_, h.notified⟩, rfl,
      fun u hu => ?_⟩
    · rw [spawned_at, hflag]
      exact congrArg (fun stack => ProgTracingStack.pushTop stack v) h.stack
    · show (w.spawned task rest).liveFlags p + (g.popped : Multiset ℕ) =
        ((g.pushed ++ [v] : List ℕ) : Multiset ℕ)
      rw [DatabaseWriter.liveFlags, live_spawned, flags_cons, hflag, ← Multiset.coe_add, ← h.atWork,
        DatabaseWriter.liveFlags, Option.toList_some]
      abel
    · intro t ht x hx
      rw [live_spawned, Multiset.mem_cons] at ht
      rcases ht with rfl | ht
      · refine ⟨v, hflag, fun u hu hlt => ?_⟩
        rcases List.mem_append.1 hu with hu | hu
        · exact h.pushed u hu x (hmem x hx)
        · rw [List.mem_singleton.1 hu] at hlt
          exact absurd hlt (lt_irrefl v)
      · obtain ⟨v', hv', hbefore⟩ := h.rows t ht x hx
        refine ⟨v', hv', fun u hu hlt => ?_⟩
        rcases List.mem_append.1 hu with hu | hu
        · exact hbefore u hu hlt
        · -- the task was spawned before, so its offset is below the new one
          have hwork : v' ∈ w.liveFlags p := (Multiset.mem_filterMap _ _).2 ⟨t, ht, hv'⟩
          have := hturn v' (h.atWork_mem hwork).1
          rw [List.mem_singleton.1 hu] at hlt
          omega
    · intro t ht
      exact h.flagged t (by rw [hstack]; exact List.mem_append_left _ ht)
    · intro u hu y hy
      rcases List.mem_append.1 hu with hu | hu
      · exact h.pushed u hu y (hwaiting y hy)
      · rw [List.mem_singleton.1 hu]
        exact hbelow v hv y hy
    · rcases hu with hu | hu
      · rcases List.mem_append.1 hu with hu | hu
        · exact .inl hu
        · rw [List.mem_singleton.1 hu]
          exact .inr (hmem v hv)
      · exact .inr (hwaiting u hu)

/-- What the writer announces for the partition was reported last. -/
def Announces (p : ℤ) (w : DatabaseWriter U) (g : Progress) : Prop :=
  ∀ v, w.completeNotify.value.find? p = some v → g.reports.getLast? = some v

theorem onMsg_done_none {w : DatabaseWriter U} {ctx : DatabaseWriterTask U}
    (h : ctx.notifyFlag = none) :
    w.onMsg (.done ctx) =
      { w with
        statusTracing :=
          { w.statusTracing with spawningTasks := w.statusTracing.spawningTasks - 1 } } := by
  simp only [DatabaseWriter.onMsg, h]

theorem onMsg_done_some {w : DatabaseWriter U} {ctx : DatabaseWriterTask U}
    {notifies : TaskNotifyFlag} (h : ctx.notifyFlag = some notifies) : w.onMsg (.done ctx) =
      { w with
        statusTracing := { w.statusTracing with spawningTasks := w.statusTracing.spawningTasks - 1 }
        notifyTracing := (w.notifyTracing.finishFrom notifies).2
        completeNotify :=
          ⟨(w.notifyTracing.finishFrom notifies).1, w.completeNotify.version + 1⟩ } := by
  simp only [DatabaseWriter.onMsg, h]

/-- A task that is done leaves the tasks and the rows as they are. -/
theorem onMsg_done_kept (w : DatabaseWriter U) (ctx : DatabaseWriterTask U) :
    (w.onMsg (.done ctx)).live = w.live ∧ (w.onMsg (.done ctx)).sent = w.sent ∧
      (w.onMsg (.done ctx)).nextTaskStack = w.nextTaskStack := by
  cases hctx : ctx.notifyFlag with
  | none =>
    rw [onMsg_done_none hctx]
    exact ⟨rfl, rfl, rfl⟩
  | some notifies =>
    rw [onMsg_done_some hctx]
    exact ⟨rfl, rfl, rfl⟩

/-- **A task that is done is received.** -/
theorem Filed.recvDone (h : Filed p w next g) (hann : Announces p w g)
    {ctx : DatabaseWriterTask (MessageRow T)} {ch : Channel (WriterMsg (MessageRow T)) channelLimit}
    {queue : List (WriterMsg (MessageRow T))} (hq : w.ctrlChn.queue = .done ctx :: queue)
    (hch : ch.queue = queue) :
    ∃ g', Filed p (({ w with ctrlChn := ch } : DatabaseWriter (MessageRow T)).onMsg (.done ctx))
      next g' ∧
      Announces p (({ w with ctrlChn := ch } : DatabaseWriter (MessageRow T)).onMsg (.done ctx))
        g' ∧
      g.reports <+: g'.reports ∧ g'.pushed = g.pushed := by
  have hlive := live_recv_done ch hq hch
  have hsent : ({ w with ctrlChn := ch } : DatabaseWriter (MessageRow T)).sent = w.sent := by
    simp only [DatabaseWriter.sent, hq, hch, List.filterMap_cons]
  set w₁ : DatabaseWriter (MessageRow T) := { w with ctrlChn := ch } with hw₁
  have hstack : w₁.nextTaskStack = w.nextTaskStack := rfl
  obtain ⟨hlive₁, hsent₁, hstack₁⟩ := onMsg_done_kept w₁ ctx
  rw [hsent] at hsent₁
  rw [hstack] at hstack₁
  have hcoming : (w₁.onMsg (.done ctx)).comingRows next = w.comingRows next := by
    rw [DatabaseWriter.comingRows, hsent₁]
    rfl
  have hrows : ∀ task ∈ (w₁.onMsg (.done ctx)).live, task ∈ w.live := by
    intro task htask
    rw [hlive₁] at htask
    rw [hlive]
    exact Multiset.mem_cons_of_mem htask
  -- the task that is done has no row left
  have hdone : (ctx.notifyFlag, []) ∈ w.live := by
    rw [hlive]
    exact Multiset.mem_cons_self _ _
  cases hflag : flagAt p ctx.notifyFlag with
  | none =>
    -- nothing of the partition is finished
    have hat : (w₁.onMsg (.done ctx)).notifyTracing.at p = w.notifyTracing.at p ∧
        ((w₁.onMsg (.done ctx)).completeNotify = w.completeNotify ∨
          (w₁.onMsg (.done ctx)).completeNotify.value.find? p = none) := by
      unfold flagAt at hflag
      cases hctx : ctx.notifyFlag with
      | none =>
        rw [onMsg_done_none hctx]
        exact ⟨rfl, .inl rfl⟩
      | some notifies =>
        rw [hctx, Option.bind_some] at hflag
        obtain ⟨hret, htracing⟩ := finishFrom_at w.notifyTracing notifies p
        rw [hflag] at hret htracing
        rw [onMsg_done_some hctx]
        exact ⟨htracing, .inr hret⟩
    refine ⟨g, ⟨h.traced, by rw [hat.1]; exact h.stack, ?_,
      fun task htask => h.rows task (hrows task htask),
      by rw [hstack₁]; exact h.flagged, by rw [hstack₁, hcoming]; exact h.inOrder, by
        rw [hstack₁, hcoming]; exact h.pushed,
      by rw [hsent₁]; exact h.notified⟩, ?_, List.prefix_rfl, rfl⟩
    · rw [← h.atWork, DatabaseWriter.liveFlags, hlive₁, DatabaseWriter.liveFlags, hlive, flags_cons,
        hflag]
      simp
    · intro v hv
      rcases hat.2 with heq | hnone
      · exact hann v (heq ▸ hv)
      · rw [hnone] at hv
        cases hv
  | some n =>
    -- its offset is popped, and what that sets free is told
    have hwork : n ∈ w.liveFlags p := (Multiset.mem_filterMap _ _).2 ⟨_, hdone, hflag⟩
    have hturn : g.InTurn (.popTop n) := h.atWork_mem hwork
    have hstep : g.step (.popTop n) =
        some { g with
          stack := (g.stack.popTop n).2
          popped := g.popped ++ [n]
          reports := g.reports ++ (g.stack.popTop n).1.toList } := rfl
    have hat : (w₁.onMsg (.done ctx)).notifyTracing.at p = (g.stack.popTop n).2 ∧
        (w₁.onMsg (.done ctx)).completeNotify.value.find? p = (g.stack.popTop n).1 := by
      unfold flagAt at hflag
      cases hctx : ctx.notifyFlag with
      | none =>
        rw [hctx] at hflag
        cases hflag
      | some notifies =>
        rw [hctx, Option.bind_some] at hflag
        obtain ⟨hret, htracing⟩ := finishFrom_at w.notifyTracing notifies p
        rw [hflag, h.stack] at hret htracing
        rw [onMsg_done_some hctx]
        exact ⟨htracing, hret⟩
    refine ⟨_, ⟨h.traced.popTop hturn hstep, hat.1, ?_,
      fun task htask => h.rows task (hrows task htask),
      by rw [hstack₁]; exact h.flagged, by rw [hstack₁, hcoming]; exact h.inOrder, by
        rw [hstack₁, hcoming]; exact h.pushed,
      by rw [hsent₁]; exact h.notified⟩, ?_, List.prefix_append _ _, rfl⟩
    · show (w₁.onMsg (.done ctx)).liveFlags p + ((g.popped ++ [n] : List ℕ) : Multiset ℕ) =
        (g.pushed : Multiset ℕ)
      rw [← h.atWork, DatabaseWriter.liveFlags, hlive₁, DatabaseWriter.liveFlags, hlive, flags_cons,
        hflag,
        ← Multiset.coe_add, Option.toList_some]
      abel
    · intro v hv
      rw [hat.2] at hv
      show (g.reports ++ (g.stack.popTop n).1.toList).getLast? = some v
      rw [hv]
      simp

/-- A task at work that has inserted rows, or failed. -/
theorem Filed.replace (h : Filed p w next g) {pre post : List (MiniTask (MessageRow T))}
    {old new : MiniTask (MessageRow T)} {flag : Option TaskNotifyFlag}
    {rows rows' : List (MessageRow T)} (hmini : w.miniTasks = pre ++ old :: post)
    (hold : old.live = some (flag, rows)) (hnew : new.live = some (flag, rows'))
    (hsub : rows' ⊆ rows) : Filed p { w with miniTasks := pre ++ new :: post } next g := by
  obtain ⟨others, hlive, hlive'⟩ := live_replace hmini hold hnew
  refine h.relive rfl rfl rfl (fun e he => .inl he) ?_ ?_
  · rw [DatabaseWriter.liveFlags, hlive', DatabaseWriter.liveFlags, hlive, flags_cons, flags_cons]
  · intro task htask
    rw [hlive', Multiset.mem_cons] at htask
    rw [hlive]
    rcases htask with rfl | htask
    · exact ⟨(flag, rows), Multiset.mem_cons_self _ _, rfl, hsub⟩
    · exact ⟨task, Multiset.mem_cons_of_mem htask, rfl, List.Subset.refl _⟩

end Filed

/-! ## The steps of a writer -/

section Step

variable {config : DatabaseWriterConfig} {W W' : Writing (MessageRow T)}
  {a : WriterAction (MessageRow T)} {next : List (MessageRow T)} {g : Progress} {row : MessageRow T}

/-- A step that moves tasks about. -/
theorem Filed.keep {w w' : DatabaseWriter (MessageRow T)} (h : Filed p w next g)
    (hann : Announces p w g) (htracing : w'.notifyTracing = w.notifyTracing)
    (hstack : w'.nextTaskStack = w.nextTaskStack) (hsent : w'.sent = w.sent)
    (hlive : w'.live = w.live) (hnotify : w'.completeNotify = w.completeNotify) :
    ∃ g', Filed p w' next g' ∧ Announces p w' g' ∧ g.reports <+: g'.reports ∧
      ∀ u, u ∈ g'.pushed ∨ u ∈ waiting p w'.nextTaskStack (offs p (w'.comingRows next)) →
        u ∈ g.pushed ∨ u ∈ waiting p w.nextTaskStack (offs p (w.comingRows next)) := by
  have hcoming : w'.comingRows next = w.comingRows next := by
    rw [DatabaseWriter.comingRows, hsent, DatabaseWriter.comingRows]
  refine ⟨g, h.same htracing hstack hcoming (fun e he => .inl (hsent ▸ he)) hlive, ?_,
    List.prefix_rfl, ?_⟩
  · intro v hv
    rw [hnotify] at hv
    exact hann v hv
  · intro u hu
    rwa [hstack, hcoming] at hu

/-- The task has no row of a message that is still coming. -/
def Apart (p : ℤ) (task : DatabaseWriterTask (MessageRow T))
    (coming : List (MessageRow T)) : Prop :=
  ∀ x ∈ offs p task.data, ∀ y ∈ offs p coming, x ≠ y

/-- **A step of a writer keeps its rows on file**, if the task that it closes is apart from what is
coming. -/
theorem WStep.filed (h : WStep config W a W') (hok : Writing.OK config W)
    (hfiled : Filed p W.writer next g)
    (hann : Announces p W.writer g) (hleft : W.writer.left = false) (happend : ∀ item notify,
      a ≠ .append item notify)
    (hspawn : a = .acquire → W.writer.errorTaskStack = [] →
      ∀ task ∈ W.writer.nextTaskStack.getLast?,
      Apart p task (W.writer.comingRows next))
    (hopen : a = .recv → ∀ item notify queue, W.writer.ctrlChn.queue = .data item notify :: queue →
      ∀ front ∈ W.writer.nextTaskStack.head?, front.isLimited = true →
        Apart p front (W.writer.comingRows next)) :
    ∃ g', Filed p W'.writer next g' ∧ Announces p W'.writer g' ∧ g.reports <+: g'.reports ∧
      ∀ u, u ∈ g'.pushed ∨
        u ∈ waiting p W'.writer.nextTaskStack (offs p (W'.writer.comingRows next)) →
        u ∈ g.pushed ∨
          u ∈ waiting p W.writer.nextTaskStack (offs p (W.writer.comingRows next)) := by
  cases h with
  | accept => exact absurd rfl (happend _ _)
  | refuse => exact absurd rfl (happend _ _)
  | @finish ch _ _ hq =>
    have hsent : ({ W.writer with ctrlChn := ch } : DatabaseWriter (MessageRow T)).sent =
      W.writer.sent := by
      simp only [DatabaseWriter.sent, hq, List.filterMap_append, List.filterMap_cons,
        List.filterMap_nil, List.append_nil]
    exact hfiled.keep hann rfl rfl hsent (live_append_exit ch hq) rfl
  | retry _ herr => exact hfiled.keep hann rfl rfl rfl (live_retry herr) rfl
  | spawn _ herr hstack _ =>
    obtain ⟨g', hfiled', hreports, hknown⟩ :=
      hfiled.spawn hstack (hspawn rfl herr _ (by rw [hstack]; simp))
    refine ⟨g', hfiled', ?_, hreports ▸ List.prefix_rfl, hknown⟩
    intro v hv
    rw [hreports]
    exact hann v hv
  | @recv msg queue ch _ hq hch =>
    have hsent : (∀ item notify, msg ≠ .data item notify) →
        ({ W.writer with ctrlChn := ch } : DatabaseWriter (MessageRow T)).sent = W.writer.sent := by
      intro hno
      cases msg with
      | data item notify => exact absurd rfl (hno item notify)
      | _ => simp only [DatabaseWriter.sent, hq, hch, List.filterMap_cons]
    cases msg with
    | data item notify =>
      exact ⟨g, hfiled.recvData hq hch (hopen rfl _ _ _ hq), hann, List.prefix_rfl,
        fun u hu => hu.imp_right (waiting_recv hq hch)⟩
    | done ctx =>
      obtain ⟨g', hfiled', hann', hreports, hpushed⟩ := hfiled.recvDone hann hq hch
      obtain ⟨-, hsent', hstack'⟩ :=
        onMsg_done_kept ({ W.writer with ctrlChn := ch } : DatabaseWriter (MessageRow T)) ctx
      refine ⟨g', hfiled', hann', hreports, fun u hu => ?_⟩
      dsimp only at hu
      rw [hpushed, DatabaseWriter.comingRows, hsent', hsent (by simp), hstack'] at hu
      exact hu
    | fail ctx => exact hfiled.keep hann rfl rfl (hsent (by simp)) (live_recv_fail ch hq hch) rfl
    | exit grace =>
      refine hfiled.keep hann rfl rfl (hsent (by simp)) ?_ rfl
      simp only [DatabaseWriter.live, DatabaseWriter.onMsg, hq, hch, List.filterMap_cons,
        WriterMsg.live]
  | leave => exact hfiled.keep hann rfl rfl rfl rfl rfl
  | @insert i pre post task rest hmini =>
    exact ⟨g, hfiled.replace hmini rfl (live_inserted task rest) (List.drop_subset _ _), hann,
      List.prefix_rfl, fun _ hu => hu⟩
  | @fail i pre post task rest hmini =>
    exact ⟨g, hfiled.replace hmini rfl rfl (List.Subset.refl _), hann, List.prefix_rfl, fun _ hu => hu⟩
  | @report i pre post msg ch _ hmini hq =>
    have hreport := hok.reports msg (by rw [hmini]; simp)
    have hsent : ({ W.writer with ctrlChn := ch, miniTasks := pre ++ post } :
        DatabaseWriter (MessageRow T)).sent = W.writer.sent := by
      cases msg with
      | data item notify => cases hreport
      | _ => simp only [DatabaseWriter.sent, hq, List.filterMap_append, List.filterMap_cons,
          List.filterMap_nil, List.append_nil]
    exact hfiled.keep hann rfl rfl hsent (live_report ch hmini hq) rfl
  | lost hgone => exact absurd (hleft.symm.trans hgone) (by simp)

theorem mem_sum_map {α β : Type} {f : α → Multiset β} {l : List α} {b : β} :
    b ∈ (l.map f).sum ↔ ∃ a ∈ l, b ∈ f a := by
  induction l with
  | nil => simp
  | cons a l ih => simp [ih]

/-- **An accepted row is inserted or held.** -/
theorem Writing.OK.holds (hok : Writing.OK config W) (hrow : row ∈ W.accepted) :
    row ∈ W.inserted ∨ W.writer.Holds next row := by
  have hmem : row ∈ (W.inserted : Multiset (MessageRow T)) +
      (W.writer.inTasks + W.writer.inChannel) := by
    rw [← hok.rows]
    exact hrow
  simp only [Multiset.mem_add, Multiset.mem_coe, DatabaseWriter.inTasks, DatabaseWriter.inChannel,
    mem_sum_map] at hmem
  rcases hmem with hinserted |
    ((⟨task, htask, hdata⟩ | ⟨task, htask, hdata⟩) | ⟨mini, hmini, hdata⟩) | ⟨msg, hmsg, hdata⟩
  · exact .inl hinserted
  · exact .inr (.inr (.inl ⟨task, htask, hdata⟩))
  · refine .inr (.inl ⟨(task.notifyFlag, task.data), ?_, hdata⟩)
    simp only [DatabaseWriter.live, Multiset.mem_add, Multiset.mem_coe, List.mem_map]
    exact .inr ⟨task, htask, rfl⟩
  · have hlive : ∀ flag rows, mini.live = some (flag, rows) → (flag, rows) ∈ W.writer.live := by
      intro flag rows heq
      simp only [DatabaseWriter.live, Multiset.mem_add, Multiset.mem_coe, List.mem_filterMap]
      exact .inl (.inl ⟨mini, hmini, heq⟩)
    cases mini with
    | inserting task rest => exact .inr (.inl ⟨_, hlive _ _ rfl, hdata⟩)
    | sending msg =>
      cases msg with
      | data item notify => cases hok.reports _ hmini
      | done task => cases hdata
      | fail task => exact .inr (.inl ⟨_, hlive _ _ rfl, hdata⟩)
      | exit grace => cases hdata
  · cases msg with
    | data item notify =>
      obtain rfl := Multiset.mem_singleton.1 hdata
      refine .inr (.inr (.inr (List.mem_append_left _ (List.mem_map.2 ⟨(row, notify), ?_, rfl⟩))))
      exact List.mem_filterMap.2 ⟨_, hmsg, rfl⟩
    | done task => cases hdata
    | fail task =>
      refine .inr (.inl ⟨(task.notifyFlag, task.data), ?_, hdata⟩)
      simp only [DatabaseWriter.live, Multiset.mem_add, Multiset.mem_coe, List.mem_filterMap]
      exact .inl (.inr ⟨_, hmsg, rfl⟩)
    | exit grace => cases hdata

/-- Rows stay accepted and inserted. -/
theorem WStep.grows (h : WStep config W a W') :
    W.accepted ⊆ W'.accepted ∧ W.inserted ⊆ W'.inserted := by
  cases h with
  | accept => exact ⟨List.subset_append_left _ _, List.Subset.refl _⟩
  | insert => exact ⟨List.Subset.refl _, List.subset_append_left _ _⟩
  | _ => exact ⟨List.Subset.refl _, List.Subset.refl _⟩

/-- A writer that has left its loop announces nothing more. -/
theorem WStep.leftKept (h : WStep config W a W') (hleft : W.writer.left = true) :
    W'.writer.left = true ∧ W'.writer.completeNotify = W.writer.completeNotify := by
  cases h with
  | refuse => exact ⟨hleft, rfl⟩
  | insert => exact ⟨hleft, rfl⟩
  | fail => exact ⟨hleft, rfl⟩
  | lost => exact ⟨hleft, rfl⟩
  | accept hrunning => exact absurd (hleft.symm.trans hrunning) (by simp)
  | finish hrunning => exact absurd (hleft.symm.trans hrunning) (by simp)
  | retry hrunning => exact absurd (hleft.symm.trans hrunning) (by simp)
  | spawn hrunning => exact absurd (hleft.symm.trans hrunning) (by simp)
  | recv hrunning => exact absurd (hleft.symm.trans hrunning) (by simp)
  | leave hrunning => exact absurd (hleft.symm.trans hrunning) (by simp)
  | report hrunning => exact absurd (hleft.symm.trans hrunning) (by simp)

/-- **A message is delivered**: its rows come last. -/
theorem Filed.deliver {w : DatabaseWriter (MessageRow T)} {next' : List (MessageRow T)} {n : ℕ}
    (h : Filed p w [] g)
    (hnext : ∀ y ∈ offs p next', y = n ∧ ∀ x, x ∈ g.pushed ∨
      x ∈ waiting p w.nextTaskStack (offs p (w.comingRows [])) → x < n) :
    Filed p w next' g := by
  have hcoming : offs p (w.comingRows next') = offs p (w.comingRows []) ++ offs p next' := by
    rw [DatabaseWriter.comingRows, DatabaseWriter.comingRows, List.append_nil, offs_append]
  refine ⟨h.traced, h.stack, h.atWork, h.rows, h.flagged, ?_, ?_, h.notified⟩
  · rw [hcoming]
    cases hoffs : offs p next' with
    | nil =>
      rw [List.append_nil]
      exact h.inOrder
    | cons y rest =>
      have hn := (hnext y (by rw [hoffs]; simp)).2
      rw [← hoffs]
      exact h.inOrder.deliver (fun x hx => hn x (.inr hx)) fun y hy => (hnext y hy).1
  · intro u hu y hy
    rw [hcoming] at hy
    rcases List.mem_append.1 hy with hy | hy
    · exact h.pushed u hu y (List.mem_append_left _ hy)
    · rcases List.mem_append.1 hy with hy | hy
      · exact h.pushed u hu y (List.mem_append_right _ hy)
      · obtain ⟨rfl, hn⟩ := hnext y hy
        exact hn u (.inl hu)

end Step

end Dingir
