import Dingir.Spec.LogSender
import Dingir.Spec.Sample
import Dingir.Proof.Writer

/-!
# When the stored operation log is a prefix of the log issued

The rows of a writer are inserted in the order they were accepted as long as tasks are
spawned one at a time (`WStep.inSequence`); a task that fails keeps its turn. If besides
every row finds room in the channel, the table `operation_log` holds a prefix of what was
issued, at every instant (`Logging.Runs.stored_prefix`).

The sender spawns up to four tasks side by side and drops a row that finds no room, so a
row may be stored before an earlier one (`not_stored_prefix`).
-/

namespace Dingir

open Keyed

variable {U : Type} {config : DatabaseWriterConfig} {s s' : Writing U} {w : DatabaseWriter U}

/-! ## Tasks one at a time -/

/-- The rows of a report that are to be inserted yet. -/
def WriterMsg.resident : WriterMsg U → List U
  | .fail task => task.data
  | _ => []

def WriterMsg.items : WriterMsg U → List U
  | .data item _ => [item]
  | _ => []

def MiniTask.resident : MiniTask U → List U
  | .inserting _ rest => rest
  | .sending msg => msg.resident

/-- The rows of the tasks spawned. -/
def DatabaseWriter.flight (w : DatabaseWriter U) : List U :=
  w.errorTaskStack.flatMap DatabaseWriterTask.data ++ w.miniTasks.flatMap MiniTask.resident ++
    w.ctrlChn.queue.flatMap WriterMsg.resident

/-- The rows that wait, the oldest first. -/
def DatabaseWriter.waiting (w : DatabaseWriter U) : List U :=
  w.nextTaskStack.reverse.flatMap DatabaseWriterTask.data ++ w.ctrlChn.queue.flatMap WriterMsg.items

/-- An append finds room, and a new task is spawned only when no other one is counted. -/
def Writing.OneByOne (s : Writing U) : WriterAction U → Prop
  | .append item notify => (s.writer.appendWithNotify item notify).isOk = true
  | .acquire => s.writer.errorTaskStack.isEmpty = true → s.writer.statusTracing.spawningTasks = 0
  | _ => True

instance (s : Writing U) (a : WriterAction U) : Decidable (s.OneByOne a) :=
  match a with
  | .append item notify =>
    inferInstanceAs (Decidable ((s.writer.appendWithNotify item notify).isOk = true))
  | .acquire =>
    inferInstanceAs (Decidable (s.writer.errorTaskStack.isEmpty = true →
      s.writer.statusTracing.spawningTasks = 0))
  | .finish => .isTrue trivial
  | .recv => .isTrue trivial
  | .yieldNow => .isTrue trivial
  | .statement _ _ => .isTrue trivial
  | .report _ => .isTrue trivial

/-- **The rows are inserted in the order they were accepted.** -/
structure Writing.InSequence (s : Writing U) : Prop where
  one : s.writer.statusTracing.spawningTasks ≤ 1
  order : s.accepted = s.inserted ++ (s.writer.flight ++ s.writer.waiting)

/-- Without a report in the channel there is nothing of a task in it. -/
theorem resident_eq_nil {queue : List (WriterMsg U)} (h : queue.countP WriterMsg.isReport = 0) :
    queue.flatMap WriterMsg.resident = [] := by
  refine List.flatMap_eq_nil_iff.2 fun msg hmsg => ?_
  have hno := List.countP_eq_zero.1 h msg hmsg
  cases msg with
  | fail task => simp [WriterMsg.isReport] at hno
  | _ => rfl

theorem resident_execute (task : DatabaseWriterTask U) :
    (MiniTask.execute task).resident = task.data := by
  unfold MiniTask.execute
  split
  · rename_i hempty
    rw [List.isEmpty_iff.1 hempty]
    rfl
  · rfl

theorem resident_inserted (task : DatabaseWriterTask U) (rest : List U) :
    (MiniTask.inserted task rest).resident = rest.drop (statementLength rest) := by
  unfold MiniTask.inserted
  split
  · rename_i hempty
    rw [List.isEmpty_iff.1 hempty]
    rfl
  · rfl

/-- The newest task that waits takes the row received. -/
theorem waiting_data (w : DatabaseWriter U) (item : U) (notify : Option TaskNotification) :
    (w.onMsg (.data item notify)).nextTaskStack.reverse.flatMap DatabaseWriterTask.data =
      w.nextTaskStack.reverse.flatMap DatabaseWriterTask.data ++ [item] := by
  have hadd : ∀ task : DatabaseWriterTask U,
      (task.addData item notify).data = task.data ++ [item] := fun _ => rfl
  unfold DatabaseWriter.onMsg
  cases hnext : w.nextTaskStack with
  | nil =>
    simp only [List.reverse_cons, List.reverse_nil, List.nil_append, List.flatMap_cons,
      List.flatMap_nil, List.append_nil,
      hadd]
    rfl
  | cons front rest =>
    simp only
    by_cases hlimited : front.isLimited = true
    · simp only [if_pos hlimited, List.reverse_cons, List.flatMap_append, List.flatMap_cons,
        List.flatMap_nil,
        List.append_nil, hadd]
      rfl
    · simp only [if_neg hlimited, List.reverse_cons, List.flatMap_append, List.flatMap_cons,
        List.flatMap_nil,
        List.append_nil, hadd, List.append_assoc]

/-- The one task that runs. -/
theorem alone_running (hs : s.OK config) (hone : s.writer.statusTracing.spawningTasks ≤ 1)
    {pre post : List (MiniTask U)} {t : MiniTask U} (h : s.writer.miniTasks = pre ++ t :: post) :
    pre = [] ∧ post = [] ∧ s.writer.errorTaskStack = [] ∧
    s.writer.ctrlChn.queue.flatMap WriterMsg.resident = [] := by
  have hspawning := hs.spawning
  unfold DatabaseWriter.spawnedTasks at hspawning
  rw [h, List.length_append, List.length_cons] at hspawning
  refine ⟨List.eq_nil_of_length_eq_zero (by omega), List.eq_nil_of_length_eq_zero (by omega),
    List.eq_nil_of_length_eq_zero (by omega), resident_eq_nil (by omega)⟩

/-- The one task that failed. -/
theorem alone_failed (hs : s.OK config) (hone : s.writer.statusTracing.spawningTasks ≤ 1)
    {task : DatabaseWriterTask U} {rest : List (DatabaseWriterTask U)}
    (h : s.writer.errorTaskStack = rest ++ [task]) :
    rest = [] ∧ s.writer.miniTasks = [] ∧
    s.writer.ctrlChn.queue.flatMap WriterMsg.resident = [] := by
  have hspawning := hs.spawning
  unfold DatabaseWriter.spawnedTasks at hspawning
  rw [h, List.length_append, List.length_singleton] at hspawning
  refine ⟨List.eq_nil_of_length_eq_zero (by omega), List.eq_nil_of_length_eq_zero (by omega),
    resident_eq_nil (by omega)⟩

/-- The one task that has reported. -/
theorem alone_reported (hs : s.OK config) (hone : s.writer.statusTracing.spawningTasks ≤ 1)
    {msg : WriterMsg U} {queue : List (WriterMsg U)} (h : s.writer.ctrlChn.queue = msg :: queue)
    (hmsg : msg.isReport = true) :
    s.writer.miniTasks = [] ∧ s.writer.errorTaskStack = [] ∧
    queue.flatMap WriterMsg.resident = [] := by
  have hspawning := hs.spawning
  unfold DatabaseWriter.spawnedTasks at hspawning
  rw [h, List.countP_cons, if_pos hmsg] at hspawning
  refine ⟨List.eq_nil_of_length_eq_zero (by omega), List.eq_nil_of_length_eq_zero (by omega),
    resident_eq_nil (by omega)⟩

/-- **A step keeps the rows in sequence.** -/
theorem WStep.inSequence {a : WriterAction U} (h : WStep config s a s') (hs : s.OK config)
    (ha : s.OneByOne a) (hseq : s.InSequence) : s'.InSequence := by
  have hone := hseq.one
  have horder := hseq.order
  cases h with
  | @accept item notify ch _ hq =>
    refine ⟨hone, ?_⟩
    unfold DatabaseWriter.flight DatabaseWriter.waiting at *
    rw [horder]
    simp [hq, WriterMsg.resident, WriterMsg.items]
  | refuse herr =>
    -- an append that is refused is no orderly step
    have hok : Except.isOk (s.writer.appendWithNotify _ _) = true := ha
    rw [herr] at hok
    simp [Except.isOk, Except.toBool] at hok
  | finish _ _ hq =>
    refine ⟨hone, ?_⟩
    unfold DatabaseWriter.flight DatabaseWriter.waiting at *
    rw [horder]
    simp [hq, WriterMsg.resident, WriterMsg.items]
  | @retry task rest _ herr =>
    -- the one task in flight is the one that failed, and it is first again
    obtain ⟨rfl, hmini, hqueue⟩ := alone_failed hs hone herr
    refine ⟨hone, ?_⟩
    unfold DatabaseWriter.flight DatabaseWriter.waiting at *
    rw [horder]
    simp [herr, hmini, hqueue, resident_execute]
  | @spawn task rest _ herr hnext hlt =>
    -- a task is spawned when no other is in flight
    have hzero : s.writer.statusTracing.spawningTasks = 0 := ha (by rw [herr]; rfl)
    have hspawning := hs.spawning
    rw [hzero] at hspawning
    unfold DatabaseWriter.spawnedTasks at hspawning
    have hmini : s.writer.miniTasks = [] := List.eq_nil_of_length_eq_zero (by omega)
    have hqueue : s.writer.ctrlChn.queue.flatMap WriterMsg.resident = [] :=
      resident_eq_nil (by omega)
    refine ⟨?_, ?_⟩
    · show s.writer.statusTracing.spawningTasks + 1 ≤ 1
      omega
    · unfold DatabaseWriter.flight DatabaseWriter.waiting at *
      rw [horder]
      simp [DatabaseWriter.spawned, herr, hnext, hmini, hqueue, resident_execute]
  | @recv msg queue ch _ hq hq' =>
    have hcounts := (onMsg_counts { s.writer with ctrlChn := ch } msg).1
    refine ⟨?_, ?_⟩
    · rw [hcounts]
      show s.writer.statusTracing.spawningTasks - _ ≤ 1
      split
      · omega
      · omega
    · show s.accepted = s.inserted ++ _
      rw [horder]
      congr 1
      cases msg with
      | data item notify =>
        unfold DatabaseWriter.flight DatabaseWriter.waiting
        rw [waiting_data]
        simp [hq, hq', WriterMsg.resident, WriterMsg.items, DatabaseWriter.onMsg]
      | done task =>
        have hsame : ({ s.writer with ctrlChn := ch }.onMsg (.done task)).errorTaskStack =
          s.writer.errorTaskStack ∧
            ({ s.writer with ctrlChn := ch }.onMsg (.done task)).nextTaskStack =
            s.writer.nextTaskStack := by
          unfold DatabaseWriter.onMsg
          simp only
          split
          · exact ⟨rfl, rfl⟩
          · exact ⟨rfl, rfl⟩
        unfold DatabaseWriter.flight DatabaseWriter.waiting
        rw [hsame.1, hsame.2, onMsg_miniTasks, onMsg_ctrlChn, hq', hq]
        rfl
      | fail task =>
        obtain ⟨hmini, herr, hrest⟩ := alone_reported hs hone hq rfl
        unfold DatabaseWriter.flight DatabaseWriter.waiting
        simp [hq, hq', hmini, herr, hrest, WriterMsg.resident, WriterMsg.items,
          DatabaseWriter.onMsg]
      | exit grace =>
        unfold DatabaseWriter.flight DatabaseWriter.waiting
        simp [hq, hq', WriterMsg.resident, WriterMsg.items, DatabaseWriter.onMsg]
  | leave _ _ _ _ => exact ⟨hone, horder⟩
  | @insert i pre post task rest hmini =>
    -- the rows inserted are the first of those in flight
    obtain ⟨rfl, rfl, herr, hqueue⟩ := alone_running hs hone hmini
    refine ⟨hone, ?_⟩
    unfold DatabaseWriter.flight DatabaseWriter.waiting at *
    rw [horder]
    have hrest : (MiniTask.inserting task rest).resident = rest := rfl
    simp only [hmini, herr, hqueue, hrest, resident_inserted, List.flatMap_nil, List.flatMap_cons,
      List.nil_append,
      List.append_nil]
    rw [List.append_assoc, ← List.append_assoc (rest.take _), List.take_append_drop]
  | @fail i pre post task rest hmini =>
    refine ⟨hone, ?_⟩
    unfold DatabaseWriter.flight DatabaseWriter.waiting at *
    rw [horder, hmini]
    simp only [List.flatMap_append, List.flatMap_cons]
    rfl
  | @report i pre post msg ch _ hmini hq =>
    have hreport := hs.reports msg (by rw [hmini]; simp)
    obtain ⟨rfl, rfl, herr, hqueue⟩ := alone_running hs hone hmini
    have hitems : msg.items = [] := by
      cases msg with
      | data item notify => simp [WriterMsg.isReport] at hreport
      | _ => rfl
    refine ⟨hone, ?_⟩
    unfold DatabaseWriter.flight DatabaseWriter.waiting at *
    rw [horder]
    simp [hmini, herr, hqueue, hq, hitems, MiniTask.resident]
  | lost hleft hmini =>
    have hnone := (hs.left hleft).2.1
    simp [DatabaseWriter.spawnedTasks, hmini] at hnone

/-- **In such a run what is inserted is a prefix of what was accepted.** -/
theorem Writing.Runs.inSequence (hlimit : 0 ≤ config.spawnLimit)
    (h : Writing.Runs config Writing.OneByOne s) : s.InSequence := by
  induction h with
  | start =>
    refine ⟨?_, rfl⟩
    show (0 : ℤ) ≤ 1
    omega
  | step hrun ha hstep ih => exact (Writing.step_cases hstep).inSequence (hrun.ok hlimit) ha ih

/-! ## The sender of the operation log -/

variable {c : Controller} {l l' : Logging} {P : Logging → LogAction → Prop}
  {stored : List OperationLog}

/-- The step of the writer that a step of the sender makes. -/
def LogAction.toWriter (l : Logging) : LogAction → WriterAction OperationLog
  | .append now operation user =>
    .append ⟨l.controller.sequencer.operationLogId + 1, user, now, operation⟩ none
  | .write a => a

/-- Every row finds room, and tasks are spawned one at a time. -/
def Logging.OneByOne (l : Logging) (a : LogAction) : Prop := l.writing.OneByOne (a.toWriter l)

instance (l : Logging) (a : LogAction) : Decidable (l.OneByOne a) :=
  inferInstanceAs (Decidable (l.writing.OneByOne (a.toWriter l)))

/-- A step of the sender: it issues a row with the next id, or it does not touch the log. -/
theorem Logging.step_cases {a : LogAction} (h : l.step config a = some l') :
    l.writing.step config (a.toWriter l) = some l'.writing ∧
      ((∃ row, row.id = l.controller.sequencer.operationLogId + 1 ∧
        a.toWriter l = .append row none ∧
          l'.controller.logHandler = l.controller.logHandler ++ [row] ∧
          l'.controller.sequencer.operationLogId = row.id) ∨
        (l'.controller = l.controller ∧ ∀ item notify, a.toWriter l ≠ .append item notify)) := by
  cases a with
  | append now operation user =>
    simp only [step, Controller.appendOperationLog, Sequencer.nextOperationLogId,
      List.getLast?_append,
      List.getLast?_singleton, Option.some_or, Option.bind_some] at h
    obtain ⟨writing, hw, rfl⟩ := Option.map_eq_some_iff.1 h
    exact ⟨hw, .inl ⟨_, rfl, rfl, rfl, rfl⟩⟩
  | write a =>
    cases a with
    | append item notify => simp [step] at h
    | _ =>
      simp only [step] at h
      obtain ⟨writing, hw, rfl⟩ := Option.map_eq_some_iff.1 h
      exact ⟨hw, .inr ⟨rfl, by simp [LogAction.toWriter]⟩⟩

/-- **What a run of the sender keeps**: the ids it issues go up, and the writer runs. -/
structure Logging.OK (config : DatabaseWriterConfig) (c : Controller) (l : Logging) : Prop where
  extends_ : l.controller.logHandler = c.logHandler ++ l.issued c
  ascending : (l.issued c).Pairwise fun row row' => row.id < row'.id
  above : ∀ row ∈ l.issued c, c.sequencer.operationLogId < row.id ∧
    row.id ≤ l.controller.sequencer.operationLogId
  counter : c.sequencer.operationLogId ≤ l.controller.sequencer.operationLogId

theorem Logging.Runs.ok (h : Logging.Runs config P c l) : l.OK config c := by
  induction h with
  | start =>
    have hnone : Logging.issued c ⟨c, .start⟩ = [] := List.drop_length
    refine ⟨?_, ?_, ?_, le_rfl⟩
    · rw [hnone, List.append_nil]
    · rw [hnone]
      exact List.Pairwise.nil
    · rw [hnone]
      simp
  | @step l l' a _ _ hstep ih =>
    obtain ⟨-, hissue | ⟨hsame, -⟩⟩ := Logging.step_cases hstep
    · obtain ⟨row, hid, -, hlog, hcounter⟩ := hissue
      have hissued : l'.issued c = l.issued c ++ [row] := by
        unfold Logging.issued
        rw [hlog, List.drop_append_of_le_length]
        rw [ih.extends_, List.length_append]
        omega
      refine ⟨?_, ?_, ?_, ?_⟩
      · rw [hlog, hissued, ← List.append_assoc, ← ih.extends_]
      · rw [hissued, List.pairwise_append]
        refine ⟨ih.ascending, List.pairwise_singleton _ _, fun old hold new hnew => ?_⟩
        obtain rfl := List.mem_singleton.1 hnew
        have hle := (ih.above old hold).2
        omega
      · intro old hold
        have hbase := ih.counter
        rw [hissued, List.mem_append, List.mem_singleton] at hold
        rcases hold with hold | rfl
        · have hbounds := ih.above old hold
          omega
        · omega
      · have hbase := ih.counter
        omega
    · have hissued : l'.issued c = l.issued c := by
        unfold Logging.issued
        rw [hsame]
      refine ⟨?_, ?_, ?_, ?_⟩
      · rw [hsame, hissued]
        exact ih.extends_
      · rw [hissued]
        exact ih.ascending
      · rw [hissued, hsame]
        exact ih.above
      · rw [hsame]
        exact ih.counter

/-- When every row finds room, the writer accepts what is issued. -/
theorem Logging.Runs.accepted (h : Logging.Runs config Logging.OneByOne c l) :
    Writing.Runs config Writing.OneByOne l.writing ∧ l.writing.accepted = l.issued c := by
  induction h with
  | start => exact ⟨.start, List.drop_length.symm⟩
  | @step l l' a hrun ha hstep ih =>
    obtain ⟨hwriter, haccepted⟩ := ih
    have hok := hrun.ok
    obtain ⟨hw, hcases⟩ := Logging.step_cases hstep
    refine ⟨hwriter.step ha hw, ?_⟩
    have hw' := Writing.step_cases hw
    unfold Logging.OneByOne at ha
    rcases hcases with ⟨row, -, happend, hlog, -⟩ | ⟨hsame, hother⟩
    · have hissued : l'.issued c = l.issued c ++ [row] := by
        unfold Logging.issued
        rw [hlog, List.drop_append_of_le_length]
        rw [hok.extends_, List.length_append]
        omega
      rw [happend] at hw' ha
      rw [hissued, ← haccepted]
      generalize l'.writing = s' at hw'
      cases hw' with
      | accept _ _ => rfl
      | refuse herr =>
        have hroom : Except.isOk (l.writing.writer.appendWithNotify row none) = true := ha
        rw [herr] at hroom
        simp [Except.isOk, Except.toBool] at hroom
    · have hissued : l'.issued c = l.issued c := by
        unfold Logging.issued
        rw [hsame]
      rw [hissued, ← haccepted]
      generalize l'.writing = s' at hw'
      generalize a.toWriter l = b at hw' hother
      cases hw' with
      | accept _ _ => exact absurd rfl (hother _ _)
      | _ => rfl

/-- Rows with new ids are all added to the table. -/
theorem insertOperationLog_fold {rows : List OperationLog} {n : ℕ}
    (hstored : ∀ r ∈ stored, r.id ≤ n) (hnew : ∀ r ∈ rows, n < r.id)
    (hascending : rows.Pairwise fun r r' => r.id < r'.id) :
    rows.foldl insertOperationLog stored = stored ++ rows := by
  induction rows generalizing stored n with
  | nil => simp
  | cons row rows ih =>
    obtain ⟨hrow, hrows⟩ := List.pairwise_cons.1 hascending
    have hlt := hnew row List.mem_cons_self
    have hfresh : stored.any (fun r => r.id = row.id) = false := by
      rw [List.any_eq_false]
      intro r hr hid
      have hle := hstored r hr
      have heq : r.id = row.id := by simpa using hid
      omega
    have hadd : insertOperationLog stored row = stored ++ [row] := by
      unfold insertOperationLog
      rw [hfresh]
      simp
    rw [List.foldl_cons, hadd, ih (n := row.id) (fun r hr => ?_) hrow hrows, List.append_assoc]
    · rfl
    · rcases List.mem_append.1 hr with hr | hr
      · have hle := hstored r hr
        omega
      · rw [List.mem_singleton.1 hr]

/-- **The stored log is a prefix**: when every row finds room and tasks are spawned one at a time,
at every instant the row of every smaller id that was issued is stored with a row. -/
theorem Logging.Runs.stored_prefix (hlimit : 0 ≤ config.spawnLimit)
    (hstored : ∀ row ∈ stored, row.id ≤ c.sequencer.operationLogId)
    (h : Logging.Runs config Logging.OneByOne c l) {row earlier : OperationLog}
    (hrow : row ∈ l.table stored) (hearlier : earlier ∈ l.issued c)
    (hlt : earlier.id < row.id) : earlier ∈ l.table stored := by
  have hok := h.ok
  obtain ⟨hwriter, haccepted⟩ := h.accepted
  have horder := (hwriter.inSequence hlimit).order
  rw [haccepted] at horder
  have hascending := hok.ascending
  rw [horder] at hascending
  obtain ⟨hinserted, -, hbefore⟩ := List.pairwise_append.1 hascending
  have habove : ∀ r ∈ l.writing.inserted, c.sequencer.operationLogId < r.id := by
    intro r hr
    refine (hok.above r ?_).1
    rw [horder]
    exact List.mem_append_left _ hr
  have htable : l.table stored = stored ++ l.writing.inserted :=
    insertOperationLog_fold hstored habove hinserted
  rw [htable, List.mem_append] at hrow ⊢
  right
  have hbound := (hok.above earlier hearlier).1
  rw [horder, List.mem_append] at hearlier
  rcases hearlier with hin | hout
  · exact hin
  · exfalso
    rcases hrow with hrow | hrow
    · have hle := hstored row hrow
      omega
    · -- a row still held was issued after all that are inserted
      have hlater := hbefore row hrow earlier hout
      omega

theorem Logging.Runs.run [∀ l a, Decidable (P l a)] {as : List LogAction}
    (h : Logging.Runs config P c l) (hrun : l.run config P as = some l') :
    Logging.Runs config P c l' := by
  induction as generalizing l with
  | nil =>
    obtain rfl := Option.some.inj hrun
    exact h
  | cons a as ih =>
    unfold Logging.run at hrun
    split at hrun
    · rename_i hP
      obtain ⟨l₁, hstep, hrest⟩ := Option.bind_eq_some_iff.1 hrun
      exact ih (h.step hP hstep) hrest
    · simp at hrun

/-- A deposit that is logged. -/
def loggedAt (now : Timestamp) : LogAction := .append now (depositOf "USDT" 1 "1") alice

/-- The exchange when the log is started, and a run of the sender. -/
theorem sampleLogging (P : Logging → LogAction → Prop) [∀ l a, Decidable (P l a)]
    (as : List LogAction) (ids ids' : List ℕ)
    (h : (createController sampleSettings).toOption.bind
      (fun c => (Logging.run sampleWriterConfig P ⟨c, .start⟩ as).map fun l =>
      ((l.table []).map OperationLog.id, (l.issued c).map OperationLog.id)) = some (ids, ids')) :
    ∃ c l, createController sampleSettings = .ok c ∧ Logging.Runs sampleWriterConfig P c l ∧
      (l.table []).map OperationLog.id = ids ∧ (l.issued c).map OperationLog.id = ids' := by
  obtain ⟨c, hc, hl⟩ := Option.bind_eq_some_iff.1 h
  obtain ⟨l, hrun, hids⟩ := Option.map_eq_some_iff.1 hl
  obtain ⟨htable, hissued⟩ := Prod.mk.inj hids
  exact ⟨c, l, Outcome.toOption_some.1 hc, Logging.Runs.run .start hrun, htable, hissued⟩

/-- Two rows stored in turn, the second in a task of its own. -/
theorem Logging.Runs.stored_prefix_two :
    ∃ c l row earlier, Logging.Runs sampleWriterConfig Logging.OneByOne c l ∧
    row ∈ l.table [] ∧ earlier ∈ l.issued c ∧ earlier.id < row.id ∧ earlier ∈ l.table [] := by
  obtain ⟨c, l, -, hrun, htable, hissued⟩ := sampleLogging Logging.OneByOne
    [loggedAt 0, .write .recv, .write .acquire, loggedAt 1, .write (.statement 0 true),
      .write (.report 0),
      .write .recv, .write .recv, .write .acquire, .write (.statement 0 true)] [1, 2] [1,
      2] (by decide +kernel)
  obtain ⟨row, hrow, hid⟩ :=
    List.mem_map.1 (show 2 ∈ (l.table []).map OperationLog.id by rw [htable]; simp)
  obtain ⟨earlier, hearlier, hid'⟩ :=
    List.mem_map.1 (show 1 ∈ (l.issued c).map OperationLog.id by rw [hissued]; simp)
  have hlt : earlier.id < row.id := by omega
  exact ⟨c, l, row, earlier, hrun, hrow, hearlier, hlt,
    Logging.Runs.stored_prefix (by decide) (by simp) hrun hrow hearlier hlt⟩

/-- **The second task is faster**: a crash now leaves row 2 without row 1. -/
theorem not_stored_prefix : ¬ ∀ c l, createController sampleSettings = .ok c →
    Logging.Runs sampleWriterConfig (fun _ _ => True) c l →
    ∀ row ∈ l.table [], ∀ earlier ∈ l.issued c, earlier.id < row.id → earlier ∈ l.table [] := by
  intro hclaim
  obtain ⟨c, l, hc, hrun, htable, hissued⟩ := sampleLogging (fun _ _ => True)
    [loggedAt 0, .write .recv, .write .acquire, loggedAt 1, .write .recv, .write .acquire,
      .write (.statement 1 true)]
    [2] [1, 2] (by decide +kernel)
  obtain ⟨row, hrow, hid⟩ :=
    List.mem_map.1 (show 2 ∈ (l.table []).map OperationLog.id by rw [htable]; simp)
  obtain ⟨earlier, hearlier, hid'⟩ :=
    List.mem_map.1 (show 1 ∈ (l.issued c).map OperationLog.id by rw [hissued]; simp)
  have hmem := hclaim c l hc hrun row hrow earlier hearlier (by omega)
  have hstored : 1 ∈ (l.table []).map OperationLog.id := List.mem_map.2 ⟨earlier, hmem, hid'⟩
  rw [htable] at hstored
  simp at hstored

end Dingir
