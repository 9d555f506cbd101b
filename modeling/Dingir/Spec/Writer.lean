import Dingir.Lib.Channel
import Dingir.Lib.Keyed

/-!
# The database writer

`storage/database.rs`: rows are appended to a bounded channel. A scheduler collects
them in tasks, runs up to `spawn_limit` tasks side by side and runs a failed one
again; the tasks report to it over the same channel. A row may come with the offset
of its message, and the scheduler tells which offsets are done (`ProgTracing`).

A step (`Writing.step`) is one turn of the loop of `schedule`, one statement of a
task, or one message sent; they fall in any order. Left out are the benchmark and
the log, which nothing reads.
-/

namespace Dingir

open Keyed

/-- `INSERT_LIMIT` -/
def insertLimit : ℕ := 5000

/-- `CHANNEL_LIMIT` -/
def channelLimit : ℕ := 1000

/-- `VecDeque::pop_back`, of a list from front to back. -/
def popBack {α : Type} (l : List α) : Option (α × List α) :=
  match l.reverse with
  | [] => none
  | a :: rest => some (a, rest.reverse)

/-! ## Progress -/

/-- The offsets at work for one partition, from the bottom up. The second part of an entry is
the offset up to which all is done but for the entry itself. -/
abbrev ProgTracingStack := List (ℕ × Option ℕ)

namespace ProgTracingStack

def pushTop (stack : ProgTracingStack) (n : ℕ) : ProgTracingStack :=
  let lastN := (stack.getLast?.getD (n, none)).1
  let stack := stack ++ [(n, none)]
  if n < lastN then stack.insertionSort fun a b => a.1 ≤ b.1 else stack

/-- The loop of `pop_top`, over the entries below `trace` from the top down. It gives back the
entries that stay and, when it did not return, the `trace` it ended with. -/
def popLoop (n : ℕ) :
    ℕ × Option ℕ → List (ℕ × Option ℕ) → List (ℕ × Option ℕ) × Option (ℕ × Option ℕ)
  | trace, [] => ([], some trace)
  | trace, trnow :: rest =>
    if n > trnow.1 then ((trnow.1, trace.2.or (some n)) :: rest, none)
    else
      let (rest, ended) := popLoop n trnow rest
      (trace :: rest, ended)

def popTop (stack : ProgTracingStack) (n : ℕ) : Option ℕ × ProgTracingStack :=
  match stack.reverse with
  | [] => (none, stack)
  | trace :: below =>
    let (rest, ended) := popLoop n trace below
    (ended.bind fun trace => trace.2.or (some trace.1), rest.reverse)

end ProgTracingStack

/-- The greatest offset for each partition. -/
abbrev TaskNotifyFlag := HashMap ℤ ℕ

structure TaskNotification where
  partition : ℤ
  offset : ℕ
  deriving DecidableEq, Repr

def TaskNotification.addTo (notify : TaskNotification) (target : TaskNotifyFlag) : TaskNotifyFlag :=
  match target.find? notify.partition with
  | some old =>
    if old > notify.offset then (target.insert notify.partition notify.offset).insert
      notify.partition old
    else target.insert notify.partition notify.offset
  | none => target.insert notify.partition notify.offset

abbrev ProgTracing := HashMap ℤ ProgTracingStack

namespace ProgTracing

def updateFrom (tracing : ProgTracing) (notify : TaskNotifyFlag) : ProgTracing :=
  notify.entries.foldl (fun tracing item =>
    tracing.insert item.1 (((tracing.find? item.1).getD []).pushTop item.2)) tracing

def finishFrom (tracing : ProgTracing) (notify : TaskNotifyFlag) : TaskNotifyFlag × ProgTracing :=
  notify.entries.foldl (fun (flags, tracing) item =>
    match tracing.find? item.1 with
    | some stack =>
      let (popped, stack) := stack.popTop item.2
      (match popped with
        | some v => flags.insert item.1 v
        | none => flags, tracing.insert item.1 stack)
    | none => (flags, tracing)) (∅, tracing)

end ProgTracing

/-- A stack at work: what was pushed and what was popped, in this order, and what `pop_top`
reported. -/
structure Progress where
  stack : ProgTracingStack
  pushed : List ℕ
  popped : List ℕ
  reports : List ℕ
  deriving DecidableEq, Repr

inductive ProgressCall
  | pushTop (n : ℕ)
  | popTop (n : ℕ)
  deriving DecidableEq, Repr

namespace Progress

def start : Progress := { stack := [], pushed := [], popped := [], reports := [] }

/-- The tasks start in the order of their offsets and each is done once, whenever. -/
def InTurn (s : Progress) : ProgressCall → Prop
  | .pushTop n => ∀ v ∈ s.pushed, v < n
  | .popTop n => n ∈ s.pushed ∧ n ∉ s.popped

def step (s : Progress) : ProgressCall → Option Progress
  | .pushTop n => some { s with stack := s.stack.pushTop n, pushed := s.pushed ++ [n] }
  | .popTop n =>
    let (report, stack) := s.stack.popTop n
    some { s with stack, popped := s.popped ++ [n], reports := s.reports ++ report.toList }

end Progress

/-! ## Tasks -/

structure DatabaseWriterTask (U : Type) where
  data : List U
  notifyFlag : Option TaskNotifyFlag
  errCount : ℕ

namespace DatabaseWriterTask

variable {U : Type}

def new : DatabaseWriterTask U := { data := [], notifyFlag := none, errCount := 0 }

def isLimited (task : DatabaseWriterTask U) : Bool := decide (task.data.length ≥ insertLimit)

def addData (task : DatabaseWriterTask U) (dt : U)
    (notify : Option TaskNotification) : DatabaseWriterTask U :=
  { task with
    data := task.data ++ [dt]
    notifyFlag := match notify with
      | some notify => some (notify.addTo (task.notifyFlag.getD ∅))
      | none => task.notifyFlag }

end DatabaseWriterTask

inductive WriterMsg (U : Type)
  | data (item : U) (notify : Option TaskNotification)
  | done (task : DatabaseWriterTask U)
  | fail (task : DatabaseWriterTask U)
  | exit (grace : Bool)

/-- A spawned task: it inserts what is left of its rows, then waits to send its report. -/
inductive MiniTask (U : Type)
  | inserting (task : DatabaseWriterTask U) (rest : List U)
  | sending (msg : WriterMsg U)

variable {U : Type}

/-- The number of rows in the next statement of `sql_query_fine`: a power of two from 8 to 1024, or
all rows when they are less than 8. -/
def statementLength (rows : List U) : ℕ :=
  if rows.length ≥ 8 then
    match ([10, 9, 8, 7, 6, 5, 4, 3] : List ℕ).find? fun n => decide (rows.length ≥ 2 ^ n) with
    | some n => 2 ^ n
    | none => rows.length
  else rows.length

namespace MiniTask

/-- `execute`, up to its first statement. -/
def execute (task : DatabaseWriterTask U) : MiniTask U :=
  if task.data.isEmpty then .sending (.done task) else .inserting task task.data

/-- After a statement that succeeded. -/
def inserted (task : DatabaseWriterTask U) (rest : List U) : MiniTask U :=
  if (rest.drop (statementLength rest)).isEmpty then .sending (.done task)
  else .inserting task (rest.drop (statementLength rest))

/-- After a statement that failed. -/
def failed (task : DatabaseWriterTask U) (resident : List U) : MiniTask U :=
  .sending (.fail { task with errCount := task.errCount + 1, data := resident })

end MiniTask

/-! ## The scheduler -/

structure DatabaseWriterStatus where
  pendingCount : ℕ
  spawningTasks : ℤ
  deriving DecidableEq, Repr

structure DatabaseWriterConfig where
  spawnLimit : ℤ
  capabilityLimit : ℕ

/-- A `watch` channel: the value last sent, and how many were. -/
structure Watch (α : Type) where
  value : α
  version : ℕ

/-- A writer after `start_schedule`: the locals of `schedule`, the channels and the spawned
tasks. -/
structure DatabaseWriter (U : Type) where
  ctrlChn : Channel (WriterMsg U) channelLimit
  nextTaskStack : List (DatabaseWriterTask U)
  errorTaskStack : List (DatabaseWriterTask U)
  notifyTracing : ProgTracing
  statusTracing : DatabaseWriterStatus
  graceDown : Bool
  /-- The loop has been left. -/
  left : Bool
  miniTasks : List (MiniTask U)
  completeNotify : Watch TaskNotifyFlag

namespace DatabaseWriter

def startSchedule : DatabaseWriter U :=
  { ctrlChn := .empty _ _, nextTaskStack := [], errorTaskStack := [], notifyTracing := ∅,
    statusTracing := { pendingCount := 0, spawningTasks := 0 }, graceDown := false, left := false,
    miniTasks := [],
    completeNotify := ⟨∅, 0⟩ }

/-- Never waits: the row comes back when the channel is full or closed. -/
def appendWithNotify (w : DatabaseWriter U) (item : U) (notify : Option TaskNotification) :
    Except U (DatabaseWriter U) :=
  if w.left then .error item
  else match w.ctrlChn.trySend (.data item notify) with
    | some ctrlChn => .ok { w with ctrlChn }
    | none => .error item

def append (w : DatabaseWriter U) (item : U) : Except U (DatabaseWriter U) :=
  w.appendWithNotify item none

/-- `finish` sends `Exit` as soon as there is room. -/
def finish (w : DatabaseWriter U) : Option (DatabaseWriter U) :=
  if w.left then none else (w.ctrlChn.trySend (.exit true)).map fun ctrlChn => { w with ctrlChn }

/-- The first branch of `select!`, with a connection: a failed task is run again, or a new one. -/
def acquire (config : DatabaseWriterConfig) (w : DatabaseWriter U) : Option (DatabaseWriter U) :=
  match popBack w.errorTaskStack with
  | some (task, rest) =>
    some { w with errorTaskStack := rest, miniTasks := w.miniTasks ++ [.execute task] }
  | none =>
    match popBack w.nextTaskStack with
    | some (task, rest) =>
      if w.statusTracing.spawningTasks < config.spawnLimit then
        some { w with
          nextTaskStack := rest
          statusTracing :=
            { pendingCount := w.statusTracing.pendingCount - task.data.length
              spawningTasks := w.statusTracing.spawningTasks + 1 }
          notifyTracing := match task.notifyFlag with
            | some notifies => w.notifyTracing.updateFrom notifies
            | none => w.notifyTracing
          miniTasks := w.miniTasks ++ [.execute task] }
      else none
    | none => none

/-- The second branch of `select!`, for a message received. -/
def onMsg (w : DatabaseWriter U) : WriterMsg U → DatabaseWriter U
  | .data data notify =>
    let stack := match w.nextTaskStack with
      | [] => [DatabaseWriterTask.new]
      | front :: rest => if front.isLimited then .new :: front :: rest else front :: rest
    { w with
      nextTaskStack := match stack with
        | [] => []
        | front :: rest => front.addData data notify :: rest
      statusTracing := { w.statusTracing with pendingCount := w.statusTracing.pendingCount + 1 } }
  | .done ctx =>
    let w := { w with
      statusTracing := { w.statusTracing with spawningTasks := w.statusTracing.spawningTasks - 1 } }
    match ctx.notifyFlag with
    | some notifies =>
      let (flags, notifyTracing) := w.notifyTracing.finishFrom notifies
      { w with notifyTracing, completeNotify := ⟨flags, w.completeNotify.version + 1⟩ }
    | none => w
  | .fail ctx => { w with errorTaskStack := ctx :: w.errorTaskStack }
  | .exit grace => { w with graceDown := true, left := !grace }

def recv (w : DatabaseWriter U) : Option (DatabaseWriter U) :=
  match w.ctrlChn.queue with
  | [] => none
  | msg :: _ => some ({ w with ctrlChn := w.ctrlChn.recv }.onMsg msg)

/-- The third branch of `select!`. -/
def yieldNow (w : DatabaseWriter U) : Option (DatabaseWriter U) :=
  if w.graceDown ∧ w.statusTracing.spawningTasks = 0 ∧
    w.nextTaskStack = [] then some { w with left := true } else none

end DatabaseWriter

/-! ## A writer at work -/

/-- A writer with the rows it accepted and those of the statements that succeeded. -/
structure Writing (U : Type) where
  writer : DatabaseWriter U
  accepted : List U
  inserted : List U
  /-- The rows accepted when `finish` sent `Exit`. -/
  beforeExit : Option (List U)

def Writing.start : Writing U :=
  { writer := .startSchedule, accepted := [], inserted := [], beforeExit := none }

inductive WriterAction (U : Type)
  | append (item : U) (notify : Option TaskNotification)
  | finish
  | acquire
  | recv
  | yieldNow
  /-- The next statement of a task. -/
  | statement (i : ℕ) (ok : Bool)
  /-- A task sends its report. -/
  | report (i : ℕ)

/-- One step of a writer, or `none` where the action cannot be taken. -/
def Writing.step (config : DatabaseWriterConfig) (s : Writing U) :
    WriterAction U → Option (Writing U)
  | .append item notify =>
    match s.writer.appendWithNotify item notify with
    | .ok writer => some { s with writer, accepted := s.accepted ++ [item] }
    | .error _ => some s
  | .finish =>
    -- `finish` takes the writer, so it is called once
    if s.beforeExit.isSome then none
    else s.writer.finish.map fun writer => { s with writer, beforeExit := some s.accepted }
  | .acquire => if s.writer.left then none else (s.writer.acquire config).map fun writer =>
    { s with writer }
  | .recv => if s.writer.left then none else s.writer.recv.map fun writer => { s with writer }
  | .yieldNow => if s.writer.left then none else s.writer.yieldNow.map fun writer =>
    { s with writer }
  | .statement i ok =>
    match s.writer.miniTasks[i]? with
    | some (.inserting task rest) =>
      if ok then some { s with
        writer := { s.writer with miniTasks := s.writer.miniTasks.set i (.inserted task rest) }
        inserted := s.inserted ++ rest.take (statementLength rest) }
      else some { s with
        writer := { s.writer with miniTasks := s.writer.miniTasks.set i (.failed task rest) } }
    | _ => none
  | .report i =>
    match s.writer.miniTasks[i]? with
    | some (.sending msg) =>
      if s.writer.left then
        some { s with writer := { s.writer with miniTasks := s.writer.miniTasks.eraseIdx i } }
      else (s.writer.ctrlChn.trySend msg).map fun ctrlChn =>
        { s with writer := { s.writer with ctrlChn, miniTasks := s.writer.miniTasks.eraseIdx i } }
    | _ => none

/-- Steps one after the other. -/
def Writing.run (config : DatabaseWriterConfig) (s : Writing U) :
    List (WriterAction U) → Option (Writing U)
  | [] => some s
  | a :: as => (s.step config a).bind fun s => s.run config as

/-- The states of a run from the start in which every step meets `P`. -/
inductive Writing.Runs (config : DatabaseWriterConfig)
    (P : Writing U → WriterAction U → Prop) : Writing U → Prop
  | start : Runs config P .start
  | step {s s' : Writing U} {a : WriterAction U} : Runs config P s → P s a →
      s.step config a = some s' →
      Runs config P s'

/-- **The reachable states of a writer.** -/
abbrev Writing.Reachable (config : DatabaseWriterConfig) : Writing U → Prop :=
  Writing.Runs config fun _ _ => True

end Dingir
