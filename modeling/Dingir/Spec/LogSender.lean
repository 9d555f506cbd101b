import Dingir.Spec.Controller
import Dingir.Spec.Writer

/-!
# The operation log on its way to the database

`OperationLogSender` is a database writer for the rows that `append_operation_log`
issues. The row is handed to the writer after the operation was done, and an error is
dropped: the caller does not wait for the row to be stored.
-/

namespace Dingir

/-- A controller with the writer of its operation log. -/
structure Logging where
  controller : Controller
  writing : Writing OperationLog

inductive LogAction
  /-- `append_operation_log` -/
  | append (now : Timestamp) (operation : Operation) (user : Uuid)
  /-- A step of the writer that is not a call of `append`. -/
  | write (a : WriterAction OperationLog)

namespace Logging

/-- `append_operation_log(..).ok()`, or a step of the writer. -/
def step (config : DatabaseWriterConfig) (l : Logging) : LogAction → Option Logging
  | .append now operation user =>
    let controller := l.controller.appendOperationLog now operation user
    controller.logHandler.getLast?.bind fun item =>
      (l.writing.step config (.append item none)).map fun writing => { controller, writing }
  | .write (.append _ _) => none
  | .write a => (l.writing.step config a).map fun writing => { l with writing }

/-- Steps one after the other, as long as each meets `P`. -/
def run (config : DatabaseWriterConfig) (P : Logging → LogAction → Prop) [∀ l a, Decidable (P l a)]
    (l : Logging) : List LogAction → Option Logging
  | [] => some l
  | a :: as => if P l a then (l.step config a).bind fun l => l.run config P as else none

/-- The rows issued since the sender was started with the controller `c`. -/
def issued (c : Controller) (l : Logging) : List OperationLog :=
  l.controller.logHandler.drop c.logHandler.length

/-- The states of a run of the sender from its start with `c`, in which every step meets `P`. -/
inductive Runs (config : DatabaseWriterConfig) (P : Logging → LogAction → Prop)
    (c : Controller) : Logging → Prop
  | start : Runs config P c { controller := c, writing := .start }
  | step {l l' : Logging} {a : LogAction} : Runs config P c l → P l a → l.step config a = some l' →
      Runs config P c l'

end Logging

/-- `INSERT INTO operation_log .. ON CONFLICT DO NOTHING`: `id` is the primary key. -/
def insertOperationLog (table : List OperationLog) (row : OperationLog) : List OperationLog :=
  if table.any fun r => r.id = row.id then table else table ++ [row]

/-- The table `operation_log`, which held `stored` when the sender was started. -/
def Logging.table (stored : List OperationLog) (l : Logging) : List OperationLog :=
  l.writing.inserted.foldl insertOperationLog stored

end Dingir
