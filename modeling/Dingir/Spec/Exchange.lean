import Dingir.Spec.Database

/-!
# The exchange over the lives of its engine

What stays when the process of the engine ends: the slices and the rows of `operation_log` in the
database, and the messages that went out. The next process creates a controller and recovers
(`init_from_db`). `debug_reload` recovers in a process that goes on, with a controller that was
reset.

The rows of the log pass through a channel before they are stored, so a recovery reads those of the
earlier processes and, of this one, the first `stored`. A dump is one step, a call that panics is no
step, and `debug_reset`, which empties the tables, is left out.
-/

namespace Dingir

structure Exchange where
  engine : Controller
  db : Database
  /-- The rows of `operation_log` that earlier processes have left. -/
  log : List OperationLog
  /-- The messages of earlier processes. -/
  published : List Message

inductive ExchangeAction
  | call (q : Request)
  /-- `debug_dump` -/
  | dump (sliceId : ℤ)
  /-- `make_slice` -/
  | slice (sliceId : ℤ)
  /-- The process ends, and the next one recovers. -/
  | restart (stored : ℕ) (now : Timestamp)
  /-- `debug_reload` -/
  | reload (stored : ℕ) (now : Timestamp)

namespace Exchange

/-- The first process, on empty tables. -/
def start (c : Controller) : Exchange := ⟨c, .empty, [], []⟩

/-- All messages that went out. -/
def messages (s : Exchange) : List Message := s.published ++ s.engine.persistor

/-- The table `operation_log`, when `stored` rows of this process are in it. -/
def operationLog (s : Exchange) (stored : ℕ) : List OperationLog :=
  s.log ++ s.engine.logHandler.take stored

def step (E : Env) (settings : Settings) (s : Exchange) : ExchangeAction → Option Exchange
  | .call q =>
    if q.real = true then
      match s.engine.call E q with
      | .ok (_, engine) => some { s with engine }
      | .error _ => none
    else none
  | .dump sliceId => some { s with db := s.db.dumpToDb sliceId s.engine }
  | .slice sliceId => some { s with db := s.db.makeSlice sliceId s.engine }
  | .restart stored now =>
    match createController settings >>=
      fun b => b.initFromDb E now s.db.lastSlice (s.operationLog stored) with
    | .ok engine => some ⟨engine, s.db, s.operationLog stored, s.messages⟩
    | .error _ => none
  | .reload stored now =>
    match s.engine.resetState.initFromDb E now s.db.lastSlice (s.operationLog stored) with
    | .ok engine => some { s with engine }
    | .error _ => none

end Exchange

end Dingir
