import Dingir.Spec.Writer

/-!
# The trackers of a chain of writers

`message/persist.rs`: a topic may feed several database writers, one chained before
the other. Each writer announces the offsets it is done with (`TaskNotifyFlag`), and
a tracker for each tells which ones the whole chain is done with, so that the
consumer may commit them. A tracker remembers one offset for each partition, that of
the side that is ahead.
-/

namespace Dingir

open Keyed

inductive NotifyTrackItem
  | left (v : ℕ)
  | right (v : ℕ)
  deriving DecidableEq, Repr

namespace NotifyTrackItem

def isLeft : NotifyTrackItem → Bool
  | .left _ => true
  | .right _ => false

def isRight (item : NotifyTrackItem) : Bool := !item.isLeft

def val : NotifyTrackItem → ℕ
  | .left v => v
  | .right v => v

def resolve (self another : NotifyTrackItem) : ℕ × NotifyTrackItem :=
  if self.val < another.val then (self.val, another) else (another.val, self)

/-- What both sides are done with, when they are not the same side, and what is remembered. -/
def merge (self another : NotifyTrackItem) : Option ℕ × NotifyTrackItem :=
  match self with
  | .left v =>
    if another.isLeft then (none, .left (max v another.val))
    else
      let (both, item) := self.resolve another
      (some both, item)
  | .right v =>
    if another.isRight then (none, .right (max v another.val))
    else
      let (both, item) := self.resolve another
      (some both, item)

end NotifyTrackItem

abbrev NotifyTracker := HashMap ℤ NotifyTrackItem

namespace NotifyTracker

def mapTo (input : TaskNotifyFlag) (mf : ℕ → NotifyTrackItem) : NotifyTracker := mapValues mf input

/-- One item of `merge`: `entry`, `or_insert_with` and the `merge` of the item. -/
def mergeItem (state : TaskNotifyFlag × NotifyTracker) (k : ℤ) (v : NotifyTrackItem) :
    TaskNotifyFlag × NotifyTracker :=
  let (both, item) := ((state.2.find? k).getD v).merge v
  (match both with
    | some u => state.1.insert k u
    | none => state.1, state.2.insert k item)

def merge (self another : NotifyTracker) : TaskNotifyFlag × NotifyTracker :=
  another.entries.foldl (fun state item => mergeItem state item.1 item.2) (∅, self)

end NotifyTracker

/-- A tracker with the one of the writers chained behind its own, if there are any. -/
inductive NotifyTrackerReceiver
  | last (status : NotifyTracker)
  | chained (status : NotifyTracker) (next : NotifyTrackerReceiver)

namespace NotifyTrackerReceiver

/-- `get_tracker` for a chain of so many writers. -/
def getTracker : ℕ → Option NotifyTrackerReceiver
  | 0 => none
  | n + 1 =>
    match getTracker n with
    | none => some (.last ∅)
    | some next => some (.chained ∅ next)

/-- One turn of `changed` in which the listener of the `i`-th writer has received `flag`: what is
returned, if anything is, and the trackers after it. -/
def changed :
    NotifyTrackerReceiver → ℕ → TaskNotifyFlag → Option TaskNotifyFlag × NotifyTrackerReceiver
  | .last status, _, flag =>
    let (_, status) := status.merge (.mapTo flag .left)
    (some flag, .last status)
  | .chained status next, 0, flag =>
    let (ret, status) := status.merge (.mapTo flag .left)
    (if ret.entries.isEmpty then none else some ret, .chained status next)
  | .chained status next, i + 1, flag =>
    let (nc, next) := next.changed i flag
    match nc with
    | none => (none, .chained status next)
    | some nc =>
      let (ret, status) := status.merge (.mapTo nc .right)
      (if ret.entries.isEmpty then none else some ret, .chained status next)

/-- What the first tracker remembers when the task that commits is stopped, whatever side it is
of. -/
def finalStatus : NotifyTrackerReceiver → TaskNotifyFlag
  | .last status => mapValues NotifyTrackItem.val status
  | .chained status _ => mapValues NotifyTrackItem.val status

/-- The offsets of `AutoCommitRet::commit`. -/
def finalCommit (t : NotifyTrackerReceiver) : HashMap ℤ ℕ := mapValues (· + 1) t.finalStatus

end NotifyTrackerReceiver

/-! ## Trackers at work -/

/-- A flag that a listener received, with the place of its writer in the chain. -/
structure Notified where
  writer : ℕ
  flag : TaskNotifyFlag

/-- The offset a writer announced last for a partition. -/
def latest (es : List Notified) (i : ℕ) (p : ℤ) : Option ℕ :=
  es.foldl (fun old e => if e.writer = i then (e.flag.find? p).or old else old) none

/-- The greatest offset a writer has announced for a partition. -/
def highest (es : List Notified) (i : ℕ) (p : ℤ) : Option ℕ :=
  es.foldl (fun old e => if e.writer = i then (e.flag.find? p).merge max old else old) none

/-- The trackers with what the first of them returned. -/
structure Tracking where
  tracker : NotifyTrackerReceiver
  emitted : List TaskNotifyFlag

def Tracking.step (s : Tracking) (e : Notified) : Tracking :=
  let (ret, tracker) := s.tracker.changed e.writer e.flag
  { tracker, emitted := s.emitted ++ ret.toList }

def Tracking.run (s : Tracking) (es : List Notified) : Tracking := es.foldl Tracking.step s

end Dingir
