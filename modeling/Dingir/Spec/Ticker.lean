import Dingir.Lib.Keyed
import Dingir.Spec.Types

/-!
# The ticker

`ticker` of `restapi/tradingview.rs` and the cache of a worker. A result is kept for its
market, and served again while the clock is within the update interval of the truncated
time it was computed for. The interval that is asked for is capped after that.

A worker holds the borrow of its cache to the end of a request, so the requests it
answers come one after the other. `Session` is a worker: its cache, and what it was asked
and replied. A `Moment` is what a request meets, the clock and the trades.

Times and spans are in nanoseconds. The libraries for dates and for floating point
numbers are the parameter `TickerEnv`.
-/

namespace Dingir

open Keyed

/-- A second. -/
def nanos : ℕ := 1000000000

/-- `config::Trading` -/
structure Trading where
  tickerUpdateInterval : ℕ
  tickerInterval : ℕ

/-- `Trading::default` -/
def Trading.default : Trading := ⟨5 * nanos, 86400 * nanos⟩

structure TickerItem where
  first : Option Decimal
  last : Option Decimal
  max : Option Decimal
  min : Option Decimal
  sum : Option Decimal
  quoteSum : Option Decimal

/-- The times are in seconds. -/
structure TickerResult (F : Type) where
  market : String
  change : F
  last : F
  high : F
  low : F
  volume : F
  quoteVolume : F
  fromTs : ℕ
  toTs : ℕ
  deriving DecidableEq

inductive TickerFailure
  | panic
  | error (message : String)
  deriving DecidableEq

/-- What `ticker` uses of `humantime`, `chrono` and floating point numbers `F`. -/
structure TickerEnv (F : Type) where
  parseDuration : String → Option ℕ
  /-- `chrono::Duration::from_std` -/
  fromStd : ℕ → Except TickerFailure ℤ
  durationTrunc : ℤ → ℤ → Except TickerFailure ℤ
  checkedSubSigned : ℤ → ℤ → Option ℤ
  checkedSub : Decimal → Decimal → Option Decimal
  checkedDiv : Decimal → Decimal → Option Decimal
  toF32 : Decimal → Option F
  /-- `0.0` -/
  zero : F
  /-- `9999.9` -/
  noChange : F

structure Moment where
  now : ℤ
  /-- the query of the trades of a market after a time -/
  fetchOne : String → ℤ → Except TickerFailure TickerItem

/-- `timestamp()` -/
def timestamp (t : ℤ) : ℤ := t / nanos

/-- `as u64` -/
def asU64 (x : ℤ) : ℕ := (x % 2 ^ 64).toNat

/-- The operators of `Duration` panic out of range. -/
def durationAdd (a b : ℕ) : Except TickerFailure ℕ :=
  if a + b < 2 ^ 64 * nanos then .ok (a + b) else .error .panic

def durationSub (a b : ℕ) : Except TickerFailure ℕ := if b ≤ a then .ok (a - b) else .error .panic

variable {F : Type}

/-- Whether a cached result up to `cachedTo` may still be served. -/
def cacheJudge (trading : Trading) (cachedTo : ℕ) (now : ℤ) : Except TickerFailure Bool := do
  let nowTsDur := asU64 (timestamp now) * nanos
  let cachedNow := cachedTo * nanos
  let upper ← durationAdd cachedNow trading.tickerUpdateInterval
  if nowTsDur < upper then
    let lower ← durationSub cachedNow trading.tickerUpdateInterval
    return lower < nowTsDur
  else return false

/-- The result the cache has for a market, when it may still be served. -/
def cachedTicker (trading : Trading) (cache : HashMap String (TickerResult F)) (now : ℤ)
    (marketName : String) : Except TickerFailure (Option (TickerResult F)) :=
  match cache.find? marketName with
  | none => .ok none
  | some cachedResp => do
    let valid ← cacheJudge trading cachedResp.toTs now
    return if valid then some cachedResp else none

def Trading.capped (trading : Trading) (tickerInv : ℕ) : ℕ :=
  if tickerInv > trading.tickerInterval then trading.tickerInterval else tickerInv

namespace TickerEnv

def change (T : TickerEnv F) (tickerRet : TickerItem) : F :=
  match tickerRet.last with
  | some lst =>
    (((tickerRet.first.bind fun fst => T.checkedSub lst fst).bind fun r1 =>
      T.checkedDiv r1 lst).bind T.toF32).getD T.noChange
  | none => T.zero

def figure (T : TickerEnv F) (value : Option Decimal) : F := (value.bind T.toF32).getD T.zero

/-- A result from the database, for an interval that is capped. -/
def queryTicker (T : TickerEnv F) (trading : Trading) (moment : Moment) (tickerInv : ℕ)
    (marketName : String) : Except TickerFailure (TickerResult F) := do
  let updateInv ← T.fromStd trading.tickerUpdateInterval
  let tickerInv ← T.fromStd tickerInv
  let nowTs ← T.durationTrunc moment.now updateInv
  let fromTs ← ((T.checkedSubSigned nowTs tickerInv).map .ok).getD
      (.error (.error "Internal clock error"))
  let tickerRet ← moment.fetchOne marketName fromTs
  return { market := marketName, change := T.change tickerRet, last := T.figure tickerRet.last,
           high := T.figure tickerRet.max, low := T.figure tickerRet.min,
           volume := T.figure tickerRet.sum,
           quoteVolume := T.figure tickerRet.quoteSum, fromTs := asU64 (timestamp fromTs),
           toTs := asU64 (timestamp nowTs) }

/-- `ticker`: the reply to a request for an interval and a market, and the cache after it. -/
def ticker (T : TickerEnv F) (trading : Trading) (cache : HashMap String (TickerResult F))
    (moment : Moment) (path : String × String) :
    Except TickerFailure (TickerResult F) × HashMap String (TickerResult F) :=
  match T.parseDuration path.1 with
  | none => (.error .panic, cache)
  | some tickerInv =>
    match cachedTicker trading cache moment.now path.2 with
    | .error e => (.error e, cache)
    | .ok (some cachedResp) => (.ok cachedResp, cache)
    | .ok none =>
      match T.queryTicker trading moment (trading.capped tickerInv) path.2 with
      | .error e => (.error e, cache)
      | .ok ret => (.ok ret, cache.insert path.2 ret)

/-- The reply without a cache. -/
def uncached (T : TickerEnv F) (trading : Trading) (moment : Moment) (path : String × String) :
    Except TickerFailure (TickerResult F) := (T.ticker trading ∅ moment path).1

end TickerEnv

/-! ## A worker -/

structure Visit (F : Type) where
  moment : Moment
  path : String × String
  reply : Except TickerFailure (TickerResult F)

structure Session (F : Type) where
  cache : HashMap String (TickerResult F)
  visits : List (Visit F)
  /-- Of each market, when and for which interval its cached result was computed. The code keeps
  neither. -/
  origins : HashMap String (Moment × String)

namespace Session

def new : Session F := ⟨∅, [], ∅⟩

/-- A request computed its result when the cache had none to serve. -/
def computes (trading : Trading) (s : Session F) (moment : Moment)
    (path : String × String) : Bool :=
  match cachedTicker trading s.cache moment.now path.2 with
  | .ok none => true
  | _ => false

def step (T : TickerEnv F) (trading : Trading) (s : Session F)
    (e : Moment × String × String) : Option (Session F) :=
  let (reply, cache) := T.ticker trading s.cache e.1 e.2
  some { cache, visits := s.visits ++ [⟨e.1, e.2, reply⟩],
         origins :=
           if reply.isOk && s.computes trading e.1 e.2 then s.origins.insert e.2.2 (e.1, e.2.1)
           else s.origins }

end Session

end Dingir
