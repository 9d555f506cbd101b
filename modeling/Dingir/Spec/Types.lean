import Dingir.Lib.Outcome
import Dingir.Lib.Rounding
import Dingir.Lib.Keyed
import Dingir.Lib.Heap

/-!
# Types of the match engine

The enumerations of `types/mod.rs`, the ways a run can stop, and the
environment `Env`: the build profile and the functions of libraries the engine
only calls (parsing and printing of decimals and of JSON). A `Decimal` is an
exact rational; `round_dp` is `Rounding.roundDp` and rounding `ToZero` is
`Rounding.truncDp`.

Two kinds of failure are kept apart. A *panic* stops the run (`Except Panic`);
an `Err` is a value the caller gets back (`Except String` for `anyhow`,
`Except Status` for `tonic`), together with the state the call left behind.
-/

namespace Dingir

abbrev Decimal := ℚ

/-- A clock reading in seconds. -/
abbrev Timestamp := ℚ

/-- A `Uuid` is 128 bits. -/
def Uuid : Type := Fin (2 ^ 128)

instance : LinearOrder Uuid := inferInstanceAs (LinearOrder (Fin (2 ^ 128)))

instance : Inhabited Uuid := inferInstanceAs (Inhabited (Fin (2 ^ 128)))

/-- The user with a small number as id. -/
def Uuid.ofNat (n : ℕ) : Uuid := Fin.ofNat (2 ^ 128) n

inductive BalanceType
  | available
  | freeze
  deriving DecidableEq, Inhabited

inductive BusinessType
  | deposit
  | trade
  | transfer
  | withdraw
  deriving DecidableEq

inductive OrderSide
  | ask
  | bid
  deriving DecidableEq, Inhabited

inductive OrderType
  | limit
  | market
  deriving DecidableEq, Inhabited

inductive OrderEventType
  | put
  | update
  | finish
  | expired
  deriving DecidableEq

inductive MarketRole
  | maker
  | taker
  deriving DecidableEq, Inhabited

/-- Where a run stops. -/
inductive Panic
  /-- an `unwrap` of an index lookup, or a `debug_assert!` on one -/
  | lookup
  /-- any other `debug_assert!` -/
  | debugAssert
  /-- `asset_prec` of an asset the manager does not know -/
  | assetPrec
  /-- the `unwrap` of a refused balance update in a settlement -/
  | settlement
  /-- a division by zero -/
  | divByZero
  /-- a string index into a JSON value that is neither an object nor null -/
  | detail
  /-- the `unwrap` of an asset id that is not a base-36 `u32` -/
  | innerId
  /-- the `unwrap` of a market that cannot be created -/
  | marketNew
  /-- the `unwrap` of a market name that is not in `markets` -/
  | marketName
  /-- the `unwrap` of a replayed operation that returned an error -/
  | replay
  deriving DecidableEq

/-- A `serde_json::Value`. No modelled function looks into an `other` (a bool, a
string, an array or another number), which keeps its text. -/
inductive Value
  | null
  | number (n : ℕ)
  | object (fields : List (String × Value))
  | other (text : String)

/-- A field of an object is overwritten, or added. -/
def Value.setField (key : String) (v : Value) : List (String × Value) → List (String × Value)
  | [] => [(key, v)]
  | (k, w) :: fs => if k = key then (k, v) :: fs else (k, w) :: Value.setField key v fs

/-- `value[key] = v`. Null becomes an object; anything else that is not an object panics. -/
def Value.indexAssign (key : String) (v : Value) : Value → Except Panic Value
  | .null => .ok (.object [(key, v)])
  | .object fs => .ok (.object (Value.setField key v fs))
  | _ => .error .detail

/-- The codes of `tonic::Status` the engine returns. -/
inductive Code
  | unavailable
  | invalidArgument
  | unknown
  | internal
  deriving DecidableEq

structure Status where
  code : Code
  message : String
  deriving DecidableEq

/-- What a run depends on besides the state: whether `debug_assert!` is compiled
in, and the library functions the engine calls on texts. -/
structure Env where
  debugAssertions : Bool
  /-- `Decimal::from_str` -/
  decimalFromStr : String → Option Decimal
  /-- `Decimal::to_string` -/
  decimalToString : Decimal → String
  /-- `serde_json::from_str` -/
  jsonFromStr : String → Option Value
  /-- `Value::to_string` -/
  jsonToString : Value → String
  /-- `Status::to_string` -/
  statusToString : Status → String

/-- `debug_assert!(b)`, failing with `p`. -/
def Env.debugAssert (E : Env) (p : Panic) (b : Prop) [Decidable b] : Except Panic Unit :=
  if E.debugAssertions && !decide b then .error p else .ok ()

/-- `unwrap` of an option, failing with `p`. -/
def unwrap {α : Type} (p : Panic) : Option α → Except Panic α
  | none => .error p
  | some a => .ok a

theorem unwrap_ok {α : Type} {p : Panic} {o : Option α} {a : α} :
    unwrap p o = .ok a ↔ o = some a := by
  cases o <;> simp [unwrap]

theorem unwrap_some {α : Type} (p : Panic) (a : α) : unwrap p (some a) = .ok a := rfl

/-- An assertion that holds does nothing, in every build. -/
theorem Env.debugAssert_of {E : Env} {p : Panic} {b : Prop} [Decidable b] (h : b) :
    E.debugAssert p b = .ok () := by simp [Env.debugAssert, h]

theorem Env.debugAssert_release {E : Env} (hE : E.debugAssertions = false) (p : Panic) (b : Prop)
    [Decidable b] : E.debugAssert p b = .ok () := by simp [Env.debugAssert, hE]

/-- An assertion fails with its own panic only. -/
theorem Env.debugAssert_error {E : Env} {p q : Panic} {b : Prop} [Decidable b]
    (h : E.debugAssert p b = .error q) : q = p := by
  unfold Env.debugAssert at h
  split at h
  · simpa [eq_comm] using h
  · simp at h

/-- The counters of `sequencer.rs`. `msg_id` is never drawn by the engine. -/
structure Sequencer where
  orderId : ℕ
  tradeId : ℕ
  msgId : ℕ
  operationLogId : ℕ
  deriving DecidableEq, Inhabited

namespace Sequencer

def reset (_ : Sequencer) : Sequencer := ⟨0, 0, 0, 0⟩

def nextOrderId (s : Sequencer) : ℕ × Sequencer :=
  (s.orderId + 1, { s with orderId := s.orderId + 1 })

def nextTradeId (s : Sequencer) : ℕ × Sequencer :=
  (s.tradeId + 1, { s with tradeId := s.tradeId + 1 })

def nextOperationLogId (s : Sequencer) : ℕ × Sequencer :=
  (s.operationLogId + 1, { s with operationLogId := s.operationLogId + 1 })

def setOrderId (s : Sequencer) (id : ℕ) : Sequencer := { s with orderId := id }

def setTradeId (s : Sequencer) (id : ℕ) : Sequencer := { s with tradeId := id }

def setOperationLogId (s : Sequencer) (id : ℕ) : Sequencer := { s with operationLogId := id }

end Sequencer

end Dingir
