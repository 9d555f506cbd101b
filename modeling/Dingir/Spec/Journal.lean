import Dingir.Lib.Stream
import Dingir.Spec.Run

/-!
# The journal of the balances

The records `update_user_balance` passes to `put_balance`, for one user and one
asset. A record says by how much it changed the balance, what the balance is
after it, and how much of that is `AVAILABLE` and how much is frozen. The
journal *adds up* to a balance when each record carries the balance of the one
before it on by its own change, the first from nothing, and the last one ends at
that balance.
-/

namespace Dingir

open Stream

/-- A record is admitted by the balance it changes, and leaves the balance it states. -/
def journalRules : Rules Decimal BalanceHistory where
  apply _ record := record.balance
  admits before record := record.balance = before + record.change ∧
    record.balance = record.balanceAvailable + record.balanceFrozen

instance (before : Decimal) (record : BalanceHistory) :
    Decidable (journalRules.admits before record) :=
  inferInstanceAs (Decidable (_ ∧ _))

/-- The records of a user and an asset among some messages, in order. -/
def journalOf (u : Uuid) (a : String) (ms : List Message) : List BalanceHistory :=
  ms.filterMap fun
    | .balanceMessage record => if record.userId = u ∧ record.asset = a then some record else none
    | _ => none

/-- The records carry the balance `before` on to `held`. -/
def AddsUp (before : Decimal) (records : List BalanceHistory) (held : Decimal) : Prop :=
  Coherent journalRules before records ∧ after journalRules before records = held

instance (before held : Decimal) (records : List BalanceHistory) :
    Decidable (AddsUp before records held) :=
  inferInstanceAs (Decidable (_ ∧ _))

/-- **A journal that is complete**: its records carry the balance on from nothing, each splits the
balance into what is `AVAILABLE` and what is frozen, and the last one is at the balance that is
held. -/
structure FullJournal (records : List BalanceHistory) (held : Decimal) : Prop where
  first : ∀ record ∈ records.head?, record.balance = record.change
  next : records.IsChain fun record record' => record'.balance = record.balance + record'.change
  split : ∀ record ∈ records, record.balance = record.balanceAvailable + record.balanceFrozen
  last : (records.getLast?.map BalanceHistory.balance).getD 0 = held

namespace Controller

/-- The journal a controller has handed to the persistor. -/
def journal (c : Controller) (u : Uuid) (a : String) : List BalanceHistory :=
  journalOf u a c.persistor

/-- A balance update is turned down before it changes a balance: the service is not available, its
key is in the filter, or it takes more than there is. -/
def TurnsDown (c : Controller) (q : Request) (p : BalanceUpdateParams) : Prop :=
  q.available = false ∨ c.updateController.cache.containsKey q.now p.key = true ∨
    p.change < 0 ∧ c.balanceManager.get p.userId p.balanceType p.asset < |p.change|

/-- An update of the balance of `u` in `a` is turned down, or has no more digits than the asset is
saved with. -/
def Exact (E : Env) (u : Uuid) (a : String) (c : Controller) (q : Request) : Prop :=
  ∀ req precShow precSave change detail, q.operation = .balanceUpdate req → q.user = u →
    req.asset = a →
    c.balanceManager.assetManager.assetPrecShow a = .ok precShow →
    parseUpdate E precShow req = .ok (change, detail) →
    c.balanceManager.assetManager.assetPrec a = .ok precSave →
    ¬ c.TurnsDown q (updateParams req u 0 change detail) →
    Rounding.roundDp |change| precSave = |change|

end Controller

end Dingir
