import Dingir.Spec.Asset
import Dingir.Spec.Order

/-!
# Balance updates and their duplicate filter

`update_controller.rs`. A balance update is refused when its key is in a
`TtlCache`: the cache forgets an entry after its time to live and drops the
oldest entry when it holds more than its capacity. A refused update returns an
`Err` before anything is changed.
-/

namespace Dingir

/-- `TtlCache`: keys with their expiration, the oldest entry first. -/
structure TtlCache (K : Type) where
  capacity : ℕ
  entries : List (K × Timestamp)

namespace TtlCache

variable {K : Type} [DecidableEq K]

def new (capacity : ℕ) : TtlCache K := ⟨capacity, []⟩

def clear (c : TtlCache K) : TtlCache K := { c with entries := [] }

/-- The key is held and not expired. -/
def containsKey (c : TtlCache K) (now : Timestamp) (k : K) : Bool :=
  c.entries.any fun e => e.1 = k && now ≤ e.2

/-- A key becomes the newest entry; the oldest one goes when there are too many. -/
def insert (c : TtlCache K) (now : Timestamp) (k : K) (ttl : Timestamp) : TtlCache K :=
  let entries := c.entries.filter (fun e => e.1 ≠ k) ++ [(k, now + ttl)]
  { c with entries := if c.capacity < entries.length then entries.drop 1 else entries }

end TtlCache

structure BalanceUpdateKey where
  balanceType : BalanceType
  businessType : BusinessType
  userId : Uuid
  asset : String
  business : String
  businessId : ℕ
  deriving DecidableEq

structure BalanceUpdateParams where
  balanceType : BalanceType
  businessType : BusinessType
  userId : Uuid
  businessId : ℕ
  asset : String
  business : String
  marketPrice : Decimal
  change : Decimal
  detail : Value

def BalanceUpdateParams.key (p : BalanceUpdateParams) : BalanceUpdateKey :=
  { balanceType := p.balanceType, businessType := p.businessType, userId := p.userId,
    asset := p.asset, business := p.business, businessId := p.businessId }

structure BalanceUpdateController where
  cache : TtlCache BalanceUpdateKey

namespace BalanceUpdateController

def new : BalanceUpdateController := ⟨TtlCache.new 1000000⟩

def reset (uc : BalanceUpdateController) : BalanceUpdateController := ⟨uc.cache.clear⟩

end BalanceUpdateController

/-- How long an entry of the filter lives, in seconds. -/
def filterTtl : Timestamp := 3600

/-- What the methods of a market borrow from the controller, and change. -/
structure Ctx where
  sequencer : Sequencer
  balanceManager : BalanceManager
  updateController : BalanceUpdateController
  persistor : PersistExector

/-- The change itself: an addition, or a subtraction that the old balance covers. -/
def applyChange (E : Env) (bm : BalanceManager) (p : BalanceUpdateParams) :
    Except Panic (Except String BalanceManager) := do
  let oldBalance := bm.get p.userId p.balanceType p.asset
  let absChange := |p.change|
  if 0 ≤ p.change then
    let (_, bm) ← bm.add E p.userId p.balanceType p.asset absChange
    return .ok bm
  else if oldBalance < absChange then
    return .error "balance not enough"
  else
    let (_, bm) ← bm.sub E p.userId p.balanceType p.asset absChange
    return .ok bm

/-- The messages of an update that has been applied. -/
def persistUpdate (E : Env) (now : Timestamp) (bm : BalanceManager) (persistor : PersistExector)
    (p : BalanceUpdateParams) : Except Panic PersistExector := do
  if persistor.realPersist && p.change ≠ 0 then
    let detail ← Value.indexAssign "id" (.number p.businessId) p.detail
    let balanceAvailable := bm.get p.userId .available p.asset
    let balanceFrozen := bm.get p.userId .freeze p.asset
    let history : BalanceHistory :=
      { time := now, userId := p.userId, businessId := p.businessId, asset := p.asset,
        business := p.business, marketPrice := p.marketPrice, change := p.change,
        balance := balanceAvailable + balanceFrozen, balanceAvailable, balanceFrozen,
        detail := E.jsonToString detail }
    let persistor := persistor.putBalance history
    match p.businessType with
    | .deposit => return persistor.putDeposit history
    | .withdraw => return persistor.putWithdraw history
    | _ => return persistor
  else
    return persistor

/-- `update_user_balance`. -/
def updateUserBalance (E : Env) (now : Timestamp) (x : Ctx) (p : BalanceUpdateParams) :
    Except Panic (Except String Unit × Ctx) := do
  if x.updateController.cache.containsKey now p.key then
    return (.error "duplicate request", x)
  match ← applyChange E x.balanceManager p with
  | .error e => return (.error e, x)
  | .ok bm =>
    let uc := ⟨x.updateController.cache.insert now p.key filterTtl⟩
    let persistor ← persistUpdate E now bm x.persistor p
    return (.ok (), { x with balanceManager := bm, updateController := uc, persistor })

end Dingir
