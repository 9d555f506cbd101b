import Dingir.Spec.Types

/-!
# Assets and balances

`asset_manager.rs` and `balance_manager.rs`. Every amount the balance manager
takes is rounded to the asset's `prec_save`, and every balance it stores is
rounded again. The signs of amounts and results are only checked by
`debug_assert!`.
-/

namespace Dingir

open Keyed Rounding

structure AssetInfo where
  precSave : ℕ
  precShow : ℕ
  innerId : ℕ
  deriving DecidableEq, Inhabited

/-- `config::Asset`, with its `serde` defaults. -/
structure AssetConf where
  id : String
  precSave : ℕ
  precShow : ℕ
  symbol : String := ""
  name : String := ""

structure AssetManager where
  assets : HashMap String AssetInfo

/-- The value of a base-36 digit. -/
def digit36 (c : Char) : Option ℕ :=
  if '0' ≤ c ∧ c ≤ '9' then some (c.toNat - '0'.toNat)
  else if 'a' ≤ c ∧ c ≤ 'z' then some (c.toNat - 'a'.toNat + 10)
  else if 'A' ≤ c ∧ c ≤ 'Z' then some (c.toNat - 'A'.toNat + 10)
  else none

/-- The digits of a base-36 number, most significant first; `none` at a foreign
character and as soon as the value leaves 32 bits. -/
def digits36 : List Char → ℕ → Option ℕ
  | [], n => some n
  | c :: cs, n =>
    match digit36 c with
    | none => none
    | some d => if n * 36 + d < 2 ^ 32 then digits36 cs (n * 36 + d) else none

/-- `u32::from_str_radix(_, 36)`. A leading `+` is allowed before at least one digit. -/
def fromStrRadix36 (s : String) : Option ℕ :=
  match s.toList with
  | [] => none
  | ['+'] => none
  | '+' :: cs => digits36 cs 0
  | cs => digits36 cs 0

namespace AssetManager

/-- One asset of `new` or `append`: a known id is overwritten. -/
def insertAsset (assets : HashMap String AssetInfo) (item : AssetConf) :
    Except Panic (HashMap String AssetInfo) := do
  let innerId ← unwrap .innerId (fromStrRadix36 item.id)
  return assets.insert item.id { precSave := item.precSave, precShow := item.precShow, innerId }

def new (assetConfig : List AssetConf) : Except Panic AssetManager := do
  let assets ← assetConfig.foldlM insertAsset ∅
  return { assets }

def append (am : AssetManager) (assetConfig : List AssetConf) : Except Panic AssetManager := do
  let assets ← assetConfig.foldlM insertAsset am.assets
  return { assets }

def assetGet (am : AssetManager) (id : String) : Option AssetInfo := am.assets.find? id

def assetExist (am : AssetManager) (id : String) : Bool := (am.assets.find? id).isSome

def assetPrec (am : AssetManager) (id : String) : Except Panic ℕ := do
  return (← unwrap .assetPrec (am.assetGet id)).precSave

def assetPrecShow (am : AssetManager) (id : String) : Except Panic ℕ := do
  return (← unwrap .assetPrec (am.assetGet id)).precShow

end AssetManager

structure BalanceMapKey where
  userId : Uuid
  balanceType : BalanceType
  asset : String
  deriving DecidableEq

structure BalanceManager where
  assetManager : AssetManager
  balances : HashMap BalanceMapKey Decimal

namespace BalanceManager

def new (assetConfig : List AssetConf) : Except Panic BalanceManager := do
  let assetManager ← AssetManager.new assetConfig
  return { assetManager, balances := ∅ }

def reset (bm : BalanceManager) : BalanceManager := { bm with balances := ∅ }

def getByKey (bm : BalanceManager) (key : BalanceMapKey) : Decimal := (bm.balances.find? key).getD 0

def get (bm : BalanceManager) (userId : Uuid) (balanceType : BalanceType)
    (asset : String) : Decimal :=
  bm.getByKey ⟨userId, balanceType, asset⟩

/-- A balance as it is shown. -/
def getWithRound (bm : BalanceManager) (userId : Uuid) (balanceType : BalanceType)
    (asset : String) : Except Panic Decimal := do
  let balance := bm.get userId balanceType asset
  let precSave ← bm.assetManager.assetPrec asset
  let precShow ← bm.assetManager.assetPrecShow asset
  return if precSave = precShow then balance else roundDp balance precShow

def setByKey (E : Env) (bm : BalanceManager) (key : BalanceMapKey) (amount : Decimal) :
    Except Panic BalanceManager := do
  E.debugAssert .debugAssert (0 ≤ amount)
  let prec ← bm.assetManager.assetPrec key.asset
  return { bm with balances := bm.balances.insert key (roundDp amount prec) }

def set (E : Env) (bm : BalanceManager) (userId : Uuid) (balanceType : BalanceType) (asset : String)
    (amount : Decimal) : Except Panic BalanceManager :=
  bm.setByKey E ⟨userId, balanceType, asset⟩ amount

/-- Adds to a balance; also returns the new value before it was rounded for storing. -/
def add (E : Env) (bm : BalanceManager) (userId : Uuid) (balanceType : BalanceType) (asset : String)
    (amount : Decimal) : Except Panic (Decimal × BalanceManager) := do
  E.debugAssert .debugAssert (0 ≤ amount)
  let prec ← bm.assetManager.assetPrec asset
  let key : BalanceMapKey := ⟨userId, balanceType, asset⟩
  let newValue := bm.getByKey key + roundDp amount prec
  let bm ← bm.setByKey E key newValue
  return (newValue, bm)

def sub (E : Env) (bm : BalanceManager) (userId : Uuid) (balanceType : BalanceType) (asset : String)
    (amount : Decimal) : Except Panic (Decimal × BalanceManager) := do
  E.debugAssert .debugAssert (0 ≤ amount)
  let prec ← bm.assetManager.assetPrec asset
  let key : BalanceMapKey := ⟨userId, balanceType, asset⟩
  let oldValue := bm.getByKey key
  E.debugAssert .debugAssert (roundDp amount prec ≤ oldValue)
  let newValue := oldValue - roundDp amount prec
  E.debugAssert .debugAssert (0 ≤ newValue)
  let bm ← bm.setByKey E key newValue
  return (newValue, bm)

/-- `AVAILABLE` to `FREEZE`. -/
def frozen (E : Env) (bm : BalanceManager) (userId : Uuid) (asset : String) (amount : Decimal) :
    Except Panic BalanceManager := do
  E.debugAssert .debugAssert (0 ≤ amount)
  let prec ← bm.assetManager.assetPrec asset
  let amount := roundDp amount prec
  E.debugAssert .debugAssert (amount ≤ bm.getByKey ⟨userId, .available, asset⟩)
  let (_, bm) ← bm.sub E userId .available asset amount
  let (_, bm) ← bm.add E userId .freeze asset amount
  return bm

/-- `FREEZE` to `AVAILABLE`. -/
def unfrozen (E : Env) (bm : BalanceManager) (userId : Uuid) (asset : String) (amount : Decimal) :
    Except Panic BalanceManager := do
  E.debugAssert .debugAssert (0 ≤ amount)
  let prec ← bm.assetManager.assetPrec asset
  let amount := roundDp amount prec
  E.debugAssert .debugAssert (amount ≤ bm.getByKey ⟨userId, .freeze, asset⟩)
  let (_, bm) ← bm.add E userId .available asset amount
  let (_, bm) ← bm.sub E userId .freeze asset amount
  return bm

/-- `AVAILABLE` plus `FREEZE` of one user. -/
def total (bm : BalanceManager) (userId : Uuid) (asset : String) : Decimal :=
  bm.get userId .available asset + bm.get userId .freeze asset

/-- The `total` of `status`: all balances of an asset, over all users. -/
def statusTotal (bm : BalanceManager) (asset : String) : Decimal :=
  hashTally (fun key amount => if key.asset = asset then amount else 0) bm.balances

end BalanceManager

end Dingir
