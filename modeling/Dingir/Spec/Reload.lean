import Dingir.Spec.Run
import Dingir.Lib.Guarded

/-!
# Assets and markets from the database

`storage/config.rs` and `market_reload`: the rows of the tables `asset` and `market`
that are newer than a high-water mark are appended to the assets and the markets of
a controller, at the start (`init_config_from_db`) or later. Both queries select by
the mark of the markets. A mark advances with every row that is read, also when the
query then fails, and whether or not the row can be used.

`Operated` are the states of a controller under calls, reloads, resets and
recoveries, whatever the tables hold. `Setup` is the controller beside the two
tables, with rows coming in while it runs, also between the two queries of a reload.
-/

namespace Dingir

open Keyed

/-- A row of the table `asset`. -/
structure AssetDesc where
  id : String
  symbol : String
  name : String
  precisionStor : ℕ
  precisionShow : ℕ
  createTime : Option Timestamp
  deriving DecidableEq

/-- A row of the table `market`. -/
structure MarketDesc where
  createTime : Option Timestamp
  baseAsset : String
  quoteAsset : String
  precisionAmount : ℕ
  precisionPrice : ℕ
  precisionFee : ℕ
  minAmount : Decimal
  marketName : Option String
  deriving DecidableEq

/-- `From<AssetDesc> for config::Asset` -/
def AssetConf.fromDesc (origin : AssetDesc) : AssetConf :=
  { id := origin.id, symbol := origin.symbol, name := origin.name, precShow := origin.precisionShow,
    precSave := origin.precisionStor }

/-- `From<MarketDesc> for config::Market` -/
def MarketConf.fromDesc (origin : MarketDesc) : MarketConf :=
  { base := origin.baseAsset, quote := origin.quoteAsset, pricePrec := origin.precisionPrice,
    amountPrec := origin.precisionAmount, feePrec := origin.precisionFee,
    name := origin.marketName.getD (origin.baseAsset ++ "_" ++ origin.quoteAsset),
    minAmount := origin.minAmount }

/-! ## The load times -/

structure MarketConfigs where
  assetsLoadTime : Timestamp
  marketLoadTime : Timestamp
  deriving DecidableEq

/-- `create_time > $1`, which NULL does not meet. -/
def newerThan (loadTime : Timestamp) : Option Timestamp → Bool
  | none => false
  | some t => loadTime < t

/-- A load time after a row. -/
def advance (loadTime : Timestamp) (createTime : Option Timestamp) : Timestamp :=
  (createTime.bind fun t => if loadTime < t then some t else none).getD loadTime

/-- What a query gives: its rows, and the error that ended it, if one did. -/
structure Fetch (α : Type) where
  rows : List α
  error : Option String

/-- The rows are those selected, in any order; before an error, some of them. -/
def Fetch.Of {α : Type} (fetch : Fetch α) (selected : List α) : Prop :=
  if fetch.error.isNone then fetch.rows.Perm selected else fetch.rows.Subperm selected

instance {α : Type} [DecidableEq α] (fetch : Fetch α) (selected : List α) :
    Decidable (fetch.Of selected) := by
  unfold Fetch.Of
  infer_instance

/-- The rows as configurations, unless the query failed. -/
def Fetch.into {α β : Type} (fetch : Fetch α) (f : α → β) : Except String (List β) :=
  match fetch.error with
  | some e => .error e
  | none => .ok (fetch.rows.map f)

namespace MarketConfigs

def new : MarketConfigs := ⟨0, 0⟩

def resetLoadTime (_ : MarketConfigs) : MarketConfigs := ⟨0, 0⟩

/-- The query of `load_asset_from_db` binds the load time of the markets. -/
def selectAssets (cfg : MarketConfigs) (table : List AssetDesc) : List AssetDesc :=
  table.filter fun row => newerThan cfg.marketLoadTime row.createTime

def selectMarkets (cfg : MarketConfigs) (table : List MarketDesc) : List MarketDesc :=
  table.filter fun row => newerThan cfg.marketLoadTime row.createTime

def loadAssetFromDb (cfg : MarketConfigs) (fetch : Fetch AssetDesc) :
    Except String (List AssetConf) × MarketConfigs :=
  (fetch.into AssetConf.fromDesc,
    { cfg with
      assetsLoadTime := (fetch.rows.map AssetDesc.createTime).foldl advance cfg.assetsLoadTime })

def loadMarketFromDb (cfg : MarketConfigs) (fetch : Fetch MarketDesc) :
    Except String (List MarketConf) × MarketConfigs :=
  (fetch.into MarketConf.fromDesc,
    { cfg with
      marketLoadTime := (fetch.rows.map MarketDesc.createTime).foldl advance cfg.marketLoadTime })

end MarketConfigs

/-- `init_config_from_db` -/
def initConfigFromDb (config : Settings) (assets : Fetch AssetDesc) (markets : Fetch MarketDesc) :
    Except String (Settings × MarketConfigs) := do
  let (res, cfg) := MarketConfigs.new.loadAssetFromDb assets
  let newAssets ← res
  let (res, cfg) := cfg.loadMarketFromDb markets
  let newMarkets ← res
  return ({ config with assets := newAssets, markets := newMarkets }, cfg)

/-! ## `market_reload` -/

def internal (message : String) : Status := ⟨.internal, message⟩

/-- A controller with its `market_load_cfg`. -/
structure Configured where
  controller : Controller
  marketLoadCfg : MarketConfigs

/-- The assets of the balance manager are replaced. -/
def Controller.withAssets (c : Controller) (am : AssetManager) : Controller :=
  { c with balanceManager := { c.balanceManager with assetManager := am } }

/-- One new market. A market whose name is taken, or that cannot be created, is only logged. -/
def Controller.addMarket (c : Controller) (entry : MarketConf) : Except Panic Controller := do
  if (c.markets.find? entry.name).isSome then return c
  match ← Market.new entry c.settings c.balanceManager with
  | .error _ => return c
  | .ok market =>
    return { c with markets := c.markets.insert entry.name market,
                    assetMarketNames := c.assetMarketNames.insert (entry.base, entry.quote) entry.name }

namespace Configured

/-- The first query of `market_reload`, and what is done with its rows. -/
def loadAssets (s : Configured) (fetch : Fetch AssetDesc) :
    Except Panic (Except Status Unit × Configured) := do
  let (res, cfg) := s.marketLoadCfg.loadAssetFromDb fetch
  match res with
  | .error e => return (.error (internal e), { s with marketLoadCfg := cfg })
  | .ok newAssets =>
    let am ← s.controller.balanceManager.assetManager.append newAssets
    return (.ok (), ⟨s.controller.withAssets am, cfg⟩)

/-- The second query of `market_reload`, and what is done with its rows. -/
def loadMarkets (s : Configured) (fetch : Fetch MarketDesc) :
    Except Panic (Except Status Unit × Configured) := do
  let (res, cfg) := s.marketLoadCfg.loadMarketFromDb fetch
  match res with
  | .error e => return (.error (internal e), { s with marketLoadCfg := cfg })
  | .ok newMarkets =>
    let controller ← newMarkets.foldlM Controller.addMarket s.controller
    return (.ok (), ⟨controller, cfg⟩)

def marketReload (s : Configured) (fromScratch : Bool) (assets : Fetch AssetDesc)
    (markets : Fetch MarketDesc) : Except Panic (Except Status Unit × Configured) := do
  let s := if fromScratch then { s with marketLoadCfg := s.marketLoadCfg.resetLoadTime } else s
  let (res, s) ← s.loadAssets assets
  match res with
  | .error status => return (.error status, s)
  | .ok () => s.loadMarkets markets

end Configured

/-- **The states of an engine in operation**: calls, reloads of the markets, resets, and, where they
are allowed, recoveries from a database of any content. Every reload of assets meets `P`. -/
inductive Operated (E : Env) (settings : Settings) (P : Controller → Fetch AssetDesc → Prop)
    (recovers : Prop) : Controller → Prop
  | init {c : Controller} : createController settings = .ok c → Operated E settings P recovers c
  | call {c c' : Controller} {q : Request} {reply : Except Status Response} :
      Operated E settings P recovers c → c.call E q = .ok (reply, c') →
      Operated E settings P recovers c'
  | reload {c c' : Controller} {cfg cfg' : MarketConfigs} {fromScratch : Bool}
      {assets : Fetch AssetDesc}
      {markets : Fetch MarketDesc} {res : Except Status Unit} : Operated E settings P recovers c →
      P c assets →
      (Configured.mk c cfg).marketReload fromScratch assets markets = .ok (res, ⟨c', cfg'⟩) →
      Operated E settings P recovers c'
  | reset {c : Controller} : Operated E settings P recovers c →
      Operated E settings P recovers c.resetState
  | recover {c c' : Controller} {now : Timestamp} {slice : Option Slice} {log : List OperationLog} :
      recovers →
      Operated E settings P recovers c → c.initFromDb E now slice log = .ok c' →
      Operated E settings P recovers c'

/-! ## The controller beside the tables -/

/-- A controller, the tables it loads from, and the clock of the database. -/
structure Setup extends Configured where
  assetTable : List AssetDesc
  marketTable : List MarketDesc
  clock : Timestamp
  /-- between the two queries of a `market_reload` -/
  reloading : Bool
  /-- the names of the markets of the configuration file -/
  fileMarkets : List String

inductive SetupAction
  | tick (clock : Timestamp)
  | insertAsset (row : AssetDesc)
  | insertMarket (row : MarketDesc)
  | call (q : Request)
  /-- `market_reload(false)` up to its second query -/
  | loadAssets (fetch : Fetch AssetDesc)
  /-- the rest of it -/
  | loadMarkets (fetch : Fetch MarketDesc)

namespace Setup

/-- The unique indexes of the table `market`. -/
def nameFree (table : List MarketDesc) (row : MarketDesc) : Bool :=
  match row.marketName with
  | some name => table.all fun r => r.marketName ≠ some name
  | none => table.all fun r =>
    !(r.marketName = none && r.baseAsset = row.baseAsset && r.quoteAsset = row.quoteAsset)

/-- The `REFERENCES` of the table `market`. -/
def refersTo (table : List AssetDesc) (row : MarketDesc) : Bool :=
  (table.any fun r => r.id = row.baseAsset) && table.any fun r => r.id = row.quoteAsset

/-- The state when a computation returned. -/
def returned {α : Type} : Except Panic α → Option α
  | .error _ => none
  | .ok a => some a

/-- One step. The database sets `create_time` to its clock; a reload takes its two queries one after
the other, and no call comes between them. -/
def step (E : Env) (s : Setup) : SetupAction → Option Setup
  | .tick clock => if s.clock ≤ clock then some { s with clock } else none
  | .insertAsset row =>
    if s.assetTable.all fun r => r.id ≠ row.id then
      some { s with assetTable := s.assetTable ++ [{ row with createTime := some s.clock }] }
    else none
  | .insertMarket row =>
    if nameFree s.marketTable row && refersTo s.assetTable row then
      some { s with marketTable := s.marketTable ++ [{ row with createTime := some s.clock }] }
    else none
  | .call q =>
    if s.reloading then none
    else (returned (s.controller.call E q)).map fun t => { s with controller := t.2 }
  | .loadAssets fetch =>
    if ¬ s.reloading ∧ fetch.Of (s.marketLoadCfg.selectAssets s.assetTable) then
      (returned (s.toConfigured.loadAssets fetch)).map fun t =>
        { s with toConfigured := t.2, reloading := fetch.error.isNone }
    else none
  | .loadMarkets fetch =>
    if s.reloading ∧ fetch.Of (s.marketLoadCfg.selectMarkets s.marketTable) then
      (returned (s.toConfigured.loadMarkets fetch)).map fun t =>
        { s with toConfigured := t.2, reloading := false }
    else none

/-- The tables are as their constraints demand, with times up to `clock`, and a market is not older
than its assets. -/
structure TablesOK (assets : List AssetDesc) (markets : List MarketDesc)
    (clock : Timestamp) : Prop where
  assetIds : (assets.map AssetDesc.id).Nodup
  assetTime : ∀ row ∈ assets, ∃ t, row.createTime = some t ∧ 0 < t ∧ t ≤ clock
  marketTime : ∀ row ∈ markets, ∃ t, row.createTime = some t ∧ 0 < t ∧ t ≤ clock
  refers : ∀ row ∈ markets, ∀ id ∈ [row.baseAsset, row.quoteAsset], ∃ a ∈ assets, a.id = id ∧
    ∀ s t, a.createTime = some s → row.createTime = some t → s ≤ t

/-- A setup to begin with: a controller made from the configuration file, or one made from the
tables, where rows may have come in between the two queries. -/
inductive Start (settings : Settings) : Setup → Prop
  | fromFile {c : Controller} {assets : List AssetDesc} {markets : List MarketDesc}
      {clock : Timestamp} : createController settings = .ok c → TablesOK assets markets clock →
      Start settings { controller := c, marketLoadCfg := .new, assetTable := assets,
                       marketTable := markets, clock,
                       reloading := false, fileMarkets := settings.markets.map MarketConf.name }
  | fromDb {c : Controller} {cfg : MarketConfigs} {config : Settings} {old assets : List AssetDesc}
      {markets : List MarketDesc} {assetFetch : Fetch AssetDesc} {marketFetch : Fetch MarketDesc}
        {clock : Timestamp} :
      (∀ row ∈ old, row ∈ assets) → TablesOK assets markets clock →
      assetFetch.Of (MarketConfigs.new.selectAssets old) →
      marketFetch.Of (MarketConfigs.new.selectMarkets markets) →
      initConfigFromDb settings assetFetch marketFetch = .ok (config, cfg) →
      createController config = .ok c →
      Start settings { controller := c, marketLoadCfg := cfg, assetTable := assets,
                       marketTable := markets, clock,
                       reloading := false, fileMarkets := [] }

end Setup

end Dingir
