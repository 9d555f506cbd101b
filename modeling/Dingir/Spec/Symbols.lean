import Dingir.Spec.Reload

/-!
# The symbols of the chart

`restapi/tradingview.rs`: how a search names the markets, and how a name is resolved
again. A market is named by its `market_name`, or by its assets when it has none. The
text that comes back loses what precedes its first `:`, is tried as a pair of assets in
either order, and then as a `market_name`.

No query orders its rows: what `symbols` answers with is any of the rows it may fetch.
-/

namespace Dingir

def defaultExchange : String := "test"

def symbology (origin : MarketDesc) : String × String :=
  let sName := origin.baseAsset ++ "_" ++ origin.quoteAsset
  (origin.marketName.getD sName,
    (origin.marketName.map fun n => n ++ "(" ++ sName ++ ")").getD sName)

/-- What a search returns of a market. -/
structure SymbolDesc where
  symbol : String
  fullName : String
  ticker : String
  deriving DecidableEq

/-- `From<MarketDesc> for SymbolDesc` -/
def SymbolDesc.fromDesc (origin : MarketDesc) : SymbolDesc :=
  { symbol := (symbology origin).1, fullName := defaultExchange ++ ":" ++ (symbology origin).2,
    ticker := (symbology origin).1 }

def resolveCanionicalSymbol (symbol : String) : Option String × String :=
  match symbol.toList.findIdx? (· == ':') with
  | some pos => (some (String.ofList (symbol.toList.take pos)),
      String.ofList (symbol.toList.drop (pos + 1)))
  | none => (none, symbol)

/-- The characters a pair of assets is split at. -/
def isSeparator (c : Char) : Bool := c == '-' || c == '_'

/-- `split(&['-', '_'][..])` -/
def splitAsset (symbol : String) : List String :=
  (symbol.toList.splitOnP isSeparator).map String.ofList

/-- The row is of the two assets, in either order. -/
def MarketDesc.isPair (row : MarketDesc) (asset asset' : String) : Bool :=
  (row.baseAsset == asset && row.quoteAsset == asset') ||
    (row.baseAsset == asset' && row.quoteAsset == asset)

/-- The rows of the query by assets, which is made for two pieces only. -/
def queryPair (table : List MarketDesc) (asAsset : List String) : List MarketDesc :=
  match asAsset with
  | [asset, asset'] => table.filter fun row => row.isPair asset asset'
  | _ => []

def queryName (table : List MarketDesc) (name : String) : List MarketDesc :=
  table.filter fun row => row.marketName == some name

/-- The rows `symbols` may answer with; it fails when there are none. -/
def symbols (table : List MarketDesc) (symbol : String) : List MarketDesc :=
  let rsymbol := (resolveCanionicalSymbol symbol).2
  let queriedMarket := queryPair table (splitAsset rsymbol)
  -- the second query binds the text as it came, not `rsymbol`
  if queriedMarket = [] then queryName table symbol else queriedMarket

/-- The unique indexes of the table `market`. -/
structure UniqueMarkets (table : List MarketDesc) : Prop where
  name : table.Pairwise fun row row' => row.marketName = none ∨ row.marketName ≠ row'.marketName
  pair : table.Pairwise fun row row' => row.marketName = none → row'.marketName = none →
    ¬ (row.baseAsset = row'.baseAsset ∧ row.quoteAsset = row'.quoteAsset)

instance (table : List MarketDesc) : Decidable (UniqueMarkets table) :=
  decidable_of_iff (_ ∧ _) ⟨fun h => ⟨h.1, h.2⟩, fun h => ⟨h.name, h.pair⟩⟩

end Dingir
