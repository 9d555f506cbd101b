import Dingir.Spec.Run

/-!
# A small exchange

An environment with the texts of decimals written out, and an exchange with two
assets and one market: the inputs of the concrete runs beside the theorems.
-/

namespace Dingir

/-! ## Decimals as text -/

def decimalDigit (c : Char) : Option ℕ :=
  if '0' ≤ c ∧ c ≤ '9' then some (c.toNat - '0'.toNat) else none

/-- The number behind a row of decimal digits. -/
def decimalDigits : List Char → ℕ → Option ℕ
  | [], n => some n
  | c :: cs, n => (decimalDigit c).bind fun d => decimalDigits cs (n * 10 + d)

/-- An unsigned decimal: digits, a point, digits. -/
def unsignedDecimal (cs : List Char) : Option Decimal :=
  let whole := cs.takeWhile (· ≠ '.')
  let fraction := (cs.dropWhile (· ≠ '.')).drop 1
  if whole.isEmpty && fraction.isEmpty then none
  else (decimalDigits (whole ++ fraction) 0).map fun n => (n : ℚ) / 10 ^ fraction.length

/-- A decimal with its sign. -/
def readDecimal (s : String) : Option Decimal :=
  match s.toList with
  | '-' :: cs => (unsignedDecimal cs).map (-·)
  | '+' :: cs => unsignedDecimal cs
  | cs => unsignedDecimal cs

/-- A decimal with up to eighteen digits after the point. -/
def showDecimal (x : Decimal) : String :=
  let n := Rounding.trunc (|x| * 10 ^ 18)
  (if x < 0 then "-" else "") ++ toString (n / 10 ^ 18) ++ "." ++
    String.ofList ((toString (10 ^ 18 + n % 10 ^ 18)).toList.drop 1)

/-- The JSON text of the values the engine writes. -/
def showValue : Value → String
  | .null => "null"
  | .number n => toString n
  | .object fields => "\x7b" ++ ",".intercalate (showFields fields) ++ "\x7d"
  | .other text => text
where
  showFields : List (String × Value) → List String
    | [] => []
    | (k, v) :: fs => ("\"" ++ k ++ "\":" ++ showValue v) :: showFields fs

/-- An environment of a build with `debug_assert!` compiled in or not. -/
def sampleEnv (debugAssertions : Bool) : Env :=
  { debugAssertions
    decimalFromStr := readDecimal
    decimalToString := showDecimal
    jsonFromStr := fun s =>
      if s = "null" then some .null else if s = "\x7b\x7d" then some (.object []) else none
    jsonToString := showValue
    statusToString := fun st => "status: " ++ (match st.code with
      | .unavailable => "Unavailable"
      | .invalidArgument => "InvalidArgument"
      | .unknown => "Unknown"
      | .internal => "Internal") ++ ", message: \"" ++ st.message ++ "\"" }

abbrev releaseEnv : Env := sampleEnv false

abbrev debugEnv : Env := sampleEnv true

/-! ## An exchange -/

def sampleMarket : MarketConf :=
  { name := "ETH_USDT", base := "ETH", quote := "USDT", amountPrec := 4, pricePrec := 2,
    feePrec := 2,
    minAmount := 1 / 1000 }

def sampleSettings : Settings :=
  { assets := [{ id := "ETH", precSave := 6, precShow := 6 }, { id := "USDT", precSave := 6,
                                                                precShow := 6 }]
    markets := [sampleMarket]
    disableSelfTrade := true
    disableMarketOrder := false
    userOrderNumLimit := 1000 }

def alice : Uuid := Uuid.ofNat 1

def bob : Uuid := Uuid.ofNat 2

/-- A deposit, or a withdrawal when `delta` is negative. -/
def depositOf (asset : String) (businessId : ℕ) (delta : String) : Operation :=
  .balanceUpdate { asset, business := "deposit", businessId, delta, detail := "" }

def limitOrder (side : OrderSide) (amount price : String) : OrderPutRequest :=
  { market := "ETH_USDT", orderSide := if side = .ask then 0 else 1, orderType := 0, amount, price,
    quoteLimit := "",
    takerFee := "0.001", makerFee := "0.001", postOnly := false }

def marketOrder (side : OrderSide) (amount quoteLimit : String) : OrderPutRequest :=
  { market := "ETH_USDT", orderSide := if side = .ask then 0 else 1, orderType := 1, amount,
    price := "", quoteLimit,
    takerFee := "0.001", makerFee := "0.001", postOnly := false }

/-- A request that reaches the engine. -/
def requestAt (now : Timestamp) (user : Uuid) (operation : Operation) : Request :=
  { now, available := true, real := true, user, operation }

/-- A bid and the ask that meets it. -/
def sampleTrade : List Request :=
  [requestAt 0 alice (depositOf "USDT" 1 "100"), requestAt 0 bob (depositOf "ETH" 1 "0.5"),
    requestAt 1 alice (.orderPut (limitOrder .bid "0.1" "200")),
    requestAt 2 bob (.orderPut (limitOrder .ask "0.05" "200"))]

/-- Bob has an ask of 2 at 100. -/
def sampleOneAsk : List Request :=
  [requestAt 0 bob (depositOf "ETH" 1 "10"), requestAt 0 bob (depositOf "USDT" 2 "1000"),
    requestAt 0 alice (depositOf "USDT" 3 "1000"),
    requestAt 1 bob (.orderPut (limitOrder .ask "2" "100"))]

/-- The exchange after some calls. -/
def sampleRun (E : Env) (qs : List Request) : Except Panic Controller := do
  let c ← createController sampleSettings
  return (← c.calls E qs).2

theorem sampleRun_ok {E : Env} {qs : List Request} {c : Controller} (h : sampleRun E qs = .ok c) :
    ∃ c₀ replies, createController sampleSettings = .ok c₀ ∧ c₀.calls E qs = .ok (replies, c) := by
  simp only [sampleRun, Outcome.bind_ok, Outcome.pure_ok] at h
  obtain ⟨c₀, h₀, ⟨replies, c'⟩, hcalls, rfl⟩ := h
  exact ⟨c₀, replies, h₀, hcalls⟩

theorem sampleRun_reachable {qs : List Request} {E : Env} {c : Controller}
    (h : sampleRun E qs = .ok c) : Reachable E sampleSettings c := by
  obtain ⟨c₀, replies, h₀, hcalls⟩ := sampleRun_ok h
  exact (Reachable.init h₀).calls hcalls

end Dingir
