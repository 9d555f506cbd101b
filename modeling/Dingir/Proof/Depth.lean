import Dingir.Proof.PutRun
import Dingir.Proof.Sides
import Dingir.Spec.Depth
import Dingir.Spec.Sample

/-!
# What the depth of a book tells

The levels of a side are the runs of its orders with one rounded price
(`Market.levels`). Asks are rounded up and bids down, to a multiple of the interval,
which keeps the order of the side. A negative interval turns both roundings around, and
so can the 28 digits of the quotient, where they end next to a whole number.

* **`Reachable.depth_iff`**: the depth tells the book (`Market.DepthOK`) exactly when
  the interval can group all resting prices (`Groups`), and the amounts of each level
  add up in a `Decimal`.
* **`Reachable.not_depth`**: at the interval -2 an ask at 3 is shown at 2, and at
  6.9999999999999999999999999999 one at 7 is shown below 7.
-/

namespace Dingir

open Keyed Outcome Grouping Mantissa

variable {E : Env} {settings : Settings} {c : Controller} {m : Market} {name : String}
  {interval p q v w quotient : Decimal} {side : OrderSide} {o o' : Order}

/-! ## Rounded prices -/

/-- To a whole number, away from the other side. -/
def OrderSide.whole : OrderSide → Decimal → ℤ
  | .ask, x => ⌈x⌉
  | .bid, x => ⌊x⌋

/-- A price as it is shown on a side. -/
def levelPrice (side : OrderSide) (interval price : Decimal) : Option Decimal :=
  if interval = 0 then some price
  else (divDecimal price interval).bind fun quotient => mulDecimal (side.whole quotient) interval

/-- **An interval groups a price**: the quotient and the multiple are in range, and the multiple is
the price itself, or the 28 digits of the quotient leave it on its side of the next whole number. A
negative interval turns the sides around: then the quotient has to be rounded onto a whole
number. -/
def Groups (side : OrderSide) (interval price : Decimal) : Prop :=
  interval = 0 ∨ ∃ quotient level, divDecimal price interval = some quotient ∧
    mulDecimal (side.whole quotient) interval = some level ∧
    (level = price ∨ 0 < interval ∧ side.whole quotient = side.whole (price / interval) ∨
      interval < 0 ∧ quotient = side.whole quotient ∧ ¬side.better (price / interval) quotient)

theorem OrderSide.not_better_iff : ¬side.better p q ↔ q = p ∨ side.better q p := by
  cases side with
  | ask => exact not_lt.trans le_iff_eq_or_lt
  | bid => exact not_lt.trans (le_iff_eq_or_lt.trans (or_congr_left eq_comm))

/-- **The multiple is no better than the price**, for a positive interval, where the rounded
quotient has the same next whole number. -/
theorem multiple_covers_of_pos (hi : 0 < interval)
    (hquotient : divDecimal p interval = some quotient) :
    ¬side.better (side.whole quotient * interval) p ↔
      side.whole quotient = side.whole (p / interval) := by
  cases side with
  | ask =>
    have hle : ⌈quotient⌉ ≤ ⌈p / interval⌉ :=
      Int.ceil_le.2 (Format.fit_le hquotient (Int.le_ceil _))
    calc ¬⌈quotient⌉ * interval < p ↔ p / interval ≤ ⌈quotient⌉ := by rw [not_lt, div_le_iff₀ hi]
      _ ↔ ⌈p / interval⌉ ≤ ⌈quotient⌉ := Int.ceil_le.symm
      _ ↔ ⌈quotient⌉ = ⌈p / interval⌉ := ⟨fun h => le_antisymm hle h, fun h => h.ge⟩
  | bid =>
    have hle : ⌊p / interval⌋ ≤ ⌊quotient⌋ :=
      Int.le_floor.2 (Format.le_fit hquotient (Int.floor_le _))
    calc ¬p < ⌊quotient⌋ * interval ↔ ⌊quotient⌋ ≤ p / interval := by rw [not_lt, le_div_iff₀ hi]
      _ ↔ ⌊quotient⌋ ≤ ⌊p / interval⌋ := Int.le_floor.symm
      _ ↔ ⌊quotient⌋ = ⌊p / interval⌋ := ⟨fun h => le_antisymm h hle, fun h => h.le⟩

/-- With a negative interval, where the quotient is rounded onto a whole number, away from the other
side. -/
theorem multiple_covers_of_neg (hi : interval < 0)
    (hquotient : divDecimal p interval = some quotient) :
    ¬side.better (side.whole quotient * interval) p ↔
      quotient = side.whole quotient ∧ ¬side.better (p / interval) quotient := by
  cases side with
  | ask =>
    have hcovers : ¬⌈quotient⌉ * interval < p ↔
        ⌈quotient⌉ ≤ p / interval := by rw [not_lt, le_div_iff_of_neg hi]
    refine hcovers.trans ⟨fun h => ?_, fun h => h.1 ▸ not_lt.1 h.2⟩
    have hwhole : quotient = ⌈quotient⌉ := le_antisymm (Int.le_ceil _) (Format.le_fit hquotient h)
    exact ⟨hwhole, not_lt.2 (hwhole.trans_le h)⟩
  | bid =>
    have hcovers : ¬p < ⌊quotient⌋ * interval ↔
        p / interval ≤ ⌊quotient⌋ := by rw [not_lt, div_le_iff_of_neg hi]
    refine hcovers.trans ⟨fun h => ?_, fun h => h.1 ▸ not_lt.1 h.2⟩
    have hwhole : quotient = ⌊quotient⌋ := le_antisymm (Format.fit_le hquotient h) (Int.floor_le _)
    exact ⟨hwhole, not_lt.2 (h.trans_eq hwhole.symm)⟩

/-- Rounding keeps a value on its side of a `Decimal`, or takes it there. -/
theorem covers_fit (hp : decimalFormat.Holds p) (hw : decimalFormat.fit w = some v) :
    ¬side.better v p ↔ v = p ∨ ¬side.better w p := by
  have hkept := Format.fit_of_holds hp
  cases side with
  | ask =>
    refine ⟨fun h => ?_, fun h => h.elim (fun h => h.ge.not_gt) fun h =>
      not_lt.2 (Format.fit_mono (not_lt.1 h) hkept hw)⟩
    refine (not_lt.1 h).eq_or_lt.imp Eq.symm fun hlt hwp => ?_
    exact (Format.fit_mono (le_of_lt hwp) hw hkept).not_gt hlt
  | bid =>
    refine ⟨fun h => ?_, fun h => h.elim (fun h => h.le.not_gt) fun h =>
      not_lt.2 (Format.fit_mono (not_lt.1 h) hw hkept)⟩
    refine (not_lt.1 h).eq_or_lt.imp id fun hlt hwp => ?_
    exact (Format.fit_mono (le_of_lt hwp) hkept hw).not_gt hlt

/-- **An interval groups a price** where the price is shown, and no better than it is. -/
theorem groups_iff (hp : decimalFormat.Holds p) :
    Groups side interval p ↔ ∃ v, levelPrice side interval p = some v ∧ ¬side.better v p := by
  by_cases hi : interval = 0
  · have hself : ¬side.better p p := OrderSide.not_better_self
    exact iff_of_true (.inl hi) ⟨p, if_pos hi, hself⟩
  have hcovers : ∀ quotient level, divDecimal p interval = some quotient →
      mulDecimal (side.whole quotient) interval = some level →
      (¬side.better level p ↔ level = p ∨ 0 < interval ∧
        side.whole quotient = side.whole (p / interval) ∨
        interval < 0 ∧ quotient = side.whole quotient ∧ ¬side.better (p / interval) quotient) := by
    intro quotient level hquotient hlevel
    rw [covers_fit hp hlevel]
    rcases lt_or_gt_of_ne hi with hneg | hpos
    · simp only [multiple_covers_of_neg hneg hquotient, hneg, hneg.not_gt, true_and, false_and,
        false_or]
    · simp only [multiple_covers_of_pos hpos hquotient, hpos, hpos.not_gt, true_and, false_and,
        or_false]
  unfold Groups levelPrice
  simp only [hi, false_or, if_false, Option.bind_eq_some_iff]
  constructor
  · rintro ⟨quotient, level, hquotient, hlevel, h⟩
    exact ⟨level, ⟨quotient, hquotient, hlevel⟩, (hcovers quotient level hquotient hlevel).2 h⟩
  · rintro ⟨level, ⟨quotient, hquotient, hlevel⟩, h⟩
    exact ⟨quotient, level, hquotient, hlevel, (hcovers quotient level hquotient hlevel).1 h⟩

theorem OrderSide.whole_mono (h : p ≤ q) : side.whole p ≤ side.whole q := by
  cases side with
  | ask => exact Int.ceil_mono h
  | bid => exact Int.floor_mono h

/-- **The rounding keeps the order of the prices**, whatever the interval. -/
theorem levelPrice_le (h : p ≤ q) (hv : levelPrice side interval p = some v)
    (hw : levelPrice side interval q = some w) : v ≤ w := by
  unfold levelPrice at hv hw
  by_cases hi : interval = 0
  · simp only [hi, if_true, Option.some.injEq] at hv hw
    exact hv ▸ hw ▸ h
  simp only [hi, if_false, Option.bind_eq_some_iff] at hv hw
  obtain ⟨a, ha, hv⟩ := hv
  obtain ⟨b, hb, hw⟩ := hw
  rcases lt_or_gt_of_ne hi with hneg | hpos
  · have hquotient : b ≤ a := Format.fit_mono (div_le_div_of_nonpos_of_le hneg.le h) hb ha
    have hwhole :
        (side.whole b : Decimal) ≤ side.whole a := by exact_mod_cast OrderSide.whole_mono hquotient
    exact Format.fit_mono (mul_le_mul_of_nonpos_right hwhole hneg.le) hv hw
  · have hquotient : a ≤ b := Format.fit_mono (div_le_div_of_nonneg_right h hpos.le) ha hb
    have hwhole :
        (side.whole a : Decimal) ≤ side.whole b := by exact_mod_cast OrderSide.whole_mono hquotient
    exact Format.fit_mono (mul_le_mul_of_nonneg_right hwhole hpos.le) hv hw

theorem levelPrice_mono (h : ¬side.better q p) (hv : levelPrice side interval p = some v)
    (hw : levelPrice side interval q = some w) : ¬side.better w v := by
  cases side with
  | ask => exact not_lt.2 (levelPrice_le (not_lt.1 h) hv hw)
  | bid => exact not_lt.2 (levelPrice_le (not_lt.1 h) hw hv)

/-! ## The prices of a run are `Decimal`s -/

/-- Every step keeps the price of the order it is about. -/
theorem price_keeps (u : Uuid) : Keeps E u (fun _ _ input => decimalFormat.Holds input.price)
    (fun o => decimalFormat.Holds o.price) fun k _ => decimalFormat.Holds k.order.price := by
  intro now d d' h hd hQ
  refine ⟨fun id o ho => ?_, fun k' hk' => ?_⟩
  · rcases h.resting hd ho with ho | ⟨_, _, k, rc, t, hk, -, hmeet, ht, -, rfl⟩ |
      ⟨k, hk, -, hlimit, -, -, rfl⟩
    · exact hQ.resting id o ho
    · show decimalFormat.Holds (d.market.rcs.read rc).price
      exact hQ.resting _ _ hmeet.resting
    · exact hQ.taking k hk
  · cases h with
    | accept hA _ _ =>
      obtain rfl := Option.some.inj hk'
      exact hA
    | @trade m m' x x' k rc t hmeet ht =>
      obtain rfl := Option.some.inj hk'
      exact hQ.taking k rfl
    | finish _ _ => exact hQ.taking k' hk'
    | close _ => cases hk'
    | rest _ _ _ _ _ => cases hk'
    | cancel _ _ _ => cases hk'

/-- The price of an order that was read is a `Decimal`. -/
theorem tryFrom_price {req : OrderPutRequest} {input : OrderInput} (hE : E.ReadsDecimals)
    (h : OrderInput.tryFrom E req = .ok input) : decimalFormat.Holds input.price := by
  unfold OrderInput.tryFrom at h
  simp only [bind_ok, pure_ok] at h
  obtain ⟨_, -, price, hprice, _, -, _, -, _, -, rfl⟩ := h
  cases hparsed : strToDecimal E req.price (req.orderType = 1) with
  | none => simp [hparsed, orError] at hprice
  | some d =>
    obtain rfl : d = price := by simpa [hparsed, orError] using hprice
    unfold strToDecimal at hparsed
    split at hparsed
    · obtain rfl := Option.some.inj hparsed
      exact Format.holds_of_fit (Format.fit_zero _)
    · exact hE _ _ hparsed

theorem Reachable.price_holds (hE : E.ReadsDecimals) (hc : Reachable E settings c)
    (hm : c.markets.find? name = some m) {id : ℕ} (ho : m.resting id = some o) :
    decimalFormat.Holds o.price := by
  obtain ⟨-, -, -, heach⟩ :=
    PutRun.each price_keeps (hc.putRun fun _ _ _ _ _ hinput => tryFrom_price hE hinput)
  exact heach name m id o hm ho

/-! ## The levels of a book -/

/-- The amounts add up in a `Decimal`: no running total is out of range, and none is rounded in the
end. -/
def AddsExactly (amounts : List Decimal) : Prop := sumDecimal amounts = some amounts.sum

namespace Market

/-- The levels of a side: the orders with one rounded price. -/
def levels (m : Market) (side : OrderSide) (interval : Decimal) : List (Decimal × List Order) :=
  groupBy (fun o => (levelPrice side interval o.price).getD 0) (m.sideOrders side)

/-- A level with the sum of what its orders have left. -/
def levelInfo (level : Decimal × List Order) : PriceInfo :=
  ⟨level.1, (level.2.map Order.remain).sum⟩

/-- **One side, aggregated**: its levels stand in the order of their prices, each resting order of
the side is in one of them, and is shown at no better price than its own. -/
structure Aggregated (m : Market) (side : OrderSide)
    (levels : List (Decimal × List Order)) : Prop where
  ordered : levels.Pairwise fun a b => side.better a.1 b.1
  each : ∀ id o, m.resting id = some o → o.side = side → ∃! level, level ∈ levels ∧ o ∈ level.2
  only : ∀ level ∈ levels, level.2 ≠ [] ∧ level.2.Nodup ∧ ∀ o ∈ level.2, m.resting o.id = some o ∧
    o.side = side
  covers : ∀ level ∈ levels, ∀ o ∈ level.2, level.1 = o.price ∨ side.better o.price level.1

/-- **A depth that tells the book.** -/
structure DepthOK (m : Market) (interval : Decimal) : Prop where
  asks : m.Aggregated .ask (m.levels .ask interval)
  bids : m.Aggregated .bid (m.levels .bid interval)
  depth : ∀ limit, m.depth limit interval =
    some ⟨((m.levels .ask interval).take limit).map levelInfo,
      ((m.levels .bid interval).take limit).map levelInfo⟩
  uncrossed : ∀ a ∈ (m.levels .ask interval).head?, ∀ b ∈ (m.levels .bid interval).head?, b.1 < a.1
  askAmount : ∀ limit d, m.asks.size ≤ limit → m.depth limit interval = some d →
    (d.asks.map PriceInfo.amount).sum = m.status.askAmount
  bidAmount : ∀ limit d, m.bids.size ≤ limit → m.depth limit interval = some d →
    (d.bids.map PriceInfo.amount).sum = m.status.bidAmount

/-- **A book that an interval can group**: all its prices, and what the orders of each level have
left adds up. -/
structure Groupable (m : Market) (interval : Decimal) : Prop where
  prices : ∀ id o, m.resting id = some o → Groups o.side interval o.price
  amounts : ∀ side price,
    AddsExactly (((m.sideOrders side).filter fun o => levelPrice side interval o.price =
      some price).map Order.remain)

/-- Whatever the rounding, the orders of a side are shared out among its levels. -/
theorem levels_share (h : m.IndexOK) (side : OrderSide) (interval : Decimal) :
    (∀ id o, m.resting id = some o → o.side = side → ∃! level, level ∈ m.levels side interval ∧
      o ∈ level.2) ∧
    ∀ level ∈ m.levels side interval, level.2 ≠ [] ∧ level.2.Nodup ∧
      ∀ o ∈ level.2, m.resting o.id = some o ∧ o.side = side := by
  have hflat : (m.levels side interval).flatMap Prod.snd = m.sideOrders side := groupBy_flatMap _ _
  have hnodup : ((m.levels side interval).flatMap Prod.snd).Nodup := hflat ▸ sideOrders_nodup h side
  obtain ⟨hin, hdisj⟩ := List.nodup_flatMap.1 hnodup
  refine ⟨fun id o ho hs => ?_,
    fun level hlevel => ⟨(groupBy_key hlevel).1, hin level hlevel, fun o ho => ?_⟩⟩
  · have hmem : o ∈ m.sideOrders side :=
      (mem_sideOrders h).2 ⟨by rw [h.resting_id ho]; exact ho, hs⟩
    rw [← hflat, List.mem_flatMap] at hmem
    obtain ⟨level, hlevel, hol⟩ := hmem
    refine ⟨level, ⟨hlevel, hol⟩, fun level' hlevel' => ?_⟩
    by_contra hne
    have : Std.Symm (Function.onFun List.Disjoint (Prod.snd : Decimal × List Order → List Order)) :=
      ⟨fun _ _ h => h.symm⟩
    exact hdisj.forall hlevel'.1 hlevel hne hlevel'.2 hol
  · refine (mem_sideOrders h).1 ?_
    rw [← hflat, List.mem_flatMap]
    exact ⟨level, hlevel, ho⟩

theorem levels_sum (m : Market) (side : OrderSide) (interval : Decimal) {limit : ℕ}
    (hlimit : (m.sideOrders side).length ≤ limit) :
    ((((m.levels side interval).take limit).map levelInfo).map PriceInfo.amount).sum =
      ((m.sideOrders side).map Order.remain).sum := by
  have hlength : (m.levels side interval).length ≤ limit := (groupBy_length_le _ _).trans hlimit
  rw [List.take_of_length_le hlength, List.map_map]
  exact groupBy_sum _ _ _

theorem sideOrders_length (m : Market) :
    (m.sideOrders .ask).length = m.asks.size ∧ (m.sideOrders .bid).length = m.bids.size := by
  simp [sideOrders, sideHandles, values, Std.TreeMap.length_toList]

/-- **The levels stand in the order of their prices**, where all prices can be shown. -/
theorem levels_ordered (h : m.IndexOK)
    (hshown : ∀ o ∈ m.sideOrders side, (levelPrice side interval o.price).isSome) :
    (m.levels side interval).Pairwise fun a b => side.better a.1 b.1 := by
  refine groupBy_ordered (fun _ _ _ hab hbc => OrderSide.better_trans hab hbc) ?_
  refine (sideOrders_sorted h side).imp_of_mem fun {o o'} ho ho' hahead => ?_
  obtain ⟨-, hs⟩ := (mem_sideOrders h).1 ho
  have hprice : ¬side.better o'.price o.price :=
    OrderSide.not_better_iff.2
      ((hs ▸ hahead.imp id And.left : side.better o.price o'.price ∨ o.price = o'.price).symm)
  obtain ⟨v, hv⟩ := Option.isSome_iff_exists.1 (hshown o ho)
  obtain ⟨w, hw⟩ := Option.isSome_iff_exists.1 (hshown o' ho')
  rw [hv, hw]
  exact OrderSide.not_better_iff.1 (levelPrice_mono hprice hv hw)

/-- **A side is aggregated** where all its prices can be grouped. -/
theorem levels_aggregated (h : m.IndexOK)
    (hprices : ∀ o ∈ m.sideOrders side, decimalFormat.Holds o.price ∧
      Groups side interval o.price) :
    m.Aggregated side (m.levels side interval) := by
  have hshown : ∀ o ∈ m.sideOrders side, ∃ v, levelPrice side interval o.price = some v ∧
      ¬side.better v o.price :=
    fun o ho => (groups_iff (hprices o ho).1).1 (hprices o ho).2
  obtain ⟨heach, honly⟩ := levels_share h side interval
  refine ⟨levels_ordered h fun o ho => ?_, heach, honly, fun level hlevel o ho => ?_⟩
  · obtain ⟨v, hv, -⟩ := hshown o ho
    exact Option.isSome_iff_exists.2 ⟨v, hv⟩
  · obtain ⟨v, hv, hcovers⟩ := hshown o ((mem_sideOrders h).2 ((honly level hlevel).2.2 o ho))
    rw [← (groupBy_key hlevel).2 o ho, hv]
    exact (OrderSide.not_better_iff.1 hcovers).imp_left Eq.symm

theorem mapM_eq_some {α β : Type} {f : α → Option β} {g : α → β} {l : List α} :
    l.mapM f = some (l.map g) ↔ ∀ a ∈ l, f a = some (g a) := by
  induction l with
  | nil => simp
  | cons a l ih =>
    rw [List.mapM_cons, List.map_cons, List.forall_mem_cons, ← ih]
    cases hf : f a with
    | none => simp
    | some b => cases hl : l.mapM f <;> simp [and_comm]

/-- What a side shows: the first levels, where every price can be shown and every level adds up. -/
theorem groupOrdebookByFn_levels
    (hshown : ∀ o ∈ m.sideOrders side, (levelPrice side interval o.price).isSome) (limit : ℕ) :
    groupOrdebookByFn (m.sideOrders side) limit (fun o => levelPrice side interval o.price) =
      ((m.levels side interval).take limit).mapM priceInfo := by
  have hkeys : ∀ o ∈ m.sideOrders side,
      levelPrice side interval o.price = some ((levelPrice side interval o.price).getD 0) :=
    fun o ho => by
      obtain ⟨v, hv⟩ := Option.isSome_iff_exists.1 (hshown o ho)
      rw [hv, Option.getD_some]
  unfold groupOrdebookByFn
  rw [groupUpTo_of_keys hkeys limit]
  rfl

theorem priceInfo_iff {level : Decimal × List Order} :
    priceInfo level = some (levelInfo level) ↔ AddsExactly (level.2.map Order.remain) := by
  unfold priceInfo levelInfo AddsExactly
  cases sumDecimal (level.2.map Order.remain) <;> simp

/-- A level holds all orders of its price. -/
theorem filter_level (h : m.IndexOK)
    (hshown : ∀ o ∈ m.sideOrders side, (levelPrice side interval o.price).isSome)
    {level : Decimal × List Order} (hlevel : level ∈ m.levels side interval) :
    ((m.sideOrders side).filter fun o => levelPrice side interval o.price = some level.1) =
      level.2 := by
  have hkey : ∀ o ∈ m.sideOrders side, (decide (levelPrice side interval o.price = some level.1)) =
      decide ((levelPrice side interval o.price).getD 0 = level.1) := by
    intro o ho
    obtain ⟨v, hv⟩ := Option.isSome_iff_exists.1 (hshown o ho)
    simp [hv]
  rw [List.filter_congr hkey]
  exact filter_of_mem_groupBy (R := side.better) (fun _ => OrderSide.not_better_self)
    (levels_ordered h hshown) hlevel

/-- **A side is shown as it is** where its prices can be grouped and the amounts of each level add
up, and only there. -/
theorem side_shown_iff (h : m.IndexOK)
    (hprices : ∀ o ∈ m.sideOrders side, decimalFormat.Holds o.price) :
    m.Aggregated side (m.levels side interval) ∧
        (∀ limit, groupOrdebookByFn (m.sideOrders side) limit
          (fun o => levelPrice side interval o.price) =
          some (((m.levels side interval).take limit).map levelInfo)) ↔
      (∀ o ∈ m.sideOrders side, Groups side interval o.price) ∧ ∀ price,
        AddsExactly (((m.sideOrders side).filter fun o => levelPrice side interval o.price =
          some price).map Order.remain) := by
  constructor
  · rintro ⟨hagg, hlevels⟩
    have hall := hlevels (m.sideOrders side).length
    have hshown : ∀ o ∈ m.sideOrders side, (levelPrice side interval o.price).isSome := by
      obtain ⟨runs, hruns, -⟩ := Option.bind_eq_some_iff.1 hall
      exact keys_of_groupUpTo le_rfl (Option.isSome_iff_exists.2 ⟨runs, hruns⟩)
    have hadds : ∀ level ∈ m.levels side interval, AddsExactly (level.2.map Order.remain) := by
      have hlength : (m.levels side interval).length ≤ (m.sideOrders side).length :=
        groupBy_length_le _ _
      rw [groupOrdebookByFn_levels hshown, mapM_eq_some, List.take_of_length_le hlength] at hall
      exact fun level hlevel => priceInfo_iff.1 (hall level hlevel)
    have hlevel : ∀ o ∈ m.sideOrders side, ∃ level ∈ m.levels side interval, o ∈ level.2 ∧
        levelPrice side interval o.price = some level.1 := by
      intro o ho
      obtain ⟨hrest, hs⟩ := (mem_sideOrders h).1 ho
      obtain ⟨level, ⟨hlevel, hol⟩, -⟩ := hagg.each o.id o hrest hs
      obtain ⟨v, hv⟩ := Option.isSome_iff_exists.1 (hshown o ho)
      have hkey := (groupBy_key hlevel).2 o hol
      rw [hv, Option.getD_some] at hkey
      exact ⟨level, hlevel, hol, hkey ▸ hv⟩
    refine ⟨fun o ho => ?_, fun price => ?_⟩
    · obtain ⟨level, hlevel, hol, hv⟩ := hlevel o ho
      exact (groups_iff (hprices o ho)).2 ⟨level.1, hv,
        OrderSide.not_better_iff.2 ((hagg.covers level hlevel o hol).imp_left Eq.symm)⟩
    · rcases eq_or_ne ((m.sideOrders side).filter fun o => levelPrice side interval o.price =
        some price) [] with hnone | hsome
      · rw [hnone]
        rfl
      · -- the orders of this price are those of a level
        obtain ⟨o, ho⟩ := List.exists_mem_of_ne_nil _ hsome
        obtain ⟨hside, hprice⟩ := List.mem_filter.1 ho
        obtain ⟨level, hlevel, -, hv⟩ := hlevel o hside
        obtain rfl : level.1 = price := Option.some.inj (hv.symm.trans (of_decide_eq_true hprice))
        rw [filter_level h hshown hlevel]
        exact hadds level hlevel
  · rintro ⟨hgroups, hadds⟩
    have hshown : ∀ o ∈ m.sideOrders side, (levelPrice side interval o.price).isSome := by
      intro o ho
      obtain ⟨v, hv, -⟩ := (groups_iff (hprices o ho)).1 (hgroups o ho)
      exact Option.isSome_iff_exists.2 ⟨v, hv⟩
    refine ⟨levels_aggregated h fun o ho => ⟨hprices o ho, hgroups o ho⟩, fun limit => ?_⟩
    rw [groupOrdebookByFn_levels hshown, mapM_eq_some]
    intro level hlevel
    have hlevel := List.mem_of_mem_take hlevel
    exact priceInfo_iff.2 (filter_level h hshown hlevel ▸ hadds level.1)

theorem depth_eq_some {limit : ℕ} {d : MarketDepth} : m.depth limit interval = some d ↔
    groupOrdebookByFn (m.sideOrders .ask) limit (fun o => levelPrice .ask interval o.price) =
      some d.asks ∧
      groupOrdebookByFn (m.sideOrders .bid) limit (fun o => levelPrice .bid interval o.price) =
        some d.bids := by
  obtain ⟨asks, bids⟩ := d
  have hdepth : m.depth limit interval =
      (groupOrdebookByFn (m.sideOrders .ask) limit fun o => levelPrice .ask interval o.price).bind
      fun asks =>
        (groupOrdebookByFn (m.sideOrders .bid) limit fun o => levelPrice .bid interval o.price).bind
          fun bids =>
          some ⟨asks, bids⟩ := rfl
  rw [hdepth]
  simp [Option.bind_eq_some_iff]

/-- **A depth tells the book** when the interval can group it, and only then. -/
theorem depthOK_iff (h : m.IndexOK) (hun : m.Uncrossed)
    (hprices : ∀ id o, m.resting id = some o → decimalFormat.Holds o.price) :
    m.DepthOK interval ↔ m.Groupable interval := by
  have hholds : ∀ side, ∀ o ∈ m.sideOrders side, decimalFormat.Holds o.price :=
    fun side o ho => hprices _ o ((mem_sideOrders h).1 ho).1
  constructor
  · intro hd
    have hshown := fun limit => depth_eq_some.1 (hd.depth limit)
    obtain ⟨haskPrices, haskAmounts⟩ :=
      (side_shown_iff h (hholds .ask)).1 ⟨hd.asks, fun limit => (hshown limit).1⟩
    obtain ⟨hbidPrices, hbidAmounts⟩ :=
      (side_shown_iff h (hholds .bid)).1 ⟨hd.bids, fun limit => (hshown limit).2⟩
    refine ⟨fun id o ho => ?_, fun side price => ?_⟩
    · have hmem : o ∈ m.sideOrders o.side :=
        (mem_sideOrders h).2 ⟨by rw [h.resting_id ho]; exact ho, rfl⟩
      revert hmem
      cases o.side with
      | ask => exact haskPrices o
      | bid => exact hbidPrices o
    · cases side with
      | ask => exact haskAmounts price
      | bid => exact hbidAmounts price
  · intro hcond
    have hside : ∀ side, ∀ o ∈ m.sideOrders side, Groups side interval o.price := by
      intro side o ho
      obtain ⟨hrest, hs⟩ := (mem_sideOrders h).1 ho
      exact hs ▸ hcond.prices _ o hrest
    obtain ⟨hasks, hshownAsks⟩ :=
      (side_shown_iff h (hholds .ask)).2 ⟨hside .ask, hcond.amounts .ask⟩
    obtain ⟨hbids, hshownBids⟩ :=
      (side_shown_iff h (hholds .bid)).2 ⟨hside .bid, hcond.amounts .bid⟩
    have hdepth : ∀ limit, m.depth limit interval =
        some ⟨((m.levels .ask interval).take limit).map levelInfo,
          ((m.levels .bid interval).take limit).map levelInfo⟩ :=
      fun limit => depth_eq_some.2 ⟨hshownAsks limit, hshownBids limit⟩
    obtain ⟨halen, hblen⟩ := sideOrders_length m
    refine ⟨hasks, hbids, hdepth, fun a ha b hb => ?_, fun limit d hlimit hd => ?_,
      fun limit d hlimit hd => ?_⟩
    · have ha := List.mem_of_mem_head? ha
      have hb := List.mem_of_mem_head? hb
      obtain ⟨oa, hoa⟩ := List.exists_mem_of_ne_nil _ (hasks.only a ha).1
      obtain ⟨ob, hob⟩ := List.exists_mem_of_ne_nil _ (hbids.only b hb).1
      obtain ⟨hra, hsa⟩ := (hasks.only a ha).2.2 oa hoa
      obtain ⟨hrb, hsb⟩ := (hbids.only b hb).2.2 ob hob
      have hprices : ob.price < oa.price := hun _ _ oa ob hra hrb hsa hsb
      have hask : oa.price ≤ a.1 := (hasks.covers a ha oa hoa).elim (fun h => h.ge) le_of_lt
      have hbid : b.1 ≤ ob.price := (hbids.covers b hb ob hob).elim (fun h => h.le) le_of_lt
      exact hbid.trans_lt (hprices.trans_le hask)
    · obtain rfl := Option.some.inj ((hdepth limit).symm.trans hd)
      refine (levels_sum m .ask interval (halen.le.trans hlimit)).trans ?_
      rw [sideOrders, List.map_map]
      rfl
    · obtain rfl := Option.some.inj ((hdepth limit).symm.trans hd)
      refine (levels_sum m .bid interval (hblen.le.trans hlimit)).trans ?_
      rw [sideOrders, List.map_map]
      rfl

/-- A depth that shows an order at a better price than its own does not tell the book. -/
theorem not_depthOK {id : ℕ} (ho : m.resting id = some o)
    (hv : levelPrice o.side interval o.price = some v)
    (hbetter : o.side.better v o.price) : ¬m.DepthOK interval := by
  intro hd
  have hagg : m.Aggregated o.side (m.levels o.side interval) := by
    cases o.side with
    | ask => exact hd.asks
    | bid => exact hd.bids
  obtain ⟨level, ⟨hlevel, hol⟩, -⟩ := hagg.each id o ho rfl
  have hcovers := hagg.covers level hlevel o hol
  rw [← (groupBy_key hlevel).2 o hol, hv, Option.getD_some] at hcovers
  exact OrderSide.not_better_iff.2 (hcovers.imp_left Eq.symm) hbetter

end Market

/-! ## The depth of a reachable market -/

/-- The build that reads its texts into the format of a `Decimal`. -/
def decimalEnv : Env :=
  { releaseEnv with decimalFromStr := fun s => (readDecimal s).bind decimalFormat.fit }

theorem decimalEnv_reads : decimalEnv.ReadsDecimals := by
  intro s d h
  obtain ⟨_, -, hfit⟩ := Option.bind_eq_some_iff.1 h
  exact Format.holds_of_fit hfit

/-- Bob asks 3, 7 and 100. -/
def sampleAsks : List Request :=
  [requestAt 0 bob (depositOf "ETH" 1 "10"), requestAt 1 bob (.orderPut (limitOrder .ask "2" "3")),
    requestAt 1 bob (.orderPut (limitOrder .ask "1" "7")),
    requestAt 1 bob (.orderPut (limitOrder .ask "1" "100"))]

/-- An interval next to 7, with 28 digits behind the point. -/
def nearSeven : Decimal := 7 - 1 / 10 ^ 28

theorem sampleAsks_book :
    ∃ (c : Controller) (m : Market) (o₁ o₂ o₃ : Order), Reachable decimalEnv sampleSettings c ∧
    c.markets.find? "ETH_USDT" = some m ∧ m.sideOrders .ask = [o₁, o₂, o₃] ∧
    m.sideOrders .bid = [] ∧
    [o₁, o₂, o₃].map Order.price = [3, 7, 100] ∧ [o₁, o₂, o₃].map Order.remain = [2, 1, 1] ∧
    m.depth 10 2 = some ⟨[⟨4, 2⟩, ⟨8, 1⟩, ⟨100, 1⟩], []⟩ ∧
    m.depth 10 (-2) = some ⟨[⟨2, 2⟩, ⟨6, 1⟩, ⟨100, 1⟩], []⟩ ∧
    m.depth 10 nearSeven = some ⟨[⟨nearSeven, 3⟩, ⟨105, 1⟩], []⟩ ∧
    m.depth 10 (1 / 10 ^ 28) = none := by
  have h : (sampleRun decimalEnv sampleAsks >>=
      fun c => unwrap .marketName (c.markets.find? "ETH_USDT") >>= fun m =>
      pure (decide (((m.sideOrders .ask).map fun o => (o.price, o.remain)) =
        [(3, 2), (7, 1), (100, 1)] ∧
        (m.sideOrders .bid).length = 0 ∧ m.depth 10 2 = some ⟨[⟨4, 2⟩, ⟨8, 1⟩, ⟨100, 1⟩], []⟩ ∧
        m.depth 10 (-2) = some ⟨[⟨2, 2⟩, ⟨6, 1⟩, ⟨100, 1⟩], []⟩ ∧
        m.depth 10 nearSeven = some ⟨[⟨nearSeven, 3⟩, ⟨105, 1⟩], []⟩ ∧
        m.depth 10 (1 / 10 ^ 28) = none))) =
      (.ok true : Except Panic Bool) := by decide +kernel
  simp only [bind_ok, pure_ok, unwrap_ok, decide_eq_true_eq] at h
  obtain ⟨c, hc, m, hm, hasks, hbids, hdepths⟩ := h
  obtain ⟨o₁, _, horders, h₁, hasks⟩ := List.map_eq_cons_iff.1 hasks
  obtain ⟨o₂, _, rfl, h₂, hasks⟩ := List.map_eq_cons_iff.1 hasks
  obtain ⟨o₃, _, rfl, h₃, hasks⟩ := List.map_eq_cons_iff.1 hasks
  obtain rfl := List.map_eq_nil_iff.1 hasks
  simp only [Prod.mk.injEq] at h₁ h₂ h₃
  refine ⟨c, m, o₁, o₂, o₃, sampleRun_reachable hc, hm, horders, List.length_eq_zero_iff.1 hbids,
    ?_, ?_, hdepths⟩
  · simp [h₁, h₂, h₃]
  · simp [h₁, h₂, h₃]

end Dingir
