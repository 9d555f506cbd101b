import Dingir.Lib.Rounding

/-!
# Decimals with a bounded mantissa

A `Format` keeps a number as an integer, its mantissa, over a power of ten. Both the
mantissa and the number of digits behind the point are bounded. `Format.fit` rounds to
the finest scale on which the mantissa still fits, ties to even; a number too large for
every scale does not fit.

* `Format.fit_of_holds`: the numbers of the format stay as they are.
* `Format.fit_mono`: rounding keeps the order, also where it changes the scale.
* `Format.fit_le`, `Format.le_fit`: rounding passes no integer.
-/

namespace Rounding

variable {p : ℕ} {x y : ℚ}

/-! ## Rounding to the nearest integer -/

theorem floor_le_halfEven (y : ℚ) : ⌊y⌋ ≤ halfEven y := by
  unfold halfEven
  split_ifs <;> omega

theorem halfEven_le_floor (y : ℚ) : halfEven y ≤ ⌊y⌋ + 1 := by
  unfold halfEven
  split_ifs <;> omega

theorem halfEven_mono (h : x ≤ y) : halfEven x ≤ halfEven y := by
  rcases (Int.floor_mono h).lt_or_eq with hlt | heq
  · exact (halfEven_le_floor x).trans ((Int.add_one_le_of_lt hlt).trans (floor_le_halfEven y))
  · -- within one unit, the one that is rounded up is the larger one
    unfold halfEven
    rw [heq]
    split_ifs <;> first | omega | linarith

theorem halfEven_neg (y : ℚ) : halfEven (-y) = -halfEven y := by
  by_cases hint : (⌊y⌋ : ℚ) = y
  · rw [← hint, ← Int.cast_neg, halfEven_intCast, halfEven_intCast]
  · have hlt : (⌊y⌋ : ℚ) < y := lt_of_le_of_ne (Int.floor_le y) hint
    have hfloor : ⌊-y⌋ = -⌊y⌋ - 1 := by
      rw [Int.floor_eq_iff]
      have := Int.lt_floor_add_one y
      push_cast
      constructor <;> linarith
    -- the two fractions add up to one
    unfold halfEven
    rw [hfloor]
    push_cast
    split_ifs <;> first | omega | linarith

theorem halfEven_sub_half_le (y : ℚ) : (halfEven y : ℚ) - 1 / 2 ≤ y := by
  have := Int.floor_le y
  unfold halfEven
  split_ifs <;> push_cast <;> linarith

theorem le_halfEven_add_half (y : ℚ) : y ≤ halfEven y + 1 / 2 := by
  have h := halfEven_sub_half_le (-y)
  rw [halfEven_neg] at h
  push_cast at h
  linarith

theorem roundDp_mono (h : x ≤ y) : roundDp x p ≤ roundDp y p :=
  div_le_div_of_nonneg_right
    (by exact_mod_cast halfEven_mono (mul_le_mul_of_nonneg_right h (pow_pos_rat p).le))
    (pow_pos_rat p).le

theorem roundDp_neg (x : ℚ) (p : ℕ) : roundDp (-x) p = -roundDp x p := by
  unfold roundDp
  rw [neg_mul, halfEven_neg]
  push_cast
  ring

/-- Rounding does not pass a grid point below. -/
theorem le_roundDp (h : y ≤ x) (hy : OnGrid p y) : y ≤ roundDp x p := by
  have hneg := roundDp_le (neg_le_neg h) hy.neg
  rw [roundDp_neg] at hneg
  exact neg_le_neg_iff.1 hneg

end Rounding

namespace Mantissa

open Rounding

/-- A format of decimals. A number just beyond the largest mantissa has to be rounded up on the next
scale, so that no scale reaches past the one above it. -/
structure Format where
  /-- the largest mantissa -/
  bound : ℕ
  /-- the most digits behind the point -/
  scale : ℕ
  rounds : 5 ≤ bound % 10

namespace Format

variable {F : Format} {p q : ℕ} {x y x' y' : ℚ} {k : ℤ}

/-- With `p` digits behind the point, the mantissa is within its bound. -/
def FitsAt (F : Format) (x : ℚ) (p : ℕ) : Prop := |halfEven (x * 10 ^ p)| ≤ F.bound

instance : Decidable (F.FitsAt x p) := inferInstanceAs (Decidable (_ ≤ _))

/-- Rounding to at most `p` digits, as many as the mantissa allows. -/
def fitFrom (F : Format) (x : ℚ) : ℕ → Option ℚ
  | 0 => if F.FitsAt x 0 then some (roundDp x 0) else none
  | p + 1 => if F.FitsAt x (p + 1) then some (roundDp x (p + 1)) else F.fitFrom x p

/-- **Rounding into the format.** -/
def fit (F : Format) (x : ℚ) : Option ℚ := F.fitFrom x F.scale

/-- A number of the format. -/
def Holds (F : Format) (x : ℚ) : Prop := ∃ p ≤ F.scale, F.FitsAt x p ∧ OnGrid p x

/-! ## The scale of a rounding -/

theorem fitFrom_some (h : F.fitFrom x p = some y) :
    ∃ q ≤ p, F.FitsAt x q ∧ y = roundDp x q ∧ ∀ r, q < r → r ≤ p → ¬F.FitsAt x r := by
  induction p with
  | zero =>
    simp only [fitFrom] at h
    split at h
    · rename_i hfits
      exact ⟨0, le_rfl, hfits, (Option.some.inj h).symm, fun r hr hr' => absurd hr (by omega)⟩
    · cases h
  | succ p ih =>
    simp only [fitFrom] at h
    split at h
    · rename_i hfits
      exact ⟨p + 1, le_rfl, hfits, (Option.some.inj h).symm, fun r hr hr' => absurd hr (by omega)⟩
    · rename_i hfits
      obtain ⟨q, hq, hqfits, hy, hcoarsest⟩ := ih h
      refine ⟨q, by omega, hqfits, hy, fun r hr hr' => ?_⟩
      rcases Nat.lt_or_ge p r with hpr | hpr
      · obtain rfl : r = p + 1 := by omega
        exact hfits
      · exact hcoarsest r hr hpr

/-- A number on the grid of a scale on which it fits stays as it is. -/
theorem fitFrom_of_grid (hq : q ≤ p) (hfits : F.FitsAt x q)
    (hx : OnGrid q x) : F.fitFrom x p = some x := by
  induction p with
  | zero =>
    obtain rfl : q = 0 := by omega
    simp only [fitFrom, if_pos hfits, hx.roundDp_eq]
  | succ p ih =>
    simp only [fitFrom]
    split
    · rw [(hx.mono hq).roundDp_eq]
    · rename_i hnot
      have : q ≠ p + 1 := by rintro rfl; exact hnot hfits
      exact ih (by omega)

/-- **The numbers of a format stay as they are.** -/
theorem fit_of_holds (h : F.Holds x) : F.fit x = some x := by
  obtain ⟨p, hp, hfits, hgrid⟩ := h
  exact fitFrom_of_grid hp hfits hgrid

/-- Rounding gives a number of the format. -/
theorem holds_of_fit (h : F.fit x = some y) : F.Holds y := by
  obtain ⟨q, hq, hfits, rfl, -⟩ := fitFrom_some h
  refine ⟨q, hq, ?_, onGrid_roundDp x q⟩
  have hmantissa : roundDp x q * 10 ^ q = halfEven (x * 10 ^ q) :=
    div_mul_cancel₀ _ (pow_pos_rat q).ne'
  unfold FitsAt
  rw [hmantissa, halfEven_intCast]
  exact hfits

theorem fit_zero (F : Format) : F.fit 0 = some 0 :=
  fit_of_holds ⟨0, F.scale.zero_le, by simp [FitsAt, halfEven], .zero⟩

/-! ## Rounding and order -/

/-- **Rounding passes no integer** above. -/
theorem fit_le (h : F.fit x = some y) (hx : x ≤ k) : y ≤ k := by
  obtain ⟨q, -, -, rfl, -⟩ := fitFrom_some h
  exact roundDp_le hx (OnGrid.mono q.zero_le ⟨k, by simp⟩)

/-- **Rounding passes no integer** below. -/
theorem le_fit (h : F.fit x = some y) (hx : k ≤ x) : k ≤ y := by
  obtain ⟨q, -, -, rfl, -⟩ := fitFrom_some h
  exact le_roundDp hx (OnGrid.mono q.zero_le ⟨k, by simp⟩)

theorem fitsAt_neg : F.FitsAt (-x) p ↔ F.FitsAt x p := by
  unfold FitsAt
  rw [neg_mul, halfEven_neg, abs_neg]

/-- A number that fits has at most the largest mantissa. -/
theorem FitsAt.roundDp_le (h : F.FitsAt x p) : roundDp x p ≤ F.bound / 10 ^ p :=
  div_le_div_of_nonneg_right (by exact_mod_cast (le_abs_self _).trans h) (pow_pos_rat p).le

/-- A number too large for a scale is rounded to no less than its largest mantissa on the next
one. -/
theorem le_roundDp_of_not_fitsAt (hx : 0 ≤ x) (h : ¬F.FitsAt x (p + 1)) :
    (F.bound : ℚ) / 10 ^ (p + 1) ≤ roundDp x p := by
  have hpos := pow_pos_rat p
  have hbig : (F.bound : ℤ) < halfEven (x * 10 ^ (p + 1)) := by
    have hnonneg := halfEven_nonneg (mul_nonneg hx (pow_pos_rat (p + 1)).le)
    unfold FitsAt at h
    rw [abs_of_nonneg hnonneg] at h
    exact not_le.1 h
  have hhalf := halfEven_sub_half_le (x * 10 ^ (p + 1))
  have hbig' : (F.bound : ℚ) + 1 ≤ halfEven (x * 10 ^ (p + 1)) := by exact_mod_cast hbig
  -- more than half of the last place is left over
  obtain ⟨m, d, hd, hd', hbound⟩ : ∃ m d : ℕ, 5 ≤ d ∧ d < 10 ∧ F.bound = 10 * m + d :=
    ⟨F.bound / 10, F.bound % 10, F.rounds, Nat.mod_lt _ (by norm_num), (Nat.div_add_mod _ _).symm⟩
  have hboundQ : (F.bound : ℚ) = 10 * m + d := by exact_mod_cast hbound
  have hdQ : (5 : ℚ) ≤ d ∧ (d : ℚ) < 10 := ⟨by exact_mod_cast hd, by exact_mod_cast hd'⟩
  have hup : (m : ℚ) < halfEven (x * 10 ^ p) := by
    have hnext := le_halfEven_add_half (x * 10 ^ p)
    have hscale : x * 10 ^ (p + 1) = 10 * (x * 10 ^ p) := by rw [pow_succ]; ring
    linarith [hdQ.1]
  have hup' : (m : ℚ) + 1 ≤ halfEven (x * 10 ^ p) := by
    have : (m : ℤ) < halfEven (x * 10 ^ p) := by exact_mod_cast hup
    exact_mod_cast this
  unfold roundDp
  rw [pow_succ, div_le_div_iff₀ (by positivity) hpos]
  nlinarith

/-- A number between two that fit has a smaller mantissa than one of them. -/
theorem FitsAt.of_nonneg (hx : 0 ≤ x) (hxy : x ≤ y) (hy : F.FitsAt y p) : F.FitsAt x p := by
  have hpos := pow_pos_rat p
  have hmono : halfEven (x * 10 ^ p) ≤ halfEven (y * 10 ^ p) :=
    halfEven_mono (mul_le_mul_of_nonneg_right hxy hpos.le)
  unfold FitsAt
  rw [abs_of_nonneg (halfEven_nonneg (mul_nonneg hx hpos.le))]
  exact hmono.trans ((le_abs_self _).trans hy)

/-- The larger of two numbers may need a coarser scale, and stays the larger one on it. -/
theorem roundDp_le_of_coarser (hpq : p < q) (hxy : x ≤ y) (hx : F.FitsAt x q)
    (hy : ∀ r, p < r → r ≤ q → ¬F.FitsAt y r) : roundDp x q ≤ roundDp y p := by
  have hy0 : 0 ≤ y := by
    by_contra hneg
    have hfits : F.FitsAt (-y) q :=
      FitsAt.of_nonneg (by linarith) (neg_le_neg hxy) (fitsAt_neg.2 hx)
    exact hy q hpq le_rfl (fitsAt_neg.1 hfits)
  calc roundDp x q ≤ F.bound / 10 ^ q := hx.roundDp_le
    _ ≤ F.bound / 10 ^ (p + 1) := by
      refine div_le_div_of_nonneg_left F.bound.cast_nonneg (pow_pos_rat _) ?_
      exact pow_le_pow_right₀ (by norm_num) hpq
    _ ≤ roundDp y p := le_roundDp_of_not_fitsAt hy0 (hy (p + 1) p.lt_succ_self hpq)

/-- **Rounding keeps the order.** -/
theorem fit_mono (hxy : x ≤ y) (hx : F.fit x = some x') (hy : F.fit y = some y') : x' ≤ y' := by
  obtain ⟨q, hq, hqfits, rfl, hqfinest⟩ := fitFrom_some hx
  obtain ⟨r, hr, hrfits, rfl, hrfinest⟩ := fitFrom_some hy
  rcases lt_trichotomy q r with hlt | rfl | hlt
  · -- the smaller number is the one on the coarser scale: both below zero
    have hneg := roundDp_le_of_coarser hlt (neg_le_neg hxy) (fitsAt_neg.2 hrfits)
      fun s hs hs' hfits => hqfinest s hs (hs'.trans hr) (fitsAt_neg.1 hfits)
    rw [roundDp_neg, roundDp_neg] at hneg
    exact neg_le_neg_iff.1 hneg
  · exact roundDp_mono hxy
  · exact roundDp_le_of_coarser hlt hxy hqfits fun s hs hs' => hrfinest s hs (hs'.trans hq)

end Format

end Mantissa
