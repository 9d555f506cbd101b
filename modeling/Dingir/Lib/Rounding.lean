import Mathlib.Tactic
import Mathlib.Algebra.Order.Floor.Ring
import Mathlib.Data.Rat.Floor

/-!
# Decimal grids and rounding

The decimals with `p` digits after the point form the grid `OnGrid p`, the
multiples of `10 ^ (-p)`. Two roundings onto it: `roundDp`, to the nearest grid
point with ties to even, and `truncDp`, towards zero. Both fix the grid, and
both stay on the same side of every grid point, which is all that exact
accounting needs of them.
-/

namespace Rounding

/-- `x` has at most `p` decimal digits after the point. -/
def OnGrid (p : ℕ) (x : ℚ) : Prop := ∃ n : ℤ, x = n / 10 ^ p

/-- The integer nearest to `y`, ties to even. -/
def halfEven (y : ℚ) : ℤ :=
  if y - ⌊y⌋ < 1 / 2 then ⌊y⌋
  else if 1 / 2 < y - ⌊y⌋ then ⌊y⌋ + 1
  else if ⌊y⌋ % 2 = 0 then ⌊y⌋
  else ⌊y⌋ + 1

/-- The integer part of `y`, towards zero. -/
def trunc (y : ℚ) : ℤ := if 0 ≤ y then ⌊y⌋ else ⌈y⌉

/-- Rounding to `p` digits, to the nearest, ties to even. -/
def roundDp (x : ℚ) (p : ℕ) : ℚ := halfEven (x * 10 ^ p) / 10 ^ p

/-- Rounding to `p` digits, towards zero. -/
def truncDp (x : ℚ) (p : ℕ) : ℚ := trunc (x * 10 ^ p) / 10 ^ p

variable {p q : ℕ} {x y : ℚ}

theorem pow_pos_rat (p : ℕ) : (0 : ℚ) < 10 ^ p := by positivity

/-! ## The grid -/

theorem OnGrid.zero : OnGrid p 0 := ⟨0, by simp⟩

theorem OnGrid.add (hx : OnGrid p x) (hy : OnGrid p y) : OnGrid p (x + y) := by
  obtain ⟨m, rfl⟩ := hx
  obtain ⟨n, rfl⟩ := hy
  exact ⟨m + n, by push_cast; ring⟩

theorem OnGrid.neg (hx : OnGrid p x) : OnGrid p (-x) := by
  obtain ⟨m, rfl⟩ := hx
  exact ⟨-m, by push_cast; ring⟩

theorem OnGrid.sub (hx : OnGrid p x) (hy : OnGrid p y) : OnGrid p (x - y) := by
  rw [sub_eq_add_neg]; exact hx.add hy.neg

theorem OnGrid.abs (hx : OnGrid p x) : OnGrid p |x| := by
  rcases abs_choice x with h | h <;> rw [h]
  · exact hx
  · exact hx.neg

/-- Products add the digits. -/
theorem OnGrid.mul (hx : OnGrid p x) (hy : OnGrid q y) : OnGrid (p + q) (x * y) := by
  obtain ⟨m, rfl⟩ := hx
  obtain ⟨n, rfl⟩ := hy
  exact ⟨m * n, by push_cast; rw [pow_add]; field_simp⟩

/-- A coarser grid lies in a finer one. -/
theorem OnGrid.mono (h : p ≤ q) (hx : OnGrid p x) : OnGrid q x := by
  obtain ⟨m, rfl⟩ := hx
  obtain ⟨k, rfl⟩ := Nat.exists_eq_add_of_le h
  refine ⟨m * 10 ^ k, ?_⟩
  push_cast
  rw [pow_add]
  field_simp

theorem OnGrid.min (hx : OnGrid p x) (hy : OnGrid p y) : OnGrid p (min x y) := by
  rcases min_choice x y with h | h <;> rw [h] <;> assumption

/-! ## Rounding lands on the grid and fixes it -/

theorem halfEven_intCast (n : ℤ) : halfEven n = n := by
  unfold halfEven
  rw [Int.floor_intCast, sub_self, if_pos (by norm_num)]

theorem trunc_intCast (n : ℤ) : trunc n = n := by
  unfold trunc
  split <;> simp

theorem onGrid_roundDp (x : ℚ) (p : ℕ) : OnGrid p (roundDp x p) := ⟨_, rfl⟩

theorem onGrid_truncDp (x : ℚ) (p : ℕ) : OnGrid p (truncDp x p) := ⟨_, rfl⟩

theorem OnGrid.scaled (hx : OnGrid p x) : ∃ n : ℤ, x * 10 ^ p = n ∧ x = n / 10 ^ p := by
  obtain ⟨n, rfl⟩ := hx
  exact ⟨n, div_mul_cancel₀ _ (pow_pos_rat p).ne', rfl⟩

/-- **Rounding is the identity on the grid.** -/
theorem OnGrid.roundDp_eq (hx : OnGrid p x) : roundDp x p = x := by
  obtain ⟨n, hn, hx⟩ := hx.scaled
  unfold roundDp
  rw [hn, halfEven_intCast, ← hx]

theorem OnGrid.truncDp_eq (hx : OnGrid p x) : truncDp x p = x := by
  obtain ⟨n, hn, hx⟩ := hx.scaled
  unfold truncDp
  rw [hn, trunc_intCast, ← hx]

/-! ## Rounding and order -/

theorem halfEven_nonneg (hy : 0 ≤ y) : 0 ≤ halfEven y := by
  have h := Int.floor_nonneg.2 hy
  unfold halfEven
  split_ifs <;> omega

/-- Rounding does not pass an integer above. -/
theorem halfEven_le {n : ℤ} (h : y ≤ n) : halfEven y ≤ n := by
  have hf : ⌊y⌋ ≤ n := by exact_mod_cast (Int.floor_le y).trans h
  unfold halfEven
  split_ifs with h1 h2 h3
  · exact hf
  · -- above the middle: `⌊y⌋ = n` would put `y` above `n`
    have : ⌊y⌋ ≠ n := by rintro rfl; linarith
    omega
  · exact hf
  · have : ⌊y⌋ ≠ n := by rintro rfl; linarith
    omega

theorem roundDp_nonneg (hx : 0 ≤ x) : 0 ≤ roundDp x p := by
  have h := halfEven_nonneg (mul_nonneg hx (pow_pos_rat p).le)
  exact div_nonneg (by exact_mod_cast h) (pow_pos_rat p).le

/-- **Rounding does not pass a grid point above.** -/
theorem roundDp_le (h : x ≤ y) (hy : OnGrid p y) : roundDp x p ≤ y := by
  obtain ⟨n, hn, hy⟩ := hy.scaled
  rw [hy]
  have : x * 10 ^ p ≤ n := hn ▸ mul_le_mul_of_nonneg_right h (pow_pos_rat p).le
  exact div_le_div_of_nonneg_right (by exact_mod_cast halfEven_le this) (pow_pos_rat p).le

theorem truncDp_nonneg (hx : 0 ≤ x) : 0 ≤ truncDp x p := by
  have h : 0 ≤ x * 10 ^ p := mul_nonneg hx (pow_pos_rat p).le
  unfold truncDp trunc
  rw [if_pos h]
  exact div_nonneg (by exact_mod_cast Int.floor_nonneg.2 h) (pow_pos_rat p).le

theorem truncDp_le_self (hx : 0 ≤ x) : truncDp x p ≤ x := by
  have h : 0 ≤ x * 10 ^ p := mul_nonneg hx (pow_pos_rat p).le
  unfold truncDp trunc
  rw [if_pos h, div_le_iff₀ (pow_pos_rat p)]
  exact Int.floor_le _

theorem truncDp_nonpos (hx : x ≤ 0) : truncDp x p ≤ 0 := by
  have h : x * 10 ^ p ≤ 0 := mul_nonpos_of_nonpos_of_nonneg hx (pow_pos_rat p).le
  rcases hx.eq_or_lt with rfl | hx
  · simp [truncDp, trunc]
  · have hlt : x * 10 ^ p < 0 := mul_neg_of_neg_of_pos hx (pow_pos_rat p)
    unfold truncDp trunc
    rw [if_neg (not_le.2 hlt)]
    exact div_nonpos_of_nonpos_of_nonneg (by exact_mod_cast Int.ceil_le.2 (by simpa using h))
      (pow_pos_rat p).le

theorem self_le_truncDp (hx : x ≤ 0) : x ≤ truncDp x p := by
  rcases hx.eq_or_lt with rfl | hx
  · simp [truncDp, trunc]
  · have hlt : x * 10 ^ p < 0 := mul_neg_of_neg_of_pos hx (pow_pos_rat p)
    unfold truncDp trunc
    rw [if_neg (not_le.2 hlt), le_div_iff₀ (pow_pos_rat p)]
    exact Int.le_ceil _

/-! ## How far truncation goes -/

theorem trunc_nonneg_iff : 0 ≤ trunc y ↔ -1 < y := by
  unfold trunc
  split
  · rename_i hy
    exact ⟨fun _ => by linarith, fun _ => Int.floor_nonneg.2 hy⟩
  · have hceil : (-1 : ℤ) < ⌈y⌉ ↔ ((-1 : ℤ) : ℚ) < y := Int.lt_ceil
    push_cast at hceil
    rw [← hceil]
    omega

theorem trunc_le_iff {n : ℤ} (hn : 0 ≤ n) : trunc y ≤ n ↔ y < n + 1 := by
  unfold trunc
  split
  · exact Int.floor_le_iff
  · rename_i hy
    have hlt : y < 0 := not_le.1 hy
    have hn' : (0 : ℚ) ≤ n := by exact_mod_cast hn
    refine ⟨fun _ => by linarith, fun _ => Int.ceil_le.2 ?_⟩
    linarith

/-- A truncated value is not negative when less than one unit is missing. -/
theorem truncDp_nonneg_iff : 0 ≤ truncDp x p ↔ -(10 ^ p)⁻¹ < x := by
  have hp := pow_pos_rat p
  have hscale : -(10 ^ p)⁻¹ < x ↔ -1 < x * 10 ^ p := by
    rw [← div_lt_iff₀ hp, neg_div, one_div]
  unfold truncDp
  rw [hscale, ← trunc_nonneg_iff, le_div_iff₀ hp, zero_mul, Int.cast_nonneg_iff]

/-- **Truncation stays at or below a grid point** when the value is less than one unit above it. -/
theorem truncDp_le_iff (hy : OnGrid p y) (h : 0 ≤ y) : truncDp x p ≤ y ↔ x < y + (10 ^ p)⁻¹ := by
  obtain ⟨n, hn, rfl⟩ := hy.scaled
  have hp := pow_pos_rat p
  have hn0 : 0 ≤ n := by
    rw [le_div_iff₀ hp, zero_mul] at h
    exact_mod_cast h
  have hscale : x < n / 10 ^ p + (10 ^ p)⁻¹ ↔ x * 10 ^ p < n + 1 := by
    rw [← one_div, ← add_div, lt_div_iff₀ hp]
  unfold truncDp
  rw [hscale, ← trunc_le_iff hn0, div_le_div_iff_of_pos_right hp, Int.cast_le]

/-- Truncation loses less than one unit. -/
theorem lt_truncDp_add (hx : 0 ≤ x) : x < truncDp x p + (10 ^ p)⁻¹ :=
  (truncDp_le_iff (onGrid_truncDp x p) (truncDp_nonneg hx)).1 le_rfl

end Rounding
