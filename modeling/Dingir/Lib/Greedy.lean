import Mathlib.Tactic

/-!
# Filling a demand in order

`fill size left l` takes from the elements of `l`, in their order, as much as each
has, until nothing of the demand `left` is left. All it takes from but the last
are emptied (`fill_full`), and it leaves none out before one it takes from
(`fill_prefix`).

`buy` does the same at the prices of the elements and within a budget: where the
budget does not cover what there is to take it takes what the budget buys, cut to
whole units.
-/

namespace Greedy

variable {α R : Type*} [AddCommGroup R] [LinearOrder R] (size : α → R)

/-- What is taken from each element. -/
def fill (left : R) : List α → List (α × R)
  | [] => []
  | a :: as => if left = 0 then [] else (a, min left (size a)) :: fill (left - min left (size a)) as

@[simp] theorem fill_nil (left : R) : fill size left [] = [] := rfl

@[simp] theorem fill_zero (l : List α) : fill size (0 : R) l = [] := by cases l <;> simp [fill]

theorem fill_cons {left : R} (h : left ≠ 0) (a : α) (as : List α) :
    fill size left (a :: as) = (a, min left (size a)) :: fill size (left - min left (size a)) as :=
  if_neg h

/-- None is left out before one that is taken from. -/
theorem fill_prefix (left : R) (l : List α) : (fill size left l).map Prod.fst <+: l := by
  induction l generalizing left with
  | nil => exact List.prefix_rfl
  | cons a as ih =>
    by_cases h : left = 0
    · subst h
      rw [fill_zero]
      exact List.nil_prefix
    · rw [fill_cons size h]
      exact List.cons_prefix_cons.2 ⟨rfl, ih _⟩

/-- All but the last are emptied. -/
theorem fill_full (left : R) (l : List α) : ∀ e ∈ (fill size left l).dropLast, e.2 = size e.1 := by
  induction l generalizing left with
  | nil => simp
  | cons a as ih =>
    by_cases h : left = 0
    · subst h
      simp
    rw [fill_cons size h]
    rcases min_choice left (size a) with hmin | hmin
    · -- the demand ends here
      rw [hmin, sub_self, fill_zero]
      simp
    · intro e he
      cases hrest : fill size (left - min left (size a)) as with
      | nil =>
        rw [hrest] at he
        simp at he
      | cons f fs =>
        rw [hrest, List.dropLast_cons_cons] at he
        rcases List.mem_cons.1 he with rfl | he
        · exact hmin
        · exact ih _ e (hrest ▸ he)

/-! ## Within a budget -/

section Budget

variable {K : Type*} [Field K] [LinearOrder K] (stock price : α → K) (cut : K → K)

/-- What is bought from each element. -/
def buy (left budget : K) : List α → List (α × K)
  | [] => []
  | a :: as =>
    if left = 0 then []
    else if budget < price a * min left (stock a) then
      let bought := cut (budget / price a)
      if bought = 0 then [] else (a, bought) :: buy (left - bought) (budget - price a * bought) as
    else (a, min left (stock a)) ::
      buy (left - min left (stock a)) (budget - price a * min left (stock a)) as

variable {left budget : K}

@[simp] theorem buy_nil : buy stock price cut left budget [] = [] := rfl

@[simp] theorem buy_zero (l : List α) : buy stock price cut 0 budget l = [] := by
  cases l <;> simp [buy]

/-- The budget covers what there is to take. -/
theorem buy_covered (h : left ≠ 0) {a : α} (hcost : price a * min left (stock a) ≤ budget)
    (as : List α) :
    buy stock price cut left budget (a :: as) = (a, min left (stock a)) ::
      buy stock price cut (left - min left (stock a)) (budget - price a * min left (stock a))
        as := by
  rw [buy, if_neg h, if_neg (not_lt.2 hcost)]

/-- The budget buys less than there is. -/
theorem buy_limited (h : left ≠ 0) {a : α} (hcost : budget < price a * min left (stock a))
    (hcut : cut (budget / price a) ≠ 0) (as : List α) :
    buy stock price cut left budget (a :: as) = (a, cut (budget / price a)) ::
      buy stock price cut (left - cut (budget / price a))
      (budget - price a * cut (budget / price a)) as := by
  rw [buy, if_neg h, if_pos hcost]
  exact if_neg hcut

/-- The budget buys nothing more. -/
theorem buy_spent {a : α} (hcost : budget < price a * min left (stock a))
    (hcut : cut (budget / price a) = 0) (as : List α) :
    buy stock price cut left budget (a :: as) = [] := by
  by_cases h : left = 0
  · rw [buy, if_pos h]
  · rw [buy, if_neg h, if_pos hcost]
    exact if_pos hcut

end Budget

end Greedy
