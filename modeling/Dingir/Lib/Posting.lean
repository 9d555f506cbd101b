import Mathlib.Algebra.BigOperators.Group.List.Basic
import Mathlib.Tactic

/-!
# Postings to accounts

A list of postings adds an amount to an account at each entry. `amountIn P l` is
what `l` adds to the accounts in `P` together; for one account `k` this is
`amountIn (· = k) l`. Both are additive in `l`, so a computation that posts
several times is read off the concatenation of its postings. `gainIn P l` leaves out
what `l` takes: no account comes to hold more on the way.
-/

namespace Posting

variable {K : Type*} {P : K → Prop} [DecidablePred P]

/-- What the postings `l` add to the accounts in `P`. -/
def amountIn (P : K → Prop) [DecidablePred P] (l : List (K × ℚ)) : ℚ :=
  (l.map fun e => if P e.1 then e.2 else 0).sum

@[simp] theorem amountIn_nil : amountIn P [] = 0 := rfl

@[simp] theorem amountIn_cons (k : K) (d : ℚ) (l : List (K × ℚ)) :
    amountIn P ((k, d) :: l) = (if P k then d else 0) + amountIn P l := by
  simp [amountIn]

@[simp] theorem amountIn_append (l l' : List (K × ℚ)) :
    amountIn P (l ++ l') = amountIn P l + amountIn P l' := by
  simp [amountIn]

/-- Accounts of two kinds that exclude each other are counted apart. -/
theorem amountIn_split {Q R : K → Prop} [DecidablePred Q] [DecidablePred R]
    (h : ∀ k, R k ↔ P k ∨ Q k) (hdisjoint : ∀ k, P k → ¬ Q k) (l : List (K × ℚ)) :
    amountIn R l = amountIn P l + amountIn Q l := by
  induction l with
  | nil => simp
  | cons e l ih =>
    obtain ⟨k, d⟩ := e
    rw [amountIn_cons, amountIn_cons, amountIn_cons, ih]
    by_cases hP : P k
    · rw [if_pos ((h k).2 (.inl hP)), if_pos hP, if_neg (hdisjoint k hP)]
      ring
    · have hR : R k ↔ Q k := by rw [h]; tauto
      simp only [hR, if_neg hP]
      ring

/-- Accounts that no posting names keep their amount. -/
theorem amountIn_eq_zero {l : List (K × ℚ)} (h : ∀ e ∈ l, ¬ P e.1) : amountIn P l = 0 := by
  induction l with
  | nil => rfl
  | cons e l ih =>
    obtain ⟨k, d⟩ := e
    rw [amountIn_cons, if_neg (h (k, d) (by simp)), ih fun e he => h e (by simp [he]), add_zero]

/-- What the postings `l` bring to the accounts in `P`, without what they take. -/
def gainIn (P : K → Prop) [DecidablePred P] (l : List (K × ℚ)) : ℚ :=
  (l.map fun e => if P e.1 then max e.2 0 else 0).sum

@[simp] theorem gainIn_nil : gainIn P [] = 0 := rfl

@[simp] theorem gainIn_cons (k : K) (d : ℚ) (l : List (K × ℚ)) :
    gainIn P ((k, d) :: l) = (if P k then max d 0 else 0) + gainIn P l := by
  simp [gainIn]

@[simp] theorem gainIn_append (l l' : List (K × ℚ)) :
    gainIn P (l ++ l') = gainIn P l + gainIn P l' := by
  simp [gainIn]

theorem gainIn_nonneg (l : List (K × ℚ)) : 0 ≤ gainIn P l := by
  induction l with
  | nil => exact le_rfl
  | cons e l ih =>
    obtain ⟨k, d⟩ := e
    rw [gainIn_cons]
    refine add_nonneg ?_ ih
    split
    · exact le_max_right d 0
    · exact le_rfl

/-- Some of the accounts gain no less than fewer of them come to hold. -/
theorem amountIn_le_gainIn {Q : K → Prop} [DecidablePred Q] (h : ∀ k, P k → Q k)
    (l : List (K × ℚ)) : amountIn P l ≤ gainIn Q l := by
  induction l with
  | nil => exact le_rfl
  | cons e l ih =>
    obtain ⟨k, d⟩ := e
    rw [amountIn_cons, gainIn_cons]
    refine add_le_add ?_ ih
    by_cases hP : P k
    · rw [if_pos hP, if_pos (h k hP)]
      exact le_max_left d 0
    · rw [if_neg hP]
      split
      · exact le_max_right d 0
      · exact le_rfl

end Posting
