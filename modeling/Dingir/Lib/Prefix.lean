import Mathlib.Data.List.TakeWhile
import Mathlib.Order.Bounds.Basic
import Mathlib.Tactic

/-!
# The longest prefix that meets a condition

What is known of `l.takeWhile p`: it depends only on what is before an element where
`p` fails, and in an ascending list its last element is the greatest one up to which
all meet `p` (`isGreatest_takeWhile`).
-/

namespace Prefix

variable {α : Type*} {p q : α → Bool} {l r : List α} {a : α}

theorem takeWhile_congr (h : ∀ x ∈ l, p x = q x) : l.takeWhile p = l.takeWhile q := by
  induction l with
  | nil => rfl
  | cons b l ih =>
    rw [List.takeWhile_cons, List.takeWhile_cons, h b (by simp),
      ih fun x hx => h x (List.mem_cons_of_mem _ hx)]

theorem takeWhile_append_stop (ha : p a = false) : (l ++ a :: r).takeWhile p = l.takeWhile p := by
  induction l with
  | nil => simp [ha]
  | cons b l ih => rw [List.cons_append, List.takeWhile_cons, List.takeWhile_cons, ih]

theorem getLast?_append_cons : (l ++ a :: r).getLast? = r.getLast?.or (some a) := by
  rw [List.getLast?_append, List.getLast?_cons]
  cases r.getLast? <;> rfl

/-- The list is used up, or the condition fails right behind the prefix. -/
theorem takeWhile_cases (p : α → Bool) (l : List α) :
    l.takeWhile p = l ∨ ∃ a rest, l = l.takeWhile p ++ a :: rest ∧ p a = false := by
  induction l with
  | nil => exact .inl rfl
  | cons b l ih =>
    rw [List.takeWhile_cons]
    cases hb : p b with
    | false => exact .inr ⟨b, l, by simp, hb⟩
    | true =>
      rcases ih with ih | ⟨a, rest, hl, ha⟩
      · exact .inl (by simp [ih])
      · exact .inr ⟨a, rest, by simpa using hl, ha⟩

theorem le_of_getLast? [Preorder α] (hl : l.Pairwise (· ≤ ·)) (h : l.getLast? = some a) {x : α}
    (hx : x ∈ l) : x ≤ a := by
  obtain ⟨front, rfl⟩ := List.getLast?_eq_some_iff.1 h
  rcases List.mem_append.1 hx with hx | hx
  · exact (List.pairwise_append.1 hl).2.2 x hx a (by simp)
  · exact (List.mem_singleton.1 hx).le

/-- **In an ascending list.** -/
theorem isGreatest_takeWhile [Preorder α] (hl : l.Pairwise (· < ·))
    (h : (l.takeWhile p).getLast? = some a) :
    IsGreatest {x | x ∈ l ∧ ∀ y ∈ l, y ≤ x → p y = true} a := by
  have ha : a ∈ l.takeWhile p := List.mem_of_getLast? h
  have hfront : (l.takeWhile p).Pairwise (· < ·) := hl.sublist (List.takeWhile_sublist p)
  rcases takeWhile_cases p l with hall | ⟨b, rest, hsplit, hb⟩
  · rw [hall] at ha h
    refine ⟨⟨ha, fun y hy _ => ?_⟩, fun x hx => le_of_getLast? (hl.imp le_of_lt) h hx.1⟩
    rw [← hall] at hy
    exact List.mem_takeWhile_imp hy
  · rw [hsplit] at hl
    obtain ⟨-, hback, hcross⟩ := List.pairwise_append.1 hl
    refine ⟨⟨List.takeWhile_subset p ha, fun y hy hya => ?_⟩, ?_⟩
    · rw [hsplit, List.mem_append] at hy
      rcases hy with hy | hy
      · exact List.mem_takeWhile_imp hy
      · exact absurd hya (hcross a ha y hy).not_ge
    · rintro x ⟨hx, hup⟩
      rw [hsplit, List.mem_append, List.mem_cons] at hx
      rcases hx with hx | rfl | hx
      · exact le_of_getLast? (hfront.imp le_of_lt) h hx
      · -- the condition fails at `b`, and `b` is no further than what is behind it
        have := hup x (by rw [hsplit]; simp) le_rfl
        simp [hb] at this
      · have := hup b (by rw [hsplit]; simp) ((List.pairwise_cons.1 hback).1 x hx).le
        simp [hb] at this

/-- In an ascending list, what is before an element of the prefix is in the prefix. -/
theorem mem_takeWhile_of_le [Preorder α] (hl : l.Pairwise (· < ·)) {x y : α}
    (hx : x ∈ l.takeWhile p) (hy : y ∈ l) (hle : y ≤ x) : y ∈ l.takeWhile p := by
  rcases takeWhile_cases p l with hall | ⟨b, rest, hsplit, -⟩
  · rwa [hall]
  · rw [hsplit] at hl hy
    obtain ⟨-, -, hcross⟩ := List.pairwise_append.1 hl
    rcases List.mem_append.1 hy with hy | hy
    · exact hy
    · exact absurd hle (hcross x hx y hy).not_ge

end Prefix
