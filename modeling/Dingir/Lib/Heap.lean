import Mathlib.Logic.Function.Basic
import Mathlib.Tactic

/-!
# A heap of shared cells

Handles into a heap of cells of one type. A handle may be stored in several
places; writing a cell is seen through all of them. Cells are never freed, so
the next handle is always fresh.
-/

/-- Cells and the first handle not yet given out. -/
structure Heap (α : Type*) where
  read : ℕ → α
  next : ℕ

namespace Heap

variable {α : Type*} (h : Heap α) (r s : ℕ) (a : α)

/-- No cell given out yet. -/
def empty (a : α) : Heap α := ⟨fun _ => a, 0⟩

/-- A fresh cell holding `a`. -/
def alloc : ℕ × Heap α := (h.next, ⟨Function.update h.read h.next a, h.next + 1⟩)

/-- The cell of a handle is overwritten. -/
def write : Heap α := { h with read := Function.update h.read r a }

@[simp] theorem alloc_fst : (h.alloc a).1 = h.next := rfl

@[simp] theorem alloc_next : (h.alloc a).2.next = h.next + 1 := rfl

@[simp] theorem alloc_read_self : (h.alloc a).2.read h.next = a := by simp [alloc]

theorem alloc_read_of_lt {r : ℕ} (hr : r < h.next) : (h.alloc a).2.read r = h.read r := by
  simp [alloc, Function.update_of_ne hr.ne]

@[simp] theorem write_next : (h.write r a).next = h.next := rfl

@[simp] theorem write_read_self : (h.write r a).read r = a := by simp [write]

theorem write_read_of_ne {r s : ℕ} (hs : s ≠ r) : (h.write r a).read s = h.read s := by
  simp [write, Function.update_of_ne hs]

theorem write_read : (h.write r a).read s = if s = r then a else h.read s := by
  split
  · subst_vars; simp
  · exact h.write_read_of_ne a ‹_›

end Heap
