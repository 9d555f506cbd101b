import Mathlib.Data.List.Nodup
import Mathlib.Tactic

/-!
# Tables of a database

Two kinds of tables. In a `Serial` table every inserted row gets the next
number, and no number is given out twice. A `Unique` table has a key: a row whose
key is taken is not inserted, and no error is raised (`ON CONFLICT DO NOTHING`).
Rows leave a table by deletion only.
-/

namespace Table

universe u

/-! ## Tables with a serial number -/

/-- Numbered rows, in the order of their numbers. -/
structure Serial (R : Type u) where
  rows : List (ℕ × R)
  /-- the last number given out -/
  last : ℕ
  ascending : rows.Pairwise fun e e' => e.1 < e'.1
  bounded : ∀ e ∈ rows, 0 < e.1 ∧ e.1 ≤ last

namespace Serial

variable {R : Type u}

def empty : Serial R := ⟨[], 0, .nil, by simp⟩

def insert (t : Serial R) (r : R) : Serial R where
  rows := t.rows ++ [(t.last + 1, r)]
  last := t.last + 1
  ascending := by
    refine List.pairwise_append.2 ⟨t.ascending, by simp, fun e he e' he' => ?_⟩
    have hle := (t.bounded e he).2
    rw [List.mem_singleton] at he'
    subst he'
    show e.1 < t.last + 1
    omega
  bounded e he := by
    rcases List.mem_append.1 he with he | he
    · have hb := t.bounded e he
      omega
    · rw [List.mem_singleton] at he
      subst he
      exact ⟨Nat.succ_pos _, le_rfl⟩

def insertAll (t : Serial R) (rs : List R) : Serial R := rs.foldl insert t

def delete (t : Serial R) (p : R → Bool) : Serial R where
  rows := t.rows.filter fun e => !p e.2
  last := t.last
  ascending := t.ascending.sublist List.filter_sublist
  bounded e he := t.bounded e (List.mem_of_mem_filter he)

/-- The row with the highest number. -/
def newest (t : Serial R) : Option R := t.rows.getLast?.map Prod.snd

theorem newest_insert (t : Serial R) (r : R) : (t.insert r).newest = some r := by
  simp [newest, insert]

/-- The newest row is still the newest after others are deleted. -/
theorem newest_delete {t : Serial R} {r : R} {p : R → Bool} (h : t.newest = some r)
    (hp : p r = false) : (t.delete p).newest = some r := by
  obtain ⟨e, he, rfl⟩ := Option.map_eq_some_iff.1 h
  obtain ⟨front, hrows⟩ := List.getLast?_eq_some_iff.1 he
  simp [newest, delete, hrows, List.filter_append, hp]

/-- **What is inserted comes after all there is**, in the order it is inserted. -/
theorem insertAll_rows (t : Serial R) (rs : List R) :
    ∃ new, (t.insertAll rs).rows = t.rows ++ new ∧ new.map Prod.snd = rs ∧
      ∀ e ∈ new, t.last < e.1 := by
  induction rs generalizing t with
  | nil => exact ⟨[], by simp [insertAll], rfl, by simp⟩
  | cons r rs ih =>
    obtain ⟨new, hrows, hnew, hlast⟩ := ih (t.insert r)
    refine ⟨(t.last + 1, r) :: new, ?_, by simp [hnew], fun e he => ?_⟩
    · show ((t.insert r).insertAll rs).rows = _
      rw [hrows]
      simp [insert]
    · rcases List.mem_cons.1 he with rfl | he
      · exact Nat.lt_succ_self _
      · have hlt := hlast e he
        exact (Nat.lt_succ_self _).trans hlt

theorem mem_delete {t : Serial R} {p : R → Bool} {e : ℕ × R} :
    e ∈ (t.delete p).rows ↔ e ∈ t.rows ∧ p e.2 = false := by
  simp [delete, List.mem_filter]

end Serial

/-! ## Tables with a key -/

/-- Rows with different keys. -/
structure Unique {K R : Type u} (key : R → K) where
  rows : List R
  nodup : (rows.map key).Nodup

namespace Unique

variable {K R : Type u} {key : R → K}

def empty : Unique key := ⟨[], .nil⟩

def insert [DecidableEq K] (t : Unique key) (r : R) : Unique key :=
  if h : key r ∈ t.rows.map key then t
  else
    { rows := t.rows ++ [r]
      nodup := by
        rw [List.map_append, List.nodup_append]
        refine ⟨t.nodup, by simp, fun a ha b hb => ?_⟩
        rw [List.map_singleton, List.mem_singleton] at hb
        subst hb
        rintro rfl
        exact h ha }

def insertAll [DecidableEq K] (t : Unique key) (rs : List R) : Unique key := rs.foldl insert t

def delete (t : Unique key) (p : R → Bool) : Unique key where
  rows := t.rows.filter fun r => !p r
  nodup := t.nodup.sublist (List.filter_sublist.map key)

theorem mem_delete {t : Unique key} {p : R → Bool} {r : R} :
    r ∈ (t.delete p).rows ↔ r ∈ t.rows ∧ p r = false := by
  simp [delete, List.mem_filter]

variable [DecidableEq K]

theorem mem_insert {t : Unique key} {r s : R} :
    s ∈ (t.insert r).rows ↔ s ∈ t.rows ∨ s = r ∧ key r ∉ t.rows.map key := by
  unfold insert
  by_cases h : key r ∈ t.rows.map key
  · rw [dif_pos h]
    simp only [h, not_true_eq_false, and_false, or_false]
  · rw [dif_neg h]
    simp only [List.mem_append, List.mem_singleton, h, not_false_eq_true, and_true]

/-- **Rows whose keys are free are inserted, and the old rows stay.** -/
theorem mem_insertAll {rs : List R} (h : (rs.map key).Nodup) (t : Unique key) {s : R} :
    s ∈ (t.insertAll rs).rows ↔ s ∈ t.rows ∨ s ∈ rs ∧ key s ∉ t.rows.map key := by
  induction rs generalizing t with
  | nil => simp [insertAll]
  | cons r rs ih =>
    rw [List.map_cons, List.nodup_cons] at h
    have hkeys : key s ∈ (t.insert r).rows.map key → s ∈ rs → key s ∈ t.rows.map key := by
      intro hs hmem
      obtain ⟨q, hq, hkey⟩ := List.mem_map.1 hs
      rcases mem_insert.1 hq with hq | ⟨rfl, -⟩
      · exact List.mem_map.2 ⟨q, hq, hkey⟩
      · exact absurd (hkey ▸ List.mem_map.2 ⟨s, hmem, rfl⟩) h.1
    have hold : key s ∈ t.rows.map key → key s ∈ (t.insert r).rows.map key := by
      intro hs
      obtain ⟨q, hq, hkey⟩ := List.mem_map.1 hs
      exact List.mem_map.2 ⟨q, mem_insert.2 (.inl hq), hkey⟩
    show s ∈ ((t.insert r).insertAll rs).rows ↔ _
    rw [ih h.2, mem_insert, List.mem_cons]
    constructor
    · rintro ((hs | ⟨rfl, hfree⟩) | ⟨hs, hfree⟩)
      · exact .inl hs
      · exact .inr ⟨.inl rfl, hfree⟩
      · exact .inr ⟨.inr hs, fun hc => hfree (hold hc)⟩
    · rintro (hs | ⟨rfl | hs, hfree⟩)
      · exact .inl (.inl hs)
      · exact .inl (.inr ⟨rfl, hfree⟩)
      · exact .inr ⟨hs, fun hc => hfree (hkeys hc hs)⟩

/-- What is inserted is new, or was there. -/
theorem mem_of_mem_insertAll {t : Unique key} {rs : List R} {s : R}
    (h : s ∈ (t.insertAll rs).rows) : s ∈ t.rows ∨ s ∈ rs := by
  induction rs generalizing t with
  | nil => exact .inl h
  | cons r rs ih =>
    rcases ih (t := t.insert r) h with hs | hs
    · rcases mem_insert.1 hs with hs | ⟨rfl, -⟩
      · exact .inl hs
      · exact .inr List.mem_cons_self
    · exact .inr (List.mem_cons_of_mem r hs)

/-- Each row that was to be inserted has its key in the table. -/
theorem keys_insertAll {rs : List R} (t : Unique key) :
    ∀ k, k ∈ t.rows.map key ∨ k ∈ rs.map key → k ∈ (t.insertAll rs).rows.map key := by
  induction rs generalizing t with
  | nil =>
    intro k hk
    exact hk.resolve_right (by simp)
  | cons r rs ih =>
    intro k hk
    refine ih (t.insert r) k ?_
    rw [List.map_cons, List.mem_cons] at hk
    rcases hk with hk | rfl | hk
    · obtain ⟨s, hs, rfl⟩ := List.mem_map.1 hk
      exact .inl (List.mem_map_of_mem (mem_insert.2 (.inl hs)))
    · refine .inl ?_
      by_cases htaken : key r ∈ t.rows.map key
      · obtain ⟨s, hs, hkey⟩ := List.mem_map.1 htaken
        rw [← hkey]
        exact List.mem_map_of_mem (mem_insert.2 (.inl hs))
      · exact List.mem_map_of_mem (mem_insert.2 (.inr ⟨rfl, htaken⟩))
    · exact .inr hk

/-- **Inserting a row again changes nothing**: when a key tells the row, a new table holds what was
to be inserted, however often that was. -/
theorem mem_empty_insertAll {rs : List R} (h : ∀ r ∈ rs, ∀ s ∈ rs, key r = key s → r = s) {s : R} :
    s ∈ ((empty : Unique key).insertAll rs).rows ↔ s ∈ rs := by
  have hsub : ∀ {r}, r ∈ ((empty : Unique key).insertAll rs).rows → r ∈ rs := fun hr =>
    (mem_of_mem_insertAll hr).resolve_left (by simp [empty])
  refine ⟨hsub, fun hs => ?_⟩
  obtain ⟨r, hr, hkey⟩ :=
    List.mem_map.1 (keys_insertAll (empty : Unique key) (key s) (.inr (List.mem_map_of_mem hs)))
  rwa [h r (hsub hr) s hs hkey] at hr

end Unique

end Table
