import Mathlib.Data.List.Sort
import Mathlib.Tactic

/-!
# Reading a table page by page

A scan asks for the rows with an id above the last one seen, in ascending order
and at most `limit` of them, until a page is short (or until one is empty). When
the ids differ, the pages together are all rows above the start, each once, in
ascending order (`flatten_pages`).

Pages may also be asked for by offset. Of a list that stays, they are the list
(`flatMap_slice`). Of one that grows at the front between the pages, they still hold
every row of the first list once a page is short (`exists_slice_of_growing`).

Rows that were written more than once are read next to each other, and are the rows once
the repetitions are left out (`dedup_of_repeated`).
-/

namespace Paging

variable {R : Type*} (idOf : R → ℕ)

/-- The rows above `last`, in ascending order. -/
def above (rows : List R) (last : ℕ) : List R :=
  (rows.filter fun r => last < idOf r).mergeSort fun a b => idOf a ≤ idOf b

/-- One page. -/
def page (limit : ℕ) (rows : List R) (last : ℕ) : List R := (above idOf rows last).take limit

theorem mem_above {rows : List R} {last : ℕ} {r : R} :
    r ∈ above idOf rows last ↔ r ∈ rows ∧ last < idOf r := by
  simp [above]

/-- A scan that starts below every id misses no row. -/
theorem above_perm {rows : List R} {last : ℕ} (h : ∀ r ∈ rows, last < idOf r) :
    (above idOf rows last).Perm rows := by
  unfold above
  rw [List.filter_eq_self.2 (by simpa using h)]
  exact List.mergeSort_perm _ _

/-- Rows already in order, above the start, are scanned as they are. -/
theorem above_of_sorted {rows : List R} {last : ℕ} (h : ∀ r ∈ rows, last < idOf r)
    (hsorted : rows.Pairwise fun a b => idOf a ≤ idOf b) : above idOf rows last = rows := by
  unfold above
  rw [List.filter_eq_self.2 (by simpa using h)]
  exact List.mergeSort_of_pairwise (hsorted.imp fun hab => by simpa using hab)

theorem above_length_lt {rows : List R} {last : ℕ} {r : R} (hr : r ∈ above idOf rows last) :
    (above idOf rows (idOf r)).length < (above idOf rows last).length := by
  obtain ⟨hmem, hlt⟩ := (mem_above idOf).1 hr
  unfold above
  rw [List.length_mergeSort, List.length_mergeSort]
  have : (rows.filter fun s => idOf r < idOf s) =
      (rows.filter fun s => last < idOf s).filter fun s => idOf r < idOf s := by
    rw [List.filter_filter]
    apply List.filter_congr
    intro s _
    simp only [Bool.and_eq_decide, decide_eq_decide, decide_eq_true_eq]
    omega
  rw [this]
  refine List.length_filter_lt_length_iff_exists.2 ⟨r,
    List.mem_filter.2 ⟨hmem, by simpa using hlt⟩, by simp⟩

/-- The pages of a scan: it goes on while a page is full, or with `untilEmpty`
while a page is not empty. -/
def pages (limit : ℕ) (untilEmpty : Bool) (rows : List R) (last : ℕ) : List (List R) :=
  match _h : (page idOf limit rows last).getLast? with
  | none => []
  | some r =>
    if untilEmpty ∨ (page idOf limit rows last).length = limit then
      page idOf limit rows last :: pages limit untilEmpty rows (idOf r)
    else [page idOf limit rows last]
termination_by (above idOf rows last).length
decreasing_by exact above_length_lt idOf (List.mem_of_mem_take (List.mem_of_getLast? ‹_›))

/-- Without a row above the start there is no page. -/
theorem pages_none {limit : ℕ} {untilEmpty : Bool} {rows : List R} {last : ℕ}
    (h : ∀ r ∈ rows, idOf r ≤ last) : pages idOf limit untilEmpty rows last = [] := by
  have habove : above idOf rows last = [] := by
    refine List.eq_nil_iff_forall_not_mem.2 fun r hr => ?_
    obtain ⟨hmem, hlt⟩ := (mem_above idOf).1 hr
    have hle := h r hmem
    omega
  have hpage : page idOf limit rows last = [] := by
    unfold page
    rw [habove]
    exact List.take_nil
  rw [pages]
  split
  · rfl
  · simp_all

/-- What a scan reads are rows of the table. -/
theorem mem_of_mem_pages {limit : ℕ} {untilEmpty : Bool} {rows : List R} {last : ℕ} {r : R}
    (hr : r ∈ (pages idOf limit untilEmpty rows last).flatten) : r ∈ rows := by
  have hpage : ∀ {last}, r ∈ page idOf limit rows last → r ∈ rows := fun h =>
    ((mem_above idOf).1 (List.mem_of_mem_take h)).1
  induction last using pages.induct idOf limit untilEmpty rows with
  | case1 last hnone =>
    rw [pages] at hr
    split at hr
    · simp at hr
    · simp_all
  | case2 last s hs hgo ih =>
    rw [pages] at hr
    split at hr
    · simp at hr
    · rename_i s' hs'
      obtain rfl : s = s' := by simpa [hs] using hs'
      rw [if_pos hgo, List.flatten_cons, List.mem_append] at hr
      rcases hr with hr | hr
      · exact hpage hr
      · exact ih hr
  | case3 last s hs hgo =>
    rw [pages] at hr
    split at hr
    · simp at hr
    · rw [if_neg hgo, List.flatten_singleton] at hr
      exact hpage hr

/-- With different ids the ascending rows are a strictly ascending list. -/
theorem above_pairwise {rows : List R} (h : (rows.map idOf).Nodup) (last : ℕ) :
    (above idOf rows last).Pairwise fun a b => idOf a < idOf b := by
  have hsorted : (above idOf rows last).Pairwise fun a b => idOf a ≤ idOf b := by
    have hle := @List.pairwise_mergeSort _ (fun a b => decide (idOf a ≤ idOf b))
      (by intro a b c; simp only [decide_eq_true_eq]; omega) (by intro a b; simp; omega)
      (rows.filter fun r => last < idOf r)
    unfold above
    simpa using hle
  have hnodup : ((above idOf rows last).map idOf).Nodup := by
    unfold above
    exact ((List.mergeSort_perm _ _).map idOf).nodup_iff.2
      (h.sublist (List.filter_sublist.map idOf))
  rw [List.nodup_iff_pairwise_ne, List.pairwise_map] at hnodup
  exact hsorted.imp₂ (fun a b hle hne => lt_of_le_of_ne hle hne) hnodup

/-- What is above a row of the ascending list is what comes after it. -/
theorem above_of_append {rows : List R} (h : (rows.map idOf).Nodup) {last : ℕ} {l₁ l₂ : List R}
    {r : R} (hl : above idOf rows last = l₁ ++ r :: l₂) : above idOf rows (idOf r) = l₂ := by
  have hpw := above_pairwise idOf h last
  rw [hl] at hpw
  have hpw₂ := (List.pairwise_cons.1 (List.pairwise_append.1 hpw).2.1)
  refine @List.Perm.eq_of_pairwise _ (fun a b => idOf a < idOf b) _ _
    (fun a b _ _ hab hba => absurd hab hba.not_gt) (above_pairwise idOf h _) hpw₂.2 ?_
  have hnodup : ∀ last, (above idOf rows last).Nodup := fun last =>
    (above_pairwise idOf h last).imp fun hab he => by rw [he] at hab; exact hab.false
  rw [List.perm_ext_iff_of_nodup (hnodup _) (by
    have := hnodup last
    rw [hl] at this
    exact (List.nodup_cons.1 (List.nodup_append.1 this).2.1).2)]
  intro s
  rw [mem_above]
  have hmem : ∀ t, t ∈ rows ∧ last < idOf t ↔ t ∈ l₁ ∨ t = r ∨ t ∈ l₂ := by
    intro t
    rw [← mem_above idOf, hl]; simp
  have hr := (hmem r).2 (by simp)
  constructor
  · rintro ⟨hs, hlt⟩
    rcases (hmem s).1 ⟨hs, hr.2.trans hlt⟩ with h₁ | rfl | h₂
    · exact absurd ((List.pairwise_append.1 hpw).2.2 s h₁ r (by simp)) hlt.not_gt
    · exact absurd hlt (lt_irrefl _)
    · exact h₂
  · intro hs
    exact ⟨((hmem s).2 (by simp [hs])).1, hpw₂.1 s hs⟩

/-- **The pages together are the rows above the start, in ascending order.** -/
theorem flatten_pages {limit : ℕ} (hlimit : 0 < limit) (untilEmpty : Bool) {rows : List R}
    (h : (rows.map idOf).Nodup) (last : ℕ) :
    (pages idOf limit untilEmpty rows last).flatten = above idOf rows last := by
  induction last using pages.induct idOf limit untilEmpty rows with
  | case1 last hnone =>
    rw [pages]
    have hpage := List.getLast?_eq_none_iff.1 hnone
    split
    · unfold page at hpage
      rcases List.take_eq_nil_iff.1 hpage with h0 | h0
      · omega
      · rw [h0]; rfl
    · simp_all
  | case2 last r hr hgo ih =>
    rw [pages]
    split
    · simp_all
    · rename_i r' hr'
      obtain rfl : r = r' := by simpa [hr] using hr'
      rw [if_pos hgo, List.flatten_cons, ih]
      obtain ⟨l₁, hl₁⟩ : ∃ l₁, page idOf limit rows last = l₁ ++ [r] :=
        List.getLast?_eq_some_iff.1 hr
      have hsplit : above idOf rows last = l₁ ++ r :: (above idOf rows last).drop limit := by
        conv_lhs => rw [← List.take_append_drop limit (above idOf rows last)]
        rw [show (above idOf rows last).take limit = l₁ ++ [r] from hl₁]
        simp
      rw [above_of_append idOf h hsplit]
      exact List.take_append_drop limit _
  | case3 last r hr hgo =>
    rw [pages]
    split
    · simp_all
    · rw [if_neg hgo, List.flatten_singleton]
      rw [not_or] at hgo
      unfold page at hgo ⊢
      rw [List.length_take] at hgo
      exact List.take_of_length_le (by omega)

/-- Rows in strictly ascending order are read as they are. -/
theorem flatten_pages_of_sorted {limit : ℕ} (hlimit : 0 < limit) (untilEmpty : Bool) {rows : List R}
    {last : ℕ} (hsorted : rows.Pairwise fun a b => idOf a < idOf b)
    (h : ∀ r ∈ rows, last < idOf r) : (pages idOf limit untilEmpty rows last).flatten = rows := by
  have hnodup : (rows.map idOf).Nodup := by
    rw [List.nodup_iff_pairwise_ne, List.pairwise_map]
    exact hsorted.imp fun hlt => hlt.ne
  rw [flatten_pages idOf hlimit untilEmpty hnodup]
  exact above_of_sorted idOf h (hsorted.imp fun hlt => hlt.le)

/-- Rows numbered from one are read from the start on. -/
theorem flatten_pages_of_numbered {limit n k : ℕ} (hlimit : 0 < limit) (untilEmpty : Bool)
    {rows : List R} (h : rows.map idOf = List.range' 1 n) :
    (pages idOf limit untilEmpty rows k).flatten = rows.drop k := by
  have hsorted : rows.Pairwise fun a b => idOf a < idOf b := by
    have hrange := List.pairwise_lt_range' (s := 1) (n := n)
    rwa [← h, List.pairwise_map] at hrange
  have hnodup : (rows.map idOf).Nodup := h ▸ List.nodup_range'
  have hid : ∀ i (hi : i < rows.length), idOf rows[i] = i + 1 := by
    intro i hi
    have hget : (rows.map idOf)[i]? = (List.range' 1 n)[i]? := by rw [h]
    have hn : i < n := by
      have hlength := congrArg List.length h
      rw [List.length_map, List.length_range'] at hlength
      omega
    rw [List.getElem?_map, List.getElem?_eq_getElem hi, List.getElem?_range' hn] at hget
    simp only [Option.map_some, Option.some.injEq] at hget
    omega
  have hfront : ∀ r ∈ rows.take k, ¬ k < idOf r := by
    intro r hr
    obtain ⟨i, hi, rfl⟩ := List.mem_iff_getElem.1 hr
    rw [List.length_take] at hi
    rw [List.getElem_take, hid i (by omega)]
    omega
  have hback : ∀ r ∈ rows.drop k, k < idOf r := by
    intro r hr
    obtain ⟨i, hi, rfl⟩ := List.mem_iff_getElem.1 hr
    rw [List.length_drop] at hi
    rw [List.getElem_drop, hid (k + i) (by omega)]
    omega
  have hfilter : (rows.filter fun r => k < idOf r) = (rows.drop k).filter fun r => k < idOf r := by
    conv_lhs => rw [← List.take_append_drop k rows, List.filter_append]
    rw [List.filter_eq_nil_iff.2 (by simpa using hfront), List.nil_append]
  rw [flatten_pages idOf hlimit untilEmpty hnodup]
  have habove := above_of_sorted idOf hback
    ((hsorted.sublist (List.drop_sublist k rows)).imp fun hlt => hlt.le)
  unfold above at habove ⊢
  rw [hfilter]
  exact habove

/-! ## Pages by offset -/

/-- The page of `limit` rows after `k` pages. -/
def slice (limit : ℕ) (rows : List R) (k : ℕ) : List R := (rows.drop (k * limit)).take limit

/-- **The first pages of a list are its first rows.** -/
theorem flatMap_slice (limit : ℕ) (rows : List R) (n : ℕ) :
    (List.range n).flatMap (slice limit rows) = rows.take (n * limit) := by
  induction n with
  | zero => simp
  | succ n ih =>
    rw [List.range_succ, List.flatMap_append, ih, List.flatMap_singleton, slice, Nat.succ_mul,
      List.take_add]

/-- A longer descending list that only adds larger numbers adds them at the front. -/
theorem suffix_of_descending {l l' : List ℕ} (hl : l.Pairwise (· > ·)) (hl' : l'.Pairwise (· > ·))
    (hsub : ∀ a ∈ l, a ∈ l') (hnew : ∀ a ∈ l', a ∉ l → ∀ b ∈ l, b < a) : l <:+ l' := by
  have hnodup : ∀ {l : List ℕ}, l.Pairwise (· > ·) → l.Nodup := fun h => h.imp fun hab => hab.ne'
  have hpw : (l'.filter (· ∉ l) ++ l).Pairwise (· > ·) := by
    refine List.pairwise_append.2 ⟨hl'.filter _, hl, fun a ha b hb => ?_⟩
    obtain ⟨ha, hal⟩ := List.mem_filter.1 ha
    exact hnew a ha (by simpa using hal) b hb
  have hperm : (l'.filter (· ∉ l) ++ l).Perm l' := by
    refine (List.perm_ext_iff_of_nodup (hnodup hpw) (hnodup hl')).2 fun a => ?_
    rw [List.mem_append, List.mem_filter, decide_eq_true_eq]
    constructor
    · rintro (⟨ha, -⟩ | ha)
      · exact ha
      · exact hsub a ha
    · intro ha
      by_cases hal : a ∈ l
      · exact .inr hal
      · exact .inl ⟨ha, hal⟩
  exact ⟨_, hperm.eq_of_pairwise (fun a b _ _ hab hba => absurd hab hba.not_gt) hpw hl'⟩

/-- A row behind an offset stays behind it when rows are added at the front. -/
theorem mem_drop_of_suffix {l l' : List R} (h : l <:+ l') {n : ℕ} {r : R}
    (hr : r ∈ l.drop n) : r ∈ l'.drop n := by
  obtain ⟨new, rfl⟩ := h
  rw [List.drop_append]
  exact List.mem_append_right _ (List.drop_subset_drop_left l (Nat.sub_le n new.length) hr)

/-- **No row is missed while the list only grows at the front**: the pages up to a short one hold
every row that was there when the first was read. -/
theorem exists_slice_of_growing {limit n : ℕ} {ls : ℕ → List R}
    (hgrow : ∀ k < n, ls k <:+ ls (k + 1)) (hshort : (slice limit (ls n) n).length < limit) {r : R}
    (hr : r ∈ ls 0) : ∃ k ≤ n, r ∈ slice limit (ls k) k := by
  have hbehind : ∀ k ≤ n, (∃ j < k, r ∈ slice limit (ls j) j) ∨ r ∈ (ls k).drop (k * limit) := by
    intro k
    induction k with
    | zero => exact fun _ => .inr (by simpa using hr)
    | succ k ih =>
      intro hk
      rcases ih (by omega) with ⟨j, hj, hmem⟩ | hmem
      · exact .inl ⟨j, by omega, hmem⟩
      rw [← List.take_append_drop limit ((ls k).drop (k * limit)), List.mem_append,
        List.drop_drop] at hmem
      rcases hmem with hmem | hmem
      · exact .inl ⟨k, by omega, hmem⟩
      · exact .inr (mem_drop_of_suffix (hgrow k (by omega)) (by rw [Nat.succ_mul]; exact hmem))
  rcases hbehind n le_rfl with ⟨k, hk, hmem⟩ | hmem
  · exact ⟨k, hk.le, hmem⟩
  · -- the short page is the rest of the list
    refine ⟨n, le_rfl, ?_⟩
    unfold slice at hshort ⊢
    rw [List.length_take] at hshort
    rwa [List.take_of_length_le (by omega)]

/-! ## Rows that are read more than once -/

/-- **Rows in the order of their ids, read with repetitions**, are the rows once the repetitions are
left out. -/
theorem dedup_of_repeated [DecidableEq R] {l rows : List R}
    (hl : l.Pairwise fun a b => idOf a ≤ idOf b) (hrows : rows.Pairwise fun a b => idOf a < idOf b)
    (hmem : ∀ r, r ∈ l ↔ r ∈ rows) : l.dedup = rows := by
  have hids : ∀ a ∈ rows, ∀ b ∈ rows, idOf a = idOf b → a = b := fun a ha b hb =>
    List.inj_on_of_nodup_map
      (List.nodup_iff_pairwise_ne.2 (List.pairwise_map.2 (hrows.imp fun h => h.ne))) ha hb
  have hstrict : l.dedup.Pairwise fun a b => idOf a < idOf b := by
    refine ((hl.sublist (List.dedup_sublist l)).and (List.nodup_dedup l)).imp_of_mem
      fun {a b} ha hb h => ?_
    have hmem' : ∀ {r}, r ∈ l.dedup → r ∈ rows := fun hr => (hmem _).1 (List.mem_dedup.1 hr)
    exact lt_of_le_of_ne h.1 fun hid => h.2 (hids a (hmem' ha) b (hmem' hb) hid)
  have hnodup : ∀ {l : List R}, l.Pairwise (fun a b => idOf a < idOf b) → l.Nodup :=
    fun h => h.imp fun hab he => by
    rw [he] at hab
    exact hab.false
  have hperm : l.dedup.Perm rows :=
    (List.perm_ext_iff_of_nodup (List.nodup_dedup l) (hnodup hrows)).2 fun r => by
    rw [List.mem_dedup, hmem]
  exact hperm.eq_of_pairwise (fun a b _ _ hab hba => absurd hab hba.not_gt) hstrict hrows

end Paging
