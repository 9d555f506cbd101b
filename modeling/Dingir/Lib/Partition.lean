import Mathlib.Data.List.Nodup
import Mathlib.Data.List.Perm.Subperm
import Mathlib.Tactic.Cases

/-!
# A list split over partitions

A broker puts each entry of a list behind the others of some partition, or loses it. An
entry then has a place, a partition and an offset there.

* `mem_places`: the places are those of the partitions.
* `nodup_places`: no place is taken twice.
* `map_places`: where nothing is lost, the places hold the list.
* `Yields.subperm`, `Yields.perm`: what is written for each place, or once for each, is written for
  each entry, or once for each.
-/

namespace Dingir

/-- An entry at its place. -/
structure Place (P α : Type) where
  partition : P
  offset : ℕ
  entry : α

namespace Partitioned

variable {P α R S : Type} [DecidableEq P] {l : List (α × Option P)} {p : P} {e e' : Place P α}

/-- The entries of a partition, in their order. -/
def log (l : List (α × Option P)) (p : P) : List α :=
  l.filterMap fun e => if e.2 = some p then some e.1 else none

/-- The place behind an entry of `p` that came before. -/
def behind (p : P) (e : Place P α) : Place P α :=
  { e with offset := if e.partition = p then e.offset + 1 else e.offset }

/-- The places of the entries, in the order of the list; a lost entry has none. -/
def places : List (α × Option P) → List (Place P α)
  | [] => []
  | (_, none) :: l => places l
  | (a, some p) :: l => ⟨p, 0, a⟩ :: (places l).map (behind p)

theorem log_cons_none (a : α) : log ((a, none) :: l) p = log l p := by simp [log]

theorem log_cons_some (a : α) (q : P) :
    log ((a, some q) :: l) p = if q = p then a :: log l p else log l p := by
  by_cases h : q = p <;> simp [log, h]

theorem behind_inj (h : behind p e = behind p e') : e = e' := by
  obtain ⟨q, i, a⟩ := e
  obtain ⟨q', i', a'⟩ := e'
  simp only [behind, Place.mk.injEq] at h
  obtain ⟨rfl, hoffset, rfl⟩ := h
  have hi : i = i' := by
    split at hoffset
    · exact Nat.succ_inj.1 hoffset
    · exact hoffset
  rw [hi]

/-- Behind an entry of `p` the first place of `p` is free. -/
theorem behind_ne_first (a : α) : behind p e ≠ ⟨p, 0, a⟩ := by
  intro h
  simp only [behind, Place.mk.injEq] at h
  obtain ⟨hp, hoffset, -⟩ := h
  rw [if_pos hp] at hoffset
  exact Nat.succ_ne_zero _ hoffset

/-- **The places are those of the partitions.** -/
theorem mem_places : e ∈ places l ↔ (log l e.partition)[e.offset]? = some e.entry := by
  induction l generalizing e with
  | nil => simp [places, log]
  | cons head l ih =>
    obtain ⟨a, label⟩ := head
    cases label with
    | none => rw [places, log_cons_none, ih]
    | some p =>
      obtain ⟨q, i, b⟩ := e
      rw [places, log_cons_some, List.mem_cons, List.mem_map]
      by_cases hq : q = p
      · subst hq
        simp only [if_true]
        -- the new entry is first of its partition, and those behind it move up by one
        cases i with
        | zero =>
          simp only [List.getElem?_cons_zero, Option.some.injEq, Place.mk.injEq, true_and]
          refine ⟨fun h => ?_, fun h => .inl h.symm⟩
          rcases h with h | ⟨e', -, he'⟩
          · exact h.symm
          · exact absurd he' (behind_ne_first b)
        | succ i =>
          have hmem : (⟨q, i, b⟩ : Place P α) ∈ places l ↔ (log l q)[i]? = some b := ih
          rw [List.getElem?_cons_succ, ← hmem]
          refine ⟨fun h => ?_, fun h => .inr ⟨_, h, by simp [behind]⟩⟩
          rcases h with h | ⟨e', he', hsame⟩
          · simp at h
          · have hfrom : behind q ⟨q, i, b⟩ = (⟨q, i + 1, b⟩ : Place P α) := by simp [behind]
            rwa [behind_inj (hsame.trans hfrom.symm)] at he'
      · -- in another partition nothing moves
        have hmem : (⟨q, i, b⟩ : Place P α) ∈ places l ↔ (log l q)[i]? = some b := ih
        rw [if_neg (Ne.symm hq), ← hmem]
        have hfrom : behind p ⟨q, i, b⟩ = (⟨q, i, b⟩ : Place P α) := by simp [behind, hq]
        refine ⟨fun h => ?_, fun h => .inr ⟨_, h, hfrom⟩⟩
        rcases h with h | ⟨e', he', hsame⟩
        · exact absurd (congrArg Place.partition h) hq
        · rwa [behind_inj (hsame.trans hfrom.symm)] at he'

/-- **No place is taken twice.** -/
theorem nodup_places (l : List (α × Option P)) : (places l).Nodup := by
  induction l with
  | nil => exact List.nodup_nil
  | cons head l ih =>
    obtain ⟨a, label⟩ := head
    cases label with
    | none => exact ih
    | some p =>
      refine List.nodup_cons.2 ⟨fun h => ?_, ih.map fun e e' h => behind_inj h⟩
      obtain ⟨e, -, he⟩ := List.mem_map.1 h
      exact behind_ne_first a he

theorem place_inj (he : e ∈ places l) (he' : e' ∈ places l)
    (hpartition : e.partition = e'.partition) (hoffset : e.offset = e'.offset) : e = e' := by
  have hentry := mem_places.1 he
  rw [hpartition, hoffset, mem_places.1 he'] at hentry
  obtain ⟨p, i, a⟩ := e
  obtain ⟨p', i', a'⟩ := e'
  obtain rfl : p = p' := hpartition
  obtain rfl : i = i' := hoffset
  obtain rfl : a' = a := Option.some.inj hentry
  rfl

/-- **Where nothing is lost**, the places hold the list. -/
theorem map_places (h : ∀ e ∈ l, e.2 ≠ none) : (places l).map Place.entry = l.map Prod.fst := by
  induction l with
  | nil => rfl
  | cons head l ih =>
    obtain ⟨a, label⟩ := head
    cases label with
    | none => exact absurd rfl (h _ List.mem_cons_self)
    | some p =>
      have htail := ih fun e he => h e (List.mem_cons_of_mem _ he)
      have hbehind : (places l).map (Place.entry ∘ behind p) = (places l).map Place.entry :=
        List.map_congr_left fun e _ => rfl
      rw [places, List.map_cons, List.map_map, hbehind, htail]
      rfl

/-- What is made of the entries, place by place. -/
structure Yields (makes : Place P α → List R) (shown : R → S) (value : α → List S) : Prop where
  nodup : ∀ e, (makes e).Nodup
  apart : ∀ e e', ∀ r ∈ makes e, r ∈ makes e' → e.partition = e'.partition ∧ e.offset = e'.offset
  shown : ∀ e, (makes e).map shown = value e.entry

namespace Yields

variable {makes : Place P α → List R} {shown : R → S} {value : α → List S} {rows : List R}

theorem nodup_places (h : Yields makes shown value) (l : List (α × Option P)) :
    ((places l).flatMap makes).Nodup := by
  refine List.nodup_flatMap.2 ⟨fun e _ => h.nodup e,
    (Partitioned.nodup_places l).imp_of_mem fun {e e'} he he' hne r hr hr' => hne ?_⟩
  obtain ⟨hpartition, hoffset⟩ := h.apart e e' r hr hr'
  exact place_inj he he' hpartition hoffset

theorem shown_places (h : Yields makes shown value) (hlost : ∀ e ∈ l, e.2 ≠ none) :
    ((places l).flatMap makes).map shown = (l.map Prod.fst).flatMap value := by
  rw [List.map_flatMap, ← map_places hlost, List.flatMap_map]
  exact List.flatMap_congr fun e _ => h.shown e

/-- **What is written for each place** is written for each entry. -/
theorem subperm (h : Yields makes shown value) (hlost : ∀ e ∈ l, e.2 ≠ none)
    (hall : ∀ e ∈ places l, ∀ r ∈ makes e, r ∈ rows) :
    ((l.map Prod.fst).flatMap value).Subperm (rows.map shown) := by
  -- the rows made at the places are all different, so each counts
  have hsubperm : ((places l).flatMap makes).Subperm rows :=
    List.subperm_of_subset (h.nodup_places l) fun r hr => by
    obtain ⟨e, he, hr⟩ := List.mem_flatMap.1 hr
    exact hall e he r hr
  obtain ⟨some, hsame, hsub⟩ := hsubperm
  exact h.shown_places hlost ▸ ⟨some.map shown, hsame.map shown, hsub.map shown⟩

/-- **What is written once for each place**, and nothing else, is written once for each entry. -/
theorem perm (h : Yields makes shown value) (hlost : ∀ e ∈ l, e.2 ≠ none) (hnodup : rows.Nodup)
    (hmem : ∀ r, r ∈ rows ↔ ∃ e ∈ places l, r ∈ makes e) :
    (rows.map shown).Perm ((l.map Prod.fst).flatMap value) := by
  have hperm : rows.Perm ((places l).flatMap makes) :=
    (List.perm_ext_iff_of_nodup hnodup (h.nodup_places l)).2 fun r =>
      (hmem r).trans List.mem_flatMap.symm
  exact h.shown_places hlost ▸ hperm.map shown

end Yields

end Partitioned

end Dingir
