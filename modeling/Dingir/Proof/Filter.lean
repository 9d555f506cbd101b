import Dingir.Spec.Update

/-!
# The duplicate filter

`Held c k e n`: the cache holds the key `k` until `e`, behind at most `n` newer
entries. A key just inserted is held behind none, and every insertion of another
key puts one more entry in front, until the capacity is reached
(`held_insert_of_ne`). A held key is found as long as it is not expired.

`Inserted P c n c'`: the cache `c'` is `c` after `n` insertions of keys in `P`.
-/

namespace Dingir

namespace TtlCache

variable {K : Type} [DecidableEq K] {c : TtlCache K} {now e ttl : Timestamp} {k j : K} {n : ℕ}

/-- `k` is held until `e`, behind at most `n` newer entries. -/
def Held (c : TtlCache K) (k : K) (e : Timestamp) (n : ℕ) : Prop :=
  ∃ l₁ l₂, c.entries = l₁ ++ (k, e) :: l₂ ∧ l₂.length ≤ n

omit [DecidableEq K] in
theorem Held.mono {n' : ℕ} (h : Held c k e n) (hn : n ≤ n') : Held c k e n' := by
  obtain ⟨l₁, l₂, hl, hlen⟩ := h
  exact ⟨l₁, l₂, hl, hlen.trans hn⟩

@[simp] theorem insert_capacity : (c.insert now k ttl).capacity = c.capacity := rfl

theorem Held.containsKey (h : Held c k e n) (hnow : now ≤ e) : c.containsKey now k = true := by
  obtain ⟨l₁, l₂, hl, -⟩ := h
  simp [TtlCache.containsKey, hl, hnow]

theorem held_insert (hc : 0 < c.capacity) : Held (c.insert now k ttl) k (now + ttl) 0 := by
  unfold insert Held
  simp only
  split
  · rename_i hlen
    -- something is older than the new entry, which therefore stays
    cases hf : c.entries.filter (fun e => e.1 ≠ k) with
    | nil => rw [hf] at hlen; simp at hlen; omega
    | cons a l => exact ⟨l, [], rfl, le_refl _⟩
  · exact ⟨_, [], rfl, le_refl _⟩

theorem held_insert_of_ne (hk : k ≠ j) (h : Held c k e n) (hn : n + 1 < c.capacity) :
    Held (c.insert now j ttl) k e (n + 1) := by
  obtain ⟨l₁, l₂, hl, hlen⟩ := h
  have hf : c.entries.filter (fun e => e.1 ≠ j) =
      l₁.filter (fun e => e.1 ≠ j) ++ (k, e) :: l₂.filter (fun e => e.1 ≠ j) := by
    rw [hl, List.filter_append, List.filter_cons, if_pos (by simpa using hk)]
  have hl₂ : (l₂.filter (fun e => e.1 ≠ j) ++ [(j, now + ttl)]).length ≤ n + 1 := by
    rw [List.length_append, List.length_singleton]
    exact Nat.succ_le_succ ((List.length_filter_le _ _).trans hlen)
  unfold insert Held
  simp only
  rw [hf, List.append_assoc, List.cons_append]
  split
  · rename_i hcap
    cases h₁ : l₁.filter (fun e => e.1 ≠ j) with
    | nil =>
      rw [h₁] at hcap
      rw [List.nil_append, List.length_cons] at hcap
      omega
    | cons a l => exact ⟨l, _, rfl, hl₂⟩
  · exact ⟨_, _, rfl, hl₂⟩

/-! ## Several insertions -/

/-- The cache after `n` insertions of keys in `P`. -/
inductive Inserted (P : K → Prop) (c : TtlCache K) : ℕ → TtlCache K → Prop
  | refl : Inserted P c 0 c
  | insert {n : ℕ} {c' : TtlCache K} {now ttl : Timestamp} {k : K} :
      Inserted P c n c' → P k → Inserted P c (n + 1) (c'.insert now k ttl)

variable {P Q : K → Prop} {c' c'' : TtlCache K} {n' : ℕ}

theorem Inserted.trans (h : Inserted P c n c') (h' : Inserted P c' n' c'') :
    Inserted P c (n + n') c'' := by
  induction h' with
  | refl => exact h
  | insert _ hk ih => exact ih.insert hk

theorem Inserted.mono (h : Inserted P c n c') (hPQ : ∀ k, P k → Q k) : Inserted Q c n c' := by
  induction h with
  | refl => exact .refl
  | insert _ hk ih => exact ih.insert (hPQ _ hk)

theorem Inserted.capacity (h : Inserted P c n c') : c'.capacity = c.capacity := by
  induction h with
  | refl => rfl
  | insert _ _ ih => exact ih

/-- The entries are old ones or inserted ones. -/
theorem Inserted.mem (h : Inserted P c n c') {a : K × Timestamp}
    (ha : a ∈ c'.entries) : a ∈ c.entries ∨ P a.1 := by
  induction h with
  | refl => exact .inl ha
  | @insert n c' now ttl k _ hk ih =>
    have hsub : a ∈ c'.entries.filter (fun e => e.1 ≠ k) ++ [(k, now + ttl)] := by
      unfold TtlCache.insert at ha
      simp only at ha
      split at ha
      · exact List.mem_of_mem_drop ha
      · exact ha
    rcases List.mem_append.1 hsub with hm | hm
    · exact ih (List.mem_of_mem_filter hm)
    · obtain rfl := List.mem_singleton.1 hm
      exact .inr hk

/-- **A key stays held while others are inserted**, until the cache is full. -/
theorem Inserted.held (h : Inserted P c n' c') (hk : ¬ P k) (hheld : Held c k e n)
    (hn : n + n' < c.capacity) : Held c' k e (n + n') := by
  induction h with
  | refl => exact hheld
  | @insert m d now ttl j hd hj ih =>
    refine held_insert_of_ne (fun he => hk (he ▸ hj)) (ih (by omega)) ?_
    rw [hd.capacity]; omega

/-- A key that no entry has is not found. -/
theorem containsKey_eq_false (h : ∀ a ∈ c.entries, a.1 ≠ k) : c.containsKey now k = false := by
  simp only [TtlCache.containsKey, List.any_eq_false, Bool.and_eq_true, decide_eq_true_eq, not_and]
  exact fun a ha hak => absurd hak (h a ha)

/-! ## Two caches -/

/-- `c'` holds the keys of `c` in their order, with times of its own. -/
structure SameKeys (c c' : TtlCache K) : Prop where
  capacity : c'.capacity = c.capacity
  keys : c'.entries.map Prod.fst = c.entries.map Prod.fst

omit [DecidableEq K] in
theorem SameKeys.symm (h : c.SameKeys c') : c'.SameKeys c := ⟨h.capacity.symm, h.keys.symm⟩

/-- The keys after an insertion, which the times do not matter for. -/
theorem keys_insert (c : TtlCache K) (now : Timestamp) (k : K) (ttl : Timestamp) :
    (c.insert now k ttl).entries.map Prod.fst =
      let keys := (c.entries.map Prod.fst).filter (· ≠ k) ++ [k]
      if c.capacity < keys.length then keys.drop 1 else keys := by
  have hkeys : (c.entries.filter (fun e => e.1 ≠ k) ++ [(k, now + ttl)]).map Prod.fst =
      (c.entries.map Prod.fst).filter (· ≠ k) ++ [k] := by
    rw [List.map_append, List.filter_map]
    rfl
  have hlen := congrArg List.length hkeys
  rw [List.length_map] at hlen
  unfold insert
  simp only [hlen]
  split
  · rw [List.map_drop, hkeys]
  · exact hkeys

theorem SameKeys.insert {τ : Timestamp} (h : c.SameKeys c') :
    (c.insert now k ttl).SameKeys (c'.insert τ k ttl) := by
  refine ⟨h.capacity, ?_⟩
  rw [keys_insert, keys_insert, h.keys, h.capacity]

/-- Nothing that was inserted at a moment has expired then. -/
theorem alive_insert (httl : 0 ≤ ttl) (h : ∀ a ∈ c.entries, now ≤ a.2) :
    ∀ a ∈ (c.insert now k ttl).entries, now ≤ a.2 := by
  intro a ha
  have hsub : a ∈ c.entries.filter (fun e => e.1 ≠ k) ++ [(k, now + ttl)] := by
    unfold insert at ha
    simp only at ha
    split at ha
    · exact List.mem_of_mem_drop ha
    · exact ha
  rcases List.mem_append.1 hsub with hm | hm
  · exact h a (List.mem_of_mem_filter hm)
  · obtain rfl := List.mem_singleton.1 hm
    exact le_add_of_nonneg_right httl

/-- A key that is not found among entries that are alive is in no entry, here or in a cache with the
same keys. -/
theorem SameKeys.fresh (h : c.SameKeys c') (halive : ∀ a ∈ c.entries, now ≤ a.2)
    (hk : c.containsKey now k = false) : ∀ a ∈ c'.entries, a.1 ≠ k := by
  rintro a ha rfl
  have hmem : a.1 ∈ c.entries.map Prod.fst := h.keys ▸ List.mem_map_of_mem ha
  obtain ⟨e, he, hkey⟩ := List.mem_map.1 hmem
  simp only [containsKey, List.any_eq_false, Bool.and_eq_true, decide_eq_true_eq, not_and] at hk
  exact hk e he hkey (halive e he)

end TtlCache

end Dingir
