import Mathlib.Data.List.AList
import Mathlib.Algebra.BigOperators.Group.List.Basic
import Mathlib.Order.Compare
import Mathlib.Tactic
import Std.Data.TreeMap.Lemmas

/-!
# Sums over keyed collections

A hash map is an `AList`, an ordered map a `Std.TreeMap`. For both, the tally of
a function of the entries, and what inserting and erasing do to it: an entry
present splits off (`tally_erase`), an insertion puts its entry in place of the
old one (`hashTally_insert`). A tally is the sum of its parts (`hashTally_parts`).
-/

namespace Keyed

variable {K V M : Type*}

/-! ## Hash maps -/

section Hash

variable [DecidableEq K]

/-- A hash map: the order of the entries carries no meaning. -/
abbrev HashMap (K V : Type*) := AList (fun _ : K => V)

/-- The value of a key. -/
def HashMap.find? (m : HashMap K V) (k : K) : Option V := AList.lookup k m

theorem find?_empty (k : K) : (∅ : HashMap K V).find? k = none := rfl

theorem find?_insert (m : HashMap K V) (k a : K) (v : V) :
    HashMap.find? (m.insert k v) a = if a = k then some v else m.find? a := by
  unfold HashMap.find?
  split
  · subst_vars; exact AList.lookup_insert m
  · exact AList.lookup_insert_ne ‹_›

@[simp] theorem find?_insert_self (m : HashMap K V) (k : K) (v : V) :
    HashMap.find? (m.insert k v) k = some v := AList.lookup_insert m

theorem find?_insert_of_ne (m : HashMap K V) {k a : K} (v : V) (h : a ≠ k) :
    HashMap.find? (m.insert k v) a = m.find? a := AList.lookup_insert_ne h

theorem mem_entries_iff {m : HashMap K V} {k : K} {v : V} :
    (⟨k, v⟩ : Sigma fun _ : K => V) ∈ m.entries ↔ m.find? k = some v := AList.mem_lookup_iff.symm

omit [DecidableEq K] in
theorem nodupKeys_map {W : Type*} (f : V → W) (l : List (Sigma fun _ : K => V)) (h : l.NodupKeys) :
    (l.map fun e => (⟨e.1, f e.2⟩ : Sigma fun _ : K => W)).NodupKeys := by
  unfold List.NodupKeys List.keys at h ⊢
  rw [List.map_map]
  exact h

/-- Every value of a hash map changed, the keys kept. -/
def mapValues {W : Type*} (f : V → W) (m : HashMap K V) : HashMap K W :=
  ⟨m.entries.map fun e => ⟨e.1, f e.2⟩, nodupKeys_map f m.entries m.nodupKeys⟩

theorem find?_mapValues {W : Type*} (f : V → W) (m : HashMap K V) (k : K) :
    (mapValues f m).find? k = (m.find? k).map f := by
  obtain ⟨l, hl⟩ := m
  show List.dlookup k (l.map fun e => (⟨e.1, f e.2⟩ : Sigma fun _ : K => W)) =
    (List.dlookup k l).map f
  clear hl
  induction l with
  | nil => rfl
  | cons e l ih =>
    obtain ⟨a, b⟩ := e
    by_cases hk : k = a
    · subst hk; simp [List.dlookup_cons_eq]
    · rw [List.map_cons, List.dlookup_cons_ne _ _ hk, List.dlookup_cons_ne _ _ hk, ih]

/-- **What a fold over the entries does to one key**, when an entry touches what is read of its own
key only. -/
theorem foldl_entries {S X : Type*} (step : S → K → V → S) (read : S → X) (own : V → X → X) {k : K}
    (hown : ∀ s v, read (step s k v) = own v (read s))
    (hother : ∀ s a v, a ≠ k → read (step s a v) = read s) (m : HashMap K V) (s : S) :
    read (m.entries.foldl (fun s e => step s e.1 e.2) s) = (m.find? k).elim (read s) fun v =>
      own v (read s) := by
  obtain ⟨l, hl⟩ := m
  show read (l.foldl (fun s e => step s e.1 e.2) s) =
    (List.dlookup k l).elim (read s) fun v => own v (read s)
  have hout : ∀ (l : List (Sigma fun _ : K => V)) s, k ∉ l.keys →
      read (l.foldl (fun s e => step s e.1 e.2) s) = read s := by
    intro l
    induction l with
    | nil => exact fun _ _ => rfl
    | cons e l ih =>
      intro s hk
      rw [List.keys_cons, List.mem_cons, not_or] at hk
      rw [List.foldl_cons, ih _ hk.2, hother _ _ _ (Ne.symm hk.1)]
  induction l generalizing s with
  | nil => rfl
  | cons e l ih =>
    obtain ⟨a, v⟩ := e
    rw [List.nodupKeys_cons] at hl
    rw [List.foldl_cons]
    by_cases hk : k = a
    · subst hk
      rw [hout l _ hl.1, hown, List.dlookup_cons_eq]
      rfl
    · rw [ih _ hl.2, hother _ _ _ (Ne.symm hk), List.dlookup_cons_ne _ _ hk]

variable [AddCommMonoid M]

/-- The sum of `f` over the entries of a hash map. -/
def hashTally (f : K → V → M) (m : HashMap K V) : M := (m.entries.map fun e => f e.1 e.2).sum

omit [DecidableEq K] in
@[simp] theorem hashTally_empty (f : K → V → M) : hashTally f (∅ : HashMap K V) = 0 := rfl

theorem hashTally_erase {f : K → V → M} {m : HashMap K V} {k : K} {v : V} (h : m.find? k = some v) :
    hashTally f m = f k v + hashTally f (m.erase k) := by
  have hm : (⟨k, v⟩ : Sigma fun _ : K => V) ∈ m.entries := mem_entries_iff.2 h
  obtain ⟨b, l₁, l₂, hl₁, hl, he⟩ := List.exists_of_kerase (List.mem_keys_of_mem hm)
  have hb : b = v := m.nodupKeys.eq_of_mk_mem (by rw [hl]; simp) hm
  subst hb
  unfold hashTally AList.erase
  simp only
  rw [he, hl]
  simp only [List.map_append, List.map_cons, List.sum_append, List.sum_cons]
  rw [← add_assoc, add_comm _ (f k b), add_assoc]

theorem hashTally_insert (f : K → V → M) (m : HashMap K V) (k : K) (v : V) :
    hashTally f (m.insert k v) = f k v + hashTally f (m.erase k) := by
  unfold hashTally AList.erase
  simp [AList.entries_insert]

theorem erase_of_find?_none {m : HashMap K V} {k : K} (h : m.find? k = none) : m.erase k = m := by
  apply AList.ext
  exact List.kerase_of_notMem_keys (AList.lookup_eq_none.1 h)

/-- Inserting replaces what the key counted for before, if anything. -/
theorem hashTally_insert_sub {G : Type*} [AddCommGroup G] (f : K → V → G) (m : HashMap K V) (k : K)
    (v : V) :
    hashTally f (m.insert k v) = hashTally f m + (f k v - ((m.find? k).map (f k)).getD 0) := by
  rw [hashTally_insert]
  cases h : m.find? k with
  | none =>
    rw [erase_of_find?_none h]
    simp [add_comm]
  | some w =>
    rw [hashTally_erase h]
    simp only [Option.map_some, Option.getD_some]
    abel

/-- Two functions that agree on the entries have the same tally. -/
theorem hashTally_congr {f g : K → V → M} {m : HashMap K V}
    (h : ∀ k v, m.find? k = some v → f k v = g k v) : hashTally f m = hashTally g m := by
  unfold hashTally
  congr 1
  apply List.map_congr_left
  intro e he
  exact h e.1 e.2 (mem_entries_iff.1 he)

/-- Each entry counts for no more than all of them, when none counts negative. -/
theorem le_hashTally [Preorder M] [IsOrderedAddMonoid M] {f : K → V → M} {m : HashMap K V}
    (h : ∀ k v, m.find? k = some v → 0 ≤ f k v) {k : K} {v : V}
    (hk : m.find? k = some v) : f k v ≤ hashTally f m := by
  refine List.single_le_sum (fun x hx => ?_) _ (List.mem_map.2 ⟨⟨k, v⟩, mem_entries_iff.2 hk, rfl⟩)
  obtain ⟨e, he, rfl⟩ := List.mem_map.1 hx
  exact h e.1 e.2 (mem_entries_iff.1 he)

/-- A tally as a sum over some keys, with zero where the map has nothing. -/
theorem hashTally_eq_sum [Zero V] {f : K → V → M} {m : HashMap K V} {S : Finset K}
    (hf : ∀ k, f k 0 = 0) (hS : ∀ k v, m.find? k = some v → k ∈ S) :
    hashTally f m = ∑ k ∈ S, f k ((m.find? k).getD 0) := by
  have hentries :
      hashTally f m = ((m.entries.map Sigma.fst).map fun k => f k ((m.find? k).getD 0)).sum := by
    unfold hashTally
    rw [List.map_map]
    refine congrArg List.sum (List.map_congr_left fun e he => ?_)
    have hfind : m.find? e.1 = some e.2 := mem_entries_iff.1 he
    simp [hfind]
  have hnodup : (m.entries.map Sigma.fst).Nodup := m.nodupKeys
  rw [hentries, ← List.sum_toFinset _ hnodup]
  refine Finset.sum_subset (fun k hk => ?_) fun k _ hk => ?_
  · obtain ⟨e, he, rfl⟩ := List.mem_map.1 (List.mem_toFinset.1 hk)
    exact hS e.1 e.2 (mem_entries_iff.1 he)
  · cases hfind : m.find? k with
    | none => exact hf k
    | some v =>
      have hmem : k ∈ m.entries.map Sigma.fst :=
        List.mem_map.2 ⟨⟨k, v⟩, mem_entries_iff.2 hfind, rfl⟩
      exact absurd (List.mem_toFinset.2 hmem) hk

/-- Maps that agree up to entries of zero have the same tally. -/
theorem hashTally_eq_of_getD [Zero V] {f : K → V → M} {m m' : HashMap K V} (hf : ∀ k, f k 0 = 0)
    (h : ∀ k, (m'.find? k).getD 0 = (m.find? k).getD 0) : hashTally f m' = hashTally f m := by
  let S : Finset K := (m.entries.map Sigma.fst).toFinset ∪ (m'.entries.map Sigma.fst).toFinset
  have hS : ∀ (n : HashMap K V), n = m ∨ n = m' → ∀ k v, n.find? k = some v → k ∈ S := by
    rintro n hn k v hk
    have hmem : k ∈ (n.entries.map Sigma.fst).toFinset :=
      List.mem_toFinset.2 (List.mem_map.2 ⟨⟨k, v⟩, mem_entries_iff.2 hk, rfl⟩)
    rcases hn with rfl | rfl
    · exact Finset.mem_union_left _ hmem
    · exact Finset.mem_union_right _ hmem
  rw [hashTally_eq_sum hf (hS m (.inl rfl)), hashTally_eq_sum hf (hS m' (.inr rfl))]
  exact Finset.sum_congr rfl fun k _ => by rw [h]

/-- Maps with the same values under `f` and `g` have the same tally. -/
theorem hashTally_eq_of_map {W : Type*} {f : V → M} {g : W → M} {m : HashMap K V} {m' : HashMap K W}
    (h : ∀ k, (m.find? k).map f = (m'.find? k).map g) :
    hashTally (fun _ => f) m = hashTally (fun _ => g) m' := by
  have hp : (mapValues f m).entries.Perm (mapValues g m').entries := by
    refine List.lookup_ext (mapValues f m).nodupKeys (mapValues g m').nodupKeys fun k v => ?_
    have hk : (mapValues f m).find? k = (mapValues g m').find? k := by
      rw [find?_mapValues, find?_mapValues, h]
    rw [show List.dlookup k (mapValues f m).entries = (mapValues f m).find? k from rfl, hk]
    rfl
  have hs := (hp.map Sigma.snd).sum_eq
  unfold mapValues at hs
  simp only [List.map_map] at hs
  exact hs

end Hash

/-! ## Ordered maps -/

section Tree

open Std

variable [Ord K] [TransOrd K] [LawfulEqOrd K]

/-- The values of an ordered map, in the order of the keys. -/
def values (t : TreeMap K V) : List V := t.toList.map Prod.snd

theorem getElem?_insert [DecidableEq K] (t : TreeMap K V) (k a : K) (v : V) :
    (t.insert k v)[a]? = if k = a then some v else t[a]? := by
  rw [TreeMap.getElem?_insert]
  simp only [LawfulEqCmp.compare_eq_iff_eq]

theorem getElem?_erase [DecidableEq K] (t : TreeMap K V) (k a : K) :
    (t.erase k)[a]? = if k = a then none else t[a]? := by
  rw [TreeMap.getElem?_erase]
  simp only [LawfulEqCmp.compare_eq_iff_eq]

theorem nodup_toList (t : TreeMap K V) : t.toList.Nodup := by
  have h := TreeMap.distinct_keys_toList (t := t)
  refine h.imp ?_
  rintro a _ hab rfl
  exact hab ReflCmp.compare_self

theorem nodup_keys (t : TreeMap K V) : (t.toList.map Prod.fst).Nodup := by
  rw [List.nodup_iff_pairwise_ne, List.pairwise_map]
  refine (TreeMap.distinct_keys_toList (t := t)).imp ?_
  rintro a b hab he
  exact hab (by rw [he]; exact ReflCmp.compare_self)

theorem mem_values {t : TreeMap K V} {v : V} : v ∈ values t ↔ ∃ k : K, t[k]? = some v := by
  unfold values
  constructor
  · intro h
    obtain ⟨e, he, rfl⟩ := List.mem_map.1 h
    exact ⟨e.1, TreeMap.mem_toList_iff_getElem?_eq_some.1 he⟩
  · rintro ⟨k, hk⟩
    exact List.mem_map.2 ⟨(k, v), TreeMap.mem_toList_iff_getElem?_eq_some.2 hk, rfl⟩

/-- Values held under one key each are listed once. -/
theorem nodup_values {t : TreeMap K V}
    (h : ∀ (k k' : K) (v : V), t[k]? = some v → t[k']? = some v → k = k') : (values t).Nodup := by
  refine List.Nodup.map_on ?_ (nodup_toList t)
  rintro ⟨k, v⟩ hk ⟨k', v'⟩ hk' (rfl : v = v')
  rw [TreeMap.mem_toList_iff_getElem?_eq_some] at hk hk'
  rw [h k k' v hk hk']

/-- A map with some of the entries of another lists them in the same order. -/
theorem toList_eq_filter {s t : TreeMap K V} {p : V → Bool}
    (h : ∀ (k : K) (v : V), s[k]? = some v ↔ t[k]? = some v ∧ p v = true) :
    s.toList = t.toList.filter fun e => p e.2 := by
  have hperm : s.toList.Perm (t.toList.filter fun e => p e.2) := by
    refine (List.perm_ext_iff_of_nodup (nodup_toList s) ((nodup_toList t).filter _)).2 ?_
    rintro ⟨k, v⟩
    simp only [List.mem_filter, TreeMap.mem_toList_iff_getElem?_eq_some, h]
  have hs := TreeMap.ordered_keys_toList (t := s)
  have ht := (TreeMap.ordered_keys_toList (t := t)).filter fun e => p e.2
  refine hperm.eq_of_pairwise (fun a b _ _ hab hba => ?_) hs ht
  have hswap : compare a.1 b.1 = (compare b.1 a.1).swap := OrientedCmp.eq_swap
  rw [hswap, hba] at hab
  cases hab

theorem values_eq_filter {s t : TreeMap K V} {p : V → Bool}
    (h : ∀ (k : K) (v : V), s[k]? = some v ↔ t[k]? = some v ∧ p v = true) :
    values s = (values t).filter p := by
  rw [values, toList_eq_filter h, values, List.filter_map]
  rfl

theorem mem_keys (t : TreeMap K V) (k : K) : k ∈ t.toList.map Prod.fst ↔ t[k]?.isSome = true := by
  rw [List.mem_map, Option.isSome_iff_exists]
  constructor
  · rintro ⟨e, he, rfl⟩
    exact ⟨e.2, TreeMap.mem_toList_iff_getElem?_eq_some.1 he⟩
  · rintro ⟨v, hv⟩
    exact ⟨(k, v), TreeMap.mem_toList_iff_getElem?_eq_some.2 hv, rfl⟩

omit [LawfulEqOrd K] in
theorem keys_sorted (t : TreeMap K V) :
    (t.toList.map Prod.fst).Pairwise fun a b => compare a b = .lt :=
  List.pairwise_map.2 TreeMap.ordered_keys_toList

/-- Two ordered maps with the same keys list them alike. -/
theorem keys_eq {W : Type*} {s : TreeMap K V} {t : TreeMap K W}
    (h : ∀ k : K, s[k]?.isSome = t[k]?.isSome) : s.toList.map Prod.fst = t.toList.map Prod.fst := by
  have hperm : (s.toList.map Prod.fst).Perm (t.toList.map Prod.fst) := by
    refine (List.perm_ext_iff_of_nodup (nodup_keys s) (nodup_keys t)).2 fun k => ?_
    rw [mem_keys, mem_keys, h]
  refine hperm.eq_of_pairwise (fun a b _ _ hab hba => ?_) (keys_sorted s) (keys_sorted t)
  have hswap : compare a b = (compare b a).swap := OrientedCmp.eq_swap
  rw [hswap, hba] at hab
  cases hab

/-- **Ordered maps that are related key by key** list related values. -/
theorem values_forall₂ {W : Type*} {s : TreeMap K V} {t : TreeMap K W} {P : V → W → Prop}
    (h : ∀ k : K, Option.Rel P s[k]? t[k]?) : List.Forall₂ P (values s) (values t) := by
  have hsome : ∀ k : K, s[k]?.isSome = t[k]?.isSome := by
    intro k
    have hk := h k
    generalize s[k]? = a at hk ⊢
    generalize t[k]? = b at hk ⊢
    cases hk <;> rfl
  have hkeys := keys_eq hsome
  rw [← List.forall₂_eq_eq_eq, List.forall₂_map_left_iff, List.forall₂_map_right_iff,
    List.forall₂_iff_zip] at hkeys
  unfold values
  rw [List.forall₂_map_left_iff, List.forall₂_map_right_iff, List.forall₂_iff_zip]
  refine ⟨hkeys.1, fun {e e'} he => ?_⟩
  obtain ⟨hs, ht⟩ := List.of_mem_zip he
  have hk := h e.1
  rw [TreeMap.mem_toList_iff_getElem?_eq_some.1 hs, hkeys.2 he,
    TreeMap.mem_toList_iff_getElem?_eq_some.1 ht] at hk
  cases hk with
  | some hP => exact hP

variable [AddCommMonoid M]

/-- The sum of `f` over the entries of an ordered map. -/
def tally (f : K → V → M) (t : TreeMap K V) : M := (t.toList.map fun e => f e.1 e.2).sum

omit [TransOrd K] [LawfulEqOrd K] in
@[simp] theorem tally_empty (f : K → V → M) : tally f (∅ : TreeMap K V) = 0 := by
  rfl

theorem tally_of_perm {f : K → V → M} {s t : TreeMap K V} (h : ∀ k : K, s[k]? = t[k]?) :
    tally f s = tally f t := by
  have hp : s.toList.Perm t.toList := by
    rw [List.perm_ext_iff_of_nodup (nodup_toList s) (nodup_toList t)]
    rintro ⟨k, v⟩
    rw [TreeMap.mem_toList_iff_getElem?_eq_some, TreeMap.mem_toList_iff_getElem?_eq_some, h]
  exact (hp.map _).sum_eq

theorem tally_erase {f : K → V → M} {t : TreeMap K V} {k : K} {v : V} (h : t[k]? = some v) :
    tally f t = f k v + tally f (t.erase k) := by
  have hp : t.toList.Perm ((k, v) :: (t.erase k).toList) := by
    rw [List.perm_ext_iff_of_nodup (nodup_toList t)]
    · rintro ⟨a, b⟩
      rw [TreeMap.mem_toList_iff_getElem?_eq_some, List.mem_cons,
        TreeMap.mem_toList_iff_getElem?_eq_some, TreeMap.getElem?_erase, Prod.mk.injEq]
      by_cases hka : a = k
      · subst hka
        simp [h, eq_comm]
      · rw [if_neg (fun hc => hka (LawfulEqCmp.eq_of_compare hc).symm)]
        simp [hka]
    · refine List.nodup_cons.2 ⟨?_, nodup_toList _⟩
      rw [TreeMap.mem_toList_iff_getElem?_eq_some, TreeMap.getElem?_erase_self]
      simp
  unfold tally
  rw [(hp.map _).sum_eq, List.map_cons, List.sum_cons]

theorem erase_eq_of_none {t : TreeMap K V} {k : K} (h : t[k]? = none) (a : K) :
    (t.erase k)[a]? = t[a]? := by
  rw [TreeMap.getElem?_erase]
  split
  · rename_i hc
    rw [← LawfulEqCmp.eq_of_compare hc, h]
  · rfl

theorem tally_nonneg [Preorder M] [IsOrderedAddMonoid M] {f : K → V → M} {t : TreeMap K V}
    (h : ∀ k v, t[k]? = some v → 0 ≤ f k v) : 0 ≤ tally f t := by
  refine List.sum_nonneg fun x hx => ?_
  obtain ⟨e, he, rfl⟩ := List.mem_map.1 hx
  exact h e.1 e.2 (TreeMap.mem_toList_iff_getElem?_eq_some.1 he)

theorem tally_congr {f g : K → V → M} {t : TreeMap K V}
    (h : ∀ k v, t[k]? = some v → f k v = g k v) : tally f t = tally g t := by
  unfold tally
  congr 1
  apply List.map_congr_left
  intro e he
  exact h e.1 e.2 (TreeMap.mem_toList_iff_getElem?_eq_some.1 he)

omit [AddCommMonoid M] in
theorem nodup_mapped (t : TreeMap K V) (f : V → M) :
    (t.toList.map fun a => (a.1, f a.2)).Nodup := by
  refine List.Nodup.of_map Prod.fst ?_
  rw [List.map_map]
  exact nodup_keys t

omit [AddCommMonoid M] in
theorem mem_mapped {t : TreeMap K V} {f : V → M} {k : K} {v : M} :
    (k, v) ∈ (t.toList.map fun a => (a.1, f a.2)) ↔ (t[k]?).map f = some v := by
  simp only [List.mem_map, Option.map_eq_some_iff, Prod.mk.injEq]
  constructor
  · rintro ⟨a, ha, rfl, rfl⟩
    exact ⟨a.2, TreeMap.mem_toList_iff_getElem?_eq_some.1 ha, rfl⟩
  · rintro ⟨x, hx, rfl⟩
    exact ⟨(k, x), TreeMap.mem_toList_iff_getElem?_eq_some.2 hx, rfl, rfl⟩

/-- Ordered maps with the same values under `f` and `g` have the same tally. -/
theorem tally_eq_of_map {W : Type*} {f : V → M} {g : W → M} {s : TreeMap K V} {t : TreeMap K W}
    (h : ∀ k : K, (s[k]?).map f = (t[k]?).map g) : tally (fun _ => f) s = tally (fun _ => g) t := by
  have hp : (s.toList.map fun a => (a.1, f a.2)).Perm (t.toList.map fun a => (a.1, g a.2)) := by
    rw [List.perm_ext_iff_of_nodup (nodup_mapped s f) (nodup_mapped t g)]
    rintro ⟨k, v⟩
    rw [mem_mapped, mem_mapped, h]
  have hs := (hp.map Prod.snd).sum_eq
  simp only [List.map_map] at hs
  exact hs

end Tree

/-! ## Sums by a part of the entries -/

section Parts

variable {L : Type*} [DecidableEq L] [AddCommMonoid M]

/-- **A sum is the sum of its parts.** -/
theorem sum_parts {X : Type*} (g : X → L) (f : X → M) {S : Finset L} {l : List X}
    (h : ∀ a ∈ l, g a ∈ S) :
    (l.map f).sum = ∑ p ∈ S, (l.map fun a => if g a = p then f a else 0).sum := by
  induction l with
  | nil => simp
  | cons a l ih =>
    have ha : ∑ p ∈ S, (if g a = p then f a else 0) = f a := by
      rw [Finset.sum_ite_eq, if_pos (h a List.mem_cons_self)]
    simp only [List.map_cons, List.sum_cons, Finset.sum_add_distrib, ha]
    rw [ih fun b hb => h b (List.mem_cons_of_mem _ hb)]

theorem hashTally_parts [DecidableEq K] (g : K → L) (f : K → V → M) {m : HashMap K V} {S : Finset L}
    (h : ∀ k v, m.find? k = some v → g k ∈ S) :
    hashTally f m = ∑ p ∈ S, hashTally (fun k v => if g k = p then f k v else 0) m :=
  sum_parts (fun e : Sigma fun _ : K => V => g e.1) (fun e => f e.1 e.2) fun e he =>
    h e.1 e.2 (mem_entries_iff.1 he)

/-- The part of one key is its value. -/
theorem hashTally_single [DecidableEq K] (m : HashMap K M) (k : K) :
    hashTally (fun a v => if a = k then v else 0) m = (m.find? k).getD 0 := by
  have hrest : ∀ m : HashMap K M, m.find? k = none →
      hashTally (fun a v => if a = k then v else 0) m = 0 := by
    intro m hm
    have hzero : hashTally (fun a v => if a = k then v else 0) m =
        hashTally (fun _ _ => (0 : M)) m := by
      refine hashTally_congr fun a v hv => if_neg ?_
      rintro rfl
      simp [hm] at hv
    rw [hzero]
    simp [hashTally]
  cases hk : m.find? k with
  | none => exact hrest m hk
  | some v =>
    rw [hashTally_erase hk, hrest _ (AList.lookup_erase k m), if_pos rfl, add_zero]
    rfl

theorem tally_parts [Ord K] [Std.TransOrd K] [Std.LawfulEqOrd K] (g : V → L) (f : K → V → M)
    {t : Std.TreeMap K V} {S : Finset L} (h : ∀ (k : K) (v : V), t[k]? = some v → g v ∈ S) :
    tally f t = ∑ p ∈ S, tally (fun k v => if g v = p then f k v else 0) t :=
  sum_parts (fun e : K × V => g e.2) (fun e => f e.1 e.2) fun e he =>
    h e.1 e.2 (Std.TreeMap.mem_toList_iff_getElem?_eq_some.1 he)

end Parts

end Keyed
