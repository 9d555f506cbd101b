import Mathlib.Data.List.Basic
import Mathlib.Tactic

/-!
# Runs of equal keys

`groupBy f` cuts a list into its longest runs of elements with one key, each run with
its key. Nothing is lost or moved (`groupBy_flatMap`), and a list in the order of its
keys has each key in one run only (`groupBy_ordered`).

A key may also be missing. `groupUpTo` asks for the keys one after the other, and no
further than it takes to see the first runs (`groupUpTo_of_keys`, `keys_of_groupUpTo`).
-/

namespace Grouping

variable {α K : Type*} [DecidableEq K] {f : α → K} {l : List α} {R : K → K → Prop}

def groupBy (f : α → K) : List α → List (K × List α)
  | [] => []
  | a :: l =>
    match groupBy f l with
    | [] => [(f a, [a])]
    | (k, g) :: rest => if f a = k then (k, a :: g) :: rest else (f a, [a]) :: (k, g) :: rest

/-- An element joins the first run, or is a run of its own. -/
theorem groupBy_cons (f : α → K) (a : α) (l : List α) :
    (∃ g rest, groupBy f l = (f a, g) :: rest ∧ groupBy f (a :: l) = (f a, a :: g) :: rest) ∨
      (∀ h ∈ (groupBy f l).head?, f a ≠ h.1) ∧ groupBy f (a :: l) = (f a, [a]) :: groupBy f l := by
  rw [groupBy]
  cases hl : groupBy f l with
  | nil => exact .inr ⟨by simp, rfl⟩
  | cons h rest =>
    obtain ⟨k, g⟩ := h
    by_cases hk : f a = k
    · subst hk
      exact .inl ⟨g, rest, rfl, if_pos rfl⟩
    · exact .inr ⟨by simpa using hk, if_neg hk⟩

theorem groupBy_flatMap (f : α → K) (l : List α) : (groupBy f l).flatMap Prod.snd = l := by
  induction l with
  | nil => rfl
  | cons a l ih =>
    rcases groupBy_cons f a l with ⟨g, rest, hl, hal⟩ | ⟨-, hal⟩
    · rw [hl, List.flatMap_cons] at ih
      rw [hal, List.flatMap_cons, List.cons_append, ih]
    · rw [hal, List.flatMap_cons, ih]
      rfl

/-- A run holds at least one element, and only elements of its key. -/
theorem groupBy_key {g : K × List α} (hg : g ∈ groupBy f l) : g.2 ≠ [] ∧ ∀ a ∈ g.2, f a = g.1 := by
  induction l generalizing g with
  | nil => simp [groupBy] at hg
  | cons a l ih =>
    rcases groupBy_cons f a l with ⟨g', rest, hl, hal⟩ | ⟨-, hal⟩
    · rw [hal] at hg
      rcases List.mem_cons.1 hg with rfl | hg
      · refine ⟨by simp, fun b hb => ?_⟩
        rcases List.mem_cons.1 hb with rfl | hb
        · rfl
        · exact (ih (g := (f a, g')) (by simp [hl])).2 b hb
      · exact ih (by simp [hl, hg])
    · rw [hal] at hg
      rcases List.mem_cons.1 hg with rfl | hg
      · simp
      · exact ih hg

/-- The key of a run is the key of an element. -/
theorem exists_mem_of_mem_groupBy {g : K × List α} (hg : g ∈ groupBy f l) : ∃ a ∈ l, f a = g.1 := by
  obtain ⟨hne, hkey⟩ := groupBy_key hg
  obtain ⟨a, ha⟩ := List.exists_mem_of_ne_nil _ hne
  refine ⟨a, ?_, hkey a ha⟩
  rw [← groupBy_flatMap f l, List.mem_flatMap]
  exact ⟨g, hg, ha⟩

/-- **The keys of the runs are in order**, when those of the elements are. -/
theorem groupBy_ordered (htrans : ∀ a b c, R a b → R b c → R a c)
    (hl : l.Pairwise fun a b => f a = f b ∨ R (f a) (f b)) :
    (groupBy f l).Pairwise fun g h => R g.1 h.1 := by
  induction l with
  | nil => exact .nil
  | cons a l ih =>
    obtain ⟨ha, hl⟩ := List.pairwise_cons.1 hl
    have hkeys := ih hl
    rcases groupBy_cons f a l with ⟨g, rest, hgl, hal⟩ | ⟨hne, hal⟩
    · rw [hgl] at hkeys
      rw [hal]
      exact List.pairwise_cons.2 (List.pairwise_cons.1 hkeys)
    · rw [hal]
      refine List.pairwise_cons.2 ⟨fun h hh => ?_, hkeys⟩
      -- the key of the first run differs, and the later ones are behind it
      cases hgl : groupBy f l with
      | nil => simp [hgl] at hh
      | cons first rest =>
        obtain ⟨b, hb, hbk⟩ :=
          exists_mem_of_mem_groupBy (f := f) (l := l) (g := first) (by simp [hgl])
        have hfirst : R (f a) first.1 := by
          rcases ha b hb with heq | hr
          · exact absurd (heq.trans hbk) (hne first (by simp [hgl]))
          · exact hbk ▸ hr
        rw [hgl] at hh hkeys
        rcases List.mem_cons.1 hh with rfl | hh
        · exact hfirst
        · exact htrans _ _ _ hfirst ((List.pairwise_cons.1 hkeys).1 h hh)

theorem groupBy_length_le (f : α → K) (l : List α) : (groupBy f l).length ≤ l.length := by
  induction l with
  | nil => simp [groupBy]
  | cons a l ih =>
    rcases groupBy_cons f a l with ⟨g, rest, hl, hal⟩ | ⟨-, hal⟩
    · rw [hl] at ih
      rw [hal]
      simp only [List.length_cons] at ih ⊢
      omega
    · rw [hal]
      simpa using ih

/-- The totals of the runs add up to that of the list. -/
theorem groupBy_sum {M : Type*} [AddCommMonoid M] (f : α → K) (g : α → M) (l : List α) :
    ((groupBy f l).map fun h => (h.2.map g).sum).sum = (l.map g).sum := by
  conv_rhs => rw [← groupBy_flatMap f l]
  induction groupBy f l with
  | nil => rfl
  | cons h rest ih => simp [ih]

/-- **A run is all that has its key**, when the keys are in order. -/
theorem filter_of_mem_groupBy (hirrefl : ∀ a, ¬R a a)
    (hkeys : (groupBy f l).Pairwise fun g h => R g.1 h.1) {g : K × List α} (hg : g ∈ groupBy f l) :
    (l.filter fun a => f a = g.1) = g.2 := by
  have hall : ∀ h ∈ groupBy f l, ∀ a ∈ h.2, f a = h.1 := fun h hh => (groupBy_key hh).2
  conv_lhs => rw [← groupBy_flatMap f l]
  revert hg hkeys hall
  induction groupBy f l with
  | nil => simp
  | cons h rest ih =>
    intro hkeys hg hall
    obtain ⟨hfirst, hrest⟩ := List.pairwise_cons.1 hkeys
    have hhead : ∀ a ∈ h.2, f a = h.1 := hall h List.mem_cons_self
    have hne : ∀ k ∈ rest, k.1 ≠ h.1 := fun k hk heq => hirrefl h.1 (heq ▸ hfirst k hk)
    rw [List.flatMap_cons, List.filter_append]
    rcases List.mem_cons.1 hg with rfl | hg
    · have htail : (rest.flatMap Prod.snd).filter (fun a => f a = g.1) = [] := by
        refine List.filter_eq_nil_iff.2 fun a ha => ?_
        obtain ⟨k, hk, hak⟩ := List.mem_flatMap.1 ha
        rw [hall k (List.mem_cons_of_mem _ hk) a hak]
        simpa using hne k hk
      rw [htail, List.append_nil, List.filter_eq_self.2 fun a ha => by simpa using hhead a ha]
    · have hskip : h.2.filter (fun a => f a = g.1) = [] := by
        refine List.filter_eq_nil_iff.2 fun a ha => ?_
        rw [hhead a ha]
        simpa using (hne g hg).symm
      rw [hskip, List.nil_append]
      exact ih hrest hg fun k hk => hall k (List.mem_cons_of_mem _ hk)

/-- Elements with one key, before one with another, are a run. -/
theorem groupBy_run {run : List α} {k : K} (hne : run ≠ []) (hrun : ∀ a ∈ run, f a = k)
    (hl : ∀ h ∈ (groupBy f l).head?, k ≠ h.1) : groupBy f (run ++ l) = (k, run) :: groupBy f l := by
  induction run with
  | nil => exact absurd rfl hne
  | cons a run ih =>
    have ha : f a = k := hrun a List.mem_cons_self
    rcases eq_or_ne run [] with rfl | hrest
    · rcases groupBy_cons f a l with ⟨g, rest, hgl, -⟩ | ⟨-, hal⟩
      · exact absurd ha.symm (hl (f a, g) (by simp [hgl]))
      · rw [List.singleton_append, hal, ha]
    · rw [List.cons_append, groupBy, ih hrest fun b hb => hrun b (List.mem_cons_of_mem _ hb)]
      exact if_pos ha

/-! ## Keys that may be missing -/

variable {n : ℕ}

/-- The rest of a run with the key `k`, and the `n` runs behind it. A run ends where a key
differs. -/
def runsFrom (key : α → Option K) : ℕ → K → List α → List α → Option (List (K × List α))
  | _, k, run, [] => some [(k, run)]
  | n, k, run, a :: l => (key a).bind fun k' =>
    if k' = k then runsFrom key n k (run ++ [a]) l
    else
      match n with
      | 0 => some [(k, run)]
      | n + 1 => (runsFrom key n k' [a] l).map ((k, run) :: ·)

/-- The first runs, at most `n` of them. -/
def groupUpTo (key : α → Option K) : ℕ → List α → Option (List (K × List α))
  | 0, _ => some []
  | _ + 1, [] => some []
  | n + 1, a :: l => (key a).bind fun k => runsFrom key n k [a] l

theorem runsFrom_of_keys {key : α → Option K} {k : K} {run : List α} (hne : run ≠ [])
    (hrun : ∀ a ∈ run, f a = k) (hkey : ∀ a ∈ l, key a = some (f a)) :
    runsFrom key n k run l = some ((groupBy f (run ++ l)).take (n + 1)) := by
  induction l generalizing n k run with
  | nil =>
    rw [groupBy_run hne hrun (by simp [groupBy])]
    simp [runsFrom, groupBy]
  | cons a l ih =>
    have hrest : ∀ b ∈ l, key b = some (f b) := fun b hb => hkey b (List.mem_cons_of_mem _ hb)
    rw [runsFrom, hkey a List.mem_cons_self, Option.bind_some]
    split
    · rename_i hk
      have hrun' : ∀ b ∈ run ++ [a], f b = k := by
        intro b hb
        rcases List.mem_append.1 hb with hb | hb
        · exact hrun b hb
        · exact (List.mem_singleton.1 hb) ▸ hk
      rw [ih (by simp) hrun' hrest, List.append_assoc, List.singleton_append]
    · rename_i hk
      have hnext : groupBy f (run ++ a :: l) = (k, run) :: groupBy f (a :: l) := by
        refine groupBy_run hne hrun fun h hh heq => ?_
        rcases groupBy_cons f a l with ⟨g, rest, -, hal⟩ | ⟨-, hal⟩ <;>
        · rw [hal, List.head?_cons, Option.mem_some_iff] at hh
          exact hk (by rw [heq, ← hh])
      rw [hnext]
      cases n with
      | zero => rfl
      | succ n =>
        have hrec : runsFrom key n (f a) [a] l = some ((groupBy f (a :: l)).take (n + 1)) :=
          ih (List.cons_ne_nil a []) (by simp) hrest
        simp only [hrec, Option.map_some, List.take_succ_cons]

/-- **Where no key is missing**, the first runs are those of the list. -/
theorem groupUpTo_of_keys {key : α → Option K} (hkey : ∀ a ∈ l, key a = some (f a)) (n : ℕ) :
    groupUpTo key n l = some ((groupBy f l).take n) := by
  cases n with
  | zero => rfl
  | succ n =>
    cases l with
    | nil => rfl
    | cons a l =>
      rw [groupUpTo, hkey a List.mem_cons_self, Option.bind_some,
        runsFrom_of_keys (List.cons_ne_nil a []) (by simp) fun b hb =>
          hkey b (List.mem_cons_of_mem _ hb)]
      rfl

theorem keys_of_runsFrom {key : α → Option K} {k : K} {run : List α} (hn : l.length ≤ n)
    (h : (runsFrom key n k run l).isSome) : ∀ a ∈ l, (key a).isSome := by
  induction l generalizing n k run with
  | nil => simp
  | cons a l ih =>
    rw [runsFrom] at h
    cases ha : key a with
    | none => simp [ha] at h
    | some k' =>
      rw [ha, Option.bind_some] at h
      have hrest : ∀ b ∈ l, (key b).isSome := by
        rw [List.length_cons] at hn
        split at h
        · exact ih (Nat.le_of_succ_le hn) h
        · cases n with
          | zero => omega
          | succ n => exact ih (Nat.le_of_succ_le_succ hn) (by simpa using h)
      intro b hb
      rcases List.mem_cons.1 hb with rfl | hb
      · rw [ha]; rfl
      · exact hrest b hb

/-- **Where all runs are seen**, no key is missing. -/
theorem keys_of_groupUpTo {key : α → Option K} (hn : l.length ≤ n)
    (h : (groupUpTo key n l).isSome) : ∀ a ∈ l, (key a).isSome := by
  cases l with
  | nil => simp
  | cons a l =>
    cases n with
    | zero => simp at hn
    | succ n =>
      rw [groupUpTo] at h
      cases ha : key a with
      | none => simp [ha] at h
      | some k =>
        rw [ha, Option.bind_some] at h
        intro b hb
        rcases List.mem_cons.1 hb with rfl | hb
        · rw [ha]; rfl
        · exact keys_of_runsFrom (by simpa using hn) h b hb

end Grouping
