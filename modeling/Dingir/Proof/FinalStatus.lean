import Dingir.Proof.Tracker

/-!
# What a stopped task commits

A tracker remembers the offset of the side that is ahead: the greater one of what its
own writer announced and of what the trackers behind it told. The task that commits
does not ask which side it is of when it is stopped, so the final commit takes the
greater offset where the running one takes the least.

- `Tracks.raised`: whatever the writers announce, in any order, what the trackers told
  goes as far as the least of the greatest offsets (`highest`).
- **`Tracking.finalStatus_iff`**: the final commit is safe exactly when for each
  partition the first writer is where the last of the others is.
-/

namespace Dingir

open Keyed NotifyTrackItem

variable {item : Option NotifyTrackItem} {l r : Option ℕ} {hi : ℕ → Option ℕ}
  {t : NotifyTrackerReceiver} {flag : TaskNotifyFlag} {p : ℤ} {i n v : ℕ} {es : List Notified}
  {e : Notified}

/-- The higher one of two offsets, or the one there is. -/
abbrev higher : Option ℕ → Option ℕ → Option ℕ := Option.merge max

theorem higher_none (r : Option ℕ) : higher none r = r := Option.merge_none_left

theorem higher_some (a b : ℕ) : higher (some a) (some b) = some (max a b) := rfl

/-- The offset of a remembered item is the higher one. -/
theorem Remembers.val (h : Remembers item l r) : item.map NotifyTrackItem.val = higher l r := by
  cases l <;> cases r <;> simp only [Remembers] at h
  · simp [h]
  · simp [h, NotifyTrackItem.val]
  · simp [h, NotifyTrackItem.val]
  · rcases h with ⟨rfl, h⟩ | ⟨rfl, h⟩ <;> simp [NotifyTrackItem.val, h]

/-! ## Offsets in any order -/

/-- **Any offset of the left side**: what should be remembered is, and the lower offset is the
highest one told. -/
theorem Remembers.raiseLeft (h : Remembers item l r) (v : ℕ) :
    Remembers (some ((item.getD (.left v)).merge (.left v)).2) (higher (some v) l) r ∧
      higher ((item.getD (.left v)).merge (.left v)).1 (lower l r) =
        lower (higher (some v) l) r := by
  cases r with
  | none =>
    cases l with
    | none =>
      obtain rfl : item = none := h
      simp [Remembers, lower]
    | some a =>
      obtain rfl : item = some (.left a) := h
      simp [Remembers, lower, Nat.max_comm]
  | some b =>
    -- the left side is ahead, or the right one is and is compared with
    have hcase : (∃ a, l = some a ∧ item = some (.left a) ∧ b ≤ a) ∨ item = some (.right b) ∧
        ∀ a, l = some a → a ≤ b := by
      cases l with
      | none => exact .inr ⟨h, by simp⟩
      | some a =>
        rcases h with ⟨hitem, hba⟩ | ⟨hitem, hab⟩
        · exact .inl ⟨a, rfl, hitem, hba⟩
        · exact .inr ⟨hitem, fun a' ha' => Option.some.inj ha' ▸ hab⟩
    rcases hcase with ⟨a, rfl, rfl, hba⟩ | ⟨rfl, hl⟩
    · have hbv : b ≤ max v a := le_max_of_le_right hba
      simp [Remembers, lower, hba, hbv, Nat.max_comm]
    · rw [Option.getD_some, merge_right_left]
      cases l with
      | none =>
        by_cases hb : b < v
        · simp [Remembers, lower, hb, hb.le]
        · simp [Remembers, lower, hb, not_lt.1 hb]
      | some a =>
        have hab := hl a rfl
        by_cases hb : b < v
        · have hva : max v a = v := max_eq_left (hab.trans hb.le)
          simp [Remembers, lower, hb, hb.le, hva, hab]
        · simp [Remembers, lower, hb, not_lt.1 hb, hab]

/-- Any offset of the right side. -/
theorem Remembers.raiseRight (h : Remembers item l r) (v : ℕ) :
    Remembers (some ((item.getD (.right v)).merge (.right v)).2) l (higher (some v) r) ∧
      higher ((item.getD (.right v)).merge (.right v)).1 (lower l r) =
        lower l (higher (some v) r) := by
  have hmerge : ((item.map NotifyTrackItem.swap).getD (.left v)).merge (.left v) =
      (((item.getD (.right v)).merge (.right v)).1,
        ((item.getD (.right v)).merge (.right v)).2.swap) := by
    rw [← swap_merge]
    cases item <;> rfl
  have hleft := h.swap.raiseLeft v
  rw [hmerge] at hleft
  refine ⟨?_, by rw [lower_comm l r, lower_comm l]; exact hleft.2⟩
  have hback := hleft.1.swap
  rwa [Option.map_some, swap_swap] at hback

/-- The flag of the left side, for one partition. -/
theorem Remembers.raisedLeft {status : NotifyTracker} (h : Remembers (status.find? p) l r)
    (flag : TaskNotifyFlag) :
    Remembers ((status.merge (.mapTo flag .left)).2.find? p) (higher (flag.find? p) l) r ∧
      higher ((status.merge (.mapTo flag .left)).1.find? p) (lower l r) =
        lower (higher (flag.find? p) l) r := by
  rw [(find?_merge _ _ p).1, (find?_merge _ _ p).2, NotifyTracker.mapTo, find?_mapValues]
  cases flag.find? p with
  | none => exact ⟨by simpa using h, by simp⟩
  | some v => exact h.raiseLeft v

theorem Remembers.raisedRight {status : NotifyTracker} (h : Remembers (status.find? p) l r)
    (flag : TaskNotifyFlag) :
    Remembers ((status.merge (.mapTo flag .right)).2.find? p) l (higher (flag.find? p) r) ∧
      higher ((status.merge (.mapTo flag .right)).1.find? p) (lower l r) =
        lower l (higher (flag.find? p) r) := by
  rw [(find?_merge _ _ p).1, (find?_merge _ _ p).2, NotifyTracker.mapTo, find?_mapValues]
  cases flag.find? p with
  | none => exact ⟨by simpa using h, by simp⟩
  | some v => exact h.raiseRight v

/-! ## The chain -/

namespace NotifyTrackerReceiver

/-- The greatest offsets after one more flag. -/
def raise (hi : ℕ → Option ℕ) (i : ℕ) (v : Option ℕ) : ℕ → Option ℕ :=
  Function.update hi i (higher v (hi i))

theorem raise_succ {x : Option ℕ} :
    (fun j => raise hi (i + 1) x (j + 1)) = raise (fun j => hi (j + 1)) i x := by
  funext j
  unfold raise
  by_cases hj : j = i
  · subst hj
    simp
  · simp [Function.update_of_ne, hj]

/-- **One flag**: the trackers remember what they should, and what they told goes as far as the
least of the greatest offsets. -/
theorem Tracks.raised (h : t.Tracks p hi) (hin : i ≤ t.behind) :
    (t.changed i flag).2.Tracks p (raise hi i (flag.find? p)) ∧
      higher ((t.changed i flag).1.bind fun ret => ret.find? p) (lowest t.behind hi) =
        lowest t.behind (raise hi i (flag.find? p)) := by
  induction t generalizing i hi with
  | last status =>
    obtain rfl : i = 0 := by simpa [behind] using hin
    exact ⟨trivial, by simp [NotifyTrackerReceiver.changed, behind, lowest, raise]⟩
  | chained status next ih =>
    obtain ⟨hitem, hnext⟩ := h
    cases i with
    | zero =>
      obtain ⟨hitem', htold⟩ := hitem.raisedLeft flag
      have hrest : (fun j => raise hi 0 (flag.find? p) (j + 1)) = fun j => hi (j + 1) := by
        funext j
        simp [raise]
      have hfirst : raise hi 0 (flag.find? p) 0 = higher (flag.find? p) (hi 0) := by simp [raise]
      refine ⟨?_, ?_⟩
      · show Remembers _ (raise hi 0 (flag.find? p) 0)
          (lowest next.behind fun j => raise hi 0 (flag.find? p) (j + 1)) ∧ _
        rw [hrest, hfirst]
        exact ⟨hitem', hnext⟩
      · show higher ((if _ then none else some _ : Option TaskNotifyFlag).bind _) _ =
          lower (raise hi 0 (flag.find? p) 0)
          (lowest next.behind fun j => raise hi 0 (flag.find? p) (j + 1))
        rw [find?_told, hrest, hfirst]
        exact htold
    | succ i =>
      have hin' : i ≤ next.behind := Nat.le_of_succ_le_succ hin
      obtain ⟨hnext', htold⟩ := ih hnext hin'
      have hbehind := changed_behind next i flag
      have hfirst : raise hi (i + 1) (flag.find? p) 0 = hi 0 := by simp [raise]
      rw [NotifyTrackerReceiver.changed]
      cases hnc : (next.changed i flag).1 with
      | none =>
        -- the trackers behind tell nothing new
        rw [hnc, Option.bind_none, higher_none] at htold
        simp only [hnc, Tracks, hbehind, behind, lowest, raise_succ, hfirst, ← htold]
        exact ⟨⟨hitem, hnext'⟩, by simp⟩
      | some nc =>
        rw [hnc, Option.bind_some] at htold
        obtain ⟨hitem', htold'⟩ := hitem.raisedRight nc
        rw [htold] at hitem' htold'
        simp only [hnc, Tracks, hbehind, behind, lowest, raise_succ, hfirst, find?_told]
        exact ⟨⟨hitem', hnext'⟩, htold'⟩

/-- What a chain of two trackers or more commits when it is stopped. -/
theorem Tracks.finalStatus (h : t.Tracks p hi) (hbehind : t.behind = n + 1) :
    t.finalStatus.find? p = higher (hi 0) (lowest n fun i => hi (i + 1)) := by
  cases t with
  | last status => simp [behind] at hbehind
  | chained status next =>
    obtain rfl : next.behind = n := Nat.succ_injective hbehind
    show (mapValues NotifyTrackItem.val status).find? p = _
    rw [find?_mapValues]
    exact h.1.val

end NotifyTrackerReceiver

/-! ## Trackers at work -/

theorem highest_append (es : List Notified) (e : Notified) (p : ℤ) :
    (fun i => highest (es ++ [e]) i p) =
      NotifyTrackerReceiver.raise (fun i => highest es i p) e.writer (e.flag.find? p) := by
  funext i
  unfold highest NotifyTrackerReceiver.raise
  rw [List.foldl_append, List.foldl_cons, List.foldl_nil]
  by_cases hi : i = e.writer
  · subst hi
    simp
  · rw [if_neg (Ne.symm hi), Function.update_of_ne hi]

/-- A writer announced nothing greater than its greatest offset. -/
theorem latest_le_highest {a : ℕ} (h : latest es i p = some a) :
    ∃ b, highest es i p = some b ∧ a ≤ b := by
  induction es using List.reverseRecOn generalizing a with
  | nil => simp [latest] at h
  | append_singleton es e ih =>
    rw [show latest (es ++ [e]) i p = _ from congrFun (latest_append es e p) i] at h
    rw [show highest (es ++ [e]) i p = _ from congrFun (highest_append es e p) i]
    unfold NotifyTrackerReceiver.announce at h
    unfold NotifyTrackerReceiver.raise
    by_cases hi : i = e.writer
    · subst hi
      rw [Function.update_self] at h ⊢
      cases hflag : e.flag.find? p with
      | none =>
        rw [hflag, Option.none_or] at h
        simpa using ih h
      | some v =>
        rw [hflag, Option.some_or] at h
        obtain rfl := Option.some.inj h
        simp only
        cases highest es e.writer p with
        | none => exact ⟨v, rfl, le_rfl⟩
        | some b => exact ⟨max v b, rfl, le_max_left _ _⟩
    · rw [Function.update_of_ne hi] at h ⊢
      exact ih h

namespace Tracking

open NotifyTrackerReceiver

theorem run_raised (ht : getTracker n = some t) (hes : ∀ e ∈ es, e.writer < n) :
    ((ofTracker t).run es).tracker.behind + 1 = n ∧
    ((ofTracker t).run es).tracker.Tracks p fun i => highest es i p := by
  induction es using List.reverseRecOn with
  | nil => exact getTracker_tracks ht
  | append_singleton es e ih =>
    obtain ⟨hbehind, htracks⟩ := ih fun e' he' => hes e' (by simp [he'])
    have hin : e.writer ≤ ((ofTracker t).run es).tracker.behind := by
      have := hes e (by simp)
      omega
    rw [run_append, highest_append]
    exact ⟨by rw [← hbehind]; exact congrArg (· + 1) (changed_behind _ _ _), (htracks.raised hin).1⟩

/-- The final commit goes no further than what each of `n` writers announced last for the
partition. -/
def SafelyStopped (n : ℕ) (es : List Notified) (p : ℤ) (t : NotifyTrackerReceiver) : Prop :=
  ∀ v, t.finalStatus.find? p = some v → ∀ i < n, ∃ a, latest es i p = some a ∧ v ≤ a

/-- For the partition the first writer is where the last of the others is: they announced nothing,
or the same offset, and no writer has gone back behind it. -/
def InStep (n : ℕ) (es : List Notified) (p : ℤ) : Prop :=
  (highest es 0 p = none ∧ ∃ i, 0 < i ∧ i < n ∧ highest es i p = none) ∨
    ∃ v, highest es 0 p = some v ∧ IsLeast {w | ∃ i, 0 < i ∧ i < n ∧ highest es i p = some w} v ∧
      ∀ i < n, ∃ a, latest es i p = some a ∧ v ≤ a

/-- **The final commit is safe exactly when the first writer is where the last of the others
is.** -/
theorem finalStatus_iff (hn : 2 ≤ n) (ht : getTracker n = some t) (hes : ∀ e ∈ es, e.writer < n)
    (p : ℤ) : SafelyStopped n es p ((ofTracker t).run es).tracker ↔ InStep n es p := by
  obtain ⟨n, rfl⟩ : ∃ k, n = k + 2 := ⟨n - 2, by omega⟩
  obtain ⟨hbehind, htracks⟩ := run_raised (p := p) ht hes
  have hfinal := htracks.finalStatus (n := n) (by omega)
  unfold SafelyStopped
  rw [hfinal]
  constructor
  · intro hsafe
    cases hstatus : higher (highest es 0 p) (lowest n fun i => highest es (i + 1) p) with
    | none =>
      obtain ⟨hfirst, hrest⟩ := Option.merge_eq_none_iff.1 hstatus
      refine .inl ⟨hfirst, ?_⟩
      by_contra hall
      push Not at hall
      obtain ⟨v, hv⟩ := lowest_isSome (n := n) (fun i => highest es (i + 1) p) fun i hi => by
        exact Option.isSome_iff_ne_none.2 (hall (i + 1) (by omega) (by omega))
      rw [hv] at hrest
      simp at hrest
    | some v =>
      have hlatest := hsafe v hstatus
      -- what is committed is no further than any writer got, so both sides are there
      have hge : ∀ i < n + 2, ∃ b, highest es i p = some b ∧ v ≤ b := by
        intro i hi
        obtain ⟨a, ha, hva⟩ := hlatest i hi
        obtain ⟨b, hb, hab⟩ := latest_le_highest ha
        exact ⟨b, hb, hva.trans hab⟩
      obtain ⟨x, hx, hvx⟩ := hge 0 (by omega)
      obtain ⟨y, hy⟩ := lowest_isSome (n := n) (fun i => highest es (i + 1) p) fun i hi => by
        obtain ⟨b, hb, -⟩ := hge (i + 1) (by omega)
        exact Option.isSome_iff_exists.2 ⟨b, hb⟩
      obtain ⟨-, ⟨k, hk, hky⟩, hleast⟩ := lowest_eq_some.1 hy
      have hvy : v ≤ y := by
        obtain ⟨b, hb, hvb⟩ := hge (k + 1) (by omega)
        exact hvb.trans (Option.some.inj (hb.symm.trans hky)).le
      rw [hx, hy, higher_some] at hstatus
      have hmax := Option.some.inj hstatus
      obtain rfl : x = v := le_antisymm ((le_max_left x y).trans hmax.le) hvx
      obtain rfl : y = x := le_antisymm ((le_max_right x y).trans hmax.le) hvy
      refine .inr ⟨y, hx, ⟨⟨k + 1, by omega, by omega, hky⟩, ?_⟩, hlatest⟩
      rintro w ⟨i, hi, hin, hw⟩
      obtain ⟨j, rfl⟩ : ∃ j, i = j + 1 := ⟨i - 1, by omega⟩
      exact hleast ⟨j, by omega, hw⟩
  · rintro (⟨hfirst, i, hi, hin, hnone⟩ | ⟨x, hx, ⟨⟨k, hk, hkn, hkx⟩, hleast⟩, hlatest⟩) v hv
    · have hrest : lowest n (fun i => highest es (i + 1) p) = none := by
        by_contra hsome
        obtain ⟨y, hy⟩ := Option.ne_none_iff_exists'.1 hsome
        have hall := (lowest_eq_some.1 hy).1 (i - 1) (by omega)
        simp only [Nat.sub_add_cancel hi, hnone] at hall
        simp at hall
      rw [hfirst, hrest] at hv
      simp at hv
    · have hall : ∀ i ≤ n, ((fun i => highest es (i + 1) p) i).isSome = true := by
        intro i hi
        obtain ⟨a, ha, -⟩ := hlatest (i + 1) (by omega)
        obtain ⟨b, hb, -⟩ := latest_le_highest ha
        exact Option.isSome_iff_exists.2 ⟨b, hb⟩
      have hy : lowest n (fun i => highest es (i + 1) p) = some x := by
        refine lowest_eq_some.2 ⟨hall, ⟨k - 1, by omega, ?_⟩, fun w hw => ?_⟩
        · simpa [Nat.sub_add_cancel hk] using hkx
        · obtain ⟨i, hi, hw⟩ := hw
          exact hleast ⟨i + 1, by omega, by omega, hw⟩
      rw [hx, hy, higher_some, max_self] at hv
      exact Option.some.inj hv ▸ hlatest

/-- Both writers announce 5. -/
def sampleLevel : List Notified := [⟨0, AList.insert 7 5 ∅⟩, ⟨1, AList.insert 7 5 ∅⟩]

theorem finalStatus_iff_level : ∃ t, getTracker 2 = some t ∧
    ((ofTracker t).run sampleLevel).tracker.finalCommit.find? 7 = some 6 ∧
    SafelyStopped 2 sampleLevel 7 ((ofTracker t).run sampleLevel).tracker := by
  refine ⟨_, rfl, by decide, (finalStatus_iff le_rfl rfl (by decide) 7).2
    (.inr ⟨5, by decide, ⟨⟨1, by decide⟩, ?_⟩, ?_⟩)⟩
  · rintro w ⟨i, hi, hin, hw⟩
    obtain rfl : i = 1 := by omega
    exact (Option.some.inj ((show some 5 = highest sampleLevel 1 7 by decide).trans hw)).le
  · intro i hi
    obtain rfl | rfl : i = 0 ∨ i = 1 := by omega
    · exact ⟨5, by decide, le_rfl⟩
    · exact ⟨5, by decide, le_rfl⟩

/-- The first writer of two announces 5, and the task is stopped: 6 is committed, and the other has
announced nothing. -/
theorem not_safelyStopped : ¬ ∀ n t es p, 2 ≤ n → getTracker n = some t → (∀ e ∈ es, e.writer < n) →
    SafelyStopped n es p ((ofTracker t).run es).tracker := by
  intro hall
  obtain ⟨a, ha, -⟩ :=
    hall 2 _ [⟨0, AList.insert 7 5 ∅⟩] 7 le_rfl rfl (by decide) 5 (by decide) 1 (by decide)
  exact absurd ha (by simp [latest])

end Tracking

end Dingir
