import Dingir.Lib.Prefix
import Dingir.Spec.Tracker

/-!
# What a chain of trackers commits

A tracker hears of its own writer (the left side) and of the trackers behind it (the
right side). It remembers the offset of the side that is ahead (`Remembers`), so an
offset that comes in is compared with the other side's exactly when that one is
behind. By induction over the chain the trackers keep the least of the offsets
announced last (`lowest`):

* **`Tracking.emits_least`**: nothing is told of a partition before all writers have
  announced an offset; what is told is the least of those announced last, and what
  was told last is this least offset from then on.
-/

namespace Dingir

open Keyed Prefix

variable {item : Option NotifyTrackItem} {l r : Option ℕ} {lat lat' : ℕ → Option ℕ}
  {t t' : NotifyTrackerReceiver} {flag : TaskNotifyFlag} {p : ℤ} {i n v : ℕ} {es : List Notified}
  {e : Notified}

/-! ## One item -/

namespace NotifyTrackItem

@[simp] theorem merge_left_left (a v : ℕ) : (left a).merge (left v) = (none, left (max a v)) := rfl

@[simp] theorem merge_right_right (b v : ℕ) : (right b).merge (right v) = (none, right (max b v)) :=
  rfl

theorem merge_right_left (b v : ℕ) :
    (right b).merge (left v) = if b < v then (some b, left v) else (some v, right b) := by
  by_cases h : b < v <;> simp [merge, resolve, isRight, isLeft, val, h]

theorem merge_left_right (a v : ℕ) :
    (left a).merge (right v) = if a < v then (some a, right v) else (some v, left a) := by
  by_cases h : a < v <;> simp [merge, resolve, isLeft, val, h]

/-- The same offset, of the other side. -/
def swap : NotifyTrackItem → NotifyTrackItem
  | left v => right v
  | right v => left v

theorem swap_merge (self another : NotifyTrackItem) :
    self.swap.merge another.swap = ((self.merge another).1, (self.merge another).2.swap) := by
  cases self <;> cases another
  · rfl
  · simp only [swap, merge_right_left, merge_left_right]
    split <;> rfl
  · simp only [swap, merge_right_left, merge_left_right]
    split <;> rfl
  · rfl

theorem swap_swap (item : NotifyTrackItem) : item.swap.swap = item := by
  cases item <;> rfl

end NotifyTrackItem

open NotifyTrackItem

/-- The lower one of two offsets, once there are two. -/
def lower : Option ℕ → Option ℕ → Option ℕ
  | some a, some b => some (min a b)
  | _, _ => none

theorem lower_comm (l r : Option ℕ) : lower l r = lower r l := by
  cases l <;> cases r <;> simp [lower, Nat.min_comm]

/-- **What is remembered** for a partition of which the sides announced these offsets last. -/
def Remembers : Option NotifyTrackItem → Option ℕ → Option ℕ → Prop
  | item, none, none => item = none
  | item, some a, none => item = some (left a)
  | item, none, some b => item = some (right b)
  | item, some a, some b => item = some (left a) ∧ b ≤ a ∨ item = some (right b) ∧ a ≤ b

theorem Remembers.swap (h : Remembers item l r) :
    Remembers (item.map NotifyTrackItem.swap) r l := by
  cases l <;> cases r <;> simp only [Remembers] at h ⊢
  · simp [h]
  · simp [h, NotifyTrackItem.swap]
  · simp [h, NotifyTrackItem.swap]
  · rcases h with ⟨rfl, h⟩ | ⟨rfl, h⟩
    · exact .inr ⟨rfl, h⟩
    · exact .inl ⟨rfl, h⟩

/-- **An offset of the left side**: what should be remembered is, and the lower offset is told, or
is the one told before. -/
theorem Remembers.mergeLeft (h : Remembers item l r) (hv : ∀ a, l = some a → a ≤ v) :
    Remembers (some ((item.getD (left v)).merge (left v)).2) (some v) r ∧
      ((item.getD (left v)).merge (left v)).1.or (lower l r) = lower (some v) r := by
  cases r with
  | none =>
    have hitem : (item.getD (.left v)).merge (.left v) = (none, .left v) := by
      cases l with
      | none =>
        obtain rfl : item = none := h
        simp
      | some a =>
        obtain rfl : item = some (.left a) := h
        simp [hv a rfl]
    rw [hitem]
    cases l <;> exact ⟨rfl, rfl⟩
  | some b =>
    -- the right side is behind, or it is compared with
    have hcase : (∃ a, l = some a ∧ item = some (.left a) ∧ b ≤ a) ∨ item = some (.right b) := by
      cases l with
      | none => exact .inr h
      | some a => exact h.imp (fun h => ⟨a, rfl, h⟩) And.left
    rcases hcase with ⟨a, rfl, rfl, hba⟩ | rfl
    · have hav : a ≤ v := hv a rfl
      simp [Remembers, lower, hav, hba, hba.trans hav]
    · rw [Option.getD_some, merge_right_left]
      by_cases hb : b < v
      · simp [Remembers, lower, hb, hb.le]
      · simp [Remembers, lower, hb, not_lt.1 hb]

/-- An offset of the right side. -/
theorem Remembers.mergeRight (h : Remembers item l r) (hv : ∀ b, r = some b → b ≤ v) :
    Remembers (some ((item.getD (right v)).merge (right v)).2) l (some v) ∧
      ((item.getD (right v)).merge (right v)).1.or (lower l r) = lower l (some v) := by
  have hmerge : ((item.map NotifyTrackItem.swap).getD (left v)).merge (left v) =
      (((item.getD (right v)).merge (right v)).1,
        ((item.getD (right v)).merge (right v)).2.swap) := by
    rw [← swap_merge]
    cases item <;> rfl
  have hleft := h.swap.mergeLeft hv
  rw [hmerge] at hleft
  refine ⟨?_, by rw [lower_comm l r, lower_comm l (some v)]; exact hleft.2⟩
  have hback := hleft.1.swap
  rwa [Option.map_some, swap_swap] at hback

/-! ## One tracker -/

/-- What a tracker tells and remembers of one partition. -/
theorem find?_merge (self another : NotifyTracker) (p : ℤ) :
    (self.merge another).1.find? p =
      (another.find? p).bind (fun v => (((self.find? p).getD v).merge v).1) ∧
      (self.merge another).2.find? p =
        (another.find? p).elim (self.find? p) fun v =>
          some (((self.find? p).getD v).merge v).2 := by
  have h := foldl_entries NotifyTracker.mergeItem
    (fun s : TaskNotifyFlag × NotifyTracker => (s.1.find? p, s.2.find? p))
    (fun v x => (((x.2.getD v).merge v).1.or x.1, some ((x.2.getD v).merge v).2)) (k := p) ?_ ?_
    another (∅, self)
  · unfold NotifyTracker.merge
    cases hv : another.find? p with
    | none => simpa [hv, find?_empty] using h
    | some v => simpa [hv, find?_empty] using h
  · intro s v
    unfold NotifyTracker.mergeItem
    cases hm : (((s.2.find? p).getD v).merge v).1 <;> simp [hm]
  · intro s a v ha
    unfold NotifyTracker.mergeItem
    cases hm : (((s.2.find? a).getD v).merge v).1 <;> simp [hm, find?_insert_of_ne _ _ (Ne.symm ha)]

/-- A flag with no entries is not told. -/
theorem find?_told (ret : TaskNotifyFlag) (p : ℤ) :
    ((if ret.entries.isEmpty then none else some ret).bind fun flag => flag.find? p) =
      ret.find? p := by
  split
  · rename_i hempty
    cases hp : ret.find? p with
    | none => rfl
    | some v =>
      have := mem_entries_iff.2 hp
      simp [List.isEmpty_iff.1 hempty] at this
  · rfl

theorem Remembers.left {status : NotifyTracker} (h : Remembers (status.find? p) l r)
    (flag : TaskNotifyFlag) (hv : ∀ v a, flag.find? p = some v → l = some a → a ≤ v) :
    Remembers ((status.merge (.mapTo flag .left)).2.find? p) ((flag.find? p).or l) r ∧
      ((status.merge (.mapTo flag .left)).1.find? p).or (lower l r) =
        lower ((flag.find? p).or l) r := by
  rw [(find?_merge _ _ p).1, (find?_merge _ _ p).2, NotifyTracker.mapTo, find?_mapValues]
  cases hp : flag.find? p with
  | none => exact ⟨h, rfl⟩
  | some v => exact h.mergeLeft (hv v · hp)

theorem Remembers.right {status : NotifyTracker} (h : Remembers (status.find? p) l r)
    (flag : TaskNotifyFlag) (hv : ∀ v b, flag.find? p = some v → r = some b → b ≤ v) :
    Remembers ((status.merge (.mapTo flag .right)).2.find? p) l ((flag.find? p).or r) ∧
      ((status.merge (.mapTo flag .right)).1.find? p).or (lower l r) =
        lower l ((flag.find? p).or r) := by
  rw [(find?_merge _ _ p).1, (find?_merge _ _ p).2, NotifyTracker.mapTo, find?_mapValues]
  cases hp : flag.find? p with
  | none => exact ⟨h, rfl⟩
  | some v => exact h.mergeRight (hv v · hp)

/-! ## A chain of trackers -/

/-- The least of the offsets that the first `n + 1` writers announced last, once all have announced
one. -/
def lowest : ℕ → (ℕ → Option ℕ) → Option ℕ
  | 0, lat => lat 0
  | n + 1, lat => lower (lat 0) (lowest n fun i => lat (i + 1))

theorem lower_eq_some : lower l r = some v ↔ ∃ a b, l = some a ∧ r = some b ∧ min a b = v := by
  cases l <;> cases r <;> simp [lower]

theorem lowest_isSome (lat : ℕ → Option ℕ) (h : ∀ i ≤ n, (lat i).isSome = true) :
    ∃ v, lowest n lat = some v := by
  induction n generalizing lat with
  | zero => exact Option.isSome_iff_exists.1 (h 0 le_rfl)
  | succ n ih =>
    obtain ⟨a, ha⟩ := Option.isSome_iff_exists.1 (h 0 (by omega))
    obtain ⟨b, hb⟩ := ih (fun i => lat (i + 1)) fun i hi => h (i + 1) (by omega)
    exact ⟨_, lower_eq_some.2 ⟨a, b, ha, hb, rfl⟩⟩

/-- **Meaning of `lowest`.** -/
theorem lowest_eq_some : lowest n lat = some v ↔
    (∀ i ≤ n, (lat i).isSome = true) ∧ IsLeast {v | ∃ i ≤ n, lat i = some v} v := by
  induction n generalizing lat v with
  | zero =>
    simp only [lowest, Nat.le_zero, forall_eq, exists_eq_left]
    constructor
    · intro h
      exact ⟨by simp [h], h, fun w hw => (Option.some.inj (h.symm.trans hw)).le⟩
    · exact fun h => h.2.1
  | succ n ih =>
    constructor
    · intro h
      obtain ⟨a, b, ha, hb, rfl⟩ := lower_eq_some.1 h
      obtain ⟨hall, ⟨j, hj, hb'⟩, hleast⟩ := ih.1 hb
      refine ⟨fun i hi => ?_, ?_, ?_⟩
      · cases i with
        | zero => simp [ha]
        | succ i => exact hall i (by omega)
      · rcases min_choice a b with hmin | hmin
        · exact ⟨0, by omega, ha.trans (congrArg some hmin.symm)⟩
        · exact ⟨j + 1, by omega, hb'.trans (congrArg some hmin.symm)⟩
      · rintro w ⟨i, hi, hw⟩
        cases i with
        | zero => exact min_le_of_left_le (Option.some.inj (ha.symm.trans hw)).le
        | succ i => exact min_le_of_right_le (hleast ⟨i, by omega, hw⟩)
    · rintro ⟨hall, ⟨k, hk, hv⟩, hleast⟩
      obtain ⟨a, ha⟩ := Option.isSome_iff_exists.1 (hall 0 (by omega))
      obtain ⟨b, hb⟩ :=
        lowest_isSome (n := n) (fun i => lat (i + 1)) fun i hi => hall (i + 1) (by omega)
      obtain ⟨-, ⟨j, hj, hb'⟩, hleast'⟩ := ih.1 hb
      refine lower_eq_some.2 ⟨a, b, ha, hb, le_antisymm ?_ ?_⟩
      · cases k with
        | zero => exact min_le_of_left_le (Option.some.inj (ha.symm.trans hv)).le
        | succ k => exact min_le_of_right_le (hleast' ⟨k, by omega, hv⟩)
      · exact le_min (hleast ⟨0, by omega, ha⟩) (hleast ⟨j + 1, by omega, hb'⟩)

/-- Later offsets do not lower the least one. -/
theorem lowest_mono (h : ∀ i a, lat i = some a → ∃ b, lat' i = some b ∧ a ≤ b)
    (hv : lowest n lat = some v) : ∃ w, lowest n lat' = some w ∧ v ≤ w := by
  induction n generalizing lat lat' v with
  | zero => exact h 0 v hv
  | succ n ih =>
    obtain ⟨a, b, ha, hb, rfl⟩ := lower_eq_some.1 hv
    obtain ⟨a', ha', haa'⟩ := h 0 a ha
    obtain ⟨b', hb', hbb'⟩ := ih (fun i => h (i + 1)) hb
    exact ⟨_, lower_eq_some.2 ⟨a', b', ha', hb', rfl⟩, min_le_min haa' hbb'⟩

namespace NotifyTrackerReceiver

/-- The number of trackers behind the first. -/
def behind : NotifyTrackerReceiver → ℕ
  | last _ => 0
  | chained _ next => next.behind + 1

/-- Each tracker remembers what it should of one partition. -/
def Tracks (p : ℤ) : NotifyTrackerReceiver → (ℕ → Option ℕ) → Prop
  | last _, _ => True
  | chained status next, lat =>
    Remembers (status.find? p) (lat 0) (lowest next.behind fun i => lat (i + 1)) ∧
      next.Tracks p fun i => lat (i + 1)

theorem changed_behind (t : NotifyTrackerReceiver) (i : ℕ) (flag : TaskNotifyFlag) :
    (t.changed i flag).2.behind = t.behind := by
  induction t generalizing i with
  | last => rfl
  | chained status next ih =>
    cases i with
    | zero => rfl
    | succ i =>
      have h := ih i
      rw [changed]
      cases hnc : (next.changed i flag).1 with
      | none => simp [hnc, behind, h]
      | some nc => simp [hnc, behind, h]

/-- The offsets announced last after one more flag. -/
def announce (lat : ℕ → Option ℕ) (i : ℕ) (v : Option ℕ) : ℕ → Option ℕ :=
  Function.update lat i (v.or (lat i))

theorem announce_later (lat : ℕ → Option ℕ) {x : Option ℕ}
    (h : ∀ v a, x = some v → lat i = some a → a ≤ v) (j a : ℕ) (ha : lat j = some a) :
    ∃ b, announce lat i x j = some b ∧ a ≤ b := by
  unfold announce
  by_cases hj : j = i
  · subst hj
    rw [Function.update_self]
    cases x with
    | none => exact ⟨a, ha, le_rfl⟩
    | some v => exact ⟨v, rfl, h v a rfl ha⟩
  · rw [Function.update_of_ne hj]
    exact ⟨a, ha, le_rfl⟩

theorem announce_succ {x : Option ℕ} :
    (fun j => announce lat (i + 1) x (j + 1)) = announce (fun j => lat (j + 1)) i x := by
  funext j
  unfold announce
  by_cases hj : j = i
  · subst hj
    simp
  · simp [Function.update_of_ne, hj]

/-- **One flag**: the trackers remember what they should, and the first one tells the least offset
or has told it before. -/
theorem Tracks.changed (h : t.Tracks p lat) (hi : i ≤ t.behind)
    (hv : ∀ v a, flag.find? p = some v → lat i = some a → a ≤ v) :
    (t.changed i flag).2.Tracks p (announce lat i (flag.find? p)) ∧
      ((t.changed i flag).1.bind fun ret => ret.find? p).or (lowest t.behind lat) =
        lowest t.behind (announce lat i (flag.find? p)) := by
  induction t generalizing i lat with
  | last status =>
    obtain rfl : i = 0 := by simpa [behind] using hi
    refine ⟨trivial, ?_⟩
    simp [NotifyTrackerReceiver.changed, behind, lowest, announce]
  | chained status next ih =>
    obtain ⟨hitem, hnext⟩ := h
    cases i with
    | zero =>
      obtain ⟨hitem', htold⟩ := hitem.left flag hv
      have hrest : (fun j => announce lat 0 (flag.find? p) (j + 1)) = fun j => lat (j + 1) := by
        funext j
        simp [announce]
      have hfirst :
          announce lat 0 (flag.find? p) 0 = (flag.find? p).or (lat 0) := by simp [announce]
      refine ⟨?_, ?_⟩
      · show Remembers _ (announce lat 0 (flag.find? p) 0)
          (lowest next.behind fun j => announce lat 0 (flag.find? p) (j + 1)) ∧ _
        rw [hrest, hfirst]
        exact ⟨hitem', hnext⟩
      · show ((if _ then none else some _ : Option TaskNotifyFlag).bind _).or _ =
          lower (announce lat 0 (flag.find? p) 0)
          (lowest next.behind fun j => announce lat 0 (flag.find? p) (j + 1))
        rw [find?_told, hrest, hfirst]
        exact htold
    | succ i =>
      have hi' : i ≤ next.behind := Nat.le_of_succ_le_succ hi
      have hv' : ∀ v a, flag.find? p = some v → (fun j => lat (j + 1)) i = some a → a ≤ v := hv
      obtain ⟨hnext', htold⟩ := ih hnext hi' hv'
      have hbehind := changed_behind next i flag
      have hfirst : announce lat (i + 1) (flag.find? p) 0 = lat 0 := by simp [announce]
      rw [NotifyTrackerReceiver.changed]
      cases hnc : (next.changed i flag).1 with
      | none =>
        -- the trackers behind tell nothing new
        rw [hnc, Option.bind_none, Option.none_or] at htold
        simp only [hnc, Tracks, hbehind, behind, lowest, announce_succ, hfirst, ← htold]
        exact ⟨⟨hitem, hnext'⟩, rfl⟩
      | some nc =>
        rw [hnc, Option.bind_some] at htold
        have hlater : ∀ v b, nc.find? p = some v →
            lowest next.behind (fun j => lat (j + 1)) = some b → b ≤ v := by
          intro v b hnv hb
          obtain ⟨w, hw, hbw⟩ := lowest_mono (announce_later (fun j => lat (j + 1)) hv') hb
          rw [← htold, hnv, Option.some_or] at hw
          exact hbw.trans (Option.some.inj hw).ge
        obtain ⟨hitem', htold'⟩ := hitem.right nc hlater
        rw [htold] at hitem' htold'
        simp only [hnc, Tracks, hbehind, behind, lowest, announce_succ, hfirst, find?_told]
        exact ⟨⟨hitem', hnext'⟩, htold'⟩

theorem getTracker_tracks (h : getTracker n = some t) :
    t.behind + 1 = n ∧ t.Tracks p fun _ => none := by
  induction n generalizing t with
  | zero => simp [getTracker] at h
  | succ n ih =>
    rw [getTracker] at h
    cases hn : getTracker n with
    | none =>
      rw [hn] at h
      obtain rfl := Option.some.inj h
      cases n with
      | zero => exact ⟨rfl, trivial⟩
      | succ n =>
        rw [getTracker] at hn
        split at hn <;> simp at hn
    | some next =>
      rw [hn] at h
      obtain rfl := Option.some.inj h
      obtain ⟨hbehind, htracks⟩ := ih hn
      refine ⟨congrArg (· + 1) hbehind, ?_, htracks⟩
      have hnone : lowest next.behind (fun _ => none) = none := by cases next.behind <;> rfl
      show Remembers _ none (lowest next.behind fun _ => none)
      rw [hnone]
      rfl

end NotifyTrackerReceiver

/-! ## Trackers at work -/

/-- Each writer announces no lower offset than before for a partition. -/
def NonDecreasing (es : List Notified) : Prop :=
  ∀ before e after, es = before ++ e :: after → ∀ p v a, e.flag.find? p = some v →
    latest before e.writer p = some a → a ≤ v

theorem latest_append (es : List Notified) (e : Notified) (p : ℤ) :
    (fun i => latest (es ++ [e]) i p) =
      NotifyTrackerReceiver.announce (fun i => latest es i p) e.writer (e.flag.find? p) := by
  funext i
  unfold latest NotifyTrackerReceiver.announce
  rw [List.foldl_append, List.foldl_cons, List.foldl_nil]
  by_cases hi : i = e.writer
  · subst hi
    simp
  · rw [if_neg (Ne.symm hi), Function.update_of_ne hi]

theorem NonDecreasing.before {rest : List Notified}
    (h : NonDecreasing (es ++ rest)) : NonDecreasing es := by
  intro before e after hes
  exact h before e (after ++ rest) (by simp [hes])

/-- The offsets told for a partition. -/
def Tracking.told (s : Tracking) (p : ℤ) : List ℕ := s.emitted.filterMap fun ret => ret.find? p

namespace Tracking

open NotifyTrackerReceiver

/-- A chain of `n` trackers at its start. -/
def ofTracker (t : NotifyTrackerReceiver) : Tracking := { tracker := t, emitted := [] }

theorem run_append (s : Tracking) (es : List Notified) (e : Notified) :
    s.run (es ++ [e]) = (s.run es).step e := by
  simp [run]

theorem told_step (s : Tracking) (e : Notified) (p : ℤ) :
    (s.step e).told p = s.told p ++
      ((s.tracker.changed e.writer e.flag).1.bind fun ret => ret.find? p).toList := by
  unfold told step
  cases h : (s.tracker.changed e.writer e.flag).1 with
  | none => simp [h]
  | some ret => cases hp : ret.find? p <;> simp [h, hp]

/-- **What holds of the trackers after some flags.** -/
structure Tracked (s : Tracking) (n : ℕ) (es : List Notified) (p : ℤ) : Prop where
  behind : s.tracker.behind = n
  tracks : s.tracker.Tracks p fun i => latest es i p
  last : (s.told p).getLast? = lowest n fun i => latest es i p
  ascending : (s.told p).Pairwise (· ≤ ·)

theorem Tracked.step {s : Tracking} (h : s.Tracked n es p) (hi : e.writer ≤ n)
    (hes : NonDecreasing (es ++ [e])) : (s.step e).Tracked n (es ++ [e]) p := by
  have hv : ∀ v a, e.flag.find? p = some v → latest es e.writer p = some a → a ≤ v :=
    hes es e [] rfl p
  obtain ⟨htracks, htold⟩ := h.tracks.changed (h.behind ▸ hi) hv
  rw [← latest_append, h.behind] at htold
  rw [← latest_append] at htracks
  refine ⟨(changed_behind _ _ _).trans h.behind, htracks, ?_, ?_⟩
  · rw [told_step, ← htold, List.getLast?_append, h.last]
    cases (s.tracker.changed e.writer e.flag).1.bind fun ret => ret.find? p <;> rfl
  · rw [told_step]
    refine List.pairwise_append.2 ⟨h.ascending, ?_, ?_⟩
    · cases (s.tracker.changed e.writer e.flag).1.bind fun ret => ret.find? p <;> simp
    · intro u hu w hw
      rw [Option.mem_toList] at hw
      rw [hw, Option.some_or] at htold
      -- what was told last is no higher, as the least offset only grew
      obtain ⟨m, hm⟩ :=
        Option.ne_none_iff_exists'.1 (mt List.getLast?_eq_none_iff.1 (List.ne_nil_of_mem hu))
      obtain ⟨w', hw', hmw⟩ :=
        lowest_mono (announce_later (fun i => latest es i p) hv) (h.last.symm.trans hm)
      rw [← latest_append, ← htold] at hw'
      exact (le_of_getLast? h.ascending hm hu).trans (hmw.trans (Option.some.inj hw').ge)

theorem Tracked.run (ht : getTracker (n + 1) = some t) (hes : ∀ e ∈ es, e.writer ≤ n)
    (hnd : NonDecreasing es) : ((ofTracker t).run es).Tracked n es p := by
  induction es using List.reverseRecOn with
  | nil =>
    obtain ⟨hbehind, htracks⟩ := getTracker_tracks (p := p) ht
    refine ⟨Nat.succ_injective hbehind, htracks, ?_, .nil⟩
    show none = lowest n fun _ => none
    cases n <;> rfl
  | append_singleton es e ih =>
    rw [run_append]
    exact (ih (fun e' he' => hes e' (by simp [he'])) hnd.before).step (hes e (by simp)) hnd

/-- **A chain of trackers tells the least of the offsets that its writers announced last.** -/
theorem emits_least (ht : getTracker n = some t) (hes : ∀ e ∈ es, e.writer < n)
    (hnd : NonDecreasing es) (p : ℤ) :
    (∀ before e after ret v, es = before ++ e :: after →
      (((ofTracker t).run before).tracker.changed e.writer e.flag).1 = some ret →
      ret.find? p = some v →
      (∀ i < n, (latest (before ++ [e]) i p).isSome = true) ∧
        IsLeast {v | ∃ i < n, latest (before ++ [e]) i p = some v} v) ∧
    ((∃ i < n, latest es i p = none) → ((ofTracker t).run es).told p = []) ∧
    ((∀ i < n, (latest es i p).isSome = true) →
      ∃ v, (((ofTracker t).run es).told p).getLast? = some v ∧
      IsLeast {v | ∃ i < n, latest es i p = some v} v) ∧
    (((ofTracker t).run es).told p).Pairwise (· ≤ ·) := by
  obtain ⟨n, rfl⟩ : ∃ k, n = k + 1 := ⟨n - 1, by have := (getTracker_tracks (p := p) ht).1; omega⟩
  simp only [Nat.lt_succ_iff] at hes ⊢
  have h := Tracked.run (p := p) ht hes hnd
  refine ⟨fun before e after ret v hsplit hret hv => ?_, fun hnone => ?_, fun hall => ?_,
    h.ascending⟩
  · subst hsplit
    have hbefore := Tracked.run (p := p) ht (fun e' he' => hes e' (by simp [he'])) hnd.before
    have hwhole : NonDecreasing ((before ++ [e]) ++ after) := by simpa using hnd
    have hafter := hbefore.step (hes e (by simp)) hwhole.before
    have hlast := hafter.last
    rw [told_step, hret, Option.bind_some, hv] at hlast
    exact lowest_eq_some.1 (hlast.symm.trans (by simp))
  · have hlow : lowest n (fun i => latest es i p) = none := by
      by_contra hlow
      obtain ⟨v, hv⟩ := Option.ne_none_iff_exists'.1 hlow
      obtain ⟨i, hi, hin⟩ := hnone
      simpa [hin] using (lowest_eq_some.1 hv).1 i hi
    exact List.getLast?_eq_none_iff.1 (h.last.trans hlow)
  · obtain ⟨v, hv⟩ := lowest_isSome _ hall
    exact ⟨v, h.last.trans hv, (lowest_eq_some.1 hv).2⟩

/-- Of two writers the first announces 5, then the second 3. -/
def sampleFlags : List Notified := [⟨0, AList.insert 7 5 ∅⟩, ⟨1, AList.insert 7 3 ∅⟩]

theorem sampleFlags_nonDecreasing : NonDecreasing sampleFlags := by
  intro before e after hes p v a hv ha
  rcases before with _ | ⟨x, _ | ⟨y, before⟩⟩
  · simp [latest] at ha
  · obtain ⟨rfl, rfl, -⟩ : _ = x ∧ _ = e ∧ _ := by simpa [sampleFlags] using hes
    simp [latest] at ha
  · simp [sampleFlags] at hes

theorem emits_least_sample :
    ∃ t, getTracker 2 = some t ∧ ((ofTracker t).run sampleFlags).told 7 = [3] ∧
    ∃ v, (((ofTracker t).run sampleFlags).told 7).getLast? = some v ∧
      IsLeast {v | ∃ i < 2, latest sampleFlags i 7 = some v} v :=
  ⟨_, rfl, by decide, (emits_least rfl (by decide) sampleFlags_nonDecreasing 7).2.2.1 (by decide)⟩

end Tracking

end Dingir
