import Dingir.Lib.Guarded
import Dingir.Lib.Prefix
import Dingir.Spec.Writer

/-!
# What the progress stack reports

Offsets are pushed in ascending order and popped in any order. The stack has an
entry for each offset at work, with the last of the offsets done between it and the
next at work (`stackOf`). A pop joins the run of offsets done above it to the one
below, and reports when the run below goes down to the first offset:

* **`Progress.reports_prefix`**: `pop_top` reports exactly when the least offset at
  work is popped, and reports how far all is done; reports ascend, and when nothing
  is at work the last one is the last offset pushed and the stack is empty.
-/

namespace Dingir

open Guarded Prefix

variable {popped popped' l r : List ℕ} {s s' : Progress} {o o' : Option ℕ} {n q v : ℕ}

/-! ## The stack -/

namespace ProgTracingStack

/-- The stack for the offsets pushed, of which some were popped. -/
def stackOf (popped : List ℕ) : List ℕ → ProgTracingStack
  | [] => []
  | v :: rest =>
    if v ∈ popped then stackOf popped rest
    else (v, (rest.takeWhile fun w => w ∈ popped).getLast?) :: stackOf popped rest

theorem stackOf_of_done (h : ∀ w ∈ l, w ∈ popped) : stackOf popped (l ++ r) = stackOf popped r := by
  induction l with
  | nil => rfl
  | cons w l ih =>
    rw [List.cons_append, stackOf, if_pos (h w (by simp))]
    exact ih fun x hx => h x (List.mem_cons_of_mem _ hx)

theorem stackOf_append (hn : n ∉ popped) :
    stackOf popped (l ++ n :: r) =
      stackOf popped l ++ (n, (r.takeWhile fun w => w ∈ popped).getLast?) :: stackOf popped r := by
  induction l with
  | nil => simp [stackOf, hn]
  | cons w l ih =>
    rw [List.cons_append, stackOf, stackOf, takeWhile_append_stop (by simpa using hn), ih]
    split <;> simp

theorem stackOf_congr (h : ∀ w ∈ l, w ∈ popped ↔ w ∈ popped') :
    stackOf popped l = stackOf popped' l := by
  induction l with
  | nil => rfl
  | cons w l ih =>
    have hl : ∀ x ∈ l, x ∈ popped ↔ x ∈ popped' := fun x hx => h x (List.mem_cons_of_mem _ hx)
    simp only [stackOf, h w (by simp), ih hl]
    rw [takeWhile_congr (q := fun x => x ∈ popped') fun x hx => by simp [hl x hx]]

theorem mem_of_mem_stackOf {e : ℕ × Option ℕ} (h : e ∈ stackOf popped l) : e.1 ∈ l := by
  induction l with
  | nil => simp [stackOf] at h
  | cons w l ih =>
    rw [stackOf] at h
    split at h
    · exact List.mem_cons_of_mem _ (ih h)
    · rcases List.mem_cons.1 h with rfl | h
      · simp
      · exact List.mem_cons_of_mem _ (ih h)

theorem pushTop_stackOf (hn : ∀ v ∈ l, v < n) (hp : n ∉ popped) :
    (stackOf popped l).pushTop n = stackOf popped (l ++ [n]) := by
  have hlast : ¬n < ((stackOf popped l).getLast?.getD (n, none)).1 := by
    cases h : (stackOf popped l).getLast? with
    | none => simp
    | some e => exact (hn e.1 (mem_of_mem_stackOf (List.mem_of_getLast? h))).le.not_gt
  rw [pushTop, if_neg hlast, stackOf_append hp]
  rfl

/-- The loop passes the entries above `n`. -/
theorem popLoop_above {above lower : List (ℕ × Option ℕ)} (habove : ∀ e ∈ above, n ≤ e.1)
    (trace : ℕ × Option ℕ) :
    popLoop n trace (above ++ (n, o) :: lower) =
      (trace :: above ++ (popLoop n (n, o) lower).1, (popLoop n (n, o) lower).2) := by
  induction above generalizing trace with
  | nil => simp [popLoop]
  | cons e above ih =>
    have he : ¬n > e.1 := not_lt.2 (habove e (by simp))
    simp only [List.cons_append, popLoop, he, if_false]
    rw [ih fun x hx => habove x (List.mem_cons_of_mem _ hx)]
    simp

theorem popTop_at {below above : ProgTracingStack} (habove : ∀ e ∈ above, n ≤ e.1) :
    popTop (below ++ (n, o) :: above) n =
      ((popLoop n (n, o) below.reverse).2.bind fun trace => trace.2.or (some trace.1),
        (popLoop n (n, o) below.reverse).1.reverse ++ above) := by
  have hrev : (below ++ (n, o) :: above).reverse = above.reverse ++ (n, o) :: below.reverse := by
    simp
  unfold popTop
  rw [hrev]
  cases ha : above.reverse with
  | nil =>
    obtain rfl : above = [] := by simpa using ha
    simp
  | cons e rest =>
    have hrest : ∀ x ∈ rest, n ≤ x.1 :=
      fun x hx => habove x (by rw [← List.mem_reverse, ha]; simp [hx])
    have habove' : above = rest.reverse ++ [e] := by rw [← List.reverse_reverse above, ha]; simp
    simp [popLoop_above hrest, habove']

/-- A pop of the lowest entry reports. -/
theorem popTop_lowest {above : ProgTracingStack} (habove : ∀ e ∈ above, n ≤ e.1) :
    popTop ((n, o) :: above) n = (o.or (some n), above) := by
  rw [show (n, o) :: above = [] ++ (n, o) :: above from rfl, popTop_at habove]
  rfl

/-- Any other one tells the entry below it how far all is done. -/
theorem popTop_inner {below above : ProgTracingStack} (habove : ∀ e ∈ above, n ≤ e.1) (hq : q < n) :
    popTop (below ++ (q, o') :: (n, o) :: above) n =
      (none, below ++ (q, o.or (some n)) :: above) := by
  rw [show below ++ (q, o') :: (n, o) :: above = (below ++ [(q, o')]) ++ (n, o) :: above by simp,
    popTop_at habove]
  simp [popLoop, hq]

end ProgTracingStack

/-! ## A stack at work -/

namespace Progress

open ProgTracingStack

/-- The offsets up to which all is done. -/
def completed (s : Progress) : List ℕ := s.pushed.takeWhile fun v => v ∈ s.popped

/-- No offset at work is below. -/
def IsLowest (s : Progress) (n : ℕ) : Prop := ∀ w ∈ s.pushed, w ∉ s.popped → n ≤ w

/-- **What holds of a stack at work.** -/
structure Traced (s : Progress) : Prop where
  ascending : s.pushed.Pairwise (· < ·)
  popped : ∀ v ∈ s.popped, v ∈ s.pushed
  stack : s.stack = stackOf s.popped s.pushed
  reports : s.reports.Pairwise (· < ·)
  covered : ∀ v ∈ s.reports, v ∈ s.completed
  last : s.reports.getLast? = s.completed.getLast?

namespace Traced

theorem start : Traced start :=
  ⟨.nil, by simp [Progress.start], rfl, .nil, by simp [Progress.start], rfl⟩

theorem pushTop (hs : s.Traced) (hn : s.InTurn (.pushTop n))
    (h : s.step (.pushTop n) = some s') : s'.Traced := by
  obtain rfl := Option.some.inj h
  have hp : n ∉ s.popped := fun hp => (hn n (hs.popped n hp)).false
  have hcompleted : (s.pushed ++ [n]).takeWhile (fun v => v ∈ s.popped) = s.completed :=
    takeWhile_append_stop (by simpa using hp)
  refine ⟨?_, fun v hv => List.mem_append_left _ (hs.popped v hv), ?_, hs.reports, ?_, ?_⟩
  · refine List.pairwise_append.2 ⟨hs.ascending, List.pairwise_singleton _ _, fun v hv w hw => ?_⟩
    rw [List.mem_singleton.1 hw]
    exact hn v hv
  · show s.stack.pushTop n = _
    rw [hs.stack]
    exact pushTop_stackOf hn hp
  · intro v hv
    unfold completed
    rw [hcompleted]
    exact hs.covered v hv
  · unfold completed
    rw [hcompleted]
    exact hs.last

/-- What was pushed around an offset. -/
theorem split (hs : s.Traced) (hn : n ∈ s.pushed) :
    ∃ l r, s.pushed = l ++ n :: r ∧ (∀ v ∈ l, v < n) ∧ ∀ v ∈ r, n < v := by
  obtain ⟨l, r, hlr⟩ := List.append_of_mem hn
  have hasc := hs.ascending
  rw [hlr] at hasc
  obtain ⟨-, hr, hcross⟩ := List.pairwise_append.1 hasc
  exact ⟨l, r, hlr, fun v hv => hcross v hv n (by simp), (List.pairwise_cons.1 hr).1⟩

/-- A pop at the lowest offset at work reports how far all is done after it. -/
theorem popTop_lowest (hs : s.Traced) (hn : s.InTurn (.popTop n)) (hlow : s.IsLowest n) :
    ∃ run, s.stack.popTop n = (some (run.getLast?.getD n), stackOf (s.popped ++ [n]) s.pushed) ∧
      s.pushed.takeWhile (fun v => v ∈ s.popped ++ [n]) = s.completed ++ n :: run ∧
      (∀ v ∈ s.completed, v < n) ∧ ∀ v ∈ run, n < v := by
  obtain ⟨l, r, hlr, hl, hr⟩ := hs.split hn.1
  have hdone : ∀ v ∈ l, v ∈ s.popped := by
    intro v hv
    by_contra hv'
    exact absurd (hlow v (by rw [hlr]; simp [hv]) hv') (hl v hv).not_ge
  have hsame : ∀ v ∈ r, v ∈ s.popped ↔ v ∈ s.popped ++ [n] := by
    intro v hv
    simp [(hr v hv).ne']
  have hcompleted : s.completed = l := by
    unfold completed
    rw [hlr, takeWhile_append_stop (by simpa using hn.2)]
    exact List.takeWhile_eq_self_iff.2 fun v hv => by simpa using hdone v hv
  refine ⟨r.takeWhile fun v => v ∈ s.popped, ?_, ?_, hcompleted ▸ hl,
    fun v hv => hr v (List.takeWhile_subset _ hv)⟩
  · have hnew : stackOf (s.popped ++ [n]) s.pushed = stackOf s.popped r := by
      rw [hlr, show l ++ n :: r = (l ++ [n]) ++ r by simp, stackOf_of_done, stackOf_congr hsame]
      intro v hv
      rcases List.mem_append.1 hv with hv | hv
      · simp [hdone v hv]
      · simp [List.mem_singleton.1 hv]
    rw [hnew, hs.stack, hlr, stackOf_of_done hdone, stackOf, if_neg hn.2,
      ProgTracingStack.popTop_lowest fun e he => (hr e.1 (mem_of_mem_stackOf he)).le]
    cases (r.takeWhile fun v => v ∈ s.popped).getLast? <;> rfl
  · rw [hcompleted, hlr, List.takeWhile_append_of_pos fun v hv => by simp [hdone v hv],
      List.takeWhile_cons_of_pos (by simp), takeWhile_congr (q := fun v => v ∈ s.popped) fun v hv =>
        decide_eq_decide.2 (hsame v hv).symm]

/-- Any other pop reports nothing, and all is done no further than before. -/
theorem popTop_inner (hs : s.Traced) (hn : s.InTurn (.popTop n)) (hlow : ¬s.IsLowest n) :
    s.stack.popTop n = (none, stackOf (s.popped ++ [n]) s.pushed) ∧
      s.pushed.takeWhile (fun v => v ∈ s.popped ++ [n]) = s.completed := by
  obtain ⟨l, r, hlr, hl, hr⟩ := hs.split hn.1
  -- the last offset at work below `n`
  obtain ⟨front, q, run, rfl, hq, hrun⟩ : ∃ front q run, l = front ++ q :: run ∧ q ∉ s.popped ∧
      ∀ v ∈ run, v ∈ s.popped := by
    rcases takeWhile_cases (fun v => decide (v ∈ s.popped)) l.reverse with hall |
      ⟨q, rest, hrev, hq⟩
    · refine absurd (fun w hw hw' => ?_) hlow
      rw [hlr, List.mem_append, List.mem_cons] at hw
      rcases hw with hw | rfl | hw
      · rw [← List.mem_reverse, ← hall] at hw
        exact absurd (by simpa using List.mem_takeWhile_imp hw) hw'
      · exact le_rfl
      · exact (hr w hw).le
    · refine ⟨rest.reverse, q, (l.reverse.takeWhile fun v => v ∈ s.popped).reverse,
        ?_, by simpa using hq, fun v hv => ?_⟩
      · simpa only [List.reverse_reverse, List.reverse_append, List.reverse_cons, List.append_assoc,
          List.singleton_append] using congrArg List.reverse hrev
      · simpa using List.mem_takeWhile_imp (List.mem_reverse.1 hv)
  have hqn : q < n := hl q (by simp)
  have hold : ∀ v, v ≠ n → (v ∈ s.popped ↔ v ∈ s.popped ++ [n]) := fun v hv => by simp [hv]
  have hfront : ∀ v ∈ front, v ∈ s.popped ↔ v ∈ s.popped ++ [n] :=
    fun v hv => hold v (hl v (by simp [hv])).ne
  have hsame : ∀ v ∈ r, v ∈ s.popped ↔ v ∈ s.popped ++ [n] := fun v hv => hold v (hr v hv).ne'
  have hq' : q ∉ s.popped ++ [n] := by simp [hq, hqn.ne]
  have hdone : ∀ v ∈ run ++ [n], v ∈ s.popped ++ [n] := by
    intro v hv
    rcases List.mem_append.1 hv with hv | hv
    · simp [hrun v hv]
    · simp [List.mem_singleton.1 hv]
  have hpushed : s.pushed = front ++ q :: (run ++ n :: r) := by simp [hlr]
  constructor
  · have hrest : (run ++ n :: r).takeWhile (fun v => v ∈ s.popped ++ [n]) = run ++
        n :: r.takeWhile fun v => v ∈ s.popped := by
      rw [List.takeWhile_append_of_pos fun v hv => by simp [hrun v hv],
        List.takeWhile_cons_of_pos (by simp),
        takeWhile_congr (q := fun v => v ∈ s.popped) fun v hv =>
          decide_eq_decide.2 (hsame v hv).symm]
    have hnew : stackOf (s.popped ++ [n]) s.pushed = stackOf s.popped front ++
        (q, (r.takeWhile fun v => v ∈ s.popped).getLast?.or (some n)) :: stackOf s.popped r := by
      rw [hpushed, stackOf_append hq', hrest, getLast?_append_cons, ← stackOf_congr hfront,
        show run ++ n :: r = (run ++ [n]) ++ r by simp, stackOf_of_done hdone,
          ← stackOf_congr hsame]
    rw [hnew, hs.stack, hpushed, stackOf_append hq, stackOf_of_done hrun, stackOf, if_neg hn.2,
      ProgTracingStack.popTop_inner (fun e he => (hr e.1 (mem_of_mem_stackOf he)).le) hqn]
  · unfold completed
    rw [hpushed, takeWhile_append_stop (by simpa using hq'),
      takeWhile_append_stop (by simpa using hq),
      takeWhile_congr fun v hv => decide_eq_decide.2 (hfront v hv).symm]

theorem popTop (hs : s.Traced) (hn : s.InTurn (.popTop n))
    (h : s.step (.popTop n) = some s') : s'.Traced := by
  obtain rfl := Option.some.inj h
  have hpopped : ∀ v ∈ s.popped ++ [n], v ∈ s.pushed := by
    intro v hv
    rcases List.mem_append.1 hv with hv | hv
    · exact hs.popped v hv
    · exact List.mem_singleton.1 hv ▸ hn.1
  by_cases hlow : s.IsLowest n
  · obtain ⟨run, hpop, hcompleted, hbelow, habove⟩ := hs.popTop_lowest hn hlow
    have hlast : (s.completed ++ n :: run).getLast? = some (run.getLast?.getD n) := by
      rw [getLast?_append_cons]
      cases run.getLast? <;> rfl
    have hnv : n ≤ run.getLast?.getD n := by
      cases hrun : run.getLast? with
      | none => exact le_rfl
      | some v => exact (habove v (List.mem_of_getLast? hrun)).le
    refine ⟨hs.ascending, hpopped, congrArg Prod.snd hpop, ?_, ?_, ?_⟩
    · show (s.reports ++ (s.stack.popTop n).1.toList).Pairwise _
      rw [hpop]
      refine List.pairwise_append.2 ⟨hs.reports, List.pairwise_singleton _ _, fun v hv w hw => ?_⟩
      rw [List.mem_singleton.1 hw]
      exact (hbelow v (hs.covered v hv)).trans_le hnv
    · show ∀ v ∈ s.reports ++ (s.stack.popTop n).1.toList, v ∈ s.pushed.takeWhile _
      rw [hpop, hcompleted]
      intro v hv
      rcases List.mem_append.1 hv with hv | hv
      · exact List.mem_append_left _ (hs.covered v hv)
      · rw [List.mem_singleton.1 hv]
        exact List.mem_of_getLast? hlast
    · show (s.reports ++ (s.stack.popTop n).1.toList).getLast? = (s.pushed.takeWhile _).getLast?
      rw [hpop, hcompleted, hlast]
      simp
  · obtain ⟨hpop, hcompleted⟩ := hs.popTop_inner hn hlow
    have hreports : s.reports ++ (s.stack.popTop n).1.toList = s.reports := by
      rw [hpop]
      simp
    refine ⟨hs.ascending, hpopped, congrArg Prod.snd hpop, ?_, ?_, ?_⟩
    · show (s.reports ++ (s.stack.popTop n).1.toList).Pairwise _
      rw [hreports]
      exact hs.reports
    · show ∀ v ∈ s.reports ++ (s.stack.popTop n).1.toList, v ∈ s.pushed.takeWhile _
      rw [hreports, hcompleted]
      exact hs.covered
    · show (s.reports ++ (s.stack.popTop n).1.toList).getLast? = (s.pushed.takeWhile _).getLast?
      rw [hreports, hcompleted]
      exact hs.last

end Traced

/-- The reachable states of a stack at work. -/
abbrev Reachable : Progress → Prop := Runs Progress.step InTurn start

theorem Reachable.traced (h : Reachable s) : s.Traced := by
  refine h.rule (fun s a s' hs ha hstep => ?_) .start
  cases a with
  | pushTop n => exact hs.pushTop ha hstep
  | popTop n => exact hs.popTop ha hstep

/-- **The progress stack reports exactly the completed prefix.** -/
theorem reports_prefix (h : Reachable s) :
    (∀ n, s.InTurn (.popTop n) →
      ((s.stack.popTop n).1.isSome = true ↔ s.IsLowest n) ∧
      ∀ v, (s.stack.popTop n).1 = some v →
        IsGreatest {v | v ∈ s.pushed ∧ ∀ w ∈ s.pushed, w ≤ v → w ∈ s.popped ++ [n]} v) ∧
    s.reports.Pairwise (· < ·) ∧
    ((∀ v ∈ s.pushed, v ∈ s.popped) → s.stack = [] ∧ s.reports.getLast? = s.pushed.getLast?) := by
  have hs := h.traced
  refine ⟨fun n hn => ?_, hs.reports, fun hall => ?_⟩
  · by_cases hlow : s.IsLowest n
    · obtain ⟨run, hpop, hcompleted, -, -⟩ := hs.popTop_lowest hn hlow
      rw [hpop]
      refine ⟨by simp [hlow], fun v hv => ?_⟩
      have hgreat :=
        isGreatest_takeWhile (p := fun v => v ∈ s.popped ++ [n]) (a := v) hs.ascending (by
        rw [hcompleted, getLast?_append_cons, ← hv]
        cases run.getLast? <;> rfl)
      simpa only [decide_eq_true_eq] using hgreat
    · rw [(hs.popTop_inner hn hlow).1]
      exact ⟨by simp [hlow], by simp⟩
  · constructor
    · rw [hs.stack, ← List.append_nil s.pushed, stackOf_of_done hall, stackOf]
    · rw [hs.last]
      unfold completed
      rw [List.takeWhile_eq_self_iff.2 fun v hv => by simpa using hall v hv]

/-- Of three offsets the second is done first; the pop of the first reports the second. -/
theorem reports_prefix_sample :
    IsGreatest {v | v ∈ [1, 2, 3] ∧ ∀ w ∈ [1, 2, 3], w ≤ v → w ∈ [2] ++ [1]} 2 := by
  have h : Reachable { stack := [(1, some 2), (3, none)], pushed := [1, 2, 3], popped := [2],
                       reports := [] } := by
    refine .step (.step (.step (.step .start (e := .pushTop 1) ?_ rfl) (e := .pushTop 2) ?_ rfl)
      (e := .pushTop 3) ?_ rfl) (e := .popTop 2) ?_ rfl <;> simp [InTurn, start]
  have hreports := reports_prefix h
  exact (hreports.1 1 ⟨by decide, by decide⟩).2 2 rfl

end Progress

end Dingir
