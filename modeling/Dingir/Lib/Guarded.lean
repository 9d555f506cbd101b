import Mathlib.Tactic

/-!
# Guarded runs

A transition system steps from a state under a label, or not at all. `Runs P` are
its runs in which every step meets the guard `P`, a condition on the state before
the step and its label. An invariant that every guarded step keeps holds at the end
of every run from a state where it holds (`Runs.rule`).
-/

namespace Guarded

variable {σ ε : Type*} {step : σ → ε → Option σ} {P Q : σ → ε → Prop} {s t u : σ} {e : ε}

/-- The states a run of guarded steps leads to from `s`. -/
inductive Runs (step : σ → ε → Option σ) (P : σ → ε → Prop) (s : σ) : σ → Prop
  | start : Runs step P s s
  | step {t u : σ} {e : ε} : Runs step P s t → P t e → step t e = some u → Runs step P s u

namespace Runs

theorem one (hP : P s e) (h : step s e = some t) : Runs step P s t := .step .start hP h

theorem trans (h : Runs step P s t) (h' : Runs step P t u) : Runs step P s u := by
  induction h' with
  | start => exact h
  | step _ hP hstep ih => exact .step ih hP hstep

/-- A stronger guard leads to fewer states. -/
theorem mono (hPQ : ∀ s e, P s e → Q s e) (h : Runs step P s t) : Runs step Q s t := by
  induction h with
  | start => exact .start
  | step _ hP hstep ih => exact .step ih (hPQ _ _ hP) hstep

/-- **The rule for an invariant.** -/
theorem rule {I : σ → Prop} (hkeep : ∀ s e t, I s → P s e → step s e = some t → I t) (hs : I s)
    (h : Runs step P s t) : I t := by
  induction h with
  | start => exact hs
  | step _ hP hstep ih => exact hkeep _ _ _ ih hP hstep

end Runs

/-- The labels of a run, one after the other. -/
def follow (step : σ → ε → Option σ) (s : σ) (es : List ε) : Option σ := es.foldlM step s

/-- Following labels that meet the guard is a guarded run. -/
theorem follow_runs {es : List ε} (hP : ∀ s, ∀ e ∈ es, P s e)
    (h : follow step s es = some t) : Runs step P s t := by
  induction es generalizing s with
  | nil => exact Option.some.inj h ▸ .start
  | cons e es ih =>
    unfold follow at h
    rw [List.foldlM_cons] at h
    obtain ⟨u, hu, h⟩ := Option.bind_eq_some_iff.1 h
    exact (Runs.one (hP s e (by simp)) hu).trans
      (ih (fun s e' he' => hP s e' (List.mem_cons_of_mem _ he')) h)

/-- The labels of a run, as long as they meet the guard. -/
def obey (step : σ → ε → Option σ) (P : σ → ε → Prop) [∀ s e, Decidable (P s e)] (s : σ)
    (es : List ε) : Option σ :=
  follow (fun s e => if P s e then step s e else none) s es

theorem obey_runs [∀ s e, Decidable (P s e)] {es : List ε}
    (h : obey step P s es = some t) : Runs step P s t := by
  have hruns := follow_runs (P := fun _ _ => True) (fun _ _ _ => trivial) h
  clear h
  induction hruns with
  | start => exact .start
  | step _ _ hstep ih =>
    split at hstep
    · rename_i hguard
      exact .step ih hguard hstep
    · cases hstep

end Guarded
