import Mathlib.Data.List.Basic
import Mathlib.Tactic

/-!
# Streams of events

Events change a state (`Rules.apply`), and a state admits some of them
(`Rules.admits`). A stream is *coherent* when each event is admitted by the
state the events before it lead to. `Coherent.rule` is the induction along a
coherent stream; `Coherent.split` looks at one event of it.
-/

namespace Stream

/-- What an event does to a state, and when a state admits it. -/
structure Rules (σ ε : Type*) where
  apply : σ → ε → σ
  admits : σ → ε → Prop

variable {σ ε : Type*} (R : Rules σ ε)

/-- The state after some events. -/
def after (s : σ) (es : List ε) : σ := es.foldl R.apply s

/-- Each event is admitted when it comes. -/
def Coherent : σ → List ε → Prop
  | _, [] => True
  | s, e :: es => R.admits s e ∧ Coherent (R.apply s e) es

/-- Whether a stream is coherent can be computed, where admission can. -/
instance Coherent.decidable [∀ s e, Decidable (R.admits s e)] : ∀ s es, Decidable (Coherent R s es)
  | _, [] => inferInstanceAs (Decidable True)
  | s, e :: es =>
    have := Coherent.decidable (R.apply s e) es
    inferInstanceAs (Decidable (R.admits s e ∧ Coherent R (R.apply s e) es))

variable {R} {s : σ} {e : ε} {es es' : List ε}

@[simp] theorem after_nil : after R s [] = s := rfl

@[simp] theorem after_cons : after R s (e :: es) = after R (R.apply s e) es := rfl

theorem after_append : after R s (es ++ es') = after R (after R s es) es' := List.foldl_append

theorem after_concat : after R s (es ++ [e]) = R.apply (after R s es) e := by
  rw [after_append, after_cons, after_nil]

@[simp] theorem coherent_nil : Coherent R s [] := trivial

@[simp] theorem coherent_cons :
    Coherent R s (e :: es) ↔ R.admits s e ∧ Coherent R (R.apply s e) es := Iff.rfl

theorem coherent_append :
    Coherent R s (es ++ es') ↔ Coherent R s es ∧ Coherent R (after R s es) es' := by
  induction es generalizing s with
  | nil => simp
  | cons e es ih => rw [List.cons_append, coherent_cons, coherent_cons, after_cons, ih, and_assoc]

/-- Events that each leave the state as it is. -/
theorem idle (h : ∀ e ∈ es, R.admits s e ∧ R.apply s e = s) :
    Coherent R s es ∧ after R s es = s := by
  induction es with
  | nil => exact ⟨trivial, rfl⟩
  | cons e es ih =>
    obtain ⟨hadmits, happly⟩ := h e (by simp)
    obtain ⟨hcoh, hafter⟩ := ih fun e' he' => h e' (List.mem_cons_of_mem _ he')
    rw [coherent_cons, after_cons, happly]
    exact ⟨⟨hadmits, hcoh⟩, hafter⟩

/-- One event of a coherent stream, with what comes before and after it. -/
theorem Coherent.split (h : Coherent R s (es ++ e :: es')) :
    Coherent R s es ∧ R.admits (after R s es) e ∧ Coherent R (after R s (es ++ [e])) es' := by
  obtain ⟨hbefore, hadmits, hafter⟩ := coherent_append.1 h
  exact ⟨hbefore, hadmits, by rw [after_concat]; exact hafter⟩

/-- **Induction along a coherent stream.** -/
theorem Coherent.rule {P : List ε → σ → Prop} (hnil : P [] s)
    (hstep : ∀ es e, P es (after R s es) → R.admits (after R s es) e →
      P (es ++ [e]) (R.apply (after R s es) e))
    (h : Coherent R s es) : P es (after R s es) := by
  induction es using List.reverseRecOn with
  | nil => exact hnil
  | append_singleton es e ih =>
    obtain ⟨hbefore, hadmits, -⟩ := h.split
    rw [after_concat]
    exact hstep es e (ih hbefore) hadmits

/-- What no admitted event of a stream undoes, and rules an event out, rules it out for good. -/
theorem Coherent.never {P : σ → Prop} {B : ε → Prop}
    (hkeep : ∀ s e, P s → R.admits s e → P (R.apply s e)) (hbad : ∀ s e, P s → R.admits s e → ¬ B e)
    (hs : P s) (h : Coherent R s es) : P (after R s es) ∧ ∀ e ∈ es, ¬ B e := by
  induction es generalizing s with
  | nil => exact ⟨hs, by simp⟩
  | cons e es ih =>
    obtain ⟨hadmits, hrest⟩ := h
    obtain ⟨hafter, hall⟩ := ih (hkeep s e hs hadmits) hrest
    refine ⟨hafter, fun e' he' => ?_⟩
    rcases List.mem_cons.1 he' with rfl | he'
    · exact hbad s e' hs hadmits
    · exact hall e' he'

end Stream
