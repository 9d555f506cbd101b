import Mathlib.Tactic

/-!
# Computations that may stop, and their loops

A computation in `Except ε` either stops with an `ε` or returns a value. The
lemmas here peel a returned value apart (`bind_ok`), and give the rules of the
two loops an imperative program has: `forBreak`, a loop over a list whose body
may leave early, and `List.foldlM`, a loop that always runs to the end.

The rules carry an invariant that sees the part of the list still to be done.
-/

namespace Outcome

universe u

variable {ε α β σ τ : Type u}

/-- A sequence of two computations returns when both do. -/
theorem bind_ok {x : Except ε α} {f : α → Except ε β} {b : β} :
    (x >>= f) = .ok b ↔ ∃ a, x = .ok a ∧ f a = .ok b := by
  cases x with
  | error e => simp [bind, Except.bind]
  | ok a => simp [bind, Except.bind]

theorem pure_ok {a b : α} : (pure a : Except ε α) = .ok b ↔ a = b := by
  simp [pure, Except.pure]

theorem throw_ok {e : ε} {b : α} : ¬ (throw e : Except ε α) = .ok b := by
  simp [throw, throwThe, MonadExceptOf.throw]

theorem toOption_some {x : Except ε α} {a : α} : x.toOption = some a ↔ x = .ok a := by
  cases x <;> simp [Except.toOption]

/-- Stopping with an error: the first computation stops, or the second does. -/
theorem bind_error {x : Except ε α} {f : α → Except ε β} {e : ε} :
    (x >>= f) = .error e ↔ x = .error e ∨ ∃ a, x = .ok a ∧ f a = .error e := by
  cases x with
  | error e => simp [bind, Except.bind]
  | ok a => simp [bind, Except.bind]

/-- A loop over a list whose body says whether to go on (`yield`) or to leave (`done`). -/
def forBreak (body : α → σ → Except ε (ForInStep σ)) : List α → σ → Except ε σ
  | [], s => .ok s
  | a :: as, s =>
    match body a s with
    | .error e => .error e
    | .ok (.done s') => .ok s'
    | .ok (.yield s') => forBreak body as s'

/-- **The rule of a loop with early exit.** `P` holds at the head of every round,
for the elements still to come; `Q` holds after the loop. -/
theorem forBreak_rule {body : α → σ → Except ε (ForInStep σ)} {P : List α → σ → Prop} {Q : σ → Prop}
    (hnil : ∀ s, P [] s → Q s)
    (hyield : ∀ a as s s', P (a :: as) s → body a s = .ok (.yield s') → P as s')
    (hdone : ∀ a as s s', P (a :: as) s → body a s = .ok (.done s') → Q s') :
    ∀ l s s', P l s → forBreak body l s = .ok s' → Q s' := by
  intro l
  induction l with
  | nil =>
    intro s s' hP h
    simp only [forBreak, Except.ok.injEq] at h
    subst h; exact hnil s hP
  | cons a as ih =>
    intro s s' hP h
    cases hb : body a s with
    | error e => simp [forBreak, hb] at h
    | ok r =>
      cases r with
      | done t =>
        simp only [forBreak, hb, Except.ok.injEq] at h
        subst h; exact hdone a as s t hP hb
      | yield t =>
        simp only [forBreak, hb] at h
        exact ih t s' (hyield a as s t hP hb) h

/-- A loop with early exit returns when every round does, from a state where the invariant holds. -/
theorem forBreak_total {body : α → σ → Except ε (ForInStep σ)} {P : List α → σ → Prop}
    (hround : ∀ a as s, P (a :: as) s → ∃ r, body a s = .ok r ∧ ∀ s', r = .yield s' → P as s') :
    ∀ l s, P l s → ∃ s', forBreak body l s = .ok s' := by
  intro l
  induction l with
  | nil => intro s _; exact ⟨s, rfl⟩
  | cons a as ih =>
    intro s hP
    obtain ⟨r, hr, hnext⟩ := hround a as s hP
    cases r with
    | done t => exact ⟨t, by simp only [forBreak, hr]⟩
    | yield t =>
      obtain ⟨s', hs⟩ := ih t (hnext t rfl)
      exact ⟨s', by simp only [forBreak, hr, hs]⟩

/-- The rounds a loop comes to, with the states it comes to them in, whether or not it returns. -/
def heads (body : α → σ → Except ε (ForInStep σ)) : List α → σ → List (α × σ)
  | [], _ => []
  | a :: as, s => (a, s) :: match body a s with
    | .ok (.yield s') => heads body as s'
    | _ => []

/-- What a loop comes to after a round that goes on, it comes to. -/
theorem heads_of_yield {body : α → σ → Except ε (ForInStep σ)} {a : α} {as : List α} {s s' : σ}
    (h : body a s = .ok (.yield s')) : heads body as s' ⊆ heads body (a :: as) s := by
  intro e he
  unfold heads
  rw [h]
  exact List.mem_cons_of_mem _ he

/-- What holds at the head of every round holds in every state the loop comes to. -/
theorem heads_rule {body : α → σ → Except ε (ForInStep σ)} {P : List α → σ → Prop}
    (hyield : ∀ a as s s', P (a :: as) s → body a s = .ok (.yield s') → P as s') :
    ∀ l s, P l s → ∀ a t, (a, t) ∈ heads body l s → ∃ as, P (a :: as) t := by
  intro l
  induction l with
  | nil => intro s _ a t h; simp [heads] at h
  | cons b bs ih =>
    intro s hP a t h
    unfold heads at h
    rcases List.mem_cons.1 h with heq | h
    · obtain ⟨rfl, rfl⟩ := Prod.mk.inj heq
      exact ⟨bs, hP⟩
    · split at h
      · rename_i s' hs'
        exact ih s' (hyield b bs s s' hP hs') a t h
      · simp at h

/-- Two rounds that go on together or leave together, with related states. -/
inductive StepRel (R : σ → τ → Prop) : ForInStep σ → ForInStep τ → Prop
  | done {s : σ} {t : τ} : R s t → StepRel R (.done s) (.done t)
  | yield {s : σ} {t : τ} : R s t → StepRel R (.yield s) (.yield t)

/-- **Two loops in step.** When each round of the first is matched by the second,
a first loop that returns is matched by a second one that returns. -/
theorem forBreak_sim {body : α → σ → Except ε (ForInStep σ)}
    {body' : α → τ → Except ε (ForInStep τ)} {R : σ → τ → Prop}
    (hround : ∀ a s t r, R s t → body a s = .ok r → ∃ r', body' a t = .ok r' ∧ StepRel R r r') :
    ∀ l s t s', R s t → forBreak body l s = .ok s' → ∃ t', forBreak body' l t = .ok t' ∧
      R s' t' := by
  intro l
  induction l with
  | nil =>
    intro s t s' hR h
    simp only [forBreak, Except.ok.injEq] at h
    subst h; exact ⟨t, rfl, hR⟩
  | cons a as ih =>
    intro s t s' hR h
    cases hb : body a s with
    | error e => simp [forBreak, hb] at h
    | ok r =>
      obtain ⟨r', hr', hrel⟩ := hround a s t r hR hb
      cases hrel with
      | done hR' =>
        simp only [forBreak, hb, Except.ok.injEq] at h
        subst h
        exact ⟨_, by simp only [forBreak, hr'], hR'⟩
      | yield hR' =>
        simp only [forBreak, hb] at h
        obtain ⟨t'', ht', hR''⟩ := ih _ _ s' hR' h
        exact ⟨t'', by simp only [forBreak, hr', ht'], hR''⟩

/-- **The rule of a loop that runs to the end.** -/
theorem foldlM_rule {f : σ → α → Except ε σ} {P : List α → σ → Prop}
    (hstep : ∀ a as s s', P (a :: as) s → f s a = .ok s' → P as s') :
    ∀ l s s', P l s → l.foldlM f s = .ok s' → P [] s' := by
  intro l
  induction l with
  | nil =>
    intro s s' hP h
    rw [List.foldlM_nil, pure_ok] at h
    subst h; exact hP
  | cons a as ih =>
    intro s s' hP h
    rw [List.foldlM_cons, bind_ok] at h
    obtain ⟨t, ht, h⟩ := h
    exact ih t s' (hstep a as s t hP ht) h

/-- A loop that runs to the end, in step with another one. -/
theorem foldlM_sim {f : σ → α → Except ε σ} {g : τ → β → Except ε τ} {R : σ → τ → Prop}
    {S : α → β → Prop}
    (hstep : ∀ a b s t s', S a b → R s t → f s a = .ok s' → ∃ t', g t b = .ok t' ∧ R s' t') :
    ∀ l k s t s', List.Forall₂ S l k → R s t → l.foldlM f s = .ok s' →
      ∃ t', k.foldlM g t = .ok t' ∧ R s' t' := by
  intro l k s t s' hlk
  induction hlk generalizing s t with
  | nil =>
    intro hR h
    rw [List.foldlM_nil, pure_ok] at h
    subst h; exact ⟨t, rfl, hR⟩
  | cons hab _ ih =>
    intro hR h
    rw [List.foldlM_cons, bind_ok] at h
    obtain ⟨u, hu, h⟩ := h
    obtain ⟨t', ht, hR'⟩ := hstep _ _ s t u hab hR hu
    obtain ⟨t'', ht', hR''⟩ := ih u t' hR' h
    exact ⟨t'', by rw [List.foldlM_cons, ht]; exact ht', hR''⟩

/-- A loop returns when every round does, from a state where the invariant holds. -/
theorem foldlM_total {f : σ → α → Except ε σ} {P : List α → σ → Prop}
    (hstep : ∀ a as s, P (a :: as) s → ∃ s', f s a = .ok s' ∧ P as s') :
    ∀ l s, P l s → ∃ s', l.foldlM f s = .ok s' ∧ P [] s' := by
  intro l
  induction l with
  | nil => intro s hP; exact ⟨s, rfl, hP⟩
  | cons a as ih =>
    intro s hP
    obtain ⟨t, ht, hP'⟩ := hstep a as s hP
    obtain ⟨s', hs, hQ⟩ := ih t hP'
    exact ⟨s', by rw [List.foldlM_cons, ht]; exact hs, hQ⟩

/-! ## Errors that do not happen -/

/-- The computation does not stop with `e`. -/
def Avoids (e : ε) (x : Except ε α) : Prop := x ≠ .error e

variable {e e' : ε} {x : Except ε α} {f : α → Except ε β}

theorem avoids_ok (a : α) : Avoids e (.ok a : Except ε α) := by simp [Avoids]

theorem avoids_pure (a : α) : Avoids e (pure a : Except ε α) := avoids_ok a

theorem avoids_error (h : e' ≠ e) : Avoids e (.error e' : Except ε α) := by simpa [Avoids] using h

theorem Avoids.bind (hx : Avoids e x)
    (hf : ∀ a, x = .ok a → Avoids e (f a)) : Avoids e (x >>= f) := by
  intro h
  rcases bind_error.1 h with h | ⟨a, ha, h⟩
  · exact hx h
  · exact hf a ha h

/-- A loop with early exit avoids an error when each round does. -/
theorem forBreak_avoids {body : α → σ → Except ε (ForInStep σ)} (h : ∀ a s, Avoids e (body a s)) :
    ∀ l s, Avoids e (forBreak body l s) := by
  intro l
  induction l with
  | nil => intro s; exact avoids_ok s
  | cons a as ih =>
    intro s
    have ha := h a s
    cases hb : body a s with
    | error e' =>
      rw [hb] at ha
      simp only [forBreak, hb]
      exact avoids_error fun he => ha (congrArg _ he)
    | ok r =>
      cases r with
      | done t => simpa only [forBreak, hb] using avoids_ok t
      | yield t => simpa only [forBreak, hb] using ih t

/-- A loop avoids an error when each round does, from a state where the invariant holds. -/
theorem foldlM_avoids {f : σ → α → Except ε σ} {P : List α → σ → Prop}
    (h : ∀ a as s, P (a :: as) s → Avoids e (f s a))
    (hstep : ∀ a as s s', P (a :: as) s → f s a = .ok s' → P as s') :
    ∀ l s, P l s → Avoids e (l.foldlM f s) := by
  intro l
  induction l with
  | nil => intro s _; exact avoids_pure s
  | cons a as ih =>
    intro s hP
    rw [List.foldlM_cons]
    exact (h a as s hP).bind fun s' hs => ih s' (hstep a as s s' hP hs)

end Outcome
