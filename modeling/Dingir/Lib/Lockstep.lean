import Dingir.Lib.Outcome

/-!
# Computations in lockstep

Two computations are in lockstep when they stop with the same error, or both return and their values
are related. `Lockstep.bind` composes them, and the rules of the two loops (`forBreak`, `foldlM`)
take the lists the loops go through as related, element by element. Sequencing tells what the first
parts have returned, so that facts about one of the two computations may be used on the way.
-/

namespace Outcome

universe u

variable {ε α α' β β' σ τ : Type u}

/-- The same error, or related values. -/
inductive Lockstep (R : α → β → Prop) : Except ε α → Except ε β → Prop
  | stop (e : ε) : Lockstep R (.error e) (.error e)
  | go {a : α} {b : β} : R a b → Lockstep R (.ok a) (.ok b)

namespace Lockstep

variable {R R' : α → β → Prop} {S : α' → β' → Prop} {x : Except ε α} {y : Except ε β}

theorem same {R : α → α → Prop} (hR : ∀ a, R a a) (x : Except ε α) : Lockstep R x x := by
  cases x with
  | error e => exact .stop e
  | ok a => exact .go (hR a)

theorem mono (h : Lockstep R x y) (hR : ∀ a b, R a b → R' a b) : Lockstep R' x y := by
  cases h with
  | stop e => exact .stop e
  | go hab => exact .go (hR _ _ hab)

theorem symm (h : Lockstep R x y) : Lockstep (fun b a => R a b) y x := by
  cases h with
  | stop e => exact .stop e
  | go hab => exact .go hab

/-- What the first returns is matched by the second. -/
theorem matched (h : Lockstep R x y) {a : α} (hx : x = .ok a) : ∃ b, y = .ok b ∧ R a b := by
  cases h with
  | stop e => cases hx
  | go hab =>
    obtain rfl := Except.ok.inj hx
    exact ⟨_, rfl, hab⟩

theorem pure {a : α} {b : β} (h : R a b) : Lockstep R (Pure.pure a : Except ε α) (Pure.pure b) :=
  .go h

/-- **One after the other.** -/
theorem bind {f : α → Except ε α'} {g : β → Except ε β'} (h : Lockstep R x y)
    (hf : ∀ a b, x = .ok a → y = .ok b → R a b → Lockstep S (f a) (g b)) :
    Lockstep S (x >>= f) (y >>= g) := by
  cases h with
  | stop e => exact .stop e
  | go hab => exact hf _ _ rfl rfl hab

/-- The same first part. -/
theorem bind_same {z : Except ε α} {f : α → Except ε α'} {g : α → Except ε β'} (h : z = x)
    (hf : ∀ a, x = .ok a → Lockstep S (f a) (g a)) : Lockstep S (x >>= f) (z >>= g) := by
  rw [h]
  cases x with
  | error e => exact .stop e
  | ok a => exact hf a rfl

theorem ite {p : Prop} [Decidable p] {x' : Except ε α} {y' : Except ε β} (hpos : p → Lockstep R x y)
    (hneg : ¬p → Lockstep R x' y') : Lockstep R (if p then x else x') (if p then y else y') := by
  split
  · exact hpos ‹_›
  · exact hneg ‹_›

/-- **Loops with early exit**, through related lists. -/
theorem forBreak {P : α → β → Prop} {R : σ → τ → Prop} {body : α → σ → Except ε (ForInStep σ)}
    {body' : β → τ → Except ε (ForInStep τ)}
    (hround : ∀ a b s t, P a b → R s t → Lockstep (StepRel R) (body a s) (body' b t)) {as : List α}
    {bs : List β} (hlist : List.Forall₂ P as bs) :
    ∀ s t, R s t → Lockstep R (Outcome.forBreak body as s) (Outcome.forBreak body' bs t) := by
  induction hlist with
  | nil => exact fun s t h => .go h
  | cons hab _ ih =>
    intro s t hst
    have hstep := hround _ _ s t hab hst
    unfold Outcome.forBreak
    generalize body _ s = x at hstep ⊢
    generalize body' _ t = y at hstep ⊢
    cases hstep with
    | stop e => exact .stop e
    | go hrel =>
      cases hrel with
      | done h => exact .go h
      | yield h => exact ih _ _ h

/-- **Loops to the end** over the same list, with a relation that sees what is still to come. -/
theorem foldlM {R : List α → σ → τ → Prop} {f : σ → α → Except ε σ} {g : τ → α → Except ε τ}
    (hstep : ∀ a as s t, R (a :: as) s t → Lockstep (R as) (f s a) (g t a)) :
    ∀ as s t, R as s t → Lockstep (R []) (as.foldlM f s) (as.foldlM g t) := by
  intro as
  induction as with
  | nil => exact fun s t h => .go h
  | cons a as ih =>
    intro s t h
    rw [List.foldlM_cons, List.foldlM_cons]
    exact (hstep a as s t h).bind fun s' t' _ _ h' => ih s' t' h'

end Lockstep

end Outcome
