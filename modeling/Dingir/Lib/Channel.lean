import Mathlib.Tactic

/-!
# Bounded channels

A `Channel` holds at most `capacity` messages in order. `trySend` fails on a full
one; `recv` takes the oldest message, if there is one.

A sender and a receiver run side by side: `Sends` is every way their actions can
fall. **`accepts_iff`**: a list of sends is safe, however the receiver runs, when
and only when it fits beside what is held now; the receiver may take nothing.
-/

universe u

/-- A bounded channel. -/
structure Channel (α : Type u) (capacity : ℕ) where
  queue : List α
  fits : queue.length ≤ capacity

namespace Channel

variable {α : Type u} {capacity : ℕ} {ch ch' ch₀ : Channel α capacity} {a : α} {l : List α}

def empty (α : Type u) (capacity : ℕ) : Channel α capacity := ⟨[], Nat.zero_le _⟩

/-- Sending without waiting: fails on a full channel. -/
def trySend (ch : Channel α capacity) (a : α) : Option (Channel α capacity) :=
  if h : ch.queue.length < capacity then some ⟨ch.queue ++ [a], by simpa using h⟩ else none

/-- The receiver takes the oldest message. -/
def recv (ch : Channel α capacity) : Channel α capacity :=
  ⟨ch.queue.tail, by rw [List.length_tail]; exact (Nat.sub_le _ _).trans ch.fits⟩

theorem trySend_some :
    ch.trySend a = some ch' ↔ ch.queue.length < capacity ∧ ch'.queue = ch.queue ++ [a] := by
  unfold trySend
  by_cases h : ch.queue.length < capacity
  · rw [dif_pos h, Option.some.injEq]
    constructor
    · rintro rfl
      exact ⟨h, rfl⟩
    · rintro ⟨-, hq⟩
      cases ch'
      simpa using hq.symm
  · simp [h]

theorem isSome_trySend : (ch.trySend a).isSome ↔ ch.queue.length < capacity := by
  unfold trySend
  split <;> simp_all

/-- The channels that the sends of a list, in order, and a receiver running beside
them lead to. -/
inductive Sends (ch₀ : Channel α capacity) : List α → Channel α capacity → Prop
  | start : Sends ch₀ [] ch₀
  | send {l : List α} {a : α} {ch ch' : Channel α capacity} : Sends ch₀ l ch →
      ch.trySend a = some ch' →
      Sends ch₀ (l ++ [a]) ch'
  | recv {l : List α} {ch : Channel α capacity} : Sends ch₀ l ch → Sends ch₀ l ch.recv

/-- No send of the list fails, wherever the receiver runs. -/
def Accepts (ch₀ : Channel α capacity) (l : List α) : Prop :=
  ∀ sent a rest ch, l = sent ++ a :: rest → Sends ch₀ sent ch → (ch.trySend a).isSome

/-- A channel holds no more than it held and was sent. -/
theorem Sends.length_le (h : Sends ch₀ l ch) : ch.queue.length ≤ ch₀.queue.length + l.length := by
  induction h with
  | start => simp
  | send _ ha ih =>
    obtain ⟨-, hq⟩ := trySend_some.1 ha
    rw [hq, List.length_append, List.length_append]
    simp only [List.length_singleton]
    omega
  | recv _ ih =>
    refine le_trans ?_ ih
    show (List.tail _).length ≤ _
    rw [List.length_tail]
    omega

/-- A receiver that does not run leaves all that is sent. -/
theorem sends_of_le (h : ch₀.queue.length + l.length ≤ capacity) :
    ∃ ch, Sends ch₀ l ch ∧ ch.queue = ch₀.queue ++ l := by
  induction l using List.reverseRecOn with
  | nil => exact ⟨ch₀, .start, by simp⟩
  | append_singleton l a ih =>
    rw [List.length_append, List.length_singleton] at h
    obtain ⟨ch, hch, hq⟩ := ih (by omega)
    have hlen : ch.queue.length < capacity := by rw [hq, List.length_append]; omega
    obtain ⟨ch', hch'⟩ := Option.isSome_iff_exists.1 (isSome_trySend (a := a).2 hlen)
    refine ⟨ch', hch.send hch', ?_⟩
    rw [(trySend_some.1 hch').2, hq, List.append_assoc]

/-- **A list of sends is safe exactly when it fits beside what the channel holds.** -/
theorem accepts_iff : ch₀.Accepts l ↔ ch₀.queue.length + l.length ≤ capacity := by
  constructor
  · intro h
    by_contra hlt
    have hfits := ch₀.fits
    -- the sends up to the first one without room
    have hroom : capacity - ch₀.queue.length < l.length := by omega
    have hfit : ch₀.queue.length + (l.take (capacity - ch₀.queue.length)).length ≤ capacity := by
      rw [List.length_take]
      omega
    obtain ⟨ch, hch, hq⟩ := sends_of_le hfit
    have hsplit : l = l.take (capacity - ch₀.queue.length) ++ l[capacity - ch₀.queue.length] ::
        l.drop (capacity - ch₀.queue.length + 1) := by
      rw [← List.drop_eq_getElem_cons hroom, List.take_append_drop]
    have hlt := isSome_trySend.1 (h _ _ _ ch hsplit hch)
    rw [hq, List.length_append, List.length_take] at hlt
    omega
  · rintro h sent a rest ch rfl hch
    rw [List.length_append, List.length_cons] at h
    have hle := hch.length_le
    exact isSome_trySend.2 (by omega)

/-- Every channel that holds at most `n` messages is safe exactly when there is room for
the list beside `n` of them. -/
theorem forall_accepts_iff {n : ℕ} (hn : n ≤ capacity) :
    (∀ ch : Channel α capacity, ch.queue.length ≤ n → ch.Accepts l) ↔ n + l.length ≤ capacity := by
  constructor
  · intro h
    cases l with
    | nil => simpa using hn
    | cons a l =>
      have hlen : (List.replicate n a).length ≤ capacity := by simpa using hn
      have := accepts_iff.1 (h ⟨List.replicate n a, hlen⟩ (by simp))
      simpa using this
  · intro h ch hch
    exact accepts_iff.2 (by omega)

end Channel
