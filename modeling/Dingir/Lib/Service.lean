import Mathlib.Tactic
import Dingir.Lib.Guarded

/-!
# A service that runs its writes in turn

Requests come in from anywhere. A request that the state of its moment admits becomes a task, waits
for room in a bounded queue, and is run by one executor when its turn comes, on the state of *that*
moment. Some actions are taken beside the queue, by whoever may take them, and readers look at the
state; none of them sees an action half way. The executor can be told to close: it then takes no new
task, and leaves when the queue is empty. An action that panics ends it.

`State.log` is what has been performed, with the replies. `Performs` is the plain sequential
machine, and **`Runs.sound`** says that a service does nothing else, whatever the interleaving: its
log is a sequential run, the tasks of the log are the accepted ones in the order of their
acceptance, and whatever is read or admitted is so on a state of that run. `Sound.rule` is the
induction over the places of the log. `Runs.later` is the order of time.
-/

namespace Service

variable {σ ρ τ ε α β κ : Type*}

/-- What a service does: the task a request becomes in a state that admits it, the action of a task
when its turn comes, what an action does (`none` where it panics), and which actions may be taken
beside the queue. -/
structure Rules (σ ρ τ ε α β : Type*) where
  capacity : ℕ
  enter : σ → ρ → Option τ
  act : τ → ε → α
  exec : σ → α → Option (β × σ)
  beside : α → Bool

inductive Phase
  | serving
  /-- closed, with tasks left to run -/
  | draining
  | exited
  /-- an action has panicked -/
  | dead
  deriving DecidableEq

/-- An action that was performed, with its reply, and its task unless it was taken beside the
queue. -/
structure Entry (τ α β : Type*) where
  task : Option τ
  action : α
  reply : β

structure State (σ τ α β κ : Type*) where
  state : σ
  phase : Phase
  /-- the tasks that wait for room -/
  waiting : List τ
  queue : List τ
  log : List (Entry τ α β)
  accepted : List τ
  /-- who has read what, and after how many actions -/
  seen : List (κ × ℕ × σ)

inductive Action (ρ ε α κ : Type*)
  | enter (r : ρ)
  /-- a waiting task finds room -/
  | send (i : ℕ)
  /-- a waiting task is given up: the queue is closed, or its caller is gone -/
  | abandon (i : ℕ)
  /-- the executor runs the next task -/
  | run (e : ε)
  | die (e : ε)
  | beside (a : α)
  | look (who : κ)
  | close
  | exit

/-- **The sequential machine**: the actions of the entries, one after the other, give their
replies. -/
def Performs (R : Rules σ ρ τ ε α β) (s : σ) : List (Entry τ α β) → σ → Prop
  | [], s' => s = s'
  | e :: es, s' => ∃ s₁, R.exec s e.action = some (e.reply, s₁) ∧ Performs R s₁ es s'

namespace State

def start (s : σ) : State σ τ α β κ :=
  { state := s, phase := .serving, waiting := [], queue := [], log := [], accepted := [],
    seen := [] }

/-- The tasks that were run, in turn. -/
def ran (s : State σ τ α β κ) : List τ := s.log.filterMap Entry.task

/-- After an action. -/
def performed (s : State σ τ α β κ) (task : Option τ) (a : α) (r : β × σ) : State σ τ α β κ :=
  { s with state := r.2, log := s.log ++ [⟨task, a, r.1⟩] }

/-- One step, or `none` where it cannot be taken. A dead service only drops what waits: what the
panic has left of the state is not described. -/
def step (R : Rules σ ρ τ ε α β) (s : State σ τ α β κ) : Action ρ ε α κ → Option (State σ τ α β κ)
  | .enter r =>
    if s.phase ≠ .dead then (R.enter s.state r).map fun t => { s with waiting := s.waiting ++ [t] }
    else none
  | .send i =>
    match s.waiting[i]? with
    | none => none
    | some t =>
      if s.phase = .serving ∧ s.queue.length < R.capacity then
        some { s with
          waiting := s.waiting.eraseIdx i
          queue := s.queue ++ [t]
          accepted := s.accepted ++ [t] }
      else none
  | .abandon i =>
    if i < s.waiting.length then some { s with waiting := s.waiting.eraseIdx i } else none
  | .run e =>
    match s.queue with
    | [] => none
    | t :: rest =>
      if s.phase = .serving ∨ s.phase = .draining then
        (R.exec s.state (R.act t e)).map fun r =>
          { s.performed (some t) (R.act t e) r with queue := rest }
      else none
  | .die e =>
    match s.queue with
    | [] => none
    | t :: _ =>
      if (s.phase = .serving ∨ s.phase = .draining) ∧
        (R.exec s.state (R.act t e)).isNone then some { s with phase := .dead }
      else none
  | .beside a =>
    if s.phase ≠ .dead ∧ R.beside a then (R.exec s.state a).map (s.performed none a) else none
  | .look who =>
    if s.phase ≠ .dead then some { s with seen := s.seen ++ [(who, s.log.length, s.state)] }
    else none
  | .close => if s.phase = .serving then some { s with phase := .draining } else none
  | .exit => if s.phase = .draining ∧ s.queue = [] then some { s with phase := .exited } else none

end State

variable {R : Rules σ ρ τ ε α β} {s₀ v v' : σ} {s s' s'' : State σ τ α β κ} {a : Action ρ ε α κ}
  {es es' : List (Entry τ α β)} {e : Entry τ α β} {t : τ} {n m : ℕ}

/-! ## The sequential machine -/

@[simp] theorem performs_nil : Performs R v [] v' ↔ v = v' := Iff.rfl

@[simp] theorem performs_cons :
    Performs R v (e :: es) v' ↔ ∃ v₁, R.exec v e.action = some (e.reply, v₁) ∧
      Performs R v₁ es v' := Iff.rfl

theorem performs_append :
    Performs R v (es ++ es') v' ↔ ∃ v₁, Performs R v es v₁ ∧ Performs R v₁ es' v' := by
  induction es generalizing v with
  | nil => simp
  | cons e es ih =>
    constructor
    · rintro ⟨v₁, hv₁, h⟩
      obtain ⟨v₂, hv₂, h⟩ := ih.1 h
      exact ⟨v₂, ⟨v₁, hv₁, hv₂⟩, h⟩
    · rintro ⟨v₂, ⟨v₁, hv₁, hv₂⟩, h⟩
      exact ⟨v₁, hv₁, ih.2 ⟨v₂, hv₂, h⟩⟩

theorem Performs.concat (h : Performs R v es v') {v'' : σ}
    (he : R.exec v' e.action = some (e.reply, v'')) :
    Performs R v (es ++ [e]) v'' := performs_append.2 ⟨v', h, v'', he, rfl⟩

/-- The sequential machine is deterministic. -/
theorem Performs.unique (h : Performs R v es v') {v'' : σ}
    (h' : Performs R v es v'') : v' = v'' := by
  induction es generalizing v with
  | nil => exact (performs_nil.1 h).symm.trans (performs_nil.1 h')
  | cons e es ih =>
    obtain ⟨v₁, hexec, h⟩ := h
    obtain ⟨v₂, hexec', h'⟩ := h'
    obtain rfl : v₁ = v₂ := (Prod.mk.inj (Option.some.inj (hexec.symm.trans hexec'))).2
    exact ih h h'

/-! ## What every run keeps -/

/-- After the first `n` actions of the log the sequential machine is at `v`. -/
def Stands (R : Rules σ ρ τ ε α β) (s₀ : σ) (log : List (Entry τ α β)) (n : ℕ) (v : σ) : Prop :=
  n ≤ log.length ∧ Performs R s₀ (log.take n) v

/-- The task is that of a request admitted on a state after at most `n` actions. -/
def AdmittedBy (R : Rules σ ρ τ ε α β) (s₀ : σ) (log : List (Entry τ α β)) (n : ℕ) (t : τ) : Prop :=
  ∃ k ≤ n, ∃ v, Stands R s₀ log k v ∧ ∃ r, R.enter v r = some t

/-- Why the entry is in the log at place `n`: it was taken beside the queue, or it is the action of
a task that had been admitted by then. -/
def Entry.Due (R : Rules σ ρ τ ε α β) (s₀ : σ) (log : List (Entry τ α β)) (n : ℕ)
    (e : Entry τ α β) : Prop :=
  match e.task with
  | none => R.beside e.action = true
  | some t => AdmittedBy R s₀ log n t ∧ ∃ c, e.action = R.act t c

/-- **A service does what the sequential machine does.** -/
structure Sound (R : Rules σ ρ τ ε α β) (s₀ : σ) (s : State σ τ α β κ) : Prop where
  serial : Performs R s₀ s.log s.state
  inTurn : s.ran ++ s.queue = s.accepted
  fits : s.queue.length ≤ R.capacity
  drained : s.phase = .exited → s.queue = []
  dies : s.phase = .dead → ∃ t rest e, s.queue = t :: rest ∧ R.exec s.state (R.act t e) = none
  seen : ∀ r ∈ s.seen, Stands R s₀ s.log r.2.1 r.2.2
  admitted : ∀ t ∈ s.waiting ++ s.queue, AdmittedBy R s₀ s.log s.log.length t
  due : ∀ n (e : Entry τ α β), s.log[n]? = some e → e.Due R s₀ s.log n

theorem Sound.start : Sound R s₀ (State.start s₀ : State σ τ α β κ) :=
  ⟨rfl, rfl, Nat.zero_le _, fun _ => rfl,
    fun h => (by cases h), by simp [State.start], by simp [State.start], by simp [State.start]⟩

theorem Stands.append (h : Stands R s₀ es n v) : Stands R s₀ (es ++ es') n v := by
  refine ⟨h.1.trans (by simp), ?_⟩
  rw [List.take_append_of_le_length h.1]
  exact h.2

theorem AdmittedBy.append (h : AdmittedBy R s₀ es n t) (hn : n ≤ m) :
    AdmittedBy R s₀ (es ++ es') m t := by
  obtain ⟨k, hk, v, hv, henter⟩ := h
  exact ⟨k, hk.trans hn, v, hv.append, henter⟩

theorem Entry.Due.append (h : e.Due R s₀ es n) : e.Due R s₀ (es ++ es') n := by
  unfold Due at h ⊢
  split at h
  · exact h
  · exact ⟨h.1.append le_rfl, h.2⟩

theorem Sound.stands (h : Sound R s₀ s) : Stands R s₀ s.log s.log.length s.state :=
  ⟨le_rfl, by rw [List.take_length]; exact h.serial⟩

theorem stands_zero : Stands R s₀ es 0 v ↔ s₀ = v := by
  rw [Stands, List.take_zero, performs_nil]
  exact and_iff_right (Nat.zero_le _)

theorem Stands.unique (h : Stands R s₀ es n v) (h' : Stands R s₀ es n v') : v = v' :=
  h.2.unique h'.2

/-- From one place of the log to a later one. -/
theorem Stands.between (h : Stands R s₀ es n v) (h' : Stands R s₀ es (n + m) v') :
    Performs R v ((es.drop n).take m) v' := by
  have hlater := h'.2
  rw [List.take_add, performs_append] at hlater
  obtain ⟨w, hw, hrest⟩ := hlater
  obtain rfl := hw.unique h.2
  exact hrest

/-- There is a state at each place of the log. -/
theorem Sound.stands_at (h : Sound R s₀ s) (hn : n ≤ s.log.length) :
    ∃ v, Stands R s₀ s.log n v := by
  have hserial := h.serial
  rw [← List.take_append_drop n s.log, performs_append] at hserial
  obtain ⟨v, hv, -⟩ := hserial
  exact ⟨v, hn, hv⟩

/-- An entry leads from the state at its place to the next one. -/
theorem Sound.entry (h : Sound R s₀ s) (he : s.log[n]? = some e) :
    ∃ v v', Stands R s₀ s.log n v ∧ Stands R s₀ s.log (n + 1) v' ∧
      R.exec v e.action = some (e.reply, v') := by
  obtain ⟨hn, rfl⟩ := List.getElem?_eq_some_iff.1 he
  obtain ⟨v, hv⟩ := h.stands_at hn.le
  obtain ⟨v', hv'⟩ := h.stands_at (n := n + 1) hn
  have hone := hv.between hv'
  rw [List.drop_eq_getElem_cons hn, List.take_succ_cons, List.take_zero] at hone
  obtain ⟨v₁, hexec, hsame⟩ := hone
  obtain rfl := performs_nil.1 hsame
  exact ⟨v, v₁, hv, hv', hexec⟩

/-- **The rule for the states of the log**: what holds at the start, and after an entry when it held
at all places before, holds at every place. -/
theorem Sound.rule {P : ℕ → σ → Prop} (h : Sound R s₀ s) (hstart : P 0 s₀)
    (hstep : ∀ n e v v', s.log[n]? = some e → Stands R s₀ s.log n v → Stands R s₀ s.log (n + 1) v' →
      R.exec v e.action = some (e.reply, v') → (∀ k ≤ n, ∀ w, Stands R s₀ s.log k w → P k w) →
      P (n + 1) v')
    (n : ℕ) (v : σ) (hv : Stands R s₀ s.log n v) : P n v := by
  induction n using Nat.strong_induction_on generalizing v with
  | _ n ih =>
    cases n with
    | zero => exact stands_zero.1 hv ▸ hstart
    | succ n =>
      obtain ⟨w, v', hw, hv', hexec⟩ := h.entry (List.getElem?_eq_getElem hv.1)
      obtain rfl := hv'.unique hv
      exact hstep n _ w v' (List.getElem?_eq_getElem hv.1) hw hv' hexec fun k hk =>
        ih k (Nat.lt_succ_of_le hk)

/-- An action that is performed keeps what does not speak of the queue. -/
theorem Sound.performed (h : Sound R s₀ s) (task : Option τ) {c : α} {r : β × σ}
    (hexec : R.exec s.state c = some r) (hdue : (Entry.mk task c r.1).Due R s₀ s.log s.log.length) :
    Performs R s₀ (s.performed task c r).log r.2 ∧
      (∀ x ∈ s.seen, Stands R s₀ (s.performed task c r).log x.2.1 x.2.2) ∧
      (∀ t ∈ s.waiting ++ s.queue,
        AdmittedBy R s₀ (s.performed task c r).log (s.performed task c r).log.length t) ∧
      ∀ n (e : Entry τ α β), (s.performed task c r).log[n]? = some e →
        e.Due R s₀ (s.performed task c r).log n := by
  refine ⟨h.serial.concat hexec, fun x hx => (h.seen x hx).append,
    fun t ht => (h.admitted t ht).append (by simp [State.performed]),
    fun n e he => ?_⟩
  have hlog : (s.performed task c r).log = s.log ++ [⟨task, c, r.1⟩] := rfl
  rw [hlog] at he ⊢
  -- an old entry keeps its reason, and the new one has its own
  rcases Nat.lt_or_ge n s.log.length with hn | hn
  · rw [List.getElem?_append_left hn] at he
    exact (h.due n e he).append
  · rw [List.getElem?_append_right hn, List.getElem?_singleton] at he
    split at he
    · rename_i hlast
      obtain rfl : n = s.log.length := by omega
      obtain rfl := Option.some.inj he
      exact hdue.append
    · cases he

/-- A task that waits was admitted by now. -/
theorem Sound.waits (h : Sound R s₀ s) {i : ℕ} (ht : s.waiting[i]? = some t) :
    AdmittedBy R s₀ s.log s.log.length t :=
  h.admitted t (List.mem_append_left _ (List.mem_of_getElem? ht))

/-- **Every step of a service keeps it sound.** -/
theorem Sound.step (h : Sound R s₀ s) (hstep : s.step R a = some s') : Sound R s₀ s' := by
  cases a with
  | enter r =>
    simp only [State.step, Option.ite_none_right_eq_some, Option.map_eq_some_iff] at hstep
    obtain ⟨-, t, henter, rfl⟩ := hstep
    refine ⟨h.serial, h.inTurn, h.fits, h.drained, h.dies, h.seen, fun t' ht' => ?_, h.due⟩
    simp only [List.append_assoc, List.mem_append, List.mem_singleton] at ht'
    -- the new one waits behind the others, admitted on the state of now
    rcases ht' with ht' | rfl | ht'
    · exact h.admitted t' (List.mem_append_left _ ht')
    · exact ⟨_, le_rfl, _, h.stands, r, henter⟩
    · exact h.admitted t' (List.mem_append_right _ ht')
  | send i =>
    simp only [State.step] at hstep
    split at hstep
    · cases hstep
    · rename_i t ht
      simp only [Option.ite_none_right_eq_some, Option.some.injEq] at hstep
      obtain ⟨⟨hserving, hroom⟩, rfl⟩ := hstep
      -- accepted is what enters the queue, at the end of both
      refine ⟨h.serial, ?_, ?_, fun hp => ?_, fun hp => ?_, h.seen, fun t' ht' => ?_, h.due⟩
      · show s.ran ++ (s.queue ++ [t]) = s.accepted ++ [t]
        rw [← List.append_assoc, h.inTurn]
      · show (s.queue ++ [t]).length ≤ R.capacity
        rw [List.length_append, List.length_singleton]
        exact hroom
      · exact absurd (hserving.symm.trans hp) (by decide)
      · exact absurd (hserving.symm.trans hp) (by decide)
      · simp only [List.mem_append, List.mem_singleton] at ht'
        rcases ht' with ht' | ht' | rfl
        · exact h.admitted t' (List.mem_append_left _ (List.mem_of_mem_eraseIdx ht'))
        · exact h.admitted t' (List.mem_append_right _ ht')
        · exact h.waits ht
  | abandon i =>
    simp only [State.step, Option.ite_none_right_eq_some, Option.some.injEq] at hstep
    obtain ⟨-, rfl⟩ := hstep
    refine ⟨h.serial, h.inTurn, h.fits, h.drained, h.dies, h.seen, fun t' ht' => ?_, h.due⟩
    rcases List.mem_append.1 ht' with ht' | ht'
    · exact h.admitted t' (List.mem_append_left _ (List.mem_of_mem_eraseIdx ht'))
    · exact h.admitted t' (List.mem_append_right _ ht')
  | run e =>
    simp only [State.step] at hstep
    split at hstep
    · cases hstep
    · rename_i t rest hq
      simp only [Option.ite_none_right_eq_some, Option.map_eq_some_iff] at hstep
      obtain ⟨hphase, r, hexec, rfl⟩ := hstep
      have ht : AdmittedBy R s₀ s.log s.log.length t := h.admitted t (by simp [hq])
      obtain ⟨hserial, hseen, hadmitted, hdue⟩ := h.performed (some t) hexec ⟨ht, e, rfl⟩
      -- the head of the queue goes to the end of those that ran
      have hturn : s.ran ++ t :: rest = s.accepted := hq ▸ h.inTurn
      refine ⟨hserial, ?_, ?_, fun hp => ?_, fun hp => ?_, hseen, fun t' ht' => hadmitted t' ?_,
        hdue⟩
      · show (s.log ++ [Entry.mk (some t) (R.act t e) r.1]).filterMap Entry.task ++ rest =
          s.accepted
        rw [← hturn]
        simp [State.ran]
      · have := h.fits
        rw [hq, List.length_cons] at this
        exact Nat.le_of_succ_le this
      · rcases hphase with hs | hs <;> exact absurd (hs.symm.trans hp) (by decide)
      · rcases hphase with hs | hs <;> exact absurd (hs.symm.trans hp) (by decide)
      · rw [hq]
        rcases List.mem_append.1 ht' with ht' | ht'
        · exact List.mem_append_left _ ht'
        · exact List.mem_append_right _ (List.mem_cons_of_mem _ ht')
  | die e =>
    simp only [State.step] at hstep
    split at hstep
    · cases hstep
    · rename_i t rest hq
      simp only [Option.ite_none_right_eq_some, Option.some.injEq,
        Option.isNone_iff_eq_none] at hstep
      obtain ⟨⟨-, hexec⟩, rfl⟩ := hstep
      -- the task that panicked stays at the head
      exact ⟨h.serial, h.inTurn, h.fits, fun hp => (by cases hp), fun _ => ⟨t, rest, e, hq, hexec⟩,
        h.seen, h.admitted, h.due⟩
  | beside c =>
    simp only [State.step, Option.ite_none_right_eq_some, Option.map_eq_some_iff] at hstep
    obtain ⟨⟨halive, hbeside⟩, r, hexec, rfl⟩ := hstep
    obtain ⟨hserial, hseen, hadmitted, hdue⟩ := h.performed none hexec hbeside
    -- no task was run, so the turn is as it was
    refine ⟨hserial, ?_, h.fits, h.drained, fun hp => absurd hp halive, hseen, hadmitted, hdue⟩
    rw [show (s.performed none c r).accepted = s.accepted from rfl, ← h.inTurn]
    simp [State.ran, State.performed]
  | look who =>
    simp only [State.step, Option.ite_none_right_eq_some, Option.some.injEq] at hstep
    obtain ⟨-, rfl⟩ := hstep
    refine ⟨h.serial, h.inTurn, h.fits, h.drained, h.dies, fun x hx => ?_, h.admitted, h.due⟩
    rcases List.mem_append.1 hx with hx | hx
    · exact h.seen x hx
    · rw [List.mem_singleton.1 hx]
      exact h.stands
  | close =>
    simp only [State.step, Option.ite_none_right_eq_some, Option.some.injEq] at hstep
    obtain ⟨-, rfl⟩ := hstep
    exact ⟨h.serial, h.inTurn, h.fits, fun hp => (by cases hp), fun hp => (by cases hp), h.seen,
      h.admitted, h.due⟩
  | exit =>
    simp only [State.step, Option.ite_none_right_eq_some, Option.some.injEq] at hstep
    obtain ⟨⟨-, hempty⟩, rfl⟩ := hstep
    exact ⟨h.serial, h.inTurn, h.fits, fun _ => hempty, fun hp => (by cases hp), h.seen, h.admitted,
      h.due⟩

/-- The states of a service that was started at `s₀`. -/
def Runs (R : Rules σ ρ τ ε α β) (s s' : State σ τ α β κ) : Prop :=
  Guarded.Runs (State.step R) (fun _ (_ : Action ρ ε α κ) => True) s s'

/-- **A service does nothing but what the sequential machine does**, whatever the interleaving. -/
theorem Runs.sound (h : Runs R (State.start s₀) s) : Sound R s₀ s :=
  Guarded.Runs.rule (fun _ _ _ hs _ hstep => hs.step hstep) .start h

/-! ## The order of time -/

/-- What a run adds: entries, accepted tasks and reads, and every read is later than all entries
before it. -/
structure Later (s s' : State σ τ α β κ) : Prop where
  log : s.log <+: s'.log
  accepted : s.accepted <+: s'.accepted
  seen : ∃ more, s'.seen = s.seen ++ more ∧ ∀ r ∈ more, s.log.length ≤ r.2.1

theorem Later.refl (s : State σ τ α β κ) : Later s s :=
  ⟨List.prefix_rfl, List.prefix_rfl, [], by simp, by simp⟩

theorem Later.trans (h : Later s s') (h' : Later s' s'') : Later s s'' := by
  obtain ⟨more, hseen, hmore⟩ := h.seen
  obtain ⟨more', hseen', hmore'⟩ := h'.seen
  refine ⟨h.log.trans h'.log, h.accepted.trans h'.accepted,
    more ++ more', by rw [hseen', hseen, List.append_assoc], fun r hr => ?_⟩
  rcases List.mem_append.1 hr with hr | hr
  · exact hmore r hr
  · exact h.log.length_le.trans (hmore' r hr)

theorem Later.step (hstep : s.step R a = some s') : Later s s' := by
  -- a step that leaves the three lists as they are
  have hsame : ∀ {s' : State σ τ α β κ}, s'.log = s.log → s'.accepted = s.accepted →
      s'.seen = s.seen → Later s s' := by
    intro s' hlog hacc hseen
    exact ⟨hlog ▸ List.prefix_rfl, hacc ▸ List.prefix_rfl, [], by simp [hseen], by simp⟩
  -- a step that performs an action
  have hperf : ∀ {s' : State σ τ α β κ} {e}, s'.log = s.log ++ [e] → s'.accepted = s.accepted →
      s'.seen = s.seen → Later s s' := by
    intro s' e hlog hacc hseen
    exact ⟨hlog ▸ List.prefix_append _ _, hacc ▸ List.prefix_rfl, [], by simp [hseen], by simp⟩
  cases a with
  | enter r =>
    simp only [State.step, Option.ite_none_right_eq_some, Option.map_eq_some_iff] at hstep
    obtain ⟨-, t, -, rfl⟩ := hstep
    exact hsame rfl rfl rfl
  | send i =>
    simp only [State.step] at hstep
    split at hstep
    · cases hstep
    · simp only [Option.ite_none_right_eq_some, Option.some.injEq] at hstep
      obtain ⟨-, rfl⟩ := hstep
      exact ⟨List.prefix_rfl, List.prefix_append _ _, [], by simp, by simp⟩
  | abandon i =>
    simp only [State.step, Option.ite_none_right_eq_some, Option.some.injEq] at hstep
    obtain ⟨-, rfl⟩ := hstep
    exact hsame rfl rfl rfl
  | run e =>
    simp only [State.step] at hstep
    split at hstep
    · cases hstep
    · simp only [Option.ite_none_right_eq_some, Option.map_eq_some_iff] at hstep
      obtain ⟨-, r, -, rfl⟩ := hstep
      exact hperf rfl rfl rfl
  | die e =>
    simp only [State.step] at hstep
    split at hstep
    · cases hstep
    · simp only [Option.ite_none_right_eq_some, Option.some.injEq] at hstep
      obtain ⟨-, rfl⟩ := hstep
      exact hsame rfl rfl rfl
  | beside c =>
    simp only [State.step, Option.ite_none_right_eq_some, Option.map_eq_some_iff] at hstep
    obtain ⟨-, r, -, rfl⟩ := hstep
    exact hperf rfl rfl rfl
  | look who =>
    simp only [State.step, Option.ite_none_right_eq_some, Option.some.injEq] at hstep
    obtain ⟨-, rfl⟩ := hstep
    exact ⟨List.prefix_rfl, List.prefix_rfl, _, rfl, by simp⟩
  | close =>
    simp only [State.step, Option.ite_none_right_eq_some, Option.some.injEq] at hstep
    obtain ⟨-, rfl⟩ := hstep
    exact hsame rfl rfl rfl
  | exit =>
    simp only [State.step, Option.ite_none_right_eq_some, Option.some.injEq] at hstep
    obtain ⟨-, rfl⟩ := hstep
    exact hsame rfl rfl rfl

/-- **The order of time**: what was performed before stays, and what is accepted or read afterwards
comes after it. -/
theorem Runs.later (h : Runs R s s') : Later s s' :=
  Guarded.Runs.rule (I := fun t => Later s t) (fun _ _ _ ht _ hstep => ht.trans (.step hstep))
    (.refl s) h

end Service
