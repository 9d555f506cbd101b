import Dingir.Proof.Ids
import Dingir.Proof.Persist
import Dingir.Proof.SimpleStream
import Dingir.Spec.Pipeline

/-!
# The history tells what the engine did

The engine, the producer thread, the broker and the persistor run side by side, and the
persistor dies and is started again at any time. What each side keeps is known: the
producer sends a topic in its order (`InOrder`), and no commit loses a message of the
persistor that asks for it (`Safe`). Two facts join them. What the engine told is what the
producer took, then what the channel holds, then what is still to be pushed (`Flow`). And
everything before an offset that was ever asked to be committed has its rows in the
database (`Covered`), so a persistor that begins there leaves no gap.

**`Pipeline.Runs.delivers`**: the partitions of the topic hold what the engine told, each in its
order; every row of the history is of such a message; and each message before a committed
offset has all its rows, whichever persistor wrote them.
-/

namespace Dingir

open Keyed Guarded Outcome

variable {M T : Type} {E : Env} {settings : Settings} {config : DatabaseWriterConfig}
  {topic : Topic M T} {b c c₀ : Controller} {s s' s₀ : Pipeline M T} {p : ℤ} {w : ℕ}
  {m : TopicMessage M}

/-! ## Where the rows of a persistor come from -/

/-- A row is what a handler of the chain makes of a message. -/
def TopicMessage.Makes (m : TopicMessage M) (chain : List (PersistTo M T)) (w : ℕ)
    (r : MessageRow T) : Prop :=
  ∃ link row, chain[r.handler]? = some link ∧ link.writer = w ∧ link.into m.message = some row ∧
    r = m.rowOf r.handler row

namespace Persistor

/-- The row is of an earlier message of its partition, or of an earlier handler. -/
def Before (r : MessageRow T) (m : TopicMessage M) (i : ℕ) : Prop :=
  r.partition = m.partition → r.offset < m.offset ∨ r.offset = m.offset ∧ r.handler < i

/-- **Every row a writer accepted is of a message that was delivered**, and is there once. -/
structure Sourced (chain : List (PersistTo M T)) (s : Persistor M T) : Prop where
  accepted : ∀ w, ∀ r ∈ (s.writers w).accepted, ∃ m ∈ s.delivered, m.Makes chain w r
  once : ∀ w, (s.writers w).accepted.Nodup
  handling : ∀ m i, s.handling = some (m, i) → m ∈ s.delivered
  before : ∀ m i, s.handling = some (m, i) → ∀ w, ∀ r ∈ (s.writers w).accepted, Before r m i

variable {chain : List (PersistTo M T)} {x x' : Persistor M T} {a : PersistorAction M T}

/-- **What a step can do.** -/
theorem step_inv (h : x.step config chain a = some x') :
    (∃ m, a = .deliver m ∧ (∀ m' ∈ x.delivered, m'.partition = m.partition → m'.offset < m.offset) ∧
      x' = { x with delivered := x.delivered ++ [m], handling := some (m, 0) }) ∨
    (∃ handling, a = .handle ∧ (∀ m i, handling = some (m, i) → ∃ j ≤ i, x.handling = some (m, j)) ∧
      x' = { x with handling }) ∨
    (∃ m i link row W, a = .handle ∧ x.handling = some (m, i) ∧ chain[i]? = some link ∧
      link.into m.message = some row ∧
      Writing.step config (x.writers link.writer) (.append (m.rowOf i row) (some m.notification)) =
        some W ∧
      x' = { x with handling := some (m, i + 1) }.withWriter link.writer W) ∨
    (∃ w e W, a = .write w e ∧ (∀ item notify, e ≠ .append item notify) ∧
      Writing.step config (x.writers w) e = some W ∧
      x' = x.withWriter w W) ∨
    ∃ i version tracker seen new, a = .changed i version ∧
      x' = { x with tracker, seen, commits := x.commits ++ new } := by
  cases a with
  | deliver m =>
    simp only [Persistor.step] at h
    split at h
    · rename_i hguard
      exact .inl ⟨m, rfl, hguard.2, (Option.some.inj h).symm⟩
    · cases h
  | handle =>
    simp only [Persistor.step] at h
    split at h
    · cases h
    rename_i m i hhandling
    split at h
    · exact .inr (.inl ⟨none, rfl, by simp, (Option.some.inj h).symm⟩)
    rename_i link hlink
    split at h
    · refine .inr (.inl ⟨some (m, i + 1), rfl, fun m' j hm' => ?_, (Option.some.inj h).symm⟩)
      obtain ⟨rfl, rfl⟩ := by simpa using hm'
      exact ⟨i, Nat.le_succ i, hhandling⟩
    · rename_i row hrow
      obtain ⟨W, hW, rfl⟩ := Option.map_eq_some_iff.1 h
      exact .inr (.inr (.inl ⟨m, i, link, row, W, rfl, hhandling, hlink, hrow, hW, rfl⟩))
  | write w e =>
    cases e with
    | append => cases h
    | _ =>
      obtain ⟨W, hW, rfl⟩ := Option.map_eq_some_iff.1 h
      exact .inr (.inr (.inr (.inl ⟨w, _, W, rfl, by simp, hW, rfl⟩)))
  | changed i version =>
    simp only [Persistor.step] at h
    split at h
    · cases h
    split at h
    · exact .inr (.inr (.inr (.inr ⟨i, version, _, _, _, rfl, (Option.some.inj h).symm⟩)))
    · cases h

/-- A writer accepts what is appended, and nothing by itself. -/
theorem accepted_step {U : Type} {W W' : Writing U} {e : WriterAction U}
    (h : Writing.step config W e = some W') :
    W'.accepted = W.accepted ∨ ∃ item notify, e = .append item notify ∧
      W'.accepted = W.accepted ++ [item] := by
  cases Writing.step_cases h with
  | accept => exact .inr ⟨_, _, rfl, rfl⟩
  | _ => exact .inl rfl

/-- What one writer accepts, the others do not. -/
theorem accepted_withWriter {W : Writing (MessageRow T)} {w' : ℕ} :
    ((x.withWriter w' W).writers w).accepted = if w = w' then W.accepted
      else (x.writers w).accepted := by
  by_cases hw : w = w'
  · subst hw
    rw [withWriter_self, if_pos rfl]
  · rw [withWriter_other _ _ hw, if_neg hw]

theorem Sourced.start (h : start chain = some x) : x.Sourced chain := by
  obtain ⟨tracker, -, rfl⟩ := Option.map_eq_some_iff.1 h
  refine ⟨fun w r hr => ?_, fun w => List.nodup_nil, fun m i hm => ?_, fun m i hm => ?_⟩
  · cases hr
  · cases hm
  · cases hm

/-- A message is delivered, behind those of its partition. -/
theorem Sourced.deliver (h : x.Sourced chain)
    (hascending : ∀ m' ∈ x.delivered, m'.partition = m.partition → m'.offset < m.offset) :
    ({ x with delivered := x.delivered ++ [m], handling := some (m, 0) } : Persistor M T).Sourced
      chain := by
  refine ⟨fun w r hr => ?_, h.once, fun m' i hm' => ?_, fun m' i hm' w r hr hp => ?_⟩
  · obtain ⟨m', hm', hmakes⟩ := h.accepted w r hr
    exact ⟨m', List.mem_append_left _ hm', hmakes⟩
  · obtain ⟨rfl, -⟩ := by simpa using hm'
    exact List.mem_append_right _ (by simp)
  · obtain ⟨rfl, -⟩ := by simpa using hm'
    obtain ⟨m', hm', link, row, -, -, -, hr⟩ := h.accepted w r hr
    rw [hr] at hp ⊢
    exact .inl (hascending m' hm' hp)

/-- A handler appends the row of its message. -/
theorem Sourced.append (h : x.Sourced chain) {i : ℕ} {link : PersistTo M T} {row : T}
    {W : Writing (MessageRow T)} (hhandling : x.handling = some (m, i))
    (hlink : chain[i]? = some link) (hrow : link.into m.message = some row)
    (hW : Writing.step config (x.writers link.writer)
      (.append (m.rowOf i row) (some m.notification)) = some W) :
    ({ x with handling := some (m, i + 1) }.withWriter link.writer W).Sourced chain := by
  have hm := h.handling m i hhandling
  have hold : ∀ w, ∀ r ∈ (x.writers w).accepted, Before r m (i + 1) := fun w r hr hp =>
    (h.before m i hhandling w r hr hp).imp_right fun hlt => ⟨hlt.1, Nat.lt_succ_of_lt hlt.2⟩
  -- the handlers of a message come in their order, so its `i`-th row is new
  have hnew : ∀ w, m.rowOf i row ∉ (x.writers w).accepted := by
    intro w hmem
    rcases h.before m i hhandling w _ hmem rfl with hlt | hlt
    · exact lt_irrefl _ hlt
    · exact lt_irrefl _ hlt.2
  -- one writer takes the row
  have hwriter : ∀ w,
      (({ x with handling := some (m, i + 1) }.withWriter link.writer W).writers w).accepted =
        (x.writers w).accepted ∨ w = link.writer ∧
      (({ x with handling := some (m, i + 1) }.withWriter link.writer W).writers w).accepted =
        (x.writers w).accepted ++ [m.rowOf i row] := by
    intro w
    rw [accepted_withWriter]
    split
    · subst_vars
      refine (accepted_step hW).imp_right fun ⟨item, notify, happend, hacc⟩ => ?_
      obtain ⟨rfl, -⟩ := by simpa using happend
      exact ⟨rfl, hacc⟩
    · exact .inl rfl
  refine ⟨fun w r hr => ?_, fun w => ?_, fun m' j hm' => ?_, fun m' j hm' w r hr => ?_⟩
  · rcases hwriter w with hacc | ⟨rfl, hacc⟩
    · exact h.accepted w r (hacc ▸ hr)
    · rw [hacc] at hr
      rcases List.mem_append.1 hr with hr | hr
      · exact h.accepted _ r hr
      · obtain rfl := List.mem_singleton.1 hr
        exact ⟨m, hm, link, row, hlink, rfl, hrow, rfl⟩
  · rcases hwriter w with hacc | ⟨rfl, hacc⟩
    · rw [hacc]
      exact h.once w
    · rw [hacc]
      exact List.nodup_append.2 ⟨h.once _, List.nodup_singleton _, fun r hr r' hr' heq =>
        hnew _ (List.mem_singleton.1 hr' ▸ heq ▸ hr)⟩
  · obtain ⟨rfl, -⟩ := by simpa [withWriter] using hm'
    exact hm
  · obtain ⟨rfl, rfl⟩ := by simpa [withWriter] using hm'
    rcases hwriter w with hacc | ⟨rfl, hacc⟩
    · exact hold w r (hacc ▸ hr)
    · rw [hacc] at hr
      rcases List.mem_append.1 hr with hr | hr
      · exact hold _ r hr
      · obtain rfl := List.mem_singleton.1 hr
        exact fun _ => .inr ⟨rfl, Nat.lt_succ_self i⟩

theorem Sourced.step (h : x.Sourced chain)
    (hstep : x.step config chain a = some x') : x'.Sourced chain := by
  rcases step_inv hstep with ⟨m, -, hascending, rfl⟩ | ⟨handling, -, hsame, rfl⟩ |
    ⟨m, i, link, row, W, -, hhandling, hlink, hrow, hW, rfl⟩ | ⟨w', e, W, -, happend, hW, rfl⟩ |
    ⟨i, version, tracker, seen, new, -, rfl⟩
  · exact h.deliver hascending
  · refine ⟨h.accepted, h.once, fun m i hm => ?_, fun m i hm w r hr hp => ?_⟩
    · obtain ⟨j, -, hj⟩ := hsame m i hm
      exact h.handling m j hj
    · obtain ⟨j, hle, hj⟩ := hsame m i hm
      exact (h.before m j hj w r hr hp).imp_right fun hlt => ⟨hlt.1, hlt.2.trans_le hle⟩
  · exact h.append hhandling hlink hrow hW
  · -- a step of a writer by itself accepts nothing
    have hsame : ∀ w, ((x.withWriter w' W).writers w).accepted = (x.writers w).accepted := by
      intro w
      rw [accepted_withWriter]
      split
      · subst_vars
        exact (accepted_step hW).resolve_right fun ⟨item, notify, he, _⟩ => happend item notify he
      · rfl
    refine ⟨fun w r hr => h.accepted w r (hsame w ▸ hr), fun w => ?_, h.handling,
      fun m i hm w r hr => ?_⟩
    · rw [hsame]
      exact h.once w
    · exact h.before m i hm w r (hsame w ▸ hr)
  · exact ⟨h.accepted, h.once, h.handling, h.before⟩

/-- What is inserted was accepted. -/
theorem Sourced.inserted (h : x.Sourced chain) (hok : ∀ w, Writing.OK config (x.writers w))
    {r : MessageRow T} (hr : r ∈ (x.writers w).inserted) :
    ∃ m ∈ x.delivered, m.Makes chain w r := by
  refine h.accepted w r (Multiset.mem_coe.1 ?_)
  rw [(hok w).rows]
  exact Multiset.mem_add.2 (.inl (Multiset.mem_coe.2 hr))

/-- And is there once. -/
theorem Sourced.inserted_nodup (h : x.Sourced chain) (hok : ∀ w, Writing.OK config (x.writers w))
    (w : ℕ) : (x.writers w).inserted.Nodup := by
  have hle : ((x.writers w).inserted : Multiset (MessageRow T)) ≤ (x.writers w).accepted := by
    rw [(hok w).rows]
    exact Multiset.le_add_right _ _
  exact Multiset.coe_nodup.1 (Multiset.nodup_of_le hle (Multiset.coe_nodup.2 (h.once w)))

/-- No step takes an inserted row or a commit back. -/
theorem step_grows (h : x.step config chain a = some x') :
    (∀ w, (x.writers w).inserted ⊆ (x'.writers w).inserted) ∧ x.commits <+: x'.commits := by
  have hwriter : ∀ {y : Persistor M T} {w e W}, Writing.step config (y.writers w) e = some W →
      ∀ w', (y.writers w').inserted ⊆ ((y.withWriter w W).writers w').inserted := by
    intro y w e W hW w'
    by_cases hw : w' = w
    · subst hw
      rw [withWriter_self]
      exact (Writing.step_cases hW).grows.2
    · rw [withWriter_other _ _ hw]
      exact List.Subset.refl _
  rcases step_inv h with ⟨m, -, -, rfl⟩ | ⟨handling, -, -, rfl⟩ |
    ⟨m, i, link, row, W, -, -, -, -, hW, rfl⟩ |
    ⟨w', e, W, -, -, hW, rfl⟩ | ⟨i, version, tracker, seen, new, -, rfl⟩
  · exact ⟨fun _ => List.Subset.refl _, List.prefix_rfl⟩
  · exact ⟨fun _ => List.Subset.refl _, List.prefix_rfl⟩
  · exact ⟨hwriter (y := { x with handling := some (m, i + 1) }) hW, List.prefix_rfl⟩
  · exact ⟨hwriter hW, List.prefix_rfl⟩
  · exact ⟨fun _ => List.Subset.refl _, List.prefix_append _ _⟩

/-- Only a delivery adds to what is delivered. -/
theorem step_delivered (h : x.step config chain a = some x') :
    (∃ m, a = .deliver m ∧ x'.delivered = x.delivered ++ [m]) ∨ (∀ m, a ≠ .deliver m) ∧
      x'.delivered = x.delivered := by
  rcases step_inv h with ⟨m, rfl, -, rfl⟩ | ⟨handling, rfl, -, rfl⟩ |
    ⟨m, i, link, row, W, rfl, -, -, -, hW, rfl⟩ |
    ⟨w', e, W, rfl, -, hW, rfl⟩ | ⟨i, version, tracker, seen, new, rfl, rfl⟩
  · exact .inl ⟨m, rfl, rfl⟩
  all_goals exact .inr ⟨by simp, rfl⟩

end Persistor

/-! ## What a round of the producer leaves -/

namespace RdProducer

variable {V Opaque : Type} {q q' : RdProducer T V Opaque}

/-- Nothing received, and nothing taken back of what was sent. -/
structure Keeps (q q' : RdProducer T V Opaque) : Prop where
  received : q'.received = q.received
  phase : q'.phase = q.phase
  sent : q.sent <+: q'.sent

theorem Keeps.trans {q₁ q₂ q₃ : RdProducer T V Opaque} (h : q₁.Keeps q₂)
    (h' : q₂.Keeps q₃) : q₁.Keeps q₃ :=
  ⟨h'.received.trans h.received, h'.phase.trans h.phase, h.sent.trans h'.sent⟩

variable [MessageScheme T V Opaque]

theorem trySend_keeps {sendRet : Except KafkaError Unit}
    (h : q.trySend sendRet = some q') : q.Keeps q' := by
  unfold RdProducer.trySend at h
  split at h
  · obtain rfl := Option.some.inj h
    exact ⟨rfl, rfl, List.prefix_rfl⟩
  split at h
  · obtain rfl := Option.some.inj h
    exact ⟨rfl, rfl, List.prefix_rfl⟩
  · cases sendRet with
    | ok =>
      obtain ⟨scheme, -, rfl⟩ := Option.map_eq_some_iff.1 h
      exact ⟨rfl, rfl, List.prefix_append _ _⟩
    | error =>
      obtain ⟨scheme, -, rfl⟩ := Option.map_eq_some_iff.1 h
      exact ⟨rfl, rfl, List.prefix_rfl⟩

theorem deliver_keeps {reports : List SimpleDeliverResult}
    (h : reports.foldlM RdProducer.deliver q = some q') : q.Keeps q' := by
  induction reports generalizing q with
  | nil =>
    obtain rfl := Option.some.inj h
    exact ⟨rfl, rfl, List.prefix_rfl⟩
  | cons result reports ih =>
    rw [List.foldlM_cons] at h
    obtain ⟨q₁, h₁, h⟩ := Option.bind_eq_some_iff.1 h
    refine Keeps.trans ?_ (ih h)
    unfold RdProducer.deliver at h₁
    split at h₁
    · obtain rfl := Option.some.inj h₁
      exact ⟨rfl, rfl, List.prefix_rfl⟩
    · obtain ⟨scheme, -, rfl⟩ := Option.map_eq_some_iff.1 h₁
      exact ⟨rfl, rfl, List.prefix_rfl⟩

/-- **A round of the loop** receives at most the message it is offered. -/
theorem round_keeps {r : Round V} (h : q.round r = some q') : (q.recv r.recvRet).Keeps q' := by
  unfold RdProducer.round at h
  simp only at h
  split at h
  · obtain rfl := Option.some.inj h
    exact ⟨rfl, rfl, List.prefix_rfl⟩
  · obtain ⟨q₁, h₁, h⟩ := Option.bind_eq_some_iff.1 h
    have hpoll : q₁.Keeps (q₁.poll r.lastPoll) := ⟨rfl, rfl, List.prefix_rfl⟩
    exact ((trySend_keeps h₁).trans hpoll).trans (deliver_keeps h)

end RdProducer

/-! ## The invariant -/

namespace Pipeline

/-- A message as it goes into a channel. -/
def tagged (message : Message) : String × Message := (message.topic, message)

/-- What the engine told of the topic since it was `c₀`. -/
def told (topic : Topic M T) (c₀ : Controller) (s : Pipeline M T) : List Message :=
  (s.engine.persistor.drop c₀.persistor.length).filter fun message => message.topic = topic.name

/-- **What was told is on its way**: received, in the channel, or to be pushed. -/
def Flow (c₀ : Controller) (s : Pipeline M T) : Prop :=
  ∃ messages, s.engine.persistor = c₀.persistor ++ messages ∧
    messages.map tagged = s.producer.received ++ s.stub.queue ++ s.pushing.map tagged

/-- A message of the topic as it stands in the log. -/
def Logged (topic : Topic M T) (s : Pipeline M T) (m : TopicMessage M) : Prop :=
  ((s.log topic m.partition)[m.offset]?).bind topic.parse = some m.message

/-- **All before an offset is in the history.** -/
structure Covered (topic : Topic M T) (s : Pipeline M T) (p : ℤ) (c : ℕ) : Prop where
  le : c ≤ (s.log topic p).length
  rows : ∀ m, s.Logged topic m → m.partition = p → m.offset < c →
    ∀ i link row, topic.chain[i]? = some link →
    link.into m.message = some row → m.rowOf i row ∈ s.rows link.writer

/-- **The invariant of the pipeline.** -/
structure OK (config : DatabaseWriterConfig) (topic : Topic M T) (b c₀ : Controller)
    (s : Pipeline M T) : Prop where
  engine : ControllerOK b s.engine
  flow : s.Flow c₀
  looping : s.producer.phase = .looping
  order : s.producer.InOrder
  placed : s.placed.length ≤ (s.records topic).length
  safe : ∃ G, s.persistor.Safe config topic.chain G
  sourced : s.persistor.Sourced topic.chain
  logged : ∀ m ∈ s.persistor.delivered, s.Logged topic m
  offsets : ∀ p, (s.persistor.delivered.filter fun m => m.partition = p).map TopicMessage.offset =
    List.range' (s.position p) (s.persistor.delivered.filter fun m => m.partition = p).length
  stored : ∀ w, ∀ r ∈ s.stored w, ∃ m, s.Logged topic m ∧ m.Makes topic.chain w r
  position : ∀ p, s.Covered topic p (s.position p)
  asked : ∀ tplist ∈ s.asked, ∀ p c, tplist.find? p = some c → s.Covered topic p c
  committed : ∀ p, s.Covered topic p (s.committed p)

/-! ## The log -/

/-- Labels given to the first entries stay with them. -/
theorem zip_append_left {X Y : Type} {l l' : List X} {labels : List Y}
    (h : labels.length ≤ l.length) : (l ++ l').zip labels = l.zip labels := by
  induction labels generalizing l with
  | nil => simp
  | cons label labels ih =>
    cases l with
    | nil => simp at h
    | cons x l =>
      rw [List.cons_append, List.zip_cons_cons, List.zip_cons_cons, ih (by simpa using h)]

theorem zip_more {X Y : Type} (l : List X) (labels labels' : List Y) :
    l.zip labels <+: l.zip (labels ++ labels') := by
  induction labels generalizing l with
  | nil => simp
  | cons label labels ih =>
    cases l with
    | nil => simp
    | cons x l =>
      rw [List.cons_append, List.zip_cons_cons, List.zip_cons_cons]
      exact (List.prefix_cons_inj _).2 (ih l)

/-- The broker puts a record behind the others. -/
theorem log_placed (topic : Topic M T) (s : Pipeline M T) (partition : Option ℤ) (p : ℤ) :
    s.log topic p <+: ({ s with placed := s.placed ++ [partition] } : Pipeline M T).log topic p :=
  (zip_more (s.records topic) s.placed [partition]).filterMap _

/-- A record that was sent leaves the log as it is. -/
theorem log_sent (hplaced : s.placed.length ≤ (s.records topic).length)
    (hrecords : s.records topic <+: s'.records topic) (hsame : s'.placed = s.placed) (p : ℤ) :
    s'.log topic p = s.log topic p := by
  obtain ⟨new, hnew⟩ := hrecords
  unfold log
  rw [← hnew, hsame, zip_append_left hplaced]

/-- A partition keeps the order of the records. -/
theorem log_sublist (topic : Topic M T) (s : Pipeline M T) (p : ℤ) :
    (s.log topic p).Sublist (s.records topic) := by
  have hzip : ∀ (records : List Message) (placed : List (Option ℤ)),
      ((records.zip placed).filterMap fun e => if e.2 = some p then some e.1 else none).Sublist
      records := by
    intro records
    -- on the records, of which each partition takes some
    induction records with
    | nil => intro placed; simp
    | cons message records ih =>
      intro placed
      cases placed with
      | nil => simp
      | cons partition placed =>
        rw [List.zip_cons_cons, List.filterMap_cons]
        by_cases hp : partition = some p
        · simp only [hp, if_true]
          exact (ih placed).cons_cons message
        · simp only [hp, if_false]
          exact (ih placed).cons message
  exact hzip _ _

/-- More in the log and more rows. -/
theorem Logged.grows (h : s.Logged topic m)
    (hlog : ∀ p, s.log topic p <+: s'.log topic p) : s'.Logged topic m := by
  obtain ⟨message, hmessage, hparse⟩ := Option.bind_eq_some_iff.1 h
  obtain ⟨new, hnew⟩ := hlog m.partition
  refine Option.bind_eq_some_iff.2 ⟨message, ?_, hparse⟩
  rw [← hnew, List.getElem?_append_left (List.getElem?_eq_some_iff.1 hmessage).1]
  exact hmessage

theorem Covered.grows {n : ℕ} (h : s.Covered topic p n)
    (hlog : ∀ p, s.log topic p <+: s'.log topic p)
    (hrows : ∀ w, s.rows w ⊆ s'.rows w) : s'.Covered topic p n := by
  refine ⟨h.le.trans (hlog p).length_le, fun m hm hp hlt i link row hlink hrow => hrows _ ?_⟩
  refine h.rows m ?_ hp hlt i link row hlink hrow
  -- what stands before the offset stood there before
  obtain ⟨new, hnew⟩ := hlog m.partition
  unfold Logged at hm ⊢
  subst hp
  rwa [← hnew, List.getElem?_append_left (hlt.trans_le h.le)] at hm

/-! ## The steps -/

/-- **The orderly steps**: a send that fails leaves no other message behind the one popped, and the
persistor is orderly. -/
def Orderly (topic : Topic M T) (s : Pipeline M T) : PipelineAction M T → Prop
  | .round sendRet lastPoll reports =>
    s.producer.InTurn (.round ⟨s.received, sendRet, lastPoll, reports⟩)
  | .persist a => s.persistor.Orderly topic.chain a
  | _ => True

namespace OK

/-- **What the persistor asks to commit is covered**: it began at a covered offset and left no
gap. -/
theorem commits (h : s.OK config topic b c₀) {tplist : HashMap ℤ ℕ}
    (htplist : tplist ∈ s.persistor.commits) {n : ℕ}
    (hn : tplist.find? p = some n) : s.Covered topic p n := by
  obtain ⟨G, hG⟩ := h.safe
  obtain ⟨⟨m₀, hm₀, hp₀, hle₀⟩, hinserted⟩ := hG.committed tplist htplist p n hn
  have hlogged₀ := h.logged m₀ hm₀
  have hlast : m₀.offset < (s.log topic p).length := by
    obtain ⟨message, hmessage, -⟩ := Option.bind_eq_some_iff.1 hlogged₀
    exact hp₀ ▸ (List.getElem?_eq_some_iff.1 hmessage).1
  -- this persistor was given the offsets from its position on, without a gap
  have hdelivered : ∀ {k}, (∃ m ∈ s.persistor.delivered, m.partition = p ∧ m.offset = k) ↔
      s.position p ≤ k ∧
      k < s.position p + (s.persistor.delivered.filter fun m => m.partition = p).length := by
    intro k
    have hmem : k ∈
        (s.persistor.delivered.filter fun m => m.partition = p).map TopicMessage.offset ↔
        ∃ m ∈ s.persistor.delivered, m.partition = p ∧ m.offset = k := by
      simp only [List.mem_map, List.mem_filter, decide_eq_true_eq, and_assoc]
    rw [← hmem, h.offsets p, List.mem_range'_1]
  have hrange₀ := hdelivered.1 ⟨m₀, hm₀, hp₀, rfl⟩
  refine ⟨by omega, fun m hm hp hlt i link row hlink hrow => ?_⟩
  by_cases hbefore : m.offset < s.position p
  · exact (h.position p).rows m hm hp hbefore i link row hlink hrow
  · -- delivered by this persistor
    obtain ⟨m', hm', hp', hoffset⟩ := hdelivered.2 ⟨not_lt.1 hbefore, by omega⟩
    have hsame : m' = m := by
      have hlogged := h.logged m' hm'
      unfold Logged at hlogged hm
      rw [hp', hoffset, ← hp, hm] at hlogged
      obtain ⟨partition, offset, message⟩ := m
      obtain ⟨partition', offset', message'⟩ := m'
      simp only [Option.some.injEq] at hlogged hp hp' hoffset
      rw [hp, hp', hoffset, hlogged]
    subst hsame
    exact List.mem_append_right _ (hinserted m' hm' hp' hlt i link row hlink hrow)

/-- A step of the engine, of the producer or of the broker. -/
theorem upstream (h : s.OK config topic b c₀) (engine : Controller) (pushing : List Message)
    (stub : RdProducerStub) (producer : RdProducer (SimpleMessageScheme Message) Message Unit)
    (placed : List (Option ℤ)) (hengine : ControllerOK b engine)
    (hflow : ({ s with engine, pushing, stub, producer, placed } : Pipeline M T).Flow c₀)
    (hlooping : producer.phase = .looping) (horder : producer.InOrder)
    (hplaced : placed.length ≤
      (({ s with engine, pushing, stub, producer, placed } : Pipeline M T).records topic).length)
    (hlog : ∀ p, s.log topic p <+:
      ({ s with engine, pushing, stub, producer, placed } : Pipeline M T).log topic p) :
    ({ s with engine, pushing, stub, producer, placed } : Pipeline M T).OK config topic b c₀ := by
  have hcovered : ∀ {p n}, s.Covered topic p n →
      ({ s with engine, pushing, stub, producer, placed } : Pipeline M T).Covered topic p n :=
      fun hn =>
    hn.grows hlog fun _ => List.Subset.refl _
  refine ⟨hengine, hflow, hlooping, horder, hplaced, h.safe, h.sourced,
    fun m hm => (h.logged m hm).grows hlog, h.offsets,
    fun w r hr => ?_, fun p => hcovered (h.position p),
    fun tplist htplist p n hn => hcovered (h.asked tplist htplist p n hn),
    fun p => hcovered (h.committed p)⟩
  obtain ⟨m, hm, hmakes⟩ := h.stored w r hr
  exact ⟨m, hm.grows hlog, hmakes⟩

theorem call (h : s.OK config topic b c₀) {q : Request} {reply : Except Status Response}
    {engine : Controller} (hpushing : s.pushing = []) (hreal : q.real = true)
    (hcall : s.engine.call E q = .ok (reply, engine)) :
    ({ s with engine, pushing := engine.persistor.drop s.engine.persistor.length } : Pipeline M
      T).OK config topic b c₀ := by
  obtain ⟨hp, -, -⟩ := (retells_issued (E := E) (b := b)).toRelays.call h.engine rfl hreal hcall
  refine h.upstream engine _ s.stub s.producer s.placed (call_ok h.engine hcall) ?_ h.looping
    h.order h.placed fun _ => List.prefix_rfl
  obtain ⟨messages, hold, hway⟩ := h.flow
  refine ⟨messages ++ s.engine.tells E q, ?_, ?_⟩
  · show engine.persistor = _
    rw [hp, hold, List.append_assoc]
  · show _ = s.producer.received ++ s.stub.queue ++
      (engine.persistor.drop s.engine.persistor.length).map tagged
    rw [hp, List.drop_left, List.map_append, hway, hpushing]
    simp

theorem push (h : s.OK config topic b c₀) {message : Message} {pushing : List Message}
    {stub : RdProducerStub} (hpushing : s.pushing = message :: pushing)
    (hstub : s.stub.pushMessageAndTopic message = some stub) :
    ({ s with stub, pushing } : Pipeline M T).OK config topic b c₀ := by
  refine h.upstream s.engine pushing stub s.producer s.placed h.engine ?_ h.looping h.order
    h.placed fun _ => List.prefix_rfl
  obtain ⟨messages, hold, hway⟩ := h.flow
  obtain ⟨-, hqueue⟩ := Channel.trySend_some.1 hstub
  refine ⟨messages, hold, ?_⟩
  show _ = s.producer.received ++ stub.queue ++ pushing.map tagged
  rw [hway, hqueue, hpushing]
  simp [tagged]

theorem round (h : s.OK config topic b c₀) {sendRet : Except KafkaError Unit} {lastPoll : ℤ}
    {reports : List SimpleDeliverResult}
    {producer : RdProducer (SimpleMessageScheme Message) Message Unit}
    (hturn : s.producer.InTurn (.round ⟨s.received, sendRet, lastPoll, reports⟩))
    (hround : s.producer.turn (.round ⟨s.received, sendRet, lastPoll, reports⟩) = some producer) :
    ({ s with
        producer
        stub := if MessageScheme.isFull s.producer.scheme then s.stub else s.stub.recv } :
      Pipeline M T).OK config topic b c₀ := by
  have horder := h.order.turn hturn hround
  simp only [RdProducer.turn, h.looping, if_true] at hround
  have hkeeps := RdProducer.round_keeps hround
  -- what is received leaves the channel, and nothing does when the producer is full
  have hrecv : (s.producer.recv s.received).phase = .looping ∧
      (s.producer.recv s.received).sent = s.producer.sent ∧
      (s.producer.recv s.received).received ++
      (if MessageScheme.isFull s.producer.scheme then s.stub else s.stub.recv).queue =
        s.producer.received ++ s.stub.queue := by
    unfold RdProducer.recv
    split
    · exact ⟨h.looping, rfl, rfl⟩
    · have htail : s.stub.recv.queue = s.stub.queue.tail := rfl
      rw [htail]
      unfold received
      cases s.stub.queue with
      | nil => exact ⟨h.looping, rfl, rfl⟩
      | cons message queue => exact ⟨h.looping, rfl, by simp⟩
  obtain ⟨hphase, hsent, hqueue⟩ := hrecv
  have hrecords : s.records topic <+: ({ s with producer } : Pipeline M T).records topic := by
    have hprefix : s.producer.sent <+: producer.sent := hsent ▸ hkeeps.sent
    exact hprefix.filterMap _
  refine h.upstream s.engine s.pushing _ producer s.placed h.engine ?_ (hkeeps.phase.trans hphase)
    horder (h.placed.trans hrecords.length_le) fun p => ?_
  · obtain ⟨messages, hold, hway⟩ := h.flow
    refine ⟨messages, hold, ?_⟩
    show _ = producer.received ++
      (if MessageScheme.isFull s.producer.scheme then s.stub else s.stub.recv).queue ++ _
    rw [hkeeps.received, hqueue]
    exact hway
  · -- a record that is not placed yet is on no partition
    have hsame : ({ s with producer } : Pipeline M T).log topic p = s.log topic p :=
      log_sent h.placed hrecords rfl p
    exact hsame.symm ▸ List.prefix_rfl

theorem place (h : s.OK config topic b c₀) {partition : Option ℤ}
    (hroom : s.placed.length < (s.records topic).length) :
    ({ s with placed := s.placed ++ [partition] } : Pipeline M T).OK config topic b c₀ := by
  refine h.upstream s.engine s.pushing s.stub s.producer _ h.engine h.flow h.looping
    h.order ?_ fun p => log_placed topic s partition p
  rw [List.length_append, List.length_singleton]
  exact hroom

/-- A delivery, or another step of the persistor. -/
theorem persisted (h : s.OK config topic b c₀) {a : PersistorAction M T} {persistor : Persistor M T}
    (horderly : s.persistor.Orderly topic.chain a)
    (hstep : s.persistor.step config topic.chain a = some persistor)
    (hdeliver : ∀ m, a = .deliver m → s.Logged topic m ∧ m.offset = s.next m.partition) :
    ({ s with persistor } : Pipeline M T).OK config topic b c₀ := by
  obtain ⟨G, hG⟩ := h.safe
  obtain ⟨hinserted, -⟩ := Persistor.step_grows hstep
  have hcovered : ∀ {p n}, s.Covered topic p n →
      ({ s with persistor } : Pipeline M T).Covered topic p n := fun hn =>
    hn.grows (fun _ => List.prefix_rfl) fun w => List.append_subset.2
      ⟨List.subset_append_left _ _, List.Subset.trans (hinserted w) (List.subset_append_right _ _)⟩
  have hdelivered : (∀ m ∈ persistor.delivered, s.Logged topic m) ∧
      ∀ p, (persistor.delivered.filter fun m => m.partition = p).map TopicMessage.offset =
        List.range' (s.position p)
          (persistor.delivered.filter fun m => m.partition = p).length := by
    rcases Persistor.step_delivered hstep with ⟨m, rfl, hnew⟩ | ⟨-, hsame⟩
    · obtain ⟨hlogged, hnext⟩ := hdeliver m rfl
      rw [hnew]
      refine ⟨fun m' hm' => ?_, fun p => ?_⟩
      · rcases List.mem_append.1 hm' with hm' | hm'
        · exact h.logged m' hm'
        · exact (List.mem_singleton.1 hm').symm ▸ hlogged
      · -- the message delivered is the next one of its partition
        rw [List.filter_append, List.map_append, h.offsets p]
        by_cases hp : m.partition = p
        · subst hp
          simp only [List.filter_cons, decide_true, if_true, List.filter_nil, List.length_append,
            List.length_singleton,
            List.map_cons, List.map_nil, List.range'_concat, one_mul, hnext, next]
        · simp [hp]
    · rw [hsame]
      exact ⟨h.logged, h.offsets⟩
  exact ⟨h.engine, h.flow, h.looping, h.order, h.placed, hG.step horderly hstep,
    h.sourced.step hstep, hdelivered.1,
    hdelivered.2, h.stored, fun p => hcovered (h.position p),
    fun tplist htplist p n hn => hcovered (h.asked tplist htplist p n hn),
    fun p => hcovered (h.committed p)⟩

theorem commit (h : s.OK config topic b c₀) {tplist : HashMap ℤ ℕ}
    (htplist : tplist ∈ s.asked ++ s.persistor.commits) :
    ({ s with committed := fun p => (tplist.find? p).getD (s.committed p) } : Pipeline M T).OK
      config topic b c₀ := by
  have hcovered : ∀ {p n}, s.Covered topic p n →
      ({ s with committed := fun p => (tplist.find? p).getD (s.committed p) } : Pipeline M
        T).Covered topic p n := fun hn =>
    hn.grows (fun _ => List.prefix_rfl) fun _ => List.Subset.refl _
  refine ⟨h.engine, h.flow, h.looping, h.order, h.placed, h.safe, h.sourced, h.logged, h.offsets,
    h.stored,
    fun p => hcovered (h.position p),
    fun tplist htplist p n hn => hcovered (h.asked tplist htplist p n hn), fun p => ?_⟩
  refine hcovered ?_
  show s.Covered topic p ((tplist.find? p).getD (s.committed p))
  cases hfind : tplist.find? p with
  | none => exact h.committed p
  | some n =>
    -- asked by a persistor that has ended, or by this one
    rcases List.mem_append.1 htplist with hmem | hmem
    · exact h.asked tplist hmem p n hfind
    · exact h.commits hmem hfind

theorem restart (h : s.OK config topic b c₀) (hlimit : 0 ≤ config.spawnLimit)
    {persistor : Persistor M T}
    (hstart : Persistor.start topic.chain = some persistor) :
    ({ s with
        persistor
        position := s.committed
        stored := s.rows
        asked := s.asked ++ s.persistor.commits } : Pipeline M T).OK config topic b c₀ := by
  have hempty : persistor.delivered = [] ∧ ∀ w, (persistor.writers w).inserted = [] := by
    obtain ⟨tracker, -, rfl⟩ := Option.map_eq_some_iff.1 hstart
    exact ⟨rfl, fun _ => rfl⟩
  obtain ⟨G, hG⟩ := h.safe
  have hcovered : ∀ {p n}, s.Covered topic p n →
      ({ s with
          persistor
          position := s.committed
          stored := s.rows
          asked := s.asked ++ s.persistor.commits } : Pipeline M T).Covered topic p n := fun hn =>
    hn.grows (fun _ => List.prefix_rfl) fun _ => List.subset_append_left _ _
  refine ⟨h.engine, h.flow, h.looping, h.order, h.placed, ⟨_, Persistor.Safe.start hlimit hstart⟩,
    .start hstart, fun m hm => ?_,
    fun p => ?_, fun w r hr => ?_, fun p => hcovered (h.committed p),
    fun tplist htplist p n hn => ?_,
    fun p => hcovered (h.committed p)⟩
  · exact absurd (hempty.1 ▸ hm) (by simp)
  · show (persistor.delivered.filter _).map _ = List.range' _ (persistor.delivered.filter _).length
    rw [hempty.1]
    rfl
  · -- rows of the persistors before, or of the one that ended
    rcases List.mem_append.1 hr with hr | hr
    · exact h.stored w r hr
    · obtain ⟨m, hm, hmakes⟩ := h.sourced.inserted hG.ok hr
      exact ⟨m, h.logged m hm, hmakes⟩
  · rcases List.mem_append.1 htplist with hmem | hmem
    · exact hcovered (h.asked tplist hmem p n hn)
    · exact hcovered (h.commits hmem hn)

/-- **Every orderly step keeps the invariant.** -/
theorem step {config' : DatabaseWriterConfig} {a : PipelineAction M T} (h : s.OK config' topic b c₀)
    (hlimit : 0 ≤ config'.spawnLimit) (hle : config.spawnLimit ≤ config'.spawnLimit)
    (horderly : s.Orderly topic a) (hstep : s.step E config topic a = some s') :
    s'.OK config' topic b c₀ := by
  cases a with
  | call q =>
    simp only [Pipeline.step] at hstep
    split at hstep
    · rename_i hguard
      split at hstep
      · rename_i reply engine hcall
        obtain rfl := Option.some.inj hstep
        exact h.call (List.isEmpty_iff.1 hguard.1) hguard.2 hcall
      · cases hstep
    · cases hstep
  | push =>
    simp only [Pipeline.step] at hstep
    split at hstep
    · cases hstep
    · rename_i message pushing hpushing
      obtain ⟨stub, hstub, rfl⟩ := Option.map_eq_some_iff.1 hstep
      exact h.push hpushing hstub
  | round sendRet lastPoll reports =>
    obtain ⟨producer, hround, rfl⟩ := Option.map_eq_some_iff.1 hstep
    exact h.round horderly hround
  | place partition =>
    simp only [Pipeline.step] at hstep
    split at hstep
    · obtain rfl := Option.some.inj hstep
      exact h.place ‹_›
    · cases hstep
  | deliver p =>
    simp only [Pipeline.step] at hstep
    split at hstep
    · cases hstep
    · rename_i message hmessage
      obtain ⟨persistor, hpersistor, rfl⟩ := Option.map_eq_some_iff.1 hstep
      refine h.persisted ?_ (Persistor.step_relax hle hpersistor) fun m hm => ?_
      · trivial
      · cases hm
        exact ⟨hmessage, rfl⟩
  | persist a =>
    cases a with
    | deliver m => cases hstep
    | _ =>
      obtain ⟨persistor, hpersistor, rfl⟩ := Option.map_eq_some_iff.1 hstep
      refine h.persisted ?_ (Persistor.step_relax hle hpersistor) fun m hm => by cases hm
      exact horderly
  | commit i =>
    obtain ⟨tplist, htplist, rfl⟩ := Option.map_eq_some_iff.1 hstep
    exact h.commit (List.mem_of_getElem? htplist)
  | restart =>
    obtain ⟨persistor, hstart, rfl⟩ := Option.map_eq_some_iff.1 hstep
    exact h.restart hlimit hstart

end OK

theorem OK.start (hlimit : 0 ≤ config.spawnLimit) (hc : ControllerOK b c₀)
    (hs : start topic c₀ = some s) : s.OK config topic b c₀ := by
  obtain ⟨persistor, hstart, rfl⟩ := Option.map_eq_some_iff.1 hs
  have hempty : persistor.delivered = [] := by
    obtain ⟨tracker, -, rfl⟩ := Option.map_eq_some_iff.1 hstart
    rfl
  have hcovered : ∀ {s : Pipeline M T} {p}, s.Covered topic p 0 :=
    ⟨Nat.zero_le _, fun m _ _ hlt => absurd hlt (Nat.not_lt_zero _)⟩
  refine ⟨hc, ⟨[], (List.append_nil _).symm, rfl⟩, rfl, RdProducer.Waits.start.inOrder,
    Nat.zero_le _,
    ⟨_, Persistor.Safe.start hlimit hstart⟩, .start hstart, fun m hm => ?_, fun p => ?_,
    fun w r hr => ?_,
    fun p => hcovered, fun tplist htplist => ?_, fun p => hcovered⟩
  · exact absurd (hempty ▸ hm) (by simp)
  · show (persistor.delivered.filter _).map _ = List.range' _ (persistor.delivered.filter _).length
    rw [hempty]
    rfl
  · cases hr
  · cases htplist

/-! ## The history -/

/-- **A history that tells what the engine did.** -/
structure Tells (topic : Topic M T) (c₀ : Controller) (s : Pipeline M T) : Prop where
  /-- What was sent is the beginning of what the engine told. -/
  sent : s.records topic <+: s.told topic c₀
  /-- A partition holds some of it, in its order. -/
  inOrder : ∀ p, (s.log topic p).Sublist (s.told topic c₀)
  /-- Each row is of a message that stands in the log. -/
  sound : ∀ w, ∀ r ∈ s.rows w, ∃ message ∈ s.told topic c₀, ∃ m,
    (s.log topic r.partition)[r.offset]? = some message ∧
    topic.parse message = some m ∧ ∃ link, topic.chain[r.handler]? = some link ∧ link.writer = w ∧
    link.into m = some r.row
  /-- Each message before a committed offset has all its rows. -/
  complete : ∀ p offset message, offset < s.committed p → (s.log topic p)[offset]? = some message →
    ∀ i link m row, topic.parse message = some m → topic.chain[i]? = some link →
      link.into m = some row →
      (⟨p, offset, i, row⟩ : MessageRow T) ∈ s.rows link.writer
  /-- One persistor writes no row twice. -/
  once : ∀ w, (s.persistor.writers w).inserted.Nodup
  /-- No offset is committed that is not there. -/
  committed : ∀ p, s.committed p ≤ (s.log topic p).length

theorem filterMap_tagged (t : String) (messages : List Message) :
    (messages.map tagged).filterMap (fun m => if m.1 = t then some m.2 else none) =
      messages.filter fun message => message.topic = t := by
  induction messages with
  | nil => rfl
  | cons message messages ih =>
    rw [List.map_cons, List.filterMap_cons, List.filter_cons, ih]
    by_cases ht : message.topic = t <;> simp [ht, tagged]

/-- What the producer took for the topic is the beginning of what was told. -/
theorem OK.accepted (h : s.OK config topic b c₀) :
    s.producer.acceptedOn topic.name <+: s.told topic c₀ := by
  obtain ⟨messages, hold, hway⟩ := h.flow
  unfold told RdProducer.acceptedOn
  rw [hold, List.drop_left, ← filterMap_tagged, hway, List.append_assoc, List.filterMap_append]
  exact List.prefix_append _ _

theorem OK.tells (h : s.OK config topic b c₀) : s.Tells topic c₀ := by
  have hsent : s.records topic <+: s.told topic c₀ := (h.order.sent _ topic.simple).trans h.accepted
  have hlog : ∀ p, (s.log topic p).Sublist (s.told topic c₀) :=
    fun p => (log_sublist topic s p).trans hsent.sublist
  refine ⟨hsent, hlog, fun w r hr => ?_,
    fun p offset message hlt hmessage i link m row hparse hlink hrow => ?_,
    fun w => ?_, fun p => (h.committed p).le⟩
  · obtain ⟨m, hm, link, row, hlink, hw, hrow, hr⟩ : ∃ m, s.Logged topic m ∧
        m.Makes topic.chain w r := by
      rcases List.mem_append.1 hr with hr | hr
      · exact h.stored w r hr
      · obtain ⟨G, hG⟩ := h.safe
        obtain ⟨m, hm, hmakes⟩ := h.sourced.inserted hG.ok hr
        exact ⟨m, h.logged m hm, hmakes⟩
    obtain ⟨message, hmessage, hparse⟩ := Option.bind_eq_some_iff.1 hm
    rw [hr]
    exact ⟨message, (hlog _).subset (List.mem_of_getElem? hmessage), m.message, hmessage, hparse,
      link, hlink, hw, hrow⟩
  · have hlogged : s.Logged topic ⟨p, offset, m⟩ :=
      Option.bind_eq_some_iff.2 ⟨message, hmessage, hparse⟩
    exact (h.committed p).rows ⟨p, offset, m⟩ hlogged rfl hlt i link row hlink hrow
  · obtain ⟨G, hG⟩ := h.safe
    exact h.sourced.inserted_nodup hG.ok w

/-- **Every run of orderly steps keeps the invariant.** -/
theorem OK.run (hc : ControllerOK b c₀) (hs : Pipeline.start topic c₀ = some s₀)
    (h : Guarded.Runs (Pipeline.step E config topic) (Orderly topic) s₀ s) :
    s.OK { config with spawnLimit := max 0 config.spawnLimit } topic b c₀ := by
  -- a limit below zero is as good as zero
  refine Guarded.Runs.rule
    (I := fun s => s.OK { config with spawnLimit := max 0 config.spawnLimit } topic b c₀) ?_
    (OK.start (le_max_left 0 config.spawnLimit) hc hs) h
  intro s a s' hs horderly hstep
  exact hs.step (le_max_left _ _) (le_max_right _ _) horderly hstep

/-- **The history tells what the engine did**, in every run of orderly steps, however often the
persistor dies and wherever it is started again. -/
theorem Runs.delivers (hc : Reachable E settings c₀) (hs : start topic c₀ = some s₀)
    (h : Guarded.Runs (Pipeline.step E config topic) (Orderly topic) s₀ s) : s.Tells topic c₀ := by
  obtain ⟨b, -, hok⟩ := hc.ok
  exact (OK.run hok hs h).tells

/-! ## A sample -/

/-- Every send succeeds, and the persistor is orderly. -/
def Smooth (topic : Topic M T) (s : Pipeline M T) : PipelineAction M T → Prop
  | .round (.ok ()) _ _ => True
  | .round (.error _) _ _ => False
  | .persist a => s.persistor.Orderly topic.chain a
  | _ => True

instance (topic : Topic M T) (s : Pipeline M T) (a : PipelineAction M T) :
    Decidable (s.Smooth topic a) :=
  match a with
  | .round (.ok ()) _ _ => .isTrue trivial
  | .round (.error _) _ _ => .isFalse id
  | .persist a => inferInstanceAs (Decidable (s.persistor.Orderly topic.chain a))
  | .call _ | .push | .place _ | .deliver _ | .commit _ | .restart => .isTrue trivial

theorem Smooth.orderly {a : PipelineAction M T} (h : s.Smooth topic a) : s.Orderly topic a := by
  cases a with
  | round sendRet lastPoll reports =>
    cases sendRet with
    | ok => intro e he; cases he
    | error => exact h.elim
  | persist a => exact h
  | _ => trivial

/-- A call, with each of its messages pushed and sent. -/
def carries (q : Request) (messages : ℕ) : List (PipelineAction M T) :=
  .call q :: (List.replicate messages [.push, .round (.ok ()) 1 []]).flatten

/-- The trade of two orders is carried to the history, and the persistor starts again behind it. -/
def carriesTrade : List (PipelineAction Trade TradeRow) :=
  ((sampleTrade.zip [2, 2, 1, 8]).flatMap fun e => carries e.1 e.2) ++
    [.place (some 0), .deliver 0] ++ persistsTrade.tail.map .persist ++ [.commit 0, .restart]

/-- What is decided of the sample settings holds at the end of a run. -/
theorem exists_sample (topic : Topic M T) (actions : List (PipelineAction M T))
    (P : Controller → Pipeline M T → Prop) [∀ c₀ s, Decidable (P c₀ s)]
    (h : ((createController sampleSettings).toOption.bind fun c₀ => (start topic c₀).bind fun s₀ =>
      (Guarded.obey (Pipeline.step releaseEnv sampleWriterConfig topic) (Smooth topic) s₀
      actions).map fun s => decide (P c₀ s)) = some true) :
    ∃ (c₀ : Controller) (s₀ s : Pipeline M T), createController sampleSettings = .ok c₀ ∧
      start topic c₀ = some s₀ ∧
      Guarded.Runs (Pipeline.step releaseEnv sampleWriterConfig topic) (Orderly topic) s₀ s ∧
      P c₀ s := by
  obtain ⟨c₀, hc, h⟩ := Option.bind_eq_some_iff.1 h
  obtain ⟨s₀, hs, h⟩ := Option.bind_eq_some_iff.1 h
  obtain ⟨s, hrun, hstate⟩ := Option.map_eq_some_iff.1 h
  have hruns := (Guarded.obey_runs hrun).mono fun _ _ => Smooth.orderly
  exact ⟨c₀, s₀, s, toOption_some.1 hc, hs, hruns, of_decide_eq_true hstate⟩

theorem Runs.delivers_trade :
    ∃ (c₀ : Controller) (s₀ s : Pipeline Trade TradeRow), Reachable releaseEnv sampleSettings c₀ ∧
    start tradeTopic c₀ = some s₀ ∧
    Guarded.Runs (Pipeline.step releaseEnv sampleWriterConfig tradeTopic)
    (Orderly tradeTopic) s₀ s ∧
    s.committed 0 = 1 ∧ (s.rows 0).length = 1 ∧ (s.rows 1).length = 2 ∧ s.Tells tradeTopic c₀ := by
  obtain ⟨c₀, s₀, s, hc, hs, hruns, hcommitted, hmarket, huser⟩ :=
    exists_sample tradeTopic carriesTrade
    (fun _ s => s.committed 0 = 1 ∧ (s.rows 0).length = 1 ∧
      (s.rows 1).length = 2) (by decide +kernel)
  have hreach : Reachable releaseEnv sampleSettings c₀ := .init hc
  exact ⟨c₀, s₀, s, hreach, hs, hruns, hcommitted, hmarket, huser, Runs.delivers hreach hs hruns⟩

end Pipeline

end Dingir
