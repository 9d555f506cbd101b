import Dingir.Lib.Guarded
import Dingir.Spec.MessageScheme

/-!
# The order of a simple topic

The simple scheme keeps a list for each topic, and what it hands over of a topic is
what it accepted for it, in this order, as long as no send fails with another message
behind the one popped: a message that was not sent goes back to the end of its list.

* **`RdProducer.sent_prefix`**: in every run in which each send that fails is of a
  message with nothing but its own text behind it, what is sent of a topic is a
  prefix of what was accepted.
* **`RdProducer.not_sent_prefix`**: two messages on one topic of which the first
  could not be sent at once are sent in the other order.
-/

namespace Dingir

open Guarded

variable {V : Type}

/-! ## The lists -/

namespace SimpleMessageScheme

variable {s s' : SimpleMessageScheme V} {topic t : String} {l : List V} {msg : BaseRecord V Unit}
  {m : V}

theorem listOf_setList (h : topic ∈ simpleTopics) :
    (s.setList topic l).listOf t = if t = topic then l else s.listOf t := by
  simp only [simpleTopics, List.mem_cons, List.not_mem_nil, or_false] at h
  unfold setList listOf
  rcases h with rfl | rfl | rfl | rfl <;>
    simp [balancesTopic, ordersTopic, tradesTopic, userTopic] <;> split_ifs <;> simp_all

theorem longest_mem (s : SimpleMessageScheme V) : s.longest ∈ simpleTopics := by
  unfold longest
  simp only [List.foldl_cons, List.foldl_nil]
  split_ifs <;> simp [simpleTopics]

theorem listOf_onMessage (ht : t ∈ simpleTopics) :
    (s.onMessage topic m).listOf t = s.listOf t ++ if topic = t then [m] else [] := by
  unfold onMessage
  by_cases htopic : topic ∈ simpleTopics
  · rw [if_pos htopic, listOf_setList htopic]
    by_cases h : t = topic
    · subst h
      simp
    · simp [h, Ne.symm h]
  · have h : topic ≠ t := fun h => htopic (h ▸ ht)
    simp [htopic, h]

/-- What is popped is the front of the longest list. -/
theorem popUp_some (h : s.popUp = (some msg, s')) :
    ∃ rest, s.listOf s.longest = msg.payload :: rest ∧ msg.topic = s.longest ∧
      s' = { s.setList s.longest rest with lastPoped := some (msg.topic, msg.payload) } := by
  unfold popUp at h
  cases hl : s.listOf s.longest with
  | nil => simp [hl] at h
  | cons m rest =>
    simp only [hl, Prod.mk.injEq, Option.some.injEq] at h
    obtain ⟨rfl, rfl⟩ := h
    exact ⟨rest, rfl, rfl, rfl⟩

theorem popUp_none (h : s.popUp = (none, s')) : s' = { s with lastPoped := none } := by
  unfold popUp at h
  cases hl : s.listOf s.longest with
  | nil => simpa [hl, eq_comm] using h
  | cons m rest => simp [hl] at h

/-- Nothing but its own text waits behind the message to pop. -/
def Alone (s : SimpleMessageScheme V) : Prop :=
  ∀ m rest, s.listOf s.longest = m :: rest → ∀ x ∈ rest, x = m

theorem append_of_alone {rest : List V} (h : ∀ x ∈ rest, x = m) : rest ++ [m] = m :: rest := by
  rw [List.eq_replicate_of_mem h, ← List.replicate_succ', List.replicate_succ]

/-- **A message that was not sent** goes back where it was, when nothing else is behind it. -/
theorem commit_failed (hpop : s.popUp = (some msg, s')) (halone : s.Alone) :
    ∃ s'', s'.commit (some ()) = some s'' ∧ ∀ t ∈ simpleTopics, s''.listOf t = s.listOf t := by
  obtain ⟨rest, hlist, htopic, rfl⟩ := popUp_some hpop
  refine ⟨_, rfl, fun t ht => ?_⟩
  rw [listOf_onMessage ht]
  show (s.setList s.longest rest).listOf t ++ _ = _
  rw [listOf_setList s.longest_mem, htopic]
  by_cases h : t = s.longest
  · subst h
    simp [append_of_alone (halone _ _ hlist), hlist]
  · simp [h, Ne.symm h]

/-- **A message that was sent** is gone from the front of its list. -/
theorem commit_sent (hpop : s.popUp = (some msg, s')) (t : String) :
    s.listOf t = (if msg.topic = t then [msg.payload] else []) ++ s'.listOf t := by
  obtain ⟨rest, hlist, htopic, rfl⟩ := popUp_some hpop
  show _ = _ ++ (s.setList s.longest rest).listOf t
  rw [listOf_setList s.longest_mem, htopic]
  by_cases h : t = s.longest
  · subst h
    simp [hlist]
  · simp [h, Ne.symm h]

end SimpleMessageScheme

/-! ## A producer thread -/

namespace RdProducer

open SimpleMessageScheme

variable {p p' : RdProducer (SimpleMessageScheme V) V Unit} {t : String}

/-- The messages taken in for a topic. -/
def acceptedOn (p : RdProducer (SimpleMessageScheme V) V Unit) (t : String) : List V :=
  p.received.filterMap fun m => if m.1 = t then some m.2 else none

/-- The messages sent on a topic. -/
def sentOn (p : RdProducer (SimpleMessageScheme V) V Unit) (t : String) : List V :=
  p.sent.filterMap fun r => if r.topic = t then some r.payload else none

/-- No send fails with another text behind the message popped. -/
def InTurn (p : RdProducer (SimpleMessageScheme V) V Unit) : Turn V → Prop
  | .round r => ∀ e, r.sendRet = .error e → p.producerQueueFull = false →
      (p.recv r.recvRet).scheme.Alone
  | .flush sendRet => sendRet = .error .queueFull → p.scheme.Alone

/-- The messages accepted for a topic are those sent, then those that wait. -/
def Waits (p : RdProducer (SimpleMessageScheme V) V Unit) : Prop :=
  ∀ t ∈ simpleTopics, p.acceptedOn t = p.sentOn t ++ p.scheme.listOf t

theorem Waits.start : Waits (V := V) start := by
  intro t ht
  simp only [simpleTopics, List.mem_cons, List.not_mem_nil, or_false] at ht
  rcases ht with rfl | rfl | rfl | rfl <;> rfl

theorem Waits.recv (h : p.Waits)
    (recvRet : Except TryRecvError (String × V)) : (p.recv recvRet).Waits := by
  unfold RdProducer.recv
  by_cases hfull : MessageScheme.isFull p.scheme = true
  · rw [if_pos hfull]
    exact h
  rw [if_neg hfull]
  rcases recvRet with e | ⟨topic, message⟩
  · cases e <;> exact h
  intro t ht
  have hlist : (MessageScheme.onMessage p.scheme topic message : SimpleMessageScheme V).listOf t =
      p.scheme.listOf t ++ if topic = t then [message] else [] := listOf_onMessage ht
  show (p.received ++ [(topic, message)]).filterMap _ = p.sentOn t ++ SimpleMessageScheme.listOf _ t
  rw [hlist, ← List.append_assoc, ← h t ht, List.filterMap_append]
  by_cases htopic : topic = t <;> simp [htopic, acceptedOn]

/-- **A send keeps the order**, when it succeeds or nothing else waits behind the message. -/
theorem Waits.send (h : p.Waits) {scheme : SimpleMessageScheme V} {msg : BaseRecord V Unit}
    (hpop : p.scheme.popUp = (some msg, scheme)) {sendRet : Except KafkaError Unit}
    (hfail : ∀ e, sendRet = .error e → p.scheme.Alone)
    (hsend : { p with scheme }.send msg sendRet = some p') : p'.Waits := by
  cases sendRet with
  | ok _ =>
    obtain rfl := Option.some.inj hsend
    intro t ht
    show p.acceptedOn t = (p.sent ++ [msg]).filterMap _ ++ scheme.listOf t
    rw [h t ht, commit_sent hpop t, List.filterMap_append]
    by_cases htopic : msg.topic = t <;> simp [htopic, sentOn]
  | error e =>
    obtain ⟨scheme', hcommit, hlist⟩ := commit_failed hpop (hfail e rfl)
    have hcommit : MessageScheme.commit scheme (some msg.deliveryOpaque) = some scheme' := hcommit
    simp only [RdProducer.send, hcommit, Option.map_some, Option.some.injEq] at hsend
    subst hsend
    intro t ht
    show p.acceptedOn t = p.sentOn t ++ scheme'.listOf t
    rw [hlist t ht]
    exact h t ht

theorem Waits.trySend (h : p.Waits) {sendRet : Except KafkaError Unit}
    (hfail : ∀ e, sendRet = .error e → p.producerQueueFull = false → p.scheme.Alone)
    (hsend : p.trySend sendRet = some p') : p'.Waits := by
  unfold RdProducer.trySend at hsend
  by_cases hfull : p.producerQueueFull = true
  · rw [if_pos hfull] at hsend
    exact Option.some.inj hsend ▸ h
  rw [if_neg hfull] at hsend
  rcases hpop : p.scheme.popUp with ⟨- | msg, scheme⟩
  · have hpop' : MessageScheme.popUp p.scheme = (none, scheme) := hpop
    simp only [hpop', Option.some.injEq] at hsend
    subst hsend
    obtain rfl := popUp_none hpop
    exact h
  · have hpop' : MessageScheme.popUp p.scheme = (some msg, scheme) := hpop
    simp only [hpop'] at hsend
    have hflag : { p with producerQueueFull := isQueueFull sendRet }.Waits := h
    exact hflag.send hpop (fun e he => hfail e he (by simpa using hfull)) hsend

theorem Waits.deliver (h : p.Waits) {reports : List SimpleDeliverResult}
    (hreports : reports.foldlM RdProducer.deliver p = some p') : p'.Waits := by
  induction reports generalizing p with
  | nil => exact Option.some.inj hreports ▸ h
  | cons result reports ih =>
    rw [List.foldlM_cons] at hreports
    obtain ⟨p₁, hp₁, hreports⟩ := Option.bind_eq_some_iff.1 hreports
    refine ih ?_ hreports
    unfold RdProducer.deliver at hp₁
    split at hp₁
    · exact Option.some.inj hp₁ ▸ h
    · exact Option.some.inj hp₁ ▸ h

theorem Waits.round (h : p.Waits) {r : Round V} (hr : p.InTurn (.round r))
    (hround : p.round r = some p') : p'.Waits := by
  have hrecv := h.recv r.recvRet
  unfold RdProducer.round at hround
  by_cases hleft : (p.recv r.recvRet).phase = .flushing
  · simp only [if_pos hleft, Option.some.injEq] at hround
    exact hround ▸ hrecv
  simp only [if_neg hleft] at hround
  obtain ⟨p₁, hp₁, hround⟩ := Option.bind_eq_some_iff.1 hround
  have hflag : (p.recv r.recvRet).producerQueueFull = p.producerQueueFull := by
    unfold RdProducer.recv
    split
    · rfl
    · split <;> rfl
  have h₁ := hrecv.trySend (fun e he hfull => hr e he (hflag ▸ hfull)) hp₁
  exact Waits.deliver (p := p₁.poll r.lastPoll) h₁ hround

/-- **What holds between the rounds.** -/
structure InOrder (p : RdProducer (SimpleMessageScheme V) V Unit) : Prop where
  sent : ∀ t ∈ simpleTopics, p.sentOn t <+: p.acceptedOn t
  waits : p.phase ≠ .terminated → p.Waits

theorem Waits.inOrder (h : p.Waits) : p.InOrder := ⟨fun t ht => ⟨_, (h t ht).symm⟩, fun _ => h⟩

theorem InOrder.turn (h : p.InOrder) {a : Turn V} (ha : p.InTurn a)
    (hturn : p.turn a = some p') : p'.InOrder := by
  cases a with
  | round r =>
    simp only [RdProducer.turn, Option.ite_none_right_eq_some] at hturn
    exact ((h.waits (by simp [hturn.1])).round ha hturn.2).inOrder
  | flush sendRet =>
    simp only [RdProducer.turn, Option.ite_none_right_eq_some] at hturn
    obtain ⟨hphase, hturn⟩ := hturn
    have hwaits := h.waits (by simp [hphase])
    unfold RdProducer.flush at hturn
    rcases hpop : p.scheme.popUp with ⟨- | msg, scheme⟩
    · have hpop' : MessageScheme.popUp p.scheme = (none, scheme) := hpop
      simp only [hpop', Option.some.injEq] at hturn
      subst hturn
      exact ⟨h.sent, by simp⟩
    · have hpop' : MessageScheme.popUp p.scheme = (some msg, scheme) := hpop
      simp only [hpop'] at hturn
      -- any other error ends the thread, with the message popped
      split at hturn
      · obtain rfl := Option.some.inj hturn
        exact ⟨h.sent, by simp⟩
      · rename_i hother
        refine (hwaits.send hpop (fun e he => ?_) hturn).inOrder
        cases e with
        | queueFull => exact ha he
        | other => exact absurd he hother

/-- **A simple topic keeps its order**, as long as no send fails with another text behind the
message. -/
theorem sent_prefix (h : Runs turn InTurn start p) :
    ∀ t ∈ simpleTopics, p.sentOn t <+: p.acceptedOn t :=
  (h.rule (fun _ _ _ hp ha hturn => hp.turn ha hturn) Waits.start.inOrder).sent

theorem runs_reachable {P : RdProducer (SimpleMessageScheme V) V Unit → Turn V → Prop}
    (h : Runs turn P start p) : Reachable p := by
  induction h with
  | start => exact .start
  | @step p q a _ _ hturn ih =>
    cases a with
    | round r =>
      simp only [RdProducer.turn, Option.ite_none_right_eq_some] at hturn
      exact ih.round hturn.1 hturn.2
    | flush sendRet =>
      simp only [RdProducer.turn, Option.ite_none_right_eq_some] at hturn
      exact ih.flush hturn.1 hturn.2

/-- A message that could not be sent at once, alone on its topic, is sent in the next round. -/
theorem sent_prefix_retried : ∃ p : RdProducer (SimpleMessageScheme String) String Unit,
    Runs turn InTurn start p ∧ p.sentOn "orders" = ["a"] ∧
    p.sentOn "orders" <+: p.acceptedOn "orders" := by
  let r₁ : Round String := ⟨.ok ("orders", "a"), .error .queueFull, 1, []⟩
  let r₂ : Round String := ⟨.ok ("orders", "b"), .ok (), 1, []⟩
  let p₀ : RdProducer (SimpleMessageScheme String) String Unit := RdProducer.start
  have h : (p₀.turn (.round r₁) >>= fun p₁ => p₁.turn (.round r₂) >>= fun p =>
      some (decide (p.sentOn "orders" = ["a"]))) = some true := by decide +kernel
  simp only [Option.bind_eq_bind, Option.bind_eq_some_iff, Option.some.injEq,
    decide_eq_true_eq] at h
  obtain ⟨p₁, h₁, p, h₂, hsent⟩ := h
  have halone : p₀.InTurn (.round r₁) := by
    intro e _ _ m rest hlist x hx
    have hlist' : ["a"] = m :: rest := hlist
    simp only [List.cons.injEq] at hlist'
    simp [← hlist'.2] at hx
  have hruns : Runs turn InTurn start p :=
    .step (.step .start halone h₁) (by intro e he; cases he) h₂
  exact ⟨p, hruns, hsent, sent_prefix hruns "orders" (by decide)⟩

/-- **A message sent again goes behind the one that came after it.** -/
theorem not_sent_prefix : ∃ p : RdProducer (SimpleMessageScheme String) String Unit,
    Reachable p ∧ p.acceptedOn "orders" = ["a", "b"] ∧ p.sentOn "orders" = ["b"] ∧
      ¬p.sentOn "orders" <+: p.acceptedOn "orders" := by
  let r₁ : Round String := ⟨.ok ("orders", "a"), .error .queueFull, 1, []⟩
  let r₂ : Round String := ⟨.ok ("orders", "b"), .error .queueFull, 1, []⟩
  let r₃ : Round String := ⟨.error .empty, .ok (), 1, []⟩
  let p₀ : RdProducer (SimpleMessageScheme String) String Unit := RdProducer.start
  have h : (p₀.turn (.round r₁) >>= fun p₁ => p₁.turn (.round r₂) >>=
      fun p₂ => p₂.turn (.round r₃) >>= fun p =>
      some (decide (p.acceptedOn "orders" = ["a", "b"] ∧ p.sentOn "orders" = ["b"]))) =
        some true := by decide +kernel
  simp only [Option.bind_eq_bind, Option.bind_eq_some_iff, Option.some.injEq,
    decide_eq_true_eq] at h
  obtain ⟨p₁, h₁, p₂, h₂, p, h₃, haccepted, hsent⟩ := h
  have hruns : Runs turn (fun _ _ => True) start p :=
    .step (.step (.step .start trivial h₁) trivial h₂) trivial h₃
  exact ⟨p, runs_reachable hruns, haccepted, hsent, by rw [haccepted, hsent]; decide⟩

end RdProducer

end Dingir
