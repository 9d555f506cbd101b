import Dingir.Spec.MessageScheme

/-!
# The unified stream is a total order

What a producer thread with the full-order scheme sends is the accepted messages in
order, as far as they were sent, numbered from 0 (`RdProducer.Unified`). The two counters of
the scheme are the numbers of records sent and reported (`RdProducer.Numbering`), which is what
its two asserts compare.
-/

namespace Dingir

/-- A message of another topic is ignored, and one of these is put at the end of the list. -/
theorem FullOrderMessageScheme.onMessage_spec {V : Type} (s : FullOrderMessageScheme V)
    (topic : String) (message : V) :
    (s.onMessage topic message).orderedList =
        s.orderedList ++ [(topic, message)].filter (fun m => FullOrderMessageScheme.unified m.1) ∧
      (s.onMessage topic message).deliverCnt = s.deliverCnt ∧
      (s.onMessage topic message).commitedCnt = s.commitedCnt := by
  unfold FullOrderMessageScheme.onMessage
  by_cases hu : FullOrderMessageScheme.unified topic = true
  · simp [hu]
  · simp [hu]

namespace RdProducer

variable {V : Type} {p p' : RdProducer (FullOrderMessageScheme V) V UInt64}

/-- The messages received that the full-order scheme does not ignore. -/
def accepted (p : RdProducer (FullOrderMessageScheme V) V UInt64) : List (String × V) :=
  p.received.filter fun m => FullOrderMessageScheme.unified m.1

/-- **The accepted messages are those sent, then those that wait**, and the records sent are
on one topic, with the original topic as key, numbered from 0. -/
structure Unified (p : RdProducer (FullOrderMessageScheme V) V UInt64) : Prop where
  accepted : p.accepted = p.sent.map (fun r => (r.key, r.payload)) ++ p.scheme.orderedList
  topic : ∀ r ∈ p.sent, r.topic = unifyTopic
  number : ∀ k r, p.sent[k]? = some r → r.deliveryOpaque = UInt64.ofNat k

/-- The counters of the scheme, from 0. -/
structure Numbering
    (p : RdProducer (FullOrderMessageScheme V) V UInt64) : Prop extends Unified p where
  deliverCnt : p.scheme.deliverCnt = UInt64.ofNat p.sent.length
  commitedCnt : p.scheme.commitedCnt = UInt64.ofNat p.reported

theorem Numbering.start : Numbering (V := V) start := by
  refine ⟨⟨rfl, ?_, ?_⟩, rfl, rfl⟩
  · intro r hr
    cases hr
  · intro k r hr
    cases hr

theorem Numbering.recv (h : p.Numbering) (recvRet : Except TryRecvError (String × V)) :
    (p.recv recvRet).Numbering := by
  unfold RdProducer.recv
  by_cases hfull : MessageScheme.isFull p.scheme = true
  · rw [if_pos hfull]
    exact h
  rw [if_neg hfull]
  rcases recvRet with e | ⟨topic, message⟩
  · cases e <;> exact ⟨⟨h.accepted, h.topic, h.number⟩, h.deliverCnt, h.commitedCnt⟩
  obtain ⟨horder, hdeliver, hcommited⟩ := p.scheme.onMessage_spec topic message
  refine ⟨⟨?_, h.topic, h.number⟩, hdeliver.trans h.deliverCnt, hcommited.trans h.commitedCnt⟩
  have hacc := h.accepted
  unfold RdProducer.accepted at hacc ⊢
  show List.filter _ (p.received ++ [(topic, message)]) = _ ++
    (p.scheme.onMessage topic message).orderedList
  rw [List.filter_append, hacc, horder, List.append_assoc]

/-- The record that the scheme pops up: the front of the list, under the number of records sent. -/
theorem Numbering.popUp (h : p.Numbering) {msg : BaseRecord V UInt64}
    {scheme : FullOrderMessageScheme V} (hpop : MessageScheme.popUp p.scheme = (some msg, scheme)) :
    scheme = p.scheme ∧ p.scheme.orderedList = (msg.key, msg.payload) :: p.scheme.orderedList.tail ∧
      msg.topic = unifyTopic ∧ msg.deliveryOpaque = UInt64.ofNat p.sent.length := by
  have hpop : FullOrderMessageScheme.popUp p.scheme = (some msg, scheme) := hpop
  unfold FullOrderMessageScheme.popUp at hpop
  cases hl : p.scheme.orderedList with
  | nil => simp [hl] at hpop
  | cons front rest =>
    simp only [hl, Prod.mk.injEq, Option.some.injEq] at hpop
    obtain ⟨rfl, rfl⟩ := hpop
    exact ⟨rfl, rfl, rfl, h.deliverCnt⟩

theorem popUp_none {scheme : FullOrderMessageScheme V}
    (hpop : MessageScheme.popUp p.scheme = (none, scheme)) : scheme = p.scheme := by
  have hpop : FullOrderMessageScheme.popUp p.scheme = (none, scheme) := hpop
  unfold FullOrderMessageScheme.popUp at hpop
  split at hpop <;> simp_all

/-- **A send keeps the numbering**: a record taken is the next one of the stream, and one that is
not taken stays in front, its number unused. -/
theorem Numbering.send (h : p.Numbering) {msg : BaseRecord V UInt64}
    (hlist : p.scheme.orderedList = (msg.key, msg.payload) :: p.scheme.orderedList.tail)
    (htopic : msg.topic = unifyTopic) (hnumber : msg.deliveryOpaque = UInt64.ofNat p.sent.length)
    (sendRet : Except KafkaError Unit) : ∃ p', p.send msg sendRet = some p' ∧ p'.Numbering := by
  cases sendRet with
  | error e =>
    have hassert : MessageScheme.commit p.scheme (some msg.deliveryOpaque) = some p.scheme :=
      if_pos (hnumber.trans h.deliverCnt.symm)
    refine ⟨p, ?_, h⟩
    simp only [RdProducer.send, hassert, Option.map_some]
  | ok _ =>
    refine ⟨_, rfl, ⟨?_, ?_, ?_⟩, ?_, h.commitedCnt⟩
    · have hacc := h.accepted
      rw [hlist] at hacc
      show p.accepted = _
      rw [hacc, List.map_append, List.append_assoc]
      rfl
    · intro r hr
      rcases List.mem_append.1 hr with hr | hr
      · exact h.topic r hr
      · rw [List.mem_singleton.1 hr]
        exact htopic
    · intro k r hr
      rcases lt_or_ge k p.sent.length with hk | hk
      · rw [List.getElem?_append_left hk] at hr
        exact h.number k r hr
      · rw [List.getElem?_append_right hk, List.getElem?_singleton] at hr
        split at hr
        · rename_i hzero
          obtain rfl := Option.some.inj hr
          have hk' : k = p.sent.length := by omega
          rw [hk']
          exact hnumber
        · cases hr
    · show p.scheme.deliverCnt + 1 = _
      rw [h.deliverCnt, List.length_append, List.length_singleton, UInt64.ofNat_add]
      rfl

theorem Numbering.trySend (h : p.Numbering) (sendRet : Except KafkaError Unit) :
    ∃ p', p.trySend sendRet = some p' ∧ p'.Numbering := by
  unfold RdProducer.trySend
  by_cases hfull : p.producerQueueFull = true
  · exact ⟨p, if_pos hfull, h⟩
  rw [if_neg hfull]
  rcases hpop : MessageScheme.popUp p.scheme with ⟨- | msg, scheme⟩
  · obtain rfl := popUp_none hpop
    exact ⟨p, rfl, h⟩
  · obtain ⟨rfl, hlist, htopic, hnumber⟩ := h.popUp hpop
    have hflag : { p with producerQueueFull := isQueueFull sendRet }.Numbering :=
      ⟨⟨h.accepted, h.topic, h.number⟩, h.deliverCnt, h.commitedCnt⟩
    exact hflag.send hlist htopic hnumber sendRet

/-- **A report keeps the numbering**: the record it is about carries the number of reports so
far. -/
theorem Numbering.deliver (h : p.Numbering) (result : SimpleDeliverResult) :
    ∃ p', p.deliver result = some p' ∧ p'.Numbering := by
  unfold RdProducer.deliver
  cases hr : p.sent[p.reported]? with
  | none => exact ⟨p, rfl, h⟩
  | some msg =>
    have hassert : MessageScheme.deliverCommit p.scheme result msg.deliveryOpaque =
        some { p.scheme with commitedCnt := p.scheme.commitedCnt + 1 } :=
      if_pos ((h.number _ _ hr).trans h.commitedCnt.symm)
    refine ⟨{ p with
        scheme := { p.scheme with commitedCnt := p.scheme.commitedCnt + 1 }
        reported := p.reported + 1 }, ?_, ⟨h.accepted, h.topic, h.number⟩, h.deliverCnt, ?_⟩
    · simp only [hassert, Option.map_some]
    · show p.scheme.commitedCnt + 1 = _
      rw [h.commitedCnt, UInt64.ofNat_add]
      rfl

theorem Numbering.deliver_all (h : p.Numbering) (reports : List SimpleDeliverResult) :
    ∃ p', reports.foldlM RdProducer.deliver p = some p' ∧ p'.Numbering := by
  induction reports generalizing p with
  | nil => exact ⟨p, rfl, h⟩
  | cons result reports ih =>
    obtain ⟨p₁, hp₁, h₁⟩ := h.deliver result
    obtain ⟨p', hp', h'⟩ := ih h₁
    refine ⟨p', ?_, h'⟩
    rw [List.foldlM_cons, hp₁]
    exact hp'

/-- A round of the loop passes both asserts. -/
theorem Numbering.round (h : p.Numbering) (r : Round V) :
    ∃ p', p.round r = some p' ∧ p'.Numbering := by
  have hrecv := h.recv r.recvRet
  unfold RdProducer.round
  by_cases hleft : (p.recv r.recvRet).phase = .flushing
  · exact ⟨_, if_pos hleft, hrecv⟩
  obtain ⟨p₁, hp₁, h₁⟩ := hrecv.trySend r.sendRet
  have hpoll : (p₁.poll r.lastPoll).Numbering :=
    ⟨⟨h₁.accepted, h₁.topic, h₁.number⟩, h₁.deliverCnt, h₁.commitedCnt⟩
  obtain ⟨p', hp', h'⟩ := hpoll.deliver_all r.reports
  refine ⟨p', ?_, h'⟩
  simp only [if_neg hleft, hp₁]
  exact hp'

theorem Numbering.flush (h : p.Numbering) (sendRet : Except KafkaError Unit) :
    ∃ p', p.flush sendRet = some p' ∧ p'.Numbering := by
  unfold RdProducer.flush
  have hend : { p with phase := .terminated }.Numbering :=
    ⟨⟨h.accepted, h.topic, h.number⟩, h.deliverCnt, h.commitedCnt⟩
  rcases hpop : MessageScheme.popUp p.scheme with ⟨- | msg, scheme⟩
  · obtain rfl := popUp_none hpop
    exact ⟨_, rfl, hend⟩
  · obtain ⟨rfl, hlist, htopic, hnumber⟩ := h.popUp hpop
    simp only
    split
    · exact ⟨_, rfl, hend⟩
    · exact h.send hlist htopic hnumber sendRet

theorem Reachable.numbering (h : Reachable p) : p.Numbering := by
  induction h with
  | start => exact .start
  | @round p p' r _ _ hr ih =>
    obtain ⟨q, hq, h'⟩ := ih.round r
    rw [hq] at hr
    exact Option.some.inj hr ▸ h'
  | @flush p p' sendRet _ _ hr ih =>
    obtain ⟨q, hq, h'⟩ := ih.flush sendRet
    rw [hq] at hr
    exact Option.some.inj hr ▸ h'

/-- **The unified stream is a total order without loss or duplication**, in every state of a
producer thread, and no round of its loops fails an assert. -/
theorem Reachable.unified (h : Reachable p) :
    p.Unified ∧ (∀ r, (p.round r).isSome) ∧ ∀ sendRet, (p.flush sendRet).isSome := by
  refine ⟨h.numbering.toUnified, ?_, ?_⟩
  · intro r
    obtain ⟨p', hp', -⟩ := h.numbering.round r
    rw [hp']
    rfl
  · intro sendRet
    obtain ⟨p', hp', -⟩ := h.numbering.flush sendRet
    rw [hp']
    rfl

/-- A thread that sent one of two messages, after the queue of the producer was full once. -/
theorem Reachable.unified_retried : ∃ p : RdProducer (FullOrderMessageScheme String) String UInt64,
    Reachable p ∧ p.received = [("orders", "a"), ("balances", "b"), ("trades", "c")] ∧
      p.sent = [⟨"unifyevents", "orders", "a", 0⟩] ∧ p.reported = 1 ∧
      (p.Unified ∧ (∀ r, (p.round r).isSome) ∧ ∀ sendRet, (p.flush sendRet).isSome) := by
  let r₁ : Round String := ⟨.ok ("orders", "a"), .error .queueFull, 1, []⟩
  let r₂ : Round String := ⟨.ok ("balances", "b"), .ok (), 1, []⟩
  let r₃ : Round String := ⟨.ok ("trades", "c"), .error .other, 1, [.ok ()]⟩
  let p₀ : RdProducer (FullOrderMessageScheme String) String UInt64 := RdProducer.start
  have h : (p₀.round r₁ >>= fun p₁ => p₁.round r₂ >>= fun p₂ => p₂.round r₃ >>=
      fun p => some (decide
      (p₁.phase = .looping ∧ p₂.phase = .looping ∧
        p.received = [("orders", "a"), ("balances", "b"), ("trades", "c")] ∧
        p.sent = [⟨"unifyevents", "orders", "a", 0⟩] ∧
        p.reported = 1))) = some true := by decide +kernel
  simp only [Option.bind_eq_bind, Option.bind_eq_some_iff, Option.some.injEq,
    decide_eq_true_eq] at h
  obtain ⟨p₁, h₁, p₂, h₂, p, h₃, hphase₁, hphase₂, hreceived, hsent, hreported⟩ := h
  have hreach : Reachable p := ((Reachable.start.round rfl h₁).round hphase₁ h₂).round hphase₂ h₃
  exact ⟨p, hreach, hreceived, hsent, hreported, hreach.unified⟩

end RdProducer

end Dingir
