import Dingir.Proof.Filing
import Dingir.Proof.Tracker
import Dingir.Spec.Sample

/-!
# No message is lost by a commit

Three invariants meet. Each row of a delivered message was accepted by its writer or is
to be appended next (`Located`). A writer that is at work has its rows on file, so what
it reports is done with (`Kept`). A tracker remembers reports only, so what it tells is
done with by every writer of the chain (`Safe`).

- **`Persistor.runs_nothingLost`**: in a run of orderly steps no commit loses a message.
- `not_nothingLost`: a task of the trades that is spawned between the two rows of a
  message reports the offset of both.
-/

namespace Dingir

open Keyed Guarded NotifyTrackerReceiver

variable {M T : Type} {config : DatabaseWriterConfig} {chain : List (PersistTo M T)}
  {s s' : Persistor M T} {p : ℤ} {w i : ℕ} {m : TopicMessage M} {g : Progress}
  {G : ℕ → ℤ → Progress} {link : PersistTo M T} {row : T}

/-! ## The rows of a message -/

theorem mem_rowsFor {r : MessageRow T} {links : List (PersistTo M T)} : r ∈ m.rowsFor w i links ↔
    ∃ k link row, links[k]? = some link ∧ link.writer = w ∧ link.into m.message = some row ∧
      r = m.rowOf (i + k) row := by
  induction links generalizing i with
  | nil => simp [TopicMessage.rowsFor]
  | cons link links ih =>
    rw [TopicMessage.rowsFor, List.mem_append, ih]
    constructor
    · rintro (hfirst | ⟨k, link', row, hk, hw, hrow, rfl⟩)
      · split at hfirst
        · rename_i hw
          obtain ⟨row, hrow, rfl⟩ := Option.map_eq_some_iff.1 (Option.mem_toList.1 hfirst)
          exact ⟨0, link, row, rfl, hw, hrow, rfl⟩
        · cases hfirst
      · exact ⟨k + 1, link', row, hk, hw, hrow, by rw [add_assoc, add_comm 1]⟩
    · rintro ⟨k, link', row, hk, hw, hrow, rfl⟩
      cases k with
      | zero =>
        obtain rfl : link = link' := by simpa using hk
        rw [if_pos hw, hrow]
        exact .inl (by simp)
      | succ k => exact .inr ⟨k, link', row, hk, hw, hrow, by rw [add_assoc, add_comm 1]⟩

/-- All of them are of the message. -/
theorem offs_rowsFor {links : List (PersistTo M T)} {y : ℕ}
    (hy : y ∈ offs p (m.rowsFor w i links)) : m.partition = p ∧ y = m.offset := by
  obtain ⟨r, hr, rfl, rfl⟩ := mem_offs.1 hy
  obtain ⟨k, link, row, -, -, -, rfl⟩ := mem_rowsFor.1 hr
  exact ⟨rfl, rfl⟩

namespace Persistor

/-- The rows to be appended to a writer by the handlers that are next. -/
def nextRows (chain : List (PersistTo M T)) (s : Persistor M T) (w : ℕ) : List (MessageRow T) :=
  match s.handling with
  | some (m, i) => m.rowsFor w i (chain.drop i)
  | none => []

theorem coming_eq : s.coming chain w = (s.writers w).writer.comingRows (s.nextRows chain w) := by
  unfold coming DatabaseWriter.comingRows DatabaseWriter.sent nextRows
  rw [List.map_filterMap]
  congr 1
  refine List.filterMap_congr fun msg _ => ?_
  cases msg <;> rfl

/-- A task that is complete is apart from what is coming. -/
theorem Complete.apart {task : DatabaseWriterTask (MessageRow T)} (h : s.Complete chain w task) :
    Apart p task ((s.writers w).writer.comingRows (s.nextRows chain w)) := by
  intro x hx y hy hxy
  obtain ⟨r, hr, hrp, rfl⟩ := mem_offs.1 hx
  obtain ⟨other, hother, hop, rfl⟩ := mem_offs.1 hy
  rw [← coming_eq] at hother
  exact h r hr other hother ⟨hop.trans hrp.symm, hxy.symm⟩

/-! ## The invariants -/

/-- The rows of the delivered messages were accepted, or are to be appended. -/
def Located (chain : List (PersistTo M T)) (s : Persistor M T) : Prop :=
  ∀ m ∈ s.delivered, ∀ i link row, chain[i]? = some link → link.into m.message = some row →
    m.rowOf i row ∈ (s.writers link.writer).accepted ∨ m.rowOf i row ∈ s.nextRows chain link.writer

/-- The writer is done with the partition up to the offset. -/
structure DoneTo (chain : List (PersistTo M T)) (s : Persistor M T) (w : ℕ) (p : ℤ)
    (v : ℕ) : Prop where
  delivered : ∃ m ∈ s.delivered, m.partition = p ∧ v ≤ m.offset
  inserted : ∀ m ∈ s.delivered, m.partition = p → m.offset ≤ v →
    ∀ i link row, chain[i]? = some link →
    link.writer = w → link.into m.message = some row → m.rowOf i row ∈ (s.writers w).inserted

/-- **What a writer reports of a partition is done with.** -/
structure Kept (chain : List (PersistTo M T)) (s : Persistor M T) (w : ℕ) (p : ℤ)
    (g : Progress) : Prop where
  traced : g.Traced
  announces : Announces p (s.writers w).writer g
  done : ∀ v ∈ g.reports, s.DoneTo chain w p v
  filed : (s.writers w).writer.left = false → Filed p (s.writers w).writer (s.nextRows chain w) g
  known : (s.writers w).writer.left = false → ∀ u, u ∈ g.pushed ∨
    u ∈ waiting p (s.writers w).writer.nextTaskStack
    (offs p ((s.writers w).writer.comingRows (s.nextRows chain w))) → ∃ m ∈ s.delivered,
    m.partition = p ∧ m.offset = u

/-- What is behind a commit is done with. -/
def CommittedTo (chain : List (PersistTo M T)) (s : Persistor M T) (p : ℤ) (c : ℕ) : Prop :=
  (∃ m ∈ s.delivered, m.partition = p ∧ c ≤ m.offset + 1) ∧
    ∀ m ∈ s.delivered, m.partition = p → m.offset < c → ∀ i link row, chain[i]? = some link →
      link.into m.message = some row → m.rowOf i row ∈ (s.writers link.writer).inserted

/-- **The invariant of a persistor**, with what each writer reported of each partition. -/
structure Safe (config : DatabaseWriterConfig) (chain : List (PersistTo M T)) (s : Persistor M T)
    (G : ℕ → ℤ → Progress) : Prop where
  ok : ∀ w, Writing.OK config (s.writers w)
  located : s.Located chain
  kept : ∀ w p, s.Kept chain w p (G w p)
  behind : s.tracker.behind + 1 = chain.length
  tracked : ∀ p, ∃ lat, s.tracker.Tracks p lat ∧
    ∀ i a, lat i = some a → ∃ link, chain[i]? = some link ∧ a ∈ (G link.writer p).reports
  committed : ∀ tplist ∈ s.commits, ∀ p c, tplist.find? p = some c → s.CommittedTo chain p c

theorem Safe.nothingLost (h : Safe config chain s G) : s.NothingLost chain := by
  intro tplist htplist p c hc m hm hp hlt i link row hlink hrow
  exact (h.committed tplist htplist p c hc).2 m hm hp hlt i link row hlink hrow

/-- More rows inserted and nothing delivered. -/
theorem DoneTo.grows {v : ℕ} (h : s.DoneTo chain w p v) (hdelivered : s'.delivered = s.delivered)
    (hinserted : (s.writers w).inserted ⊆ (s'.writers w).inserted) : s'.DoneTo chain w p v := by
  refine ⟨hdelivered ▸ h.delivered, fun m hm hp hle i link row hlink hw hrow => hinserted ?_⟩
  exact h.inserted m (hdelivered ▸ hm) hp hle i link row hlink hw hrow

theorem CommittedTo.grows {c : ℕ} (h : s.CommittedTo chain p c)
    (hdelivered : s'.delivered = s.delivered)
    (hinserted : ∀ w, (s.writers w).inserted ⊆ (s'.writers w).inserted) :
    s'.CommittedTo chain p c := by
  refine ⟨hdelivered ▸ h.1, fun m hm hp hlt i link row hlink hrow => hinserted _ ?_⟩
  exact h.2 m (hdelivered ▸ hm) hp hlt i link row hlink hrow

/-- **What a writer that is on file reports is done with.** -/
theorem doneTo_of_filed (hlocated : s.Located chain) (hok : Writing.OK config (s.writers w))
    (hg : g.Traced) (hfiled : Filed p (s.writers w).writer (s.nextRows chain w) g)
    (hknown : ∀ u ∈ g.pushed, ∃ m ∈ s.delivered, m.partition = p ∧ m.offset = u) {v : ℕ}
    (hv : v ∈ g.reports) : s.DoneTo chain w p v := by
  have hcompleted : v ∈ g.completed := hg.covered v hv
  obtain ⟨m₀, hm₀, hp₀, rfl⟩ := hknown v (List.takeWhile_subset _ hcompleted)
  refine ⟨⟨m₀, hm₀, hp₀, le_rfl⟩, ?_⟩
  intro m hm hp hle i link row hlink hw hrow
  subst hw
  have hheld : m.rowOf i row ∈ (s.writers link.writer).inserted ∨
      (s.writers link.writer).writer.Holds (s.nextRows chain link.writer) (m.rowOf i row) := by
    rcases hlocated m hm i link row hlink hrow with hacc | hnext
    · exact hok.holds hacc
    · exact .inr (.inr (.inr (List.mem_append_right _ hnext)))
  rcases hheld with hinserted | hheld
  · exact hinserted
  · have := hfiled.behind hcompleted hheld hp
    exact absurd hle (not_le.2 this)

/-! ## Steps of one writer -/

/-- Nothing new for a writer. -/
theorem Kept.frame (h : s.Kept chain w p g) (hdelivered : s'.delivered = s.delivered)
    (hwriter : s'.writers w = s.writers w)
    (hnext : s'.nextRows chain w = s.nextRows chain w) : s'.Kept chain w p g := by
  refine ⟨h.traced, by rw [hwriter]; exact h.announces, ?_, by rw [hwriter, hnext]; exact h.filed,
    by rw [hwriter, hnext, hdelivered]; exact h.known⟩
  intro v hv
  exact (h.done v hv).grows hdelivered (by rw [hwriter]; exact List.Subset.refl _)

/-- More rows accepted, and the same ones to be appended. -/
theorem Located.grows (h : s.Located chain) (hdelivered : s'.delivered = s.delivered)
    (haccepted : ∀ w, (s.writers w).accepted ⊆ (s'.writers w).accepted)
    (hnext : ∀ w, s'.nextRows chain w = s.nextRows chain w) : s'.Located chain := by
  intro m hm i link row hlink hrow
  rw [hdelivered] at hm
  rw [hnext]
  exact (h m hm i link row hlink hrow).imp_left fun hacc => haccepted _ hacc

/-- **A step of the writer itself**, which appends nothing. -/
theorem Kept.written {a : WriterAction (MessageRow T)} (h : s.Kept chain w p g)
    (hok : Writing.OK config (s.writers w)) (hstep : WStep config (s.writers w) a (s'.writers w))
    (hdelivered : s'.delivered = s.delivered) (hnext : s'.nextRows chain w = s.nextRows chain w)
    (hlocated : s'.Located chain) (happend : ∀ item notify, a ≠ .append item notify)
    (horderly : s.Orderly chain (.write w a)) :
    ∃ g', s'.Kept chain w p g' ∧ g.reports ⊆ g'.reports := by
  cases hleft : (s.writers w).writer.left with
  | true =>
    obtain ⟨hleft', hnotify⟩ := hstep.leftKept hleft
    refine ⟨g, ⟨h.traced, ?_, ?_, fun hrunning => ?_, fun hrunning => ?_⟩, List.Subset.refl _⟩
    · intro v hv
      rw [hnotify] at hv
      exact h.announces v hv
    · intro v hv
      exact (h.done v hv).grows hdelivered hstep.grows.2
    · exact absurd (hleft'.symm.trans hrunning) (by simp)
    · exact absurd (hleft'.symm.trans hrunning) (by simp)
  | false =>
    have hspawn : a = .acquire → (s.writers w).writer.errorTaskStack = [] →
        ∀ task ∈ (s.writers w).writer.nextTaskStack.getLast?,
          Apart p task ((s.writers w).writer.comingRows (s.nextRows chain w)) := by
      rintro rfl herr task htask
      exact (horderly (by rw [herr]; rfl) task htask).apart
    have hopen : a = .recv → ∀ item notify queue,
        (s.writers w).writer.ctrlChn.queue = .data item notify :: queue →
        ∀ front ∈ (s.writers w).writer.nextTaskStack.head?, front.isLimited = true →
          Apart p front ((s.writers w).writer.comingRows (s.nextRows chain w)) := by
      rintro rfl item notify queue hq front hfront hfull
      simp only [Orderly, hq] at horderly
      exact (horderly front hfront hfull).apart
    obtain ⟨g', hfiled, hann, hreports, hknown⟩ :=
      hstep.filed hok (h.filed hleft) h.announces hleft happend hspawn hopen
    have hdeliveredKnown : ∀ u, u ∈ g'.pushed ∨ u ∈ waiting p (s'.writers w).writer.nextTaskStack
        (offs p ((s'.writers w).writer.comingRows (s.nextRows chain w))) →
        ∃ m ∈ s'.delivered, m.partition = p ∧ m.offset = u := by
      intro u hu
      rw [hdelivered]
      exact h.known hleft u (hknown u hu)
    rw [← hnext] at hfiled hdeliveredKnown
    refine ⟨g', ⟨hfiled.traced, hann, fun v hv => ?_, fun _ => hfiled, fun _ => hdeliveredKnown⟩,
      hreports.subset⟩
    exact doneTo_of_filed hlocated (hstep.ok hok) hfiled.traced hfiled
      (fun u hu => hdeliveredKnown u (.inl hu)) hv

theorem withWriter_self (s : Persistor M T) (w : ℕ) (W : Writing (MessageRow T)) :
    (s.withWriter w W).writers w = W := by
  simp [withWriter]

theorem withWriter_other (s : Persistor M T) {w w' : ℕ} (W : Writing (MessageRow T)) (hw : w' ≠ w) :
    (s.withWriter w W).writers w' = s.writers w' := by
  simp [withWriter, hw]

/-- A step of a writer of the persistor. -/
theorem Safe.write {a : WriterAction (MessageRow T)} {W : Writing (MessageRow T)}
    (h : Safe config chain s G) (hstep : WStep config (s.writers w) a W)
    (happend : ∀ item notify, a ≠ .append item notify) (horderly : s.Orderly chain (.write w a)) :
    ∃ G', Safe config chain (s.withWriter w W) G' := by
  have hsame := withWriter_self s w W
  have hother : ∀ w' ≠ w, (s.withWriter w W).writers w' = s.writers w' :=
    fun w' hw => withWriter_other s W hw
  have hgrows : ∀ w', (s.writers w').accepted ⊆ ((s.withWriter w W).writers w').accepted ∧
      (s.writers w').inserted ⊆ ((s.withWriter w W).writers w').inserted := by
    intro w'
    by_cases hw : w' = w
    · subst hw
      rw [hsame]
      exact hstep.grows
    · rw [hother w' hw]
      exact ⟨List.Subset.refl _, List.Subset.refl _⟩
  have hlocated : (s.withWriter w W).Located chain :=
    h.located.grows rfl (fun w' => (hgrows w').1) fun _ => rfl
  have hkept : ∀ w' p, ∃ g', (s.withWriter w W).Kept chain w' p g' ∧
      (G w' p).reports ⊆ g'.reports := by
    intro w' p
    by_cases hw : w' = w
    · subst hw
      exact (h.kept w' p).written (h.ok w') (by rw [hsame]; exact hstep) rfl rfl hlocated happend
        horderly
    · exact ⟨G w' p, (h.kept w' p).frame rfl (hother w' hw) rfl, List.Subset.refl _⟩
  choose G' hG' hreports using hkept
  refine ⟨G', fun w' => ?_, hlocated, hG', h.behind, fun p => ?_, fun tplist htplist p c hc => ?_⟩
  · by_cases hw : w' = w
    · subst hw
      rw [hsame]
      exact hstep.ok (h.ok w')
    · rw [hother w' hw]
      exact h.ok w'
  · obtain ⟨lat, htracks, hlat⟩ := h.tracked p
    refine ⟨lat, htracks, fun i a ha => ?_⟩
    obtain ⟨link, hlink, hmem⟩ := hlat i a ha
    exact ⟨link, hlink, hreports _ _ hmem⟩
  · exact (h.committed tplist htplist p c hc).grows rfl fun w' => (hgrows w').2

/-! ## Messages -/

/-- **A message is delivered.** -/
theorem Safe.deliver (h : Safe config chain s G) (hhandling : s.handling = none)
    (hascending : ∀ m' ∈ s.delivered, m'.partition = m.partition → m'.offset < m.offset) :
    Safe config chain { s with delivered := s.delivered ++ [m], handling := some (m, 0) } G := by
  set s' : Persistor M T :=
    { s with delivered := s.delivered ++ [m], handling := some (m, 0) } with hs'
  have hidle : ∀ w, s.nextRows chain w = [] := by
    intro w
    unfold nextRows
    rw [hhandling]
  have hnext : ∀ w, s'.nextRows chain w = m.rowsFor w 0 chain := fun w => rfl
  have hdelivered : ∀ m' ∈ s'.delivered, m' ∈ s.delivered ∨ m' = m := by
    intro m' hm'
    exact (List.mem_append.1 hm').imp_right List.mem_singleton.1
  have hmem : ∀ m' ∈ s.delivered, m' ∈ s'.delivered := fun m' hm' => List.mem_append_left _ hm'
  refine ⟨h.ok, ?_, fun w p => ?_, h.behind, h.tracked, ?_⟩
  · intro m' hm' i link row hlink hrow
    rcases hdelivered m' hm' with hm' | rfl
    · have := h.located m' hm' i link row hlink hrow
      rw [hidle] at this
      exact .inl (this.resolve_right (by simp))
    · rw [hnext]
      exact .inr (mem_rowsFor.2 ⟨i, link, row, hlink, rfl, hrow, by rw [Nat.zero_add]⟩)
  · have hkept := h.kept w p
    have hknown : ∀ hleft : (s.writers w).writer.left = false, ∀ u, u ∈ (G w p).pushed ∨
        u ∈ waiting p (s.writers w).writer.nextTaskStack
          (offs p ((s.writers w).writer.comingRows [])) →
        ∃ m ∈ s.delivered, m.partition = p ∧ m.offset = u := by
      intro hleft u hu
      refine hkept.known hleft u ?_
      rwa [hidle]
    refine ⟨hkept.traced, hkept.announces, fun v hv => ?_, fun hleft => ?_, fun hleft u hu => ?_⟩
    · obtain ⟨⟨m₀, hm₀, hp₀, hle₀⟩, hinserted⟩ := hkept.done v hv
      refine ⟨⟨m₀, hmem m₀ hm₀, hp₀, hle₀⟩, fun m' hm' hp hle i link row hlink hw hrow => ?_⟩
      rcases hdelivered m' hm' with hm' | rfl
      · exact hinserted m' hm' hp hle i link row hlink hw hrow
      · -- the new message is above all that was reported
        have := hascending m₀ hm₀ (hp₀.trans hp.symm)
        omega
    · have hfiled := hkept.filed hleft
      rw [hidle] at hfiled
      refine hfiled.deliver (n := m.offset) fun y hy => ?_
      obtain ⟨hp, rfl⟩ := offs_rowsFor hy
      refine ⟨rfl, fun x hx => ?_⟩
      obtain ⟨m₀, hm₀, hp₀, rfl⟩ := hknown hleft x hx
      exact hascending m₀ hm₀ (hp₀.trans hp.symm)
    · have hcases : (u ∈ (G w p).pushed ∨
          u ∈ waiting p (s.writers w).writer.nextTaskStack
            (offs p ((s.writers w).writer.comingRows []))) ∨
          u ∈ offs p (m.rowsFor w 0 chain) := by
        rcases hu with hu | hu
        · exact .inl (.inl hu)
        · simp only [hnext, waiting, DatabaseWriter.comingRows, offs_append, List.mem_append,
            List.append_nil] at hu ⊢
          tauto
      rcases hcases with hu | hu
      · obtain ⟨m₀, hm₀, hp₀, rfl⟩ := hknown hleft u hu
        exact ⟨m₀, hmem m₀ hm₀, hp₀, rfl⟩
      · obtain ⟨hp, rfl⟩ := offs_rowsFor hu
        exact ⟨m, by simp [hs'], hp, rfl⟩
  · intro tplist htplist p c hc
    obtain ⟨⟨m₀, hm₀, hp₀, hle₀⟩, hinserted⟩ := h.committed tplist htplist p c hc
    refine ⟨⟨m₀, hmem m₀ hm₀, hp₀, hle₀⟩, fun m' hm' hp hlt i link row hlink hrow => ?_⟩
    rcases hdelivered m' hm' with hm' | rfl
    · exact hinserted m' hm' hp hlt i link row hlink hrow
    · have := hascending m₀ hm₀ (hp₀.trans hp.symm)
      omega

/-- A step to the next handler, or past the last one, that appends nothing. -/
theorem Safe.pass (h : Safe config chain s G) {handling : Option (TopicMessage M × ℕ)}
    (hnext : ∀ w, ({ s with handling } : Persistor M T).nextRows chain w = s.nextRows chain w) :
    Safe config chain { s with handling } G := by
  refine ⟨h.ok, ?_, fun w p => ?_, h.behind, h.tracked, ?_⟩
  · exact h.located.grows rfl (fun _ => List.Subset.refl _) hnext
  · exact (h.kept w p).frame rfl rfl (hnext w)
  · intro tplist htplist p c hc
    exact (h.committed tplist htplist p c hc).grows rfl fun _ => List.Subset.refl _

/-- The rows that are next, from the handler on that is next. -/
theorem nextRows_handling (hhandling : s.handling = some (m, i)) (hlink : chain[i]? = some link)
    (w : ℕ) :
    s.nextRows chain w =
      (if link.writer = w then ((link.into m.message).map (m.rowOf i)).toList else []) ++
      ({ s with handling := some (m, i + 1) } : Persistor M T).nextRows chain w := by
  obtain ⟨hi, rfl⟩ := List.getElem?_eq_some_iff.1 hlink
  unfold nextRows
  rw [hhandling]
  show m.rowsFor w i (chain.drop i) = _
  rw [List.drop_eq_getElem_cons hi]
  rfl

/-- **A row is appended**: it was next, and is in the channel. -/
theorem Safe.append {W : Writing (MessageRow T)}
    {ch : Channel (WriterMsg (MessageRow T)) channelLimit}
    (h : Safe config chain s G) (hhandling : s.handling = some (m, i))
    (hlink : chain[i]? = some link) (hrow : link.into m.message = some row)
    (hstep : WStep config (s.writers link.writer) (.append (m.rowOf i row) (some m.notification)) W)
    (hq : ch.queue = (s.writers link.writer).writer.ctrlChn.queue ++
      [.data (m.rowOf i row) (some m.notification)])
    (hW : W = { s.writers link.writer with
      writer := { (s.writers link.writer).writer with ctrlChn := ch }
      accepted := (s.writers link.writer).accepted ++ [m.rowOf i row] }) :
    Safe config chain
      (({ s with handling := some (m, i + 1) } : Persistor M T).withWriter link.writer W) G := by
  set s' : Persistor M T :=
    ({ s with handling := some (m, i + 1) } : Persistor M T).withWriter link.writer W with hs'
  have hsame : s'.writers link.writer = W := withWriter_self _ _ _
  have hother : ∀ w ≠ link.writer, s'.writers w = s.writers w := fun w hw => withWriter_other _ _ hw
  -- the row leaves the rows to come and enters the writer
  have hnext : s.nextRows chain link.writer = m.rowOf i row :: s'.nextRows chain link.writer := by
    rw [nextRows_handling hhandling hlink, if_pos rfl, hrow]
    rfl
  have hnextOther : ∀ w ≠ link.writer, s'.nextRows chain w = s.nextRows chain w := by
    intro w hw
    rw [nextRows_handling hhandling hlink, if_neg (Ne.symm hw)]
    rfl
  have hinserted : ∀ w, (s'.writers w).inserted = (s.writers w).inserted := by
    intro w
    by_cases hw : w = link.writer
    · rw [hw, hsame, hW]
    · rw [hother w hw]
  refine ⟨fun w => ?_, ?_, fun w p => ?_, h.behind, h.tracked, ?_⟩
  · by_cases hw : w = link.writer
    · rw [hw, hsame]
      exact hstep.ok (h.ok _)
    · rw [hother w hw]
      exact h.ok w
  · intro m' hm' j link' row' hlink' hrow'
    -- a row made later is behind it, one made earlier is where it was
    have hwas := h.located m' hm' j link' row' hlink' hrow'
    by_cases hw : link'.writer = link.writer
    · rw [hw] at hwas ⊢
      rw [hsame, hW]
      rcases hwas with hacc | hmem
      · exact .inl (List.mem_append_left _ hacc)
      · rw [hnext] at hmem
        rcases List.mem_cons.1 hmem with heq | hmem
        · rw [heq]
          exact .inl (by simp)
        · exact .inr hmem
    · rw [hother _ hw, hnextOther _ hw]
      exact hwas
  · by_cases hw : w = link.writer
    · subst hw
      have hkept := h.kept link.writer p
      have hsent : (s'.writers link.writer).writer.sent =
          (s.writers link.writer).writer.sent ++ [(m.rowOf i row, some m.notification)] := by
        rw [hsame, hW]
        simp only [DatabaseWriter.sent, hq, List.filterMap_append, List.filterMap_cons,
          List.filterMap_nil]
      have hcoming : (s'.writers link.writer).writer.comingRows (s'.nextRows chain link.writer) =
          (s.writers link.writer).writer.comingRows (s.nextRows chain link.writer) := by
        rw [DatabaseWriter.comingRows, hsent, hnext, DatabaseWriter.comingRows, List.map_append,
          List.append_assoc]
        rfl
      have hlive : (s'.writers link.writer).writer.live = (s.writers link.writer).writer.live := by
        rw [hsame, hW]
        exact live_append_data ch hq
      have hfields : (s'.writers link.writer).writer.left = (s.writers link.writer).writer.left ∧
          (s'.writers link.writer).writer.notifyTracing =
          (s.writers link.writer).writer.notifyTracing ∧
          (s'.writers link.writer).writer.nextTaskStack =
          (s.writers link.writer).writer.nextTaskStack ∧
          (s'.writers link.writer).writer.completeNotify =
          (s.writers link.writer).writer.completeNotify := by
        rw [hsame, hW]
        exact ⟨rfl, rfl, rfl, rfl⟩
      obtain ⟨hleft, htracing, hstack, hnotify⟩ := hfields
      refine ⟨hkept.traced, fun v hv => hkept.announces v (hnotify ▸ hv), fun v hv => ?_,
        fun hrunning => ?_, ?_⟩
      · exact (hkept.done v hv).grows rfl (by rw [hinserted]; exact List.Subset.refl _)
      · refine (hkept.filed (hleft ▸ hrunning)).same htracing hstack hcoming (fun e he => ?_) hlive
        rw [hsent] at he
        rcases List.mem_append.1 he with he | he
        · exact .inl he
        · rw [List.mem_singleton.1 he]
          exact .inr rfl
      · rw [hleft, hstack, hcoming]
        exact hkept.known
    · exact (h.kept w p).frame rfl (hother w hw) (hnextOther w hw)
  · intro tplist htplist p c hc
    refine (h.committed tplist htplist p c hc).grows rfl fun w => ?_
    rw [hinserted]
    exact List.Subset.refl _

/-- **A handler is run**, and finds room. -/
theorem Safe.handle (h : Safe config chain s G) (horderly : s.Orderly chain .handle)
    (hstep : s.step config chain .handle = some s') : Safe config chain s' G := by
  cases hhandling : s.handling with
  | none => simp [step, hhandling] at hstep
  | some at_ =>
    obtain ⟨m, i⟩ := at_
    simp only [step, hhandling] at hstep
    cases hlink : chain[i]? with
    | none =>
      rw [hlink] at hstep
      obtain rfl := Option.some.inj hstep
      refine h.pass fun w => ?_
      unfold nextRows
      rw [hhandling]
      simp only [List.drop_eq_nil_of_le (List.getElem?_eq_none_iff.1 hlink), TopicMessage.rowsFor]
    | some link =>
      simp only [hlink] at hstep
      cases hrow : link.into m.message with
      | none =>
        rw [hrow] at hstep
        obtain rfl := Option.some.inj hstep
        refine h.pass fun w => ?_
        rw [nextRows_handling hhandling hlink, hrow]
        simp
      | some row =>
        simp only [hrow] at hstep
        obtain ⟨W, hW, rfl⟩ := Option.map_eq_some_iff.1 hstep
        simp only [Orderly, hhandling, hlink, Option.mem_def, Option.some.injEq, forall_eq', hrow,
          Option.isSome_some,
          forall_const] at horderly
        obtain ⟨hrunning, hroom⟩ := horderly
        have hcases := Writing.step_cases hW
        generalize hwas : s.writers link.writer = V at hcases
        cases hcases with
        | accept _ hq =>
          subst hwas
          exact h.append hhandling hlink hrow (Writing.step_cases hW) hq rfl
        | refuse hrefused =>
          -- there is room, so the row is not refused
          subst hwas
          simp [DatabaseWriter.appendWithNotify, hrunning, Channel.trySend, hroom] at hrefused

/-! ## Commits -/

/-- **What all writers announced last is done with**, up to the least offset. -/
theorem Safe.committedTo (h : Safe config chain s G) {n v : ℕ} {lat : ℕ → Option ℕ}
    (hn : n + 1 = chain.length)
    (hlat : ∀ i a, lat i = some a → ∃ link, chain[i]? = some link ∧ a ∈ (G link.writer p).reports)
    (hlowest : lowest n lat = some v) : s.CommittedTo chain p (v + 1) := by
  obtain ⟨hall, -, hleast⟩ := lowest_eq_some.1 hlowest
  have hdone : ∀ i ≤ n, ∃ link a, chain[i]? = some link ∧ v ≤ a ∧
      s.DoneTo chain link.writer p a := by
    intro i hi
    obtain ⟨a, ha⟩ := Option.isSome_iff_exists.1 (hall i hi)
    obtain ⟨link, hlink, hmem⟩ := hlat i a ha
    exact ⟨link, a, hlink, hleast ⟨i, hi, ha⟩, (h.kept link.writer p).done a hmem⟩
  refine ⟨?_, fun m hm hp hlt i link row hlink hrow => ?_⟩
  · obtain ⟨link, a, -, hva, ⟨m, hm, hp, ham⟩, -⟩ := hdone 0 (Nat.zero_le n)
    exact ⟨m, hm, hp, by omega⟩
  · obtain ⟨hi, -⟩ := List.getElem?_eq_some_iff.1 hlink
    obtain ⟨link', a, hlink', hva, -, hinserted⟩ := hdone i (by omega)
    obtain rfl : link = link' := Option.some.inj (hlink.symm.trans hlink')
    exact hinserted m hm hp (by omega) i link row hlink rfl hrow

/-- **A listener has seen a change**, and the offsets behind all are committed. -/
theorem Safe.changed {version : ℕ} (h : Safe config chain s G)
    (hstep : s.step config chain (.changed i version) = some s') : Safe config chain s' G := by
  simp only [step] at hstep
  cases hlink : chain[i]? with
  | none =>
    rw [hlink] at hstep
    cases hstep
  | some link =>
    simp only [hlink] at hstep
    split at hstep
    · obtain rfl := Option.some.inj hstep
      set flag : TaskNotifyFlag := (s.writers link.writer).writer.completeNotify.value
      have hi : i ≤ s.tracker.behind := by
        obtain ⟨hi, -⟩ := List.getElem?_eq_some_iff.1 hlink
        have := h.behind
        omega
      have htracked : ∀ p, ∃ lat, (s.tracker.changed i flag).2.Tracks p lat ∧
          (∀ i a, lat i = some a → ∃ link, chain[i]? = some link ∧ a ∈ (G link.writer p).reports) ∧
          ∀ v, ((s.tracker.changed i flag).1.bind fun ret => ret.find? p) = some v →
            lowest s.tracker.behind lat = some v := by
        intro p
        obtain ⟨lat, htracks, hlat⟩ := h.tracked p
        have hreported : ∀ v, flag.find? p = some v → (G link.writer p).reports.getLast? = some v :=
          (h.kept link.writer p).announces
        -- a writer tells ascending offsets, so the last told is above the one it is tracked with
        have hlater : ∀ v a, flag.find? p = some v → lat i = some a → a ≤ v := by
          intro v a hv ha
          obtain ⟨link', hlink', hmem⟩ := hlat i a ha
          obtain rfl : link = link' := Option.some.inj (hlink.symm.trans hlink')
          obtain ⟨before, hbefore⟩ := List.getLast?_eq_some_iff.1 (hreported v hv)
          have hascending := (h.kept link.writer p).traced.reports
          rw [hbefore] at hmem hascending
          rcases List.mem_append.1 hmem with hmem | hmem
          · exact ((List.pairwise_append.1 hascending).2.2 a hmem v (by simp)).le
          · exact (List.mem_singleton.1 hmem).le
        obtain ⟨htracks', htold⟩ := htracks.changed hi hlater
        refine ⟨_, htracks', fun j a ha => ?_, fun v hv => ?_⟩
        · unfold announce at ha
          by_cases hj : j = i
          · subst hj
            rw [Function.update_self] at ha
            cases hv : flag.find? p with
            | none =>
              rw [hv, Option.none_or] at ha
              exact hlat j a ha
            | some v =>
              rw [hv, Option.some_or] at ha
              obtain rfl := Option.some.inj ha
              exact ⟨link, hlink, List.mem_of_getLast? (hreported v hv)⟩
          · rw [Function.update_of_ne hj] at ha
            exact hlat j a ha
        · rw [← htold, hv, Option.some_or]
      refine ⟨h.ok, h.located.grows rfl (fun _ => List.Subset.refl _) fun _ => rfl,
        fun w p => (h.kept w p).frame rfl rfl rfl, ?_, fun p => ?_, ?_⟩
      · show (s.tracker.changed i flag).2.behind + 1 = _
        rw [changed_behind]
        exact h.behind
      · obtain ⟨lat, htracks, hlat, -⟩ := htracked p
        exact ⟨lat, htracks, hlat⟩
      · intro tplist htplist p c hc
        show s.CommittedTo chain p c
        rcases List.mem_append.1 htplist with hmem | hmem
        · exact h.committed tplist hmem p c hc
        · obtain ⟨ret, hret, rfl⟩ := Option.map_eq_some_iff.1 (Option.mem_toList.1 hmem)
          rw [find?_mapValues] at hc
          obtain ⟨v, hv, rfl⟩ := Option.map_eq_some_iff.1 hc
          obtain ⟨lat, -, hlat, htold⟩ := htracked p
          refine h.committedTo h.behind hlat (htold v ?_)
          rw [hret, Option.bind_some, hv]
    · cases hstep

/-! ## Runs -/

theorem Safe.start (hlimit : 0 ≤ config.spawnLimit) (hs : start chain = some s) :
    Safe config chain s fun _ _ => Progress.start := by
  obtain ⟨tracker, htracker, rfl⟩ := Option.map_eq_some_iff.1 hs
  refine ⟨fun w => Writing.Runs.ok hlimit (P := fun _ _ => True) .start, ?_, fun w p => ?_,
    (getTracker_tracks (p := 0) htracker).1, fun p => ⟨_, (getTracker_tracks htracker).2, ?_⟩, ?_⟩
  · intro m hm
    cases hm
  · refine ⟨.start, fun v hv => ?_, fun v hv => (by cases hv), fun _ => ?_, fun _ u hu => ?_⟩
    · exact absurd (hv.symm.trans (find?_empty p)) (by simp)
    · refine ⟨.start, ?_, rfl, ?_, fun task htask => (by cases htask), ?_,
        fun u hu => (by cases hu), fun e he => (by cases he)⟩
      · show ((∅ : ProgTracing).find? p).getD [] = []
        rw [find?_empty]
        rfl
      · intro task htask
        exact absurd htask (Multiset.notMem_zero task)
      · exact ⟨.nil, fun task htask => (by cases htask), fun task htask => (by cases htask), .nil⟩
    · rcases hu with hu | hu <;> cases hu
  · intro i a ha
    cases ha
  · intro tplist htplist
    cases htplist

/-- **An orderly step keeps the invariant.** -/
theorem Safe.step {a : PersistorAction M T} (h : Safe config chain s G)
    (horderly : s.Orderly chain a) (hstep : s.step config chain a = some s') :
    ∃ G', Safe config chain s' G' := by
  cases a with
  | deliver m =>
    simp only [Persistor.step] at hstep
    split at hstep
    · rename_i hguard
      obtain rfl := Option.some.inj hstep
      exact ⟨G, h.deliver (Option.isNone_iff_eq_none.1 hguard.1) hguard.2⟩
    · cases hstep
  | handle => exact ⟨G, h.handle horderly hstep⟩
  | write w a =>
    cases a with
    | append => cases hstep
    | _ =>
      obtain ⟨W, hW, rfl⟩ := Option.map_eq_some_iff.1 hstep
      exact h.write (Writing.step_cases hW) (by simp) horderly
  | changed i version => exact ⟨G, h.changed hstep⟩

/-- A greater limit of tasks forbids no step. -/
theorem step_relax {config' : DatabaseWriterConfig} {a : PersistorAction M T}
    (hle : config.spawnLimit ≤ config'.spawnLimit) (h : s.step config chain a = some s') :
    s.step config' chain a = some s' := by
  cases a with
  | write w a =>
    cases a with
    | acquire =>
      obtain ⟨W, hW, rfl⟩ := Option.map_eq_some_iff.1 h
      refine Option.map_eq_some_iff.2 ⟨W, ?_, rfl⟩
      cases Writing.step_cases hW with
      | retry hleft herr => simp [Writing.step, hleft, DatabaseWriter.acquire, popBack, herr]
      | @spawn task rest hleft herr hstack hlimit =>
        have hfailed : popBack (s.writers w).writer.errorTaskStack = none := by rw [herr]; rfl
        have hnext : popBack (s.writers w).writer.nextTaskStack = some (task, rest) := by
          rw [hstack]
          simp [popBack]
        have hacquire :
            (s.writers w).writer.acquire config' =
            some ((s.writers w).writer.spawned task rest) := by
          unfold DatabaseWriter.acquire
          rw [hfailed, hnext]
          exact if_pos (hlimit.trans_le hle)
        simp only [Writing.step, hleft, hacquire, Bool.false_eq_true, if_false, Option.map_some]
    | _ => exact h
  | _ => exact h

/-- **In a run of orderly steps no commit loses a message**: each message behind a committed offset
has its rows inserted, by every writer of the chain. -/
theorem runs_nothingLost {s₀ : Persistor M T} (hs : start chain = some s₀)
    (h : Guarded.Runs (Persistor.step config chain) (Orderly chain) s₀ s) :
    s.NothingLost chain := by
  -- a limit below zero is as good as zero
  let config' : DatabaseWriterConfig := { config with spawnLimit := max 0 config.spawnLimit }
  have hsafe : ∃ G, Safe config' chain s G := by
    refine Guarded.Runs.rule (I := fun s => ∃ G, Safe config' chain s G) ?_ ⟨_,
      Safe.start (le_max_left _ _) hs⟩ h
    rintro s a s' ⟨G, hG⟩ horderly hstep
    exact hG.step horderly (step_relax (le_max_right _ _) hstep)
  obtain ⟨G, hG⟩ := hsafe
  exact hG.nothingLost

end Persistor

/-! ### Trades -/

/-- A trade of the ask 1 with the bid 2. -/
def persistedTrade : Trade :=
  let state : VerboseTradeState := { orderStates := [], balanceStates := [] }
  { id := 1, timestamp := 0, market := "ETH_USDT", base := "ETH", quote := "USDT", price := 100,
    amount := 1,
    quoteAmount := 100, askUserId := alice, askOrderId := 1, askRole := .maker, askFee := 0,
    bidUserId := bob,
    bidOrderId := 2, bidRole := .taker, bidFee := 0, askOrder := none, bidOrder := none,
    stateBefore := state, stateAfter := state }

def persistedMessage : TopicMessage Trade :=
  { partition := 0, offset := 0, message := persistedTrade }

/-- A writer that has taken a task runs it and hears of it. -/
def writesOut (w : ℕ) (before : List (PersistorAction Trade TradeRow)) :
    List (PersistorAction Trade TradeRow) :=
  [.write w (.statement 0 true), .write w (.report 0)] ++ before ++ [.write w .recv]

/-- The listeners see what the writers are done with. -/
def listens : List (PersistorAction Trade TradeRow) := [.changed 0 1, .changed 1 1, .changed 2 1]

/-- Both rows of the user trades are in one task. -/
def persistsTrade : List (PersistorAction Trade TradeRow) :=
  [.deliver persistedMessage, .handle, .handle, .handle, .handle, .write 1 .recv, .write 1 .recv,
    .write 1 .acquire] ++
    writesOut 1 [] ++ [.write 0 .recv, .write 0 .acquire] ++ writesOut 0 [] ++ listens

/-- The task is spawned before the second one has come. -/
def losesTrade : List (PersistorAction Trade TradeRow) :=
  [.deliver persistedMessage, .handle, .write 1 .recv, .write 1 .acquire, .handle, .handle,
    .handle] ++
    writesOut 1 [.write 1 .recv] ++ [.write 0 .recv, .write 0 .acquire] ++ writesOut 0 [] ++ listens

theorem Persistor.runs_nothingLost_trade :
    ∃ s₀ s : Persistor Trade TradeRow, Persistor.start tradeCfg = some s₀ ∧
    Guarded.Runs (Persistor.step sampleWriterConfig tradeCfg) (Persistor.Orderly tradeCfg) s₀ s ∧
    s.commits.map (fun tplist => tplist.find? 0) = [some 1] ∧ s.NothingLost tradeCfg := by
  have h : ((Persistor.start tradeCfg).bind fun s₀ =>
      (Guarded.obey (Persistor.step sampleWriterConfig tradeCfg) (Persistor.Orderly tradeCfg) s₀
        persistsTrade).map
        fun s => s.commits.map fun tplist => tplist.find? 0) = some [some 1] := by decide +kernel
  obtain ⟨s₀, hs, h⟩ := Option.bind_eq_some_iff.1 h
  obtain ⟨s, hrun, hcommits⟩ := Option.map_eq_some_iff.1 h
  have hruns := Guarded.obey_runs hrun
  exact ⟨s₀, s, hs, hruns, hcommits, Persistor.runs_nothingLost hs hruns⟩

theorem Persistor.not_nothingLost :
    ¬ ∀ s₀ s : Persistor Trade TradeRow, Persistor.start tradeCfg = some s₀ →
    Guarded.Runs (Persistor.step sampleWriterConfig tradeCfg) (fun _ _ => True) s₀ s →
    s.NothingLost tradeCfg := by
  intro hall
  have h : ((Persistor.start tradeCfg).bind fun s₀ =>
      (Guarded.follow (Persistor.step sampleWriterConfig tradeCfg) s₀ losesTrade).map fun s =>
        (s.commits.map fun tplist => tplist.find? 0, s.delivered, (s.writers 1).inserted)) =
      some ([some 1], [persistedMessage],
        (BidTrade.into persistedTrade).toList.map fun row =>
        persistedMessage.rowOf 0 (TradeRow.userTrade row)) := by decide +kernel
  obtain ⟨s₀, hs, h⟩ := Option.bind_eq_some_iff.1 h
  obtain ⟨s, hrun, hstate⟩ := Option.map_eq_some_iff.1 h
  simp only [Prod.mk.injEq] at hstate
  obtain ⟨hcommits, hdelivered, hinserted⟩ := hstate
  have hruns := Guarded.follow_runs (P := fun _ _ => True) (fun _ _ _ => trivial) hrun
  obtain ⟨tplist, htplist, hfind⟩ : ∃ tplist ∈ s.commits, tplist.find? 0 = some 1 := by
    refine List.mem_map.1 ?_
    rw [hcommits]
    simp
  -- the row of the ask is behind the commit
  have hrow := hall s₀ s hs hruns tplist htplist 0 1 hfind persistedMessage
    (by rw [hdelivered]; simp) rfl Nat.zero_lt_one 1
    _ _ rfl rfl
  change _ ∈ (s.writers 1).inserted at hrow
  rw [hinserted] at hrow
  simp [BidTrade.into, TopicMessage.rowOf] at hrow

end Dingir
