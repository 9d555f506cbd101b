import Dingir.Proof.Story
import Dingir.Proof.Recovery
import Dingir.Proof.Conservation

/-!
# The engine tells its book

Each step of a market at work hands the persistor messages that the story so far
admits, and after it the story tells the orders open at the desk: **`Step.told`**.
From there up to a market move, a call (`call_told`) and the history of a state
(`History.told`). A call that is replayed changes the book as its real twin does.
-/

namespace Dingir

open Keyed Outcome Market Stream

variable {E : Env} {settings : Settings} {now : Timestamp} {real : Bool} {u : Uuid} {w : Prop}
  {A : Market → Ctx → OrderInput → Prop} {b c c' : Controller} {d d' : Desk}
  {others : ℕ → Option Order} {s : Story} {ms : List Message} {o : Order}

/-! ## A desk and its story -/

/-- The orders open at a desk: those that rest, and the one being put. -/
def Desk.opened (d : Desk) (id : ℕ) : Option Order :=
  match d.taking with
  | some k => if k.order.id = id then some k.order else d.market.resting id
  | none => d.market.resting id

/-- The story tells the orders open at the desk, and `others`. -/
structure Desk.Told (d : Desk) (others : ℕ → Option Order) (s : Story) : Prop where
  last : s.last = d.ctx.sequencer.orderId
  book : ∀ id, s.book id = ((d.opened id).map Order.told).or (others id)
  apart : ∀ id, (others id).isSome → d.opened id = none ∧ id ≤ d.ctx.sequencer.orderId

theorem Desk.Told.tells (h : d.Told others s) {id : ℕ}
    (ho : d.opened id = some o) : s.book id = some o.told := by
  rw [h.book, ho]
  rfl

/-- The order being put does not rest. -/
theorem Taking.OK.notResting {k : Taking} {m : Market} {orderId : ℕ} (h : k.OK m orderId) :
    m.resting k.order.id = none := by
  cases hr : m.resting k.order.id with
  | none => rfl
  | some o =>
    have hlt := h.fresh _ o hr
    have hid := h.id
    omega

/-- A message about a balance leaves the story as it is. -/
theorem Story.balance {m : Message} (h : m.isBalance = true) :
    Story.rules.admits s m ∧ Story.rules.apply s m = s := by
  cases m with
  | orderMessage _ => simp [Message.isBalance] at h
  | tradeMessage _ => simp [Message.isBalance] at h
  | _ => exact ⟨trivial, rfl⟩

/-- Messages about balances leave the story as it is. -/
theorem Story.balances {bs : List Message} (h : ∀ m ∈ bs, m.isBalance = true) :
    Coherent Story.rules s bs ∧ after Story.rules s bs = s :=
  Stream.idle fun m hm => Story.balance (h m hm)

/-- An open order is finished: it leaves the desk and the story. -/
theorem Desk.Told.finish (h : d.Told others s) (ho : d.opened o.id = some o)
    (hd' : ∀ id, d'.opened id = if o.id = id then none else d.opened id)
    (hlast : d'.ctx.sequencer.orderId = d.ctx.sequencer.orderId) :
    Coherent Story.rules s [.orderMessage (.fromOrder o .finish)] ∧
      d'.Told others (after Story.rules s [.orderMessage (.fromOrder o .finish)]) := by
  refine ⟨⟨h.tells ho, trivial⟩, h.last.trans hlast.symm, fun id => ?_, fun id hid => ?_⟩
  · show (if id = o.id then none else s.book id) = _
    rw [hd']
    by_cases hne : o.id = id
    · subst hne
      have hnone : others o.id = none := by
        rw [← Option.not_isSome_iff_eq_none]
        intro hsome
        simp [(h.apart _ hsome).1] at ho
      simp [hnone]
    · rw [if_neg (Ne.symm hne), if_neg hne, h.book]
  · obtain ⟨hnone, hle⟩ := h.apart id hid
    refine ⟨?_, hlast ▸ hle⟩
    rw [hd', hnone, ite_self]

/-! ## The steps -/

variable {m m' : Market} {x x' : Ctx} {k : Taking} {rc : OrderRc} {t : Trade}

/-- An accepted order is put with the next id. -/
theorem Desk.Told.accept {input : OrderInput} {ql : Decimal} {pe : PersistExector}
    (h : Desk.Told ⟨m, x, none⟩ others s) :
    let o := m.newOrder (x.sequencer.orderId + 1) now input u
    Coherent Story.rules s [.orderMessage (.fromOrder o .put)] ∧
      Desk.Told ⟨m, { x with sequencer := x.sequencer.nextOrderId.2, persistor := pe },
        some ⟨o, ql, 0⟩⟩ others (after Story.rules s [.orderMessage (.fromOrder o .put)]) := by
  intro o
  have hlast : s.last = x.sequencer.orderId := h.last
  have hid : o.id = x.sequencer.orderId + 1 := rfl
  refine ⟨⟨⟨hid.trans (congrArg (· + 1) hlast).symm, rfl, rfl, rfl, rfl⟩, trivial⟩, rfl,
    fun id => ?_, fun id hsome => ?_⟩
  · show (if id = o.id then some { o.told with remain := o.amount } else s.book id) =
      ((if o.id = id then some o else m.resting id).map Order.told).or (others id)
    by_cases hnew : o.id = id
    · rw [if_pos hnew.symm, if_pos hnew]
      rfl
    · rw [if_neg (Ne.symm hnew), if_neg hnew]
      exact h.book id
  · obtain ⟨hnone, hle⟩ := h.apart id hsome
    have hle : id ≤ x.sequencer.orderId := hle
    refine ⟨?_, ?_⟩
    · show (if o.id = id then some o else m.resting id) = none
      rw [if_neg (by omega)]
      exact hnone
    · show id ≤ x.sequencer.orderId + 1
      omega

/-- A trade names its taker and its maker. -/
theorem Trades.names_iff (ht : Trades now m x k rc t m' x') (id : ℕ) :
    t.askOrderId = id ∨ t.bidOrderId = id ↔ k.order.id = id ∨ (m.rcs.read rc).id = id := by
  rw [ht.askOrder, ht.bidOrder]
  unfold askOf bidOf
  split
  · exact Iff.rfl
  · exact Or.comm

/-- The fees of the taker and of the maker. -/
theorem Trades.feeOf (ht : Trades now m x k rc t m' x') (hne : k.order.id ≠ (m.rcs.read rc).id) :
    t.feeOf k.order.id = (if k.order.isAsk then t.askFee else t.bidFee) ∧
      t.feeOf (m.rcs.read rc).id = if k.order.isAsk then t.bidFee else t.askFee := by
  unfold Trade.feeOf
  rw [ht.askOrder]
  unfold askOf
  by_cases hside : k.order.isAsk = true
  · rw [if_pos hside, if_pos hside, if_pos hside, if_pos rfl, if_neg hne]
    exact ⟨rfl, rfl⟩
  · rw [if_neg hside, if_neg hside, if_neg hside, if_pos rfl, if_neg (Ne.symm hne)]
    exact ⟨rfl, rfl⟩

/-- The order being put is not its own maker. -/
theorem Meets.ids_ne (hmeet : Meets m k rc) (hd : DeskOK ⟨m, x, some k⟩) :
    k.order.id ≠ (m.rcs.read rc).id := by
  intro he
  have hnone := (hd.taking k rfl).notResting
  rw [he, hmeet.resting] at hnone
  exact absurd hnone (by simp)

/-- The orders open after a trade. -/
theorem Trades.opened (hd : DeskOK ⟨m, x, some k⟩) (hmeet : Meets m k rc)
    (ht : Trades now m x k rc t m' x') (id : ℕ) :
    Desk.opened ⟨m', x', some (filledTaking now k t)⟩ id =
      if k.order.id = id then some (filledTaking now k t).order
      else if (m.rcs.read rc).id = id then some (filledMaker now k.order.isAsk (m.rcs.read rc) t)
        else m.resting id := by
  show (if k.order.id = id then some (filledTaking now k t).order else m'.resting id) = _
  rw [ht.resting hmeet hd.index]

/-- A trade is between two open orders, and carries them as they are told. -/
theorem Desk.Told.admitsTrade (hd : DeskOK ⟨m, x, some k⟩) (hmeet : Meets m k rc)
    (ht : Trades now m x k rc t m' x')
    (h : Desk.Told ⟨m, x, some k⟩ others s) : s.AdmitsTrade t := by
  have hne := hmeet.ids_ne hd
  have htaker : s.book k.order.id = some k.order.told := h.tells (if_pos rfl)
  have hmaker : s.book (m.rcs.read rc).id = some (m.rcs.read rc).told :=
    h.tells ((if_neg hne).trans hmeet.resting)
  have hsides :
      s.book (askOf k.order (m.rcs.read rc)).id = some (askOf k.order (m.rcs.read rc)).told ∧
      s.book (bidOf k.order (m.rcs.read rc)).id = some (bidOf k.order (m.rcs.read rc)).told := by
    unfold askOf bidOf
    split
    · exact ⟨htaker, hmaker⟩
    · exact ⟨hmaker, htaker⟩
  have hcarried : ∀ {p q : Order}, q = p.touched now → s.book p.id = some p.told → q.id = p.id ∧
      s.book q.id = some q.told := by
    rintro p q rfl hp
    exact ⟨rfl, hp⟩
  refine ⟨?_, ?_, ?_, fun o ho => ?_, fun o ho => ?_⟩
  · rw [ht.askOrder, hsides.1]; rfl
  · rw [ht.bidOrder, hsides.2]; rfl
  · rw [ht.askOrder, ht.bidOrder]
    unfold askOf bidOf
    split
    · exact hne
    · exact hne.symm
  · rw [ht.askOrder]
    exact hcarried (ht.askCarried o ho) hsides.1
  · rw [ht.bidOrder]
    exact hcarried (ht.bidCarried o ho) hsides.2

/-- **A trade fills both orders of the desk and those of the story alike.** -/
theorem Desk.Told.trade (hd : DeskOK ⟨m, x, some k⟩) (hmeet : Meets m k rc)
    (ht : Trades now m x k rc t m' x') (h : Desk.Told ⟨m, x, some k⟩ others s) :
    Desk.Told ⟨m', x', some (filledTaking now k t)⟩ others (s.applyTrade t) := by
  have hne := hmeet.ids_ne hd
  have hseq : x'.sequencer.orderId = x.sequencer.orderId := by rw [ht.sequencer]
  obtain ⟨htakerFee, hmakerFee⟩ := ht.feeOf hne
  have hopened : ∀ id, Desk.opened ⟨m, x, some k⟩ id = if k.order.id = id then some k.order
      else m.resting id := fun _ => rfl
  refine ⟨h.last.trans hseq.symm, fun id => ?_, fun id hsome => ?_⟩
  · rw [Story.applyTrade_book, ht.opened hd hmeet, h.book, hopened]
    by_cases hidk : k.order.id = id
    · subst hidk
      rw [if_pos ((ht.names_iff _).2 (.inl rfl)), if_pos rfl, if_pos rfl, htakerFee]
      rfl
    · by_cases hidm : (m.rcs.read rc).id = id
      · subst hidm
        rw [if_pos ((ht.names_iff _).2 (.inr rfl)), if_neg hidk, if_neg hidk, if_pos rfl, hmakerFee,
          hmeet.resting]
        rfl
      · rw [if_neg fun hnames => ((ht.names_iff id).1 hnames).elim hidk hidm, if_neg hidk,
          if_neg hidk, if_neg hidm]
  · obtain ⟨hnone, hle⟩ := h.apart id hsome
    rw [hopened] at hnone
    refine ⟨?_, hseq ▸ hle⟩
    by_cases hidk : k.order.id = id
    · rw [if_pos hidk] at hnone
      simp at hnone
    · rw [if_neg hidk] at hnone
      have hidm : (m.rcs.read rc).id ≠ id := by
        rintro rfl
        rw [hmeet.resting] at hnone
        simp at hnone
      rw [ht.opened hd hmeet, if_neg hidk, if_neg hidm, hnone]

/-- What a trade tells is admitted, the update of the maker included. -/
theorem Desk.Told.tradeMessages (hd : DeskOK ⟨m, x, some k⟩) (hmeet : Meets m k rc)
    (ht : Trades now m x k rc t m' x') (h : Desk.Told ⟨m, x, some k⟩ others s) :
    Coherent Story.rules s (t.told (filledMaker now k.order.isAsk (m.rcs.read rc) t)) ∧
      Desk.Told ⟨m', x', some (filledTaking now k t)⟩ others
        (after Story.rules s (t.told (filledMaker now k.order.isAsk (m.rcs.read rc) t))) := by
  have hadmits := h.admitsTrade hd hmeet ht
  have htold := h.trade hd hmeet ht
  have hmaker : Desk.opened ⟨m', x', some (filledTaking now k t)⟩ (m.rcs.read rc).id =
      some (filledMaker now k.order.isAsk (m.rcs.read rc) t) := by
    rw [ht.opened hd hmeet, if_neg (hmeet.ids_ne hd), if_pos rfl]
  unfold Trade.told
  split
  · exact ⟨⟨hadmits, trivial⟩, htold⟩
  · exact ⟨⟨hadmits, htold.tells hmaker, trivial⟩, htold⟩

/-- **Each step tells what it does.** -/
theorem Step.told (h : Step E now u A d d') (hd : DeskOK d) (hp : d.ctx.persistor = .real ms)
    (ht : d.Told others s) :
    ∃ new, d'.ctx.persistor = .real (ms ++ new) ∧ Coherent Story.rules s new ∧
      d'.Told others (after Story.rules s new) := by
  cases h with
  | @accept m x input ql _ _ _ =>
    have hp : x.persistor = .real ms := hp
    refine ⟨[.orderMessage (.fromOrder (m.newOrder (x.sequencer.orderId + 1) now input u) .put)],
      ?_, ht.accept⟩
    show x.persistor.putOrder _ .put = _
    rw [hp]
    rfl
  | @trade m m' x x' k rc t hmeet htr =>
    obtain ⟨bs, hbs, hall, -⟩ := htr.messages ms hp
    -- first the balances, which tell nothing of orders, then the trade and the maker
    obtain ⟨hcoh, hafter⟩ := Story.balances (s := s) hall
    obtain ⟨hcoh', htold⟩ := ht.tradeMessages hd hmeet htr
    refine ⟨bs ++ t.told (filledMaker now k.order.isAsk (m.rcs.read rc) t), ?_, ?_, ?_⟩
    · rw [hbs, List.append_assoc]
    · rw [coherent_append, hafter]
      exact ⟨hcoh, hcoh'⟩
    · rw [after_append, hafter]
      exact htold
  | @finish m x k rc hrc hz =>
    have hp : x.persistor = .real ms := hp
    have hk := hd.taking k rfl
    have hrest : m.resting (m.rcs.read rc).id = some (m.rcs.read rc) :=
      resting_some.2 ⟨rc, hrc, rfl⟩
    -- the one being put is not at rest
    have hne : k.order.id ≠ (m.rcs.read rc).id := by
      intro he
      have hnone := hk.notResting
      rw [he, hrest] at hnone
      exact absurd hnone (by simp)
    refine ⟨[.orderMessage (.fromOrder (m.rcs.read rc) .finish)], ?_,
      ht.finish ((if_neg hne).trans hrest) (fun id => ?_) rfl⟩
    · show x.persistor.putOrder _ .finish = _
      rw [hp]
      rfl
    · show (if k.order.id = id then some k.order else (m.without (m.rcs.read rc)).resting id) =
        if (m.rcs.read rc).id = id then none else if k.order.id = id then some k.order
        else m.resting id
      rw [resting_without]
      by_cases hidk : k.order.id = id
      · rw [if_pos hidk, if_neg (fun he => hne (hidk.trans he.symm)), if_pos hidk]
      · rw [if_neg hidk, if_neg hidk]
  | @close m x k _ =>
    have hp : x.persistor = .real ms := hp
    have hk := hd.taking k rfl
    refine ⟨[.orderMessage (.fromOrder k.order .finish)], ?_,
      ht.finish (if_pos rfl) (fun id => ?_) rfl⟩
    · show x.persistor.putOrder _ .finish = _
      rw [hp]
      rfl
    · show m.resting id = if k.order.id = id then none else if k.order.id = id then some k.order
        else m.resting id
      by_cases hidk : k.order.id = id
      · rw [if_pos hidk, ← hidk]
        exact hk.notResting
      · rw [if_neg hidk, if_neg hidk]
  | @rest m x k bm _ _ _ _ _ =>
    have hp : x.persistor = .real ms := hp
    have hrested :
        ∀ id, Desk.opened ⟨m.withRest k.order.rested, { x with balanceManager := bm }, none⟩ id =
        if k.order.id = id then some k.order.rested else m.resting id :=
          fun id => resting_withRest hd.index id
    -- nothing is told: the order rests as it was told last
    refine ⟨[], by rw [List.append_nil]; exact hp, trivial, ht.last, fun id => ?_,
      fun id hsome => ?_⟩
    · rw [hrested]
      have hbook : s.book id =
          ((if k.order.id = id then some k.order else m.resting id).map Order.told).or
          (others id) :=
        ht.book id
      rw [after_nil, hbook]
      by_cases hidk : k.order.id = id
      · rw [if_pos hidk, if_pos hidk]
        rfl
      · rw [if_neg hidk, if_neg hidk]
    · obtain ⟨hnone, hle⟩ := ht.apart id hsome
      refine ⟨?_, hle⟩
      have hnone : (if k.order.id = id then some k.order else m.resting id) = none := hnone
      rw [hrested]
      split at hnone
      · simp at hnone
      · rw [if_neg ‹_›, hnone]
  | @cancel m x rc bm hrc _ _ =>
    have hp : x.persistor = .real ms := hp
    have hrest : m.resting (m.rcs.read rc).id = some (m.rcs.read rc) :=
      resting_some.2 ⟨rc, hrc, rfl⟩
    refine ⟨[.orderMessage (.fromOrder (m.rcs.read rc) .finish)], ?_,
      ht.finish hrest (fun id => resting_without id) rfl⟩
    show x.persistor.putOrder _ .finish = _
    rw [hp]
    rfl

/-- **A run of steps tells what it does.** -/
theorem Steps.told (h : Steps E now u A d d') (hd : DeskOK d) (hp : d.ctx.persistor = .real ms)
    (ht : d.Told others s) :
    ∃ new, d'.ctx.persistor = .real (ms ++ new) ∧ Coherent Story.rules s new ∧
      d'.Told others (after Story.rules s new) := by
  refine Steps.rule (P := fun a => ∃ new, a.ctx.persistor = .real (ms ++ new) ∧
    Coherent Story.rules s new ∧
    a.Told others (after Story.rules s new)) ?_ h hd ⟨[], by rw [List.append_nil]; exact hp,
    trivial, ht⟩
  rintro a b ha ⟨new, hpa, hcoh, hta⟩ hstep
  obtain ⟨new', hpb, hcoh', htb⟩ := hstep.told ha hpa hta
  refine ⟨new ++ new', by rw [hpb, List.append_assoc], coherent_append.2 ⟨hcoh, hcoh'⟩, ?_⟩
  rw [after_append]
  exact htb

end Dingir
