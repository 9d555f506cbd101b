import Dingir.Spec.Events

/-!
# What a coherent stream of messages says

Facts about a stream of messages that `Story.rules` admits, whoever wrote it.
`Story.OK` is what the story so far says: which ids were put, and how each open
order is filled. It holds along every coherent stream (`retold_ok`), and with it
the life of every order (`lifeCycle`) and the sums behind every order that a
message carries (`accounted_of_carried`).
-/

namespace Dingir

open Stream

variable {s : Story} {ms ms' : List Message} {m : Message} {o p : Order} {t : Trade} {id : ℕ}

/-! ## Parts of a stream -/

theorem tradesOf_append (id : ℕ) (ms ms' : List Message) :
    tradesOf id (ms ++ ms') = tradesOf id ms ++ tradesOf id ms' :=
  List.filterMap_append

theorem tradesOf_eq_nil (h : ∀ m ∈ ms, ¬ m.Names id) : tradesOf id ms = [] := by
  refine List.filterMap_eq_nil_iff.2 fun m hm => ?_
  have hno := h m hm
  cases m with
  | tradeMessage t => exact if_neg hno
  | _ => rfl

theorem tradesOf_trade (id : ℕ) (t : Trade) :
    tradesOf id [.tradeMessage t] = if t.askOrderId = id ∨ t.bidOrderId = id then [t] else [] := by
  unfold tradesOf
  split <;> rename_i h <;> simp [h]

theorem tradesOf_order (id : ℕ) (m : OrderMessage) : tradesOf id [.orderMessage m] = [] := rfl

theorem Order.SameTerms.told (o : Order) : o.told.SameTerms o :=
  ⟨rfl, rfl, rfl, rfl, rfl, rfl, rfl, rfl, rfl, rfl, rfl, rfl⟩

theorem Order.SameTerms.trans {q : Order} (h : o.SameTerms p)
    (h' : p.SameTerms q) : o.SameTerms q :=
  ⟨h.id.trans h'.id, h.base.trans h'.base, h.quote.trans h'.quote, h.market.trans h'.market,
    h.type_.trans h'.type_,
    h.side.trans h'.side, h.user.trans h'.user, h.postOnly.trans h'.postOnly,
    h.price.trans h'.price,
    h.amount.trans h'.amount, h.makerFee.trans h'.makerFee, h.takerFee.trans h'.takerFee⟩

/-- Two orders told alike are filled alike, on the same terms. -/
theorem Order.SameTerms.of_told (h : o.told = p.told) : o.SameTerms p := by
  have hfields := Order.mk.inj h
  obtain ⟨h₁, h₂, h₃, h₄, h₅, h₆, h₇, h₈, h₉, h₁₀, h₁₁, h₁₂, -⟩ := hfields
  exact ⟨h₁, h₂, h₃, h₄, h₅, h₆, h₇, h₈, h₉, h₁₀, h₁₁, h₁₂⟩

theorem Order.Sums.of_told {ts : List Trade} (h : o.told.Sums ts) : o.Sums ts :=
  ⟨h.remain, h.finishedBase, h.finishedQuote, h.finishedFee⟩

/-- An order told as an accounted one is accounted for. -/
theorem Order.Accounted.of_told (h : o.told.Accounted ms) : o.Accounted ms := by
  obtain ⟨hsums, m, hm, hput, hterms⟩ := h
  refine ⟨hsums.of_told, m, hm, hput, Order.SameTerms.trans ?_ hterms⟩
  exact ⟨rfl, rfl, rfl, rfl, rfl, rfl, rfl, rfl, rfl, rfl, rfl, rfl⟩

/-- The account of an order depends on what is told of it. -/
theorem Order.accounted_congr (h : o.told = p.told) : o.Accounted ms ↔ p.Accounted ms := by
  have hto : ∀ {q : Order}, q.Accounted ms → q.told.Accounted ms :=
    fun ⟨⟨h₁, h₂, h₃, h₄⟩, m, hm, hput, ht⟩ =>
    ⟨⟨h₁, h₂, h₃, h₄⟩, m, hm, hput, Order.SameTerms.trans (.told _) ht⟩
  constructor
  · intro ho
    have hp := hto ho
    rw [h] at hp
    exact hp.of_told
  · intro hp
    have ho := hto hp
    rw [← h] at ho
    exact ho.of_told

/-- Messages that do not name an order leave its account as it is. -/
theorem Order.Accounted.append (h : o.Accounted ms)
    (hno : ∀ m ∈ ms', ¬ m.Names o.id) : o.Accounted (ms ++ ms') := by
  obtain ⟨hsums, m, hm, hput, hterms⟩ := h
  refine ⟨?_, m, List.mem_append_left _ hm, hput, hterms⟩
  rw [tradesOf_append, tradesOf_eq_nil hno, List.append_nil]
  exact hsums

/-- A message about the order that is not a trade leaves its account as it is. -/
theorem Order.Accounted.order (h : o.Accounted ms) (m : OrderMessage) :
    o.Accounted (ms ++ [.orderMessage m]) := by
  obtain ⟨hsums, p, hp, hput, hterms⟩ := h
  refine ⟨?_, p, List.mem_append_left _ hp, hput, hterms⟩
  rw [tradesOf_append, tradesOf_order, List.append_nil]
  exact hsums

/-- One more trade of the order. -/
theorem Order.Accounted.trade (h : o.Accounted ms)
    (hnames : t.askOrderId = o.id ∨ t.bidOrderId = o.id) :
    (o.plusTrade t.amount t.quoteAmount (t.feeOf o.id)).Accounted (ms ++ [.tradeMessage t]) := by
  obtain ⟨hsums, p, hp, hput, hterms⟩ := h
  refine ⟨?_, p, List.mem_append_left _ hp, hput, ?_⟩
  · have htrades : tradesOf o.id (ms ++ [.tradeMessage t]) = tradesOf o.id ms ++ [t] := by
      rw [tradesOf_append, tradesOf_trade, if_pos hnames]
    show Order.Sums _ (tradesOf o.id _)
    rw [htrades]
    obtain ⟨hremain, hbase, hquote, hfee⟩ := hsums
    refine ⟨?_, ?_, ?_, ?_⟩
    · show o.remain - t.amount + (o.finishedBase + t.amount) = o.amount
      linarith
    · simp [Order.plusTrade, hbase]
    · simp [Order.plusTrade, hquote]
    · simp [Order.plusTrade, hfee]
  · exact ⟨hterms.id, hterms.base, hterms.quote, hterms.market, hterms.type_, hterms.side,
      hterms.user, hterms.postOnly,
      hterms.price, hterms.amount, hterms.makerFee, hterms.takerFee⟩

/-! ## The story so far -/

/-- **What the story of the messages `ms` says.** -/
structure Story.OK (ms : List Message) (s : Story) : Prop where
  issued : ∀ id, 0 < id → id ≤ s.last → ∃ m ∈ ms, m.Marks .put id
  named : ∀ m ∈ ms, ∀ id, m.Names id → 0 < id ∧ id ≤ s.last
  opened : ∀ id t, s.book id = some t → t.id = id ∧ id ≤ s.last ∧ t.Accounted ms
  closed : ∀ id, 0 < id → id ≤ s.last → s.book id = none → ∃ m ∈ ms, m.Marks .finish id

theorem Story.OK.put (h : Story.OK ms s) {m : OrderMessage} (hm : m.event = .put)
    (ha : s.admitsOrder .put m.order) :
    Story.OK (ms ++ [.orderMessage m]) (s.applyOrder .put m.order) := by
  obtain ⟨hid, hremain, hbase, hquote, hfee⟩ := ha
  have hmarks : (Message.orderMessage m).Marks .put m.order.id := ⟨hm, rfl⟩
  refine ⟨fun id hpos hle => ?_, fun m' hm' id hnames => ?_, fun id t ht => ?_,
    fun id hpos hle hnone => ?_⟩
  · have hle : id ≤ m.order.id := hle
    by_cases hnew : id = m.order.id
    · exact ⟨_, by simp, hnew ▸ hmarks⟩
    · obtain ⟨m', hm', hput⟩ := h.issued id hpos (by omega)
      exact ⟨m', List.mem_append_left _ hm', hput⟩
  · show 0 < id ∧ id ≤ m.order.id
    rcases List.mem_append.1 hm' with hm' | hm'
    · have hold := h.named m' hm' id hnames
      omega
    · obtain rfl := List.mem_singleton.1 hm'
      obtain rfl : m.order.id = id := hnames
      omega
  · show t.id = id ∧ id ≤ m.order.id ∧ _
    replace ht : (if id = m.order.id then some { m.order.told with remain := m.order.amount }
      else s.book id) = some t := ht
    split at ht
    · rename_i hnew
      obtain rfl := Option.some.inj ht
      have hno : ∀ m' ∈ ms, ¬ m'.Names m.order.id := fun m' hm' hnames => by
        have hold := (h.named m' hm' _ hnames).2
        omega
      have hnil : tradesOf m.order.id (ms ++ [.orderMessage m]) = [] := by
        rw [tradesOf_append, tradesOf_eq_nil hno, tradesOf_order, List.append_nil]
      refine ⟨hnew.symm, hnew.le, ?_, m, by simp, hm,
        ⟨rfl, rfl, rfl, rfl, rfl, rfl, rfl, rfl, rfl, rfl, rfl, rfl⟩⟩
      show Order.Sums _ (tradesOf m.order.id _)
      rw [hnil]
      refine ⟨?_, hbase, hquote, hfee⟩
      show m.order.amount + m.order.finishedBase = m.order.amount
      rw [hbase, add_zero]
    · obtain ⟨htid, hle, hacc⟩ := h.opened id t ht
      exact ⟨htid, by omega, hacc.order m⟩
  · have hle : id ≤ m.order.id := hle
    replace hnone :
        (if id = m.order.id then some { m.order.told with remain := m.order.amount }
        else s.book id) = none := hnone
    split at hnone
    · simp at hnone
    · obtain ⟨m', hm', hfin⟩ := h.closed id hpos (by omega) hnone
      exact ⟨m', List.mem_append_left _ hm', hfin⟩

/-- A message that carries an order as it is told adds nothing. -/
theorem Story.OK.update (h : Story.OK ms s) {m : OrderMessage}
    (ha : s.book m.order.id = some m.order.told) : Story.OK (ms ++ [.orderMessage m]) s := by
  refine ⟨fun id hpos hle => ?_, fun m' hm' id hnames => ?_, fun id t ht => ?_,
    fun id hpos hle hnone => ?_⟩
  · obtain ⟨m', hm', hput⟩ := h.issued id hpos hle
    exact ⟨m', List.mem_append_left _ hm', hput⟩
  · rcases List.mem_append.1 hm' with hm' | hm'
    · exact h.named m' hm' id hnames
    · obtain rfl := List.mem_singleton.1 hm'
      obtain rfl : m.order.id = id := hnames
      obtain ⟨-, -, -, m', hm', -, hterms⟩ := h.opened _ _ ha
      have hnames' : (Message.orderMessage m').Names m.order.id := hterms.id.symm
      exact h.named _ hm' _ hnames'
  · obtain ⟨htid, hle, hacc⟩ := h.opened id t ht
    exact ⟨htid, hle, hacc.order m⟩
  · obtain ⟨m', hm', hfin⟩ := h.closed id hpos hle hnone
    exact ⟨m', List.mem_append_left _ hm', hfin⟩

theorem Story.OK.finish (h : Story.OK ms s) {m : OrderMessage} (hm : m.event = .finish)
    (ha : s.admitsOrder .finish m.order) :
    Story.OK (ms ++ [.orderMessage m]) (s.applyOrder .finish m.order) := by
  have hok := h.update ha
  have hbook : ∀ id, (s.applyOrder .finish m.order).book id =
      if id = m.order.id then none else s.book id := fun _ => rfl
  refine ⟨hok.issued, hok.named, fun id t ht => ?_, fun id hpos hle hnone => ?_⟩
  · rw [hbook] at ht
    split at ht
    · simp at ht
    · exact hok.opened id t ht
  · rw [hbook] at hnone
    split at hnone
    · rename_i hid
      have hmarks : (Message.orderMessage m).Marks .finish id := ⟨hm, hid.symm⟩
      exact ⟨_, by simp, hmarks⟩
    · exact hok.closed id hpos hle hnone

/-- What a trade leaves of an open order. -/
theorem Story.applyTrade_book (s : Story) (t : Trade) (id : ℕ) : (s.applyTrade t).book id =
    if t.askOrderId = id ∨ t.bidOrderId = id then
      (s.book id).map fun o => o.plusTrade t.amount t.quoteAmount (t.feeOf id)
    else s.book id := by
  unfold applyTrade Trade.feeOf
  by_cases ha : t.askOrderId = id
  · simp [ha]
  · by_cases hb : t.bidOrderId = id
    · simp [ha, hb, Ne.symm ha]
    · simp [ha, hb, Ne.symm ha, Ne.symm hb]

theorem Story.OK.trade (h : Story.OK ms s) (ha : s.AdmitsTrade t) :
    Story.OK (ms ++ [.tradeMessage t]) (s.applyTrade t) := by
  refine ⟨fun id hpos hle => ?_, fun m' hm' id hnames => ?_, fun id o ho => ?_,
    fun id hpos hle hnone => ?_⟩
  · obtain ⟨m', hm', hput⟩ := h.issued id hpos hle
    exact ⟨m', List.mem_append_left _ hm', hput⟩
  · rcases List.mem_append.1 hm' with hm' | hm'
    · exact h.named m' hm' id hnames
    · obtain rfl := List.mem_singleton.1 hm'
      -- a trade names open orders only, and these were put
      have hopen : (s.book id).isSome := by
        rcases hnames with rfl | rfl
        · exact ha.ask
        · exact ha.bid
      obtain ⟨o, ho⟩ := Option.isSome_iff_exists.1 hopen
      obtain ⟨hoid, -, -, m', hm', -, hterms⟩ := h.opened id o ho
      have hnames' : (Message.orderMessage m').Names id := hterms.id.symm.trans hoid
      exact h.named _ hm' _ hnames'
  · rw [applyTrade_book] at ho
    split at ho
    · rename_i hnames
      obtain ⟨o', ho', rfl⟩ := Option.map_eq_some_iff.1 ho
      obtain ⟨hid, hle, hacc⟩ := h.opened id o' ho'
      subst hid
      exact ⟨rfl, hle, hacc.trade hnames⟩
    · rename_i hno
      obtain ⟨hid, hle, hacc⟩ := h.opened id o ho
      refine ⟨hid, hle, hacc.append fun m' hm' => ?_⟩
      rw [List.mem_singleton.1 hm', hid]
      exact hno
  · have hnone' : s.book id = none := by
      rw [applyTrade_book] at hnone
      split at hnone
      · exact Option.map_eq_none_iff.1 hnone
      · exact hnone
    obtain ⟨m', hm', hfin⟩ := h.closed id hpos hle hnone'
    exact ⟨m', List.mem_append_left _ hm', hfin⟩

/-- A message about a balance tells nothing about orders. -/
theorem Story.OK.balance (h : Story.OK ms s)
    (hm : ∀ id, ¬ m.Names id) : Story.OK (ms ++ [m]) s := by
  refine ⟨fun id hpos hle => ?_, fun m' hm' id hnames => ?_, fun id t ht => ?_,
    fun id hpos hle hnone => ?_⟩
  · obtain ⟨m', hm', hput⟩ := h.issued id hpos hle
    exact ⟨m', List.mem_append_left _ hm', hput⟩
  · rcases List.mem_append.1 hm' with hm' | hm'
    · exact h.named m' hm' id hnames
    · obtain rfl := List.mem_singleton.1 hm'
      exact absurd hnames (hm id)
  · obtain ⟨htid, hle, hacc⟩ := h.opened id t ht
    exact ⟨htid, hle, hacc.append fun m' hm' => by rw [List.mem_singleton.1 hm']; exact hm _⟩
  · obtain ⟨m', hm', hfin⟩ := h.closed id hpos hle hnone
    exact ⟨m', List.mem_append_left _ hm', hfin⟩

theorem Story.OK.step (h : Story.OK ms s) (ha : Story.rules.admits s m) :
    Story.OK (ms ++ [m]) (Story.rules.apply s m) := by
  cases m with
  | orderMessage m =>
    obtain ⟨event, o, base, quote⟩ := m
    cases event with
    | put => exact h.put rfl ha
    | update => exact h.update ha
    | finish => exact h.finish rfl ha
    | expired => exact absurd ha id
  | tradeMessage t => exact h.trade ha
  | balanceMessage b => exact h.balance fun _ => id
  | depositMessage b => exact h.balance fun _ => id
  | withdrawMessage b => exact h.balance fun _ => id

/-- **Along a coherent stream the story says what was told.** -/
theorem retold_ok (h : Coherent Story.rules Story.empty ms) : Story.OK ms (retold ms) := by
  have hstart : Story.OK [] Story.empty := by
    refine ⟨fun id hpos hle => ?_, by simp, fun id t ht => by simp [Story.empty] at ht,
      fun id hpos hle => ?_⟩
    · exact absurd hpos (not_lt.2 hle)
    · exact absurd hpos (not_lt.2 hle)
  exact Coherent.rule hstart (fun ms m hok ha => hok.step ha) h

/-! ## The life of an order -/

/-- Nothing names an order that was put and is no longer open. -/
theorem closed_stays (h : Coherent Story.rules s ms) (hnone : s.book id = none)
    (hle : id ≤ s.last) : (after Story.rules s ms).book id = none ∧ ∀ m ∈ ms, ¬ m.Names id := by
  have hnever := Coherent.never (P := fun s : Story => s.book id = none ∧
    id ≤ s.last) (B := Message.Names id)
    (fun s m hs ha => ?_) (fun s m hs ha hnames => ?_) ⟨hnone, hle⟩ h
  · exact ⟨hnever.1.1, hnever.2⟩
  · obtain ⟨hs, hle⟩ := hs
    cases m with
    | orderMessage m =>
      obtain ⟨event, o, base, quote⟩ := m
      cases event with
      | put =>
        have hid : o.id = s.last + 1 := ha.1
        refine ⟨?_, ?_⟩
        · show (if id = o.id then _ else s.book id) = none
          rw [if_neg (by omega)]
          exact hs
        · show id ≤ o.id
          omega
      | update => exact ⟨hs, hle⟩
      | finish =>
        refine ⟨?_, hle⟩
        show (if id = o.id then none else s.book id) = none
        rw [hs, ite_self]
      | expired => exact ⟨hs, hle⟩
    | tradeMessage t =>
      refine ⟨?_, hle⟩
      show (s.applyTrade t).book id = none
      rw [Story.applyTrade_book, hs]
      simp
    | _ => exact ⟨hs, hle⟩
  · obtain ⟨hs, hle⟩ := hs
    cases m with
    | orderMessage m =>
      obtain ⟨event, o, base, quote⟩ := m
      obtain rfl : o.id = id := hnames
      cases event with
      | put =>
        have hid : o.id = s.last + 1 := ha.1
        omega
      | expired => exact ha
      | _ =>
        have hopen : s.book o.id = some o.told := ha
        simp [hs] at hopen
    | tradeMessage t =>
      have hask := ha.ask
      have hbid := ha.bid
      rcases hnames with rfl | rfl
      · simp [hs] at hask
      · simp [hs] at hbid
    | _ => exact hnames

/-- The order of a message that marks one. -/
theorem Message.Marks.order {event : OrderEventType} (h : m.Marks event id) :
    ∃ om, m = .orderMessage om ∧ om.event = event ∧ om.order.id = id := by
  cases m with
  | orderMessage om => exact ⟨om, rfl, h⟩
  | _ => exact h.elim

/-- A message that marks an order names it. -/
theorem Message.Marks.names {event : OrderEventType} (h : m.Marks event id) : m.Names id := by
  obtain ⟨om, rfl, -, hid⟩ := h.order
  exact hid

theorem Story.admits_order {om : OrderMessage} {event : OrderEventType}
    (hevent : om.event = event) :
    Story.rules.admits s (.orderMessage om) ↔ s.admitsOrder event om.order := by
  rw [← hevent]
  rfl

theorem Story.apply_order {om : OrderMessage} {event : OrderEventType} (hevent : om.event = event) :
    Story.rules.apply s (.orderMessage om) = s.applyOrder event om.order := by
  rw [← hevent]
  rfl

/-- An id that was put is not put again. -/
theorem issued_stays (h : Coherent Story.rules s ms) (hle : id ≤ s.last) :
    ∀ m ∈ ms, ¬ m.Marks .put id := by
  refine (Coherent.never (P := fun s : Story => id ≤ s.last) (fun s m hle ha => ?_)
    (fun s m hle ha hmarks => ?_) hle h).2
  · cases m with
    | orderMessage m =>
      obtain ⟨event, o, base, quote⟩ := m
      cases event with
      | put =>
        have hid : o.id = s.last + 1 := ha.1
        show id ≤ o.id
        omega
      | _ => exact hle
    | _ => exact hle
  · obtain ⟨om, rfl, hput, hid⟩ := hmarks.order
    have hnext := ((Story.admits_order hput).1 ha).1
    omega

/-- **The life of an order**: one put before all else that names it, and nothing after a finish. -/
structure LifeCycle (ms : List Message) (id : ℕ) (resting : Prop) : Prop where
  put : ∃ pre m post, ms = pre ++ m :: post ∧ m.Marks .put id ∧ (∀ m' ∈ pre, ¬ m'.Names id) ∧
    ∀ m' ∈ post, ¬ m'.Marks .put id
  finish : ∀ pre m post, ms = pre ++ m :: post → m.Marks .finish id → ∀ m' ∈ post, ¬ m'.Names id
  finished : (∃ m ∈ ms, m.Marks .finish id) ↔ ¬ resting
  unfinishedRow : resting → (orderHistoryRows ms).filter (·.id = id) = []
  row : ¬ resting → ∃ m, Message.orderMessage m ∈ ms ∧ m.event = .finish ∧ m.order.id = id ∧
    (orderHistoryRows ms).filter (·.id = id) = [.fromOrder m.order] ∧
    m.order.Sums (tradesOf id ms) ∧
    ((OrderHistory.fromOrder m.order).status = .filled ↔ m.order.remain = 0) ∧
    ((OrderHistory.fromOrder m.order).status = .cancelled ↔ m.order.remain ≠ 0)

/-- Filled is what nothing remains of. -/
theorem OrderHistory.status_fromOrder (o : Order) :
    ((OrderHistory.fromOrder o).status = .filled ↔ o.remain = 0) ∧
    ((OrderHistory.fromOrder o).status = .cancelled ↔ o.remain ≠ 0) := by
  unfold OrderHistory.fromOrder
  by_cases hz : o.remain = 0 <;> simp [hz]

theorem orderHistoryRows_append (ms ms' : List Message) :
    orderHistoryRows (ms ++ ms') = orderHistoryRows ms ++ orderHistoryRows ms' :=
  List.filterMap_append

/-- A finish makes one row. -/
theorem orderHistoryRows_finish {om : OrderMessage} (hfin : om.event = .finish) :
    orderHistoryRows [.orderMessage om] = [.fromOrder om.order] := by
  simp [orderHistoryRows, ClosedOrder.into, hfin]

/-- Only a finish of the order makes a row of it. -/
theorem orderHistoryRows_eq_nil (h : ∀ m ∈ ms, ¬ m.Marks .finish id) :
    (orderHistoryRows ms).filter (·.id = id) = [] := by
  refine List.filter_eq_nil_iff.2 fun row hrow hid => ?_
  obtain ⟨m, hm, hinto⟩ := List.mem_filterMap.1 hrow
  have hno := h m hm
  cases m with
  | orderMessage om =>
    have hinto : ClosedOrder.into om = some row := hinto
    unfold ClosedOrder.into at hinto
    split at hinto
    · rename_i hfin
      obtain rfl := Option.some.inj hinto
      have hid : om.order.id = id := of_decide_eq_true hid
      exact hno ⟨hfin, hid⟩
    · simp at hinto
  | _ => simp at hinto

/-- **Nothing names an order after its finish.** -/
theorem finish_last {pre post : List Message}
    (h : Coherent Story.rules Story.empty (pre ++ m :: post)) (hfin : m.Marks .finish id) :
    (retold (pre ++ m :: post)).book id = none ∧ ∀ m' ∈ post, ¬ m'.Names id := by
  obtain ⟨om, rfl, hevent, rfl⟩ := hfin.order
  obtain ⟨hpre, hadmits, hpost⟩ := h.split
  obtain ⟨-, hle, -⟩ := (retold_ok hpre).opened _ _ ((Story.admits_order hevent).1 hadmits)
  have hafter : after Story.rules Story.empty (pre ++ [.orderMessage om]) =
      (retold pre).applyOrder .finish om.order := by
    rw [after_concat, Story.apply_order hevent]
  have hgone : (after Story.rules (after Story.rules Story.empty (pre ++ [.orderMessage om]))
      post).book om.order.id = none ∧
      ∀ m' ∈ post, ¬ m'.Names om.order.id :=
    closed_stays hpost (by rw [hafter]; exact if_pos rfl) (by rw [hafter]; exact hle)
  rw [← after_append, List.append_assoc, List.singleton_append] at hgone
  exact hgone

/-- A finish is the only one of its order. -/
theorem finish_first {pre post : List Message}
    (h : Coherent Story.rules Story.empty (pre ++ m :: post)) (hfin : m.Marks .finish id) :
    ∀ m' ∈ pre, ¬ m'.Marks .finish id := by
  intro m' hm' hfin'
  obtain ⟨pre', post', rfl⟩ := List.append_of_mem hm'
  rw [List.append_assoc, List.cons_append] at h
  exact (finish_last h hfin').2 m (by simp) hfin.names

/-- **Every order that was put lives one life.** -/
theorem lifeCycle (h : Coherent Story.rules Story.empty ms) (hpos : 0 < id)
    (hle : id ≤ (retold ms).last) : LifeCycle ms id ((retold ms).book id).isSome := by
  have hok := retold_ok h
  have hfinished : (∃ m ∈ ms, m.Marks .finish id) ↔ ¬ ((retold ms).book id).isSome := by
    constructor
    · rintro ⟨m, hm, hfin⟩
      obtain ⟨pre, post, rfl⟩ := List.append_of_mem hm
      simp [(finish_last h hfin).1]
    · intro hnone
      exact hok.closed id hpos hle (by simpa using hnone)
  refine ⟨?_, fun pre m post hms hfin => ?_, hfinished, fun hopen => ?_, fun hgone => ?_⟩
  · obtain ⟨m, hm, hput⟩ := hok.issued id hpos hle
    obtain ⟨pre, post, rfl⟩ := List.append_of_mem hm
    obtain ⟨hpre, hadmits, hpost⟩ := h.split
    obtain ⟨om, rfl, hevent, rfl⟩ := hput.order
    have hid := ((Story.admits_order hevent).1 hadmits).1
    refine ⟨pre, _, post, rfl, hput, fun m' hm' hnames => ?_, issued_stays hpost ?_⟩
    · have hold : om.order.id ≤ (after Story.rules Story.empty pre).last :=
        ((retold_ok hpre).named m' hm' _ hnames).2
      omega
    · rw [after_concat, Story.apply_order hevent]
      exact le_refl om.order.id
  · subst hms
    exact (finish_last h hfin).2
  · exact orderHistoryRows_eq_nil fun m hm hfin => hfinished.1 ⟨m, hm, hfin⟩ hopen
  · obtain ⟨m, hm, hfin⟩ := hfinished.2 hgone
    obtain ⟨pre, post, rfl⟩ := List.append_of_mem hm
    have hafter := (finish_last h hfin).2
    have hbefore := finish_first h hfin
    obtain ⟨hpre, hadmits, -⟩ := h.split
    obtain ⟨om, rfl, hevent, rfl⟩ := hfin.order
    refine ⟨om, hm, hevent, rfl, ?_, ?_, OrderHistory.status_fromOrder om.order⟩
    · rw [← List.singleton_append, orderHistoryRows_append, orderHistoryRows_append,
        List.filter_append, List.filter_append,
        orderHistoryRows_eq_nil hbefore,
        orderHistoryRows_eq_nil fun m' hm' hfin' => hafter m' hm' hfin'.names,
        orderHistoryRows_finish hevent]
      simp [OrderHistory.fromOrder]
    · rw [← List.singleton_append, tradesOf_append, tradesOf_append, tradesOf_order,
        tradesOf_eq_nil hafter]
      obtain ⟨-, -, hacc⟩ := (retold_ok hpre).opened _ _ ((Story.admits_order hevent).1 hadmits)
      simpa using hacc.of_told.sums

/-! ## The orders that messages carry -/

/-- **An order that a message carries is accounted for** by the messages up to this one. -/
theorem accounted_of_carried {pre post : List Message}
    (h : Coherent Story.rules Story.empty (pre ++ m :: post)) (ho : o ∈ m.orders) :
    o.Accounted (toldUpTo pre m) := by
  obtain ⟨hpre, hadmits, -⟩ := h.split
  have hok := retold_ok hpre
  have htold : ∀ {o : Order}, (retold pre).book o.id = some o.told → o.Accounted pre :=
    fun ho => (hok.opened _ _ ho).2.2.of_told
  cases m with
  | orderMessage m =>
    obtain ⟨event, p, base, quote⟩ := m
    obtain rfl : o = p := by simpa [Message.orders] using ho
    cases event with
    | put =>
      have hnew := hok.put (m := ⟨.put, o, base, quote⟩) rfl hadmits
      have hbook : ((retold pre).applyOrder .put o).book o.id =
          some { o.told with remain := o.amount } := if_pos rfl
      have hacc := (hnew.opened _ _ hbook).2.2
      have hremain : o.remain = o.amount := hadmits.2.1
      have htold : { o.told with remain := o.amount } = o.told := by
        rw [← hremain]
        rfl
      rw [htold] at hacc
      exact hacc.of_told
    | update => exact (htold hadmits).order _
    | finish => exact (htold hadmits).order _
    | expired => exact absurd hadmits id
  | tradeMessage t =>
    rcases List.mem_append.1 ho with ho | ho
    · exact htold (hadmits.askOrder o (by simpa using ho)).2
    · exact htold (hadmits.bidOrder o (by simpa using ho)).2
  | _ => simp [Message.orders] at ho

/-- The order of a finish is accounted for by all messages: none after it names the order. -/
theorem accounted_of_finish {om : OrderMessage} (h : Coherent Story.rules Story.empty ms)
    (hm : Message.orderMessage om ∈ ms) (hfin : om.event = .finish) : om.order.Accounted ms := by
  obtain ⟨pre, post, rfl⟩ := List.append_of_mem hm
  have hmarks : (Message.orderMessage om).Marks .finish om.order.id := ⟨hfin, rfl⟩
  have hacc : om.order.Accounted (pre ++ [.orderMessage om]) :=
    accounted_of_carried h (by simp [Message.orders])
  have hall := hacc.append (finish_last h hmarks).2
  rwa [List.append_assoc, List.singleton_append] at hall

end Dingir
