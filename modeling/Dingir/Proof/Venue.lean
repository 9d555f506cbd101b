import Dingir.Proof.Ids

/-!
# Whose trades they are

The trades of an order are all on the market that the order was put on: each step of a
market trades only between orders that were put there (`Step.venue`), so the messages of
an engine say it of every trade (`relays_venue`). `Recorded` collects what they say of an
engine that began empty; a trade is told by its number (`Recorded.trade_inj`), the trades
of an order come in the order of their numbers, on its market
(`Recorded.market_of_trade`), and what they sum to is what is filled of the order
(`Recorded.accountedFor`).
-/

namespace Dingir

open Keyed Stream Outcome Market

variable {E : Env} {settings : Settings} {now : Timestamp} {u : Uuid}
  {A : Market → Ctx → OrderInput → Prop} {b c c' : Controller} {d d' : Desk} {ms new : List Message}
  {t : Trade} {id : ℕ} {market : String}

/-! ## The market of an order -/

/-- The order was put on the market. -/
def PutOn (ms : List Message) (id : ℕ) (market : String) : Prop :=
  ∃ m : OrderMessage, Message.orderMessage m ∈ ms ∧ m.event = .put ∧ m.order.id = id ∧
    m.order.market = market

theorem PutOn.append (h : PutOn ms id market) (new : List Message) :
    PutOn (ms ++ new) id market := by
  obtain ⟨m, hm, hput⟩ := h
  exact ⟨m, List.mem_append_left _ hm, hput⟩

/-- A trade is on the market that both its orders were put on. -/
def venueRules : Stream.Rules (List Message) Message where
  apply ms m := ms ++ [m]
  admits ms m := ∀ t, m = .tradeMessage t → PutOn ms t.askOrderId t.market ∧
  PutOn ms t.bidOrderId t.market

theorem after_venue (ms new : List Message) : after venueRules ms new = ms ++ new := by
  induction new generalizing ms with
  | nil => simp
  | cons m new ih =>
    rw [after_cons, ih]
    simp [venueRules]

/-- Messages without a trade are admitted. -/
theorem venue_quiet (h : ∀ m ∈ new, ∀ t, m ≠ .tradeMessage t) : Coherent venueRules ms new := by
  induction new generalizing ms with
  | nil => trivial
  | cons m new ih =>
    exact ⟨fun t ht => absurd ht (h m List.mem_cons_self t),
      ih fun m' hm' => h m' (List.mem_cons_of_mem m hm')⟩

/-- A balance is no trade. -/
theorem venue_balances (h : ∀ m ∈ new, m.isBalance) : Coherent venueRules ms new :=
  venue_quiet fun m hm t ht => by
    have hbalance := h m hm
    rw [ht] at hbalance
    simp [Message.isBalance] at hbalance

/-- **The trades of a coherent stream** are on the markets of their orders. -/
theorem venue_of_coherent (h : Coherent venueRules [] ms) (ht : Message.tradeMessage t ∈ ms) :
    PutOn ms t.askOrderId t.market ∧ PutOn ms t.bidOrderId t.market := by
  obtain ⟨pre, post, rfl⟩ := List.append_of_mem ht
  obtain ⟨-, hadmits, -⟩ := h.split
  rw [after_venue, List.nil_append] at hadmits
  obtain ⟨hask, hbid⟩ := hadmits t rfl
  exact ⟨hask.append _, hbid.append _⟩

theorem opened_taking (m : Market) (x : Ctx) (k : Taking) (id : ℕ) :
    Desk.opened ⟨m, x, some k⟩ id = if k.order.id = id then some k.order else m.resting id := rfl

theorem opened_idle (m : Market) (x : Ctx) (id : ℕ) : Desk.opened ⟨m, x, none⟩ id = m.resting id :=
  rfl

/-- The orders open at a desk were put on its market. -/
def Desk.Placed (d : Desk) (ms : List Message) : Prop :=
  ∀ id, (d.opened id).isSome → PutOn ms id d.market.name

/-- A desk opens no order without putting it. -/
theorem Desk.Placed.grows {told : List Message} (h : d.Placed told)
    (hname : d'.market.name = d.market.name)
    (hopened : ∀ id, (d'.opened id).isSome → (d.opened id).isSome)
    (new : List Message) : d'.Placed (told ++ new) := by
  intro id hid
  rw [hname]
  exact (h id (hopened id hid)).append new

/-- **Each step puts the orders it opens, and trades between open ones.** -/
theorem Step.venue {told : List Message} (h : Step E now u A d d') (hd : DeskOK d)
    (hp : d.ctx.persistor = .real ms) (hplaced : d.Placed told) :
    ∃ new, d'.ctx.persistor = .real (ms ++ new) ∧ Coherent venueRules told new ∧
      d'.Placed (told ++ new) := by
  have hname : d'.market.name = d.market.name := h.sameTerms.name
  -- a finish tells no trade
  have hfinish : ∀ (o : Order) {x : Ctx}, x.persistor = .real ms →
      x.persistor.putOrder o .finish = .real (ms ++ [.orderMessage (.fromOrder o .finish)]) ∧
        Coherent venueRules told [.orderMessage (.fromOrder o .finish)] := fun o x hx => by
    rw [hx]
    exact ⟨rfl, venue_quiet (by simp)⟩
  cases h with
  | @accept m x input ql _ _ _ =>
    have hp : x.persistor = .real ms := hp
    refine ⟨[.orderMessage (.fromOrder (m.newOrder (x.sequencer.orderId + 1) now input u) .put)],
      ?_, venue_quiet (by simp),
      fun id hid => ?_⟩
    · show x.persistor.putOrder _ .put = _
      rw [hp]
      rfl
    · by_cases hnew : x.sequencer.orderId + 1 = id
      · exact ⟨_, List.mem_append_right _ (List.mem_singleton.2 rfl), rfl, hnew, rfl⟩
      · have hne : ¬(m.newOrder (x.sequencer.orderId + 1) now input u).id = id := hnew
        rw [opened_taking, if_neg hne] at hid
        exact (hplaced id hid).append _
  | @trade m m' x x' k rc t hmeet ht =>
    obtain ⟨bs, hbs, hall, -⟩ := ht.messages ms hp
    have hopen : ∀ id, k.order.id = id ∨ (m.rcs.read rc).id = id → PutOn told id m.name := by
      rintro id (rfl | rfl)
      · exact hplaced _ (by rw [opened_taking, if_pos rfl]; rfl)
      · exact hplaced _ (by rw [opened_taking, if_neg (hmeet.ids_ne hd), hmeet.resting]; rfl)
    refine ⟨bs ++ t.told (filledMaker now k.order.isAsk (m.rcs.read rc) t), by
      rw [hbs, List.append_assoc], ?_, ?_⟩
    · rw [coherent_append, after_venue]
      refine ⟨venue_balances hall, ?_⟩
      unfold Trade.told
      refine ⟨fun t' ht' => ?_, venue_quiet fun m hm t' => ?_⟩
      · obtain rfl := Message.tradeMessage.inj ht'
        rw [ht.name]
        exact ⟨(hopen _ ((ht.names_iff _).1 (.inl rfl))).append _,
          (hopen _ ((ht.names_iff _).1 (.inr rfl))).append _⟩
      · split at hm
        · simp at hm
        · rw [List.mem_singleton.1 hm]
          simp
    · refine hplaced.grows hname (fun id hid => ?_) _
      rw [ht.opened hd hmeet] at hid
      rw [opened_taking]
      split
      · rfl
      · rename_i hne
        rw [if_neg hne] at hid
        split at hid
        · rename_i hmaker
          rw [← hmaker, hmeet.resting]
          rfl
        · exact hid
  | @finish m x k rc _ _ =>
    obtain ⟨hpersistor, hcoh⟩ := hfinish (m.rcs.read rc) hp
    refine ⟨_, hpersistor, hcoh, hplaced.grows hname (fun id hid => ?_) _⟩
    rw [opened_taking, resting_without] at hid
    rw [opened_taking]
    split at hid
    · rw [if_pos ‹_›]
      rfl
    · rw [if_neg ‹_›]
      split at hid
      · simp at hid
      · exact hid
  | @close m x k _ =>
    obtain ⟨hpersistor, hcoh⟩ := hfinish k.order hp
    refine ⟨_, hpersistor, hcoh, hplaced.grows hname (fun id hid => ?_) _⟩
    rw [opened_taking]
    split
    · rfl
    · exact hid
  | @rest m x k bm _ _ _ _ _ =>
    refine ⟨[], by rw [List.append_nil]; exact hp, trivial,
      hplaced.grows hname (fun id hid => ?_) _⟩
    rw [opened_idle, resting_withRest hd.index] at hid
    rw [opened_taking]
    split
    · rfl
    · rename_i hne
      have hne : ¬ k.order.rested.id = id := hne
      rwa [if_neg hne] at hid
  | @cancel m x rc bm _ _ _ =>
    obtain ⟨hpersistor, hcoh⟩ := hfinish (m.rcs.read rc) hp
    refine ⟨_, hpersistor, hcoh, hplaced.grows hname (fun id hid => ?_) _⟩
    rw [opened_idle, resting_without] at hid
    rw [opened_idle]
    split at hid
    · simp at hid
    · exact hid

theorem Steps.venue {told : List Message} (h : Steps E now u A d d') (hd : DeskOK d)
    (hp : d.ctx.persistor = .real ms) (hplaced : d.Placed told) :
    ∃ new, d'.ctx.persistor = .real (ms ++ new) ∧ Coherent venueRules told new ∧
      d'.Placed (told ++ new) := by
  refine Steps.rule (P := fun e => ∃ new, e.ctx.persistor = .real (ms ++ new) ∧
    Coherent venueRules told new ∧ e.Placed (told ++ new))
    ?_ h hd ⟨[], by rw [List.append_nil]; exact hp, trivial, by rwa [List.append_nil]⟩
  rintro e e' he ⟨new, hpe, hcoh, hplaced⟩ hstep
  obtain ⟨new', hpe', hcoh', hplaced'⟩ := hstep.venue he hpe hplaced
  refine ⟨new ++ new', by rw [hpe', List.append_assoc], coherent_append.2 ⟨hcoh, ?_⟩, ?_⟩
  · rw [after_venue]
    exact hcoh'
  · rwa [← List.append_assoc]

/-- The orders at rest were put on the markets they rest on. -/
def Controller.Placed (c : Controller) (ms : List Message) : Prop :=
  ∀ name m id, c.markets.find? name = some m → (m.resting id).isSome → PutOn ms id name

theorem relays_venue : Relays E b venueRules Controller.Placed where
  move := by
    intro now u w A c c' told h hc hplaced
    cases h with
    | @market name m m' x' hm hsteps =>
      have hname := (hc.desk _ _ hm).1
      have hdesk : Desk.Placed ⟨m, c.ctx true, none⟩ told :=
        fun id hid => hname.symm ▸ hplaced name m id hm hid
      obtain ⟨new, hp, hcoh, hafter⟩ := hsteps.venue ((hc.desk _ _ hm).2 true) rfl hdesk
      have hp : x'.persistor = .real (c.persistor ++ new) := hp
      refine ⟨new, ?_, hcoh, ?_⟩
      · unfold Controller.withMarket Controller.withCtx
        rw [hp]
      · rw [after_venue]
        intro other mo id hmo hid
        rw [Controller.find?_withMarket] at hmo
        split at hmo
        · obtain rfl := Option.some.inj hmo
          have hplaced' := hafter id hid
          rwa [show m'.name = m.name from hsteps.sameTerms.name, hname,
            ← ‹other = name›] at hplaced'
        · exact (hplaced other mo id hmo hid).append _
    | @update p x' _ _ _ _ ha =>
      obtain ⟨bs, hbs, hall, -⟩ := persistUpdate_balances ha.persistor c.persistor rfl
      refine ⟨bs, ?_, venue_balances hall, ?_⟩
      · unfold Controller.withCtx
        rw [hbs]
      · rw [after_venue]
        exact fun name m id hm hid => (hplaced name m id hm hid).append _
  congr := fun hplaced hmarkets _ _ _ name m id hm hid => hplaced name m id (hmarkets ▸ hm) hid

/-! ## An engine that began empty -/

theorem mem_tradesOf :
    t ∈ tradesOf id ms ↔ Message.tradeMessage t ∈ ms ∧ (t.askOrderId = id ∨ t.bidOrderId = id) := by
  unfold tradesOf
  rw [List.mem_filterMap]
  constructor
  · rintro ⟨m, hm, hmatch⟩
    cases m with
    | tradeMessage t' =>
      simp only [Option.ite_none_right_eq_some, Option.some.injEq] at hmatch
      obtain ⟨hnames, rfl⟩ := hmatch
      exact ⟨hm, hnames⟩
    | _ => simp at hmatch
  · rintro ⟨hm, hnames⟩
    exact ⟨_, hm, by simp [hnames]⟩

/-- **The messages of an engine that began empty**: they tell its orders, number its trades, and
name the markets these are on. -/
structure Recorded (b c : Controller) : Prop where
  chronicle : Chronicle b c c.persistor
  issues : Coherent Issued.rules ⟨0, 0⟩ c.persistor
  counters : after Issued.rules ⟨0, 0⟩ c.persistor = c.sequencer.issued
  venue : Coherent venueRules [] c.persistor
  placed : c.Placed c.persistor

namespace Recorded

theorem start (h : createController settings = .ok c) : Recorded c c := by
  have hempty := (createController_begun h).persistor
  obtain ⟨hid, htid⟩ := createController_counters h
  obtain ⟨hok, hblank, -⟩ := createController_ok h
  have hstart : Startable settings c c := .inl h
  have hchronicle : Chronicle c c c.persistor := by
    rw [hempty]
    exact ⟨hok, .of_empty hstart.empty, trivial, hblank.told hid⟩
  refine ⟨hchronicle, ?_, ?_, ?_, fun name m id hm hsome => ?_⟩
  · rw [hempty]
    trivial
  · rw [hempty, after_nil]
    exact congrArg₂ Issued.mk hid.symm htid.symm
  · rw [hempty]
    trivial
  · rw [(hblank.markets name m hm).resting] at hsome
    simp at hsome

theorem call (h : Recorded b c) {q : Request} {reply : Except Status Response}
    (hreal : q.real = true) (hcall : c.call E q = .ok (reply, c')) : Recorded b c' := by
  have hok := h.chronicle.ok
  obtain ⟨hp, hissues, hcounters⟩ :=
    (retells_issued (E := E) (b := b)).toRelays.call hok h.counters hreal hcall
  obtain ⟨-, hvenue, hplaced⟩ := relays_venue.call hok h.placed hreal hcall
  have hone : c.calls E [q] = .ok ([reply], c') := by
    simp only [Controller.calls, bind_ok, pure_ok]
    exact ⟨_, hcall, _, rfl, rfl⟩
  refine ⟨h.chronicle.calls (by simpa using hreal) hone, ?_, ?_, ?_, ?_⟩
  · rw [hp]
    exact coherent_append.2 ⟨h.issues, hissues⟩
  · rw [hp, after_append]
    exact hcounters
  · rw [hp]
    refine coherent_append.2 ⟨h.venue, ?_⟩
    rw [after_venue, List.nil_append]
    exact hvenue
  · rw [hp]
    rwa [after_venue] at hplaced

/-- The numbers of the trades ascend. -/
theorem tradeIds_ascend (h : Recorded b c) : (tradeIds c.persistor).Pairwise (· < ·) := by
  rw [(issued_of_coherent h.issues).2.1]
  exact List.pairwise_lt_range'

/-- A trade is told by its number. -/
theorem trade_inj (h : Recorded b c) {t' : Trade} (ht : Message.tradeMessage t ∈ c.persistor)
    (ht' : Message.tradeMessage t' ∈ c.persistor) (hid : t.id = t'.id) : t = t' := by
  have hids : tradeIds c.persistor = c.trades.map Trade.id := by
    unfold tradeIds Controller.trades
    rw [List.map_filterMap]
    refine List.filterMap_congr fun m _ => ?_
    cases m <;> rfl
  have hnodup : (c.trades.map Trade.id).Nodup := by
    rw [← hids]
    exact h.tradeIds_ascend.imp fun hlt => hlt.ne
  have hmem : ∀ {t}, Message.tradeMessage t ∈ c.persistor → t ∈ c.trades := fun ht =>
    List.mem_filterMap.2 ⟨_, ht, rfl⟩
  exact List.inj_on_of_nodup_map hnodup (hmem ht) (hmem ht') hid

/-- The trades come in the order of their numbers. -/
theorem trades_ascend (h : Recorded b c) (id : ℕ) :
    (tradesOf id c.persistor).Pairwise fun t t' => t.id < t'.id := by
  have hall := h.tradeIds_ascend
  unfold tradeIds at hall
  unfold tradesOf
  rw [List.pairwise_filterMap] at hall ⊢
  refine hall.imp fun {m m'} hlt t ht t' ht' => ?_
  cases m with
  | tradeMessage t₁ =>
    cases m' with
    | tradeMessage t₂ =>
      have h₁ : t₁ = t := by simp at ht; exact ht.2
      have h₂ : t₂ = t' := by simp at ht'; exact ht'.2
      subst h₁ h₂
      exact hlt _ rfl _ rfl
    | _ => simp at ht'
  | _ => simp at ht

/-- The two orders of a trade differ. -/
theorem trade_ne (h : Recorded b c) (ht : Message.tradeMessage t ∈ c.persistor) :
    t.askOrderId ≠ t.bidOrderId := by
  obtain ⟨pre, post, hms⟩ := List.append_of_mem ht
  have hcoh := h.chronicle.coherent
  rw [hms] at hcoh
  obtain ⟨-, hadmits, -⟩ := hcoh.split
  exact Story.AdmitsTrade.ne hadmits

/-- What a message names was put. -/
theorem named (h : Recorded b c) {m : Message} (hm : m ∈ c.persistor) (hnames : m.Names id) :
    0 < id ∧ id ≤ c.sequencer.orderId := by
  have hbound := (retold_ok h.chronicle.coherent).named m hm id hnames
  rwa [h.chronicle.told.last] at hbound

theorem order_named (h : Recorded b c) {m : OrderMessage}
    (hm : Message.orderMessage m ∈ c.persistor) :
    0 < m.order.id ∧ m.order.id ≤ c.sequencer.orderId := h.named hm rfl

/-- Each order that was put lives one life. -/
theorem life (h : Recorded b c) (hpos : 0 < id) (hle : id ≤ c.sequencer.orderId) :
    LifeCycle c.persistor id (∃ o, c.Rests id o) := by
  have hresting : ((retold c.persistor).book id).isSome = true ↔ ∃ o, c.Rests id o := by
    rw [Option.isSome_iff_exists]
    constructor
    · rintro ⟨o', ho'⟩
      obtain ⟨o, ho, -⟩ := (h.chronicle.told.book id o').1 ho'
      exact ⟨o, ho⟩
    · rintro ⟨o, ho⟩
      exact ⟨o.told, (h.chronicle.told.book id o.told).2 ⟨o, ho, rfl⟩⟩
  have hlife : LifeCycle c.persistor id _ :=
    lifeCycle h.chronicle.coherent hpos (by rw [h.chronicle.told.last]; exact hle)
  rwa [propext hresting] at hlife

/-- An order that rests, or is closed, is accounted for. -/
theorem accountedFor (h : Recorded b c) {o : Order}
    (ho : (∃ id, c.Rests id o) ∨ ∃ m : OrderMessage, Message.orderMessage m ∈ c.persistor ∧
      m.event = .finish ∧ m.order = o) :
    o.Accounted c.persistor := by
  rcases ho with ⟨id, ho⟩ | ⟨m, hm, hfinish, rfl⟩
  · have hbook := (h.chronicle.told.book id o.told).2 ⟨o, ho, rfl⟩
    exact ((retold_ok h.chronicle.coherent).opened id _ hbook).2.2.of_told
  · exact accounted_of_finish h.chronicle.coherent hm hfinish

/-- **The trades of an order are on the market it was put on.** -/
theorem market_of_trade (h : Recorded b c) {m : OrderMessage}
    (hm : Message.orderMessage m ∈ c.persistor) (hput : m.event = .put)
    (ht : t ∈ tradesOf m.order.id c.persistor) : t.market = m.order.market := by
  obtain ⟨ht, hnames⟩ := mem_tradesOf.1 ht
  obtain ⟨m', hm', hput', hid', hmarket⟩ : PutOn c.persistor m.order.id t.market := by
    obtain ⟨hask, hbid⟩ := venue_of_coherent h.venue ht
    rcases hnames with hnames | hnames
    · exact hnames ▸ hask
    · exact hnames ▸ hbid
  -- an order is put once
  obtain ⟨hpos, hle⟩ := h.order_named hm
  obtain ⟨pre, first, post, hms, -, hpre, hpost⟩ := (h.life hpos hle).put
  have hfirst : ∀ {m' : OrderMessage}, Message.orderMessage m' ∈ c.persistor → m'.event = .put →
      m'.order.id = m.order.id →
      Message.orderMessage m' = first := by
    intro m' hm' hput' hid'
    rw [hms, List.mem_append, List.mem_cons] at hm'
    rcases hm' with hm' | hm' | hm'
    · exact absurd hid' (hpre _ hm')
    · exact hm'
    · exact absurd ⟨hput', hid'⟩ (hpost _ hm')
  have hsame : m' = m :=
    Message.orderMessage.inj ((hfirst hm' hput' hid').trans (hfirst hm hput rfl).symm)
  rw [← hmarket, hsame]

end Recorded

end Dingir
