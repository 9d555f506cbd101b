import Dingir.Proof.Relay
import Dingir.Proof.Events
import Dingir.Proof.Book

/-!
# Ids are unique and reveal the taker

The messages of the engine carry the ids of its orders and trades. Each step hands
over what the counters admit (`Step.issues`): a put has the next order id, a trade
the next trade id, and of its two orders the one being put is the newer, since every
resting order drew its id before. By `Retells.history` this holds of all messages
behind a state, slices and replays included: **`History.issuesInTurn`**.
-/

namespace Dingir

open Keyed Outcome Market Stream

variable {E : Env} {settings : Settings} {now : Timestamp} {u : Uuid} {w : Prop}
  {A : Market → Ctx → OrderInput → Prop} {b c c' : Controller} {d d' : Desk} {m m' : Market}
  {x x' : Ctx} {k : Taking} {rc : OrderRc} {t : Trade} {ms : List Message}

/-! ## The counters as a stream -/

/-- The newest ids a stream of messages has issued. -/
structure Issued where
  order : ℕ
  trade : ℕ

def Sequencer.issued (s : Sequencer) : Issued := ⟨s.orderId, s.tradeId⟩

namespace Issued

def apply (s : Issued) : Message → Issued
  | .orderMessage m => if m.event = .put then { s with order := m.order.id } else s
  | .tradeMessage t => { s with trade := t.id }
  | _ => s

def admits (s : Issued) : Message → Prop
  | .orderMessage m => m.event = .put → m.order.id = s.order + 1
  | .tradeMessage t => t.id = s.trade + 1 ∧ t.TakenByNewer
  | _ => True

/-- A put has the next order id, a trade the next trade id and a newer taker. -/
def rules : Stream.Rules Issued Message := ⟨apply, admits⟩

end Issued

/-- **A coherent stream has issued its ids in turn.** -/
theorem issued_of_coherent (h : Coherent Issued.rules ⟨0, 0⟩ ms) :
    orderIds ms = List.range' 1 (after Issued.rules ⟨0, 0⟩ ms).order ∧
      tradeIds ms = List.range' 1 (after Issued.rules ⟨0, 0⟩ ms).trade ∧
      ∀ t, Message.tradeMessage t ∈ ms → t.TakenByNewer := by
  refine Coherent.rule (P := fun ms s => orderIds ms = List.range' 1 s.order ∧
    tradeIds ms = List.range' 1 s.trade ∧
    ∀ t, Message.tradeMessage t ∈ ms → t.TakenByNewer) ⟨rfl, rfl, by simp⟩ ?_ h
  intro ms e hms hadmits
  generalize after Issued.rules ⟨0, 0⟩ ms = s at hms hadmits
  obtain ⟨horders, htrades, htaken⟩ := hms
  have hsplit : orderIds (ms ++ [e]) = orderIds ms ++ orderIds [e] ∧
      tradeIds (ms ++ [e]) = tradeIds ms ++ tradeIds [e] :=
    ⟨List.filterMap_append, List.filterMap_append⟩
  rw [hsplit.1, hsplit.2, horders, htrades]
  cases e with
  | orderMessage m =>
    have hkept : ∀ t, Message.tradeMessage t ∈ ms ++ [.orderMessage m] → t.TakenByNewer := by
      intro t ht
      exact htaken t (by simpa using ht)
    -- only a put issues an id
    by_cases hput : m.event = .put
    · have hid : m.order.id = s.order + 1 := hadmits hput
      have happly : Issued.rules.apply s (.orderMessage m) = { s with order := s.order + 1 } := by
        rw [← hid]
        exact if_pos hput
      rw [happly, List.range'_concat]
      refine ⟨?_, by simp [tradeIds], hkept⟩
      simp only [orderIds, List.filterMap_cons, hput, if_true, List.filterMap_nil, hid]
      rw [Nat.one_mul, Nat.add_comm]
    · have happly : Issued.rules.apply s (.orderMessage m) = s := if_neg hput
      rw [happly]
      exact ⟨by simp [orderIds, hput], by simp [tradeIds], hkept⟩
  | tradeMessage t =>
    obtain ⟨hid, hnewer⟩ : t.id = s.trade + 1 ∧ t.TakenByNewer := hadmits
    have happly : Issued.rules.apply s (.tradeMessage t) = { s with trade := s.trade + 1 } := by
      rw [← hid]
      rfl
    rw [happly, List.range'_concat]
    refine ⟨by simp [orderIds], ?_, fun t' ht' => ?_⟩
    · simp only [tradeIds, List.filterMap_cons, List.filterMap_nil, hid]
      rw [Nat.one_mul, Nat.add_comm]
    · rcases List.mem_append.1 ht' with ht' | ht'
      · exact htaken t' ht'
      · obtain rfl : t' = t := by simpa using ht'
        exact hnewer
  | _ => exact ⟨by simp [orderIds, Issued.rules, Issued.apply], by simp [tradeIds, Issued.rules,
      Issued.apply], by simpa using htaken⟩

theorem issuedInTurn_range (last : ℕ) : IssuedInTurn (List.range' 1 last) last := by
  refine ⟨List.pairwise_lt_range', fun id => ?_⟩
  rw [List.mem_range'_1]
  omega

/-! ## The steps -/

/-- The order being put is newer than the maker it meets. -/
theorem Meets.newer (hmeet : Meets m k rc) (hd : DeskOK ⟨m, x, some k⟩) :
    (m.rcs.read rc).id < k.order.id := by
  have hk := hd.taking k rfl
  have hfresh := hk.fresh _ _ hmeet.resting
  have hid := hk.id
  omega

/-- **The taker of a trade is the order with the larger id.** -/
theorem Trades.takenByNewer (ht : Trades now m x k rc t m' x') (hmeet : Meets m k rc)
    (hd : DeskOK ⟨m, x, some k⟩) : t.TakenByNewer := by
  have hlt := hmeet.newer hd
  have hask := ht.askOrder
  have hbid := ht.bidOrder
  have haskRole := ht.askRole
  have hbidRole := ht.bidRole
  unfold askOf at hask
  unfold bidOf at hbid
  -- the taker is the order being put
  by_cases hside : k.order.isAsk = true
  · rw [if_pos hside] at hask hbid haskRole hbidRole
    exact .inl ⟨haskRole, hbidRole, by omega⟩
  · rw [if_neg hside] at hask hbid haskRole hbidRole
    exact .inr ⟨haskRole, hbidRole, by omega⟩

/-- Messages about balances issue nothing. -/
theorem Issued.balance {s : Issued} {e : Message} (h : e.isBalance = true) :
    Issued.rules.admits s e ∧ Issued.rules.apply s e = s := by
  cases e with
  | orderMessage _ => simp [Message.isBalance] at h
  | tradeMessage _ => simp [Message.isBalance] at h
  | _ => exact ⟨trivial, rfl⟩

theorem Issued.noPut {s : Issued} {o : Order} {event : OrderEventType} (h : event ≠ .put) :
    Issued.rules.admits s (.orderMessage (.fromOrder o event)) ∧
    Issued.rules.apply s (.orderMessage (.fromOrder o event)) = s :=
  ⟨fun hput => absurd hput h, if_neg h⟩

/-- **Each step hands over the ids it draws.** -/
theorem Step.issues (h : Step E now u A d d') (hd : DeskOK d) (hp : d.ctx.persistor = .real ms) :
    ∃ new, d'.ctx.persistor = .real (ms ++ new) ∧ Coherent Issued.rules d.ctx.sequencer.issued new ∧
      after Issued.rules d.ctx.sequencer.issued new = d'.ctx.sequencer.issued := by
  -- a finish tells an order and draws no id
  have hfinish : ∀ (o : Order) {x : Ctx}, x.persistor = .real ms →
      ∃ new, x.persistor.putOrder o .finish = .real (ms ++ new) ∧
      Coherent Issued.rules x.sequencer.issued new ∧
      after Issued.rules x.sequencer.issued new = x.sequencer.issued := by
    intro o x hx
    refine ⟨[.orderMessage (.fromOrder o .finish)], by rw [hx]; rfl, ?_⟩
    refine Stream.idle fun e he => ?_
    rw [List.mem_singleton.1 he]
    exact Issued.noPut (by decide)
  cases h with
  | @accept m x input ql _ _ _ =>
    have hp : x.persistor = .real ms := hp
    refine ⟨[.orderMessage (.fromOrder (m.newOrder (x.sequencer.orderId + 1) now input u) .put)],
      ?_, ⟨fun _ => rfl, trivial⟩, rfl⟩
    show x.persistor.putOrder _ .put = _
    rw [hp]
    rfl
  | @trade m m' x x' k rc t hmeet ht =>
    obtain ⟨bs, hbs, hall, -⟩ := ht.messages ms hp
    obtain ⟨hcoh, hafter⟩ :=
      Stream.idle (s := x.sequencer.issued) fun e he => Issued.balance (hall e he)
    have hissued :
        Issued.rules.apply x.sequencer.issued (.tradeMessage t) = x'.sequencer.issued := by
      rw [ht.sequencer]
      show Issued.mk _ t.id = _
      rw [ht.id]
      rfl
    -- the trade, and behind it the maker that is left
    have htrade : Coherent Issued.rules x.sequencer.issued
        (t.told (filledMaker now k.order.isAsk (m.rcs.read rc) t)) ∧
        after Issued.rules x.sequencer.issued
          (t.told (filledMaker now k.order.isAsk (m.rcs.read rc) t)) = x'.sequencer.issued := by
      unfold Trade.told
      rw [coherent_cons, after_cons, hissued]
      have hrest : ∀ e ∈ (if (filledMaker now k.order.isAsk (m.rcs.read rc) t).remain = 0 then []
          else [Message.orderMessage
            (.fromOrder (filledMaker now k.order.isAsk (m.rcs.read rc) t) .update)]),
          Issued.rules.admits x'.sequencer.issued e ∧
          Issued.rules.apply x'.sequencer.issued e = x'.sequencer.issued := by
        intro e he
        split at he
        · simp at he
        · rw [List.mem_singleton.1 he]
          exact Issued.noPut (by decide)
      obtain ⟨hcoh', hafter'⟩ := Stream.idle hrest
      exact ⟨⟨⟨ht.id, ht.takenByNewer hmeet hd⟩, hcoh'⟩, hafter'⟩
    refine ⟨bs ++ t.told (filledMaker now k.order.isAsk (m.rcs.read rc) t), by
      rw [hbs, List.append_assoc], ?_, ?_⟩
    · rw [coherent_append, hafter]
      exact ⟨hcoh, htrade.1⟩
    · rw [after_append, hafter]
      exact htrade.2
  | finish _ _ => exact hfinish _ hp
  | close _ => exact hfinish _ hp
  | rest _ _ _ _ _ => exact ⟨[], by rw [List.append_nil]; exact hp, trivial, rfl⟩
  | cancel _ _ _ => exact hfinish _ hp

/-- **A run of steps hands over the ids it draws.** -/
theorem Steps.issues (h : Steps E now u A d d') (hd : DeskOK d) (hp : d.ctx.persistor = .real ms) :
    ∃ new, d'.ctx.persistor = .real (ms ++ new) ∧ Coherent Issued.rules d.ctx.sequencer.issued new ∧
      after Issued.rules d.ctx.sequencer.issued new = d'.ctx.sequencer.issued := by
  refine Steps.rule (P := fun e => ∃ new, e.ctx.persistor = .real (ms ++ new) ∧
    Coherent Issued.rules d.ctx.sequencer.issued new ∧
    after Issued.rules d.ctx.sequencer.issued new = e.ctx.sequencer.issued)
    ?_ h hd ⟨[], by rw [List.append_nil]; exact hp, trivial, rfl⟩
  rintro e e' he ⟨new, hpe, hcoh, hafter⟩ hstep
  obtain ⟨new', hpe', hcoh', hafter'⟩ := hstep.issues he hpe
  refine ⟨new ++ new', by rw [hpe', List.append_assoc], coherent_append.2 ⟨hcoh, ?_⟩, ?_⟩
  · rw [hafter]
    exact hcoh'
  · rw [after_append, hafter, hafter']

/-! ## Calls and histories -/

/-- **The counters are told by the messages**, over a call and over a restart. -/
theorem retells_issued : Retells E b Issued.rules ⟨0, 0⟩ fun c s => s = c.sequencer.issued where
  move := by
    rintro now u w A c c' s h hc rfl
    cases h with
    | @market name m m' x' hm hsteps =>
      obtain ⟨new, hp, hcoh, hafter⟩ := hsteps.issues ((hc.desk _ _ hm).2 true) rfl
      have hp : x'.persistor = .real (c.persistor ++ new) := hp
      refine ⟨new, ?_, hcoh, hafter⟩
      unfold Controller.withMarket Controller.withCtx
      rw [hp]
    | @update p x' _ _ _ _ ha =>
      obtain ⟨bs, hbs, hall, -⟩ := persistUpdate_balances ha.persistor c.persistor rfl
      obtain ⟨hcoh, hafter⟩ :=
        Stream.idle (s := c.sequencer.issued) fun e he => Issued.balance (hall e he)
      refine ⟨bs, ?_, hcoh, hafter.trans ?_⟩
      · unfold Controller.withCtx
        rw [hbs]
      · exact (congrArg Sequencer.issued ha.sequencer).symm
  congr := fun hs _ _ hid htid => hs.trans (congrArg₂ Issued.mk hid.symm htid.symm)
  quiet := Issued.balance
  books := fun hs _ hid htid => hs.trans (congrArg₂ Issued.mk hid.symm htid.symm)
  twin := fun htwin hs => hs.trans (congrArg₂ Issued.mk htwin.orderId htwin.tradeId)
  blank := fun _ hid htid => congrArg₂ Issued.mk hid.symm htid.symm
  load := fun hs _ => hs

/-- A resting order drew its id before. -/
theorem ControllerOK.resting_issued (hc : ControllerOK b c) {id : ℕ} {o : Order}
    (ho : c.Rests id o) : o.id = id ∧ id ≤ c.sequencer.orderId := by
  obtain ⟨name, m, hm, ho⟩ := ho
  have hd := (hc.desk name m hm).2 true
  exact ⟨hd.index.resting_id ho, hd.ids id o ho⟩

/-- The states in which a request puts an order are well formed. -/
theorem ControllerOK.putsIn {q : Request} {e : Controller} (hc : ControllerOK b c)
    (h : c.PutsIn E q e) : ControllerOK b e := by
  induction h with
  | order _ => exact hc
  | batch _ hstart =>
    have hmoves : Moves E q.now q.real q.user True AnyOrder c _ := batchStart_moves hc hstart
    exact hmoves.ok hc
  | next _ hput ih =>
    have hmoves : Moves E q.now q.real q.user True AnyOrder _ _ := putOrder_moves ih admits_any hput
    exact hmoves.ok ih

/-- A new order is newer than all that rests, on any market. -/
theorem putOrder_newest {req : OrderPutRequest} {real : Bool} {o : Order} {e e' : Controller}
    (he : ControllerOK b e) (h : e.putOrder E now real req u = .ok (.ok o, e')) {id : ℕ} {p : Order}
    (hp : e.Rests id p) : id < o.id := by
  rcases Controller.putOrder_cases h with ⟨⟨st, hst⟩, -⟩ |
    ⟨o', m, input, m', x', ho, hm, -, hput, -⟩
  · simp at hst
  obtain rfl := Except.ok.inj ho
  have hid : o.id = e.sequencer.orderId + 1 := (putOrder_put ((he.desk _ _ hm).2 real) hput).id
  have hle := (he.resting_issued hp).2
  omega

/-- The row of a trade names as its taker side the side whose role is the taker. -/
theorem MarketTrade.takerSide_iff (h : t.TakenByNewer) :
    ((MarketTrade.fromTrade t).takerSide = .ask ↔ t.askRole = .taker) ∧
      ((MarketTrade.fromTrade t).takerSide = .bid ↔ t.bidRole = .taker) := by
  unfold MarketTrade.fromTrade
  rcases h with ⟨hask, hbid, hlt⟩ | ⟨hask, hbid, hlt⟩
  · rw [if_neg (by omega), hask, hbid]
    simp
  · rw [if_pos hlt, hask, hbid]
    simp

/-- **Ids are unique and reveal the taker**, where `ms` are the messages so far: the ids of the
orders and of the trades were issued one after the other, up to the counters; whatever rests has an
id already issued and a new order a larger one than all that rests; and the taker of a trade is the
newer of its orders, as `MarketTrade` has it. -/
structure Controller.IssuesInTurn (E : Env) (c : Controller) (ms : List Message) : Prop where
  orders : IssuedInTurn (orderIds ms) c.sequencer.orderId
  trades : IssuedInTurn (tradeIds ms) c.sequencer.tradeId
  rests : ∀ id o, c.Rests id o → o.id = id ∧ id ≤ c.sequencer.orderId
  newest : ∀ q e, c.PutsIn E q e →
    ∀ req o e', e.putOrder E q.now q.real req q.user = .ok (.ok o, e') →
    ∀ id p, e.Rests id p → id < o.id
  taker : ∀ t, Message.tradeMessage t ∈ ms → t.TakenByNewer ∧
    ((MarketTrade.fromTrade t).takerSide = .ask ↔ t.askRole = .taker) ∧
    ((MarketTrade.fromTrade t).takerSide = .bid ↔ t.bidRole = .taker)

/-- A coherent stream has its counters from the ids in it. -/
theorem ControllerOK.issuesInTurn (hok : ControllerOK b c) (hcoh : Coherent Issued.rules ⟨0, 0⟩ ms)
    (hissued : after Issued.rules ⟨0, 0⟩ ms = c.sequencer.issued) : c.IssuesInTurn E ms := by
  obtain ⟨horders, htrades, htaken⟩ := issued_of_coherent hcoh
  rw [hissued] at horders htrades
  refine ⟨?_, ?_, fun id o ho => hok.resting_issued ho, ?_,
    fun t ht => ⟨htaken t ht, MarketTrade.takerSide_iff (htaken t ht)⟩⟩
  · rw [horders]
    exact issuedInTurn_range _
  · rw [htrades]
    exact issuedInTurn_range _
  · intro q e he req o e' hput id p hp
    exact putOrder_newest (hok.putsIn he) hput hp

/-- **Behind any state** the ids of its messages were issued in turn, replays included. -/
theorem History.issuesInTurn (h : History E settings c ms) : c.IssuesInTurn E ms := by
  obtain ⟨b, -, hok, -⟩ := h.ok
  obtain ⟨hcoh, hissued⟩ := Retells.history (fun _ => retells_issued) h
  exact hok.issuesInTurn hcoh hissued

end Dingir
