import Dingir.Spec.Events
import Dingir.Proof.Recovery
import Dingir.Proof.Conservation

/-!
# Streams of messages along a run

A relation `T` between a controller and the state of a stream, of rules `R`, is
*relayed* when each real move hands the persistor messages that `R` admits and
after which `T` holds again (`Relays`). Then so does every real call
(`Relays.call`). When `R` passes over the balance messages and `T` does not read
the times of orders, a replayed call keeps `T` as its real twin does
(`Retells.call`), and the messages behind any state tell it (`Retells.history`).
-/

namespace Dingir

open Keyed Outcome Market Stream

variable {E : Env} {settings : Settings} {now : Timestamp} {real : Bool} {u : Uuid} {w : Prop}
  {A : Market → Ctx → OrderInput → Prop} {b c c' c₁ : Controller} {ms : List Message}
  {σ : Type} {R : Stream.Rules σ Message} {T : Controller → σ → Prop} {s s₀ : σ}

/-- **A relation that real moves keep**, by the messages they hand over. -/
structure Relays (E : Env) (b : Controller) (R : Stream.Rules σ Message)
    (T : Controller → σ → Prop) : Prop where
  move : ∀ {now u w A c c' s}, Move E now true u w A c c' → ControllerOK b c → T c s →
    ∃ new, c'.persistor = c.persistor ++ new ∧ Coherent R s new ∧ T c' (after R s new)
  congr : ∀ {c c' s}, T c s → c'.markets = c.markets → c'.balanceManager = c.balanceManager →
    c'.sequencer.orderId = c.sequencer.orderId → c'.sequencer.tradeId = c.sequencer.tradeId → T c' s

namespace Relays

theorem moves (hR : Relays E b R T) (h : Moves E now true u w A c c') (hc : ControllerOK b c)
    (hs : T c s) :
    ∃ new, c'.persistor = c.persistor ++ new ∧ Coherent R s new ∧ T c' (after R s new) := by
  induction h with
  | refl => exact ⟨[], by simp, trivial, hs⟩
  | tail hmoves hmove ih =>
    obtain ⟨new, hp, hcoh, hs'⟩ := ih
    obtain ⟨new', hp', hcoh', hs''⟩ := hR.move hmove (Moves.ok hmoves hc) hs'
    refine ⟨new ++ new', by rw [hp', hp, List.append_assoc], coherent_append.2 ⟨hcoh, hcoh'⟩, ?_⟩
    rw [after_append]
    exact hs''

/-- **A real call hands over what it tells.** -/
theorem call (hR : Relays E b R T) {q : Request} {reply : Except Status Response}
    (hc : ControllerOK b c) (hs : T c s) (hreal : q.real = true)
    (h : c.call E q = .ok (reply, c')) :
    c'.persistor = c.persistor ++ c.tells E q ∧ Coherent R s (c.tells E q) ∧
    T c' (after R s (c.tells E q)) := by
  obtain ⟨c₁, hmoves, hends⟩ := call_moves hc h
  rw [hreal] at hmoves hends
  obtain ⟨new, hp, hcoh, hs'⟩ := hR.moves hmoves hc hs
  have hend : c'.persistor = c₁.persistor ∧ T c' (after R s new) := by
    cases hends with
    | refused => exact ⟨rfl, hs'⟩
    | logged =>
      obtain ⟨sq, l, hl, hid, htid⟩ := logged_eq c₁ q.now true q.operation q.user
      rw [hl]
      exact ⟨rfl, hR.congr hs' rfl rfl hid htid⟩
  have hp' := hend.1.trans hp
  have htells : c.tells E q = new := by
    unfold Controller.tells
    rw [show ({ q with real := true } : Request) = q by rw [← hreal], h]
    show c'.persistor.drop c.persistor.length = new
    rw [hp', List.drop_left]
  rw [htells]
  exact ⟨hp', hcoh, hend.2⟩

end Relays

/-! ## Replayed calls -/

/-- **A relation that the messages of any call keep**: of the messages about balances the
stream takes no note, and of the controller it reads neither them nor the times. -/
structure Retells (E : Env) (b : Controller) (R : Stream.Rules σ Message) (s₀ : σ)
    (T : Controller → σ → Prop) : Prop
    extends Relays E b R T where
  quiet : ∀ {s m}, Message.isBalance m = true → R.admits s m ∧ R.apply s m = s
  books : ∀ {c c' s}, T c s → c'.markets = c.markets → c'.sequencer.orderId = c.sequencer.orderId →
    c'.sequencer.tradeId = c.sequencer.tradeId → T c' s
  twin : ∀ {Q c r s}, Controller.Twin Q c r → T r s → T c s
  blank : ∀ {c}, Controller.Blank c → c.sequencer.orderId = 0 → c.sequencer.tradeId = 0 → T c s₀
  load : ∀ {c c₁ s}, T c s → SameBooks c c₁ → T (c₁.withCounters c.dump.history) s

/-- A balance update tells of balances only. -/
theorem updateBalance_tells {available : Bool} {req : BalanceUpdateRequest} :
    ∀ m ∈ c.tells E ⟨now, available, real, u, .balanceUpdate req⟩, m.isBalance = true := by
  intro m hm
  unfold Controller.tells at hm
  split at hm
  · rename_i reply' c'' hcall
    rcases Controller.updateBalance_cases hcall with ⟨-, rfl⟩ |
      ⟨-, _, price, change, detail, x', -, -, -, ha, rfl⟩
    · simp at hm
    · obtain ⟨bs, hbs, hall, -⟩ := persistUpdate_balances ha.persistor c.persistor rfl
      obtain ⟨sq, l, hl, -⟩ := logged_eq (c.withCtx x') now true (.balanceUpdate req) u
      have hm : m ∈ ((c.withCtx x').logged now true (.balanceUpdate req) u).persistor.drop
          c.persistor.length := hm
      rw [hl] at hm
      have hp : (c.withCtx x').persistor = c.persistor ++ bs := by
        unfold Controller.withCtx
        rw [hbs]
      have hm : m ∈ (c.withCtx x').persistor.drop c.persistor.length := hm
      rw [hp, List.drop_left] at hm
      exact hall m hm
  · simp at hm

/-- A balance update leaves the markets and the counters as they are. -/
theorem updateBalance_books {available : Bool} {req : BalanceUpdateRequest}
    {reply : Except Status Response}
    (h : c.updateBalance E now available real req u = .ok (reply, c')) :
    c'.markets = c.markets ∧ c'.sequencer.orderId = c.sequencer.orderId ∧
    c'.sequencer.tradeId = c.sequencer.tradeId := by
  rcases Controller.updateBalance_cases h with ⟨-, rfl⟩ |
    ⟨-, prec, price, change, detail, x', -, -, -, ha, rfl⟩
  · exact ⟨rfl, rfl, rfl⟩
  · obtain ⟨sq, l, hl, hid, htid⟩ := logged_eq (c.withCtx x') now real (.balanceUpdate req) u
    rw [hl]
    have hseq : x'.sequencer = c.sequencer := ha.sequencer
    exact ⟨rfl, hid.trans (congrArg Sequencer.orderId hseq),
      htid.trans (congrArg Sequencer.tradeId hseq)⟩

namespace Retells

/-- **Every call, real or replayed, keeps what it tells.** A call on orders that is replayed
ends in step with its real twin. -/
theorem call (hR : Retells E b R s₀ T) {q : Request} {reply : Except Status Response}
    (hc : ControllerOK b c) (hf : Filtered (fun _ => True) (c.ctx true)) (hs : T c s)
    (h : c.call E q = .ok (reply, c')) :
    Coherent R s (c.tells E q) ∧ T c' (after R s (c.tells E q)) := by
  by_cases hq : q.operation.Updates
  · obtain ⟨now, available, real, user, op⟩ := q
    cases op with
    | balanceUpdate req =>
      obtain ⟨hcoh, hafter⟩ := Stream.idle (s := s) fun m hm => hR.quiet (updateBalance_tells m hm)
      obtain ⟨hmarkets, hid, htid⟩ := updateBalance_books h
      refine ⟨hcoh, ?_⟩
      rw [hafter]
      exact hR.books hs hmarkets hid htid
    | _ => exact hq.elim
  · have htwin := Controller.Twin.refl (by rw [hc.capacity]; decide) hf
    obtain ⟨reply', r, hr, -, -, htr⟩ :=
      Controller.call_twin (τ := q.now) (ρ := true) (Pairing.exact_ok _) htwin hq h
    obtain ⟨-, hcoh, hs'⟩ := hR.toRelays.call (q := { q with real := true }) hc hs rfl hr
    exact ⟨hcoh, hR.twin htr hs'⟩

end Retells

/-! ## The history of a state -/

theorem createController_counters (h : createController settings = .ok c) :
    c.sequencer.orderId = 0 ∧ c.sequencer.tradeId = 0 := by
  rw [(createController_begun h).sequencer]
  exact ⟨rfl, rfl⟩

/-- A state of a run is well formed, and its filter holds issued ids only. -/
theorem History.ok (h : History E settings c ms) :
    ∃ b, createController settings = .ok b ∧ ControllerOK b c ∧
    Filtered (fun _ => True) (c.ctx true) := by
  induction h with
  | @init c hb =>
    obtain ⟨hok, -⟩ := createController_ok hb
    have hstart : Startable settings c c := .inl hb
    exact ⟨c, hb, hok, .of_empty hstart.empty⟩
  | call _ hcall ih =>
    obtain ⟨b, hb, hok, hf⟩ := ih
    exact ⟨b, hb, call_ok hok hcall, call_filtered hok hf hcall⟩
  | reset _ ih =>
    obtain ⟨b, hb, hok, -⟩ := ih
    exact ⟨b, hb, (resetState_ok hok).1, .of_empty rfl⟩
  | load _ _ hstart hload ihc ihd =>
    obtain ⟨b, hb, hokc, -⟩ := ihc
    obtain ⟨b₁, hb₁, hokd, -⟩ := ihd
    obtain rfl : b = b₁ := Except.ok.inj (hb.symm.trans hb₁)
    obtain ⟨hb', hblank⟩ := hstart.blank hb hokd
    obtain ⟨-, bm, markets, rfl, -⟩ := loadSlice_dump hokc hb' hblank hload
    exact ⟨b, hb, loadSlice_ok hokc hb' hblank hload, .of_empty hstart.empty⟩
  | logId _ ih =>
    obtain ⟨b, hb, hok, hf⟩ := ih
    exact ⟨b, hb, hok.setOperationLogId _, ⟨hf.trade, hf.other⟩⟩

/-- **The messages behind a state tell it.** -/
theorem Retells.history (hR : ∀ {b}, createController settings = .ok b → Retells E b R s₀ T)
    (h : History E settings c ms) : Coherent R s₀ ms ∧ T c (after R s₀ ms) := by
  induction h with
  | @init c hb =>
    obtain ⟨-, hblank, -⟩ := createController_ok hb
    obtain ⟨hid, htid⟩ := createController_counters hb
    exact ⟨trivial, (hR hb).blank hblank hid htid⟩
  | call hc hcall ih =>
    obtain ⟨b, hb, hok, hf⟩ := hc.ok
    obtain ⟨hcoh, hs⟩ := ih
    obtain ⟨hcoh', hs'⟩ := (hR hb).call hok hf hs hcall
    refine ⟨coherent_append.2 ⟨hcoh, hcoh'⟩, ?_⟩
    rw [after_append]
    exact hs'
  | reset hc _ =>
    obtain ⟨b, hb, hok, -⟩ := hc.ok
    exact ⟨trivial, (hR hb).blank (resetState_ok hok).2 rfl rfl⟩
  | load hc hd hstart hload ih _ =>
    obtain ⟨b, hb, hokc, -⟩ := hc.ok
    obtain ⟨b₁, hb₁, hokd, -⟩ := hd.ok
    obtain rfl : b = b₁ := Except.ok.inj (hb.symm.trans hb₁)
    obtain ⟨hb', hblank⟩ := hstart.blank hb hokd
    exact ⟨ih.1, (hR hb).load ih.2 (loadSlice_dump hokc hb' hblank hload).1⟩
  | logId hc ih =>
    obtain ⟨b, hb, -⟩ := hc.ok
    exact ⟨ih.1, (hR hb).books ih.2 rfl rfl rfl⟩

end Dingir
