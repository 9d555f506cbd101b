import Dingir.Spec.Sample
import Dingir.Proof.Replay

/-!
# Value is conserved

Orders, their trades and their cancellation move amounts between accounts; only
the fees that a trade withholds leave the balances (`Conserved`). Freezing and
releasing move within a user, and each of the four legs of a settlement has its
counterpart. **`Reachable.conserves`**.

A replayed call persists no trades. Its trades are those of the same call made
for real, which runs in step with it because the filter of a reachable
controller holds no trade still to come (`Reachable.filtered`).
-/

namespace Dingir

open Keyed Rounding Posting Outcome Market

/-- What a trade withholds of an asset: a fee that is not negative. -/
def Trade.withheld (t : Trade) (asset : String) : Decimal :=
  (if t.base = asset ∧ 0 ≤ t.bidFee then t.bidFee else 0) +
    (if t.quote = asset ∧ 0 ≤ t.askFee then t.askFee else 0)

/-- What trades withhold together. -/
def withheld (ts : List Trade) (asset : String) : Decimal := (ts.map fun t => t.withheld asset).sum

@[simp] theorem withheld_nil (a : String) : withheld [] a = 0 := rfl

@[simp] theorem withheld_append (ts ts' : List Trade) (a : String) :
    withheld (ts ++ ts') a = withheld ts a + withheld ts' a := by simp [withheld]

@[simp] theorem withheld_singleton (t : Trade) (a : String) : withheld [t] a = t.withheld a := by
  simp [withheld]

/-- Crediting less the fee leaves out what is withheld. -/
theorem afterFee_sub (amount fee : Decimal) :
    afterFee amount fee - amount = -(if 0 ≤ fee then fee else 0) := by
  unfold afterFee
  split <;> ring

variable {E : Env} {settings : Settings} {now : Timestamp} {real : Bool} {u : Uuid}
  {c c' b : Controller} {d d' : Desk} {A : Market → Ctx → OrderInput → Prop}

/-- **The legs of a trade cancel**, up to the fees withheld. -/
theorem amountIn_postings {t : Trade} {m : Market} (hbase : t.base = m.base)
    (hquote : t.quote = m.quote) (takerIsAsk : Bool) (a : String) :
    amountIn (·.asset = a) (t.postings m takerIsAsk) = -t.withheld a := by
  have h₁ := afterFee_sub t.amount t.bidFee
  have h₂ := afterFee_sub t.quoteAmount t.askFee
  simp only [Trade.postings, amountIn_cons, amountIn_nil, Trade.withheld, hbase, hquote]
  by_cases hb : m.base = a <;> by_cases hq :
    m.quote = a <;> simp only [hb, hq, if_true, if_false, true_and, false_and]
  all_goals linarith

/-- From `x` to `x'` the trades `ts` were made, and each asset lost what they withheld. -/
structure Conserved (x x' : Ctx) (ts : List Trade) : Prop where
  real : x'.persistor.realPersist = x.persistor.realPersist
  trades : x.persistor.realPersist = true → x'.persistor.trades = x.persistor.trades ++ ts
  total : ∀ a, x'.balanceManager.statusTotal a = x.balanceManager.statusTotal a - withheld ts a

theorem Conserved.refl (x : Ctx) : Conserved x x [] := ⟨rfl, by simp, by simp⟩

theorem Conserved.trans {x x' x'' : Ctx} {ts ts' : List Trade} (h : Conserved x x' ts)
    (h' : Conserved x' x'' ts') : Conserved x x'' (ts ++ ts') := by
  refine ⟨h'.real.trans h.real, fun hr => ?_, fun a => ?_⟩
  · rw [h'.trades (h.real.trans hr), h.trades hr, List.append_assoc]
  · rw [h'.total, h.total, withheld_append]; ring

/-- Moving an amount between two accounts in one asset changes no total. -/
theorem Posted.total_move {bm bm' : BalanceManager} {k k' : BalanceMapKey} {v : Decimal}
    (h : Posted bm bm' [(k, v), (k', -v)]) (hk : k'.asset = k.asset) (a : String) :
    bm'.statusTotal a = bm.statusTotal a := by
  rw [h.total, amountIn_cons, amountIn_cons, amountIn_nil, hk]
  split <;> ring

/-- **Every step conserves value.** -/
theorem Step.conserved (h : Step E now u A d d') (hd : DeskOK d) :
    ∃ ts, Conserved d.ctx d'.ctx ts := by
  cases h with
  | accept _ _ _ => exact ⟨[], by simp, by simp, by simp⟩
  | @trade m m' x x' k rc t _ ht =>
    refine ⟨[t], ht.real, ht.trades, fun a => ?_⟩
    rw [ht.posted.total, amountIn_postings ht.base ht.quote, withheld_singleton, sub_eq_add_neg]
  | finish _ _ => exact ⟨[], by simp, by simp, by simp⟩
  | close _ => exact ⟨[], by simp, by simp, by simp⟩
  | @rest m x k bm _ _ _ hfreeze _ =>
    have hp := frozenBalance_posted hd.gridded hd.prec (hd.taking _ rfl).fits hfreeze
    refine ⟨[], rfl, by simp, fun a => ?_⟩
    rw [withheld_nil, sub_zero]
    have hmove : Posted x.balanceManager bm [(m.payAccount k.order, -k.order.restFrozen),
        (m.backAccount k.order, - -k.order.restFrozen)] := by
      rw [neg_neg]
      exact hp
    exact hmove.total_move rfl a
  | cancel hrc _ hfree =>
    have hp := unfrozenBalance_posted hd.gridded hd.prec
      (hd.backed _ _ (resting_some.2 ⟨_, hrc, rfl⟩)) hfree
    refine ⟨[], by simp, by simp, fun a => ?_⟩
    rw [withheld_nil, sub_zero]
    exact hp.total_move rfl a

theorem Steps.conserved (h : Steps E now u A d d') (hd : DeskOK d) :
    ∃ ts, Conserved d.ctx d'.ctx ts := by
  refine Steps.rule (P := fun e => ∃ ts, Conserved d.ctx e.ctx ts) (fun e e' he hP hstep => ?_) h hd
    ⟨[], .refl _⟩
  obtain ⟨ts, hts⟩ := hP
  obtain ⟨ts', hts'⟩ := hstep.conserved he
  exact ⟨ts ++ ts', hts.trans hts'⟩

/-- A call that does not update a balance conserves value. -/
theorem Moves.conserved (h : Moves E now real u False A c c') (hc : ControllerOK b c) :
    ∃ ts, Conserved (c.ctx real) (c'.ctx real) ts := by
  induction h with
  | refl => exact ⟨[], .refl _⟩
  | tail hmoves hmove ih =>
    obtain ⟨ts, hts⟩ := ih
    have hc₁ := Moves.ok hmoves hc
    cases hmove with
    | @market name m m' x' hm hsteps =>
      obtain ⟨ts', hts'⟩ := hsteps.conserved ((hc₁.desk _ _ hm).2 real)
      refine ⟨ts ++ ts', hts.trans ?_⟩
      rwa [Controller.ctx_withMarket (hts'.real.trans (Controller.realPersist_ctx _))]
    | update hw _ _ _ _ => exact hw.elim

/-! ## The filter of a reachable controller -/

variable {K : BalanceUpdateKey → Prop} {x x' : Ctx}

/-- What is put into the filter is a trade no newer than the counter, or a key in `K`. -/
theorem Filtered.inserted {P : BalanceUpdateKey → Prop} {n : ℕ} (h : Filtered K x)
    (hins : TtlCache.Inserted P x.updateController.cache n x'.updateController.cache)
    (hP : ∀ k, P k → if k.businessType = .trade then k.businessId ≤ x'.sequencer.tradeId else K k)
    (hid : x.sequencer.tradeId ≤ x'.sequencer.tradeId) : Filtered K x' := by
  constructor <;> intro a ha hk <;> rcases hins.mem ha with hold | hnew
  · exact (h.trade a hold hk).trans hid
  · simpa [hk] using hP _ hnew
  · exact h.other a hold hk
  · simpa [hk] using hP _ hnew

theorem Step.filtered (h : Step E now u A d d') (hf : Filtered K d.ctx) : Filtered K d'.ctx := by
  cases h with
  | trade _ ht =>
    refine hf.inserted ht.cache (fun k hk => ?_) (by rw [ht.sequencer]; exact Nat.le_succ _)
    rw [if_pos hk.1, hk.2, ht.sequencer]
  | _ => exact ⟨hf.trade, hf.other⟩

theorem Steps.filtered (h : Steps E now u A d d') (hf : Filtered K d.ctx) : Filtered K d'.ctx := by
  induction h with
  | refl => exact hf
  | tail _ hstep ih => exact hstep.filtered ih

theorem Moves.filtered {w : Prop} (h : Moves E now real u w A c c')
    (hf : Filtered (fun _ => True) (c.ctx true)) : Filtered (fun _ => True) (c'.ctx true) := by
  induction h with
  | refl => exact hf
  | @tail c₁ _ _ hmove ih =>
    cases hmove with
    | market _ hsteps =>
      have hf' : Filtered (fun _ => True) _ := hsteps.filtered ⟨ih.trade, ih.other⟩
      exact ⟨hf'.trade, hf'.other⟩
    | @update p x' _ _ _ hp ha =>
      have hins : TtlCache.Inserted (· = p.key) c₁.updateController.cache 1
          x'.updateController.cache := by
        rw [ha.cache]
        exact .insert .refl rfl
      refine ih.inserted hins (fun k hk => ?_) (congrArg Sequencer.tradeId ha.sequencer).ge
      rw [hk, if_neg (show p.key.businessType ≠ .trade from hp)]
      trivial

theorem call_filtered {q : Request} {reply : Except Status Response} (hc : ControllerOK b c)
    (hf : Filtered (fun _ => True) (c.ctx true)) (h : c.call E q = .ok (reply, c')) :
    Filtered (fun _ => True) (c'.ctx true) := by
  obtain ⟨c₁, hmoves, hends⟩ := call_moves hc h
  have hf₁ := hmoves.filtered hf
  cases hends with
  | refused => exact hf₁
  | logged =>
    obtain ⟨s, l, hl, -, hs⟩ := logged_eq c₁ q.now q.real q.operation q.user
    rw [hl]
    exact ⟨fun a ha hk => (hf₁.trade a ha hk).trans_eq hs.symm, hf₁.other⟩

theorem Filtered.of_empty (h : x.updateController.cache.entries = []) : Filtered K x :=
  ⟨fun a ha => by simp [h] at ha, fun a ha => by simp [h] at ha⟩

/-- What a restart begins with has an empty filter. -/
theorem Startable.empty {d b' : Controller} (h : Startable settings d b') :
    b'.updateController.cache.entries = [] := by
  rcases h with h | rfl
  · rw [(createController_begun h).filter]
    rfl
  · rfl

/-- **The filter of a reachable controller holds no trade newer than its counter.** -/
theorem Reachable.filtered (h : Reachable E settings c) :
    Filtered (fun _ => True) (c.ctx true) := by
  refine Reachable.rule (P := fun e => Filtered (fun _ => True) (e.ctx true)) (fun e he => ?_) ?_
    (fun e id he => ⟨he.trade, he.other⟩) (fun _ _ _ _ => .of_empty rfl) ?_ h
  · exact .of_empty (Startable.empty (d := e) (.inl he))
  · exact fun b e q reply e' hok hf hcall => call_filtered hok hf hcall
  · intro b e d b' c₁ hok _ hb' hblank hstart _ hload
    obtain ⟨-, bm, markets, rfl, -⟩ := loadSlice_dump hok hb' hblank hload
    exact .of_empty hstart.empty

/-! ## Every call -/

/-- A call that updates a balance changes the one balance it names. -/
theorem updateBalance_frame {available : Bool} {req : BalanceUpdateRequest}
    {reply : Except Status Response} (hc : ControllerOK b c)
    (h : c.updateBalance E now available real req u = .ok (reply, c')) {k : BalanceMapKey}
    (hk : k ≠ ⟨u, .available, req.asset⟩) :
    c'.balanceManager.getByKey k = c.balanceManager.getByKey k := by
  rcases Controller.updateBalance_cases h with ⟨-, rfl⟩ |
    ⟨-, prec, price, change, detail, x', -, -, -, ha, rfl⟩
  · rfl
  · obtain ⟨d, hd⟩ := applyChange_ok hc.gridded ha.change
    obtain ⟨s, l, hl, -, -⟩ := logged_eq (c.withCtx x') now real (.balanceUpdate req) u
    rw [hl]
    show x'.balanceManager.getByKey k = _
    rw [hd.posted.balance, amountIn_cons, if_neg (fun he => hk he.symm), amountIn_nil, add_zero,
      add_zero]

/-- **Value is conserved by every call of a reachable controller.** A call on orders
takes from each asset what its trades withhold, the trades being those that the
call, made for real, hands to the persistor; a balance update changes at most
the balance it names. -/
theorem Reachable.conserves (h : Reachable E settings c) {q : Request}
    {reply : Except Status Response} (hcall : c.call E q = .ok (reply, c')) :
    (¬ q.operation.Updates → ∃ reply' r ts, c.call E { q with real := true } = .ok (reply', r) ∧
      r.balanceManager = c'.balanceManager ∧ r.trades = c.trades ++ ts ∧
      ∀ a, c'.balanceManager.statusTotal a = c.balanceManager.statusTotal a - withheld ts a) ∧
    ∀ req, q.operation = .balanceUpdate req → ∀ k, k ≠ ⟨q.user, .available, req.asset⟩ →
      c'.balanceManager.getByKey k = c.balanceManager.getByKey k := by
  obtain ⟨b, -, hc⟩ := h.ok
  refine ⟨fun hq => ?_, fun req hreq k hk => ?_⟩
  · have htwin := Controller.Twin.refl (by rw [hc.capacity]; decide) h.filtered
    obtain ⟨reply', r, hr, -, -, htr⟩ :=
      Controller.call_twin (τ := q.now) (ρ := true) (Pairing.exact_ok _) htwin hq hcall
    obtain ⟨r₁, hmoves, hends⟩ := call_moves hc hr
    have hnone : q.operation.Updates = False := eq_false hq
    simp only [hnone] at hmoves
    obtain ⟨ts, hts⟩ := hmoves.conserved hc
    have hsame : r.balanceManager = r₁.balanceManager ∧ r.persistor = r₁.persistor := by
      cases hends with
      | refused => exact ⟨rfl, rfl⟩
      | logged =>
        obtain ⟨s, l, hl, -, -⟩ := logged_eq r₁ q.now true q.operation q.user
        simp only [hl, and_self]
    have hbalances : r.balanceManager = c'.balanceManager :=
      htr.balances.eq ((call_ok hc hr).assets.trans (call_ok hc hcall).assets.symm)
    refine ⟨reply', r, ts, hr, hbalances, ?_, fun a => ?_⟩
    · have htrades := hts.trades rfl
      unfold Controller.trades
      rw [hsame.2]
      exact htrades
    · rw [← hbalances, hsame.1]
      exact hts.total a
  · obtain ⟨now, available, real, user, op⟩ := q
    obtain rfl : op = .balanceUpdate req := hreq
    exact updateBalance_frame hc hcall hk

/-- Two deposits and a resting ask. -/
def sampleAsk : List Request :=
  [requestAt 0 bob (depositOf "ETH" 1 "10"), requestAt 0 alice (depositOf "USDT" 2 "1000"),
    requestAt 1 bob (.orderPut (limitOrder .ask "2" "100"))]

/-- A bid that meets the ask: both fees are withheld. -/
theorem Reachable.conserves_trade : ∃ c r c', Reachable releaseEnv sampleSettings c ∧
    c.call releaseEnv (requestAt 2 alice (.orderPut (limitOrder .bid "1" "100"))) =
      .ok (.ok r, c') ∧
    c.balanceManager.statusTotal "USDT" = 1000 ∧ c'.balanceManager.statusTotal "USDT" = 9999 / 10 ∧
    ∃ ts, ∀ a, c'.balanceManager.statusTotal a = c.balanceManager.statusTotal a -
      withheld ts a := by
  have h : (sampleRun releaseEnv sampleAsk >>= fun c =>
      c.call releaseEnv (requestAt 2 alice (.orderPut (limitOrder .bid "1" "100"))) >>= fun t =>
        pure (t.1.isOk, c.balanceManager.statusTotal "USDT",
          t.2.balanceManager.statusTotal "USDT")) =
      (.ok (true, 1000, 9999 / 10) : Except Panic (Bool × Decimal × Decimal)) := by decide +kernel
  simp only [bind_ok, pure_ok, Prod.mk.injEq] at h
  obtain ⟨c, hc, ⟨reply, c'⟩, hcall, hreply, hbefore, hafter⟩ := h
  cases reply with
  | error st => simp [Except.isOk, Except.toBool] at hreply
  | ok response =>
    have hreach := sampleRun_reachable hc
    obtain ⟨-, -, ts, -, -, -, hts⟩ := (hreach.conserves hcall).1 id
    exact ⟨c, response, c', hreach, hcall, hbefore, hafter, ts, hts⟩

end Dingir
