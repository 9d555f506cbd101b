import Dingir.Proof.Reach
import Dingir.Spec.Sample

/-!
# Deposits and withdrawals are applied once

The filter knows a deposit or a withdrawal by its key (`Controller.updateKey`). The key
is put in when the update is made, and stays for an hour unless a million others come
after it: four for each trade and one for each update (`Life.kept`). While it is there
every request with the same key is refused and changes nothing (`Running.applied_once`).

Nothing else remembers the key: a request made later than that is applied again
(`not_applied_once`).
-/

namespace Dingir

open Keyed Outcome

variable {E : Env} {settings : Settings} {now e : Timestamp} {real : Bool} {u : Uuid}
  {k : BalanceUpdateKey} {n : ℕ} {b c c' : Controller} {d d' : Desk}
  {A : Market → Ctx → OrderInput → Prop}

/-! ## Keys that stay -/

/-- The filter holds `k` until `e` or longer, behind at most `n` newer entries. -/
def Controller.Keeps (c : Controller) (k : BalanceUpdateKey) (e : Timestamp) (n : ℕ) : Prop :=
  ∃ e', e ≤ e' ∧ c.updateController.cache.Held k e' n

/-- A step puts the keys of its trade in the filter. -/
theorem Step.inserted (h : Step E now u A d d') :
    ∃ t, d'.ctx.sequencer.tradeId = d.ctx.sequencer.tradeId + t ∧
    TtlCache.Inserted (fun k => k.businessType = .trade) d.ctx.updateController.cache (4 * t)
      d'.ctx.updateController.cache := by
  cases h with
  | trade _ ht =>
    refine ⟨1, ?_, ht.cache.mono fun k hk => hk.1⟩
    rw [ht.sequencer]
  | _ => exact ⟨0, rfl, .refl⟩

theorem Steps.inserted (h : Steps E now u A d d') :
    ∃ t, d'.ctx.sequencer.tradeId = d.ctx.sequencer.tradeId + t ∧
    TtlCache.Inserted (fun k => k.businessType = .trade) d.ctx.updateController.cache (4 * t)
      d'.ctx.updateController.cache := by
  induction h with
  | refl => exact ⟨0, rfl, .refl⟩
  | tail _ hstep ih =>
    obtain ⟨t, ht, hins⟩ := ih
    obtain ⟨t', ht', hins'⟩ := hstep.inserted
    refine ⟨t + t', by omega, ?_⟩
    rw [Nat.mul_add]
    exact hins.trans hins'

/-- A call that only trades puts in four keys for each trade. -/
theorem Moves.inserted (h : Moves E now real u False A c c') :
    ∃ t, c'.sequencer.tradeId = c.sequencer.tradeId + t ∧
    TtlCache.Inserted (fun k => k.businessType = .trade) c.updateController.cache (4 * t)
      c'.updateController.cache := by
  induction h with
  | refl => exact ⟨0, rfl, .refl⟩
  | tail _ hmove ih =>
    obtain ⟨t, ht, hins⟩ := ih
    cases hmove with
    | market _ hsteps =>
      obtain ⟨t', ht', hins'⟩ := hsteps.inserted
      have hid := ht'.trans (congrArg (· + t') ht)
      refine ⟨t + t', hid.trans (Nat.add_assoc _ _ _), ?_⟩
      rw [Nat.mul_add]
      exact hins.trans hins'
    | update hw _ _ _ _ => exact hw.elim

/-- Trades leave a key of a deposit or a withdrawal where it is, until the filter is full. -/
theorem Keeps.inserted {m : ℕ} (h : c.Keeps k e n) (hk : k.businessType ≠ .trade)
    (hins : TtlCache.Inserted (fun k => k.businessType = .trade) c.updateController.cache m
      c'.updateController.cache)
    (hroom : n + m < c.updateController.cache.capacity) : c'.Keeps k e (n + m) := by
  obtain ⟨e', he, hheld⟩ := h
  exact ⟨e', he, hins.held hk hheld hroom⟩

/-- An update puts its own key in front: another one, or the same one again when it has expired. -/
theorem Keeps.applied {p : BalanceUpdateParams} {x' : Ctx} (h : c.Keeps k e n)
    (ha : Applied E now (c.ctx real) p x') (hroom : n + 1 < c.updateController.cache.capacity) :
    (c.withCtx x').Keeps k e (n + 1) := by
  obtain ⟨e', he, hheld⟩ := h
  have hcache : (c.withCtx x').updateController.cache =
      c.updateController.cache.insert now p.key filterTtl := ha.cache
  unfold Controller.Keeps
  rw [hcache]
  by_cases hk : k = p.key
  · -- the key was not found, so it had expired
    have hexpired : e' < now := by
      by_contra hlive
      have hfound := hheld.containsKey (not_lt.1 hlive)
      rw [hk] at hfound
      exact absurd (ha.fresh.symm.trans hfound) (by simp)
    have hnew : (c.updateController.cache.insert now p.key filterTtl).Held p.key (now + filterTtl)
        0 :=
      TtlCache.held_insert (by omega)
    have hlater : e ≤ now + filterTtl := by
      have hpos : (0 : Timestamp) < filterTtl := by norm_num [filterTtl]
      linarith
    rw [hk]
    exact ⟨_, hlater, hnew.mono (Nat.zero_le _)⟩
  · exact ⟨e', he, TtlCache.held_insert_of_ne hk hheld hroom⟩

/-- What a call puts in the filter: the keys of its trades and of its update. -/
theorem call_keeps {q : Request} {reply : Except Status Response} (hc : ControllerOK b c)
    (h : c.call E q = .ok (reply, c')) : ∃ t, c'.sequencer.tradeId = c.sequencer.tradeId + t ∧
      ∀ k e n, k.businessType ≠ .trade → c.Keeps k e n → n + (4 * t + q.updates reply) < 1000000 →
        c'.Keeps k e (n + (4 * t + q.updates reply)) := by
  have hcap := hc.capacity
  by_cases hop : ∃ req, q.operation = .balanceUpdate req
  · obtain ⟨req, hop⟩ := hop
    have hcall : c.updateBalance E q.now q.available q.real req q.user = .ok (reply, c') := by
      unfold Controller.call at h
      rwa [hop] at h
    rcases Controller.updateBalance_cases hcall with ⟨⟨st, rfl⟩, rfl⟩ |
      ⟨rfl, _, _, _, _, x', -, -, -, ha, rfl⟩
    · refine ⟨0, rfl, fun k e n _ hkeeps _ => ?_⟩
      have hnone : q.updates (.error st) = 0 := by simp [Request.updates]
      rw [hnone]
      exact hkeeps
    · have hone : q.updates (.ok .balanceUpdate) = 1 := by simp [Request.updates, hop]
      have hsame : ((c.withCtx x').logged q.now q.real (.balanceUpdate req)
          q.user).updateController = (c.withCtx x').updateController := by
        unfold Controller.logged
        split <;> rfl
      refine ⟨0, ?_, fun k e n _ hkeeps hroom => ?_⟩
      · have hid := congrArg Sequencer.tradeId ha.sequencer
        unfold Controller.logged
        split <;> exact hid
      · rw [hone] at hroom ⊢
        unfold Controller.Keeps
        rw [hsame]
        exact Keeps.applied hkeeps ha (by rw [hcap]; omega)
  · obtain ⟨hnone, hw⟩ : q.updates reply = 0 ∧ q.operation.Updates = False := by
      unfold Request.updates
      cases hq : q.operation with
      | balanceUpdate req => exact absurd ⟨req, hq⟩ hop
      | _ => exact ⟨rfl, rfl⟩
    obtain ⟨c₁, hmoves, hends⟩ := call_moves hc h
    rw [hw] at hmoves
    obtain ⟨t, ht, hins⟩ := hmoves.inserted
    have hkeep : ∀ k e n, k.businessType ≠ .trade → c.Keeps k e n →
        n + (4 * t + q.updates reply) < 1000000 →
        c₁.Keeps k e (n + (4 * t + q.updates reply)) := by
      intro k e n hk hkeeps hroom
      rw [hnone] at hroom ⊢
      exact Keeps.inserted hkeeps hk hins (by rw [hcap]; exact hroom)
    cases hends with
    | refused => exact ⟨t, ht, hkeep⟩
    | logged =>
      obtain ⟨s, l, hl, -, hs⟩ := logged_eq c₁ q.now q.real q.operation q.user
      rw [hl]
      exact ⟨t, hs.trans ht, hkeep⟩

/-! ## The life of a key -/

theorem Life.ok (h : Life E c n c') (hc : ControllerOK b c) : ControllerOK b c' := by
  induction h with
  | start => exact hc
  | call _ hcall ih => exact call_ok ih hcall
  | recovered id _ ih => exact ih.setOperationLogId id

/-- **A key stays in the filter along a life**, behind four keys for each trade and one for each
update. -/
theorem Life.keeps (h : Life E c n c') (hc : ControllerOK b c) (hk : k.businessType ≠ .trade)
    (hkeeps : c.Keeps k e 0) :
    c.sequencer.tradeId ≤ c'.sequencer.tradeId ∧
      (4 * (c'.sequencer.tradeId - c.sequencer.tradeId) + n < 1000000 →
        c'.Keeps k e (4 * (c'.sequencer.tradeId - c.sequencer.tradeId) + n)) := by
  induction h with
  | start =>
    refine ⟨le_rfl, fun _ => ?_⟩
    rw [Nat.sub_self]
    exact hkeeps
  | @call m c₁ c₂ q reply hlife hcall ih =>
    obtain ⟨hle, ih⟩ := ih
    obtain ⟨t, ht, hcallKeeps⟩ := call_keeps (hlife.ok hc) hcall
    refine ⟨by omega, fun hroom => ?_⟩
    have hsum : 4 * (c₂.sequencer.tradeId - c.sequencer.tradeId) + (m + q.updates reply) =
        4 * (c₁.sequencer.tradeId - c.sequencer.tradeId) + m + (4 * t + q.updates reply) := by omega
    rw [hsum] at hroom ⊢
    exact hcallKeeps k e _ hk (ih (by omega)) hroom
  | recovered id _ ih => exact ih

/-- Every state along a run is well formed. -/
theorem Running.ok (h : Running E settings c) :
    ∃ b, createController settings = .ok b ∧ ControllerOK b c := by
  induction h with
  | init hb => exact ⟨_, hb, (createController_ok hb).1⟩
  | call _ hcall ih =>
    obtain ⟨b, hb, hc⟩ := ih
    exact ⟨b, hb, call_ok hc hcall⟩
  | reset _ ih =>
    obtain ⟨b, hb, hc⟩ := ih
    exact ⟨b, hb, (resetState_ok hc).1⟩
  | load _ _ hstart hload ihc ihd =>
    obtain ⟨b, hb, hc⟩ := ihc
    obtain ⟨b₁, hb₁, hd⟩ := ihd
    obtain rfl : b = b₁ := Except.ok.inj (hb.symm.trans hb₁)
    obtain ⟨hok, hblank⟩ := hstart.blank hb hd
    exact ⟨b, hb, loadSlice_ok hc hok hblank hload⟩
  | recovered id _ ih =>
    obtain ⟨b, hb, hc⟩ := ih
    exact ⟨b, hb, hc.setOperationLogId id⟩

/-! ## Requests with the same key -/

theorem updateKey_params {prec : ℕ} {price change : Decimal} {detail : Value}
    {req : BalanceUpdateRequest}
    (hprec : c.balanceManager.assetManager.assetPrecShow req.asset = .ok prec)
    (hparse : Controller.parseUpdate E prec req = .ok (change, detail)) :
    c.updateKey E req u = some (Controller.updateParams req u price change detail).key := by
  unfold Controller.updateKey
  rw [hprec]
  simp only [hparse]
  rfl

/-- **An update that was made is not made again.** Once a deposit or a withdrawal has been accepted,
in a call or in a recovery, a request with the same identity in the same life is refused and changes
nothing, for an hour and until 1,000,000 keys have been put in the filter: four for each trade and
one for each update. -/
theorem Running.applied_once (hc : Running E settings c) {q q' : Request}
    {req req' : BalanceUpdateRequest} {response : Response} {c₁ c₂ : Controller}
    {reply : Except Status Response} (hop : q.operation = .balanceUpdate req)
    (hcall : c.call E q = .ok (.ok response, c₁)) (hlife : Life E c₁ n c₂)
    (hop' : q'.operation = .balanceUpdate req')
    (hsame : c₂.updateKey E req' q'.user = c.updateKey E req q.user) (htime : q'.now ≤ q.now + 3600)
    (hroom : 4 * (c₂.sequencer.tradeId - c₁.sequencer.tradeId) + n < 1000000)
    (hcall' : c₂.call E q' = .ok (reply, c')) : (∃ st, reply = .error st) ∧ c' = c₂ := by
  obtain ⟨b, -, hok⟩ := hc.ok
  have hok₁ := call_ok hok hcall
  have hfirst : c.updateBalance E q.now q.available q.real req q.user = .ok (.ok response, c₁) := by
    unfold Controller.call at hcall
    rwa [hop] at hcall
  have hsecond : c₂.updateBalance E q'.now q'.available q'.real req' q'.user = .ok (reply, c') := by
    unfold Controller.call at hcall'
    rwa [hop'] at hcall'
  rcases Controller.updateBalance_cases hfirst with ⟨⟨_, hr⟩, -⟩ |
    ⟨-, prec, price, change, detail, x', hprec, hparse, -, ha, hc₁⟩
  · simp at hr
  have hcache : c₁.updateController.cache = c.updateController.cache.insert q.now
      (Controller.updateParams req q.user price change detail).key filterTtl := by
    rw [hc₁]
    unfold Controller.logged
    split <;> exact ha.cache
  set k := (Controller.updateParams req q.user price change detail).key with hk
  have htype : k.businessType ≠ .trade := by
    show (if 0 ≤ change then BusinessType.deposit else BusinessType.withdraw) ≠ .trade
    split <;> simp
  have hkeeps : c₁.Keeps k (q.now + 3600) 0 := by
    refine ⟨q.now + filterTtl, le_rfl, ?_⟩
    rw [hcache]
    exact TtlCache.held_insert (by rw [hok.capacity]; decide)
  obtain ⟨e, he, hheld⟩ := (hlife.keeps hok₁ htype hkeeps).2 hroom
  rcases Controller.updateBalance_cases hsecond with hrefused |
    ⟨-, prec', price', change', detail', x'', hprec', hparse', -, ha', -⟩
  · exact hrefused
  -- an update that is made has a key that was not found
  have hkey : (Controller.updateParams req' q'.user price' change' detail').key = k := by
    rw [updateKey_params hprec' hparse', updateKey_params hprec hparse] at hsame
    exact Option.some.inj hsame
  have hfound := hheld.containsKey (htime.trans he)
  have hfresh := ha'.fresh
  rw [hkey] at hfresh
  exact absurd (hfresh.symm.trans hfound) (by simp)

/-- A deposit of 10. -/
def sampleDeposit : BalanceUpdateRequest :=
  { asset := "USDT", business := "deposit", businessId := 1, delta := "10", detail := "" }

def depositAt (now : Timestamp) (user : Uuid) : Request :=
  requestAt now user (.balanceUpdate sampleDeposit)

/-- The last second in which the deposit is refused, another user's deposit in between. -/
theorem Running.applied_once_hour : ∃ c₀ c₁ c₂ reply c', createController sampleSettings = .ok c₀ ∧
    c₀.call releaseEnv (depositAt 0 alice) = .ok (.ok .balanceUpdate, c₁) ∧
    Life releaseEnv c₁ 1 c₂ ∧
    c₂.call releaseEnv (depositAt 3600 alice) = .ok (reply, c') ∧ (∃ st, reply = .error st) ∧
      c' = c₂ := by
  have h : (createController sampleSettings >>= fun c₀ => do
      let first ← c₀.call releaseEnv (depositAt 0 alice)
      let other ← first.2.call releaseEnv (depositAt 1 bob)
      let _ ← other.2.call releaseEnv (depositAt 3600 alice)
      return (first.1.isOk, other.1.isOk, first.2.sequencer.tradeId, other.2.sequencer.tradeId,
        decide (other.2.updateKey releaseEnv sampleDeposit alice =
          c₀.updateKey releaseEnv sampleDeposit alice))) =
      (.ok (true, true, 0, 0, true) : Except Panic _) := by decide +kernel
  simp only [bind_ok, pure_ok, Prod.exists, Prod.mk.injEq, decide_eq_true_eq] at h
  obtain ⟨c₀, hb, r₁, c₁, hfirst, r₂, c₂, hother, reply, c', hagain, hr₁, hr₂, ht₁, ht₂, hsame⟩ := h
  have haccepted : ∀ {q : Request} {r : Except Status Response} {c c' : Controller},
      q.operation = .balanceUpdate sampleDeposit →
      c.call releaseEnv q = .ok (r, c') → r.isOk = true → r = .ok .balanceUpdate := by
    intro q r c c' hop hcall hr
    unfold Controller.call at hcall
    rw [hop] at hcall
    rcases Controller.updateBalance_cases hcall with ⟨⟨st, rfl⟩, -⟩ | ⟨rfl, -⟩
    · simp [Except.isOk, Except.toBool] at hr
    · rfl
  obtain rfl := haccepted rfl hfirst hr₁
  obtain rfl := haccepted rfl hother hr₂
  have hlife : Life releaseEnv c₁ 1 c₂ := Life.start.call hother
  have hroom : 4 * (c₂.sequencer.tradeId - c₁.sequencer.tradeId) + 1 < 1000000 := by
    rw [ht₁, ht₂]
    decide
  obtain ⟨herror, hkept⟩ := Running.applied_once (.init hb) rfl hfirst hlife rfl hsame
    (by norm_num [depositAt, requestAt]) hroom hagain
  exact ⟨c₀, c₁, c₂, reply, c', hb, hfirst, hlife, hagain, herror, hkept⟩

/-- **A second later it is made again.** -/
theorem not_applied_once :
    ¬ ∀ c c₁ c₂ c' n q q' req req' response reply, Running releaseEnv sampleSettings c →
    q.operation = .balanceUpdate req → c.call releaseEnv q = .ok (.ok response, c₁) →
    Life releaseEnv c₁ n c₂ →
    q'.operation = .balanceUpdate req' →
    c₂.updateKey releaseEnv req' q'.user = c.updateKey releaseEnv req q.user →
    c₂.call releaseEnv q' = .ok (reply, c') → (∃ st, reply = .error st) ∧ c' = c₂ := by
  intro hclaim
  have h : (createController sampleSettings >>= fun c₀ => do
      let first ← c₀.call releaseEnv (depositAt 0 alice)
      let again ← first.2.call releaseEnv (depositAt 3601 alice)
      return (first.1.isOk, again.1.isOk,
        decide (first.2.updateKey releaseEnv sampleDeposit alice =
          c₀.updateKey releaseEnv sampleDeposit alice))) =
      (.ok (true, true, true) : Except Panic _) := by decide +kernel
  simp only [bind_ok, pure_ok, Prod.exists, Prod.mk.injEq, decide_eq_true_eq] at h
  obtain ⟨c₀, hb, r₁, c₁, hfirst, r₂, c₂, hagain, hr₁, hr₂, hsame⟩ := h
  cases r₁ with
  | error st => simp [Except.isOk, Except.toBool] at hr₁
  | ok response =>
    obtain ⟨⟨st, rfl⟩, -⟩ :=
      hclaim _ _ _ _ _ _ _ _ _ _ _ (.init hb) rfl hfirst .start rfl hsame hagain
    simp [Except.isOk, Except.toBool] at hr₂

end Dingir
