import Dingir.Spec.Journal
import Dingir.Proof.Assets

/-!
# The journal of the balances adds up

- `Step.carries`, `Moves.carries`: trading carries every journal on. A settlement
  posts amounts on the grids of its assets, so a record states what was posted, and
  freezing moves money without a record.
- `updateBalance_journals`: a balance update records the change that was asked for,
  and posts it rounded to the digits the asset is saved with.
- **`createController_journal`**: the journal of a user and an asset is complete
  exactly when the updates of that balance were exact. With settings that show no
  asset with more digits than it is saved with, they all are (`createController_full`).
-/

namespace Dingir

open Keyed Rounding Posting Outcome Market Stream

variable {E : Env} {settings : Settings} {now : Timestamp} {real : Bool} {u v : Uuid} {a : String}
  {A : Market → Ctx → OrderInput → Prop} {b c c₀ c' : Controller} {d d' : Desk} {x x' : Ctx}

/-! ## Trading -/

/-- What an order moves between `AVAILABLE` and `FREEZE` its owner keeps. -/
theorem Posted.held_of_moved {bm bm' : BalanceManager} {k k' : BalanceMapKey} {amount : Decimal}
    (h : Posted bm bm' [(k, amount), (k', -amount)]) (huser : k.userId = k'.userId)
    (hasset : k.asset = k'.asset) (v : Uuid) (a : String) : bm'.total v a = bm.total v a := by
  rw [h.held, amountIn_cons, amountIn_cons, amountIn_nil, huser, hasset]
  split <;> ring

/-- **A step carries the journals on.** -/
theorem Step.carries (h : Step E now u A d d') (hd : DeskOK d) : d.ctx.Carries d'.ctx := by
  cases h with
  | accept _ _ _ => exact Ctx.carries_putOrder (fun _ _ => rfl) _ _ _ _
  | trade _ ht => exact ht.carries
  | finish _ _ => exact Ctx.carries_putOrder (fun _ _ => rfl) _ _ _ _
  | close _ => exact Ctx.carries_putOrder (fun _ _ => rfl) _ _ _ _
  | @rest m x k bm _ _ _ hfreeze _ =>
    have hpost := frozenBalance_posted hd.gridded hd.prec (hd.taking _ rfl).fits hfreeze
    rw [← neg_neg k.order.restFrozen, neg_neg (-k.order.restFrozen)] at hpost
    refine .quiet (fun v a => hpost.held_of_moved rfl rfl v a) fun ms hms =>
      ⟨[], ?_, fun _ _ => rfl⟩
    rw [List.append_nil]
    exact hms
  | @cancel m x rc bm hrc _ hfree =>
    have hb := hd.backed _ _ (Market.resting_some.2 ⟨_, hrc, rfl⟩)
    have hpost := unfrozenBalance_posted hd.gridded hd.prec hb hfree
    exact Ctx.carries_putOrder (fun v a => hpost.held_of_moved rfl rfl v a) _ _ _ _

theorem Steps.carries (h : Steps E now u A d d') (hd : DeskOK d) : d.ctx.Carries d'.ctx :=
  Steps.rule (P := fun e => d.ctx.Carries e.ctx)
    (fun _ _ he hP hstep => hP.trans (hstep.carries he)) h hd (.refl _)

/-- The ledger and the persistor of a controller, as a real call borrows them. -/
def Controller.Carries (c c' : Controller) : Prop := (c.ctx true).Carries (c'.ctx true)

theorem Controller.Carries.logged (h : c.Carries c') (op : Operation) :
    c.Carries (c'.logged now real op u) := by
  obtain ⟨s, l, hl, -⟩ := logged_eq c' now real op u
  rw [hl]
  exact h

/-- **Real moves that update no balance** carry the journals on. -/
theorem Moves.carries (h : Moves E now true u False A c c')
    (hc : ControllerOK b c) : c.Carries c' := by
  induction h with
  | refl => exact .refl _
  | @tail c₁ c₂ hmoves hmove ih =>
    have hc₁ : ControllerOK b c₁ := Moves.ok hmoves hc
    cases hmove with
    | @market name m m' x' hm hsteps =>
      have hcarries := hsteps.carries ((hc₁.desk _ _ hm).2 true)
      obtain ⟨told, htold, -⟩ := hcarries _ rfl
      have htold : x'.persistor = .real (c₁.persistor ++ told) := htold
      have hreal : x'.persistor.realPersist = true := by rw [htold]; rfl
      unfold Controller.Carries
      rw [Controller.ctx_withMarket hreal]
      exact ih.trans hcarries
    | update hw _ _ _ _ => exact hw.elim

/-! ## Balance updates -/

/-- An update that was applied had not been turned down. -/
theorem Applied.not_turnsDown {req : BalanceUpdateRequest} {price change : Decimal} {detail : Value}
    {q : Request}
    (ha : Applied E q.now (c.ctx real) (Controller.updateParams req q.user price change detail) x')
    (havailable : q.available = true) :
    ¬ c.TurnsDown q (Controller.updateParams req q.user 0 change detail) := by
  rintro (hoff | hkey | ⟨hneg, hshort⟩)
  · exact Bool.noConfusion (hoff.symm.trans havailable)
  · exact Bool.noConfusion (hkey.symm.trans ha.fresh)
  · have hchange := ha.change
    unfold applyChange at hchange
    simp only at hchange
    split at hchange
    · rename_i hpos
      exact absurd hpos (not_le.2 hneg)
    split at hchange
    · simp [pure, Except.pure] at hchange
    · rename_i hcover
      exact hcover hshort

/-- A refused update was turned down, where its texts could be read. -/
theorem updateBalance_turnsDown {available : Bool} {req : BalanceUpdateRequest} {st : Status}
    {prec : ℕ} {change : Decimal} {detail : Value}
    (hprec : c.balanceManager.assetManager.assetPrecShow req.asset = .ok prec)
    (hparse : Controller.parseUpdate E prec req = .ok (change, detail))
    (h : c.updateBalance E now available real req u = .ok (.error st, c')) :
    c.TurnsDown ⟨now, available, real, u, .balanceUpdate req⟩
      (Controller.updateParams req u 0 change detail) := by
  by_cases hoff : available = false
  · exact .inl hoff
  refine .inr ?_
  have hexists : c.balanceManager.assetManager.assetExist req.asset = true := by
    simp only [AssetManager.assetPrecShow, AssetManager.assetGet, bind_ok, unwrap_ok] at hprec
    obtain ⟨info, hinfo, -⟩ := hprec
    unfold AssetManager.assetExist
    rw [hinfo]
    rfl
  unfold Controller.updateBalance at h
  rw [if_neg (by simpa using hoff), if_neg (by simpa using hexists)] at h
  rw [hprec] at h
  obtain ⟨_, rfl, h⟩ : ∃ p, prec = p ∧ _ := by simpa only [bind_ok, Except.ok.injEq] using h
  rw [hparse] at h
  simp only [bind_ok] at h
  obtain ⟨price, -, ⟨res, x'⟩, hupdate, h⟩ := h
  cases res with
  | ok _ => simp [pure, Except.pure] at h
  | error e =>
    unfold updateUserBalance at hupdate
    split at hupdate
    · rename_i hkey
      exact .inl hkey
    · obtain ⟨r, hr, hupdate⟩ := bind_ok.1 hupdate
      cases r with
      | ok bm => simp [bind_ok, pure, Except.pure] at hupdate
      | error e' =>
        refine .inr ?_
        unfold applyChange at hr
        simp only at hr
        split at hr
        · simp only [bind_ok, pure_ok, reduceCtorEq, and_false, exists_false] at hr
        rename_i hneg
        split at hr
        · rename_i hshort
          exact ⟨not_le.1 hneg, hshort⟩
        · simp only [bind_ok, pure_ok, reduceCtorEq, and_false, exists_false] at hr

/-- What was told to the journals meanwhile: they add up where it was exact, and nowhere else. -/
def Controller.Journals (exact : Uuid → String → Prop) (c c' : Controller) : Prop :=
  ∃ told, c'.persistor = c.persistor ++ told ∧ ∀ u a,
    (exact u a → AddsUp (c.balanceManager.total u a) (journalOf u a told)
      (c'.balanceManager.total u a)) ∧
    (¬ exact u a → ¬ Coherent journalRules (c.balanceManager.total u a) (journalOf u a told))

theorem Controller.Journals.refl (c : Controller) : c.Journals (fun _ _ => True) c :=
  ⟨[], by rw [List.append_nil], fun _ _ => ⟨fun _ => .nil _, fun h => absurd trivial h⟩⟩

/-- A journal that stopped adding up never does again. -/
theorem Controller.Journals.trans {exact exact' : Uuid → String → Prop} (h : c.Journals exact c₀)
    (h' : c₀.Journals exact' c') : c.Journals (fun u a => exact u a ∧ exact' u a) c' := by
  obtain ⟨told, htold, hjournal⟩ := h
  obtain ⟨told', htold', hjournal'⟩ := h'
  refine ⟨told ++ told', by rw [htold', htold, List.append_assoc], fun u a => ?_⟩
  rw [journalOf_append]
  refine ⟨fun hexact => ((hjournal u a).1 hexact.1).append ((hjournal' u a).1 hexact.2),
    fun hexact hcoherent => ?_⟩
  obtain ⟨hfirst, hthen⟩ := coherent_append.1 hcoherent
  by_cases hex : exact u a
  · rw [((hjournal u a).1 hex).2] at hthen
    exact (hjournal' u a).2 (fun hex' => hexact ⟨hex, hex'⟩) hthen
  · exact (hjournal u a).2 hex hfirst

/-- **What a balance update tells the journals.** -/
theorem updateBalance_journals {available : Bool} {req : BalanceUpdateRequest}
    {reply : Except Status Response} (hg : Gridded c.balanceManager)
    (h : c.updateBalance E now available true req u = .ok (reply, c')) :
    c.Journals (fun v a => c.Exact E v a ⟨now, available, true, u, .balanceUpdate req⟩) c' := by
  rcases Controller.updateBalance_cases h with ⟨⟨st, rfl⟩, rfl⟩ |
    ⟨rfl, prec, price, change, detail, x', hprec, hparse, -, ha, rfl⟩
  · refine ⟨[], by rw [List.append_nil],
      fun v a => ⟨fun _ => .nil _, fun hexact => absurd ?_ hexact⟩⟩
    -- a refused update is exact, having been turned down
    intro req' precShow precSave change detail hop hu hasset hshow hparse _ hdown
    obtain rfl : req = req' := Operation.balanceUpdate.inj hop
    obtain rfl : u = v := hu
    rw [← hasset] at hshow
    exact absurd (updateBalance_turnsDown hshow hparse h) hdown
  · have havailable : available = true := by
      by_contra hoff
      unfold Controller.updateBalance at h
      rw [if_pos (by simpa using hoff)] at h
      simp [pure, Except.pure] at h
    obtain ⟨posted, hd⟩ := applyChange_ok hg ha.change
    have hpersistor : (c.ctx true).persistor = .real c.persistor := rfl
    obtain ⟨told, htold, hjournal⟩ := ha.journal hd hpersistor
    have hpushed : (c.withCtx x').persistor = c.persistor ++ told := by
      unfold Controller.withCtx
      rw [htold]
    obtain ⟨s, l, hl, -⟩ := logged_eq (c.withCtx x') now true (.balanceUpdate req) u
    rw [hl]
    refine ⟨told, hpushed, fun v a => ⟨fun hexact => (hjournal v a).1 ?_, fun hexact => ?_⟩⟩
    · rintro ⟨hu, hasset⟩
      obtain rfl : u = v := hu
      obtain ⟨q, hq⟩ := hd.known
      rw [hd.exact_iff hq]
      refine hexact req prec q change detail rfl rfl hasset ?_ hparse ?_
        (ha.not_turnsDown havailable)
      · rw [← hasset]; exact hprec
      · rw [← hasset]; exact hq
    · -- the request is not exact, so it is for this balance
      unfold Controller.Exact at hexact
      push Not at hexact
      obtain ⟨req', show', save', change', detail', hop, hu, hasset, hshow, hparse', hsave, -,
          hne⟩ := hexact
      obtain rfl : req = req' := Operation.balanceUpdate.inj hop
      rw [← hasset] at hshow hsave
      obtain rfl : prec = show' := Except.ok.inj (hprec.symm.trans hshow)
      obtain ⟨rfl, rfl⟩ : change = change' ∧ detail = detail' := by
        simpa using hparse.symm.trans hparse'
      refine (hjournal v a).2 ⟨hu, hasset⟩ fun heq => hne ?_
      exact (hd.exact_iff hsave).1 heq

/-! ## Runs -/

/-- **What a real call tells the journals.** -/
theorem call_journals {q : Request} {reply : Except Status Response} (hc : ControllerOK b c)
    (hreal : q.real = true) (h : c.call E q = .ok (reply, c')) :
    c.Journals (fun u a => c.Exact E u a q) c' := by
  obtain ⟨now, available, real, u, operation⟩ := q
  obtain rfl : real = true := hreal
  by_cases hupdates : operation.Updates
  · cases operation with
    | balanceUpdate req => exact updateBalance_journals hc.gridded h
    | orderPut _ => exact hupdates.elim
    | batchOrderPut _ => exact hupdates.elim
    | orderCancel _ => exact hupdates.elim
    | orderCancelAll _ => exact hupdates.elim
  · -- the other operations only trade
    obtain ⟨c₁, hmoves, hends⟩ := call_moves hc h
    have hmoves : Moves E now true u False AnyOrder c c₁ := by
      rw [← eq_false hupdates]
      exact hmoves
    have hcarries : c.Carries c' := by
      cases hends with
      | refused _ _ => exact hmoves.carries hc
      | logged _ _ => exact (hmoves.carries hc).logged operation
    obtain ⟨told, htold, hadds⟩ := hcarries _ rfl
    refine ⟨told, PersistExector.real.inj htold,
      fun v a => ⟨fun _ => hadds v a, fun hexact => absurd ?_ hexact⟩⟩
    rintro req' - - - - hop - - - - - -
    obtain rfl : operation = .balanceUpdate req' := hop
    exact absurd trivial hupdates

/-- **What a run of real calls tells the journals.** -/
theorem calls_journals {qs : List Request} {replies : List (Except Status Response)}
    (hc : ControllerOK b c) (hreal : ∀ q ∈ qs, q.real = true)
    (h : c.calls E qs = .ok (replies, c')) :
    c.Journals (fun u a => c.Along E (fun c q => c.Exact E u a q) qs) c' := by
  induction qs generalizing c replies with
  | nil =>
    obtain ⟨-, rfl⟩ := by simpa [Controller.calls] using h
    exact .refl c
  | cons q qs ih =>
    simp only [Controller.calls, bind_ok, pure_ok, Prod.mk.injEq] at h
    obtain ⟨⟨reply, c₁⟩, hcall, ⟨rest, c₂⟩, hrest, -, rfl⟩ := h
    have hrun := (call_journals hc (hreal q List.mem_cons_self) hcall).trans
      (ih (call_ok hc hcall) (fun p hp => hreal p (List.mem_cons_of_mem _ hp)) hrest)
    -- a call has one outcome, so the rest of the run is the run from there
    have halong : ∀ u a, c.Along E (fun c q => c.Exact E u a q) (q :: qs) ↔
        c.Exact E u a q ∧ c₁.Along E (fun c q => c.Exact E u a q) qs := by
      refine fun u a => and_congr_right fun _ =>
        ⟨fun h => h reply c₁ hcall, fun h reply' c₁' hcall' => ?_⟩
      obtain ⟨-, rfl⟩ := Prod.mk.inj (Except.ok.inj (hcall.symm.trans hcall'))
      exact h
    simpa only [halong] using hrun

theorem coherent_journal_iff {before : Decimal} {records : List BalanceHistory} :
    Coherent journalRules before records ↔
      (∀ record ∈ records.head?, record.balance = before + record.change) ∧
      records.IsChain (fun record record' => record'.balance = record.balance + record'.change) ∧
      ∀ record ∈ records, record.balance = record.balanceAvailable + record.balanceFrozen := by
  induction records generalizing before with
  | nil => simp
  | cons record records ih =>
    rw [coherent_cons, ih, List.isChain_cons, List.forall_mem_cons]
    simp only [journalRules, List.head?_cons, Option.mem_some_iff, forall_eq']
    tauto

theorem after_journal (before : Decimal) (records : List BalanceHistory) :
    after journalRules before records =
      (records.getLast?.map BalanceHistory.balance).getD before := by
  induction records using List.reverseRecOn with
  | nil => rfl
  | append_singleton records record _ => simp [after_concat, journalRules]

/-- A complete journal adds up from nothing. -/
theorem fullJournal_iff {records : List BalanceHistory} {held : Decimal} :
    FullJournal records held ↔ AddsUp 0 records held := by
  unfold AddsUp
  rw [coherent_journal_iff, after_journal]
  simp only [zero_add]
  exact ⟨fun h => ⟨⟨h.first, h.next, h.split⟩, h.last⟩, fun h => ⟨h.1.1, h.1.2.1, h.1.2.2, h.2⟩⟩

/-- From a new controller on, a journal is complete where what was told to it was exact. -/
theorem Controller.Journals.full_iff {exact : Uuid → String → Prop}
    (hcreate : createController settings = .ok c₀) (h : c₀.Journals exact c) :
    FullJournal (c.journal u a) (c.balanceManager.total u a) ↔ exact u a := by
  obtain ⟨told, htold, hjournal⟩ := h
  obtain ⟨-, hblank, -⟩ := createController_ok hcreate
  have hempty := (createController_begun hcreate).persistor
  have hzero : c₀.balanceManager.total u a = 0 := by
    show c₀.balanceManager.getByKey _ + c₀.balanceManager.getByKey _ = 0
    rw [hblank.balances, hblank.balances, add_zero]
  rw [hempty, List.nil_append] at htold
  rw [fullJournal_iff, Controller.journal, htold, ← hzero]
  refine ⟨fun hadds => ?_, (hjournal u a).1⟩
  by_contra hexact
  exact (hjournal u a).2 hexact hadds.1

/-- **The journal of a user and an asset is complete exactly when the updates of that balance were
exact.** -/
theorem createController_journal {qs : List Request} {replies : List (Except Status Response)}
    (hcreate : createController settings = .ok c₀) (hreal : ∀ q ∈ qs, q.real = true)
    (h : c₀.calls E qs = .ok (replies, c)) (u : Uuid) (a : String) :
    FullJournal (c.journal u a) (c.balanceManager.total u a) ↔
      c₀.Along E (fun c q => c.Exact E u a q) qs :=
  (calls_journals (createController_ok hcreate).1 hreal h).full_iff hcreate

/-- The journal of the buyer of the small exchange: the deposit and two entries of one trade. -/
theorem createController_journal_alice : ∃ c₀ replies c, createController sampleSettings = .ok c₀ ∧
    c₀.calls releaseEnv sampleTrade = .ok (replies, c) ∧
    (c.journal alice "USDT").map BalanceHistory.change = [100, -10] ∧
    c₀.Along releaseEnv (fun c q => c.Exact releaseEnv alice "USDT" q) sampleTrade := by
  have h : (sampleRun releaseEnv sampleTrade >>=
      fun c => pure ((c.journal alice "USDT").map BalanceHistory.change,
      decide (AddsUp 0 (c.journal alice "USDT") (c.balanceManager.total alice "USDT")))) =
      (.ok ([100, -10], true) : Except Panic (List Decimal × Bool)) := by decide +kernel
  simp only [bind_ok, pure_ok, Prod.mk.injEq, decide_eq_true_eq] at h
  obtain ⟨c, hc, hchanges, hadds⟩ := h
  obtain ⟨c₀, replies, h₀, hcalls⟩ := sampleRun_ok hc
  exact ⟨c₀, replies, c, h₀, hcalls, hchanges,
    (createController_journal h₀ (by simp [sampleTrade, requestAt]) hcalls alice "USDT").1
    (fullJournal_iff.2 hadds)⟩

/-- Two assets, one of them shown with more digits than it is saved with. -/
def shownSettings : Settings :=
  { sampleSettings with
    assets := [{ id := "ETH", precSave := 2, precShow := 4 },
      { id := "USDT", precSave := 6, precShow := 6 }]
    markets := [] }

/-- A deposit of more digits is recorded as it was asked for, and posted with fewer. -/
theorem not_journal :
    ¬ ∀ settings c₀ qs replies c, createController settings = .ok c₀ → (∀ q ∈ qs, q.real = true) →
    c₀.calls releaseEnv qs = .ok (replies, c) →
    ∀ u a, FullJournal (c.journal u a) (c.balanceManager.total u a) := by
  intro hall
  let qs := [requestAt 0 alice (depositOf "ETH" 1 "0.0149")]
  have h : (createController shownSettings >>= fun c₀ => c₀.calls releaseEnv qs >>= fun t =>
      pure (decide (AddsUp 0 (t.2.journal alice "ETH") (t.2.balanceManager.total alice "ETH")))) =
      (.ok false : Except Panic Bool) := by decide +kernel
  simp only [bind_ok, pure_ok, decide_eq_false_iff_not] at h
  obtain ⟨c₀, h₀, ⟨replies, c⟩, hcalls, hadds⟩ := h
  exact hadds (fullJournal_iff.1 (hall _ _ _ _ _ h₀ (by simp [qs, requestAt]) hcalls alice "ETH"))

/-! ## Settings that keep the journals complete -/

/-- An asset that is shown with no more digits than it is saved with takes exact updates only. -/
theorem Controller.exact_of_le {q : Request}
    (h : ∀ info, c.balanceManager.assetManager.assetGet a = some info →
      info.precShow ≤ info.precSave) :
    c.Exact E u a q := by
  intro req precShow precSave change detail _ _ _ hshow hparse hsave _
  simp only [AssetManager.assetPrecShow, AssetManager.assetPrec, bind_ok, pure_ok,
    unwrap_ok] at hshow hsave
  obtain ⟨info, hinfo, rfl⟩ := hshow
  obtain ⟨info', hinfo', rfl⟩ := hsave
  obtain rfl : info = info' := Option.some.inj (hinfo.symm.trans hinfo')
  rcases Controller.parseUpdate_cases E info.precShow req with ⟨-, st, herror⟩ |
    ⟨delta, detail', -, hok, -⟩
  · rw [herror] at hparse
    exact absurd hparse (by simp)
  · rw [hok] at hparse
    obtain ⟨rfl, -⟩ := Prod.mk.inj (Except.ok.inj hparse)
    exact ((onGrid_roundDp delta info.precShow).mono (h info hinfo)).abs.roundDp_eq

theorem Controller.along_exact {qs : List Request} (hc : ControllerOK b c)
    (h : ∀ info, b.balanceManager.assetManager.assetGet a = some info →
      info.precShow ≤ info.precSave) :
    c.Along E (fun c q => c.Exact E u a q) qs := by
  induction qs generalizing c with
  | nil => trivial
  | cons q qs ih =>
    exact ⟨Controller.exact_of_le (hc.assets ▸ h), fun _ _ hcall => ih (call_ok hc hcall)⟩

/-- **With settings that show no asset with more digits than it is saved with, every journal is
complete.** -/
theorem createController_full {qs : List Request} {replies : List (Except Status Response)}
    (hprec : ∀ item ∈ settings.assets, item.precShow ≤ item.precSave)
    (hcreate : createController settings = .ok c₀) (hreal : ∀ q ∈ qs, q.real = true)
    (h : c₀.calls E qs = .ok (replies, c)) (u : Uuid) (a : String) :
    FullJournal (c.journal u a) (c.balanceManager.total u a) := by
  obtain ⟨hok, -, -⟩ := createController_ok hcreate
  refine ((calls_journals hok hreal h).full_iff hcreate).2
    (Controller.along_exact hok fun info hinfo => ?_)
  obtain ⟨-, hassets, -⟩ := createController_assets hcreate
  rcases hassets a with ⟨hnone, -⟩ | ⟨item, hitem, -, info', hinfo', hsave, hshow, -⟩
  · rw [hinfo] at hnone
    exact absurd hnone (by simp [AssetManager.assetGet, find?_empty])
  · obtain rfl : info = info' := Option.some.inj (hinfo.symm.trans hinfo')
    rw [hsave, hshow]
    exact hprec item hitem

end Dingir
