import Dingir.Spec.Market
import Dingir.Spec.Journal
import Dingir.Proof.Ledger
import Dingir.Proof.Filter

/-!
# Balance updates and the settlement of a trade

- `updateUserBalance_cases`: an update is refused and changes nothing, or it is
  `Applied`: its key was not in the filter, and now is.
- `applyChange_ok`: an applied update posts one amount to one account, and takes
  no balance below zero.
- `settle_cache`: the four keys of a settlement that returns differ, so the two
  users differ and so do the two assets: a trade with oneself stops at the
  duplicate filter.
- **`settle_spec`**: a settlement that returns posts exactly `Trade.postings`.
-/

namespace Dingir

open Keyed Rounding Posting Outcome Stream

/-- The trades among the messages of a persistor. -/
def Message.trade? : Message → Option Trade
  | .tradeMessage t => some t
  | _ => none

def PersistExector.trades : PersistExector → List Trade
  | .real ms => ms.filterMap Message.trade?
  | .dummy => []

/-- The finished orders among the messages. -/
def Message.finished? : Message → Option Order
  | .orderMessage ⟨.finish, o, _, _⟩ => some o
  | _ => none

def PersistExector.finished : PersistExector → List Order
  | .real ms => ms.filterMap Message.finished?
  | .dummy => []

namespace PersistExector

variable (pe : PersistExector)

@[simp] theorem realPersist_push (m : Message) : (pe.push m).realPersist = pe.realPersist := by
  cases pe <;> rfl

theorem finished_push {m : Message} (hm : m.finished? = none) :
    (pe.push m).finished = pe.finished := by
  cases pe <;> simp [push, finished, hm]

theorem mem_finished_putOrder {o p : Order} {e : OrderEventType}
    (h : p ∈ (pe.putOrder o e).finished) : p ∈ pe.finished ∨ e = .finish ∧ p = o := by
  cases pe with
  | dummy => exact .inl h
  | real ms =>
    cases e <;> simp [putOrder, push, finished, Message.finished?,
      OrderMessage.fromOrder] at h ⊢ <;> tauto

/-- Only trade messages are trades. -/
theorem trades_push {m : Message} (hm : m.trade? = none) : (pe.push m).trades = pe.trades := by
  cases pe <;> simp [push, trades, hm]

theorem trades_putTrade (hp : pe.realPersist = true) (t : Trade) :
    (pe.putTrade t).trades = pe.trades ++ [t] := by
  cases pe with
  | real ms => simp [putTrade, push, trades, Message.trade?]
  | dummy => simp [realPersist] at hp

theorem realPersist_of_trades (h : pe.trades ≠ []) : pe.realPersist = true := by
  cases pe with
  | dummy => exact absurd rfl h
  | real ms => rfl

@[simp] theorem trades_putOrder (o : Order) (e : OrderEventType) :
    (pe.putOrder o e).trades = pe.trades :=
  pe.trades_push rfl

@[simp] theorem trades_putBalance (b : BalanceHistory) : (pe.putBalance b).trades = pe.trades :=
  pe.trades_push rfl

@[simp] theorem trades_putDeposit (b : BalanceHistory) : (pe.putDeposit b).trades = pe.trades :=
  pe.trades_push rfl

@[simp] theorem trades_putWithdraw (b : BalanceHistory) : (pe.putWithdraw b).trades = pe.trades :=
  pe.trades_push rfl

@[simp] theorem realPersist_putOrder (o : Order) (e : OrderEventType) :
    (pe.putOrder o e).realPersist = pe.realPersist := pe.realPersist_push _

@[simp] theorem realPersist_putTrade (t : Trade) : (pe.putTrade t).realPersist = pe.realPersist :=
  pe.realPersist_push _

@[simp] theorem realPersist_putBalance (b : BalanceHistory) :
    (pe.putBalance b).realPersist = pe.realPersist :=
  pe.realPersist_push _

@[simp] theorem realPersist_putDeposit (b : BalanceHistory) :
    (pe.putDeposit b).realPersist = pe.realPersist :=
  pe.realPersist_push _

@[simp] theorem realPersist_putWithdraw (b : BalanceHistory) :
    (pe.putWithdraw b).realPersist = pe.realPersist :=
  pe.realPersist_push _

end PersistExector

/-- A message about a balance. -/
def Message.isBalance : Message → Bool
  | .orderMessage _ => false
  | .tradeMessage _ => false
  | _ => true

/-- What a trade tells: itself, and an update of a maker that is not filled. -/
def Trade.told (t : Trade) (maker : Order) : List Message :=
  .tradeMessage t :: if maker.remain = 0 then []
    else [.orderMessage (OrderMessage.fromOrder maker .update)]

theorem persistTrade_real (ms : List Message) (t : Trade) (maker : Order) :
    Market.persistTrade (.real ms) t maker = .real (ms ++ t.told maker) := by
  unfold Market.persistTrade Trade.told
  split <;> simp [PersistExector.putTrade, PersistExector.putOrder, PersistExector.push]

/-- A real persistor was given `n` balance messages. -/
def PersistExector.Balances (pe pe' : PersistExector) (n : ℕ) : Prop :=
  ∀ ms, pe = .real ms → ∃ bs, pe' = .real (ms ++ bs) ∧ (∀ m ∈ bs, m.isBalance = true) ∧
    bs.length = n

theorem PersistExector.Balances.trans {pe pe' pe'' : PersistExector} {n n' : ℕ}
    (h : pe.Balances pe' n) (h' : pe'.Balances pe'' n') : pe.Balances pe'' (n + n') := by
  intro ms hms
  obtain ⟨bs, hbs, hall, hlen⟩ := h ms hms
  obtain ⟨bs', hbs', hall', hlen'⟩ := h' _ hbs
  refine ⟨bs ++ bs', by rw [hbs', List.append_assoc],
    fun m hm => ?_, by rw [List.length_append, hlen, hlen']⟩
  rcases List.mem_append.1 hm with hm | hm
  · exact hall m hm
  · exact hall' m hm

theorem PersistExector.balances_push {pe : PersistExector} {m : Message} (hm : m.isBalance = true) :
    pe.Balances (pe.push m) 1 := by
  rintro ms rfl
  exact ⟨[m], rfl, by simpa using hm, rfl⟩

/-- A trade finishes no order by itself. -/
theorem persistTrade_finished (pe : PersistExector) (t : Trade) (maker : Order) :
    (Market.persistTrade pe t maker).finished = pe.finished := by
  unfold Market.persistTrade
  split
  · exact pe.finished_push rfl
  · exact ((pe.putTrade t).finished_push rfl).trans (pe.finished_push rfl)

theorem persistTrade_trades {pe : PersistExector} (hp : pe.realPersist = true) (t : Trade)
    (maker : Order) : (Market.persistTrade pe t maker).trades = pe.trades ++ [t] := by
  unfold Market.persistTrade
  split
  · exact pe.trades_putTrade hp t
  · rw [PersistExector.trades_putOrder, pe.trades_putTrade hp]

@[simp] theorem persistTrade_realPersist (pe : PersistExector) (t : Trade) (maker : Order) :
    (Market.persistTrade pe t maker).realPersist = pe.realPersist := by
  unfold Market.persistTrade
  split <;> simp

variable {E : Env} {now : Timestamp} {x x' : Ctx}

/-! ## One update -/

/-- The balance an update changes. -/
def BalanceUpdateParams.account (p : BalanceUpdateParams) : BalanceMapKey :=
  ⟨p.userId, p.balanceType, p.asset⟩

/-- An update that has been applied. -/
structure Applied (E : Env) (now : Timestamp) (x : Ctx) (p : BalanceUpdateParams)
    (x' : Ctx) : Prop where
  fresh : x.updateController.cache.containsKey now p.key = false
  change : applyChange E x.balanceManager p = .ok (.ok x'.balanceManager)
  cache : x'.updateController.cache = x.updateController.cache.insert now p.key filterTtl
  persistor : persistUpdate E now x'.balanceManager x.persistor p = .ok x'.persistor
  sequencer : x'.sequencer = x.sequencer

/-- **A refused update changes nothing.** -/
theorem updateUserBalance_cases {p : BalanceUpdateParams} {res : Except String Unit}
    (h : updateUserBalance E now x p = .ok (res, x')) :
    ((∃ e, res = .error e) ∧ x' = x) ∨ (res = .ok () ∧ Applied E now x p x') := by
  unfold updateUserBalance at h
  split at h
  · rw [pure_ok, Prod.mk.injEq] at h
    exact .inl ⟨⟨_, h.1.symm⟩, h.2.symm⟩
  · rename_i hfresh
    obtain ⟨r, hr, h⟩ := bind_ok.1 h
    cases r with
    | error e =>
      simp only [pure_ok, Prod.mk.injEq] at h
      exact .inl ⟨⟨_, h.1.symm⟩, h.2.symm⟩
    | ok bm =>
      simp only [bind_ok, pure_ok, Prod.mk.injEq] at h
      obtain ⟨pe, hpe, rfl, rfl⟩ := h
      exact .inr ⟨rfl, by simpa using hfresh, hr, rfl, hpe, rfl⟩

/-- What applying a change does to the balances. -/
structure Changed (bm bm' : BalanceManager) (p : BalanceUpdateParams) (d : Decimal) : Prop where
  posted : Posted bm bm' [(p.account, d)]
  gridded : Gridded bm'
  deposit : 0 ≤ p.change → 0 ≤ d
  withdraw : p.change < 0 → d ≤ 0 ∧ 0 ≤ bm'.getByKey p.account
  known : ∃ q, bm.assetManager.assetPrec p.asset = .ok q
  size : ∀ q, bm.assetManager.assetPrec p.asset = .ok q → |d| = roundDp |p.change| q
  exact : ∀ q, bm.assetManager.assetPrec p.asset = .ok q → OnGrid q p.change → d = p.change

theorem applyChange_ok {bm bm' : BalanceManager} {p : BalanceUpdateParams} (hg : Gridded bm)
    (h : applyChange E bm p = .ok (.ok bm')) : ∃ d, Changed bm bm' p d := by
  unfold applyChange at h
  simp only at h
  split at h
  · rename_i hpos
    simp only [bind_ok, pure_ok, Except.ok.injEq] at h
    obtain ⟨⟨w, bm₁⟩, h, rfl⟩ := h
    obtain ⟨q, hq, hpost⟩ := BalanceManager.add_posted hg h
    refine ⟨_, hpost, BalanceManager.add_gridded hg h, fun _ => roundDp_nonneg (abs_nonneg _),
      fun hneg => absurd hpos (not_le.2 hneg), ⟨q, hq⟩, fun r hr => ?_, fun r hr hrg => ?_⟩
    · obtain rfl : q = r := Except.ok.inj (hq.symm.trans hr)
      exact abs_of_nonneg (roundDp_nonneg (abs_nonneg _))
    · obtain rfl : q = r := Except.ok.inj (hq.symm.trans hr)
      rw [abs_of_nonneg hpos, hrg.roundDp_eq]
  · rename_i hneg
    rw [not_le] at hneg
    split at h
    · simp [pure, Except.pure] at h
    · rename_i hcover
      simp only [bind_ok, pure_ok, Except.ok.injEq] at h
      obtain ⟨⟨w, bm₁⟩, h, rfl⟩ := h
      obtain ⟨q, hq, hpost⟩ := BalanceManager.sub_posted hg h
      -- the old balance is on the grid, so the rounded amount does not pass it
      have hle : roundDp |p.change| q ≤ bm.getByKey p.account :=
        roundDp_le (not_lt.1 hcover) (hg p.account q hq)
      refine ⟨_, hpost, BalanceManager.sub_gridded hg h, fun hpos => absurd hpos (not_le.2 hneg),
        fun _ => ⟨neg_nonpos.2 (roundDp_nonneg (abs_nonneg _)), ?_⟩, ⟨q, hq⟩, fun r hr => ?_,
        fun r hr hrg => ?_⟩
      · have hpost : Posted bm bm₁ [(p.account, -roundDp |p.change| q)] := hpost
        rw [hpost.balance, amountIn_cons, if_pos rfl, amountIn_nil]
        linarith
      · obtain rfl : q = r := Except.ok.inj (hq.symm.trans hr)
        rw [abs_neg]
        exact abs_of_nonneg (roundDp_nonneg (abs_nonneg _))
      · obtain rfl : q = r := Except.ok.inj (hq.symm.trans hr)
        rw [abs_of_neg hneg, hrg.neg.roundDp_eq, neg_neg]

theorem applyChange_known {bm bm' : BalanceManager} {p : BalanceUpdateParams} (hk : bm.Known)
    (h : applyChange E bm p = .ok (.ok bm')) : bm'.Known := by
  unfold applyChange at h
  simp only at h
  split at h
  · simp only [bind_ok, pure_ok, Except.ok.injEq] at h
    obtain ⟨⟨w, bm₁⟩, h, rfl⟩ := h
    exact BalanceManager.add_known hk h
  split at h
  · simp [pure, Except.pure] at h
  · simp only [bind_ok, pure_ok, Except.ok.injEq] at h
    obtain ⟨⟨w, bm₁⟩, h, rfl⟩ := h
    exact BalanceManager.sub_known hk h

theorem Changed.keeps {bm bm' : BalanceManager} {p : BalanceUpdateParams} {d : Decimal}
    (h : Changed bm bm' p d) {k : BalanceMapKey} (hk : 0 ≤ bm.getByKey k) : 0 ≤ bm'.getByKey k := by
  by_cases hp : p.account = k
  · subst hp
    rcases le_or_gt 0 p.change with hc | hc
    · have hd := h.deposit hc
      rw [h.posted.balance, amountIn_cons, if_pos rfl, amountIn_nil]
      linarith
    · exact (h.withdraw hc).2
  · rw [h.posted.balance]
    simpa [hp] using hk

/-- What is posted is what was asked for exactly where rounding its size does nothing. -/
theorem Changed.exact_iff {bm bm' : BalanceManager} {p : BalanceUpdateParams} {d : Decimal} {q : ℕ}
    (h : Changed bm bm' p d) (hq : bm.assetManager.assetPrec p.asset = .ok q) :
    d = p.change ↔ roundDp |p.change| q = |p.change| := by
  rw [← h.size q hq]
  constructor
  · rintro rfl
    rfl
  · intro habs
    rcases le_or_gt 0 p.change with hc | hc
    · rwa [abs_of_nonneg (h.deposit hc), abs_of_nonneg hc] at habs
    · rw [abs_of_nonpos (h.withdraw hc).1, abs_of_neg hc] at habs
      exact neg_injective habs

theorem Changed.held {bm bm' : BalanceManager} {p : BalanceUpdateParams} {d : Decimal}
    (h : Changed bm bm' p d) (u : Uuid) (a : String) :
    bm'.total u a = bm.total u a + if p.userId = u ∧ p.asset = a then d else 0 := by
  rw [h.posted.held, amountIn_cons, amountIn_nil, add_zero]
  rfl

theorem persistUpdate_trades {bm : BalanceManager} {pe pe' : PersistExector}
    {p : BalanceUpdateParams} (h : persistUpdate E now bm pe p = .ok pe') :
    pe'.trades = pe.trades ∧ pe'.finished = pe.finished ∧ pe'.realPersist = pe.realPersist := by
  have hbalance : ∀ b, (pe.putBalance b).finished = pe.finished := fun b => pe.finished_push rfl
  unfold persistUpdate at h
  split at h
  · obtain ⟨detail, -, h⟩ := bind_ok.1 h
    simp only at h
    split at h <;> rw [pure_ok] at h <;> subst h <;> refine ⟨by simp, ?_, by simp⟩
    · exact (PersistExector.finished_push _ rfl).trans (hbalance _)
    · exact (PersistExector.finished_push _ rfl).trans (hbalance _)
    · exact hbalance _
  · rw [pure_ok] at h
    subst h; exact ⟨rfl, rfl, rfl⟩

/-- An update tells a change that is not zero, and a deposit or withdrawal once more. -/
theorem persistUpdate_balances {bm : BalanceManager} {pe pe' : PersistExector}
    {p : BalanceUpdateParams} (h : persistUpdate E now bm pe p = .ok pe') :
    pe.Balances pe' (if p.change = 0 then 0 else if p.businessType = .deposit ∨ p.businessType =
      .withdraw then 2 else 1) := by
  unfold persistUpdate at h
  split at h
  · rename_i hchange
    have hchange : p.change ≠ 0 := by simp_all
    obtain ⟨detail, -, h⟩ := bind_ok.1 h
    simp only at h
    rw [if_neg hchange]
    split at h <;> rename_i hb <;> rw [pure_ok] at h <;> subst h
    · rw [if_pos (.inl hb)]
      exact (PersistExector.balances_push rfl).trans (PersistExector.balances_push rfl)
    · rw [if_pos (.inr hb)]
      exact (PersistExector.balances_push rfl).trans (PersistExector.balances_push rfl)
    · rename_i hd
      rw [if_neg (by simp_all)]
      exact PersistExector.balances_push rfl
  · rename_i hchange
    rw [pure_ok] at h
    subst h
    rintro ms rfl
    have hchange : p.change = 0 := by simpa [PersistExector.realPersist] using hchange
    exact ⟨[], by simp, by simp, by simp [hchange]⟩

/-! ## The journal -/

theorem journalOf_append (u : Uuid) (a : String) (ms ms' : List Message) :
    journalOf u a (ms ++ ms') = journalOf u a ms ++ journalOf u a ms' := by
  unfold journalOf
  rw [List.filterMap_append]

theorem AddsUp.nil (held : Decimal) : AddsUp held [] held := ⟨trivial, rfl⟩

theorem AddsUp.append {before held held' : Decimal} {rs rs' : List BalanceHistory}
    (h : AddsUp before rs held) (h' : AddsUp held rs' held') : AddsUp before (rs ++ rs') held' := by
  obtain ⟨hcoherent, rfl⟩ := h
  obtain ⟨hcoherent', rfl⟩ := h'
  exact ⟨coherent_append.2 ⟨hcoherent, hcoherent'⟩, after_append⟩

/-- What an update tells the journal: nothing when nothing changes, and else one record
with the change that was asked for and the balances that are there after it. -/
theorem persistUpdate_journal {bm : BalanceManager} {ms : List Message} {pe' : PersistExector}
    {p : BalanceUpdateParams} (h : persistUpdate E now bm (.real ms) p = .ok pe') :
    ∃ told, pe' = .real (ms ++ told) ∧
      (p.change = 0 → ∀ u a, journalOf u a told = []) ∧
      (p.change ≠ 0 → ∃ record : BalanceHistory, record.change = p.change ∧
        record.balance = bm.total p.userId p.asset ∧
        record.balance = record.balanceAvailable + record.balanceFrozen ∧
        ∀ u a, journalOf u a told = if p.userId = u ∧ p.asset = a then [record] else []) := by
  unfold persistUpdate at h
  split at h
  · rename_i hchange
    have hchange : p.change ≠ 0 := by simpa [PersistExector.realPersist] using hchange
    obtain ⟨detail, -, h⟩ := bind_ok.1 h
    simp only at h
    -- a deposit or a withdrawal is told once more, but not to the journal
    have hrecord : ∀ record : BalanceHistory, record.userId = p.userId → record.asset = p.asset →
        ∀ m : List Message,
        (m = [] ∨ m = [.depositMessage record] ∨ m = [.withdrawMessage record]) → ∀ u a,
        journalOf u a (.balanceMessage record :: m) = if p.userId = u ∧ p.asset = a then [record]
          else [] := by
      intro record hu ha m hm u a
      unfold journalOf
      rw [← hu, ← ha]
      by_cases hkey : record.userId = u ∧ record.asset = a
      · rcases hm with rfl | rfl | rfl <;> simp [hkey]
      · rcases hm with rfl | rfl | rfl <;> simp [hkey]
    split at h
    · rw [pure_ok] at h
      subst h
      exact ⟨_, congrArg PersistExector.real (List.append_assoc ms [_] [_]),
        fun hz => absurd hz hchange,
        fun _ => ⟨_, rfl, rfl, rfl, hrecord _ rfl rfl _ (.inr (.inl rfl))⟩⟩
    · rw [pure_ok] at h
      subst h
      exact ⟨_, congrArg PersistExector.real (List.append_assoc ms [_] [_]),
        fun hz => absurd hz hchange,
        fun _ => ⟨_, rfl, rfl, rfl, hrecord _ rfl rfl _ (.inr (.inr rfl))⟩⟩
    · rw [pure_ok] at h
      subst h
      exact ⟨[.balanceMessage _], rfl, fun hz => absurd hz hchange, fun _ =>
        ⟨_, rfl, rfl, rfl, hrecord _ rfl rfl _ (.inl rfl)⟩⟩
  · rename_i hchange
    have hchange : p.change = 0 := by simpa [PersistExector.realPersist] using hchange
    rw [pure_ok] at h
    subst h
    exact ⟨[], by rw [List.append_nil], fun _ _ _ => rfl, fun hne => absurd hchange hne⟩

/-- What a real persistor was told carries the journals on to the new balances. -/
def Ctx.Carries (x x' : Ctx) : Prop :=
  ∀ ms, x.persistor = .real ms → ∃ told, x'.persistor = .real (ms ++ told) ∧
    ∀ u a, AddsUp (x.balanceManager.total u a) (journalOf u a told) (x'.balanceManager.total u a)

theorem Ctx.Carries.refl (x : Ctx) : x.Carries x :=
  fun ms hms => ⟨[], by rw [List.append_nil]; exact hms, fun _ _ => .nil _⟩

theorem Ctx.Carries.trans {x'' : Ctx} (h : x.Carries x') (h' : x'.Carries x'') : x.Carries x'' := by
  intro ms hms
  obtain ⟨told, htold, hadds⟩ := h ms hms
  obtain ⟨told', htold', hadds'⟩ := h' _ htold
  refine ⟨told ++ told', by rw [htold', List.append_assoc], fun u a => ?_⟩
  rw [journalOf_append]
  exact (hadds u a).append (hadds' u a)

/-- Nothing is told to the journal while money only changes its place. -/
theorem Ctx.Carries.quiet (htotal : ∀ u a, x'.balanceManager.total u a = x.balanceManager.total u a)
    (htold : ∀ ms, x.persistor = .real ms → ∃ told, x'.persistor = .real (ms ++ told) ∧
      ∀ u a, journalOf u a told = []) :
    x.Carries x' := by
  intro ms hms
  obtain ⟨told, htold, hnone⟩ := htold ms hms
  refine ⟨told, htold, fun u a => ?_⟩
  rw [hnone, htotal]
  exact .nil _

/-- A trade by itself is no entry of a journal. -/
theorem Ctx.carries_persistTrade (x : Ctx) (t : Trade) (maker : Order) :
    x.Carries { x with persistor := Market.persistTrade x.persistor t maker } := by
  refine .quiet (fun _ _ => rfl) fun ms hms => ⟨t.told maker, ?_, fun u a => ?_⟩
  · show Market.persistTrade x.persistor t maker = _
    rw [hms, persistTrade_real]
  · unfold Trade.told journalOf
    split <;> simp

/-- Nor is an order. -/
theorem Ctx.carries_putOrder {bm : BalanceManager}
    (htotal : ∀ u a, bm.total u a = x.balanceManager.total u a) (o : Order) (e : OrderEventType)
    (s : Sequencer) (uc : BalanceUpdateController) :
    x.Carries ⟨s, bm, uc, x.persistor.putOrder o e⟩ := by
  refine .quiet htotal fun ms hms =>
    ⟨[.orderMessage (OrderMessage.fromOrder o e)], ?_, fun _ _ => rfl⟩
  show x.persistor.putOrder o e = _
  rw [hms]
  rfl

/-- **What an applied update tells the journals**: they add up where it posted what
was asked for, and never where it did not. -/
theorem Applied.journal {p : BalanceUpdateParams} {d : Decimal} (ha : Applied E now x p x')
    (hd : Changed x.balanceManager x'.balanceManager p d) {ms : List Message}
    (hms : x.persistor = .real ms) :
    ∃ told, x'.persistor = .real (ms ++ told) ∧ ∀ u a,
      ((p.userId = u ∧ p.asset = a → d = p.change) →
        AddsUp (x.balanceManager.total u a) (journalOf u a told) (x'.balanceManager.total u a)) ∧
      (p.userId = u ∧ p.asset = a → d ≠ p.change →
        ¬ Coherent journalRules (x.balanceManager.total u a) (journalOf u a told)) := by
  have hpersist := ha.persistor
  rw [hms] at hpersist
  obtain ⟨told, htold, hzero, hone⟩ := persistUpdate_journal hpersist
  -- a change of nothing posts nothing
  have hnothing : p.change = 0 → d = p.change := by
    intro hchange
    obtain ⟨q, hq⟩ := hd.known
    refine hd.exact q hq ?_
    rw [hchange]
    exact OnGrid.zero
  refine ⟨told, htold, fun u a => ?_⟩
  have hheld := hd.held u a
  by_cases hkey : p.userId = u ∧ p.asset = a
  · rw [if_pos hkey] at hheld
    by_cases hchange : p.change = 0
    · have hposted := hnothing hchange
      rw [hzero hchange, hheld, hposted, hchange, add_zero]
      exact ⟨fun _ => .nil _, fun _ hne => absurd rfl hne⟩
    · obtain ⟨record, hrecord, hbalance, hsum, htold⟩ := hone hchange
      rw [htold, if_pos hkey]
      obtain ⟨rfl, rfl⟩ := hkey
      refine ⟨fun hexact => ?_, fun _ hne hcoherent => ?_⟩
      · refine ⟨⟨⟨?_, hsum⟩, trivial⟩, hbalance⟩
        rw [hbalance, hheld, hrecord, hexact ⟨rfl, rfl⟩]
      · have hadmits := hcoherent.1.1
        rw [hbalance, hheld, hrecord] at hadmits
        exact hne (add_left_cancel hadmits)
  · rw [if_neg hkey, add_zero] at hheld
    have hnone : journalOf u a told = [] := by
      by_cases hchange : p.change = 0
      · exact hzero hchange u a
      · obtain ⟨record, -, -, -, htold⟩ := hone hchange
        rw [htold, if_neg hkey]
    rw [hnone, hheld]
    exact ⟨fun _ => .nil _, fun hkey' => absurd hkey' hkey⟩

/-- **An update that posts what was asked for** carries the journals on. -/
theorem Applied.carries {p : BalanceUpdateParams} (ha : Applied E now x p x')
    (hd : Changed x.balanceManager x'.balanceManager p p.change) : x.Carries x' := by
  intro ms hms
  obtain ⟨told, htold, hjournal⟩ := ha.journal hd hms
  exact ⟨told, htold, fun u a => (hjournal u a).1 fun _ => rfl⟩

/-! ## The keys of a settlement -/

variable {m : Market} {tradeId : ℕ}

/-- The filter key of a leg. -/
def tradeKey (tradeId : ℕ) (t : BalanceType) (user : Uuid) (asset : String) : BalanceUpdateKey :=
  { balanceType := t, businessType := .trade, userId := user, asset, business := "trade",
    businessId := tradeId }

theorem tradeKey_inj {s t : BalanceType} {u v : Uuid} {a b : String} :
    tradeKey tradeId s u a = tradeKey tradeId t v b ↔ s = t ∧ u = v ∧ a = b := by
  simp [tradeKey]

/-- A leg was not in the filter, and now is. -/
theorem settleOne_cache {t : BalanceType} {user : Uuid} {asset : String} {change : Decimal}
    (h : Market.settleOne E now x m tradeId t user asset change = .ok x') :
    x.updateController.cache.containsKey now (tradeKey tradeId t user asset) = false ∧
      x'.updateController.cache =
        x.updateController.cache.insert now (tradeKey tradeId t user asset) filterTtl := by
  unfold Market.settleOne at h
  obtain ⟨⟨res, y⟩, hu, h⟩ := bind_ok.1 h
  rcases updateUserBalance_cases hu with ⟨⟨e, rfl⟩, -⟩ | ⟨rfl, ha⟩
  · exact absurd h throw_ok
  · simp only [pure_ok] at h
    subst h
    exact ⟨ha.fresh, ha.cache⟩

/-- A key just inserted is not free, nor is it after `n` others. -/
theorem not_fresh_after {c c' : TtlCache BalanceUpdateKey} {k : BalanceUpdateKey} {n : ℕ}
    (hc : n + 1 ≤ c.capacity) (h : TtlCache.Inserted (· ≠ k) (c.insert now k filterTtl) n c') :
    c'.containsKey now k = true := by
  have hheld : (c.insert now k filterTtl).Held k (now + filterTtl) 0 :=
    TtlCache.held_insert (by omega)
  refine (h.held (by simp) hheld ?_).containsKey (by simp [filterTtl])
  rw [TtlCache.insert_capacity]; omega

/-- The keys of one trade. -/
def TradeKeys (tradeId : ℕ) (k : BalanceUpdateKey) : Prop :=
  k.businessType = .trade ∧ k.businessId = tradeId

/-- **A settlement that returns** has put four keys into the filter. They differ, so
it was between two users and in two assets. -/
theorem settle_cache {takerIsAsk : Bool} {t : Trade} (hc : 4 ≤ x.updateController.cache.capacity)
    (h : Market.settle E now x m takerIsAsk t = .ok x') :
    TtlCache.Inserted (TradeKeys t.id) x.updateController.cache 4 x'.updateController.cache ∧
      t.askUserId ≠ t.bidUserId ∧ m.base ≠ m.quote := by
  unfold Market.settle at h
  obtain ⟨x₁, h₁, h⟩ := bind_ok.1 h
  obtain ⟨x₂, h₂, h⟩ := bind_ok.1 h
  obtain ⟨x₃, h₃, h₄⟩ := bind_ok.1 h
  obtain ⟨-, c₁⟩ := settleOne_cache h₁
  obtain ⟨f₂, c₂⟩ := settleOne_cache h₂
  obtain ⟨f₃, c₃⟩ := settleOne_cache h₃
  obtain ⟨f₄, c₄⟩ := settleOne_cache h₄
  have hnext : ∀ {c c' : TtlCache BalanceUpdateKey} {k j}, 4 ≤ c.capacity →
      c' = c.insert now k filterTtl →
      c'.containsKey now j = false → k ≠ j := by
    rintro c _ k _ hc rfl hf rfl
    rw [not_fresh_after (k := k) (by omega) .refl] at hf
    exact Bool.noConfusion hf
  have n₁ := hnext hc c₁ f₂
  have n₂ := hnext (by rw [c₁]; exact hc) c₂ f₃
  have n₃ := hnext (by rw [c₂, c₁]; exact hc) c₃ f₄
  refine ⟨?_, ?_⟩
  · rw [c₄, c₃, c₂, c₁]
    exact (((TtlCache.Inserted.refl.insert ⟨rfl, rfl⟩).insert ⟨rfl, rfl⟩).insert ⟨rfl, rfl⟩).insert
      ⟨rfl, rfl⟩
  cases takerIsAsk with
  | true =>
    -- legs 1 and 2 share all but the user, legs 2 and 3 all but the asset
    refine ⟨fun hu => n₁ ?_, fun ha => n₂ ?_⟩
    · simp [tradeKey, hu]
    · simp [tradeKey, ha]
  | false =>
    -- legs 3 and 4 share all but the user; legs 1 and 4 all but the asset, with two legs between
    have hu : t.askUserId ≠ t.bidUserId := fun hu => n₃ (by simp [tradeKey, hu])
    refine ⟨hu, fun ha => ?_⟩
    simp only [Bool.false_eq_true, if_false, ← ha] at f₄
    have hins : TtlCache.Inserted (· ≠ tradeKey t.id .available t.bidUserId m.base)
        x₁.updateController.cache 2 x₃.updateController.cache := by
      rw [c₃, c₂]
      refine TtlCache.Inserted.insert (TtlCache.Inserted.insert .refl n₁.symm) fun he => ?_
      exact hu (tradeKey_inj.1 he).2.1
    rw [c₁] at hins
    rw [not_fresh_after (by omega) hins] at f₄
    exact Bool.noConfusion f₄

/-! ## One leg of a settlement -/

/-- One leg that has been applied: `d` is posted to `k`. -/
structure Leg (x x' : Ctx) (k : BalanceMapKey) (d : Decimal) : Prop where
  posted : Posted x.balanceManager x'.balanceManager [(k, d)]
  messages : x.persistor.Balances x'.persistor (if d = 0 then 0 else 1)
  carries : x.Carries x'
  gridded : Gridded x'.balanceManager
  keeps : ∀ j, 0 ≤ x.balanceManager.getByKey j → 0 ≤ x'.balanceManager.getByKey j
  known : x.balanceManager.Known → x'.balanceManager.Known
  sequencer : x'.sequencer = x.sequencer
  trades : x'.persistor.trades = x.persistor.trades
  finished : x'.persistor.finished = x.persistor.finished
  real : x'.persistor.realPersist = x.persistor.realPersist

theorem settleOne_ok {t : BalanceType} {user : Uuid} {asset : String} {change : Decimal} {q : ℕ}
    (hg : Gridded x.balanceManager) (hq : x.balanceManager.assetManager.assetPrec asset = .ok q)
    (hgrid : OnGrid q change)
    (h : Market.settleOne E now x m tradeId t user asset change = .ok x') :
    Leg x x' ⟨user, t, asset⟩ change := by
  unfold Market.settleOne at h
  obtain ⟨⟨res, y⟩, hu, h⟩ := bind_ok.1 h
  rcases updateUserBalance_cases hu with ⟨⟨e, rfl⟩, -⟩ | ⟨rfl, ha⟩
  · exact absurd h throw_ok
  · simp only [pure_ok] at h
    subst h
    obtain ⟨d, hd⟩ := applyChange_ok hg ha.change
    obtain rfl : d = change := hd.exact q hq hgrid
    obtain ⟨ht, hf, hr⟩ := persistUpdate_trades ha.persistor
    refine ⟨hd.posted, ?_, ha.carries hd, hd.gridded, fun _ => hd.keeps,
      fun hk => applyChange_known hk ha.change, ha.sequencer, ht, hf, hr⟩
    simpa using persistUpdate_balances ha.persistor

/-! ## The settlement -/

/-- What a trade posts: the base and the quote amount change hands, each taken
from where its owner holds it (a maker's order is frozen, a taker pays from
`AVAILABLE`) and credited less the fee. -/
def Trade.postings (t : Trade) (m : Market) (takerIsAsk : Bool) : List (BalanceMapKey × Decimal) :=
  [(⟨t.bidUserId, .available, m.base⟩, Market.afterFee t.amount t.bidFee),
   (⟨t.askUserId, if takerIsAsk then .available else .freeze, m.base⟩, -t.amount),
   (⟨t.askUserId, .available, m.quote⟩, Market.afterFee t.quoteAmount t.askFee),
   (⟨t.bidUserId, if takerIsAsk then .freeze else .available, m.quote⟩, -t.quoteAmount)]

theorem onGrid_afterFee {p : ℕ} {amount fee : Decimal} (ha : OnGrid p amount) (hf : OnGrid p fee) :
    OnGrid p (Market.afterFee amount fee) := by
  unfold Market.afterFee
  split
  · exact ha.sub hf
  · exact ha

/-- A settlement that has returned. -/
structure Settled (x x' : Ctx) (l : List (BalanceMapKey × Decimal)) : Prop where
  posted : Posted x.balanceManager x'.balanceManager l
  messages : x.persistor.Balances x'.persistor (l.countP fun e => e.2 ≠ 0)
  carries : x.Carries x'
  gridded : Gridded x'.balanceManager
  keeps : ∀ j, 0 ≤ x.balanceManager.getByKey j → 0 ≤ x'.balanceManager.getByKey j
  known : x.balanceManager.Known → x'.balanceManager.Known
  sequencer : x'.sequencer = x.sequencer
  trades : x'.persistor.trades = x.persistor.trades
  finished : x'.persistor.finished = x.persistor.finished
  real : x'.persistor.realPersist = x.persistor.realPersist

/-- **A settlement that returns** has posted its four legs. -/
theorem settle_spec {takerIsAsk : Bool} {t : Trade} {p q : ℕ} (hg : Gridded x.balanceManager)
    (hp : x.balanceManager.assetManager.assetPrec m.base = .ok p)
    (hq : x.balanceManager.assetManager.assetPrec m.quote = .ok q) (hbase : OnGrid p t.amount)
    (hquote : OnGrid q t.quoteAmount) (hask : OnGrid q t.askFee) (hbid : OnGrid p t.bidFee)
    (h : Market.settle E now x m takerIsAsk t = .ok x') :
    Settled x x' (t.postings m takerIsAsk) := by
  unfold Market.settle at h
  obtain ⟨x₁, h₁, h⟩ := bind_ok.1 h
  obtain ⟨x₂, h₂, h⟩ := bind_ok.1 h
  obtain ⟨x₃, h₃, h₄⟩ := bind_ok.1 h
  have l₁ := settleOne_ok hg hp (onGrid_afterFee hbase hbid) h₁
  have l₂ := settleOne_ok l₁.gridded (by rw [l₁.posted.assets]; exact hp) hbase.neg h₂
  have p₂ := l₁.posted.trans l₂.posted
  have l₃ := settleOne_ok l₂.gridded (by rw [p₂.assets]; exact hq) (onGrid_afterFee hquote hask) h₃
  have p₃ := p₂.trans l₃.posted
  have l₄ := settleOne_ok l₃.gridded (by rw [p₃.assets]; exact hq) hquote.neg h₄
  refine ⟨p₃.trans l₄.posted, ?_, ((l₁.carries.trans l₂.carries).trans l₃.carries).trans l₄.carries,
    l₄.gridded, fun j hj => l₄.keeps j (l₃.keeps j (l₂.keeps j (l₁.keeps j hj))),
    fun hk => l₄.known (l₃.known (l₂.known (l₁.known hk))),
    by rw [l₄.sequencer, l₃.sequencer, l₂.sequencer, l₁.sequencer],
    by rw [l₄.trades, l₃.trades, l₂.trades, l₁.trades], by
      rw [l₄.finished, l₃.finished, l₂.finished, l₁.finished],
    by rw [l₄.real, l₃.real, l₂.real, l₁.real]⟩
  have hcount := ((l₁.messages.trans l₂.messages).trans l₃.messages).trans l₄.messages
  simpa [Trade.postings, List.countP_cons, add_comm, add_left_comm, add_assoc, ite_not] using hcount

end Dingir
