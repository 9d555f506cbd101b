import Dingir.Spec.Sample
import Dingir.Proof.Lookup

/-!
# The four indexes always agree

Whatever order the methods of the markets are called in, and through resets and
restarts, the four indexes of every market hold the same orders (`Agree`), and
no lookup in them fails (`FindsAll`): **`MarketRun.agree`**.
-/

namespace Dingir

open Keyed Outcome Market Paging

/-- The indexes of a market agree, on LIMIT orders with something left and ids up to `orderId`. -/
structure Market.Agree (m : Market) (orderId : ℕ) : Prop where
  union : ∀ rc, (∃ id : ℕ, m.orders[id]? = some rc) ↔
    (∃ k : MarketKeyAsk, m.asks[k]? = some rc) ∨ ∃ k : MarketKeyBid, m.bids[k]? = some rc
  ownId : ∀ (id : ℕ) (rc : OrderRc), m.orders[id]? = some rc → (m.rcs.read rc).id = id
  inUsers : ∀ (id : ℕ) (rc : OrderRc), m.orders[id]? = some rc →
    ∃ userMap, m.users[(m.rcs.read rc).user]? = some userMap ∧ userMap[id]? = some rc
  ofUsers : ∀ (user : Uuid) (userMap : Std.TreeMap ℕ OrderRc) (id : ℕ) (rc : OrderRc),
    m.users[user]? = some userMap → userMap[id]? = some rc →
    m.orders[id]? = some rc ∧ (m.rcs.read rc).user = user
  inSide : ∀ (id : ℕ) (rc : OrderRc), m.orders[id]? = some rc →
    if (m.rcs.read rc).side = .ask then m.asks[(m.rcs.read rc).askKey]? = some rc
    else m.bids[(m.rcs.read rc).bidKey]? = some rc
  ofAsks : ∀ (k : MarketKeyAsk) (rc : OrderRc), m.asks[k]? = some rc →
    m.orders[k.orderId]? = some rc ∧ (m.rcs.read rc).side = .ask ∧ (m.rcs.read rc).askKey = k
  ofBids : ∀ (k : MarketKeyBid) (rc : OrderRc), m.bids[k]? = some rc →
    m.orders[k.orderId]? = some rc ∧ (m.rcs.read rc).side = .bid ∧ (m.rcs.read rc).bidKey = k
  limit : ∀ (id : ℕ) (rc : OrderRc), m.orders[id]? = some rc → (m.rcs.read rc).type_ = .limit
  remain : ∀ (id : ℕ) (rc : OrderRc), m.orders[id]? = some rc → (m.rcs.read rc).remain ≠ 0
  id_le : ∀ (id : ℕ) (rc : OrderRc), m.orders[id]? = some rc → id ≤ orderId

/-- No lookup of a method fails: of a removal, when the order is there, and of an
insertion, when the id is new. -/
structure Market.FindsAll (E : Env) (m : Market) (c : Controller) : Prop where
  orderFinish : ∀ x (o : Order), m.resting o.id = some o → Avoids .lookup (m.orderFinish E x o)
  cancel : ∀ x (id : ℕ), id ∈ m.orders → Avoids .lookup (m.cancel E x id)
  cancelAllForUser : ∀ x user, Avoids .lookup (m.cancelAllForUser E x user)
  insertOrder : ∀ o : Order, o.id ∉ m.orders → Avoids .lookup (m.insertOrderIntoOrderbook E o)
  putOrder : ∀ now real input user, Avoids .lookup (m.putOrder E now (c.ctx real) input user)

variable {E : Env} {settings : Settings} {c : Controller} {m : Market} {x : Ctx}

theorem DeskOK.indexesAgree (hd : DeskOK ⟨m, x, none⟩) : m.Agree x.sequencer.orderId := by
  have hrest : ∀ {id : ℕ} {rc : OrderRc}, m.orders[id]? = some rc →
      m.resting id = some (m.rcs.read rc) :=
    fun hrc => resting_some.2 ⟨_, hrc, rfl⟩
  have hside : ∀ {id : ℕ} {rc : OrderRc}, m.orders[id]? = some rc →
      if (m.rcs.read rc).side = .ask then m.asks[(m.rcs.read rc).askKey]? = some rc
      else m.bids[(m.rcs.read rc).bidKey]? = some rc := by
    intro id rc hrc
    have hid := hd.index.ownId id rc hrc
    have hkey := (hd.index.sides (sideKey (m.rcs.read rc)) id rc).2 ⟨hrc, rfl⟩
    rw [← hid] at hkey
    split
    · rename_i hs
      simpa only [sideOrder, sideKey, hs, Order.askKey, Order.bidKey] using hkey
    · rename_i hs
      have hs : (m.rcs.read rc).side = .bid := by cases h : (m.rcs.read rc).side <;> simp_all
      simpa only [sideOrder, sideKey, hs, Order.askKey, Order.bidKey] using hkey
  refine ⟨fun rc => ⟨?_, ?_⟩, hd.index.ownId, fun id rc hrc => ?_,
    fun user userMap id rc hu hrc => ?_,
    fun id rc => hside, fun k rc hk => ?_, fun k rc hk => ?_,
    fun id rc hrc => (hd.backed id _ (hrest hrc)).limit,
    fun id rc hrc => hd.quiet rfl id _ (hrest hrc), fun id rc hrc => hd.ids id _ (hrest hrc)⟩
  · rintro ⟨id, hrc⟩
    have hs := hside hrc
    split at hs
    · exact .inl ⟨_, hs⟩
    · exact .inr ⟨_, hs⟩
  · rintro (⟨k, hk⟩ | ⟨k, hk⟩)
    · exact ⟨_, ((hd.index.asks k).1 hk).1⟩
    · exact ⟨_, ((hd.index.bids k).1 hk).1⟩
  · have huser := (hd.index.users _ id rc).2 ⟨hrc, rfl⟩
    cases hu : m.users[(m.rcs.read rc).user]? with
    | none => simp [userOrders, hu] at huser
    | some userMap => exact ⟨userMap, rfl, by simpa [userOrders, hu] using huser⟩
  · exact (hd.index.users user id rc).1 (by simpa [userOrders, hu] using hrc)
  · obtain ⟨ho, hs, hp⟩ := (hd.index.asks k).1 hk
    exact ⟨ho, hs, congrArg₂ MarketKeyAsk.mk hp (hd.index.ownId _ _ ho)⟩
  · obtain ⟨ho, hs, hp⟩ := (hd.index.bids k).1 hk
    exact ⟨ho, hs, congrArg₂ MarketKeyBid.mk hp (hd.index.ownId _ _ ho)⟩

theorem DeskOK.findsAll (hd : ∀ real, DeskOK ⟨m, c.ctx real, none⟩) : m.FindsAll E c := by
  have hindex := (hd true).index
  refine ⟨fun x o ho => orderFinish_avoids hindex ho, fun x id hid => cancel_avoids hindex ?_,
    fun x user => cancelAllForUser_avoids hindex user, fun o ho => insertOrder_avoids hindex ?_,
    fun now real input user => putOrder_avoids (hd real)⟩
  · rw [Std.TreeMap.mem_iff_isSome_getElem?] at hid
    rwa [resting, Option.isSome_map]
  · rw [Std.TreeMap.mem_iff_isSome_getElem?, Option.not_isSome_iff_eq_none] at ho
    rw [resting, ho]; rfl

/-- A market reset by itself leaves the controller well formed. -/
theorem ControllerOK.resetMarket {b : Controller} {name : String} (hc : ControllerOK b c)
    (hm : c.markets.find? name = some m) :
    ControllerOK b (c.withMarket name m.reset (c.ctx true)) := by
  rw [Controller.withMarket_ctx]
  have hfind : ∀ other mo, (c.rewritten name m.reset).markets.find? other = some mo →
      (other = name ∧ mo = m.reset) ∨ c.markets.find? other = some mo := by
    intro other mo hmo
    rw [Controller.rewritten, find?_insert] at hmo
    split at hmo
    · exact .inl ⟨‹_›, (Option.some.inj hmo).symm⟩
    · exact .inr hmo
  have hnone : ∀ {id o}, m.reset.resting id = some o → False := fun ho => by
    rw [m.reset_noOrders.resting] at ho; simp at ho
  obtain ⟨hname, hdesk⟩ := hc.desk name m hm
  refine ⟨hc.settings, hc.names, hc.assets, hc.gridded, hc.capacity, fun other mo hmo => ?_,
    fun other mo hmo => ?_,
    fun other m₀ h₀ => ?_, fun n₁ n₂ m₁ m₂ id o₁ o₂ h₁ h₂ ho₁ ho₂ => ?_,
    fun other mo id o hmo ho => ?_⟩
  · rcases hfind other mo hmo with ⟨rfl, rfl⟩ | hmo
    · have hp := (hdesk true).prec
      exact ⟨hname,
        fun real => NoOrders.deskOK m.reset_noOrders ⟨hp.base, hp.quote, hp.amount_le, hp.sum_le⟩
        hc.gridded (hdesk true).capacity⟩
    · exact hc.desk other mo hmo
  · rcases hfind other mo hmo with ⟨rfl, rfl⟩ | hmo
    · obtain ⟨m₀, h₀, ht⟩ := hc.terms _ m hm
      exact ⟨m₀, h₀, ht.name, ht.base, ht.quote, ht.amountPrec, ht.pricePrec, ht.basePrec,
        ht.quotePrec, ht.feePrec,
        ht.minAmount, ht.disableSelfTrade, ht.disableMarketOrder⟩
    · exact hc.terms other mo hmo
  · rw [Controller.rewritten, find?_insert]
    split
    · rfl
    · exact hc.kept other m₀ h₀
  · rcases hfind _ _ h₁ with ⟨-, rfl⟩ | h₁
    · exact (hnone ho₁).elim
    rcases hfind _ _ h₂ with ⟨-, rfl⟩ | h₂
    · exact (hnone ho₂).elim
    exact hc.disjoint _ _ _ _ _ _ _ h₁ h₂ ho₁ ho₂
  · rcases hfind _ _ hmo with ⟨-, rfl⟩ | hmo
    · exact (hnone ho).elim
    · exact hc.pos _ _ _ _ hmo ho

/-- The methods of the markets keep the controller well formed. -/
theorem MarketRun.ok (h : MarketRun E settings c) :
    ∃ b, createController settings = .ok b ∧ ControllerOK b c := by
  induction h with
  | init hb => exact ⟨_, hb, (createController_ok hb).1⟩
  | updateBalance _ hcall ih =>
    obtain ⟨b, hb, hc⟩ := ih
    obtain ⟨c₁, hmoves, hends⟩ := updateBalance_moves (A := AnyOrder) hcall
    exact ⟨b, hb, hends.ok (hmoves.ok hc)⟩
  | @putOrder c now real name m m' x' input user res _ hm hput ih =>
    obtain ⟨b, hb, hc⟩ := ih
    exact ⟨b, hb,
      (Move.market (w := False) (A := AnyOrder) hm
      (putOrder_steps ((hc.desk _ _ hm).2 real) (fun _ => trivial) hput)).ok hc⟩
  | @cancel c real name m m' x' id o _ hm hcancel ih =>
    obtain ⟨b, hb, hc⟩ := ih
    have hsteps : Steps E 0 o.user AnyOrder _ _ :=
      (cancel_steps ((hc.desk _ _ hm).2 real) hcancel).2
    have hmove : Move E 0 real o.user False AnyOrder _ _ := Move.market hm hsteps
    exact ⟨b, hb, hmove.ok hc⟩
  | @cancelAllForUser c real name m m' x' user n _ hm hcancel ih =>
    obtain ⟨b, hb, hc⟩ := ih
    have hsteps : Steps E 0 user AnyOrder _ _ :=
      cancelAllForUser_steps ((hc.desk _ _ hm).2 real) hcancel
    have hmove : Move E 0 real user False AnyOrder _ _ := Move.market hm hsteps
    exact ⟨b, hb, hmove.ok hc⟩
  | resetMarket _ hm ih =>
    obtain ⟨b, hb, hc⟩ := ih
    exact ⟨b, hb, hc.resetMarket hm⟩
  | resetState _ ih =>
    obtain ⟨b, hb, hc⟩ := ih
    exact ⟨b, hb, (resetState_ok hc).1⟩
  | restart _ _ hstart hslice hrun ihc ihd =>
    obtain ⟨b, hb, hc⟩ := ihc
    obtain ⟨b₁, hb₁, hd⟩ := ihd
    obtain rfl : b = b₁ := Except.ok.inj (hb.symm.trans hb₁)
    obtain ⟨hok, hblank⟩ := hstart.blank hb hd
    exact ⟨b, hb, restart_ok hc hok hblank hslice hrun⟩

/-- The insertions of a slice of `c` into a controller a restart begins with find no order in the
way. -/
theorem ControllerOK.loadSlice_avoids {b b' : Controller} (hc : ControllerOK b c)
    (hblank : b'.Blank) : Avoids .lookup (b'.loadSlice E c.dump) := by
  refine Avoids.bind
    (foldlM_avoids (P := fun _ _ => True) (fun row _ bm _ => BalanceManager.setByKey_avoids _ _)
    (fun _ _ _ _ _ _ => trivial) _ _ trivial) fun bm _ => Avoids.bind ?_ fun _ _ => avoids_pure _
  set rows := (pages OrderSlice.id QUERY_LIMIT false c.dump.orders 0).flatten with hrows
  have hnodup : (rows.map OrderSlice.id).Nodup :=
    ((hc.dumped_perm.map _).nodup_iff).2 (dumpOrders_nodup hc)
  let P (rest : List OrderSlice) (markets : HashMap String Market) : Prop :=
    ∃ done, done ++ rest = rows ∧ Loaded b'.markets markets done
  have hnew : ∀ {done : List OrderSlice} {row rest}, done ++ row :: rest = rows →
      row.id ∉ done.map OrderSlice.id := by
    intro done row rest hdone
    rw [← hdone, List.map_append, List.map_cons] at hnodup
    exact fun hmem => (List.nodup_append.1 hnodup).2.2 _ hmem _ (by simp) rfl
  refine foldlM_avoids (P := P) ?_ ?_ _ _ ⟨[], rfl, Loaded.start hblank.markets⟩
  · rintro row rest markets ⟨done, hdone, hl⟩
    refine (unwrap_avoids (by decide) _).bind fun mk hmk => ?_
    rw [unwrap_ok] at hmk
    obtain ⟨-, -, -, hindex, -⟩ := (hl row.market).1 mk hmk
    exact (insertOrder_avoids hindex (hl.fresh (hnew hdone) hmk)).bind fun _ _ => avoids_pure _
  · rintro row rest markets markets' ⟨done, hdone, hl⟩ hstep
    exact ⟨done ++ [row], by simpa using hdone, hl.step (hnew hdone) hstep⟩

/-- **In every state the methods of the markets reach, the four indexes agree and no
lookup in them fails**, and neither does one when a slice of that state is loaded. -/
theorem MarketRun.agree (h : MarketRun E settings c) :
    (∀ name m, c.markets.find? name = some m → m.Agree c.sequencer.orderId ∧ m.FindsAll E c) ∧
      ∀ d b, MarketRun E settings d → Startable settings d b →
        Avoids .lookup (b.loadSlice E c.dump) := by
  obtain ⟨b, hb, hc⟩ := h.ok
  refine ⟨fun name m hm => ?_, fun d b' hd hstart => ?_⟩
  · have hdesk := (hc.desk name m hm).2
    exact ⟨(hdesk true).indexesAgree, DeskOK.findsAll hdesk⟩
  · obtain ⟨b₁, hb₁, hd⟩ := hd.ok
    obtain rfl : b = b₁ := Except.ok.inj (hb.symm.trans hb₁)
    exact hc.loadSlice_avoids (hstart.blank hb hd).2

/-- A deposit and an order that comes to rest. -/
def sampleBook : Except Panic Controller := do
  let c ← createController sampleSettings
  let (_, c) ← c.updateBalance releaseEnv 0 true true ⟨"ETH", "deposit", 1, "10", ""⟩ bob
  let m ← unwrap .marketName (c.markets.find? "ETH_USDT")
  let (_, m, x) ← m.putOrder releaseEnv 1 (c.ctx true) ⟨.ask, .limit, 2, 100, 0, 0, 0, "ETH_USDT",
      false⟩ bob
  return c.withMarket "ETH_USDT" m x

theorem MarketRun.agree_sampleBook : ∃ c m, MarketRun releaseEnv sampleSettings c ∧
    c.markets.find? "ETH_USDT" = some m ∧ (m.resting 1).isSome ∧ m.Agree c.sequencer.orderId := by
  have h : (sampleBook >>=
      fun c => pure ((c.markets.find? "ETH_USDT").bind fun m => m.resting 1).isSome) =
      (.ok true : Except Panic Bool) := by decide +kernel
  simp only [sampleBook, bind_ok, pure_ok, unwrap_ok] at h
  obtain ⟨c', ⟨c₀, h₀, ⟨r, c₁⟩, h₁, m, hm, ⟨res, m', x'⟩, h₂, rfl⟩, hrest⟩ := h
  have hrun := ((MarketRun.init h₀).updateBalance h₁).putOrder hm h₂
  have hfind : (c₁.withMarket "ETH_USDT" m' x').markets.find? "ETH_USDT" = some m' :=
    find?_insert_self _ _ _
  rw [hfind] at hrest
  exact ⟨_, m', hrun, hfind, hrest, (hrun.agree.1 _ _ hfind).1⟩

end Dingir
