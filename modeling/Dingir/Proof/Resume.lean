import Dingir.Proof.Database
import Dingir.Proof.Handles
import Dingir.Proof.Recovery

/-!
# Recovery from a slice and the log after it

A slice is taken while the engine runs, and the engine goes on. After a crash the slice is loaded
and the rows of the log above it are replayed. What comes back is the engine as it was when the last
of these rows was written, but for times: **`Controller.resumes`**.

A loaded slice is not the controller it was dumped from. Its orders are under new handles, its
filter is empty, and its markets have no last trade. So two relations meet in between: the
controller and an image of it step in time as twins do (`Controller.Twin`), and the image and the
loaded controller differ in handles only (`Controller.Agrees`).
-/

namespace Dingir

open Keyed Outcome Market Paging

variable {E : Env} {settings : Settings} {K K' : BalanceUpdateKey → Prop} {now : Timestamp}
  {u : Uuid} {db : Database} {sid : ℤ} {b c c' c₁ d d' r : Controller} {m m' m₀ m₁ : Market}
  {o o' : Order}

/-! ## A loaded slice is a controller like any other -/

theorem Order.Backed.twin (h : o.Backed m) (ho : o.Twin o') : o'.Backed m := by
  obtain ⟨a, b, rfl⟩ := ho
  exact ⟨⟨h.fits.market, h.fits.base, h.fits.quote, h.fits.remain, h.fits.price⟩, h.limit, h.frozen⟩

/-- An order that rests in the second of two books rests in the first, but for its times. -/
theorem Market.SameBook.back (h : m.SameBook m₁) {id : ℕ} (ho : m₁.resting id = some o') :
    ∃ o, m.resting id = some o ∧ o.Twin o' := by
  have hrel := h.orders id
  rw [ho] at hrel
  generalize m.resting id = v at hrel ⊢
  cases hrel with
  | some htwin => exact ⟨_, rfl, htwin⟩

/-- A market loaded from a slice, and the one that was dumped. -/
structure Market.Reloaded (m₀ m m₁ : Market) : Prop where
  terms : m₀.SameTerms m
  loaded : m₀.SameTerms m₁
  index : m₁.IndexOK
  book : m.SameBook m₁

/-- Every market of a loaded slice. -/
theorem LoadedDump.market {balances : List BalanceSlice} {orders : List OrderSlice}
    (h : LoadedDump b c₁ balances orders) (hd : ControllerOK b d) (hsame : SameHoldings d c₁)
    {name : String} (hm₁ : c₁.markets.find? name = some m₁) :
    ∃ m₀ m, b.markets.find? name = some m₀ ∧ d.markets.find? name = some m ∧ Reloaded m₀ m m₁ := by
  obtain ⟨m₀, h₀, hterms₁, hindex, -⟩ := (h.orders name).1 m₁ hm₁
  have hrel := hsame.markets name
  rw [hm₁] at hrel
  obtain ⟨m, hm, hbook⟩ : ∃ m, d.markets.find? name = some m ∧ m.SameBook m₁ := by
    generalize d.markets.find? name = v at hrel ⊢
    cases hrel with
    | some hbook => exact ⟨_, rfl, hbook⟩
  obtain ⟨m₀', h₀', hterms⟩ := hd.terms name m hm
  obtain rfl : m₀ = m₀' := Option.some.inj (h₀.symm.trans h₀')
  exact ⟨m₀, m, h₀, hm, hterms, hterms₁, hindex, hbook⟩

/-- Balances are loaded under the assets there are. -/
theorem loadSlice_assets {slice : Slice} (h : b.loadSlice E slice = .ok c₁) :
    c₁.balanceManager.assetManager = b.balanceManager.assetManager := by
  simp only [Controller.loadSlice, bind_ok, pure_ok] at h
  obtain ⟨bm, hbm, markets, -, rfl⟩ := h
  refine foldlM_rule (P := fun _ bm => bm.assetManager = b.balanceManager.assetManager)
    (fun row _ s s' hs hset => ?_) _ _ _ rfl hbm
  simp only [loadBalance, BalanceManager.set, BalanceManager.setByKey, bind_ok, pure_ok] at hset
  obtain ⟨-, -, p, -, rfl⟩ := hset
  exact hs

/-- **A loaded slice meets the invariant**, its counters set. -/
theorem LoadedDump.ok {slice : Slice} (h : LoadedDump b c₁ slice.balances slice.orders)
    (hload : b.loadSlice E slice = .ok c₁) (hb : ControllerOK b b) (hd : ControllerOK b d)
    (hsame : SameHoldings d c₁) : ControllerOK b (c₁.withCounters d.dump.history) := by
  have hassets := loadSlice_assets hload
  have hgrid : Gridded c₁.balanceManager := by
    intro k p hp
    rw [hassets, ← hd.assets] at hp
    have hget : c₁.balanceManager.getByKey k = d.balanceManager.getByKey k := by
      simp only [BalanceManager.getByKey, hsame.balances]
    rw [hget]
    exact hd.gridded k p hp
  have hkept := h.kept
  refine ⟨?_, ?_, hassets, hgrid, ?_, fun name m₁ hm₁ => ?_, fun name m₁ hm₁ => ?_,
    fun name m₀ h₀ => (h.orders name).2 (by rw [h₀]; rfl),
    fun n n' m₁ m₁' id o o' hm₁ hm₁' ho ho' => ?_, fun name m₁ id o hm₁ ho => ?_⟩
  · obtain ⟨bm, markets, rfl⟩ := hkept
    rfl
  · obtain ⟨bm, markets, rfl⟩ := hkept
    rfl
  · obtain ⟨bm, markets, rfl⟩ := hkept
    exact hb.capacity
  · obtain ⟨m₀, m, h₀, hm, hre⟩ := h.market hd hsame hm₁
    obtain ⟨hname, hdesk⟩ := hd.desk name m hm
    have hterms : m.SameTerms m₁ := hre.terms.symm.trans hre.loaded
    have hdm := hdesk true
    have hcapacity : 4 ≤ (c₁.withCounters d.dump.history).updateController.cache.capacity := by
      obtain ⟨bm, markets, rfl⟩ := hkept
      show 4 ≤ b.updateController.cache.capacity
      rw [hb.capacity]
      decide
    have hprec : m₁.PrecOK c₁.balanceManager.assetManager := by
      rw [hassets, ← hd.assets]
      exact hdm.prec.of_terms hterms
    refine ⟨hterms.name.trans hname,
      fun real => ⟨hre.index, hprec, hgrid, hcapacity, fun id o ho => ?_, fun id o ho => ?_,
      fun id id' p q hp hq => ?_, fun _ id o ho => ?_, fun k hk => by cases hk⟩⟩
    · obtain ⟨p, hp, htwin⟩ := hre.book.back ho
      exact ((hdm.backed id p hp).twin htwin).of_terms hterms
    · obtain ⟨p, hp, -⟩ := hre.book.back ho
      exact hdm.ids id p hp
    · obtain ⟨p', hp', a, b, rfl⟩ := hre.book.back hp
      obtain ⟨q', hq', a', b', rfl⟩ := hre.book.back hq
      exact hdm.uncrossed id id' p' q' hp' hq'
    · obtain ⟨p, hp, a, b, rfl⟩ := hre.book.back ho
      exact hdm.quiet rfl id p hp
  · obtain ⟨m₀, m, h₀, -, hre⟩ := h.market hd hsame hm₁
    exact ⟨m₀, h₀, hre.loaded⟩
  · obtain ⟨m₀, m, -, hm, hre⟩ := h.market hd hsame hm₁
    obtain ⟨m₀', m', -, hm', hre'⟩ := h.market hd hsame hm₁'
    obtain ⟨p, hp, -⟩ := hre.book.back ho
    obtain ⟨p', hp', -⟩ := hre'.book.back ho'
    exact hd.disjoint n n' m m' id p p' hm hm' hp hp'
  · obtain ⟨m₀, m, -, hm, hre⟩ := h.market hd hsame hm₁
    obtain ⟨p, hp, -⟩ := hre.book.back ho
    exact hd.pos name m id p hm hp

/-! ## In between -/

/-- Nothing is asked of the last trades and the filters but what the second filter may hold. -/
def Pairing.loose (K : BalanceUpdateKey → Prop) : Pairing := ⟨K, fun _ _ _ => True, fun _ _ => True⟩

theorem Pairing.loose_ok (K : BalanceUpdateKey → Prop) {now τ : Timestamp} :
    (Pairing.loose K).OK now τ :=
  ⟨fun _ _ _ _ _ => trivial, fun _ _ _ _ => trivial⟩

/-- The orders of `m` as they are in `m₁`, under the handles of `m`. -/
def Market.recast (m m₁ : Market) : Market :=
  { m with
    rcs :=
      { read := fun rc =>
          let o := m.rcs.read rc
          if m.orders[o.id]? = some rc then (m₁.resting o.id).getD o else o
        next := m.rcs.next }
    price := m₁.price
    tradeCount := m₁.tradeCount }

/-- A cell is that of an order at rest, or it is as it was. -/
theorem Market.recast_read (hm : m.IndexOK) {id : ℕ} {rc : OrderRc} (hrc : m.orders[id]? = some rc)
    (ho : m₁.resting id = some o) : (m.recast m₁).rcs.read rc = o := by
  have hid : (m.rcs.read rc).id = id := hm.ownId id rc hrc
  simp only [Market.recast, hid, hrc, if_pos, ho, Option.getD_some]

theorem Market.SameBook.recast_twin (h : m.SameBook m₁) : m.Twin (.loose K) (m.recast m₁) := by
  refine ⟨_, _, _, rfl, rfl, fun rc => ?_, trivial⟩
  simp only
  split
  · rename_i hrc
    have hrel := h.orders (m.rcs.read rc).id
    rw [resting_some.2 ⟨rc, hrc, rfl⟩] at hrel
    generalize m₁.resting (m.rcs.read rc).id = v at hrel ⊢
    cases hrel with
    | some htwin => exact htwin
  · exact .refl _

/-- The handles of an order in the two markets. -/
def Market.Both (m₁ m : Market) (rc₁ rc : OrderRc) : Prop :=
  ∃ id : ℕ, m₁.orders[id]? = some rc₁ ∧ m.orders[id]? = some rc

/-- An order in the one market is in the other. -/
theorem Market.SameBook.both (h : m.SameBook m₁) (id : ℕ) :
    Option.Rel (m₁.Both m) m₁.orders[id]? m.orders[id]? := by
  have hrel := h.orders id
  unfold Market.resting at hrel
  cases hm : m.orders[id]? with
  | none =>
    cases hm₁ : m₁.orders[id]? with
    | none => exact .none
    | some rc₁ =>
      rw [hm, hm₁] at hrel
      cases hrel
  | some rc =>
    cases hm₁ : m₁.orders[id]? with
    | none =>
      rw [hm, hm₁] at hrel
      cases hrel
    | some rc₁ => exact .some ⟨id, hm₁, hm⟩

/-- An index that files the orders under a part without times holds the same handles. -/
theorem Market.Files.both {α : Type} {f : Order → α} {g g₁ : α → ℕ → Option OrderRc}
    (hg : m.Files f g) (hg₁ : m₁.Files f g₁) (hf : ∀ {o o' : Order}, o.Twin o' → f o' = f o)
    (h : m.SameBook m₁) (a : α) (id : ℕ) : Option.Rel (m₁.Both m) (g₁ a id) (g a id) := by
  -- filed on one side means filed on the other
  have hsame : ∀ rc rc₁, m.orders[id]? = some rc → m₁.orders[id]? = some rc₁ →
      f (m₁.rcs.read rc₁) = f (m.rcs.read rc) := by
    intro rc rc₁ hrc hrc₁
    obtain ⟨o, ho, htwin⟩ := h.back (resting_some.2 ⟨rc₁, hrc₁, rfl⟩)
    obtain ⟨rc', hrc', rfl⟩ := resting_some.1 ho
    obtain rfl := Option.some.inj (hrc.symm.trans hrc')
    exact hf htwin
  have hid := h.both id
  cases hrel : g a id with
  | none =>
    cases hrel₁ : g₁ a id with
    | none => exact .none
    | some rc₁ =>
      obtain ⟨hrc₁, ha⟩ := (hg₁ a id rc₁).1 hrel₁
      rw [hrc₁] at hid
      generalize hv : m.orders[id]? = v at hid
      cases hid with
      | some _ =>
        have hfiled := (hg a id _).2 ⟨hv, (hsame _ _ hv hrc₁).symm.trans ha⟩
        rw [hrel] at hfiled
        cases hfiled
  | some rc =>
    obtain ⟨hrc, ha⟩ := (hg a id rc).1 hrel
    rw [hrc] at hid
    generalize hv : m₁.orders[id]? = v at hid
    cases hid with
    | some _ =>
      rw [(hg₁ a id _).2 ⟨hv, (hsame _ _ hrc hv).trans ha⟩]
      exact .some ⟨id, hv, hrc⟩

/-- **The loaded market and the image differ in handles only.** -/
theorem Market.SameBook.paired (h : m.SameBook m₁) (hm : m.IndexOK) (hm₁ : m₁.IndexOK)
    (hterms : m.SameTerms m₁) : Paired (m₁.Both m) m₁ (m.recast m₁) := by
  have hside : ∀ {o o' : Order}, o.Twin o' → sideKey o' = sideKey o := by
    rintro o o' ⟨a, b, rfl⟩
    rfl
  have hrecast : m.SameTerms (m.recast m₁) :=
    ⟨rfl, rfl, rfl, rfl, rfl, rfl, rfl, rfl, rfl, rfl, rfl⟩
  refine ⟨hterms.symm.trans hrecast, rfl, rfl, ⟨?_, ?_⟩, ?_, ?_, h.both,
    hm.users.both hm₁.users Order.Twin.user h, fun k id => ?_⟩
  · rintro rc₁ rc₁' rc ⟨id, h₁, h₂⟩ ⟨id', h₁', h₂'⟩
    obtain rfl := hm.id_inj h₂ h₂'
    exact Option.some.inj (h₁.symm.trans h₁')
  · rintro rc₁ rc rc' ⟨id, h₁, h₂⟩ ⟨id', h₁', h₂'⟩
    obtain rfl := hm₁.id_inj h₁ h₁'
    exact Option.some.inj (h₂.symm.trans h₂')
  · rintro rc₁ rc ⟨id, h₁, h₂⟩
    exact ⟨hm₁.alloc id rc₁ h₁, hm.alloc id rc h₂⟩
  · rintro rc₁ rc ⟨id, h₁, h₂⟩
    exact recast_read hm h₂ (resting_some.2 ⟨rc₁, h₁, rfl⟩)
  · exact hm.sides.both hm₁.sides hside h k id

/-- The image of a controller in the one its slice was loaded as. -/
def Controller.recast (d c₁ : Controller) : Controller :=
  { c₁ with
    balanceManager := d.balanceManager
    markets := mapValues (fun m => ((c₁.markets.find? m.name).map m.recast).getD m) d.markets }

/-- A market of the image. -/
theorem Controller.find?_recast (hd : ControllerOK b d) (c₁ : Controller) (name : String) :
    (d.recast c₁).markets.find? name =
    (d.markets.find? name).map fun m => ((c₁.markets.find? name).map m.recast).getD m := by
  show HashMap.find? (mapValues _ _) name = _
  rw [find?_mapValues]
  cases hm : d.markets.find? name with
  | none => rfl
  | some m => simp only [Option.map_some, (hd.desk name m hm).1]

/-- What holds the same balances, orders and counters. -/
theorem SameHoldings.sameEngine (h : SameHoldings d c₁) :
    SameEngine d (c₁.withCounters d.dump.history) := by
  refine ⟨fun k => ?_, fun name => ?_, rfl, rfl⟩
  · simp only [BalanceManager.getByKey, Controller.withCounters, h.balances]
  · have hrel := h.markets name
    generalize d.markets.find? name = v at hrel ⊢
    show Option.Rel _ v (c₁.markets.find? name)
    generalize c₁.markets.find? name = w at hrel ⊢
    cases hrel with
    | none => exact .none
    | some hbook => exact .some hbook.orders

/-- **The image of an engine in another that is the same**: it is a twin of the first, and differs
from the second in handles only. -/
theorem SameEngine.image (h : SameEngine d r) (hd : ControllerOK b d) (hr : ControllerOK b r)
    (hf : Filtered K (r.ctx true)) : d.Twin (.loose K) (d.recast r) ∧ r.Agrees (d.recast r) := by
  -- a market is on both sides or on neither
  have hmarkets : ∀ name, (d.markets.find? name = none ∧ r.markets.find? name = none) ∨ ∃ m m₁,
      d.markets.find? name = some m ∧ r.markets.find? name = some m₁ ∧ m.SameTerms m₁ ∧ m.IndexOK ∧
        m₁.IndexOK ∧ m.SameBook m₁ := by
    intro name
    have hrel := h.orders name
    generalize hm : d.markets.find? name = v at hrel
    generalize hm₁ : r.markets.find? name = w at hrel
    cases hrel with
    | none => exact .inl ⟨rfl, rfl⟩
    | @some m m₁ hrests =>
      obtain ⟨m₀, h₀, hterms⟩ := hd.terms name m hm
      obtain ⟨m₀', h₀', hterms₁⟩ := hr.terms name m₁ hm₁
      obtain rfl : m₀ = m₀' := Option.some.inj (h₀.symm.trans h₀')
      have hindex := ((hd.desk name m hm).2 true).index
      have hindex₁ := ((hr.desk name m₁ hm₁).2 true).index
      exact .inr ⟨m, m₁, rfl, rfl, hterms.symm.trans hterms₁, hindex, hindex₁,
        hindex.sameBook hindex₁ hrests⟩
  have hfind := Controller.find?_recast hd r
  refine ⟨⟨?_, fun pair => ?_, .refl _, h.orderId, h.tradeId, ?_, ⟨hf.trade, hf.other⟩, trivial,
    fun name => ?_⟩,
    ⟨rfl, fun _ => rfl, rfl, ⟨hd.assets.trans hr.assets.symm, fun k => (h.balances k).symm⟩, rfl,
      fun name => ?_, rfl,
      rfl⟩⟩
  · show r.settings.userOrderNumLimit = _
    rw [hd.settings, hr.settings]
  · show r.assetMarketNames.find? pair = _
    rw [hd.names, hr.names]
  · rw [hd.capacity]
    decide
  · rw [hfind]
    rcases hmarkets name with ⟨hm, -⟩ | ⟨m, m₁, hm, hm₁, -, -, -, hbook⟩
    · rw [hm]
      exact .none
    · rw [hm, hm₁]
      exact .some hbook.recast_twin
  · rw [hfind]
    rcases hmarkets name with ⟨hm, hm₁⟩ | ⟨m, m₁, hm, hm₁, hterms, hindex, hindex₁, hbook⟩
    · rw [hm, hm₁]
      exact .none
    · rw [hm, hm₁]
      exact .some ⟨_, hbook.paired hindex hindex₁ hterms⟩

/-! ## The log after the slice -/

/-- A request that can be replayed from a slice taken when the log had `n` entries: a failure of it
leaves no trace, and a balance update that is in the log since is still known to the filter. -/
def Controller.ReplayableSince (E : Env) (n : ℕ) (c : Controller) (q : Request) : Prop :=
  ¬ c.Spills E q ∧ ∀ req, q.operation = .balanceUpdate req →
    ∀ k, UpdateKey E c.balanceManager.assetManager req q.user k →
    KnownKey E c.balanceManager.assetManager (c.logHandler.drop n) k →
    c.updateController.cache.containsKey q.now k = true

/-- The same engine, whatever the handles. -/
theorem SameEngine.agrees (h : SameEngine d c) (hr : r.Agrees c) : SameEngine d r := by
  refine ⟨fun k => (hr.balances.balances k).symm.trans (h.balances k), fun name => ?_, ?_, ?_⟩
  · have hrel := h.orders name
    cases hc : c.markets.find? name with
    | none =>
      rw [hr.symm.none hc]
      rwa [hc] at hrel
    | some m' =>
      obtain ⟨m₁, hm₁, P, hP⟩ := hr.symm.some hc
      rw [hc] at hrel
      rw [hm₁]
      generalize d.markets.find? name = v at hrel ⊢
      cases hrel with
      | some hrest =>
        refine .some fun id => ?_
        rw [hP.resting]
        exact hrest id
  · rw [← hr.sequencer]; exact h.orderId
  · rw [← hr.sequencer]; exact h.tradeId

/-- **The rows of the log since the slice, replayed from `r₀`, lead to `d`**, which had its slice
taken as `d₀`. -/
structure Resumes (E : Env) (now : Timestamp) (b r₀ d₀ : Controller) (rows : List OperationLog)
    (d : Controller) : Prop where
  ok : ControllerOK b d
  log : d.logHandler = d₀.logHandler ++ rows
  ids : rows.map OperationLog.id = List.range' (d₀.sequencer.operationLogId + 1) rows.length
  count : d.sequencer.operationLogId = d₀.sequencer.operationLogId + rows.length
  replays : ∃ r image, rows.foldlM (Controller.replay E now) r₀ = .ok r ∧ ControllerOK b r ∧
    r.Agrees image ∧
    d.Twin (.loose (KnownKey E b.balanceManager.assetManager rows)) image

namespace Resumes

variable {r₀ d₀ : Controller} {rows : List OperationLog} {q : Request}
  {reply : Except Status Response}

/-- An applied balance update is new to the filter of the replay. -/
theorem fresh {req : BalanceUpdateRequest} {response : Response} (h : Resumes E now b r₀ d₀ rows d)
    (htwin : d.Twin (.loose (KnownKey E b.balanceManager.assetManager rows)) c)
    (hsafe : d.ReplayableSince E d₀.logHandler.length q) (hq : q.operation = .balanceUpdate req)
    (hcall : d.updateBalance E q.now q.available q.real req q.user = .ok (.ok response, d'))
    {k : BalanceUpdateKey} (hk : UpdateKey E d.balanceManager.assetManager req q.user k) :
    ∀ a ∈ c.updateController.cache.entries, a.1 ≠ k := by
  rcases Controller.updateBalance_cases hcall with ⟨⟨st, hst⟩, -⟩ |
    ⟨-, prec, price, change, detail, x', hprec, hparse, -, happ, -⟩
  · simp at hst
  rintro a ha rfl
  have hknown : KnownKey E b.balanceManager.assetManager rows a.1 :=
    htwin.filtered.other a ha hk.not_trade
  have hheld := hsafe.2 req hq a.1 hk (by rw [h.log, List.drop_left, h.ok.assets]; exact hknown)
  have hfresh := happ.fresh
  rw [← hk.unique ⟨prec, price, change, detail, hprec, hparse, rfl⟩] at hfresh
  exact Bool.noConfusion (hheld.symm.trans hfresh)

/-- **A call adds its row**, if it has one, and the replay follows. -/
theorem call (h : Resumes E now b r₀ d₀ rows d) (hreal : q.real = true)
    (hsafe : d.ReplayableSince E d₀.logHandler.length q) (hcall : d.call E q = .ok (reply, d')) :
    Resumes E now b r₀ d₀ rows d' ∨ ∃ row, Resumes E now b r₀ d₀ (rows ++ [row]) d' := by
  obtain ⟨r, image, hfold, hr, hagrees, htwin⟩ := h.replays
  have hok' := call_ok h.ok hcall
  cases reply with
  | error st =>
    have hu := (h.ok.untouched hcall).2 hsafe.1 st rfl
    refine .inl ⟨hok', hu.log.trans h.log, h.ids, ?_, r, image, hfold, hr, hagrees,
      htwin.untouched hu⟩
    rw [hu.sequencer]
    exact h.count
  | ok response =>
    obtain ⟨hid, hlog⟩ := call_logged h.ok hreal hcall
    have havail := call_available hcall
    set row : OperationLog :=
      { id := d.sequencer.operationLogId + 1, userId := q.user, time := q.now,
        operation := q.operation } with hrow
    have hmore : d.Twin (.loose (KnownKey E b.balanceManager.assetManager (rows ++ [row]))) image :=
      htwin.mono fun k ⟨l, hl, hkey⟩ => ⟨l, List.mem_append_left _ hl, hkey⟩
    obtain ⟨response', image', hcall', htwin'⟩ : ∃ response' image',
        image.call E { now, available := true, real := false, user := row.userId,
                       operation := row.operation } =
          .ok (.ok response', image') ∧
          d'.Twin (.loose (KnownKey E b.balanceManager.assetManager (rows ++ [row]))) image' := by
      by_cases hup : q.operation.Updates
      · obtain ⟨qnow, qavail, qreal, quser, op⟩ := q
        cases op with
        | balanceUpdate req =>
          obtain ⟨image', hi, ht⟩ :=
            Controller.updateBalance_twin (τ := now) (Pairing.loose_ok _) hmore hcall fun k hk =>
            ⟨TtlCache.containsKey_eq_false (h.fresh htwin hsafe rfl hcall hk), row, by simp, req,
              rfl, h.ok.assets ▸ hk⟩
          exact ⟨response, image', hi, ht⟩
        | _ => exact hup.elim
      · obtain ⟨reply', image', hi, hkind, -, ht⟩ :=
          Controller.call_twin (τ := now) (ρ := false) (Pairing.loose_ok _) hmore hup hcall
        rw [havail] at hi
        cases reply' with
        | error st => exact absurd hkind (by simp [SameKind, Except.isOk, Except.toBool])
        | ok response' => exact ⟨response', image', hi, ht⟩
    -- what the image does, the controller that was loaded does under its own handles
    obtain ⟨⟨reply', r'⟩, hrcall, hreply, hagrees'⟩ := (Controller.call_agrees (E := E) hr hagrees
      { now, available := true, real := false, user := row.userId,
        operation := row.operation }).symm.matched hcall'
    obtain rfl : .ok response' = reply' := hreply
    refine .inr ⟨row, hok', ?_, ?_, ?_, r', image', ?_, call_ok hr hrcall, hagrees', htwin'⟩
    · rw [hlog, h.log, List.append_assoc]
    · rw [List.map_append, h.ids, List.length_append, List.length_singleton, List.range'_concat]
      simp only [hrow, h.count, List.map_cons, List.map_nil]
      congr 2
      omega
    · rw [hid, h.count, List.length_append, List.length_singleton, Nat.add_assoc]
    · rw [List.foldlM_append, hfold]
      exact bind_ok.2 ⟨r,
        rfl, by rw [List.foldlM_cons]; exact bind_ok.2 ⟨r', bind_ok.2 ⟨_, hrcall, rfl⟩, rfl⟩⟩

/-- **A run of calls adds its rows**, and to each row on the way there is a part of the run that
ends there. -/
theorem calls {qs : List Request} {replies : List (Except Status Response)}
    (h : Resumes E now b r₀ d₀ rows d) (hreal : ∀ q ∈ qs, q.real = true)
    (hsafe : d.Along E (Controller.ReplayableSince E d₀.logHandler.length) qs)
    (hcalls : d.calls E qs = .ok (replies, d')) :
    ∃ later, Resumes E now b r₀ d₀ (rows ++ later) d' ∧
      ∀ n, ∃ qs₁ replies₁ d₁, qs₁ <+: qs ∧ d.calls E qs₁ = .ok (replies₁, d₁) ∧
        Resumes E now b r₀ d₀ (rows ++ later.take n) d₁ := by
  induction qs generalizing d rows replies with
  | nil =>
    obtain ⟨-, rfl⟩ := by simpa [Controller.calls] using hcalls
    refine ⟨[], by rwa [List.append_nil], fun n => ⟨[], [], d, List.prefix_rfl, rfl, ?_⟩⟩
    rwa [List.take_nil, List.append_nil]
  | cons q qs ih =>
    simp only [Controller.calls, bind_ok, pure_ok, Prod.mk.injEq] at hcalls
    obtain ⟨⟨reply, d₂⟩, hcall, ⟨rest, d₃⟩, hrest, -, rfl⟩ := hcalls
    have hreal' : ∀ p ∈ qs, p.real = true := fun p hp => hreal p (List.mem_cons_of_mem _ hp)
    have hextend :
        ∀ {qs₁ : List Request} {replies₁ : List (Except Status Response)} {d₁ : Controller},
        d₂.calls E qs₁ = .ok (replies₁, d₁) → d.calls E (q :: qs₁) = .ok (reply :: replies₁, d₁) :=
          fun hrun =>
      bind_ok.2 ⟨(reply, d₂), hcall, bind_ok.2 ⟨_, hrun, rfl⟩⟩
    rcases h.call (hreal q List.mem_cons_self) hsafe.1 hcall with h₂ | ⟨row, h₂⟩
    · obtain ⟨later, hend, hpart⟩ := ih h₂ hreal' (hsafe.2 _ _ hcall) hrest
      refine ⟨later, hend, fun n => ?_⟩
      obtain ⟨qs₁, replies₁, d₁, hprefix, hrun, h₁⟩ := hpart n
      exact ⟨q :: qs₁, _, d₁, List.cons_prefix_cons.2 ⟨rfl, hprefix⟩, hextend hrun, h₁⟩
    · obtain ⟨later, hend, hpart⟩ := ih h₂ hreal' (hsafe.2 _ _ hcall) hrest
      refine ⟨row :: later, by simpa using hend, fun n => ?_⟩
      cases n with
      | zero => exact ⟨[], [], d, List.nil_prefix, rfl, by simpa using h⟩
      | succ n =>
        obtain ⟨qs₁, replies₁, d₁, hprefix, hrun, h₁⟩ := hpart n
        exact ⟨q :: qs₁, _, d₁, List.cons_prefix_cons.2 ⟨rfl, hprefix⟩,
          hextend hrun, by simpa using h₁⟩

/-- The log is read back from the row after the slice. -/
theorem loads {log : List OperationLog} (h : Resumes E now b r₀ d₀ rows d)
    (hlog : (log.map OperationLog.id).Nodup)
    (hrows : ∀ l, d₀.sequencer.operationLogId < l.id → (l ∈ log ↔ l ∈ rows)) :
    ∃ r, r₀.loadOperationLog E now log d₀.sequencer.operationLogId = .ok r ∧ SameEngine d r ∧
      r.sequencer.operationLogId = d.sequencer.operationLogId := by
  obtain ⟨r, image, hfold, -, hagrees, htwin⟩ := h.replays
  have hsorted : rows.Pairwise fun a b => a.id < b.id := by
    have hrange := List.pairwise_lt_range' (s := d₀.sequencer.operationLogId + 1) (n := rows.length)
    rwa [← h.ids, List.pairwise_map] at hrange
  have hbound : ∀ l ∈ rows, d₀.sequencer.operationLogId < l.id := fun l hl => by
    have hmem : l.id ∈ List.range' (d₀.sequencer.operationLogId + 1) rows.length :=
      h.ids ▸ List.mem_map.2 ⟨l, hl, rfl⟩
    have := List.mem_range'_1.1 hmem
    omega
  -- the rows above the slice, in order of their ids
  have hpages : (pages OperationLog.id QUERY_LIMIT true log d₀.sequencer.operationLogId).flatten =
      rows := by
    rw [flatten_pages _ (by decide) _ hlog]
    refine List.Perm.eq_of_pairwise
      (fun (a b : OperationLog) _ _ (hab : a.id < b.id) hba => absurd hab hba.not_gt)
      (above_pairwise _ hlog _) hsorted ?_
    have hnodup : (above OperationLog.id log d₀.sequencer.operationLogId).Nodup :=
      (above_pairwise OperationLog.id hlog _).imp fun hab he => by rw [he] at hab; exact hab.false
    refine (List.perm_ext_iff_of_nodup hnodup
      (hsorted.imp fun hab he => by rw [he] at hab; exact hab.false)).2 fun l => ?_
    rw [mem_above]
    exact ⟨fun ⟨hl, hlt⟩ => (hrows l hlt).1 hl,
      fun hl => ⟨(hrows l (hbound l hl)).2 hl, hbound l hl⟩⟩
  have hlast : (rows.getLast?.map OperationLog.id).getD d₀.sequencer.operationLogId =
      d.sequencer.operationLogId := by
    rw [h.count, ← List.getLast?_map, h.ids]
    cases rows with
    | nil => rfl
    | cons row rows => simp [List.range'_concat, Nat.add_comm, Nat.add_left_comm]
  have hsame := htwin.sameEngine.agrees hagrees
  refine ⟨{ r with sequencer := r.sequencer.setOperationLogId d.sequencer.operationLogId }, ?_,
    ⟨hsame.balances, hsame.orders, hsame.orderId, hsame.tradeId⟩, rfl⟩
  simp only [Controller.loadOperationLog, hpages, hlast]
  exact bind_ok.2 ⟨r, hfold, rfl⟩

end Resumes

/-- A slice that agrees with what is stored under its id is loaded, and the replay can begin. -/
theorem Resumes.start {db' : Database} (now : Timestamp) (hdb : Stored E settings db)
    (hd : Reachable E settings d) (hb : createController settings = .ok b)
    (hlast : db' = db.dumpToDb sid d ∨ db' = db.makeSlice sid d) (hagrees : db.Agrees sid d) :
    ∃ r₀, (∀ log, b.initFromDb E now db'.lastSlice log =
        r₀.loadOperationLog E now log d.sequencer.operationLogId) ∧
      Resumes E now b r₀ d [] d := by
  obtain ⟨b', hb', hok⟩ := hd.ok
  obtain rfl : b = b' := Except.ok.inj (hb.symm.trans hb')
  obtain ⟨c₁, hload, hloaded⟩ :=
    loadSlice_total (createController_fresh hb) ((hdb.ok hb sid).dumpToDb hok hd.storable sid)
    d.dump.history
  have hsame := hloaded.same hok hagrees
  have hr := LoadedDump.ok hloaded hload (createController_ok hb).1 hok hsame
  have hfilter : (c₁.withCounters d.dump.history).updateController.cache.entries = [] := by
    obtain ⟨bm, markets, rfl⟩ := hloaded.kept
    exact (createController_fresh hb).filter
  obtain ⟨htwin, himage⟩ :=
    hsame.sameEngine.image (K := KnownKey E b.balanceManager.assetManager []) hok hr
    ⟨fun a ha => by simp [Controller.ctx, hfilter] at ha,
      fun a ha => by simp [Controller.ctx, hfilter] at ha⟩
  have hslice : db'.lastSlice = (db.dumpToDb sid d).lastSlice := by
    rcases hlast with rfl | rfl
    · rfl
    · exact Database.lastSlice_makeSlice db sid d
  refine ⟨c₁.withCounters d.dump.history, fun log => ?_, hok, (List.append_nil _).symm, rfl, rfl,
    _, _, rfl, hr, himage, htwin⟩
  rw [hslice, Database.lastSlice_dumpToDb, Controller.initFromDb, hload]
  rfl

/-- **The stored part of a run is replayed**: of the rows a run adds to the log, the first `n`. -/
theorem Resumes.part {qs : List Request} {replies : List (Except Status Response)}
    {log : List OperationLog} {r₀ d₀ : Controller} {n : ℕ} (h : Resumes E now b r₀ d₀ [] d₀)
    (hreal : ∀ q ∈ qs, q.real = true)
    (hsafe : d₀.Along E (Controller.ReplayableSince E d₀.logHandler.length) qs)
    (hcalls : d₀.calls E qs = .ok (replies, d)) (hlog : (log.map OperationLog.id).Nodup)
    (hrows : ∀ l, d₀.sequencer.operationLogId < l.id →
      (l ∈ log ↔ l ∈ (d.logHandler.drop d₀.logHandler.length).take n)) :
    ∃ qs₁ replies₁ d₁ r, qs₁ <+: qs ∧ (d.logHandler.length ≤ d₀.logHandler.length + n → qs₁ = qs) ∧
      d₀.calls E qs₁ = .ok (replies₁, d₁) ∧
      d₁.logHandler = d.logHandler.take (d₀.logHandler.length + n) ∧
      r₀.loadOperationLog E now log d₀.sequencer.operationLogId = .ok r ∧ SameEngine d₁ r ∧
      r.sequencer.operationLogId = d₁.sequencer.operationLogId := by
  obtain ⟨later, hend, hpart⟩ := h.calls hreal hsafe hcalls
  rw [List.nil_append] at hend
  -- with all the rows the part of the run is the run
  obtain ⟨qs₁, replies₁, d₁, hprefix, hall, hrun, h₁⟩ : ∃ qs₁ replies₁ d₁, qs₁ <+: qs ∧
      (later.length ≤ n → qs₁ = qs) ∧
      d₀.calls E qs₁ = .ok (replies₁, d₁) ∧ Resumes E now b r₀ d₀ (later.take n) d₁ := by
    by_cases hn : later.length ≤ n
    · exact ⟨qs, replies, d, List.prefix_rfl, fun _ => rfl,
        hcalls, by rwa [List.take_of_length_le hn]⟩
    · obtain ⟨qs₁, replies₁, d₁, hprefix, hrun, h₁⟩ := hpart n
      exact ⟨qs₁, replies₁, d₁, hprefix, fun hle => absurd hle hn, hrun, h₁⟩
  have hlater : d.logHandler.drop d₀.logHandler.length = later := by rw [hend.log, List.drop_left]
  obtain ⟨r, hr, hsame, hid⟩ := h₁.loads hlog (by rwa [hlater] at hrows)
  refine ⟨qs₁, replies₁, d₁, r, hprefix, fun hle => hall ?_, hrun, ?_, hr, hsame, hid⟩
  · rw [hend.log, List.length_append] at hle
    exact Nat.add_le_add_iff_left.1 hle
  · rw [h₁.log, hend.log, List.take_length_add_append]

/-- Alice buys half of what Bob has resting, after the slice. -/
def sampleAfter : List Request :=
  [requestAt 101 alice (depositOf "USDT" 3 "1000"),
    requestAt 102 alice (.orderPut (limitOrder .bid "1" "100"))]

end Dingir
