import Dingir.Proof.CancelAll
import Dingir.Proof.Events
import Dingir.Proof.Limit
import Dingir.Spec.Query

/-!
# What a user is told of the open orders

`order_query` merges what the markets hold of the orders of a user and answers one page
of it. The merged list has every open order once, the newest first (`Controller.Lists`).

* **`Reachable.orderQuery_pages`**: each page is a part of that list, consecutive pages
  are the list, and `order_detail` answers each of its orders.
* **`Reachable.orderQuery_walk`**: the exchange goes on between two pages. While no open
  order of the user is closed, a walk to a short page still sees each order that was open
  at its start, because a new order has the largest id and stands in front.
* **`Reachable.orderQuery_skips`**: once an order is closed between two pages, a walk can
  miss another one.
-/

namespace Dingir

open Keyed Outcome Market Paging

variable {E : Env} {R : QueryEnv} {settings : Settings} {now : Timestamp} {real : Bool} {w : Prop}
  {user u : Uuid} {A : Market → Ctx → OrderInput → Prop} {m : Market} {x : Ctx} {o : Order}
  {d' : Desk} {b c c' : Controller} {market : String}

/-! ## The merged list -/

/-- An open order of a user, on a market the query is about. -/
def Controller.Open (c : Controller) (market : String) (u : Uuid) (o : Order) : Prop :=
  ∃ name m, (market = "all" ∨ market = name) ∧ c.markets.find? name = some m ∧
    m.resting o.id = some o ∧ o.user = u

/-- **The open orders of a user**: each once, the newest first. -/
structure Controller.Lists (c : Controller) (market : String) (u : Uuid)
    (all : List Order) : Prop where
  newest : all.Pairwise fun o p => p.id < o.id
  mem : ∀ o, o ∈ all ↔ c.Open market u o

theorem openOrders_eq (m : Market) (u : Uuid) : m.openOrders u = (m.getOrderOfUser u).reverse := by
  unfold Market.openOrders getOrderOfUser userOrders
  cases m.users[u]? with
  | none => rfl
  | some orderMap => simp

theorem mem_openOrders (hm : m.IndexOK) :
    o ∈ m.openOrders u ↔ m.resting o.id = some o ∧ o.user = u := by
  rw [openOrders_eq, List.mem_reverse, mem_getOrderOfUser hm]

theorem openOrders_newest (hm : m.IndexOK) (u : Uuid) :
    (m.openOrders u).Pairwise fun o p => p.id < o.id := by
  rw [openOrders_eq, List.pairwise_reverse, ← List.pairwise_map (f := Order.id) (R := (· < ·)),
    getOrderOfUser_ids hm]
  exact (keys_sorted _).imp fun h => Nat.compare_eq_lt.1 h

theorem length_openOrders (m : Market) (u : Uuid) :
    (m.openOrders u).length = ((m.users[u]?).map fun orderMap => orderMap.size).getD 0 := by
  unfold Market.openOrders
  cases m.users[u]? with
  | none => rfl
  | some orderMap => simp [values, Std.TreeMap.length_toList]

theorem mem_marketsOf :
    m ∈ c.marketsOf market ↔ ∃ name, (market = "all" ∨ market = name) ∧
      c.markets.find? name = some m := by
  unfold Controller.marketsOf
  simp only [List.mem_map, List.mem_filter, decide_eq_true_eq]
  constructor
  · rintro ⟨⟨name, m⟩, ⟨hmem, hname⟩, rfl⟩
    exact ⟨name, hname, mem_entries_iff.1 hmem⟩
  · rintro ⟨name, hname, hm⟩
    exact ⟨⟨name, m⟩, ⟨mem_entries_iff.2 hm, hname⟩, rfl⟩

/-- Two markets share no id. -/
theorem ControllerOK.marketsOf_apart (hc : ControllerOK b c) (market : String) :
    (c.marketsOf market).Pairwise fun m m' => ∀ id o o', m.resting id = some o →
    m'.resting id = some o' → False := by
  have hkeys : c.markets.entries.Pairwise fun e e' => e.1 ≠ e'.1 :=
    List.pairwise_map.1 c.markets.nodupKeys
  unfold Controller.marketsOf
  rw [List.pairwise_map]
  refine (hkeys.filter _).imp_of_mem fun {e e'} he he' hne id o o' ho ho' => ?_
  have hm := mem_entries_iff.1 (List.mem_filter.1 he).1
  have hm' := mem_entries_iff.1 (List.mem_filter.1 he').1
  exact hne (hc.disjoint _ _ _ _ id o o' hm hm' ho ho')

/-- **What is merged lists the open orders.** -/
theorem ControllerOK.lists (hc : ControllerOK b c) (hR : R.Merges) (market : String) (u : Uuid) :
    c.Lists market u (c.openOrders R market u) := by
  have hindex : ∀ m ∈ c.marketsOf market, m.IndexOK := by
    intro m hm
    obtain ⟨name, -, hm⟩ := mem_marketsOf.1 hm
    exact ((hc.desk name m hm).2 true).index
  have hperm := hR.perm ((c.marketsOf market).map fun m => m.openOrders u)
  constructor
  · have hsorted : (c.openOrders R market u).Pairwise fun o p => p.id ≤ o.id := by
      refine hR.sorted _ fun l hl => ?_
      obtain ⟨m, hm, rfl⟩ := List.mem_map.1 hl
      exact (openOrders_newest (hindex m hm) u).imp fun h => h.le
    have hids : (c.openOrders R market u).Pairwise fun o p => o.id ≠ p.id := by
      refine (hperm.pairwise_iff fun {o p} h => h.symm).2
        (List.pairwise_flatten.2 ⟨fun l hl => ?_, ?_⟩)
      · obtain ⟨m, hm, rfl⟩ := List.mem_map.1 hl
        exact (openOrders_newest (hindex m hm) u).imp fun h => h.ne'
      · rw [List.pairwise_map]
        refine (hc.marketsOf_apart market).imp_of_mem fun {m m'} hm hm' hapart o ho p hp hid => ?_
        exact hapart o.id o p ((mem_openOrders (hindex m hm)).1 ho).1
          (hid ▸ ((mem_openOrders (hindex m' hm')).1 hp).1)
    exact hsorted.imp₂ (fun o p hle hne => lt_of_le_of_ne hle (Ne.symm hne)) hids
  · intro o
    refine hperm.mem_iff.trans ?_
    simp only [List.mem_flatten, List.mem_map]
    constructor
    · rintro ⟨-, ⟨m, hm, rfl⟩, ho⟩
      obtain ⟨name, hname, hfind⟩ := mem_marketsOf.1 hm
      exact ⟨name, m, hname, hfind, (mem_openOrders (hindex m hm)).1 ho⟩
    · rintro ⟨name, m, hname, hfind, ho⟩
      have hm : m ∈ c.marketsOf market := mem_marketsOf.2 ⟨name, hname, hfind⟩
      exact ⟨_, ⟨m, hm, rfl⟩, (mem_openOrders (hindex m hm)).2 ho⟩

/-- The count of a query is the number of the orders it lists. -/
theorem total_openOrders (hR : R.Merges) (c : Controller) (market : String) (u : Uuid) :
    ((c.marketsOf market).map fun m =>
      ((m.users[u]?).map fun orderMap => orderMap.size).getD 0).sum =
      (c.openOrders R market u).length := by
  rw [Controller.openOrders, (hR.perm _).length_eq, List.length_flatten, List.map_map]
  exact congrArg List.sum (List.map_congr_left fun m _ => (length_openOrders m u).symm)

/-- Over all markets this is what the limit on open orders counts. -/
theorem length_openOrders_all (hR : R.Merges) (c : Controller) (u : Uuid) :
    (c.openOrders R "all" u).length = c.totalOrderNum u := by
  rw [← total_openOrders hR]
  unfold Controller.marketsOf Controller.totalOrderNum hashTally
  simp only [true_or, decide_true, List.filter_true, List.map_map]
  refine congrArg List.sum (List.map_congr_left fun e _ => ?_)
  unfold getOrderNumOfUser
  cases h : e.2.users[u]? with
  | none => simp [h]
  | some orderMap => simp [h, Std.TreeMap.length_toList]

/-! ## Pages -/

namespace Controller

/-- The orders of one answer. -/
def page (R : QueryEnv) (c : Controller) (market : String) (u : Uuid) (limit : ℤ)
    (k : ℕ) : List OrderInfo :=
  match c.orderQuery R ⟨market, k * limit, limit⟩ u with
  | .ok response => response.orders
  | .error _ => []

/-- The markets a query can name. -/
def Knows (c : Controller) (market : String) : Prop :=
  market = "all" ∨ (c.markets.find? market).isSome

/-- **What `order_query` answers.** -/
theorem orderQuery_eq (hR : R.Merges) (hknown : c.Knows market) (offset limit : ℤ) (u : Uuid) :
    c.orderQuery R ⟨market, offset, limit⟩ u =
      .ok { offset, limit := orderLimit limit, total := asI32 (c.openOrders R market u).length
            orders := (((c.openOrders R market u).drop (asUsize offset)).take
              (asUsize (orderLimit limit))).map (OrderInfo.fromOrder R) } := by
  unfold orderQuery
  rw [if_neg (by rintro ⟨hall, hnone⟩; rcases hknown with h | h <;> simp_all), total_openOrders hR]
  rfl

theorem page_eq (hR : R.Merges) (hknown : c.Knows market) {limit : ℕ} (hpos : 0 < limit)
    (hmax : limit ≤ 100) {k : ℕ} (hk : k * limit < 2 ^ 31) (u : Uuid) :
    c.page R market u limit k =
      (slice limit (c.openOrders R market u) k).map (OrderInfo.fromOrder R) := by
  have hlimit : orderLimit limit = limit := by
    unfold orderLimit
    simp only
    split
    · omega
    · split <;> omega
  have hoffset : asUsize ((k : ℤ) * limit) = k * limit := by
    unfold asUsize
    have : ((k : ℤ) * limit) = ((k * limit : ℕ) : ℤ) := by push_cast; rfl
    rw [this]
    omega
  have htake : asUsize limit = limit := by unfold asUsize; omega
  unfold page
  rw [orderQuery_eq hR hknown, hlimit, hoffset, htake]
  rfl

end Controller

/-- **Every page is a part of one list, and the pages are the list**: the open orders of the user,
each once and the newest first, each as `order_detail` answers it. -/
theorem Reachable.orderQuery_pages (hc : Reachable E settings c) (hR : R.Merges)
    (hknown : c.Knows market) (u : Uuid) :
    ∃ all, c.Lists market u all ∧
      (∀ offset limit, c.orderQuery R ⟨market, offset, limit⟩ u =
        .ok { offset, limit := orderLimit limit, total := asI32 all.length
              orders := ((all.drop (asUsize offset)).take (asUsize (orderLimit limit))).map
                (OrderInfo.fromOrder R) }) ∧
      (∀ limit n : ℕ, 0 < limit → limit ≤ 100 → n * limit ≤ 2 ^ 31 →
        (List.range n).flatMap (c.page R market u limit) =
        (all.take (n * limit)).map (OrderInfo.fromOrder R)) ∧
      (∀ o ∈ all, c.orderDetail R ⟨o.market, o.id⟩ = .ok (.fromOrder R o)) ∧
      (market = "all" → all.length = c.totalOrderNum u) := by
  obtain ⟨b, -, hok⟩ := hc.ok
  have hlists := hok.lists hR market u
  refine ⟨c.openOrders R market u, hlists,
    fun offset limit => Controller.orderQuery_eq hR hknown offset limit u, ?_, ?_, ?_⟩
  · intro limit n hpos hmax hn
    rw [← flatMap_slice, List.map_flatMap]
    refine List.flatMap_congr fun k hk => Controller.page_eq hR hknown hpos hmax ?_ u
    exact lt_of_lt_of_le (Nat.mul_lt_mul_of_pos_right (List.mem_range.1 hk) hpos) hn
  · intro o ho
    obtain ⟨name, m, -, hm, hrest, -⟩ := (hlists.mem o).1 ho
    obtain ⟨hname, hdesk⟩ := hok.desk name m hm
    have hmarket : o.market = name := ((hdesk true).backed _ _ hrest).fits.market.trans hname
    have hget : m.get o.id = some o := hrest
    simp only [Controller.orderDetail, hmarket, hm, hget]
    rfl
  · rintro rfl
    exact length_openOrders_all hR c u

/-! ## Samples -/

/-- Milliseconds cut off, and a merge that sorts. -/
def sampleQuery : QueryEnv :=
  { releaseEnv with
    asMilliseconds := fun t => Rounding.trunc (t * 1000)
    compareBy := fun ls => ls.flatten.insertionSort fun a b => b.id ≤ a.id }

theorem sampleQuery_merges : sampleQuery.Merges where
  perm ls := List.perm_insertionSort _ _
  sorted ls _ := by
    have : Std.Total fun a b : Order => b.id ≤ a.id := ⟨fun a b => Nat.le_total b.id a.id⟩
    have : IsTrans Order fun a b : Order => b.id ≤ a.id := ⟨fun a b c hab hbc => hbc.trans hab⟩
    exact List.pairwise_insertionSort _ _

/-- Alice bids three times. -/
def sampleBids : List Request :=
  [requestAt 0 alice (depositOf "USDT" 1 "1000"),
    requestAt 1 alice (.orderPut (limitOrder .bid "1" "10")),
    requestAt 2 alice (.orderPut (limitOrder .bid "1" "30")),
    requestAt 3 alice (.orderPut (limitOrder .bid "1" "20"))]

/-- Pages of two orders. -/
theorem Reachable.orderQuery_pages_sample :
    ∃ (c : Controller) (all : List Order), Reachable releaseEnv sampleSettings c ∧
    c.Lists "all" alice all ∧ all.length = 3 ∧
    (c.page sampleQuery "all" alice 2 0).map OrderInfo.id = [3, 2] ∧
    (c.page sampleQuery "all" alice 2 1).map OrderInfo.id = [1] := by
  have h : (sampleRun releaseEnv sampleBids >>= fun c => pure (c.totalOrderNum alice,
      (c.page sampleQuery "all" alice 2 0).map OrderInfo.id,
      (c.page sampleQuery "all" alice 2 1).map OrderInfo.id)) =
      (.ok (3, [3, 2], [1]) : Except Panic (ℕ × List ℕ × List ℕ)) := by decide +kernel
  simp only [bind_ok, pure_ok, Prod.mk.injEq] at h
  obtain ⟨c, hc, hnum, hfirst, hsecond⟩ := h
  have hreach := sampleRun_reachable hc
  obtain ⟨all, hlists, -, -, -, hlength⟩ :=
    hreach.orderQuery_pages sampleQuery_merges (.inl rfl) alice
  exact ⟨c, all, hreach, hlists, (hlength rfl).trans hnum, hfirst, hsecond⟩

/-! ## A walk while the exchange goes on -/

/-- The order being put is newer than what its run began with. -/
theorem Steps.taken (h : Steps E now user A ⟨m, x, none⟩ d') (hd : DeskOK ⟨m, x, none⟩) {k : Taking}
    (hk : d'.taking = some k) : x.sequencer.orderId < k.order.id := by
  let P (a : Desk) : Prop := (∀ k, a.taking = some k → x.sequencer.orderId < k.order.id) ∧
    x.sequencer.orderId ≤ a.ctx.sequencer.orderId
  have hP : P d' := by
    refine Steps.rule (P := P)
      (fun a b ha hP hstep => ⟨fun k hk => ?_, hP.2.trans hstep.counters.1⟩) h hd
      ⟨fun k hk => by simp at hk, le_rfl⟩
    have hid := (hstep.takingOK ha hk).id
    -- an order begins with the next id and keeps it
    cases hstep with
    | accept _ _ _ => exact hid ▸ Nat.lt_succ_of_le hP.2
    | @trade m m' x x' k₁ rc t _ _ =>
      obtain rfl := Option.some.inj hk
      exact hP.1 k₁ rfl
    | finish _ _ =>
      obtain rfl := Option.some.inj hk
      exact hP.1 _ rfl
    | _ => simp at hk
  exact hP.1 k hk

/-- What rests after a run rested before it, for the same user, or is new. -/
theorem Steps.heirs (h : Steps E now user A ⟨m, x, none⟩ d') (hd : DeskOK ⟨m, x, none⟩) {id : ℕ}
    (ho : d'.market.resting id = some o) :
    (∃ p, m.resting id = some p ∧ p.user = o.user) ∨ x.sequencer.orderId < id := by
  let P (a : Desk) : Prop := Steps E now user A ⟨m, x, none⟩ a ∧
    ∀ id o, a.market.resting id = some o → (∃ p, m.resting id = some p ∧ p.user = o.user) ∨
      x.sequencer.orderId < id
  have hP : P d' := by
    refine Steps.rule (P := P) (fun a b ha hP hstep => ⟨hP.1.tail hstep, fun id o ho => ?_⟩) h hd
      ⟨.refl, fun id o ho => .inl ⟨o, ho, rfl⟩⟩
    rcases hstep.resting ha ho with ho | ⟨_, _, k, rc, t, -, -, hmeet, -, rfl, rfl⟩ |
      ⟨k, hk, -, -, -, rfl, -⟩
    · exact hP.2 id o ho
    · exact hP.2 _ (a.market.rcs.read rc) hmeet.resting
    · exact .inr (hP.1.taken hd hk)
  exact hP.2 id o ho

/-- **A later state**: its orders are those of the earlier one, or new. -/
structure Controller.Later (c c' : Controller) : Prop where
  orderId : c.sequencer.orderId ≤ c'.sequencer.orderId
  heirs : ∀ name m' id o', c'.markets.find? name = some m' → m'.resting id = some o' →
    (∃ m o, c.markets.find? name = some m ∧ m.resting id = some o ∧ o.user = o'.user) ∨
    c.sequencer.orderId < id

theorem Controller.Later.refl (c : Controller) : c.Later c :=
  ⟨le_rfl, fun _ m _ o hm ho => .inl ⟨m, o, hm, ho, rfl⟩⟩

theorem Controller.Later.trans {c₁ c₂ c₃ : Controller} (h : c₁.Later c₂)
    (h' : c₂.Later c₃) : c₁.Later c₃ := by
  refine ⟨h.orderId.trans h'.orderId, fun name m id o hm ho => ?_⟩
  rcases h'.heirs name m id o hm ho with ⟨m₂, o₂, hm₂, ho₂, hu₂⟩ | hnew
  · rcases h.heirs name m₂ id o₂ hm₂ ho₂ with ⟨m₁, o₁, hm₁, ho₁, hu₁⟩ | hnew
    · exact .inl ⟨m₁, o₁, hm₁, ho₁, hu₁.trans hu₂⟩
    · exact .inr hnew
  · exact .inr (h.orderId.trans_lt hnew)

theorem Move.later (h : Move E now real user w A c c') (hc : ControllerOK b c) : c.Later c' := by
  have hu := h.undisturbed hc true true
  refine ⟨hu.orderId, fun name mo id o hmo ho => ?_⟩
  cases h with
  | @market other m m' x' hm hsteps =>
    rw [Controller.find?_withMarket] at hmo
    split at hmo
    · subst_vars
      obtain rfl := Option.some.inj hmo
      rcases hsteps.heirs ((hc.desk _ _ hm).2 real) ho with ⟨p, hp, hpu⟩ | hnew
      · exact .inl ⟨m, p, hm, hp, hpu⟩
      · exact .inr hnew
    · exact .inl ⟨mo, o, hmo, ho, rfl⟩
  | update _ _ _ _ _ => exact .inl ⟨mo, o, hmo, ho, rfl⟩

theorem Moves.later (h : Moves E now real user w A c c') (hc : ControllerOK b c) : c.Later c' := by
  induction h with
  | refl => exact .refl c
  | tail hmoves hmove ih => exact ih.trans (hmove.later (Moves.ok hmoves hc))

theorem call_later {q : Request} {reply : Except Status Response} (hc : ControllerOK b c)
    (h : c.call E q = .ok (reply, c')) : c.Later c' := by
  obtain ⟨c₁, hmoves, hends⟩ := call_moves hc h
  have hlater := hmoves.later hc
  cases hends with
  | refused => exact hlater
  | logged =>
    obtain ⟨s, l, hl, hs, -⟩ := logged_eq c₁ q.now q.real q.operation q.user
    -- the row in the log touches no market
    rw [hl]
    exact ⟨hs ▸ hlater.orderId, hlater.heirs⟩

theorem ControllerOK.calls_later {qs : List Request} {replies : List (Except Status Response)}
    (hc : ControllerOK b c) (h : c.calls E qs = .ok (replies, c')) : c.Later c' := by
  refine (Controller.calls_rule (P := fun e => ControllerOK b e ∧ c.Later e) ?_ ⟨hc, .refl c⟩
    (Controller.along_of (A := fun _ => True) (fun _ _ => trivial) c) h).2
  rintro e e' q reply ⟨he, hlater⟩ - hcall
  exact ⟨call_ok he hcall, hlater.trans (call_later he hcall)⟩

/-- **A list whose orders all stay grows at the front.** -/
theorem Controller.Lists.grows {all all' : List Order} (hc : ControllerOK b c)
    (h : c.Lists market u all) (h' : c'.Lists market u all') (hlater : c.Later c')
    (hstay : ∀ o, c.Open market u o → ∃ o', c'.Open market u o' ∧ o'.id = o.id) :
    all.map Order.id <:+ all'.map Order.id := by
  refine suffix_of_descending (List.pairwise_map.2 h.newest) (List.pairwise_map.2 h'.newest) ?_ ?_
  · intro id hid
    obtain ⟨o, ho, rfl⟩ := List.mem_map.1 hid
    obtain ⟨o', ho', hid'⟩ := hstay o ((h.mem o).1 ho)
    exact List.mem_map.2 ⟨o', (h'.mem o').2 ho', hid'⟩
  · intro id hid hnot id' hid'
    obtain ⟨o', ho', rfl⟩ := List.mem_map.1 hid
    obtain ⟨o, ho, rfl⟩ := List.mem_map.1 hid'
    obtain ⟨name', m', hname', hm', hrest', hu'⟩ := (h'.mem o').1 ho'
    obtain ⟨name, m, hname, hm, hrest, hu⟩ := (h.mem o).1 ho
    rcases hlater.heirs _ _ _ _ hm' hrest' with ⟨m₁, p, hm₁, hp, hpu⟩ | hnew
    · -- an order that was open before is in the list already
      have hid := ((hc.desk _ _ hm₁).2 true).index.resting_id hp
      refine absurd
        (List.mem_map.2 ⟨p, (h.mem p).2 ⟨name', m₁, hname', hm₁, ?_, hpu.trans hu'⟩, hid⟩) hnot
      rw [hid]; exact hp
    · exact (((hc.desk _ _ hm).2 true).ids _ _ hrest).trans_lt hnew

theorem ControllerOK.knows_iff (hc : ControllerOK b c) (market : String) :
    c.Knows market ↔ b.Knows market := by
  refine or_congr_right ⟨fun h => ?_, fun h => ?_⟩
  · obtain ⟨m, hm⟩ := Option.isSome_iff_exists.1 h
    obtain ⟨m₀, h₀, -⟩ := hc.terms _ _ hm
    exact Option.isSome_iff_exists.2 ⟨m₀, h₀⟩
  · obtain ⟨m₀, h₀⟩ := Option.isSome_iff_exists.1 h
    exact hc.kept _ _ h₀

theorem ControllerOK.calls {qs : List Request} {replies : List (Except Status Response)}
    (hc : ControllerOK b c) (h : c.calls E qs = .ok (replies, c')) : ControllerOK b c' :=
  Controller.calls_rule (fun _ _ _ _ he _ hcall => call_ok he hcall) hc
    (Controller.along_of (A := fun _ => True) (fun _ _ => trivial) c) h

/-- **A walk over the pages misses no order that was open at its start**, though the exchange goes
on: between two pages any calls are served, as long as they close no open order of the user. -/
theorem Reachable.orderQuery_walk {cs : ℕ → Controller} (hc : Reachable E settings (cs 0))
    (hR : R.Merges) (hknown : (cs 0).Knows market) {limit n : ℕ} (hpos : 0 < limit)
    (hmax : limit ≤ 100) (hn : n * limit < 2 ^ 31)
    (hcalls : ∀ k < n, ∃ qs replies, (cs k).calls E qs = .ok (replies, cs (k + 1)))
    (hstay : ∀ k < n, ∀ o, (cs k).Open market u o → ∃ o', (cs (k + 1)).Open market u o' ∧
      o'.id = o.id)
    (hshort : ((cs n).page R market u limit n).length < limit) :
    ∀ o, (cs 0).Open market u o → ∃ k ≤ n, ∃ info ∈ (cs k).page R market u limit k,
      info.id = o.id := by
  obtain ⟨b, -, hok⟩ := hc.ok
  have hoks : ∀ k ≤ n, ControllerOK b (cs k) := by
    intro k
    induction k with
    | zero => exact fun _ => hok
    | succ k ih =>
      intro hk
      obtain ⟨qs, replies, hrun⟩ := hcalls k (by omega)
      exact (ih (by omega)).calls hrun
  have hlists : ∀ k ≤ n, (cs k).Lists market u ((cs k).openOrders R market u) :=
    fun k hk => (hoks k hk).lists hR market u
  have hpage : ∀ k ≤ n, (cs k).page R market u limit k =
      (slice limit ((cs k).openOrders R market u) k).map (OrderInfo.fromOrder R) := by
    intro k hk
    have hknown : (cs k).Knows market :=
      ((hoks k hk).knows_iff market).2 ((hok.knows_iff market).1 hknown)
    exact Controller.page_eq hR hknown hpos hmax ((Nat.mul_le_mul_right limit hk).trans_lt hn) u
  have hids : ∀ k ≤ n, slice limit (((cs k).openOrders R market u).map Order.id) k =
      ((cs k).page R market u limit k).map OrderInfo.id := by
    intro k hk
    rw [hpage k hk, List.map_map, slice, slice, ← List.map_drop, ← List.map_take]
    rfl
  -- orders that are put since are newer, so they come in front
  have hgrow : ∀ k < n, ((cs k).openOrders R market u).map Order.id <:+
      ((cs (k + 1)).openOrders R market u).map Order.id := by
    intro k hk
    obtain ⟨qs, replies, hrun⟩ := hcalls k hk
    exact (hlists k hk.le).grows (hoks k hk.le) (hlists (k + 1) hk)
      ((hoks k hk.le).calls_later hrun) (hstay k hk)
  intro o ho
  have hmem : o.id ∈ ((cs 0).openOrders R market u).map Order.id :=
    List.mem_map.2 ⟨o, ((hlists 0 (Nat.zero_le n)).mem o).2 ho, rfl⟩
  obtain ⟨k, hk, hin⟩ :=
    exists_slice_of_growing hgrow (by rw [hids n le_rfl, List.length_map]; exact hshort) hmem
  rw [hids k hk] at hin
  obtain ⟨info, hinfo, hid⟩ := List.mem_map.1 hin
  exact ⟨k, hk, info, hinfo, hid⟩

/-- A bid between two pages is seen, or it shifts an older one to the next page. -/
theorem Reachable.orderQuery_walk_sample :
    ∃ cs : ℕ → Controller, Reachable releaseEnv sampleSettings (cs 0) ∧
    ∀ o, (cs 0).Open "all" alice o → ∃ k ≤ 2, ∃ info ∈ (cs k).page sampleQuery "all" alice 2 k,
      info.id = o.id := by
  let bid : List Request := [requestAt 4 alice (.orderPut (limitOrder .bid "1" "15"))]
  have h : (sampleRun releaseEnv sampleBids >>= fun c => c.calls releaseEnv bid >>= fun t =>
      pure ((c.openOrders sampleQuery "all" alice).map Order.id,
        (t.2.openOrders sampleQuery "all" alice).map Order.id,
        (t.2.page sampleQuery "all" alice 2 2).map OrderInfo.id)) =
      (.ok ([3, 2, 1], [4, 3, 2, 1], []) : Except Panic (List ℕ × List ℕ × List ℕ)) := by
      decide +kernel
  simp only [bind_ok, pure_ok, Prod.mk.injEq] at h
  obtain ⟨c, hc, ⟨replies, c'⟩, hcalls, hbefore, hafter, hshort⟩ := h
  have hreach := sampleRun_reachable hc
  obtain ⟨b, -, hok⟩ := hreach.ok
  have hlists := hok.lists sampleQuery_merges "all" alice
  have hlists' := (hok.calls hcalls).lists sampleQuery_merges "all" alice
  let cs : ℕ → Controller := fun k => if k = 0 then c else c'
  refine ⟨cs, hreach,
    Reachable.orderQuery_walk (E := releaseEnv) hreach sampleQuery_merges (.inl rfl)
    (by decide) (by decide) (by decide) ?_ ?_ ?_⟩
  · intro k hk
    interval_cases k
    · exact ⟨bid, replies, hcalls⟩
    · exact ⟨[], [], rfl⟩
  · intro k hk o ho
    interval_cases k
    · have hid : o.id ∈ (c.openOrders sampleQuery "all" alice).map Order.id :=
        List.mem_map.2 ⟨o, (hlists.mem o).2 ho, rfl⟩
      have hid' : o.id ∈ (c'.openOrders sampleQuery "all" alice).map Order.id := by
        rw [hbefore] at hid
        rw [hafter]
        exact List.mem_cons_of_mem _ hid
      obtain ⟨o', ho', heq⟩ := List.mem_map.1 hid'
      exact ⟨o', (hlists'.mem o').1 ho', heq⟩
    · exact ⟨o, ho, rfl⟩
  · show (c'.page sampleQuery "all" alice 2 2).length < 2
    rw [List.map_eq_nil_iff.1 hshort]
    decide

/-- **A walk can miss an order** when another one is cancelled between two pages. -/
theorem Reachable.orderQuery_skips :
    ∃ (c c' : Controller) (q : Request), Reachable releaseEnv sampleSettings c ∧
    (∃ reply, c.call releaseEnv q = .ok (reply, c')) ∧
      (c.openOrders sampleQuery "all" alice).map Order.id = [3, 2, 1] ∧
    (c'.openOrders sampleQuery "all" alice).map Order.id = [2, 1] ∧
    (c.page sampleQuery "all" alice 1 0).map OrderInfo.id = [3] ∧
    (c'.page sampleQuery "all" alice 1 1).map OrderInfo.id = [1] ∧
    c'.page sampleQuery "all" alice 1 2 = [] := by
  let q := requestAt 4 alice (.orderCancel ⟨"ETH_USDT", 3⟩)
  have h : (sampleRun releaseEnv sampleBids >>= fun c => c.call releaseEnv q >>= fun t =>
      pure ((c.openOrders sampleQuery "all" alice).map Order.id,
        (t.2.openOrders sampleQuery "all" alice).map Order.id,
        (c.page sampleQuery "all" alice 1 0).map OrderInfo.id,
        (t.2.page sampleQuery "all" alice 1 1).map OrderInfo.id,
        (t.2.page sampleQuery "all" alice 1 2).map OrderInfo.id)) =
      (.ok ([3, 2, 1], [2, 1], [3], [1], []) : Except Panic
        (List ℕ × List ℕ × List ℕ × List ℕ × List ℕ)) := by decide +kernel
  simp only [bind_ok, pure_ok, Prod.mk.injEq] at h
  obtain ⟨c, hc, ⟨reply, c'⟩, hcall, hbefore, hafter, hfirst, hsecond, hthird⟩ := h
  exact ⟨c, c', q, sampleRun_reachable hc, ⟨reply, hcall⟩, hbefore, hafter, hfirst, hsecond,
    List.map_eq_nil_iff.1 hthird⟩

end Dingir
