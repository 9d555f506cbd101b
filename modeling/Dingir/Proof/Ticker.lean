import Dingir.Lib.Guarded
import Dingir.Spec.Ticker

/-!
# What the cache of the ticker replies

A cached result is what a request without a cache got at an earlier moment, for the
interval of that request (`Session.Inv`). The time comparison serves it only near that
moment (`TickerEnv.Lawful.near`), when the update interval is of whole seconds and the
clock is not set back further than that.

- **`Session.transparent`**: where the requests for a market that come within the update
  interval of each other ask for one interval, every reply is one that a request without
  a cache gets at a moment that near.
- `Session.Inv.serves_other`: a result of another interval is wrong whatever the moment.
-/

namespace Dingir

open Keyed Outcome

variable {F : Type} {T : TickerEnv F} {trading : Trading} {s s' : Session F} {moment m : Moment}
  {path : String × String} {e : Moment × String × String} {cache : HashMap String (TickerResult F)}
  {r : TickerResult F} {market : String} {inv inv' : ℕ}

/-! ## Requests -/

/-- A request and what it may do: fail on its interval, serve the cache, or compute. -/
theorem TickerEnv.ticker_computes (hinv : T.parseDuration path.1 = some inv)
    (h : cachedTicker trading cache moment.now path.2 = .ok none) :
    (T.ticker trading cache moment path).1 =
      T.queryTicker trading moment (trading.capped inv) path.2 := by
  unfold TickerEnv.ticker
  rw [hinv, h]
  dsimp only
  cases T.queryTicker trading moment (trading.capped inv) path.2 <;> rfl

/-- Without a cache only the capped interval counts. -/
theorem TickerEnv.uncached_eq (hinv : T.parseDuration path.1 = some inv) :
    T.uncached trading moment path = T.queryTicker trading moment (trading.capped inv) path.2 :=
  ticker_computes hinv rfl

theorem TickerEnv.uncached_none (hinv : T.parseDuration path.1 = none) :
    T.uncached trading moment path = .error .panic := by
  unfold uncached ticker
  rw [hinv]

theorem cachedTicker_some (h : cachedTicker trading cache moment.now market = .ok (some r)) :
    cache.find? market = some r ∧ cacheJudge trading r.toTs moment.now = .ok true := by
  unfold cachedTicker at h
  split at h
  · cases h
  · rename_i cachedResp hfind
    cases hvalid : cacheJudge trading cachedResp.toTs moment.now with
    | error e => rw [hvalid] at h; cases h
    | ok valid =>
      rw [hvalid] at h
      cases valid <;> cases h
      exact ⟨hfind, hvalid⟩

theorem cacheJudge_error {cachedTo : ℕ} {now : ℤ} {e : TickerFailure}
    (h : cacheJudge trading cachedTo now = .error e) : e = .panic := by
  have hadd : ∀ {a b : ℕ}, durationAdd a b = .error e → e = .panic := by
    intro a b h
    unfold durationAdd at h
    split at h <;> cases h
    rfl
  have hsub : ∀ {a b : ℕ}, durationSub a b = .error e → e = .panic := by
    intro a b h
    unfold durationSub at h
    split at h <;> cases h
    rfl
  obtain h | ⟨upper, -, h⟩ := bind_error.1 h
  · exact hadd h
  split at h
  · obtain h | ⟨lower, -, h⟩ := bind_error.1 h
    · exact hsub h
    · cases h
  · cases h

theorem cachedTicker_error {e : TickerFailure}
    (h : cachedTicker trading cache moment.now market = .error e) : e = .panic := by
  unfold cachedTicker at h
  split at h
  · cases h
  · rename_i cachedResp hfind
    cases hvalid : cacheJudge trading cachedResp.toTs moment.now with
    | error e =>
      rw [hvalid] at h
      cases h
      exact cacheJudge_error hvalid
    | ok valid => rw [hvalid] at h; cases h

/-! ## A step -/

theorem Session.step_eq {reply : Except TickerFailure (TickerResult F)}
    {cache : HashMap String (TickerResult F)}
    (h : T.ticker trading s.cache e.1 e.2 = (reply, cache)) : s.step T trading e =
      some { cache, visits := s.visits ++ [⟨e.1, e.2, reply⟩],
             origins := if reply.isOk && s.computes trading e.1 e.2 then s.origins.insert e.2.2
               (e.1, e.2.1) else s.origins } := by
  rw [Session.step, h]

/-- A reply that is no panic came from the cache, or is what a request without a cache gets. -/
theorem Session.step_cases (h : s.step T trading e = some s') :
    ∃ reply, s'.visits = s.visits ++ [⟨e.1, e.2, reply⟩] ∧
      ((reply = .error .panic ∧ s'.cache = s.cache ∧ s'.origins = s.origins) ∨
      (∃ inv r, T.parseDuration e.2.1 = some inv ∧
        cachedTicker trading s.cache e.1.now e.2.2 = .ok (some r) ∧
        reply = .ok r ∧ s'.cache = s.cache ∧ s'.origins = s.origins) ∨
      (reply = T.uncached trading e.1 e.2 ∧ s'.cache = s.cache ∧ s'.origins = s.origins) ∨
      ∃ r, reply = .ok r ∧ T.uncached trading e.1 e.2 = .ok r ∧ s'.cache = s.cache.insert e.2.2 r ∧
        s'.origins = s.origins.insert e.2.2 (e.1, e.2.1)) := by
  cases hinv : T.parseDuration e.2.1 with
  | none =>
    have hreply : T.ticker trading s.cache e.1 e.2 = (.error .panic, s.cache) := by
      unfold TickerEnv.ticker
      rw [hinv]
    rw [step_eq hreply] at h
    obtain rfl := Option.some.inj h
    exact ⟨_, rfl, .inl ⟨rfl, rfl, rfl⟩⟩
  | some inv =>
    cases hcached : cachedTicker trading s.cache e.1.now e.2.2 with
    | error x =>
      obtain rfl := cachedTicker_error hcached
      have hreply : T.ticker trading s.cache e.1 e.2 = (.error .panic, s.cache) := by
        unfold TickerEnv.ticker
        rw [hinv, hcached]
      rw [step_eq hreply] at h
      obtain rfl := Option.some.inj h
      exact ⟨_, rfl, .inl ⟨rfl, rfl, rfl⟩⟩
    | ok cached =>
      cases cached with
      | some r =>
        have hreply : T.ticker trading s.cache e.1 e.2 = (.ok r, s.cache) := by
          unfold TickerEnv.ticker
          rw [hinv, hcached]
        have hserved : s.computes trading e.1 e.2 = false := by rw [computes, hcached]
        rw [step_eq hreply, hserved] at h
        obtain rfl := Option.some.inj h
        exact ⟨_, rfl, .inr (.inl ⟨inv, r, rfl, rfl, rfl, rfl, rfl⟩)⟩
      | none =>
        have hcomputes : s.computes trading e.1 e.2 = true := by rw [computes, hcached]
        rw [TickerEnv.uncached_eq hinv]
        cases hquery : T.queryTicker trading e.1 (trading.capped inv) e.2.2 with
        | error x =>
          have hreply : T.ticker trading s.cache e.1 e.2 = (.error x, s.cache) := by
            unfold TickerEnv.ticker
            simp only [hinv, hcached, hquery]
          rw [step_eq hreply] at h
          obtain rfl := Option.some.inj h
          exact ⟨_, rfl, .inr (.inr (.inl ⟨rfl, rfl, rfl⟩))⟩
        | ok r =>
          have hreply : T.ticker trading s.cache e.1 e.2 = (.ok r, s.cache.insert e.2.2 r) := by
            unfold TickerEnv.ticker
            simp only [hinv, hcached, hquery]
          rw [step_eq hreply, hcomputes] at h
          obtain rfl := Option.some.inj h
          exact ⟨_, rfl, .inr (.inr (.inr ⟨r, rfl, rfl, rfl, rfl⟩))⟩

/-! ## Times -/

/-- What the libraries document of their dates. -/
structure TickerEnv.Lawful (T : TickerEnv F) : Prop where
  fromStd : ∀ {d : ℕ} {x : ℤ}, T.fromStd d = .ok x → x = d
  durationTrunc : ∀ {t t' : ℤ} {span : ℕ}, T.durationTrunc t span = .ok t' → (span : ℤ) ∣ t' ∧
    t' ≤ t ∧ t < t' + span
  checkedSubSigned : ∀ {t d x : ℤ}, T.checkedSubSigned t d = some x → x = t - d

/-- The times of a result. -/
theorem TickerEnv.Lawful.times (hT : T.Lawful) (h : T.queryTicker trading m inv market = .ok r) :
    ∃ t : ℤ, (trading.tickerUpdateInterval : ℤ) ∣ t ∧ t ≤ m.now ∧
      m.now < t + trading.tickerUpdateInterval ∧
      r.toTs = asU64 (timestamp t) ∧ r.fromTs = asU64 (timestamp (t - inv)) := by
  obtain ⟨updateInv, hupdate, hrest⟩ := bind_ok.1 h
  obtain ⟨tickerInv, hticker, hrest⟩ := bind_ok.1 hrest
  obtain ⟨nowTs, hnow, hrest⟩ := bind_ok.1 hrest
  obtain ⟨fromTs, hfrom, hrest⟩ := bind_ok.1 hrest
  obtain ⟨tickerRet, -, hret⟩ := bind_ok.1 hrest
  rw [hT.fromStd hupdate] at hnow
  rw [hT.fromStd hticker] at hfrom
  obtain ⟨hdvd, hle, hlt⟩ := hT.durationTrunc hnow
  have hsub : fromTs = nowTs - inv := by
    cases hc : T.checkedSubSigned nowTs inv with
    | none => rw [hc] at hfrom; cases hfrom
    | some x => rw [hc] at hfrom; cases hfrom; exact hT.checkedSubSigned hc
  obtain rfl := pure_ok.1 hret
  exact ⟨nowTs, hdvd, hle, hlt, rfl, by rw [hsub]⟩

theorem asU64_of_lt {x : ℤ} (hx : 0 ≤ x) (hlt : x < 2 ^ 64) : (asU64 x : ℤ) = x := by
  rw [asU64, Int.emod_eq_of_lt hx hlt, Int.toNat_of_nonneg hx]

theorem cacheJudge_lt {cachedTo : ℕ} {now : ℤ} (h : cacheJudge trading cachedTo now = .ok true) :
    asU64 (timestamp now) * nanos < cachedTo * nanos + trading.tickerUpdateInterval := by
  obtain ⟨upper, hupper, h⟩ := bind_ok.1 h
  unfold durationAdd at hupper
  split at hupper <;> cases hupper
  split at h
  · assumption
  · cases h

/-- What may still be served is near, if it was computed earlier. -/
theorem TickerEnv.Lawful.near (hT : T.Lawful) (hwhole : nanos ∣ trading.tickerUpdateInterval)
    {now : ℤ} (h : T.queryTicker trading m inv market = .ok r) (hm : 0 ≤ m.now) (hle : m.now ≤ now)
    (hnow : now < 2 ^ 64 * nanos) (hjudge : cacheJudge trading r.toTs now = .ok true) :
    now < m.now + trading.tickerUpdateInterval := by
  obtain ⟨t, hdvd, htle, htlt, hto, -⟩ := hT.times h
  obtain ⟨u, hu⟩ := hwhole
  obtain ⟨q, rfl⟩ := hdvd
  have hlt := cacheJudge_lt hjudge
  have hpos : 0 < (trading.tickerUpdateInterval : ℤ) := by omega
  have hq : 0 ≤ q := by
    by_contra hneg
    have : (trading.tickerUpdateInterval : ℤ) * q ≤ trading.tickerUpdateInterval * (-1) :=
      mul_le_mul_of_nonneg_left (by omega) hpos.le
    omega
  have hn : (0 : ℤ) < nanos := by decide
  have htime : timestamp (trading.tickerUpdateInterval * q) = u * q := by
    rw [timestamp, hu, Nat.cast_mul, mul_assoc, Int.mul_ediv_cancel_left _ hn.ne']
  have hsplit :
      (trading.tickerUpdateInterval : ℤ) * q = u * q * nanos := by rw [hu, Nat.cast_mul]; ring
  have huq : 0 ≤ (u : ℤ) * q := mul_nonneg (Int.natCast_nonneg u) hq
  have huqlt : (u : ℤ) * q < 2 ^ 64 := by
    by_contra hbig
    have : (2 : ℤ) ^ 64 * nanos ≤ u * q * nanos := mul_le_mul_of_nonneg_right (by omega) hn.le
    omega
  have hnonneg : 0 ≤ timestamp now := Int.ediv_nonneg (hm.trans hle) hn.le
  have hsmall : timestamp now < 2 ^ 64 := Int.ediv_lt_of_lt_mul hn hnow
  have hcast : ((asU64 (timestamp now) * nanos : ℕ) : ℤ) <
      ((r.toTs * nanos + trading.tickerUpdateInterval : ℕ) : ℤ) :=
    Int.ofNat_lt.2 hlt
  rw [Nat.cast_add, Nat.cast_mul, Nat.cast_mul, asU64_of_lt hnonneg hsmall, hto, htime,
    asU64_of_lt huq huqlt, hu,
    Nat.cast_mul] at hcast
  have hsecs : timestamp now + 1 ≤ u * q + u := by
    have : timestamp now * nanos < (u * q + u) * nanos := by linarith
    exact Int.add_one_le_iff.2 (lt_of_mul_lt_mul_right this hn.le)
  have hfloor : now < (timestamp now + 1) * nanos := Int.lt_ediv_add_one_mul_self now hn
  have hmul : (timestamp now + 1) * nanos ≤ (u * q + u) * nanos :=
    mul_le_mul_of_nonneg_right hsecs hn.le
  have hupdate :
      (trading.tickerUpdateInterval : ℤ) = u * nanos := by rw [hu, Nat.cast_mul, mul_comm]
  linarith

/-! ## Runs -/

/-- What is cached was computed for a request of the run, when and for what its origin says. -/
def Session.Inv (T : TickerEnv F) (trading : Trading) (s : Session F) : Prop :=
  ∀ market r, s.cache.find? market = some r →
    ∃ m tickerInv, s.origins.find? market = some (m, tickerInv) ∧
    T.uncached trading m (tickerInv, market) = .ok r ∧ ∃ v ∈ s.visits, v.moment = m ∧
    v.path = (tickerInv, market)

/-- **The cache does not show**: a reply is what a request for the same market and interval gets
without a cache, at a moment of the run no further than the update interval from its own. -/
def Session.Transparent (T : TickerEnv F) (trading : Trading) (s : Session F) : Prop :=
  ∀ v ∈ s.visits, v.reply ≠ .error .panic → ∃ w ∈ s.visits,
    |w.moment.now - v.moment.now| ≤ trading.tickerUpdateInterval ∧
    v.reply = T.uncached trading w.moment v.path

/-- **The requests come steadily**: the clock is not set back further than the update interval, and
the requests for a market within the update interval of each other are for one interval, once
capped. -/
structure Session.Steady (T : TickerEnv F) (trading : Trading) (s : Session F)
    (e : Moment × String × String) : Prop where
  clock : 0 ≤ e.1.now ∧ e.1.now < 2 ^ 64 * nanos
  forward : ∀ v ∈ s.visits, 0 ≤ v.moment.now ∧ v.moment.now ≤ e.1.now + trading.tickerUpdateInterval
  interval : ∀ v ∈ s.visits, v.path.2 = e.2.2 →
    |v.moment.now - e.1.now| ≤ trading.tickerUpdateInterval →
    (T.parseDuration v.path.1).map trading.capped = (T.parseDuration e.2.1).map trading.capped

theorem Session.Inv.step (hinv : s.Inv T trading)
    (h : s.step T trading e = some s') : s'.Inv T trading := by
  obtain ⟨reply, hvisits, hcase⟩ := Session.step_cases h
  have hgrow : ∀ v ∈ s.visits, v ∈ s'.visits := fun v hv => hvisits ▸ List.mem_append_left _ hv
  have hkeep : s'.cache = s.cache → s'.origins = s.origins → s'.Inv T trading := by
    intro hcache horigins market r hr
    rw [hcache] at hr
    obtain ⟨m, i, horigin, hm, v, hv, hvm⟩ := hinv market r hr
    exact ⟨m, i, by rw [horigins, horigin], hm, v, hgrow v hv, hvm⟩
  obtain ⟨-, hcache, horigins⟩ | ⟨_, _, -, -, -, hcache, horigins⟩ | ⟨-, hcache, horigins⟩ |
    ⟨r, -, hr, hcache, horigins⟩ := hcase
  · exact hkeep hcache horigins
  · exact hkeep hcache horigins
  · exact hkeep hcache horigins
  · intro market r' hr'
    rw [hcache, find?_insert] at hr'
    rw [horigins, find?_insert]
    by_cases hmarket : market = e.2.2
    · subst hmarket
      rw [if_pos rfl] at hr' ⊢
      obtain rfl := Option.some.inj hr'
      exact ⟨e.1, e.2.1, rfl, hr, _, hvisits ▸ List.mem_append_right _ (List.mem_singleton_self _),
        rfl, rfl⟩
    · rw [if_neg hmarket] at hr' ⊢
      obtain ⟨m, i, horigin, hm, v, hv, hvm⟩ := hinv market r' hr'
      exact ⟨m, i, horigin, hm, v, hgrow v hv, hvm⟩

theorem TickerEnv.uncached_congr {i i' : String}
    (h : (T.parseDuration i).map trading.capped = (T.parseDuration i').map trading.capped) :
    T.uncached trading m (i, market) = T.uncached trading m (i', market) := by
  cases hi : T.parseDuration i with
  | none =>
    rw [hi] at h
    rw [uncached_none hi, uncached_none (Option.map_eq_none_iff.1 h.symm)]
  | some inv =>
    rw [hi] at h
    obtain ⟨inv', hi', hcap⟩ := Option.map_eq_some_iff.1 h.symm
    rw [uncached_eq hi, uncached_eq hi', hcap]

/-- **What the cache serves a steady request** is what the request gets without it, at a moment that
near. -/
theorem Session.Inv.served (hinv : s.Inv T trading) (hT : T.Lawful)
    (hwhole : nanos ∣ trading.tickerUpdateInterval) (h : s.Steady T trading e)
    (hcached : cachedTicker trading s.cache e.1.now e.2.2 = .ok (some r)) :
    ∃ w ∈ s.visits, |w.moment.now - e.1.now| ≤ trading.tickerUpdateInterval ∧
      T.uncached trading w.moment e.2 = .ok r := by
  obtain ⟨hfind, hjudge⟩ := cachedTicker_some hcached
  obtain ⟨_, i, -, hm, w, hw, rfl, hpath⟩ := hinv _ r hfind
  obtain ⟨hnonneg, hback⟩ := h.forward w hw
  have hnear : |w.moment.now - e.1.now| ≤ trading.tickerUpdateInterval := by
    rw [abs_le]
    rcases le_total w.moment.now e.1.now with hle | hle
    · -- the time comparison accepts no result that is older
      obtain ⟨inv, hparse⟩ : ∃ inv, T.parseDuration i = some inv := by
        refine Option.ne_none_iff_exists'.1 fun hnone => ?_
        rw [T.uncached_none hnone] at hm
        cases hm
      rw [T.uncached_eq hparse] at hm
      have hlt := hT.near hwhole hm hnonneg hle h.clock.2 hjudge
      constructor <;> linarith
    · constructor <;> linarith
  have hcap := h.interval w hw (by rw [hpath]) hnear
  rw [hpath] at hcap
  exact ⟨w, hw, hnear, (TickerEnv.uncached_congr hcap).symm.trans hm⟩

theorem Session.Transparent.step (hT : T.Lawful) (hwhole : nanos ∣ trading.tickerUpdateInterval)
    (hinv : s.Inv T trading) (ht : s.Transparent T trading) (hsteady : s.Steady T trading e)
    (h : s.step T trading e = some s') : s'.Transparent T trading := by
  obtain ⟨reply, hvisits, hcase⟩ := Session.step_cases h
  have hgrow : ∀ v ∈ s.visits, v ∈ s'.visits := fun v hv => hvisits ▸ List.mem_append_left _ hv
  have hnew : (⟨e.1, e.2, reply⟩ : Visit F) ∈ s'.visits :=
    hvisits ▸ List.mem_append_right _ (List.mem_singleton_self _)
  intro v hv hreply
  rw [hvisits, List.mem_append, List.mem_singleton] at hv
  obtain hv | rfl := hv
  · obtain ⟨w, hw, hnear, heq⟩ := ht v hv hreply
    exact ⟨w, hgrow w hw, hnear, heq⟩
  have hown : reply = T.uncached trading e.1 e.2 → ∃ w ∈ s'.visits,
      |w.moment.now - e.1.now| ≤ trading.tickerUpdateInterval ∧
      reply = T.uncached trading w.moment e.2 := by
    intro heq
    exact ⟨_, hnew, by simp, heq⟩
  obtain ⟨hpanic, -, -⟩ | ⟨inv, r, -, hcached, rfl, -, -⟩ | ⟨heq, -, -⟩ | ⟨r, rfl, heq, -, -⟩ :=
    hcase
  · exact absurd hpanic hreply
  · obtain ⟨w, hw, hnear, hsame⟩ := hinv.served hT hwhole hsteady hcached
    exact ⟨w, hgrow w hw, hnear, hsame.symm⟩
  · exact hown heq
  · exact hown heq.symm

theorem Session.new_inv : (Session.new : Session F).Inv T trading := by
  intro market r hr
  cases hr

/-- **The ticker cache is transparent where it is asked for the interval it holds.** -/
theorem Session.transparent (hT : T.Lawful) (hwhole : nanos ∣ trading.tickerUpdateInterval)
    (h : Guarded.Runs (Session.step T trading) (Session.Steady T trading) Session.new s) :
    s.Transparent T trading := by
  refine (h.rule (I := fun s => s.Inv T trading ∧ s.Transparent T trading) ?_ ⟨new_inv, ?_⟩).2
  · rintro s e s' ⟨hinv, ht⟩ hsteady hstep
    exact ⟨hinv.step hstep, ht.step hT hwhole hinv hsteady hstep⟩
  · intro v hv
    cases hv

/-! ## Another interval -/

/-- The length of a result, in whole seconds. -/
theorem TickerEnv.Lawful.span (hT : T.Lawful) (h : T.queryTicker trading m inv market = .ok r)
    (hinv : nanos ∣ inv) : (r.toTs - r.fromTs : ℤ) ≡ (inv / nanos : ℕ) [ZMOD 2 ^ 64] := by
  obtain ⟨t, -, -, -, hto, hfrom⟩ := hT.times h
  have hmod : ∀ x : ℤ, (asU64 x : ℤ) ≡ x [ZMOD 2 ^ 64] := by
    intro x
    rw [asU64, Int.toNat_of_nonneg (Int.emod_nonneg _ (by norm_num))]
    exact Int.mod_modEq _ _
  rw [hto, hfrom]
  refine ((hmod _).sub (hmod _)).trans ?_
  have hn : (0 : ℤ) < nanos := by decide
  obtain ⟨u, rfl⟩ := hinv
  have hdiv : (nanos * u / nanos : ℕ) = u := Nat.mul_div_cancel_left _ (by decide)
  rw [hdiv, timestamp, timestamp, Nat.cast_mul, Int.sub_ediv_of_dvd _ (dvd_mul_right _ _),
    Int.mul_ediv_cancel_left _ hn.ne', sub_sub_cancel]

/-- **A result of another interval is wrong whatever the moment.** -/
theorem TickerEnv.Lawful.uncached_ne (hT : T.Lawful) {i i' : String}
    (hi : T.parseDuration i = some inv) (hi' : T.parseDuration i' = some inv')
    (hwhole : nanos ∣ trading.capped inv) (hwhole' : nanos ∣ trading.capped inv')
    (hlt : trading.capped inv < 2 ^ 64 * nanos) (hlt' : trading.capped inv' < 2 ^ 64 * nanos)
    (hne : trading.capped inv ≠ trading.capped inv') (hr : T.uncached trading m (i, market) = .ok r)
    (moment : Moment) : T.uncached trading moment (i', market) ≠ .ok r := by
  intro hr'
  rw [T.uncached_eq hi] at hr
  rw [T.uncached_eq hi'] at hr'
  obtain ⟨u, hu⟩ := hwhole
  obtain ⟨u', hu'⟩ := hwhole'
  have hn : 0 < nanos := by decide
  have hspan :=
    (hT.span hr (hu ▸ dvd_mul_right _ _)).symm.trans (hT.span hr' (hu' ▸ dvd_mul_right _ _))
  rw [hu, hu', Nat.mul_div_cancel_left _ hn, Nat.mul_div_cancel_left _ hn] at hspan
  rw [hu, mul_comm (2 ^ 64)] at hlt
  rw [hu', mul_comm (2 ^ 64)] at hlt'
  have hu64 : u < 2 ^ 64 := lt_of_mul_lt_mul_left hlt hn.le
  have hu64' : u' < 2 ^ 64 := lt_of_mul_lt_mul_left hlt' hn.le
  have heq : u = u' := by
    have := hspan
    unfold Int.ModEq at this
    omega
  exact hne (by rw [hu, hu', heq])

/-- Served for another interval than it was computed for, a result is none that the request gets
without a cache. -/
theorem Session.Inv.serves_other (hT : T.Lawful) (hs : s.Inv T trading)
    (h : s.step T trading e = some s')
    (hcached : cachedTicker trading s.cache e.1.now e.2.2 = .ok (some r)) {i : String}
    (horigin : s.origins.find? e.2.2 = some (m, i)) (hi : T.parseDuration i = some inv)
    (hi' : T.parseDuration e.2.1 = some inv') (hwhole : nanos ∣ trading.capped inv)
    (hwhole' : nanos ∣ trading.capped inv') (hlt : trading.capped inv < 2 ^ 64 * nanos)
    (hlt' : trading.capped inv' < 2 ^ 64 * nanos) (hne : trading.capped inv ≠ trading.capped inv') :
    ⟨e.1, e.2, .ok r⟩ ∈ s'.visits ∧ ∀ moment, T.uncached trading moment e.2 ≠ .ok r := by
  obtain ⟨m', i', horigin', hm, -⟩ := hs _ r (cachedTicker_some hcached).1
  obtain ⟨rfl, rfl⟩ := Prod.mk.inj (Option.some.inj (horigin.symm.trans horigin'))
  have hreply : T.ticker trading s.cache e.1 e.2 = (.ok r, s.cache) := by
    unfold TickerEnv.ticker
    rw [hi', hcached]
  rw [step_eq hreply] at h
  obtain rfl := Option.some.inj h
  exact ⟨List.mem_append_right _ (List.mem_singleton_self _),
    hT.uncached_ne hi hi' hwhole hwhole' hlt hlt' hne hm⟩

/-! ## Two intervals -/

/-- Libraries that behave as documented on these requests. -/
def tickerLibraries : TickerEnv ℚ where
  parseDuration s :=
    if s = "1h" then some (3600 * nanos) else if s = "24h" then some (86400 * nanos) else none
  fromStd d := .ok d
  durationTrunc t span :=
    if span ≤ 0 then .error .panic
    else if |t| < span then .error (.error "DurationExceedsTimestamp")
    else .ok (t - t % span)
  checkedSubSigned t d := some (t - d)
  checkedSub x y := some (x - y)
  checkedDiv x y := if y = 0 then none else some (x / y)
  toF32 := some
  zero := 0
  noChange := 99999 / 10

theorem tickerLibraries_lawful : tickerLibraries.Lawful where
  fromStd h := (Except.ok.inj h).symm
  durationTrunc := by
    intro t t' span h
    simp only [tickerLibraries] at h
    split_ifs at h with hspan hlt
    obtain rfl := Except.ok.inj h
    have hpos : 0 < (span : ℤ) := by omega
    refine ⟨?_, ?_, ?_⟩
    · exact Int.dvd_self_sub_emod
    · have := Int.emod_nonneg t hpos.ne'
      omega
    · have := Int.emod_lt_of_pos t hpos
      omega
  checkedSubSigned h := (Option.some.inj h).symm

/-- A moment without trades. -/
def quietMoment (secs : ℕ) : Moment :=
  { now := secs * nanos, fetchOne := fun _ _ => .ok ⟨none, none, none, none, none, none⟩ }

/-- A worker that was asked for a day. -/
def askedDay : Session ℚ :=
  (Session.new.step tickerLibraries .default (quietMoment 1000003, "24h", "ETH_USDT")).getD .new

theorem askedDay_cached :
    cachedTicker .default askedDay.cache (quietMoment 1000004).now "ETH_USDT" =
    .ok (some ⟨"ETH_USDT", 0, 0, 0, 0, 0, 0, 913600, 1000000⟩) := by decide +kernel

theorem askedDay_origin : askedDay.origins.find? "ETH_USDT" = some (quietMoment 1000003, "24h") :=
  rfl

/-- A day is asked for twice, and served from the cache the second time. -/
theorem Session.transparent_two : ∃ s r,
    askedDay.step tickerLibraries .default (quietMoment 1000004, "24h", "ETH_USDT") = some s ∧
    s.visits.map Visit.reply = [.ok r, .ok r] ∧ s.Transparent tickerLibraries .default := by
  have hfirst : Guarded.Runs (step tickerLibraries .default) (Steady tickerLibraries .default) new
      askedDay := by
    refine .one (e := (quietMoment 1000003, "24h", "ETH_USDT")) ⟨by decide, ?_, ?_⟩ rfl
    · intro v hv
      cases hv
    · intro v hv
      cases hv
  have hvisit : ∀ v ∈ askedDay.visits, v.moment = quietMoment 1000003 ∧
      v.path = ("24h", "ETH_USDT") := by
    intro v hv
    obtain rfl := List.mem_singleton.1 hv
    exact ⟨rfl, rfl⟩
  refine ⟨_, ⟨"ETH_USDT", 0, 0, 0, 0, 0, 0, 913600, 1000000⟩, rfl, by decide +kernel,
    transparent tickerLibraries_lawful (by decide)
      (.step hfirst (e := (quietMoment 1000004, "24h", "ETH_USDT")) ⟨by decide, ?_, ?_⟩ rfl)⟩
  · intro v hv
    rw [(hvisit v hv).1]
    decide
  · intro v hv _ _
    rw [(hvisit v hv).2]

/-- An hour is asked for, and the cache replies with the day that was asked for before. -/
theorem Session.not_transparent :
    ¬ ∀ s, Guarded.Runs (step tickerLibraries .default) (fun _ _ => True) (new : Session ℚ) s →
    ∀ v ∈ s.visits, v.reply ≠ .error .panic → ∃ moment : Moment,
      |moment.now - v.moment.now| ≤ Trading.default.tickerUpdateInterval ∧
        v.reply = tickerLibraries.uncached .default moment v.path := by
  intro h
  have hfirst : new.step tickerLibraries .default (quietMoment 1000003, "24h", "ETH_USDT") =
      some askedDay := rfl
  obtain ⟨s, hs⟩ : ∃ s, askedDay.step tickerLibraries .default (quietMoment 1000004, "1h",
      "ETH_USDT") = some s := ⟨_, rfl⟩
  obtain ⟨hmem, hwrong⟩ :=
    Session.Inv.serves_other tickerLibraries_lawful (new_inv.step hfirst) hs askedDay_cached
    askedDay_origin (rfl : tickerLibraries.parseDuration "24h" = some (86400 * nanos))
    (rfl : tickerLibraries.parseDuration "1h" = some (3600 * nanos)) (by decide) (by decide)
    (by decide) (by decide) (by decide)
  obtain ⟨moment, -, hreply⟩ :=
    h s (.step (.one trivial hfirst) trivial hs) _ hmem (fun hpanic => by cases hpanic)
  exact hwrong moment hreply.symm

end Dingir
