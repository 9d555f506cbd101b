import Dingir.Proof.Conservation
import Dingir.Proof.Server

/-!
# Whose money it is

The totals of a server move with its balance updates and with the fees its trades withhold, and with
nothing else (`ControllerOK.audit`). **`Serving.Runs.audited`**: at any moment of a run, what the
users hold of an asset is what they held at first, with what deposit admins have paid in, without
what withdrawal admins have paid out and what the trades have withheld; and every other call was
made for the user of its own token.
-/

namespace Dingir

open Service Outcome Keyed Rounding Posting Market

variable {κ : Type} {G : Gateway} {E : Env} {settings : Settings} {s₀ v v' : Configured}
  {s : Serving κ} {b c c' : Controller} {am : AssetManager} {q : Request}
  {reply : Except Status Response} {e : Entry Task ServerAction Answer} {n : ℕ} {a : String}

/-- What an update that is made pays into a balance, or takes out of it. -/
def BalanceUpdateRequest.paid (E : Env) (am : AssetManager)
    (req : BalanceUpdateRequest) : Decimal :=
  match E.decimalFromStr req.delta, am.assetPrecShow req.asset, am.assetPrec req.asset with
  | some delta, .ok precShow, .ok prec =>
    let change := roundDp delta precShow
    if 0 ≤ change then roundDp |change| prec else -roundDp |change| prec
  | _, _, _ => 0

/-- What a call has paid into an asset. -/
def Request.paid (E : Env) (am : AssetManager) (q : Request) (reply : Except Status Response)
    (asset : String) : Decimal :=
  match q.operation, reply with
  | .balanceUpdate req, .ok _ => if req.asset = asset then req.paid E am else 0
  | _, _ => 0

theorem Request.paid_other (h : ¬ q.operation.Updates) : q.paid E am reply a = 0 := by
  unfold paid
  split
  · rename_i req _ hop
    exact absurd (hop ▸ trivial) h
  · rfl

theorem Request.paid_refused (st : Status) : q.paid E am (.error st) a = 0 := by
  unfold paid
  split
  · rename_i hreply
    cases hreply
  · rfl

/-- Only an update pays. -/
theorem Request.paid_cases (E : Env) (am : AssetManager) (q : Request)
    (reply : Except Status Response) (a : String) :
    q.paid E am reply a = 0 ∨ ∃ req, q.operation = .balanceUpdate req ∧
      q.paid E am reply a = req.paid E am := by
  unfold paid
  split
  · rename_i req _ hop
    split
    · exact .inr ⟨req, hop, rfl⟩
    · exact .inl rfl
  · exact .inl rfl

/-! ## One call -/

/-- The change of an update that is made. -/
theorem Applied.pays {prec : ℕ} {price change : Decimal} {detail : Value}
    {req : BalanceUpdateRequest} {user : Uuid} {x x' : Ctx} {now : Timestamp}
    (hg : Gridded x.balanceManager)
    (hprec : x.balanceManager.assetManager.assetPrecShow req.asset = .ok prec)
    (hparse : Controller.parseUpdate E prec req = .ok (change, detail))
    (h : Applied E now x (Controller.updateParams req user price change detail) x') (a : String) :
    x'.balanceManager.statusTotal a =
      x.balanceManager.statusTotal a +
        if req.asset = a then req.paid E x.balanceManager.assetManager else 0 := by
  obtain ⟨d, hd⟩ := applyChange_ok hg h.change
  obtain ⟨p, hp⟩ := hd.known
  replace hp : x.balanceManager.assetManager.assetPrec req.asset = .ok p := hp
  -- the change is rounded to the digits of the book
  have hsize : |d| = roundDp |change| p := hd.size p hp
  obtain ⟨delta, hdelta, rfl⟩ : ∃ delta, E.decimalFromStr req.delta = some delta ∧
      change = roundDp delta prec := by
    rcases Controller.parseUpdate_cases E prec req with ⟨-, st, hst⟩ |
      ⟨delta, detail', hdelta, hparse', -⟩
    · rw [hst] at hparse
      cases hparse
    · obtain ⟨rfl, -⟩ := Prod.mk.inj (Except.ok.inj (hparse.symm.trans hparse'))
      exact ⟨delta, hdelta, rfl⟩
  have hpaid : req.paid E x.balanceManager.assetManager = d := by
    simp only [BalanceUpdateRequest.paid, hdelta, hprec, hp, ← hsize]
    split
    · rename_i hpos
      exact abs_of_nonneg (hd.deposit hpos)
    · rename_i hneg
      rw [abs_of_nonpos (hd.withdraw (not_le.1 hneg)).1, neg_neg]
  rw [hd.posted.total, amountIn_cons, amountIn_nil, add_zero, hpaid]
  rfl

/-- **What a call does to the totals**: an update pays in or out, and trades withhold their fees. -/
theorem ControllerOK.audit (hc : ControllerOK b c) (hreal : q.real = true)
    (h : c.call E q = .ok (reply, c')) :
    ∃ ts, c'.trades = c.trades ++ ts ∧ ∀ a, c'.balanceManager.statusTotal a =
      c.balanceManager.statusTotal a + q.paid E b.balanceManager.assetManager reply a -
        withheld ts a := by
  by_cases hup : q.operation.Updates
  · obtain ⟨now, available, real, user, op⟩ := q
    obtain rfl : real = true := hreal
    cases op with
    | balanceUpdate req =>
      refine ⟨[], ?_⟩
      simp only [List.append_nil, withheld_nil, sub_zero]
      -- an update that is refused pays nothing and moves nothing
      rcases Controller.updateBalance_cases h with ⟨⟨st, rfl⟩, rfl⟩ |
        ⟨rfl, prec, price, change, detail, x', hprec, hparse, -, happ, rfl⟩
      · exact ⟨rfl, fun a => by rw [Request.paid_refused, add_zero]⟩
      · obtain ⟨s, l, hl, -, -⟩ := logged_eq (c.withCtx x') now true (.balanceUpdate req) user
        rw [hl]
        obtain ⟨htrades, -, hpersist⟩ := persistUpdate_trades happ.persistor
        refine ⟨?_, fun a => ?_⟩
        · cases hx : x'.persistor with
          | dummy => simp [hx, PersistExector.realPersist, Controller.ctx] at hpersist
          | real ms =>
            rw [hx] at htrades
            have hms : (c.withCtx x').persistor = ms := by simp [Controller.withCtx, hx]
            show PersistExector.trades (.real (c.withCtx x').persistor) = _
            rw [hms]
            exact htrades
        · have hpays := happ.pays (x := c.ctx true) hc.gridded hprec hparse a
          rw [← hc.assets]
          exact hpays
    | _ => exact hup.elim
  · -- all other calls move money between users, less the fees
    obtain ⟨c₁, hmoves, hends⟩ := call_moves hc h
    have hnone : q.operation.Updates = False := eq_false hup
    rw [hnone, hreal] at hmoves
    obtain ⟨ts, hts⟩ := hmoves.conserved hc
    have hsame : c'.balanceManager = c₁.balanceManager ∧ c'.persistor = c₁.persistor := by
      cases hends with
      | refused => exact ⟨rfl, rfl⟩
      | logged =>
        obtain ⟨s, l, hl, -, -⟩ := logged_eq c₁ q.now q.real q.operation q.user
        simp only [hl, and_self]
    refine ⟨ts, ?_, fun a => ?_⟩
    · unfold Controller.trades
      rw [hsame.2]
      exact hts.trades rfl
    · rw [Request.paid_other hup, add_zero, hsame.1]
      exact hts.total a

/-! ## Who may -/

/-- A sign bit is that of the number, unless it is zero. -/
def Gateway.SignsAgree (G : Gateway) (E : Env) : Prop :=
  ∀ text x, E.decimalFromStr text = some x → x ≠ 0 → (G.isSignPositive text = true ↔ 0 < x)

/-- What is paid in has a positive sign, and what is paid out has not. -/
theorem BalanceUpdateRequest.paid_sign (hG : G.SignsAgree E) {req : BalanceUpdateRequest} :
    (0 < req.paid E am → G.isSignPositive req.delta = true) ∧
      (req.paid E am < 0 → ¬ G.isSignPositive req.delta = true) := by
  unfold paid
  split
  · rename_i delta precShow prec hdelta _ _
    have hround : 0 ≤ roundDp |roundDp delta precShow| prec := roundDp_nonneg (abs_nonneg _)
    have hpos : 0 < delta → 0 ≤ roundDp delta precShow := fun h => roundDp_nonneg h.le
    have hneg : delta ≤ 0 → roundDp delta precShow ≤ 0 := fun h => roundDp_le h OnGrid.zero
    have hzero : roundDp (0 : Decimal) prec = 0 := OnGrid.zero.roundDp_eq
    simp only
    split
    · rename_i hchange
      refine ⟨fun h => ?_, fun h => absurd h (not_lt.2 hround)⟩
      -- a delta that is not positive rounds to nothing here
      have hdelta' : 0 < delta := by
        by_contra hle
        have hnone : roundDp delta precShow = 0 := le_antisymm (hneg (not_lt.1 hle)) hchange
        rw [hnone, abs_zero, hzero] at h
        exact lt_irrefl _ h
      exact (hG _ _ hdelta hdelta'.ne').2 hdelta'
    · rename_i hchange
      refine ⟨fun h => ?_, fun _ hsign => ?_⟩
      · linarith
      · have hdelta' : ¬ 0 < delta := fun hd => hchange (hpos hd)
        have hne : delta ≠ 0 := by
          rintro rfl
          exact hchange (roundDp_nonneg le_rfl)
        exact hdelta' ((hG _ _ hdelta hne).1 hsign)
  · simp

/-- **The token of a request**: one that the key decodes, issued not more than an hour ago and
expiring within the next. -/
structure Arrival.Carries (arrival : Arrival) (keycloak : Keycloak) (claims : Claims) : Prop where
  decodes : ∃ token, arrival.authorization = some (.ok token) ∧
    keycloak.decode arrival.now (token.replace "Bearer " "") = .ok claims
  issued : arrival.now ≤ claims.iat + ONE_HOUR_IN_SECS
  expires : claims.exp ≤ arrival.now + ONE_HOUR_IN_SECS

/-- **Whom a token speaks for**: a user is known only by the token of the request. -/
theorem grpcInterceptor_user {keycloak : Keycloak} {arrival : Arrival} {user : UserExtension}
    (h : grpcInterceptor keycloak arrival.now arrival.authorization = .ok (some user)) :
    ∃ claims, arrival.Carries keycloak claims ∧ user = getUserExtension keycloak claims := by
  unfold grpcInterceptor at h
  split at h
  · cases h
  · cases h
  · rename_i token htoken
    split at h
    · cases h
    · rename_i claims hvalid
      simp only [Except.ok.injEq, Option.some.injEq] at h
      unfold validateJwt at hvalid
      obtain ⟨claims', hdecode, hvalid⟩ := Outcome.bind_ok.1 hvalid
      split at hvalid
      · cases hvalid
      · rename_i htimely
        obtain rfl : claims' = claims := Except.ok.inj hvalid
        simp only [Claims.ensureTimelyBoundaries, Claims.validateIssueDate,
          Claims.validateExpiryDate, Bool.not_eq_true',
          Bool.and_eq_false_iff, Bool.not_eq_false', decide_eq_true_eq, not_or, not_lt] at htimely
        exact ⟨claims', ⟨⟨token, htoken, hdecode⟩, by omega, htimely.2⟩, h.symm⟩

/-- **Who is behind a call that was run.** -/
structure Authorized (G : Gateway) (E : Env) (am : AssetManager) (q : Request)
    (reply : Except Status Response) (user : UserExtension) : Prop where
  own : ¬ q.operation.Updates → q.user = user.userId
  deposit : ∀ a, 0 < q.paid E am reply a → user.isDepositAdmin = true
  withdrawal : ∀ a, q.paid E am reply a < 0 → user.isWithdrawalAdmin = true

theorem Ran.authorized {task : Task} {stub : Controller} {user : UserExtension}
    (hG : G.SignsAgree E) (hran : Ran e task q reply) (h : task.Allowed G E stub user) :
    Authorized G E am q reply user := by
  refine ⟨fun hno => hran.user.trans (h.own fun req hreq => hno ?_), fun a ha => ?_, fun a ha => ?_⟩
  · rw [hran.operation, hreq]
    trivial
  · rcases Request.paid_cases E am q reply a with hzero | ⟨req, hop, hpaid⟩
    · exact absurd hzero ha.ne'
    · have hrole := h.update req (hran.operation.symm.trans hop)
      rwa [if_pos ((BalanceUpdateRequest.paid_sign hG).1 (hpaid ▸ ha))] at hrole
  · rcases Request.paid_cases E am q reply a with hzero | ⟨req, hop, hpaid⟩
    · exact absurd hzero ha.ne
    · have hrole := h.update req (hran.operation.symm.trans hop)
      rwa [if_neg ((BalanceUpdateRequest.paid_sign hG).2 (hpaid ▸ ha))] at hrole

/-! ## A run -/

/-- What an entry of the log has paid into an asset. -/
def entryPaid (E : Env) (am : AssetManager) (e : Entry Task ServerAction Answer)
    (asset : String) : Decimal :=
  match e.action, e.reply with
  | .call q, .call reply => q.paid E am reply asset
  | _, _ => 0

theorem Ran.paid {task : Task} (h : Ran e task q reply) (a : String) :
    entryPaid E am e a = q.paid E am reply a := by
  simp only [entryPaid, h.action, h.reply]

/-- **The books of a server.** -/
structure Serving.Audited (G : Gateway) (E : Env) (s₀ : Configured) (s : Serving κ) : Prop where
  balanced : ∃ ts, s.state.controller.trades = s₀.controller.trades ++ ts ∧
    ∀ a, s.state.controller.balanceManager.statusTotal a =
    s₀.controller.balanceManager.statusTotal a +
      (s.log.map fun e => entryPaid E s₀.controller.balanceManager.assetManager e a).sum -
      withheld ts a
  /-- Each call was run for a request that came in with a token of its own, which speaks for the
  call. -/
  authorized : ∀ e ∈ s.log, ∃ task q reply, ∃ stub : Configured, ∃ arrival claims,
    Ran e task q reply ∧
    GrpcHandler.receive G E stub.controller arrival = .ok task ∧ arrival.Carries G.keycloak claims ∧
    Authorized G E s₀.controller.balanceManager.assetManager q reply
      (getUserExtension G.keycloak claims)

/-- **Money comes from deposit admins and goes through withdrawal admins**, and all other calls are
made for the user of their token. -/
theorem Serving.Runs.audited (hG : G.SignsAgree E) (h : Serving.Runs G E (.start s₀) s)
    (hs : s.Unreloaded) (h₀ : Reachable E settings s₀.controller) : Serving.Audited G E s₀ s := by
  have hsound : Serving.Sound G E s₀ s := Service.Runs.sound h
  obtain ⟨b, hb, hok₀⟩ := h₀.ok
  refine ⟨?_, fun e he => ?_⟩
  · obtain ⟨ts, hts, htotal⟩ :=
      hsound.rule (P := fun n v => ∃ ts, v.controller.trades = s₀.controller.trades ++ ts ∧
      ∀ a, v.controller.balanceManager.statusTotal a = s₀.controller.balanceManager.statusTotal a +
        ((s.log.take n).map fun e =>
          entryPaid E s₀.controller.balanceManager.assetManager e a).sum - withheld ts a)
      hs ⟨[], by simp, by simp⟩ (fun n e v v' task q reply hat hran hcall _ hkept => by
        -- the assets are those of the start, by which the entries are counted
        obtain ⟨b₁, hb₁, hok⟩ := (hsound.reachable hs h₀ hat.before).ok
        obtain rfl : b = b₁ := Except.ok.inj (hb.symm.trans hb₁)
        obtain ⟨ts, hts, htotal⟩ := hkept n le_rfl v hat.before
        obtain ⟨ts', hts', htotal'⟩ := hok.audit hran.real hcall
        refine ⟨ts ++ ts', by rw [hts', hts, List.append_assoc], fun a => ?_⟩
        rw [htotal' a, htotal a, List.take_add_one, hat.entry, withheld_append, List.map_append,
          List.sum_append]
        simp only [Option.toList_some, List.map_singleton, List.sum_singleton, hran.paid,
          hok₀.assets]
        ring) _ _ hsound.stands
    rw [List.take_length] at htotal
    exact ⟨ts, hts, htotal⟩
  · -- the token was read when the request came in
    obtain ⟨n, hn⟩ := List.getElem?_of_mem he
    obtain ⟨v, v', hat⟩ := hsound.entry hn
    obtain ⟨task, q, reply, hran, -, hadmitted⟩ := hsound.ran hs hat
    obtain ⟨k, -, stub, -, arrival, user, hreceived, htoken, hallowed⟩ := Task.admitted hadmitted
    obtain ⟨claims, hcarries, rfl⟩ := grpcInterceptor_user htoken
    exact ⟨task, q, reply, stub, arrival, claims, hran, hreceived, hcarries,
      hran.authorized hG hallowed⟩

theorem sampleGateway_signs : sampleGateway.SignsAgree releaseEnv := by
  have hunsigned : ∀ cs x, unsignedDecimal cs = some x → 0 ≤ x := by
    intro cs x h
    unfold unsignedDecimal at h
    simp only at h
    split at h
    · cases h
    · obtain ⟨x, hx, rfl⟩ := Option.map_eq_some_iff.1 h
      obtain ⟨n, -, hn⟩ := Option.bind_eq_some_iff.1 hx
      obtain rfl : (n : ℚ) = x := Option.some.inj hn
      positivity
  intro text x h hx
  replace h : readDecimal text = some x := h
  simp only [sampleGateway, decide_eq_true_eq]
  unfold readDecimal at h
  split at h
  · rename_i cs htext
    obtain ⟨y, hy, rfl⟩ := Option.map_eq_some_iff.1 h
    have := hunsigned cs y hy
    simp [htext, this]
  · rename_i cs htext
    have := hunsigned _ x h
    simp [htext, lt_of_le_of_ne this hx.symm]
  · rename_i cs hneg _
    have := hunsigned _ x h
    refine ⟨fun _ => lt_of_le_of_ne this hx.symm, fun _ hhead => ?_⟩
    obtain ⟨rest, hrest⟩ := List.head?_eq_some_iff.1 hhead
    exact hneg rest hrest

/-- Bob, an admin of deposits, has paid in what is there. -/
theorem Serving.Runs.audited_sample : ∃ (c : Controller) (s : Serving ℕ), s.log.length = 2 ∧
    s.state.controller.balanceManager.statusTotal "ETH" = 10 ∧
    Serving.Audited sampleGateway releaseEnv ⟨c, MarketConfigs.new⟩ s := by
  have h : (sampleServing releaseEnv).map
      (fun t => (t.2.2.log.all fun e => e.task.isSome, t.2.2.log.length,
      t.2.2.state.controller.balanceManager.statusTotal "ETH")) = some (true, 2,
      10) := by decide +kernel
  obtain ⟨⟨c, s, s'⟩, hday, hread⟩ := Option.map_eq_some_iff.1 h
  obtain ⟨hcalls, htwo, htotal⟩ : _ ∧ s'.log.length = 2 ∧
      s'.state.controller.balanceManager.statusTotal "ETH" = 10 := by
    simpa only [Prod.mk.injEq] using hread
  obtain ⟨hc, hruns, hruns'⟩ := sampleServing_runs hday
  have hunreloaded : s'.Unreloaded := fun e he => List.all_eq_true.1 hcalls e he
  exact ⟨c, s', htwo, htotal,
    Serving.Runs.audited sampleGateway_signs (hruns.trans hruns') hunreloaded (.init hc)⟩

end Dingir
