import Dingir.Proof.Reload

/-!
# The two lists of assets

The set of assets is stored twice: the settings keep the assets a controller was
created with, the asset manager those and every asset loaded since. `update_balance`
asks the asset manager, `balance_query` and `asset_list` read the settings.

As long as a reload brings no asset the settings do not have, the two agree
(`Operated.assets_agree`); **one that does makes an asset a user can hold and nobody
sees** (`not_assets_agree`).
-/

namespace Dingir

open Keyed Outcome Rounding Market

variable {E : Env} {settings : Settings} {am am' : AssetManager} {c c' : Controller} {m : Market}
  {id : String} {recovers : Prop}

/-! ## Who knows an asset -/

/-- `update_balance` recognises an asset: no request for it is refused as one for an invalid
asset. -/
def Controller.Recognises (E : Env) (c : Controller) (id : String) : Prop :=
  ∀ now real req user c', req.asset = id →
    c.updateBalance E now true real req user ≠ .ok (.error (invalidArgument "invalid asset"), c')

/-- `balance_query` accepts an asset, for every user. -/
def Controller.Accepts (E : Env) (c : Controller) (id : String) : Prop :=
  ∀ user, ∃ balances, c.balanceQuery E [id] user = .ok (.ok balances)

/-- An asset is reported, by `balance_query` without a filter and by `asset_list`. -/
structure Controller.Reports (E : Env) (c : Controller) (id : String) : Prop where
  query : ∀ user, ∃ balances, c.balanceQuery E [] user = .ok (.ok balances) ∧
    ∃ b ∈ balances, b.assetId = id
  list : ∃ item ∈ c.settings.assets, item.id = id ∧
    { symbol := item.symbol, name := item.name, precision := item.precShow } ∈ c.assetList

/-- A reload brings assets of the settings only. -/
def KnownAssets (c : Controller) (assets : Fetch AssetDesc) : Prop :=
  assets.error = none → ∀ row ∈ assets.rows, ∃ item ∈ c.settings.assets, item.id = row.id

/-- The two lists of assets are the same, and no balance is of another asset. -/
structure Controller.AssetsAgree (c : Controller) : Prop where
  same : ∀ id, c.balanceManager.assetManager.assetExist id = true ↔ ∃ item ∈ c.settings.assets,
    item.id = id
  known : c.balanceManager.Known

/-- The errors of an update. -/
theorem updateUserBalance_error {now : Timestamp} {x x' : Ctx} {p : BalanceUpdateParams}
    {e : String} (h : updateUserBalance E now x p = .ok (.error e, x')) :
    e = "duplicate request" ∨ e = "balance not enough" := by
  unfold updateUserBalance at h
  split at h
  · simp only [pure_ok, Prod.mk.injEq, Except.error.injEq] at h
    exact .inl h.1.symm
  obtain ⟨r, hr, h⟩ := bind_ok.1 h
  cases r with
  | error e' =>
    simp only [pure_ok, Prod.mk.injEq, Except.error.injEq] at h
    obtain ⟨rfl, -⟩ := h
    refine .inr ?_
    unfold applyChange at hr
    simp only at hr
    split at hr
    · simp only [bind_ok, pure_ok] at hr
      obtain ⟨_, -, hr⟩ := hr
      exact absurd hr (by simp)
    split at hr
    · simpa [eq_comm, pure, Except.pure] using hr
    · simp only [bind_ok, pure_ok] at hr
      obtain ⟨_, -, hr⟩ := hr
      exact absurd hr (by simp)
  | ok bm =>
    simp only [bind_ok, pure_ok, Prod.mk.injEq] at h
    obtain ⟨_, -, h, -⟩ := h
    exact absurd h (by simp)

theorem parseUpdate_error {prec : ℕ} {req : BalanceUpdateRequest} {st : Status}
    (h : Controller.parseUpdate E prec req = .error st) :
    st = invalidArgument "invalid amount" ∨ st = invalidArgument "invalid detail" := by
  unfold Controller.parseUpdate at h
  cases hdelta : E.decimalFromStr req.delta with
  | none =>
    simp only [hdelta] at h
    exact .inl (Except.error.inj h).symm
  | some delta =>
    simp only [hdelta] at h
    split at h
    · simp [pure, Except.pure] at h
    cases hdetail : E.jsonFromStr req.detail with
    | none =>
      simp only [hdetail] at h
      exact .inr (Except.error.inj h).symm
    | some detail =>
      simp only [hdetail] at h
      simp [pure, Except.pure] at h

/-- `update_balance` asks the asset manager, and says so in no other case. -/
theorem Controller.recognises_iff :
    c.Recognises E id ↔ c.balanceManager.assetManager.assetExist id = true := by
  constructor
  · intro h
    by_contra hno
    refine h 0 true { asset := id, business := "", businessId := 0, delta := "",
                      detail := "" } default c rfl ?_
    unfold updateBalance
    rw [if_neg (by simp), if_pos (by simpa using hno)]
    rfl
  · rintro hex now real req user c' rfl h
    have hasset : ∀ s : String, s ≠ "invalid asset" →
        invalidArgument s ≠ invalidArgument "invalid asset" := by
      intro s hs he
      exact hs (congrArg Status.message he)
    unfold updateBalance at h
    rw [if_neg (by simp), if_neg (by simp [hex])] at h
    obtain ⟨prec, -, h⟩ := bind_ok.1 h
    split at h
    · rename_i status hparse
      simp only [pure_ok, Prod.mk.injEq, Except.error.injEq] at h
      rcases parseUpdate_error hparse with hst | hst
      · exact hasset "invalid amount" (by decide) (hst.symm.trans h.1)
      · exact hasset "invalid detail" (by decide) (hst.symm.trans h.1)
    obtain ⟨price, -, h⟩ := bind_ok.1 h
    obtain ⟨⟨res, x⟩, hupdate, h⟩ := bind_ok.1 h
    cases res with
    | ok _ => simp [pure, Except.pure] at h
    | error e =>
      simp only [pure_ok, Prod.mk.injEq, Except.error.injEq] at h
      rcases updateUserBalance_error hupdate with rfl | rfl
      · exact hasset "duplicate request" (by decide) h.1
      · exact hasset "balance not enough" (by decide) h.1

/-- A balance of a known asset can be shown. -/
theorem Controller.assetBalance_ok (hex : c.balanceManager.assetManager.assetExist id = true)
    (user : Uuid) : ∃ b, c.assetBalance E user id = .ok b ∧ b.assetId = id := by
  obtain ⟨info, hinfo⟩ := AssetManager.assetExist_iff.1 hex
  have hround : ∀ t, ∃ v, c.balanceManager.getWithRound user t id = .ok v := fun t =>
    ⟨_, bind_ok.2 ⟨_, AssetManager.assetPrec_ok.2 ⟨info, hinfo, rfl⟩,
      bind_ok.2 ⟨_, AssetManager.assetPrecShow_ok.2 ⟨info, hinfo, rfl⟩, rfl⟩⟩⟩
  obtain ⟨available, havailable⟩ := hround .available
  obtain ⟨frozen, hfrozen⟩ := hround .freeze
  exact ⟨_, bind_ok.2 ⟨available, havailable, bind_ok.2 ⟨frozen, hfrozen, rfl⟩⟩, rfl⟩

/-- Known assets are all shown, each under its id. -/
theorem Controller.assetBalances_ok (ids : List String) (user : Uuid)
    (hex : ∀ id ∈ ids, c.balanceManager.assetManager.assetExist id = true) :
    ∃ balances, ids.mapM (c.assetBalance E user) = .ok balances ∧
      balances.map AssetBalance.assetId = ids := by
  induction ids with
  | nil => exact ⟨[], rfl, rfl⟩
  | cons id ids ih =>
    obtain ⟨b, hb, hid⟩ := Controller.assetBalance_ok (E := E) (hex id (by simp)) user
    obtain ⟨balances, hrest, hids⟩ := ih fun i hi => hex i (List.mem_cons_of_mem _ hi)
    refine ⟨b :: balances, ?_, by rw [List.map_cons, hid, hids]⟩
    rw [List.mapM_cons]
    exact bind_ok.2 ⟨b, hb, bind_ok.2 ⟨balances, hrest, rfl⟩⟩

namespace Controller.AssetsAgree

theorem recognises_iff (h : c.AssetsAgree) :
    c.Recognises E id ↔ ∃ item ∈ c.settings.assets, item.id = id :=
  Controller.recognises_iff.trans (h.same id)

/-- `balance_query` asks the settings, and then shows what the asset manager knows. -/
theorem accepts_iff (h : c.AssetsAgree) :
    c.Accepts E id ↔ ∃ item ∈ c.settings.assets, item.id = id := by
  have hall : ([id].all fun param => c.settings.assets.any fun asset => asset.id = param) = true ↔
      ∃ item ∈ c.settings.assets, item.id = id := by simp
  constructor
  · intro haccepts
    by_contra hno
    obtain ⟨balances, hquery⟩ := haccepts default
    unfold Controller.balanceQuery at hquery
    rw [if_pos (by rw [Bool.not_eq_true', ← Bool.not_eq_true, hall]; exact hno)] at hquery
    simp [pure, Except.pure] at hquery
  · intro hitem user
    obtain ⟨balances, hbalances, -⟩ := Controller.assetBalances_ok (E := E) [id] user fun i hi =>
      (h.same i).2 (List.mem_singleton.1 hi ▸ hitem)
    refine ⟨balances, ?_⟩
    unfold Controller.balanceQuery
    rw [if_neg (by rw [hall.2 hitem]; simp)]
    exact bind_ok.2 ⟨balances, hbalances, rfl⟩

/-- An asset of the settings is reported. -/
theorem reports (h : c.AssetsAgree) {item : AssetConf}
    (hitem : item ∈ c.settings.assets) : c.Reports E item.id := by
  refine ⟨fun user => ?_, item, hitem, rfl, List.mem_map.2 ⟨item, hitem, rfl⟩⟩
  obtain ⟨balances, hbalances, hids⟩ :=
    Controller.assetBalances_ok (E := E) (c.settings.assets.map AssetConf.id) user fun i hi => by
      obtain ⟨item, hitem, rfl⟩ := List.mem_map.1 hi
      exact (h.same _).2 ⟨item, hitem, rfl⟩
  have hmem : item.id ∈ balances.map AssetBalance.assetId :=
    hids ▸ List.mem_map.2 ⟨item, hitem, rfl⟩
  obtain ⟨b, hb, hid⟩ := List.mem_map.1 hmem
  refine ⟨balances, ?_, b, hb, hid⟩
  unfold Controller.balanceQuery
  rw [if_neg (by simp)]
  exact bind_ok.2 ⟨balances, hbalances, rfl⟩

end Controller.AssetsAgree

/-! ## Agreement -/

theorem createController_assets (h : createController settings = .ok c) : c.settings = settings ∧
    AssetManager.After ⟨∅⟩ settings.assets c.balanceManager.assetManager ∧
    c.balanceManager.Known := by
  simp only [createController, bind_ok, pure_ok] at h
  obtain ⟨bm, hbm, _, -, rfl⟩ := h
  simp only [BalanceManager.new, bind_ok, pure_ok] at hbm
  obtain ⟨am, ham, rfl⟩ := hbm
  exact ⟨rfl, AssetManager.new_after ham, known_empty am⟩

/-- Calls, resets and recoveries do not touch the assets, and a reload of known ones adds none. -/
theorem Operated.assetsAgree (h : Operated E settings KnownAssets recovers c) : c.AssetsAgree := by
  refine h.rule (fun d hd => ?_) (fun d d' hd hframe => ?_) (fun d assets d' hd hP hload => ?_)
  · obtain ⟨hsettings, hassets, hknown⟩ := createController_assets hd
    refine ⟨fun id => ?_, hknown⟩
    rw [hassets.assetExist, hsettings]
    simp [AssetManager.assetExist, find?_empty]
  · have hassets : d'.balanceManager.assetManager = d.balanceManager.assetManager :=
      hframe.ctx.balances.assets
    exact ⟨by rw [hassets, hframe.settings]; exact hd.same, hframe.ctx.balances.known hd.known⟩
  · refine ⟨fun id => ?_, fun k hk => ?_⟩
    · rw [hload.assets.assetExist, hload.settings, hd.same]
      -- the rows of a query that ended are of assets in the settings
      refine ⟨fun hex => hex.elim (fun hitem => hitem) ?_, .inl⟩
      rintro ⟨item, hitem, rfl⟩
      unfold Fetch.loaded at hitem
      cases herror : assets.error with
      | some e => simp [herror] at hitem
      | none =>
        simp only [herror, Option.isNone_none, if_true] at hitem
        obtain ⟨row, hrow, rfl⟩ := List.mem_map.1 hitem
        exact hP herror row hrow
    · rw [hload.balances] at hk
      obtain ⟨p, hp⟩ := hd.known k hk
      obtain ⟨info, hinfo, -⟩ := AssetManager.assetPrec_ok.1 hp
      have hex := (hload.assets.assetExist k.asset).2
        (.inl (AssetManager.assetExist_iff.2 ⟨info, hinfo⟩))
      obtain ⟨info', hinfo'⟩ := AssetManager.assetExist_iff.1 hex
      exact ⟨_, AssetManager.assetPrec_ok.2 ⟨info', hinfo', rfl⟩⟩

/-- **As long as every reloaded asset is one of the settings, all views of the assets agree**: an
asset is recognised exactly where it is accepted, and every asset a user can hold or holds is
reported. -/
theorem Operated.assets_agree (h : Operated E settings KnownAssets recovers c) :
    (∀ id, c.Recognises E id ↔ c.Accepts E id) ∧ (∀ id, c.Recognises E id → c.Reports E id) ∧
      ∀ k, (c.balanceManager.balances.find? k).isSome → c.Reports E k.asset := by
  have hagree := h.assetsAgree
  have hreports : ∀ id, c.Recognises E id → c.Reports E id := by
    intro id hid
    obtain ⟨item, hitem, rfl⟩ := hagree.recognises_iff.1 hid
    exact hagree.reports hitem
  refine ⟨fun id => hagree.recognises_iff.trans hagree.accepts_iff.symm, hreports,
    fun k hk => hreports _ ?_⟩
  obtain ⟨p, hp⟩ := hagree.known k hk
  obtain ⟨info, hinfo, -⟩ := AssetManager.assetPrec_ok.1 hp
  exact Controller.recognises_iff.2 (AssetManager.assetExist_iff.2 ⟨info, hinfo⟩)

/-- The small exchange after some calls and a reload that finds some assets. -/
def sampleReload (qs : List Request) (rows : List AssetDesc) : Except Panic Controller := do
  let c ← sampleRun releaseEnv qs
  return (← (Configured.mk c .new).marketReload false ⟨rows, none⟩ ⟨[], none⟩).2.controller

theorem sampleReload_operated {P : Controller → Fetch AssetDesc → Prop} {qs : List Request}
    {rows : List AssetDesc} (h : sampleReload qs rows = .ok c)
    (hP : ∀ d, sampleRun releaseEnv qs = .ok d → P d ⟨rows, none⟩) :
    Operated releaseEnv sampleSettings P recovers c := by
  simp only [sampleReload, bind_ok, pure_ok] at h
  obtain ⟨d, hd, ⟨res, s⟩, hreload, rfl⟩ := h
  obtain ⟨c₀, replies, h₀, hcalls⟩ := sampleRun_ok hd
  have hoperated : Operated releaseEnv sampleSettings P recovers d :=
    (Operated.init h₀).calls hcalls
  exact hoperated.reload (hP d hd) hreload

/-- The asset of the deposit is loaded again, with what it has. -/
theorem Operated.assets_agree_sample : ∃ c, Operated releaseEnv sampleSettings KnownAssets True c ∧
    (c.balanceManager.balances.find? ⟨bob, .available, "ETH"⟩).isSome ∧
    c.Reports releaseEnv "ETH" := by
  have h : (sampleReload [requestAt 0 bob (depositOf "ETH" 1 "0.5")] [assetRow "ETH" 6] >>= fun c =>
      pure (c.balanceManager.balances.find? ⟨bob, .available, "ETH"⟩).isSome) = (.ok true :
        Except Panic Bool) := by
    decide +kernel
  simp only [bind_ok, pure_ok] at h
  obtain ⟨c, hc, hheld⟩ := h
  have hoperated : Operated releaseEnv sampleSettings KnownAssets True c := by
    refine sampleReload_operated hc fun d hd _ row hrow => ?_
    obtain rfl := List.mem_singleton.1 hrow
    have hsettings : d.settings = sampleSettings := by
      obtain ⟨c₀, hcreated, hok⟩ := (sampleRun_reachable hd).ok
      exact hok.settings.trans (createController_assets hcreated).1
    exact ⟨⟨"ETH", 6, 6, "", ""⟩, by rw [hsettings]; simp [sampleSettings], rfl⟩
  exact ⟨c, hoperated, hheld, hoperated.assets_agree.2.2 _ hheld⟩

/-- A new asset that a reload finds is recognised, and not accepted. -/
theorem not_assets_agree : ¬ ∀ E settings c, Operated E settings (fun _ _ => True) True c →
    (∀ id, c.Recognises E id ↔ c.Accepts E id) ∧ ∀ id, c.Recognises E id → c.Reports E id := by
  intro hall
  have h : (sampleReload [] [assetRow "BTC" 6] >>= fun c =>
      pure (c.balanceManager.assetManager.assetExist "BTC",
        decide (c.balanceQuery releaseEnv ["BTC"] bob =
          .ok (.error (invalidArgument "invalid asset"))))) =
      (.ok (true, true) : Except Panic (Bool × Bool)) := by decide +kernel
  simp only [bind_ok, pure_ok, Prod.mk.injEq, decide_eq_true_eq] at h
  obtain ⟨c, hc, hexist, hquery⟩ := h
  have hoperated : Operated releaseEnv sampleSettings (fun _ _ => True) True c :=
    sampleReload_operated hc fun _ _ => trivial
  obtain ⟨balances, haccepts⟩ :=
    ((hall _ _ _ hoperated).1 "BTC").1 (Controller.recognises_iff.2 hexist) bob
  rw [hquery] at haccepts
  simp at haccepts

end Dingir
