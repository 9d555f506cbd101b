import Dingir.Spec.Reload
import Dingir.Spec.Sample
import Dingir.Proof.Frame

/-!
# What a reload does

A reload overwrites or adds entries of the asset manager, one for each row, and adds
markets under free names; it changes nothing else (`Controller.Reloads`). With what
calls, resets and recoveries leave alone this gives the rule for the states of an
engine in operation (`Operated.rule`).
-/

namespace Dingir

open Keyed Outcome Rounding Market

variable {E : Env} {settings : Settings} {am am' : AssetManager} {c c' : Controller} {m : Market}
  {P : Controller → Fetch AssetDesc → Prop} {recovers : Prop}

/-! ## The asset manager -/

/-- An entry is the one of some configured asset. -/
def AssetInfo.Of (info : AssetInfo) (item : AssetConf) : Prop :=
  info.precSave = item.precSave ∧ info.precShow = item.precShow ∧
    fromStrRadix36 item.id = some info.innerId

/-- The entries after the assets of `l` were put into `am`, one after the other. -/
def AssetManager.After (am : AssetManager) (l : List AssetConf) (am' : AssetManager) : Prop :=
  ∀ id, (am'.assetGet id = am.assetGet id ∧ ∀ item ∈ l, item.id ≠ id) ∨
    ∃ item ∈ l, item.id = id ∧ ∃ info : AssetInfo, am'.assetGet id = some info ∧ info.Of item

namespace AssetManager

theorem insertAssets_after {l : List AssetConf} {assets : HashMap String AssetInfo}
    (h : l.foldlM insertAsset am.assets = .ok assets) : am.After l ⟨assets⟩ := by
  induction l using List.reverseRecOn generalizing assets with
  | nil =>
    rw [List.foldlM_nil, pure_ok] at h
    subst h
    exact fun id => .inl ⟨rfl, by simp⟩
  | append_singleton l item ih =>
    rw [List.foldlM_append, bind_ok] at h
    obtain ⟨before, hbefore, h⟩ := h
    simp only [List.foldlM_cons, List.foldlM_nil, insertAsset, bind_ok, pure_ok, unwrap_ok] at h
    obtain ⟨_, ⟨innerId, hinner, rfl⟩, rfl⟩ := h
    intro id
    by_cases hid : id = item.id
    · subst hid
      exact .inr ⟨item, by simp, rfl, _, find?_insert_self _ _ _, rfl, rfl, hinner⟩
    · have hget : assetGet ⟨before.insert item.id ⟨item.precSave, item.precShow, innerId⟩⟩ id =
          before.find? id :=
        find?_insert_of_ne _ _ hid
      rw [hget]
      -- the last item is of another id, so the ones before it decide
      rcases ih hbefore id with ⟨hsame, hno⟩ | ⟨other, hother, rest⟩
      · refine .inl ⟨hsame, fun item' hitem' => ?_⟩
        rcases List.mem_append.1 hitem' with hitem' | hitem'
        · exact hno item' hitem'
        · rw [List.mem_singleton.1 hitem']
          exact Ne.symm hid
      · exact .inr ⟨other, by simp [hother], rest⟩

theorem append_after {l : List AssetConf} (h : am.append l = .ok am') : am.After l am' := by
  simp only [append, bind_ok, pure_ok] at h
  obtain ⟨assets, hloop, rfl⟩ := h
  exact insertAssets_after hloop

theorem new_after {l : List AssetConf} (h : AssetManager.new l = .ok am) :
    AssetManager.After ⟨∅⟩ l am := by
  simp only [AssetManager.new, bind_ok, pure_ok] at h
  obtain ⟨assets, hloop, rfl⟩ := h
  exact insertAssets_after hloop

theorem assetExist_iff {id : String} :
    am.assetExist id = true ↔ ∃ info, am.assetGet id = some info :=
  Option.isSome_iff_exists

theorem assetPrec_ok {id : String} {p : ℕ} :
    am.assetPrec id = .ok p ↔ ∃ info, am.assetGet id = some info ∧ info.precSave = p := by
  simp only [assetPrec, bind_ok, pure_ok, unwrap_ok]

theorem assetPrecShow_ok {id : String} {p : ℕ} :
    am.assetPrecShow id = .ok p ↔ ∃ info, am.assetGet id = some info ∧ info.precShow = p := by
  simp only [assetPrecShow, bind_ok, pure_ok, unwrap_ok]

/-- Assets are only added. -/
theorem After.assetExist {l : List AssetConf} (h : am.After l am') (id : String) :
    am'.assetExist id = true ↔ am.assetExist id = true ∨ ∃ item ∈ l, item.id = id := by
  simp only [assetExist_iff]
  rcases h id with ⟨hsame, hno⟩ | ⟨item, hitem, hid, info, hget, -⟩
  · rw [hsame]
    refine ⟨.inl, fun hex => hex.resolve_right ?_⟩
    rintro ⟨item, hitem, hid⟩
    exact hno item hitem hid
  · exact ⟨fun _ => .inr ⟨item, hitem, hid⟩, fun _ => ⟨info, hget⟩⟩

/-- A precision changes only where a row says so. -/
theorem After.assetPrec {l : List AssetConf} (h : am.After l am') {id : String} {p : ℕ}
    (hp : am.assetPrec id = .ok p)
    (hrows : ∀ item ∈ l, item.id = id → item.precSave = p) : am'.assetPrec id = .ok p := by
  obtain ⟨info, hinfo, rfl⟩ := assetPrec_ok.1 hp
  rcases h id with ⟨hsame, -⟩ | ⟨item, hitem, hid, info', hget, hof⟩
  · exact assetPrec_ok.2 ⟨info, hsame.trans hinfo, rfl⟩
  · exact assetPrec_ok.2 ⟨info', hget, hof.1.trans (hrows item hitem hid)⟩

end AssetManager

/-! ## A reload -/

/-- **What a reload of some assets leaves behind.** -/
structure Controller.Reloads (c : Controller) (l : List AssetConf) (c' : Controller) : Prop where
  settings : c'.settings = c.settings
  filter : c'.updateController = c.updateController
  messages : c'.persistor = c.persistor
  balances : c'.balanceManager.balances = c.balanceManager.balances
  assets : c.balanceManager.assetManager.After l c'.balanceManager.assetManager
  markets : ∀ name m, c'.markets.find? name = some m → c.markets.find? name = some m ∨
    c.markets.find? name = none ∧ m.name = name ∧
    ∃ conf, m.Created conf c.settings c'.balanceManager.assetManager
  kept : ∀ name m, c.markets.find? name = some m → c'.markets.find? name = some m

namespace Controller

theorem Reloads.refl (c : Controller) : c.Reloads [] c :=
  ⟨rfl, rfl, rfl, rfl, fun _ => .inl ⟨rfl, by simp⟩, fun _ _ hm => .inl hm, fun _ _ hm => hm⟩

/-- A market is added, or the entry is only logged. -/
theorem addMarket_cases {entry : MarketConf} (h : c.addMarket entry = .ok c') :
    (c' = c ∧ ((c.markets.find? entry.name).isSome ∨
      ∃ e, Market.new entry c.settings c.balanceManager = .ok (.error e))) ∨
      ∃ m, c.markets.find? entry.name = none ∧
        Market.new entry c.settings c.balanceManager = .ok (.ok m) ∧
        c' = { c with
          markets := c.markets.insert entry.name m
          assetMarketNames := c.assetMarketNames.insert (entry.base, entry.quote) entry.name } := by
  unfold addMarket at h
  by_cases htaken : (c.markets.find? entry.name).isSome
  · rw [if_pos htaken, pure_ok] at h
    exact .inl ⟨h.symm, .inl htaken⟩
  · rw [if_neg htaken] at h
    obtain ⟨res, hnew, h⟩ := bind_ok.1 h
    cases res with
    | error e =>
      simp only [pure_ok] at h
      exact .inl ⟨h.symm, .inr ⟨e, hnew⟩⟩
    | ok m =>
      simp only [pure_ok] at h
      exact .inr ⟨m, by simpa using htaken, hnew, h.symm⟩

theorem Reloads.addMarket {l : List AssetConf} {c'' : Controller} {entry : MarketConf}
    (h : c.Reloads l c') (hadd : c'.addMarket entry = .ok c'') : c.Reloads l c'' := by
  rcases addMarket_cases hadd with ⟨rfl, -⟩ | ⟨m, hfree, hnew, rfl⟩
  · exact h
  have hcreated := Market.new_ok hnew
  rw [h.settings] at hcreated
  refine ⟨h.settings, h.filter, h.messages, h.balances, h.assets, fun name m' hm' => ?_,
    fun name m' hm' => ?_⟩
  · rw [find?_insert] at hm'
    by_cases hname : name = entry.name
    · rw [if_pos hname] at hm'
      obtain rfl := Option.some.inj hm'
      refine .inr ⟨?_, hcreated.name.trans hname.symm, entry, hcreated⟩
      -- the name was free before the reload too
      cases hold : c.markets.find? name with
      | none => rfl
      | some m₀ =>
        rw [← hname, h.kept name m₀ hold] at hfree
        simp at hfree
    · rw [if_neg hname] at hm'
      exact h.markets name m' hm'
  · rw [find?_insert]
    have hne : name ≠ entry.name := by
      rintro rfl
      rw [h.kept _ m' hm'] at hfree
      simp at hfree
    rw [if_neg hne]
    exact h.kept name m' hm'

theorem Reloads.addMarkets {l : List AssetConf} {c'' : Controller} {entries : List MarketConf}
    (h : c.Reloads l c')
    (hadd : entries.foldlM Controller.addMarket c' = .ok c'') : c.Reloads l c'' :=
  foldlM_rule (P := fun _ d => c.Reloads l d) (fun _ _ _ _ hd hone => hd.addMarket hone) _ _ _ h
    hadd

end Controller

/-- The assets a reload has put into the asset manager: none when the query failed. -/
def Fetch.loaded (fetch : Fetch AssetDesc) : List AssetConf :=
  if fetch.error.isNone then fetch.rows.map AssetConf.fromDesc else []

namespace Configured

variable {s s' : Configured} {res : Except Status Unit}

/-- The first query either fails, and only moves a load time, or gives the assets that are
appended. -/
theorem loadAssets_cases {fetch : Fetch AssetDesc} (h : s.loadAssets fetch = .ok (res, s')) :
    s'.marketLoadCfg.marketLoadTime = s.marketLoadCfg.marketLoadTime ∧
      ((∃ e, fetch.error = some e ∧ res = .error (internal e) ∧ s'.controller = s.controller) ∨
        fetch.error = none ∧ res = .ok () ∧ ∃ am,
          s.controller.balanceManager.assetManager.append (fetch.rows.map AssetConf.fromDesc) =
            .ok am ∧
          s'.controller = s.controller.withAssets am) := by
  unfold loadAssets MarketConfigs.loadAssetFromDb Fetch.into at h
  cases he : fetch.error with
  | some e =>
    simp only [he, pure_ok, Prod.mk.injEq] at h
    obtain ⟨rfl, rfl⟩ := h
    exact ⟨rfl, .inl ⟨e, rfl, rfl, rfl⟩⟩
  | none =>
    simp only [he, bind_ok, pure_ok, Prod.mk.injEq] at h
    obtain ⟨am, ham, rfl, rfl⟩ := h
    exact ⟨rfl, .inr ⟨rfl, rfl, am, ham, rfl⟩⟩

/-- The second query either fails, or gives the markets that are added; the load time moves in both
cases. -/
theorem loadMarkets_cases {fetch : Fetch MarketDesc} (h : s.loadMarkets fetch = .ok (res, s')) :
    s'.marketLoadCfg.marketLoadTime =
        (fetch.rows.map MarketDesc.createTime).foldl advance s.marketLoadCfg.marketLoadTime ∧
      ((∃ e, fetch.error = some e ∧ res = .error (internal e) ∧ s'.controller = s.controller) ∨
        fetch.error = none ∧ res = .ok () ∧
          (fetch.rows.map MarketConf.fromDesc).foldlM Controller.addMarket s.controller =
            .ok s'.controller) := by
  unfold loadMarkets MarketConfigs.loadMarketFromDb Fetch.into at h
  cases he : fetch.error with
  | some e =>
    simp only [he, pure_ok, Prod.mk.injEq] at h
    obtain ⟨rfl, rfl⟩ := h
    exact ⟨rfl, .inl ⟨e, rfl, rfl, rfl⟩⟩
  | none =>
    simp only [he, bind_ok, pure_ok, Prod.mk.injEq] at h
    obtain ⟨c', hc', rfl, rfl⟩ := h
    exact ⟨rfl, .inr ⟨rfl, rfl, hc'⟩⟩

theorem loadAssets_reloads {fetch : Fetch AssetDesc} (h : s.loadAssets fetch = .ok (res, s')) :
    s.controller.Reloads fetch.loaded s'.controller := by
  unfold Fetch.loaded
  rcases (loadAssets_cases h).2 with ⟨e, he, -, hc⟩ | ⟨he, -, am, ham, hc⟩
  · rw [hc, he]
    exact .refl _
  · rw [hc, he]
    exact ⟨rfl, rfl, rfl, rfl, AssetManager.append_after ham, fun _ _ hm => .inl hm,
      fun _ _ hm => hm⟩

theorem loadMarkets_reloads {fetch : Fetch MarketDesc} {l : List AssetConf}
    (hc : c.Reloads l s.controller) (h : s.loadMarkets fetch = .ok (res, s')) :
    c.Reloads l s'.controller := by
  rcases (loadMarkets_cases h).2 with ⟨e, -, -, heq⟩ | ⟨-, -, hadd⟩
  · exact heq ▸ hc
  · exact hc.addMarkets hadd

theorem marketReload_reloads {fromScratch : Bool} {assets : Fetch AssetDesc}
    {markets : Fetch MarketDesc} (h : s.marketReload fromScratch assets markets = .ok (res, s')) :
    s.controller.Reloads assets.loaded s'.controller := by
  unfold marketReload at h
  obtain ⟨⟨res₁, s₁⟩, hassets, h⟩ := bind_ok.1 h
  have hfirst := loadAssets_reloads hassets
  have hsame : (if fromScratch = true then { s with marketLoadCfg := s.marketLoadCfg.resetLoadTime }
    else s).controller =
      s.controller := by
    split <;> rfl
  rw [hsame] at hfirst
  cases res₁ with
  | error st =>
    simp only [pure_ok, Prod.mk.injEq] at h
    exact h.2 ▸ hfirst
  | ok _ => exact loadMarkets_reloads hfirst h

end Configured

/-! ## Engines in operation -/

/-- **The rule for engines in operation**: a property that new controllers have, that
survives whatever leaves the frame alone, and that a reload meeting `P` keeps. -/
theorem Operated.rule {I : Controller → Prop} (hinit : ∀ c, createController settings = .ok c → I c)
    (hframe : ∀ c c', I c → c.Framed c' → I c')
    (hreload : ∀ c assets c', I c → P c assets → c.Reloads assets.loaded c' → I c')
    (h : Operated E settings P recovers c) : I c := by
  induction h with
  | init hc => exact hinit _ hc
  | call _ hcall ih => exact hframe _ _ ih (Controller.call_framed hcall)
  | reload _ hP hload ih => exact hreload _ _ _ ih hP (Configured.marketReload_reloads hload)
  | reset _ ih => exact hframe _ _ ih (Controller.resetState_framed _)
  | recover _ _ hrun ih => exact hframe _ _ ih (Controller.initFromDb_framed hrun)

theorem Operated.mono {P' : Controller → Fetch AssetDesc → Prop}
    (hP : ∀ c assets, P c assets → P' c assets) (h : Operated E settings P recovers c) :
    Operated E settings P' recovers c := by
  induction h with
  | init hc => exact .init hc
  | call _ hcall ih => exact ih.call hcall
  | reload _ hp hload ih => exact ih.reload (hP _ _ hp) hload
  | reset _ ih => exact ih.reset
  | recover hrec _ hrun ih => exact ih.recover hrec hrun

theorem Operated.calls {qs : List Request} {replies : List (Except Status Response)}
    (h : Operated E settings P recovers c) (hcalls : c.calls E qs = .ok (replies, c')) :
    Operated E settings P recovers c' :=
  Controller.calls_rule (fun _ _ _ _ h _ hcall => h.call hcall) h
    (Controller.along_of (fun _ _ => trivial) c) hcalls

/-- A row of the table `asset`. -/
def assetRow (id : String) (precision : ℕ) : AssetDesc :=
  { id, symbol := id, name := id, precisionStor := precision, precisionShow := precision,
    createTime := some 1 }

end Dingir
