import Dingir.Proof.Reload

/-!
# What a reload misses

Beside its controller a `Setup` has the two tables, and rows come in while it runs.
A row is missed when the mark reaches its time before it is read: because it came in
within the second of the mark, because a query failed behind it, or because it is an
asset that came in between the two queries and a market of that time was read.

`Setup.Safe` rules these three out. **In runs of safe steps every row is settled or
newer than the mark** (`Setup.Covered`), so a reload after the last insertion finds
all that is left (`Setup.reload_complete`). Without it a row of the same second is
never found (`not_reload_complete`).
-/

namespace Dingir

open Keyed Outcome

variable {E : Env} {settings : Settings} {c c' : Controller} {m m' : Market} {s s' : Setup}
  {conf : MarketConf} {am am' : AssetManager}

/-! ## The mark -/

theorem newerThan_iff {mark : Timestamp} {time : Option Timestamp} :
    newerThan mark time = true ↔ ∃ t, time = some t ∧ mark < t := by
  cases time <;> simp [newerThan]

/-- A mark that passes a row takes its time. -/
theorem advance_some (mark t : Timestamp) : advance mark (some t) = max mark t := by
  unfold advance
  by_cases h : mark < t
  · simp [h, h.le]
  · simp [h, not_lt.1 h]

theorem le_advance (mark : Timestamp) (time : Option Timestamp) : mark ≤ advance mark time := by
  cases time with
  | none => exact le_rfl
  | some t =>
    rw [advance_some]
    exact le_max_left _ _

theorem le_advances (times : List (Option Timestamp)) (mark : Timestamp) :
    mark ≤ times.foldl advance mark := by
  induction times generalizing mark with
  | nil => exact le_rfl
  | cons time times ih => exact (le_advance mark time).trans (ih _)

/-- The mark reaches every row it passes. -/
theorem mem_le_advances {times : List (Option Timestamp)} {mark u : Timestamp}
    (hu : some u ∈ times) : u ≤ times.foldl advance mark := by
  induction times generalizing mark with
  | nil => simp at hu
  | cons time times ih =>
    rcases List.mem_cons.1 hu with rfl | hu
    · refine le_trans ?_ (le_advances times _)
      rw [advance_some]
      exact le_max_right _ _
    · exact ih hu

/-- The mark stays before what is later than all rows it passes. -/
theorem advances_lt {times : List (Option Timestamp)} {mark t : Timestamp} (hmark : mark < t)
    (htimes : ∀ u, some u ∈ times → u < t) : times.foldl advance mark < t := by
  induction times generalizing mark with
  | nil => exact hmark
  | cons time times ih =>
    refine ih ?_ fun u hu => htimes u (List.mem_cons_of_mem _ hu)
    cases time with
    | none => exact hmark
    | some u =>
      rw [advance_some]
      exact max_lt hmark (htimes u (by simp))

/-! ## Markets of the table -/

/-- A market has what its entry says. -/
structure Market.Of (m : Market) (conf : MarketConf) : Prop where
  name : m.name = conf.name
  base : m.base = conf.base
  quote : m.quote = conf.quote
  amountPrec : m.amountPrec = conf.amountPrec
  pricePrec : m.pricePrec = conf.pricePrec
  feePrec : m.feePrec = conf.feePrec
  minAmount : m.minAmount = conf.minAmount

theorem Market.Created.of (h : m.Created conf settings am) : m.Of conf :=
  ⟨h.name, h.base, h.quote, h.amountPrec, h.pricePrec, h.feePrec, h.minAmount⟩

theorem Market.Of.of_terms (h : m.Of conf) (ht : m.SameTerms m') : m'.Of conf :=
  ⟨ht.name.trans h.name, ht.base.trans h.base, ht.quote.trans h.quote,
    ht.amountPrec.trans h.amountPrec,
    ht.pricePrec.trans h.pricePrec, ht.feePrec.trans h.feePrec, ht.minAmount.trans h.minAmount⟩

/-- A market of two known assets is refused for its precisions only. -/
theorem Market.new_error {bm : BalanceManager} {e : String} {p q : ℕ}
    (hbase : bm.assetManager.assetPrec conf.base = .ok p)
    (hquote : bm.assetManager.assetPrec conf.quote = .ok q)
    (h : Market.new conf settings bm = .ok (.error e)) :
    p < conf.amountPrec ∨ q < conf.amountPrec + conf.pricePrec := by
  have hexist : ∀ {id p}, bm.assetManager.assetPrec id = .ok p →
      bm.assetManager.assetExist id = true := by
    intro id p hp
    obtain ⟨info, hinfo, -⟩ := AssetManager.assetPrec_ok.1 hp
    exact AssetManager.assetExist_iff.2 ⟨info, hinfo⟩
  unfold Market.new at h
  rw [if_neg (by rw [hexist hbase, hexist hquote]; simp)] at h
  simp only [bind_ok] at h
  obtain ⟨p', hp, q', hq, h⟩ := h
  obtain rfl := Except.ok.inj (hbase.symm.trans hp)
  obtain rfl := Except.ok.inj (hquote.symm.trans hq)
  split at h
  · rename_i hprec
    simpa only [Bool.or_eq_true, decide_eq_true_eq] using hprec
  · simp [pure, Except.pure] at h

/-- **What adding the entries `l` leaves behind.** -/
structure Controller.Added (c : Controller) (l : List MarketConf) (c' : Controller) : Prop where
  settings : c'.settings = c.settings
  balances : c'.balanceManager = c.balanceManager
  kept : ∀ name m, c.markets.find? name = some m → c'.markets.find? name = some m
  origin : ∀ name m, c'.markets.find? name = some m → c.markets.find? name = some m ∨
    ∃ conf ∈ l, conf.name = name ∧ m.Of conf
  settled : ∀ conf ∈ l, (c'.markets.find? conf.name).isSome ∨
    ∃ e, Market.new conf c.settings c.balanceManager = .ok (.error e)

theorem Controller.Added.snoc {l : List MarketConf} {d : Controller} (h : c.Added l c')
    (hadd : c'.addMarket conf = .ok d) : c.Added (l ++ [conf]) d := by
  rcases addMarket_cases hadd with ⟨rfl, hwhy⟩ | ⟨m, hfree, hnew, rfl⟩
  · refine ⟨h.settings, h.balances, h.kept, fun name m hm => ?_, fun entry hentry => ?_⟩
    · exact (h.origin name m hm).imp id fun ⟨entry, hentry, hrest⟩ =>
        ⟨entry, by simp [hentry], hrest⟩
    · rcases List.mem_append.1 hentry with hold | hlast
      · exact h.settled entry hold
      · obtain rfl := List.mem_singleton.1 hlast
        rw [h.settings, h.balances] at hwhy
        exact hwhy
  · have hcreated := Market.new_ok hnew
    have hfind : ∀ name, HashMap.find? (c'.markets.insert conf.name m) name =
        if name = conf.name then some m else c'.markets.find? name :=
          fun name => find?_insert _ _ _ _
    refine ⟨h.settings, h.balances, fun name m' hm' => ?_, fun name m' hm' => ?_,
      fun entry hentry => ?_⟩
    · have hold := h.kept name m' hm'
      rw [hfind, if_neg]
      · exact hold
      · rintro rfl
        simp [hfree] at hold
    · rw [hfind] at hm'
      by_cases hname : name = conf.name
      · rw [if_pos hname] at hm'
        obtain rfl := Option.some.inj hm'
        exact .inr ⟨conf, by simp, hname.symm, hcreated.of⟩
      · rw [if_neg hname] at hm'
        exact (h.origin name m' hm').imp id fun ⟨entry, hentry, hrest⟩ =>
          ⟨entry, by simp [hentry], hrest⟩
    · rw [hfind]
      by_cases hname : entry.name = conf.name
      · rw [if_pos hname]
        exact .inl rfl
      · rw [if_neg hname]
        rcases List.mem_append.1 hentry with hold | hlast
        · exact h.settled entry hold
        · exact absurd (congrArg MarketConf.name (List.mem_singleton.1 hlast)) hname

theorem Controller.addMarkets_added {l : List MarketConf}
    (h : l.foldlM Controller.addMarket c = .ok c') : c.Added l c' := by
  induction l using List.reverseRecOn generalizing c' with
  | nil =>
    rw [List.foldlM_nil, pure_ok] at h
    subst h
    exact ⟨rfl, rfl, fun _ _ hm => hm, fun _ _ hm => .inl hm, by simp⟩
  | append_singleton l conf ih =>
    rw [List.foldlM_append, bind_ok] at h
    obtain ⟨d, hd, h⟩ := h
    simp only [List.foldlM_cons, List.foldlM_nil, bind_pure] at h
    exact (ih hd).snoc h

/-- A new controller has a market for every entry of its settings, each under its name. -/
theorem createController_markets (h : createController settings = .ok c) :
    (∀ conf ∈ settings.markets, (c.markets.find? conf.name).isSome) ∧
      ∀ name m, c.markets.find? name = some m → ∃ conf ∈ settings.markets, conf.name = name ∧
        m.Of conf := by
  constructor
  · simp only [createController, bind_ok, pure_ok] at h
    obtain ⟨bm, -, ⟨markets, names⟩, hloop, rfl⟩ := h
    suffices hall : ∀ (l : List MarketConf) s, l.foldlM (createMarket settings bm) (∅, ∅) = .ok s →
        ∀ conf ∈ l, (s.1.find? conf.name).isSome from
      hall _ _ hloop
    intro l
    induction l using List.reverseRecOn with
    | nil => simp
    | append_singleton l conf ih =>
      intro s hs entry hentry
      rw [List.foldlM_append, bind_ok] at hs
      obtain ⟨t, ht, hs⟩ := hs
      simp only [List.foldlM_cons, List.foldlM_nil, bind_pure, createMarket] at hs
      obtain ⟨r, hr, hs⟩ := bind_ok.1 hs
      cases r with
      | error e => exact absurd hs throw_ok
      | ok market =>
        simp only [pure_ok] at hs
        subst hs
        rw [find?_insert]
        by_cases hname : entry.name = conf.name
        · rw [if_pos hname]
          rfl
        · rw [if_neg hname]
          rcases List.mem_append.1 hentry with hold | hlast
          · exact ih t ht entry hold
          · exact absurd (congrArg MarketConf.name (List.mem_singleton.1 hlast)) hname
  · obtain ⟨hok, -, hcreated⟩ := createController_ok h
    intro name m hm
    obtain ⟨conf, hconf, hcr⟩ := hcreated name m hm
    exact ⟨conf, hconf, hcr.name.symm.trans (hok.desk name m hm).1, hcr.of⟩

/-! ## What is settled -/

namespace Setup

/-- The mark of both queries. -/
def mark (s : Setup) : Timestamp := s.marketLoadCfg.marketLoadTime

/-- The asset manager has an asset as its row says. -/
def Knows (s : Setup) (row : AssetDesc) : Prop :=
  ∃ info, s.controller.balanceManager.assetManager.assetGet row.id = some info ∧
    info.precSave = row.precisionStor ∧
    info.precShow = row.precisionShow

/-- The precisions of a market are within those of its assets, as the rows have them. -/
def Fits (s : Setup) (row : MarketDesc) : Prop :=
  ∀ asset ∈ s.assetTable, (asset.id = row.baseAsset → row.precisionAmount ≤ asset.precisionStor) ∧
    (asset.id = row.quoteAsset → row.precisionAmount + row.precisionPrice ≤ asset.precisionStor)

/-- There is a market under the name of a row, or there can be none. -/
def Settled (s : Setup) (row : MarketDesc) : Prop :=
  (s.controller.markets.find? (MarketConf.fromDesc row).name).isSome ∨ ¬ s.Fits row

/-- The name of a row is taken: by a market of the configuration file or by another row. -/
def Taken (s : Setup) (row : MarketDesc) : Prop :=
  (MarketConf.fromDesc row).name ∈ s.fileMarkets ∨
    ∃ other ∈ s.marketTable, other ≠ row ∧
      (MarketConf.fromDesc other).name = (MarketConf.fromDesc row).name

/-- **Nothing is missing**: every asset of the table is known, and every market of the table that
can be created is there, unless its name was taken. -/
structure Complete (s : Setup) : Prop where
  assets : ∀ row ∈ s.assetTable, s.Knows row
  markets : ∀ row ∈ s.marketTable,
    (∃ m, Market.new (MarketConf.fromDesc row) s.controller.settings s.controller.balanceManager =
      .ok (.ok m)) →
    ¬ s.Taken row → ∃ m, s.controller.markets.find? (MarketConf.fromDesc row).name = some m ∧
    m.Of (MarketConf.fromDesc row)

/-- Rows come in. -/
def Inserts : SetupAction → Prop
  | .insertAsset _ | .insertMarket _ => True
  | _ => False

/-- Every row is settled, or newer than the mark and so still to be read. -/
structure Covered (s : Setup) : Prop where
  tables : TablesOK s.assetTable s.marketTable s.clock
  mark : 0 ≤ s.mark
  assets : ∀ row ∈ s.assetTable, s.Knows row ∨ newerThan s.mark row.createTime = true
  markets : ∀ row ∈ s.marketTable, s.Settled row ∨ newerThan s.mark row.createTime = true
  origin : ∀ name m, s.controller.markets.find? name = some m → name ∈ s.fileMarkets ∨
    ∃ row ∈ s.marketTable, (MarketConf.fromDesc row).name = name ∧ m.Of (MarketConf.fromDesc row)

/-- **A step that misses nothing.** A row comes in after the second of the mark. A query for markets
that fails has read no row, and no asset that is not known yet is as old as a market it has read. -/
def Safe (s : Setup) : SetupAction → Prop
  | .insertAsset _ | .insertMarket _ => s.mark < s.clock
  | .loadMarkets fetch => (fetch.error ≠ none → fetch.rows = []) ∧
      ∀ asset ∈ s.assetTable, ¬ s.Knows asset → ∀ row ∈ fetch.rows, ∀ t u,
        asset.createTime = some t →
        row.createTime = some u → u < t
  | _ => True

/-! ## The tables -/

theorem refers_of_refersTo {assets : List AssetDesc} {row : MarketDesc}
    (h : refersTo assets row = true) :
    ∀ id ∈ [row.baseAsset, row.quoteAsset], ∃ a ∈ assets, a.id = id := by
  unfold refersTo at h
  simp only [Bool.and_eq_true, List.any_eq_true, decide_eq_true_eq] at h
  intro id hid
  rcases List.mem_cons.1 hid with rfl | hid
  · exact h.1
  · obtain rfl := List.mem_singleton.1 hid
    exact h.2

/-- Two rows of one asset are the same row. -/
theorem TablesOK.unique {assets : List AssetDesc} {markets : List MarketDesc} {clock : Timestamp}
    (h : TablesOK assets markets clock) {a b : AssetDesc} (ha : a ∈ assets) (hb : b ∈ assets)
    (hid : a.id = b.id) : a = b :=
  List.inj_on_of_nodup_map h.assetIds ha hb hid

theorem TablesOK.tick {assets : List AssetDesc} {markets : List MarketDesc}
    {clock clock' : Timestamp} (h : TablesOK assets markets clock) (hclock : clock ≤ clock') :
    TablesOK assets markets clock' := by
  refine ⟨h.assetIds, fun row hrow => ?_, fun row hrow => ?_, h.refers⟩
  · obtain ⟨t, ht, hpos, hle⟩ := h.assetTime row hrow
    exact ⟨t, ht, hpos, hle.trans hclock⟩
  · obtain ⟨t, ht, hpos, hle⟩ := h.marketTime row hrow
    exact ⟨t, ht, hpos, hle.trans hclock⟩

theorem TablesOK.insertAsset {assets : List AssetDesc} {markets : List MarketDesc}
    {clock : Timestamp} {row : AssetDesc} (h : TablesOK assets markets clock) (hclock : 0 < clock)
    (hid : ∀ r ∈ assets, r.id ≠ row.id) (htime : row.createTime = some clock) :
    TablesOK (assets ++ [row]) markets clock := by
  refine ⟨?_, fun r hr => ?_, h.marketTime, fun r hr id hin => ?_⟩
  · rw [List.map_append, List.nodup_append]
    refine ⟨h.assetIds, by simp, fun a ha b hb => ?_⟩
    obtain ⟨r, hr, rfl⟩ := List.mem_map.1 ha
    obtain rfl : b = row.id := by simpa using hb
    exact hid r hr
  · rcases List.mem_append.1 hr with hold | hnew
    · exact h.assetTime r hold
    · obtain rfl := List.mem_singleton.1 hnew
      exact ⟨clock, htime, hclock, le_rfl⟩
  · obtain ⟨a, ha, hrest⟩ := h.refers r hr id hin
    exact ⟨a, List.mem_append_left _ ha, hrest⟩

theorem TablesOK.insertMarket {assets : List AssetDesc} {markets : List MarketDesc}
    {clock : Timestamp} {row : MarketDesc} (h : TablesOK assets markets clock) (hclock : 0 < clock)
    (hrefers : refersTo assets row = true) (htime : row.createTime = some clock) :
    TablesOK assets (markets ++ [row]) clock := by
  refine ⟨h.assetIds, h.assetTime, fun r hr => ?_, fun r hr id hin => ?_⟩
  · rcases List.mem_append.1 hr with hold | hnew
    · exact h.marketTime r hold
    · obtain rfl := List.mem_singleton.1 hnew
      exact ⟨clock, htime, hclock, le_rfl⟩
  · rcases List.mem_append.1 hr with hold | hnew
    · exact h.refers r hold id hin
    · obtain rfl := List.mem_singleton.1 hnew
      obtain ⟨a, ha, hid⟩ := refers_of_refersTo hrefers id hin
      obtain ⟨t, ht, -, hle⟩ := h.assetTime a ha
      refine ⟨a, ha, hid, fun s u hs hu => ?_⟩
      have hst : s = t := Option.some.inj (hs.symm.trans ht)
      have huc : u = clock := Option.some.inj (hu.symm.trans htime)
      rw [hst, huc]
      exact hle

/-! ## The steps -/

theorem returned_eq_some {α : Type} {x : Except Panic α} {a : α} :
    returned x = some a ↔ x = .ok a := by
  cases x <;> simp [returned]

/-- More assets and more markets leave a settled row settled. -/
theorem Settled.mono {row : MarketDesc} (h : s.Settled row)
    (hassets : ∀ a ∈ s.assetTable, a ∈ s'.assetTable)
    (hmarkets : ∀ name m, s.controller.markets.find? name = some m →
      (s'.controller.markets.find? name).isSome) :
    s'.Settled row := by
  rcases h with hthere | hnofit
  · obtain ⟨m, hm⟩ := Option.isSome_iff_exists.1 hthere
    exact .inl (hmarkets _ m hm)
  · exact .inr fun hfit => hnofit fun a ha => hfit a (hassets a ha)

/-- A row that has just come in is newer than the mark. -/
theorem Covered.insertAsset {row : AssetDesc} (h : s.Covered) (hsafe : s.mark < s.clock)
    (hstep : step E s (.insertAsset row) = some s') : s'.Covered := by
  simp only [step] at hstep
  split at hstep
  case isFalse => simp at hstep
  rename_i hfree
  obtain rfl := Option.some.inj hstep
  simp only [List.all_eq_true, decide_eq_true_eq] at hfree
  refine ⟨h.tables.insertAsset (h.mark.trans_lt hsafe) hfree rfl, h.mark, fun r hr => ?_,
    fun r hr => ?_, h.origin⟩
  · rcases List.mem_append.1 hr with hold | hnew
    · exact h.assets r hold
    · obtain rfl := List.mem_singleton.1 hnew
      exact .inr (newerThan_iff.2 ⟨s.clock, rfl, hsafe⟩)
  · refine (h.markets r hr).imp (fun hr => hr.mono (fun a ha => ?_) fun name m hm => ?_) id
    · exact List.mem_append_left _ ha
    · exact Option.isSome_iff_exists.2 ⟨m, hm⟩

theorem Covered.insertMarket {row : MarketDesc} (h : s.Covered) (hsafe : s.mark < s.clock)
    (hstep : step E s (.insertMarket row) = some s') : s'.Covered := by
  simp only [step] at hstep
  split at hstep
  case isFalse => simp at hstep
  rename_i hfree
  obtain rfl := Option.some.inj hstep
  have hrefers : refersTo s.assetTable row = true := (Bool.and_eq_true_iff.1 hfree).2
  refine ⟨h.tables.insertMarket (h.mark.trans_lt hsafe) hrefers rfl, h.mark, h.assets,
    fun r hr => ?_, fun name m hm => ?_⟩
  · rcases List.mem_append.1 hr with hold | hnew
    · exact h.markets r hold
    · obtain rfl := List.mem_singleton.1 hnew
      exact .inr (newerThan_iff.2 ⟨s.clock, rfl, hsafe⟩)
  · refine (h.origin name m hm).imp id ?_
    rintro ⟨r, hr, hrest⟩
    exact ⟨r, List.mem_append_left _ hr, hrest⟩

/-- What leaves the frame of the controller alone leaves the rows covered. -/
theorem Covered.framed (h : s.Covered) (hframe : s.controller.Framed c') :
    Covered { s with controller := c' } := by
  have hassets : c'.balanceManager.assetManager = s.controller.balanceManager.assetManager :=
    hframe.ctx.balances.assets
  have hkept : ∀ name m, s.controller.markets.find? name = some m →
      (c'.markets.find? name).isSome := by
    intro name m hm
    have hrel := hframe.markets name
    rw [hm] at hrel
    generalize c'.markets.find? name = a at hrel ⊢
    cases hrel with
    | some _ => rfl
  refine ⟨h.tables, h.mark, fun r hr => (h.assets r hr).imp (fun hknows => ?_) id,
    fun r hr => (h.markets r hr).imp (fun hsettled => hsettled.mono (fun _ ha => ha) hkept) id,
    fun name m' hm' => ?_⟩
  · unfold Knows at hknows ⊢
    rw [hassets]
    exact hknows
  · have hrel := hframe.markets name
    rw [hm'] at hrel
    generalize ha : s.controller.markets.find? name = a at hrel
    cases hrel with
    | @some m _ hm =>
      refine (h.origin name m ha).imp id ?_
      rintro ⟨r, hr, hname, hof⟩
      exact ⟨r, hr, hname, hof.of_terms hm.terms⟩

theorem call_step {q : Request} (hstep : step E s (.call q) = some s') :
    ∃ reply c', s.controller.call E q = .ok (reply, c') ∧ s' = { s with controller := c' } := by
  simp only [step] at hstep
  split at hstep
  · simp at hstep
  obtain ⟨⟨reply, c'⟩, hcall, rfl⟩ := Option.map_eq_some_iff.1 hstep
  exact ⟨reply, c', returned_eq_some.1 hcall, rfl⟩

/-- **The first query.** It leaves everything but the assets of the balance manager; when it
succeeds, every asset that was known or newer than the mark is known. -/
theorem loadAssets_step {fetch : Fetch AssetDesc} (htables : (s.assetTable.map AssetDesc.id).Nodup)
    (hstep : step E s (.loadAssets fetch) = some s') :
    s'.assetTable = s.assetTable ∧ s'.marketTable = s.marketTable ∧ s'.clock = s.clock ∧
    s'.fileMarkets = s.fileMarkets ∧
      s'.mark = s.mark ∧ s'.controller.markets = s.controller.markets ∧
      (∀ row ∈ s.assetTable, s.Knows row → s'.Knows row) ∧
      (fetch.error = none → ∀ row ∈ s.assetTable, newerThan s.mark row.createTime = true →
        s'.Knows row) := by
  simp only [step] at hstep
  split at hstep
  case isFalse => simp at hstep
  rename_i hfetch
  obtain ⟨⟨res, t⟩, ht, rfl⟩ := Option.map_eq_some_iff.1 hstep
  obtain ⟨hmark, hcases⟩ := Configured.loadAssets_cases (returned_eq_some.1 ht)
  rcases hcases with ⟨e, he, -, hc⟩ | ⟨he, -, am, ham, hc⟩
  · refine ⟨rfl, rfl, rfl, rfl, hmark, by rw [hc], fun row _ hknows => ?_,
      fun hno => by simp [he] at hno⟩
    unfold Knows
    rw [hc]
    exact hknows
  have hrows : fetch.rows.Perm (s.marketLoadCfg.selectAssets s.assetTable) := by
    have hof := hfetch.2
    unfold Fetch.Of at hof
    rwa [if_pos (by rw [he]; rfl)] at hof
  -- an entry comes from the row of its asset, or was there before
  have hentry : ∀ row ∈ s.assetTable, (s.Knows row ∨ newerThan s.mark row.createTime = true) →
      ∃ info, am.assetGet row.id = some info ∧ info.precSave = row.precisionStor ∧
        info.precShow = row.precisionShow := by
    intro row hrow hbefore
    rcases AssetManager.append_after ham row.id with ⟨hsame, hno⟩ |
      ⟨item, hitem, hid, info, hget, hof⟩
    · rcases hbefore with ⟨info, hinfo, hprec⟩ | hnewer
      · exact ⟨info, hsame.trans hinfo, hprec⟩
      · have hread : row ∈ fetch.rows := hrows.mem_iff.2 (List.mem_filter.2 ⟨hrow, hnewer⟩)
        exact absurd rfl (hno _ (List.mem_map_of_mem hread))
    · obtain ⟨row', hrow', rfl⟩ := List.mem_map.1 hitem
      have hin : row' ∈ s.assetTable := List.mem_of_mem_filter (hrows.mem_iff.1 hrow')
      obtain rfl : row' = row := List.inj_on_of_nodup_map htables hin hrow hid
      exact ⟨info, hget, hof.1, hof.2.1⟩
  refine ⟨rfl, rfl, rfl, rfl, hmark, by rw [hc]; rfl, fun row hrow hknows => ?_,
    fun _ row hrow hnewer => ?_⟩
  · unfold Knows
    rw [hc]
    exact hentry row hrow (.inl hknows)
  · unfold Knows
    rw [hc]
    exact hentry row hrow (.inr hnewer)

/-- **The second query.** It leaves everything but the mark, and when it succeeds the markets of its
rows are added. -/
theorem loadMarkets_step {fetch : Fetch MarketDesc}
    (hstep : step E s (.loadMarkets fetch) = some s') :
    s'.assetTable = s.assetTable ∧ s'.marketTable = s.marketTable ∧ s'.clock = s.clock ∧
    s'.fileMarkets = s.fileMarkets ∧
      s'.mark = (fetch.rows.map MarketDesc.createTime).foldl advance s.mark ∧
      ((fetch.error ≠ none ∧ s'.controller = s.controller) ∨ (fetch.error = none ∧
        fetch.rows.Perm (s.marketLoadCfg.selectMarkets s.marketTable) ∧
        s.controller.Added (fetch.rows.map MarketConf.fromDesc) s'.controller)) := by
  simp only [step] at hstep
  split at hstep
  case isFalse => simp at hstep
  rename_i hfetch
  obtain ⟨⟨res, t⟩, ht, rfl⟩ := Option.map_eq_some_iff.1 hstep
  obtain ⟨hmark, hcases⟩ := Configured.loadMarkets_cases (returned_eq_some.1 ht)
  refine ⟨rfl, rfl, rfl, rfl, hmark, ?_⟩
  rcases hcases with ⟨e, he, -, hc⟩ | ⟨he, -, hadd⟩
  · exact .inl ⟨by simp [he], hc⟩
  · have hof := hfetch.2
    unfold Fetch.Of at hof
    rw [if_pos (by rw [he]; rfl)] at hof
    exact .inr ⟨he, hof, Controller.addMarkets_added hadd⟩

/-- A market that was read with its assets known is settled. -/
theorem settled_of_added {l : List MarketConf} {row : MarketDesc}
    (htables : TablesOK s.assetTable s.marketTable s.clock) (hrow : row ∈ s.marketTable)
    (hin : MarketConf.fromDesc row ∈ l) (hadd : s.controller.Added l c')
    (hknown : ∀ a ∈ s.assetTable, a.id = row.baseAsset ∨ a.id = row.quoteAsset → s.Knows a) :
    (c'.markets.find? (MarketConf.fromDesc row).name).isSome ∨ ¬ s.Fits row := by
  rcases hadd.settled _ hin with hthere | ⟨e, hrefused⟩
  · exact .inl hthere
  refine .inr fun hfit => ?_
  obtain ⟨a, ha, hbase, -⟩ := htables.refers row hrow row.baseAsset (by simp)
  obtain ⟨b, hb, hquote, -⟩ := htables.refers row hrow row.quoteAsset (by simp)
  obtain ⟨info, hinfo, hprec, -⟩ := hknown a ha (.inl hbase)
  obtain ⟨info', hinfo', hprec', -⟩ := hknown b hb (.inr hquote)
  rw [hbase] at hinfo
  rw [hquote] at hinfo'
  have hp : s.controller.balanceManager.assetManager.assetPrec (MarketConf.fromDesc row).base =
      .ok a.precisionStor :=
    AssetManager.assetPrec_ok.2 ⟨info, hinfo, hprec⟩
  have hq : s.controller.balanceManager.assetManager.assetPrec (MarketConf.fromDesc row).quote =
      .ok b.precisionStor :=
    AssetManager.assetPrec_ok.2 ⟨info', hinfo', hprec'⟩
  have hrange := Market.new_error hp hq hrefused
  have hlow : row.precisionAmount ≤ a.precisionStor := (hfit a ha).1 hbase
  have hsum : row.precisionAmount + row.precisionPrice ≤ b.precisionStor := (hfit b hb).2 hquote
  rcases hrange with hlt | hlt
  · exact absurd hlow (not_le.2 hlt)
  · exact absurd hsum (not_le.2 hlt)

theorem Covered.loadAssets {fetch : Fetch AssetDesc} (h : s.Covered)
    (hstep : step E s (.loadAssets fetch) = some s') : s'.Covered := by
  obtain ⟨hat, hmt, hclock, hfile, hmark, hmarkets, hkeep, -⟩ :=
    loadAssets_step h.tables.assetIds hstep
  refine ⟨by rw [hat, hmt, hclock]; exact h.tables, by rw [hmark]; exact h.mark, fun r hr => ?_,
    fun r hr => ?_, ?_⟩
  · rw [hat] at hr
    rw [hmark]
    exact (h.assets r hr).imp (hkeep r hr) id
  · rw [hmt] at hr
    rw [hmark]
    refine (h.markets r hr).imp
      (fun hs => hs.mono (fun a ha => by rw [hat]; exact ha) fun name m hm => ?_) id
    rw [hmarkets, hm]
    rfl
  · rw [hmarkets, hfile, hmt]
    exact h.origin

/-- **The second query of a safe step settles what it reads** and moves the mark past nothing
else. -/
theorem Covered.loadMarkets {fetch : Fetch MarketDesc} (h : s.Covered)
    (hsafe : s.Safe (.loadMarkets fetch))
    (hstep : step E s (.loadMarkets fetch) = some s') : s'.Covered := by
  obtain ⟨hat, hmt, hclock, hfile, hmark, hcases⟩ := loadMarkets_step hstep
  have htables : TablesOK s'.assetTable s'.marketTable s'.clock := by
    rw [hat, hmt, hclock]
    exact h.tables
  rcases hcases with ⟨he, hc⟩ | ⟨-, hperm, hadd⟩
  · -- a query that failed has read nothing, so the mark has not moved
    rw [hsafe.1 he] at hmark
    have hsame : s'.mark = s.mark := hmark
    refine ⟨htables, hsame ▸ h.mark, fun r hr => ?_,
      fun r hr => ?_, by rw [hc, hfile, hmt]; exact h.origin⟩
    · rw [hat] at hr
      unfold Knows
      rw [hc, hsame]
      exact h.assets r hr
    · rw [hmt] at hr
      unfold Settled Fits
      rw [hc, hsame, hat]
      exact h.markets r hr
  have hle : s.mark ≤ s'.mark := by
    rw [hmark]
    exact le_advances _ _
  have hknows : ∀ a, s.Knows a → s'.Knows a := by
    intro a ha
    unfold Knows
    rw [hadd.balances]
    exact ha
  refine ⟨htables, h.mark.trans hle, fun a ha => ?_, fun row hrow => .inl ?_, fun name m hm => ?_⟩
  · rw [hat] at ha
    by_cases hknown : s.Knows a
    · exact .inl (hknows a hknown)
    -- an asset that is not known is later than the old mark and than all that was read
    obtain ⟨t, ht, hlt⟩ := newerThan_iff.1 ((h.assets a ha).resolve_left hknown)
    refine .inr (newerThan_iff.2 ⟨t, ht, ?_⟩)
    rw [hmark]
    refine advances_lt hlt fun u hu => ?_
    obtain ⟨row, hrow, htime⟩ := List.mem_map.1 hu
    exact hsafe.2 a ha hknown row hrow t u ht htime
  · rw [hmt] at hrow
    have hfits : s'.Fits row ↔ s.Fits row := by
      unfold Fits
      rw [hat]
    unfold Settled
    rw [hfits]
    rcases h.markets row hrow with (hthere | hnofit) | hnewer
    · obtain ⟨m, hm⟩ := Option.isSome_iff_exists.1 hthere
      exact .inl (Option.isSome_iff_exists.2 ⟨m, hadd.kept _ m hm⟩)
    · exact .inr hnofit
    · have hread : row ∈ fetch.rows := hperm.mem_iff.2 (List.mem_filter.2 ⟨hrow, hnewer⟩)
      refine settled_of_added h.tables hrow (List.mem_map_of_mem hread) hadd fun a ha hid => ?_
      -- a market is not older than its assets
      by_contra hunknown
      obtain ⟨t, ht, -⟩ := h.tables.assetTime a ha
      obtain ⟨u, hu, -⟩ := h.tables.marketTime row hrow
      have hlater : u < t := hsafe.2 a ha hunknown row hread t u ht hu
      obtain ⟨b, hb, hbid, hold⟩ := h.tables.refers row hrow a.id (by simpa using hid)
      obtain rfl : b = a := h.tables.unique hb ha hbid
      exact absurd (hold t u ht hu) (not_le.2 hlater)
  · rw [hfile, hmt]
    rcases hadd.origin name m hm with hold | ⟨conf, hconf, hname, hof⟩
    · exact h.origin name m hold
    · obtain ⟨row, hrow, rfl⟩ := List.mem_map.1 hconf
      exact .inr ⟨row, List.mem_of_mem_filter (hperm.mem_iff.1 hrow), hname, hof⟩

/-- **A safe step keeps every row covered.** -/
theorem Covered.kept {a : SetupAction} (h : s.Covered) (hsafe : s.Safe a)
    (hstep : step E s a = some s') : s'.Covered := by
  cases a with
  | tick clock =>
    simp only [step] at hstep
    split at hstep
    case isFalse => simp at hstep
    rename_i hclock
    obtain rfl := Option.some.inj hstep
    exact ⟨h.tables.tick hclock, h.mark, h.assets, h.markets, h.origin⟩
  | insertAsset row => exact h.insertAsset hsafe hstep
  | insertMarket row => exact h.insertMarket hsafe hstep
  | call q =>
    obtain ⟨reply, c', hcall, rfl⟩ := call_step hstep
    exact h.framed (Controller.call_framed hcall)
  | loadAssets fetch => exact h.loadAssets hstep
  | loadMarkets fetch => exact h.loadMarkets hsafe hstep

/-! ## The beginning -/

theorem initConfigFromDb_ok {config : Settings} {cfg : MarketConfigs} {assets : Fetch AssetDesc}
    {markets : Fetch MarketDesc}
    (h : initConfigFromDb settings assets markets = .ok (config, cfg)) :
    markets.error = none ∧ config.markets = markets.rows.map MarketConf.fromDesc ∧
      cfg.marketLoadTime = (markets.rows.map MarketDesc.createTime).foldl advance 0 := by
  unfold initConfigFromDb MarketConfigs.loadAssetFromDb MarketConfigs.loadMarketFromDb
    Fetch.into at h
  cases ha : assets.error with
  | some e => simp [ha, bind, Except.bind] at h
  | none =>
    cases hm : markets.error with
    | some e => simp [ha, hm, bind, Except.bind] at h
    | none =>
      simp only [ha, hm, bind_ok, pure_ok, Prod.mk.injEq] at h
      obtain ⟨_, -, l, hl, rfl, rfl⟩ := h
      exact ⟨rfl, (Except.ok.inj hl).symm, rfl⟩

/-- **In a setup to begin with every market is covered**, and the assets are where they were all
read. -/
theorem Start.covered (h : Start settings s)
    (hread : ∀ row ∈ s.assetTable, s.Knows row ∨ newerThan s.mark row.createTime = true) :
    s.Covered := by
  cases h with
  | fromFile hc htables =>
    refine ⟨htables, le_rfl, hread, fun row hrow => .inr ?_, fun name m hm => .inl ?_⟩
    · obtain ⟨t, ht, hpos, -⟩ := htables.marketTime row hrow
      exact newerThan_iff.2 ⟨t, ht, hpos⟩
    · obtain ⟨conf, hconf, rfl, -⟩ := (createController_markets hc).2 name m hm
      exact List.mem_map_of_mem hconf
  | @fromDb c cfg config old assets markets assetFetch marketFetch clock hold htables hassets
      hmarkets hinit hc =>
    obtain ⟨herror, hconfig, hmark⟩ := initConfigFromDb_ok hinit
    obtain ⟨hthere, horigin⟩ := createController_markets hc
    have hperm : marketFetch.rows.Perm (MarketConfigs.new.selectMarkets markets) := by
      unfold Fetch.Of at hmarkets
      rwa [if_pos (by rw [herror]; rfl)] at hmarkets
    refine ⟨htables, ?_, hread, fun row hrow => .inl (.inl ?_), fun name m hm => .inr ?_⟩
    · show 0 ≤ cfg.marketLoadTime
      rw [hmark]
      exact le_advances _ _
    · obtain ⟨t, ht, hpos, -⟩ := htables.marketTime row hrow
      have hin : row ∈ marketFetch.rows :=
        hperm.mem_iff.2 (List.mem_filter.2 ⟨hrow, newerThan_iff.2 ⟨t, ht, hpos⟩⟩)
      exact hthere _ (hconfig ▸ List.mem_map_of_mem hin)
    · obtain ⟨conf, hconf, hname, hof⟩ := horigin name m hm
      rw [hconfig] at hconf
      obtain ⟨row, hrow, rfl⟩ := List.mem_map.1 hconf
      exact ⟨row, List.mem_of_mem_filter (hperm.mem_iff.1 hrow), hname, hof⟩

/-! ## After the last insertion -/

/-- Every asset is known, and no market is left to be read. -/
structure Read (s : Setup) : Prop where
  covered : s.Covered
  assets : ∀ row ∈ s.assetTable, s.Knows row
  markets : ∀ row ∈ s.marketTable, newerThan s.mark row.createTime = false

theorem Read.complete (h : s.Read) : s.Complete := by
  refine ⟨h.assets, fun row hrow hnew hfree => ?_⟩
  obtain ⟨m₀, hnew⟩ := hnew
  have hcreated := Market.new_ok hnew
  have hfits : s.Fits row := by
    intro a ha
    obtain ⟨info, hinfo, hprec, -⟩ := h.assets a ha
    have hsave : s.controller.balanceManager.assetManager.assetPrec a.id = .ok a.precisionStor :=
      AssetManager.assetPrec_ok.2 ⟨info, hinfo, hprec⟩
    refine ⟨fun hbase => ?_, fun hquote => ?_⟩
    · have hp := hcreated.prec.base
      rw [hcreated.base, show (MarketConf.fromDesc row).base = a.id from hbase.symm, hsave] at hp
      have hle := hcreated.prec.amount_le
      rw [← Except.ok.inj hp, hcreated.amountPrec] at hle
      exact hle
    · have hp := hcreated.prec.quote
      rw [hcreated.quote, show (MarketConf.fromDesc row).quote = a.id from hquote.symm, hsave] at hp
      have hle := hcreated.prec.sum_le
      rw [← Except.ok.inj hp, hcreated.amountPrec, hcreated.pricePrec] at hle
      exact hle
  have hsettled : s.Settled row :=
    (h.covered.markets row hrow).resolve_right (by rw [h.markets row hrow]; simp)
  obtain ⟨m, hm⟩ := Option.isSome_iff_exists.1 (hsettled.resolve_right (not_not.2 hfits))
  refine ⟨m, hm, ?_⟩
  rcases h.covered.origin _ m hm with hfile | ⟨other, hother, hname, hof⟩
  · exact absurd (.inl hfile) hfree
  · by_cases hsame : other = row
    · exact hsame ▸ hof
    · exact absurd (.inr ⟨other, hother, hsame, hname⟩) hfree

/-- A step without insertions leaves the tables as they are, never lowers the mark, and forgets no
asset. -/
theorem step_quiet {a : SetupAction} (h : s.Covered) (hquiet : ¬ Inserts a)
    (hstep : step E s a = some s') :
    s'.assetTable = s.assetTable ∧ s'.marketTable = s.marketTable ∧ s.mark ≤ s'.mark ∧
      ∀ row ∈ s.assetTable, s.Knows row → s'.Knows row := by
  cases a with
  | tick clock =>
    simp only [step] at hstep
    split at hstep
    case isFalse => simp at hstep
    obtain rfl := Option.some.inj hstep
    exact ⟨rfl, rfl, le_rfl, fun _ _ hknows => hknows⟩
  | insertAsset row => exact absurd trivial hquiet
  | insertMarket row => exact absurd trivial hquiet
  | call q =>
    obtain ⟨reply, c', hcall, rfl⟩ := call_step hstep
    refine ⟨rfl, rfl, le_rfl, fun row _ hknows => ?_⟩
    unfold Knows
    rw [show c'.balanceManager.assetManager =
      _ from (Controller.call_framed hcall).ctx.balances.assets]
    exact hknows
  | loadAssets fetch =>
    obtain ⟨hat, hmt, -, -, hmark, -, hkeep, -⟩ := loadAssets_step h.tables.assetIds hstep
    exact ⟨hat, hmt, hmark.ge, hkeep⟩
  | loadMarkets fetch =>
    obtain ⟨hat, hmt, -, -, hmark, hcases⟩ := loadMarkets_step hstep
    refine ⟨hat, hmt, by rw [hmark]; exact le_advances _ _, fun row _ hknows => ?_⟩
    unfold Knows
    rcases hcases with ⟨-, hc⟩ | ⟨-, -, hadd⟩
    · rw [hc]
      exact hknows
    · rw [hadd.balances]
      exact hknows

theorem newerThan_mono {mark mark' : Timestamp} {time : Option Timestamp} (hle : mark ≤ mark')
    (h : newerThan mark' time = true) : newerThan mark time = true := by
  obtain ⟨t, ht, hlt⟩ := newerThan_iff.1 h
  exact newerThan_iff.2 ⟨t, ht, hle.trans_lt hlt⟩

/-- Where nothing is left to be read, every step without insertions is safe. -/
theorem Read.safe {a : SetupAction} (h : s.Read) (hquiet : ¬ Inserts a)
    (hstep : step E s a = some s') : s.Safe a := by
  cases a with
  | tick clock => trivial
  | insertAsset row => exact absurd trivial hquiet
  | insertMarket row => exact absurd trivial hquiet
  | call q => trivial
  | loadAssets fetch => trivial
  | loadMarkets fetch =>
    refine ⟨fun herror => ?_, fun a ha hunknown => absurd (h.assets a ha) hunknown⟩
    simp only [step] at hstep
    split at hstep
    case isFalse => simp at hstep
    rename_i hfetch
    have hof := hfetch.2
    unfold Fetch.Of at hof
    rw [if_neg (by simpa using herror)] at hof
    -- no market is newer than the mark
    have hnone : s.marketLoadCfg.selectMarkets s.marketTable = [] := by
      refine List.filter_eq_nil_iff.2 fun row hrow => ?_
      rw [show newerThan s.marketLoadCfg.marketLoadTime row.createTime =
        false from h.markets row hrow]
      simp
    rw [hnone] at hof
    exact List.subperm_nil.1 hof

theorem Read.kept {a : SetupAction} (h : s.Read) (hquiet : ¬ Inserts a)
    (hstep : step E s a = some s') : s'.Read := by
  obtain ⟨hat, hmt, hmark, hkeep⟩ := step_quiet h.covered hquiet hstep
  refine ⟨h.covered.kept (h.safe hquiet hstep) hstep, fun row hrow => ?_, fun row hrow => ?_⟩
  · rw [hat] at hrow
    exact hkeep row hrow (h.assets row hrow)
  · rw [hmt] at hrow
    by_contra hnewer
    have hold := newerThan_mono hmark (by simpa using hnewer)
    rw [h.markets row hrow] at hold
    simp at hold

/-- **A reload that succeeds reads all there is**, when every asset is known before its second
query. -/
theorem Covered.read {fetch : Fetch MarketDesc} (h : s.Covered)
    (hassets : ∀ row ∈ s.assetTable, s.Knows row) (hok : fetch.error = none)
    (hstep : step E s (.loadMarkets fetch) = some s') : s'.Read := by
  have hsafe : s.Safe (.loadMarkets fetch) :=
    ⟨fun herror => absurd hok herror, fun a ha hunknown => absurd (hassets a ha) hunknown⟩
  obtain ⟨hat, hmt, hmark, hkeep⟩ := step_quiet h (a := .loadMarkets fetch) id hstep
  refine ⟨h.loadMarkets hsafe hstep, fun row hrow => ?_, fun row hrow => ?_⟩
  · rw [hat] at hrow
    exact hkeep row hrow (hassets row hrow)
  · rw [hmt] at hrow
    by_contra hnewer
    have hnewer : newerThan s'.mark row.createTime = true := by simpa using hnewer
    obtain ⟨-, -, -, -, hadvance, hcases⟩ := loadMarkets_step hstep
    rcases hcases with ⟨herror, -⟩ | ⟨-, hperm, -⟩
    · exact herror hok
    -- a row that was newer has been read, and the mark has reached it
    have hread : row ∈ fetch.rows :=
      hperm.mem_iff.2 (List.mem_filter.2 ⟨hrow, newerThan_mono hmark hnewer⟩)
    obtain ⟨t, ht, hlt⟩ := newerThan_iff.1 hnewer
    have hle : t ≤ s'.mark := by
      rw [hadvance]
      exact mem_le_advances (ht ▸ List.mem_map_of_mem hread)
    exact absurd hle (not_le.2 hlt)

open Guarded in
/-- **Reloading is complete in runs of safe steps**: after a reload that starts when the last row
has come in and succeeds, nothing is missing, whatever else is done. -/
theorem reload_complete {s₀ s₁ s₂ s₃ : Setup} {assets : Fetch AssetDesc}
    {markets : Fetch MarketDesc} (hstart : Start settings s₀)
    (hread : ∀ row ∈ s₀.assetTable, s₀.Knows row ∨ newerThan s₀.mark row.createTime = true)
    (hruns : Runs (step E) Safe s₀ s) (hassets : step E s (.loadAssets assets) = some s₁)
    (hfirst : assets.error = none)
    (hwait : Runs (step E) (fun _ a => ∃ clock, a = .tick clock) s₁ s₂)
    (hmarkets : step E s₂ (.loadMarkets markets) = some s₃) (hsecond : markets.error = none)
    (hafter : Runs (step E) (fun _ a => ¬ Inserts a) s₃ s') : s'.Complete := by
  have hcovered : s.Covered :=
    hruns.rule (fun _ _ _ h hsafe hstep => h.kept hsafe hstep) (hstart.covered hread)
  obtain ⟨hat, -, -, -, -, -, hkeep, hnew⟩ := loadAssets_step hcovered.tables.assetIds hassets
  have hknown : ∀ row ∈ s₁.assetTable, s₁.Knows row := by
    intro row hrow
    rw [hat] at hrow
    exact (hcovered.assets row hrow).elim (hkeep row hrow) (hnew hfirst row hrow)
  -- the clock may go on between the two queries
  have hboth : s₂.Covered ∧ ∀ row ∈ s₂.assetTable, s₂.Knows row := by
    refine hwait.rule (I := fun t => t.Covered ∧ ∀ row ∈ t.assetTable,
      t.Knows row) ?_ ⟨hcovered.loadAssets hassets, hknown⟩
    rintro t a t' ⟨ht, hall⟩ ⟨clock, rfl⟩ hstep
    obtain ⟨hat, -, -, hkeep⟩ := step_quiet ht (a := .tick clock) id hstep
    exact ⟨ht.kept (a := .tick clock) trivial hstep,
      fun row hrow => hkeep row (hat ▸ hrow) (hall row (hat ▸ hrow))⟩
  have hdone : s₃.Read := hboth.1.read hboth.2 hsecond hmarkets
  exact (hafter.rule (fun _ _ _ h hquiet hstep => h.kept hquiet hstep) hdone).complete

/-- The settings of an exchange that has everything in its tables. -/
def tableSettings : Settings := { sampleSettings with assets := [], markets := [] }

/-- A new exchange beside tables with two assets. -/
def ofTables (c : Controller) : Setup :=
  { controller := c, marketLoadCfg := .new, assetTable := [assetRow "ETH" 6, assetRow "USDT" 6],
    marketTable := [], clock := 2,
    reloading := false, fileMarkets := [] }

/-- A row of the table `market`, as it is inserted. -/
def marketRow : MarketDesc :=
  { createTime := none, baseAsset := "ETH", quoteAsset := "USDT", precisionAmount := 4,
    precisionPrice := 2, precisionFee := 2,
    minAmount := 1 / 1000, marketName := none }

theorem ofTables_start (h : createController tableSettings = .ok c) :
    Start tableSettings (ofTables c) := by
  refine .fromFile h ⟨by decide,
    fun row hrow => ⟨1, ?_, by norm_num, by norm_num⟩, by simp, by simp⟩
  simp only [List.mem_cons, List.not_mem_nil, or_false] at hrow
  rcases hrow with rfl | rfl <;> rfl

/-- A market comes in, and the next reload has it. -/
theorem reload_complete_sample : ∃ s' : Setup, s'.Complete ∧ s'.marketTable.length = 1 ∧
    (s'.controller.markets.find? "ETH_USDT").isSome := by
  have h : (returned (createController tableSettings) >>= fun c =>
      step releaseEnv (ofTables c) (.insertMarket marketRow) >>= fun s =>
      step releaseEnv s (.loadAssets ⟨[assetRow "ETH" 6, assetRow "USDT" 6], none⟩) >>= fun s₁ =>
      step releaseEnv s₁ (.loadMarkets ⟨[{ marketRow with createTime := some 2 }], none⟩) >>=
        fun s₂ =>
      pure (s₂.marketTable.length, (s₂.controller.markets.find? "ETH_USDT").isSome)) = some (1,
        true) := by decide +kernel
  simp only [Option.bind_eq_bind, Option.bind_eq_some_iff, Option.pure_def, Option.some.injEq,
    Prod.mk.injEq] at h
  obtain ⟨c, hc, s, hs, s₁, hs₁, s₂, hs₂, hlength, hthere⟩ := h
  have hstart := ofTables_start (returned_eq_some.1 hc)
  refine ⟨s₂, ?_, hlength, hthere⟩
  refine reload_complete hstart (fun row hrow => .inr ?_) (.one ?_ hs) hs₁ rfl .start hs₂ rfl .start
  · have htime : row.createTime = some 1 := by
      simp only [ofTables, List.mem_cons, List.not_mem_nil, or_false] at hrow
      rcases hrow with rfl | rfl <;> rfl
    exact newerThan_iff.2 ⟨1, htime, by norm_num [ofTables, mark, MarketConfigs.new]⟩
  · show (0 : Timestamp) < 2
    norm_num

/-- An asset that comes in within the second of the last market is never found. -/
theorem not_reload_complete : ¬ ∀ E settings s₀ s s₁ s₂ assets markets, Start settings s₀ →
    Guarded.Runs (step E) (fun _ _ => True) s₀ s → step E s (.loadAssets assets) = some s₁ →
    assets.error = none →
    step E s₁ (.loadMarkets markets) = some s₂ → markets.error = none → s₂.Complete := by
  intro hall
  have h : (returned (createController tableSettings) >>= fun c =>
      Guarded.follow (step releaseEnv) (ofTables c)
        [.insertMarket marketRow, .loadAssets ⟨[assetRow "ETH" 6, assetRow "USDT" 6], none⟩,
          .loadMarkets ⟨[{ marketRow with createTime := some 2 }], none⟩,
          .insertAsset (assetRow "BTC" 6)] >>= fun s =>
      step releaseEnv s (.loadAssets ⟨[], none⟩) >>= fun s₁ =>
      step releaseEnv s₁ (.loadMarkets ⟨[], none⟩) >>= fun s₂ =>
      pure (s₂.assetTable, s₂.controller.balanceManager.assetManager.assetExist "BTC")) =
      some ([assetRow "ETH" 6, assetRow "USDT" 6, { assetRow "BTC" 6 with createTime := some 2 }],
        false) := by
    decide +kernel
  simp only [Option.bind_eq_bind, Option.bind_eq_some_iff, Option.pure_def, Option.some.injEq,
    Prod.mk.injEq] at h
  obtain ⟨c, hc, s, hs, s₁, hs₁, s₂, hs₂, htable, hunknown⟩ := h
  have hruns := Guarded.follow_runs (P := fun _ _ => True) (fun _ _ _ => trivial) hs
  have hcomplete :=
    hall _ _ _ _ _ _ _ _ (ofTables_start (returned_eq_some.1 hc)) hruns hs₁ rfl hs₂ rfl
  obtain ⟨info, hinfo, -⟩ :=
    hcomplete.assets { assetRow "BTC" 6 with createTime := some 2 } (by rw [htable]; simp)
  have hexist := AssetManager.assetExist_iff.2 ⟨info, hinfo⟩
  rw [show AssetDesc.id _ = "BTC" from rfl, hunknown] at hexist
  simp at hexist

end Setup

end Dingir
