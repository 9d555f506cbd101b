import Dingir.Spec.Symbols

/-!
# Which names of a market resolve to it

A text is tried as a pair of assets first, so it finds what it `Spells`, whoever is
named by it. The assets of a market are read back from `BASE_QUOTE` only when they are
`Plain`, and never from the `NAME(BASE_QUOTE)` of a named market: that text is too long
to spell its assets, and it is not the name.

- **`UniqueMarkets.symbols_resolve`**: when the symbol, the ticker and the full name of
  a market resolve to it, and what an exchange before a pair of assets changes: nothing.
-/

namespace Dingir

variable {table : List MarketDesc} {m row : MarketDesc} {s ex base quote : String} {l : List Char}
  {p : Char → Bool}

/-! ## Pieces -/

theorem length_splitOnP (l : List Char) : (l.splitOnP p).length = l.countP p + 1 := by
  induction l with
  | nil => rw [List.splitOnP_nil, List.countP_nil, List.length_singleton]
  | cons c l ih =>
    rw [List.splitOnP_cons_eq_if_modifyHead]
    by_cases hc : p c
    · rw [if_pos hc, List.length_cons, ih, List.countP_cons_of_pos hc]
    · rw [if_neg hc, List.length_modifyHead, ih, List.countP_cons_of_neg hc]

/-- Two pieces are what is before and after the one separator. -/
theorem splitOnP_eq_pair {x y : List Char} : l.splitOnP p = [x, y] ↔
    ∃ c, p c = true ∧ l = x ++ c :: y ∧ l.countP p = 1 := by
  constructor
  · intro h
    have hcount : l.countP p = 1 := by
      have := length_splitOnP (p := p) l
      rw [h] at this
      simpa using this.symm
    obtain ⟨c, hc⟩ : ∃ c, l.filter p = [c] :=
      List.length_eq_one_iff.1 (List.countP_eq_length_filter ▸ hcount)
    have hspec := List.splitOnP_spec (p := p) l
    rw [h, hc] at hspec
    refine ⟨c, (List.mem_filter.1 (hc ▸ List.mem_singleton_self c)).2, ?_, hcount⟩
    simpa using hspec.symm
  · rintro ⟨c, hc, rfl, hcount⟩
    rw [List.countP_append, List.countP_cons_of_pos hc] at hcount
    have hx : ∀ a ∈ x, p a = false := by
      have : x.countP p = 0 := by omega
      simpa using List.countP_eq_zero.1 this
    have hy : ∀ a ∈ y, p a = false := by
      have : y.countP p = 0 := by omega
      simpa using List.countP_eq_zero.1 this
    rw [List.splitOnP_append_cons_of_forall_mem hx c hc, List.splitOnP_eq_singleton hy]

/-- The text is the two assets of the row around its one separator, in either order. -/
def Spells (s : String) (row : MarketDesc) : Prop :=
  s.toList.countP isSeparator = 1 ∧ ∃ c, isSeparator c = true ∧
    (s.toList = row.baseAsset.toList ++ c :: row.quoteAsset.toList ∨
      s.toList = row.quoteAsset.toList ++ c :: row.baseAsset.toList)

theorem splitAsset_eq_pair : splitAsset s = [base, quote] ↔
    ∃ c, isSeparator c = true ∧ s.toList = base.toList ++ c :: quote.toList ∧
      s.toList.countP isSeparator = 1 := by
  rw [← splitOnP_eq_pair, splitAsset, List.map_eq_cons_iff]
  constructor
  · rintro ⟨x, tail, hl, rfl, htail⟩
    obtain ⟨y, rest, rfl, rfl, hrest⟩ := List.map_eq_cons_iff.1 htail
    rw [hl, List.map_eq_nil_iff.1 hrest, String.toList_ofList, String.toList_ofList]
  · intro h
    exact ⟨_, _, h, by simp⟩

theorem spells_iff : Spells s row ↔
    splitAsset s = [row.baseAsset, row.quoteAsset] ∨
      splitAsset s = [row.quoteAsset, row.baseAsset] := by
  rw [splitAsset_eq_pair, splitAsset_eq_pair]
  constructor
  · rintro ⟨hcount, c, hc, hl | hl⟩
    · exact .inl ⟨c, hc, hl, hcount⟩
    · exact .inr ⟨c, hc, hl, hcount⟩
  · rintro (⟨c, hc, hl, hcount⟩ | ⟨c, hc, hl, hcount⟩)
    · exact ⟨hcount, c, hc, .inl hl⟩
    · exact ⟨hcount, c, hc, .inr hl⟩

theorem isPair_iff : row.isPair base quote = true ↔
    [base, quote] = [row.baseAsset, row.quoteAsset] ∨
      [base, quote] = [row.quoteAsset, row.baseAsset] := by
  simp only [MarketDesc.isPair, Bool.or_eq_true, Bool.and_eq_true, beq_iff_eq, List.cons.injEq,
    and_true]
  exact or_congr (and_congr eq_comm eq_comm) (and_comm.trans (and_congr eq_comm eq_comm))

/-- The query by assets finds what the text spells. -/
theorem mem_queryPair : row ∈ queryPair table (splitAsset s) ↔ row ∈ table ∧ Spells s row := by
  rw [spells_iff]
  unfold queryPair
  split
  · rename_i hpieces
    rw [hpieces, List.mem_filter, isPair_iff]
  · rename_i hno
    simp only [List.not_mem_nil, false_iff, not_and, not_or]
    exact fun _ => ⟨hno _ _, hno _ _⟩

theorem Spells.length (h : Spells s row) :
    s.toList.length = row.baseAsset.toList.length + row.quoteAsset.toList.length + 1 := by
  obtain ⟨-, c, -, hl | hl⟩ := h <;> rw [hl, List.length_append, List.length_cons] <;> omega

/-- The text of an asset that survives the split. -/
def Unsplit (asset : String) : Prop := ∀ c ∈ asset.toList, isSeparator c = false

theorem toList_pair (base quote : String) :
    (base ++ "_" ++ quote).toList = base.toList ++ '_' :: quote.toList := by
  rw [String.toList_append, String.toList_append, List.append_assoc]
  rfl

theorem countP_pair (base quote : String) : (base ++ "_" ++ quote).toList.countP isSeparator =
    base.toList.countP isSeparator + quote.toList.countP isSeparator + 1 := by
  rw [toList_pair, List.countP_append, List.countP_cons_of_pos (by decide)]
  omega

theorem unsplit_iff : Unsplit s ↔ s.toList.countP isSeparator = 0 := by
  rw [List.countP_eq_zero, Unsplit]
  simp only [Bool.not_eq_true]

/-- A pair spells its own assets when no separator is in them. -/
theorem spells_pair_self : Spells (row.baseAsset ++ "_" ++ row.quoteAsset) row ↔
    Unsplit row.baseAsset ∧ Unsplit row.quoteAsset := by
  rw [unsplit_iff, unsplit_iff]
  constructor
  · rintro ⟨hcount, -⟩
    rw [countP_pair] at hcount
    omega
  · rintro ⟨hbase, hquote⟩
    exact ⟨by rw [countP_pair, hbase, hquote], '_', by decide, .inl (toList_pair _ _)⟩

theorem spells_pair (hbase : Unsplit base) (hquote : Unsplit quote) :
    Spells (base ++ "_" ++ quote) row ↔ row.isPair base quote = true := by
  have hpieces : splitAsset (base ++ "_" ++ quote) = [base, quote] := by
    rw [splitAsset_eq_pair]
    exact ⟨'_', by decide,
      toList_pair _ _, by rw [countP_pair, unsplit_iff.1 hbase, unsplit_iff.1 hquote]⟩
  rw [spells_iff, hpieces, isPair_iff]

/-! ## The exchange -/

theorem resolveCanionicalSymbol_none (h : ':' ∉ s.toList) :
    resolveCanionicalSymbol s = (none, s) := by
  have : s.toList.findIdx? (· == ':') = none := by
    rw [List.findIdx?_eq_none_iff]
    intro c hc
    exact beq_eq_false_iff_ne.2 fun hcolon => h (hcolon ▸ hc)
  rw [resolveCanionicalSymbol, this]

theorem resolveCanionicalSymbol_append (h : ':' ∉ ex.toList) :
    resolveCanionicalSymbol (ex ++ ":" ++ s) = (some ex, s) := by
  have hl : (ex ++ ":" ++ s).toList = ex.toList ++ ':' :: s.toList := by
    rw [String.toList_append, String.toList_append, List.append_assoc]
    rfl
  have hidx : (ex ++ ":" ++ s).toList.findIdx? (· == ':') = some ex.toList.length := by
    rw [hl, List.findIdx?_append, List.findIdx?_eq_none_iff.2]
    · simp [List.findIdx?_cons]
    · exact fun c hc => beq_eq_false_iff_ne.2 fun hcolon => h (hcolon ▸ hc)
  rw [resolveCanionicalSymbol, hidx]
  simp [hl]

/-- What remains after an exchange is shorter. -/
theorem length_resolveCanionicalSymbol (h : ':' ∈ s.toList) :
    (resolveCanionicalSymbol s).2.toList.length < s.toList.length := by
  unfold resolveCanionicalSymbol
  cases hidx : s.toList.findIdx? (· == ':') with
  | none =>
    exact absurd (List.findIdx?_eq_none_iff.1 hidx _ h) (by simp)
  | some pos =>
    have := List.length_pos_of_mem h
    simp only [String.toList_ofList, List.length_drop]
    omega

/-! ## What a text resolves to -/

/-- Whichever row `symbols` answers with, it is of the market. -/
def Resolves (table : List MarketDesc) (symbol : String) (m : MarketDesc) : Prop :=
  symbols table symbol ≠ [] ∧ ∀ row ∈ symbols table symbol, row = m

instance : Decidable (Resolves table s m) := by
  unfold Resolves
  infer_instance

theorem queryPair_eq_nil : queryPair table (splitAsset s) = [] ↔ ∀ row ∈ table, ¬ Spells s row := by
  simp only [List.eq_nil_iff_forall_not_mem, mem_queryPair, not_and]

/-- A text that spells a row is not looked up as a name. -/
theorem resolves_of_spells (hrow : row ∈ table) (h : Spells (resolveCanionicalSymbol s).2 row) :
    Resolves table s m ↔ ∀ row ∈ table, Spells (resolveCanionicalSymbol s).2 row → row = m := by
  have hsome : queryPair table (splitAsset (resolveCanionicalSymbol s).2) ≠ [] :=
    fun hnil => queryPair_eq_nil.1 hnil row hrow h
  have hsymbols : symbols table s = queryPair table (splitAsset (resolveCanionicalSymbol s).2) :=
    if_neg hsome
  rw [Resolves, hsymbols]
  simp only [mem_queryPair, and_imp]
  exact and_iff_right hsome

/-- A text that spells no row is a name. -/
theorem resolves_of_not_spells (h : ∀ row ∈ table, ¬ Spells (resolveCanionicalSymbol s).2 row) :
    Resolves table s m ↔ (∃ row ∈ table, row.marketName = some s) ∧
      ∀ row ∈ table, row.marketName = some s → row = m := by
  have hsymbols : symbols table s = queryName table s := if_pos (queryPair_eq_nil.2 h)
  rw [Resolves, hsymbols]
  simp only [queryName, ne_eq, List.filter_eq_nil_iff, List.mem_filter, beq_iff_eq, and_imp,
    not_forall, not_not, exists_prop]

theorem Resolves.mem (h : Resolves table s m) : m ∈ symbols table s := by
  obtain ⟨row, hrow⟩ := List.exists_mem_of_ne_nil _ h.1
  exact h.2 row hrow ▸ hrow

/-- What resolves to an unnamed market spells it. -/
theorem Resolves.spells (h : Resolves table s m) (hname : m.marketName ≠ some s) :
    Spells (resolveCanionicalSymbol s).2 m := by
  have hmem := h.mem
  simp only [symbols] at hmem
  split at hmem
  · exact absurd (beq_iff_eq.1 (List.mem_filter.1 hmem).2) hname
  · exact (mem_queryPair.1 hmem).2

/-- The rows that the database takes keep the indexes. -/
theorem UniqueMarkets.insert (h : UniqueMarkets table) (hfree : Setup.nameFree table row = true) :
    UniqueMarkets (table ++ [row]) := by
  have hnew : ∀ r ∈ table, (r.marketName = none ∨ r.marketName ≠ row.marketName) ∧
      (r.marketName = none →
      row.marketName = none → ¬ (r.baseAsset = row.baseAsset ∧ r.quoteAsset = row.quoteAsset)) := by
    intro r hr
    unfold Setup.nameFree at hfree
    split at hfree
    · rename_i name hname
      have hdiff : r.marketName ≠ some name := by simpa using List.all_eq_true.1 hfree r hr
      exact ⟨.inr (hname ▸ hdiff), fun _ hnone => absurd (hname.symm.trans hnone) (by simp)⟩
    · rename_i hname
      have hdiff := List.all_eq_true.1 hfree r hr
      simp only [Bool.not_eq_true', Bool.and_eq_false_iff, decide_eq_false_iff_not] at hdiff
      refine ⟨?_, fun hnone _ hpair => ?_⟩
      · rw [hname]
        exact em _
      · tauto
  exact ⟨List.pairwise_append.2 ⟨h.name, List.pairwise_singleton _ _, fun r hr _ hrow =>
      List.mem_singleton.1 hrow ▸ (hnew r hr).1⟩,
    List.pairwise_append.2 ⟨h.pair, List.pairwise_singleton _ _, fun r hr _ hrow =>
      List.mem_singleton.1 hrow ▸ (hnew r hr).2⟩⟩

theorem UniqueMarkets.eq_of_name (h : UniqueMarkets table) (hm : m ∈ table) (hrow : row ∈ table)
    (hname : m.marketName = some s) (hname' : row.marketName = some s) : row = m := by
  by_contra hne
  have : Std.Symm fun row row' : MarketDesc => row.marketName = none ∨
      row.marketName ≠ row'.marketName := by
    constructor
    rintro a b (ha | hab)
    · by_cases hb : b.marketName = none
      · exact .inl hb
      · exact .inr fun hab => hb (hab.trans ha)
    · exact .inr fun hba => hab hba.symm
  obtain hnone | hdiff := h.name.forall hrow hm hne
  · rw [hname'] at hnone
    cases hnone
  · exact hdiff (hname'.trans hname.symm)

/-! ## The names of a market -/

/-- No other row has the two assets of the market. -/
def MarketDesc.Alone (m : MarketDesc) (table : List MarketDesc) : Prop :=
  ∀ row ∈ table, row.isPair m.baseAsset m.quoteAsset = true → row = m

theorem UniqueMarkets.resolves_name (h : UniqueMarkets table) (hm : m ∈ table)
    (hname : m.marketName = some s) :
    Resolves table s m ↔ ∀ row ∈ table, Spells (resolveCanionicalSymbol s).2 row → row = m := by
  by_cases hspells : ∃ row ∈ table, Spells (resolveCanionicalSymbol s).2 row
  · obtain ⟨row, hrow, hr⟩ := hspells
    exact resolves_of_spells hrow hr
  · push Not at hspells
    rw [resolves_of_not_spells hspells]
    refine iff_of_true ⟨⟨m, hm, hname⟩, fun row hrow hname' => h.eq_of_name hm hrow hname hname'⟩ ?_
    exact fun row hrow hr => absurd hr (hspells row hrow)

theorem not_resolves_fullName {n : String} (hname : m.marketName = some n) :
    ¬ Resolves table (defaultExchange ++ ":" ++
      (n ++ "(" ++ (m.baseAsset ++ "_" ++ m.quoteAsset) ++ ")")) m := by
  intro h
  have hone : ":".length = 1 ∧ "(".length = 1 ∧ "_".length = 1 ∧ ")".length = 1 :=
    ⟨rfl, rfl, rfl, rfl⟩
  have hne : m.marketName ≠ some (defaultExchange ++ ":" ++
      (n ++ "(" ++ (m.baseAsset ++ "_" ++ m.quoteAsset) ++ ")")) := by
    rw [hname]
    intro heq
    have := congrArg String.length (Option.some.inj heq)
    simp only [String.length_append] at this
    omega
  have hlength := (h.spells hne).length
  rw [resolveCanionicalSymbol_append (by decide)] at hlength
  simp only [String.length_toList, String.length_append] at hlength
  omega

theorem resolves_pair (hm : m ∈ table) (hname : m.marketName ≠ some s)
    (hpair : (resolveCanionicalSymbol s).2 = m.baseAsset ++ "_" ++ m.quoteAsset) :
    Resolves table s m ↔ Unsplit m.baseAsset ∧ Unsplit m.quoteAsset ∧ m.Alone table := by
  constructor
  · intro h
    have hspells := h.spells hname
    have hall := (resolves_of_spells hm hspells).1 h
    rw [hpair] at hspells hall
    obtain ⟨hbase, hquote⟩ := spells_pair_self.1 hspells
    exact ⟨hbase, hquote, fun row hrow hr => hall row hrow ((spells_pair hbase hquote).2 hr)⟩
  · rintro ⟨hbase, hquote, halone⟩
    refine (resolves_of_spells hm (by rw [hpair]; exact spells_pair_self.2 ⟨hbase, hquote⟩)).2 ?_
    rw [hpair]
    exact fun row hrow hr => halone row hrow ((spells_pair hbase hquote).1 hr)

/-- The assets are read back only when no `:` is in them. -/
theorem resolves_symbol (hm : m ∈ table) (hname : m.marketName = none) :
    Resolves table (m.baseAsset ++ "_" ++ m.quoteAsset) m ↔
      ':' ∉ (m.baseAsset ++ "_" ++ m.quoteAsset).toList ∧
      Unsplit m.baseAsset ∧ Unsplit m.quoteAsset ∧ m.Alone table := by
  have hne : m.marketName ≠ some (m.baseAsset ++ "_" ++ m.quoteAsset) := by
    rw [hname]; exact fun h => nomatch h
  by_cases hcolon : ':' ∈ (m.baseAsset ++ "_" ++ m.quoteAsset).toList
  · refine iff_of_false (fun h => ?_) (fun h => h.1 hcolon)
    have hshort := length_resolveCanionicalSymbol hcolon
    rw [(h.spells hne).length, toList_pair, List.length_append, List.length_cons] at hshort
    omega
  · rw [resolves_pair hm hne (by rw [resolveCanionicalSymbol_none hcolon]), and_iff_right hcolon]

/-- **What the names of a market resolve to**. A name, when the text after its exchange
does not spell the assets of another row. The assets of an unnamed market, when they hold
no separator and no other row has them, and no `:` unless an exchange is given. The full
name of a named market, never. An exchange before assets makes no difference. -/
theorem UniqueMarkets.symbols_resolve (h : UniqueMarkets table) :
    (∀ m ∈ table,
      match m.marketName with
      | some name =>
        (Resolves table (SymbolDesc.fromDesc m).symbol m ↔
          ∀ row ∈ table, Spells (resolveCanionicalSymbol name).2 row → row = m) ∧
        (Resolves table (SymbolDesc.fromDesc m).ticker m ↔
          ∀ row ∈ table, Spells (resolveCanionicalSymbol name).2 row → row = m) ∧
        ¬ Resolves table (SymbolDesc.fromDesc m).fullName m
      | none =>
        (Resolves table (SymbolDesc.fromDesc m).symbol m ↔
          ':' ∉ (m.baseAsset ++ "_" ++ m.quoteAsset).toList ∧
          Unsplit m.baseAsset ∧ Unsplit m.quoteAsset ∧ m.Alone table) ∧
        (Resolves table (SymbolDesc.fromDesc m).ticker m ↔
          ':' ∉ (m.baseAsset ++ "_" ++ m.quoteAsset).toList ∧
          Unsplit m.baseAsset ∧ Unsplit m.quoteAsset ∧ m.Alone table) ∧
        (Resolves table (SymbolDesc.fromDesc m).fullName m ↔
          Unsplit m.baseAsset ∧ Unsplit m.quoteAsset ∧ m.Alone table)) ∧
    ∀ s, ':' ∉ s.toList → (∃ row ∈ table, Spells s row) →
      ∀ m, Resolves table (defaultExchange ++ ":" ++ s) m ↔ Resolves table s m := by
  refine ⟨fun m hm => ?_, fun s hs hspelled m => ?_⟩
  · cases hname : m.marketName with
    | some n =>
      have hsym : (SymbolDesc.fromDesc m).symbol = n := by
        simp only [SymbolDesc.fromDesc, symbology, hname, Option.getD_some]
      have hfull : (SymbolDesc.fromDesc m).fullName =
          defaultExchange ++ ":" ++ (n ++ "(" ++ (m.baseAsset ++ "_" ++ m.quoteAsset) ++ ")") := by
        simp only [SymbolDesc.fromDesc, symbology, hname, Option.map_some, Option.getD_some]
      have hticker : (SymbolDesc.fromDesc m).ticker = n := hsym
      rw [hsym, hticker, hfull]
      refine ⟨h.resolves_name hm hname, h.resolves_name hm hname, ?_⟩
      exact not_resolves_fullName hname
    | none =>
      have hsym : (SymbolDesc.fromDesc m).symbol = m.baseAsset ++ "_" ++ m.quoteAsset := by
        simp only [SymbolDesc.fromDesc, symbology, hname, Option.getD_none]
      have hfull : (SymbolDesc.fromDesc m).fullName = defaultExchange ++ ":" ++
          (m.baseAsset ++ "_" ++ m.quoteAsset) := by
        simp only [SymbolDesc.fromDesc, symbology, hname, Option.map_none, Option.getD_none]
      have hticker : (SymbolDesc.fromDesc m).ticker = m.baseAsset ++ "_" ++ m.quoteAsset := hsym
      rw [hsym, hticker, hfull]
      refine ⟨resolves_symbol hm hname, resolves_symbol hm hname, ?_⟩
      exact resolves_pair hm (by rw [hname]; exact fun h => nomatch h)
        (by rw [resolveCanionicalSymbol_append (by decide)])
  · obtain ⟨row, hrow, hspells⟩ := hspelled
    have hplain : (resolveCanionicalSymbol s).2 = s := by rw [resolveCanionicalSymbol_none hs]
    have hexchange : (resolveCanionicalSymbol (defaultExchange ++ ":" ++ s)).2 = s := by
      rw [resolveCanionicalSymbol_append (by decide)]
    rw [resolves_of_spells hrow (by rwa [hexchange]), resolves_of_spells hrow (by rwa [hplain]),
      hplain, hexchange]

/-- A market without a name. -/
def ethUsdtDesc : MarketDesc :=
  { createTime := some 5, baseAsset := "ETH", quoteAsset := "USDT", precisionAmount := 4,
    precisionPrice := 2,
    precisionFee := 2, minAmount := 1 / 10000, marketName := none }

/-- A market of the same assets with a name. -/
def namedDesc : MarketDesc := { ethUsdtDesc with marketName := some "SPOT" }

/-- Both can be stored. The assets name either market, the name its own. -/
theorem UniqueMarkets.symbols_resolve_two :
    ¬ Resolves [ethUsdtDesc, namedDesc] "ETH_USDT" ethUsdtDesc ∧
    Resolves [ethUsdtDesc, namedDesc] "SPOT" namedDesc := by
  have hunique : UniqueMarkets [ethUsdtDesc, namedDesc] := by decide +kernel
  have h := hunique.symbols_resolve
  refine ⟨fun hres => ?_, (h.1 namedDesc (by simp)).1.2 fun row _ hspells => ?_⟩
  · have halone := ((h.1 ethUsdtDesc (by simp)).1.1 hres).2.2.2
    exact absurd (halone namedDesc (by simp) (by decide +kernel)) (by decide +kernel)
  · exact absurd hspells.1 (by decide +kernel)

/-- Nothing finds a named market by its full name. -/
theorem not_symbols_resolve : ¬ ∀ table : List MarketDesc, UniqueMarkets table →
    (∀ m ∈ table, Resolves table (SymbolDesc.fromDesc m).symbol m ∧
      Resolves table (SymbolDesc.fromDesc m).ticker m ∧
      Resolves table (SymbolDesc.fromDesc m).fullName m) ∧
    ∀ s, ':' ∉ s.toList → ∀ m, Resolves table (defaultExchange ++ ":" ++ s) m ↔
      Resolves table s m := by
  intro h
  have hfull := ((h [namedDesc] (by decide +kernel)).1 namedDesc (by simp)).2.2
  exact absurd hfull (by decide +kernel)

end Dingir
