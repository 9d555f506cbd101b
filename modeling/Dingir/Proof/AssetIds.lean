import Mathlib.Data.Nat.Digits.Defs
import Dingir.Spec.Handler
import Dingir.Proof.Reload

/-!
# The numeric ids of the assets

The id of an asset is read as a number of base 36. That is a number for a `Numeral`
only, and two ids are the same number when their significant digits are the same:
letter case, leading zeros and a leading `+` do not count (`value36_eq_iff`).

- **`AssetManager.loads_iff`**: loading assets, at the start and later, returns with
  different numbers for different ids exactly when all ids are numerals and no two of
  them have the same significant digits.
-/

namespace Dingir

open Keyed Outcome

variable {c c' : Char} {cs cs' : List Char} {s s' : String} {d n : ℕ} {am am' : AssetManager}
  {l : List AssetConf} {assets : HashMap String AssetInfo}

/-! ## Digits -/

/-- The value of a digit, by its code. -/
theorem digit36_eq (c : Char) : digit36 c =
    if 48 ≤ c.toNat ∧ c.toNat ≤ 57 then some (c.toNat - 48)
    else if 97 ≤ c.toNat ∧ c.toNat ≤ 122 then some (c.toNat - 87)
    else if 65 ≤ c.toNat ∧ c.toNat ≤ 90 then some (c.toNat - 55) else none := by
  have hle : ∀ a b : Char, a ≤ b ↔ a.toNat ≤ b.toNat := fun a b => Iff.rfl
  have hcodes : '0'.toNat = 48 ∧ '9'.toNat = 57 ∧ 'a'.toNat = 97 ∧ 'z'.toNat = 122 ∧
      'A'.toNat = 65 ∧ 'Z'.toNat = 90 := by
    decide
  obtain ⟨h0, h9, ha, hz, hA, hZ⟩ := hcodes
  simp only [digit36, hle, h0, h9, ha, hz, hA, hZ]
  split_ifs <;> simp <;> omega

theorem toLower_toNat (c : Char) :
    c.toLower.toNat = if 65 ≤ c.toNat ∧ c.toNat ≤ 90 then c.toNat + 32 else c.toNat := by
  unfold Char.toLower
  split
  · rename_i h
    have hlow : 65 ≤ c.toNat := h.1
    have hhigh : c.toNat ≤ 90 := h.2
    rw [if_pos ⟨hlow, hhigh⟩]
    show (c.val + 32).toNat = c.val.toNat + 32
    rw [UInt32.toNat_add]
    have : c.val.toNat ≤ 90 := hhigh
    simp
    omega
  · rename_i h
    rw [if_neg]
    rintro ⟨hlow, hhigh⟩
    exact h ⟨hlow, hhigh⟩

/-- The digits are the letters and figures. -/
theorem isAlphanum_iff : c.isAlphanum = true ↔ ∃ d, digit36 c = some d := by
  have hle : ∀ a : Char, (a.val ≤ c.val ↔ a.toNat ≤ c.toNat) ∧
      (c.val ≤ a.val ↔ c.toNat ≤ a.toNat) :=
    fun a => ⟨Iff.rfl, Iff.rfl⟩
  have hcodes : '0'.toNat = 48 ∧ '9'.toNat = 57 ∧ 'a'.toNat = 97 ∧ 'z'.toNat = 122 ∧
      'A'.toNat = 65 ∧ 'Z'.toNat = 90 := by
    decide
  obtain ⟨h0, h9, ha, hz, hA, hZ⟩ := hcodes
  have hupper : c.isUpper = decide ('A'.val ≤ c.val ∧ c.val ≤ 'Z'.val) := rfl
  have hlower : c.isLower = (decide ('a'.val ≤ c.val) && decide (c.val ≤ 'z'.val)) := rfl
  have hdigit : c.isDigit = (decide ('0'.val ≤ c.val) && decide (c.val ≤ '9'.val)) := rfl
  rw [digit36_eq, show c.isAlphanum = ((c.isUpper || c.isLower) || c.isDigit) from rfl, hupper,
    hlower, hdigit]
  simp only [Bool.or_eq_true, Bool.and_eq_true, decide_eq_true_eq, hle, h0, h9, ha, hz, hA, hZ]
  split_ifs with h₁ h₂ h₃
  · simp [h₁]
  · simp [h₂]
  · simp [h₃]
  · simp only [exists_false, iff_false]
    tauto

theorem digit36_toLower (c : Char) : digit36 c.toLower = digit36 c := by
  rw [digit36_eq, digit36_eq, toLower_toNat]
  split_ifs <;> first | rfl | omega

theorem digit36_lt (h : digit36 c = some d) : d < 36 := by
  rw [digit36_eq] at h
  split_ifs at h <;> simp only [Option.some.injEq] at h <;> omega

/-- Letters of the same value differ in case only. -/
theorem digit36_inj (h : digit36 c = some d)
    (h' : digit36 c' = some d) : c.toLower = c'.toLower := by
  have hnat : c.toLower.toNat = c'.toLower.toNat := by
    rw [digit36_eq] at h h'
    rw [toLower_toNat, toLower_toNat]
    split_ifs at h h' ⊢ <;> simp only [Option.some.injEq] at h h' <;> omega
  exact Char.ext (UInt32.toNat_inj.1 hnat)

theorem digit36_zero : digit36 c = some 0 ↔ c.toLower = '0' := by
  constructor
  · intro h
    exact digit36_inj h (by decide : digit36 '0' = some 0)
  · intro h
    rw [← digit36_toLower, h]
    decide

/-! ## Numerals -/

/-- The text after a leading `+`. -/
def unsigned (s : String) : List Char :=
  match s.toList with
  | '+' :: cs => cs
  | cs => cs

/-- The value of digits of base 36, the highest one first. -/
def value36 (cs : List Char) : ℕ := cs.foldl (fun n c => n * 36 + (digit36 c).getD 0) 0

/-- **A numeral**: letters and figures, at least one, after a `+` or none, for a number of 32
bits. -/
structure Numeral (s : String) : Prop where
  nonempty : unsigned s ≠ []
  digits : ∀ c ∈ unsigned s, c.isAlphanum = true
  fits : value36 (unsigned s) < 2 ^ 32

/-- The digits that count, in lower case. -/
def significant (s : String) : List Char :=
  ((unsigned s).map Char.toLower).dropWhile fun c => c = '0'

theorem le_foldl36 (cs : List Char) (n : ℕ) :
    n ≤ cs.foldl (fun n c => n * 36 + (digit36 c).getD 0) n := by
  induction cs generalizing n with
  | nil => exact le_rfl
  | cons c cs ih => exact (by omega : n ≤ n * 36 + (digit36 c).getD 0).trans (ih _)

/-- The parts of a number that fits have fitted. -/
theorem digits36_iff (hn : n < 2 ^ 32) : digits36 cs n = some d ↔ (∀ c ∈ cs, c.isAlphanum = true) ∧
    cs.foldl (fun n c => n * 36 + (digit36 c).getD 0) n = d ∧ d < 2 ^ 32 := by
  induction cs generalizing n with
  | nil =>
    simp only [digits36, List.foldl_nil, List.not_mem_nil, false_implies, implies_true, true_and,
      Option.some.injEq]
    refine ⟨fun h => ⟨h, h ▸ hn⟩, fun h => h.1⟩
  | cons c cs ih =>
    cases hc : digit36 c with
    | none =>
      have hno : ¬ c.isAlphanum = true := by simp [isAlphanum_iff, hc]
      simp [digits36, hc, hno]
    | some e =>
      have hyes : c.isAlphanum = true := isAlphanum_iff.2 ⟨e, hc⟩
      simp only [digits36, hc, List.foldl_cons, Option.getD_some, List.forall_mem_cons, hyes,
        true_and]
      by_cases hfit : n * 36 + e < 2 ^ 32
      · rw [if_pos hfit, ih hfit]
      · rw [if_neg hfit]
        refine iff_of_false (by simp) ?_
        rintro ⟨-, rfl, hlt⟩
        exact hfit ((le_foldl36 cs _).trans_lt hlt)

/-- **An id is a number when it is a numeral.** -/
theorem fromStrRadix36_iff : fromStrRadix36 s = some n ↔ Numeral s ∧ value36 (unsigned s) = n := by
  have hdigits : ∀ cs, cs ≠ [] → unsigned s = cs →
      (digits36 cs 0 = some n ↔ Numeral s ∧ value36 (unsigned s) = n) := by
    rintro cs hne rfl
    rw [digits36_iff (by norm_num)]
    constructor
    · rintro ⟨hall, rfl, hlt⟩
      exact ⟨⟨hne, hall, hlt⟩, rfl⟩
    · rintro ⟨h, rfl⟩
      exact ⟨h.digits, rfl, h.fits⟩
  have hempty : unsigned s = [] → ¬ (Numeral s ∧ value36 (unsigned s) = n) :=
    fun he h => h.1.nonempty he
  unfold fromStrRadix36
  split
  · rename_i h
    exact iff_of_false (by simp) (hempty (by simp [unsigned, h]))
  · rename_i h
    exact iff_of_false (by simp) (hempty (by simp [unsigned, h]))
  · rename_i cs hne h
    exact hdigits cs hne (by simp [unsigned, h])
  · rename_i cs hne _ hplus
    refine hdigits _ hne ?_
    unfold unsigned
    split
    · rename_i cs' hcs
      exact absurd hcs (hplus cs')
    · rfl

/-! ## Ids for the same number -/

/-- The value of a digit. -/
def digitValue (c : Char) : ℕ := (digit36 c).getD 0

theorem value36_eq_ofDigits (cs : List Char) :
    value36 cs = Nat.ofDigits 36 (cs.map digitValue).reverse := by
  induction cs using List.reverseRecOn with
  | nil => rfl
  | append_singleton cs c ih =>
    rw [value36, List.foldl_append, ← value36, ih, List.map_append, List.reverse_append,
      List.map_singleton,
      List.reverse_singleton, List.singleton_append, Nat.ofDigits_cons]
    simp only [List.foldl_cons, List.foldl_nil, digitValue]
    ring

/-- Only the significant digits count. -/
theorem value36_significant (s : String) : value36 (significant s) = value36 (unsigned s) := by
  have hlower : ∀ cs : List Char, value36 (cs.map Char.toLower) = value36 cs := by
    intro cs
    rw [value36, List.foldl_map]
    simp only [digit36_toLower]
    rfl
  have hzeros : ∀ cs : List Char, value36 (cs.dropWhile fun c => c = '0') = value36 cs := by
    intro cs
    induction cs with
    | nil => rfl
    | cons c cs ih =>
      by_cases hc : c = '0'
      · subst hc
        rw [List.dropWhile_cons_of_pos (by simp), ih]
        rfl
      · rw [List.dropWhile_cons_of_neg (by simpa using hc)]
  rw [significant, hzeros, hlower]

/-- The significant digits of a numeral are digits, in lower case. -/
theorem Numeral.significant (h : Numeral s) (hc : c ∈ Dingir.significant s) :
    (∃ d, digit36 c = some d) ∧ c.toLower = c := by
  have hmem := (List.dropWhile_sublist _).subset hc
  obtain ⟨c', hc', rfl⟩ := List.mem_map.1 hmem
  obtain ⟨d, hd⟩ := isAlphanum_iff.1 (h.digits c' hc')
  refine ⟨⟨d, by rw [digit36_toLower, hd]⟩, ?_⟩
  exact digit36_inj (by rw [digit36_toLower, hd]) hd

/-- **Two numerals are the same number when their significant digits are the same.** -/
theorem value36_eq_iff (h : Numeral s) (h' : Numeral s') :
    value36 (unsigned s) = value36 (unsigned s') ↔ significant s = significant s' := by
  rw [← value36_significant s, ← value36_significant s']
  refine ⟨fun he => ?_, congrArg value36⟩
  -- the digits of a number of base 36 without leading zeros
  have hdigits : ∀ {s}, Numeral s →
      Nat.digits 36 (value36 (significant s)) = ((significant s).map digitValue).reverse := by
    intro s h
    rw [value36_eq_ofDigits]
    refine Nat.digits_ofDigits 36 (by norm_num) _ (fun d hd => ?_) (fun hne => ?_)
    · rw [List.mem_reverse, List.mem_map] at hd
      obtain ⟨c, hc, rfl⟩ := hd
      obtain ⟨⟨d, hd⟩, -⟩ := h.significant hc
      rw [digitValue, hd]
      exact digit36_lt hd
    · rw [List.getLast_reverse]
      have hne' : significant s ≠ [] := by
        intro hnil
        simp [hnil] at hne
      have hhead : decide ((significant s).head hne' = '0') = false :=
        List.head_dropWhile_not (fun c => decide (c = '0')) hne'
      obtain ⟨⟨d, hd⟩, hlower⟩ := h.significant (List.head_mem hne')
      rw [List.head_map, digitValue, hd, Option.getD_some]
      rintro rfl
      rw [digit36_zero, hlower] at hd
      simp [hd] at hhead
  have hmap : (significant s).map digitValue = (significant s').map digitValue := by
    rw [← List.reverse_inj, ← hdigits h, ← hdigits h', he]
  have hlen : (significant s).length = (significant s').length := by
    simpa using congrArg List.length hmap
  refine List.ext_getElem hlen fun i hi hi' => ?_
  obtain ⟨⟨d, hd⟩, hlower⟩ := h.significant (List.getElem_mem hi)
  obtain ⟨⟨d', hd'⟩, hlower'⟩ := h'.significant (List.getElem_mem hi')
  have hvalue : digitValue (significant s)[i] = digitValue (significant s')[i] := by
    have := List.getElem_of_eq hmap (by simpa using hi)
    simpa using this
  rw [digitValue, digitValue, hd, hd', Option.getD_some, Option.getD_some] at hvalue
  rw [← hlower, ← hlower']
  exact digit36_inj hd (hvalue ▸ hd')

/-! ## Loading -/

/-- The ids of some assets. -/
abbrev idsOf (l : List AssetConf) : List String := l.map AssetConf.id

/-- The assets of the start and those loaded later, one list after the other. -/
def AssetManager.load (first : List AssetConf) (later : List (List AssetConf)) :
    Except Panic AssetManager := do
  later.foldlM append (← AssetManager.new first)

/-- Different assets have different numbers, so the tokens of a commitment are those of one pair of
assets. -/
structure AssetManager.Identifies (am : AssetManager) : Prop where
  distinct : ∀ id id' info info', am.assetGet id = some info → am.assetGet id' = some info' →
    id ≠ id' →
    info.innerId ≠ info'.innerId
  commits : ∀ E toU64 o o' m m' k k', am.commitOrder E toU64 o m = .ok k →
    am.commitOrder E toU64 o' m' = .ok k' →
    o.orderSide = o'.orderSide → k.tokenBuy = k'.tokenBuy → k.tokenSell = k'.tokenSell →
    splitName o.market = splitName o'.market

namespace AssetManager

/-- Loading in several lists is loading one. -/
theorem load_iff {first : List AssetConf} {later : List (List AssetConf)} :
    load first later = .ok am ↔ (first ++ later.flatten).foldlM insertAsset ∅ = .ok am.assets := by
  have happend : ∀ (later : List (List AssetConf)) (am am' : AssetManager),
      later.foldlM append am = .ok am' ↔
        later.flatten.foldlM insertAsset am.assets = .ok am'.assets := by
    intro later
    induction later with
    | nil =>
      rintro ⟨assets⟩ ⟨assets'⟩
      simp [pure, Except.pure]
    | cons l later ih =>
      intro am am'
      simp only [List.foldlM_cons, List.flatten_cons, List.foldlM_append, bind_ok, append, pure_ok]
      constructor
      · rintro ⟨_, ⟨assets, hl, rfl⟩, hrest⟩
        exact ⟨assets, hl, (ih _ _).1 hrest⟩
      · rintro ⟨assets, hl, hrest⟩
        exact ⟨⟨assets⟩, ⟨assets, hl, rfl⟩, (ih _ _).2 hrest⟩
  simp only [load, AssetManager.new, List.foldlM_append, bind_ok, pure_ok]
  constructor
  · rintro ⟨_, ⟨assets, hfirst, rfl⟩, hlater⟩
    exact ⟨assets, hfirst, (happend _ _ _).1 hlater⟩
  · rintro ⟨assets, hfirst, hlater⟩
    exact ⟨⟨assets⟩, ⟨assets, hfirst, rfl⟩, (happend _ _ _).2 hlater⟩

/-- **Loading returns when every id is a numeral.** -/
theorem insertAssets_returns (l : List AssetConf) (assets : HashMap String AssetInfo) :
    (∃ assets', l.foldlM insertAsset assets = .ok assets') ↔ ∀ id ∈ idsOf l, Numeral id := by
  induction l generalizing assets with
  | nil => simp [pure, Except.pure]
  | cons item l ih =>
    simp only [List.foldlM_cons, bind_ok, insertAsset, pure_ok, unwrap_ok, idsOf, List.map_cons,
      List.forall_mem_cons]
    constructor
    · rintro ⟨assets', _, ⟨innerId, hinner, rfl⟩, hrest⟩
      exact ⟨(fromStrRadix36_iff.1 hinner).1, (ih _).1 ⟨assets', hrest⟩⟩
    · rintro ⟨hfirst, hrest⟩
      obtain ⟨assets', hassets⟩ :=
        (ih (assets.insert item.id ⟨item.precSave, item.precShow, value36 (unsigned item.id)⟩)).2
        hrest
      exact ⟨assets', _, ⟨_, fromStrRadix36_iff.2 ⟨hfirst, rfl⟩, rfl⟩, hassets⟩

/-- The number of a loaded asset is that of its id, and all are loaded. -/
theorem insertAssets_innerId (h : l.foldlM insertAsset ∅ = .ok assets) (id : String) :
    (∃ info, assetGet ⟨assets⟩ id = some info) ↔ id ∈ idsOf l := by
  have hafter : After ⟨∅⟩ l ⟨assets⟩ := insertAssets_after h
  rw [← assetExist_iff, hafter.assetExist]
  simp [assetExist, find?_empty]

theorem innerId_eq (h : l.foldlM insertAsset ∅ = .ok assets) {id : String} {info : AssetInfo}
    (hget : assetGet ⟨assets⟩ id = some info) : info.innerId = value36 (unsigned id) := by
  have hafter : After ⟨∅⟩ l ⟨assets⟩ := insertAssets_after h
  rcases hafter id with ⟨hsame, -⟩ | ⟨item, -, rfl, info', hget', -, -, hinner⟩
  · rw [hget] at hsame
    exact absurd hsame.symm (by simp [assetGet, find?_empty])
  · obtain rfl := Option.some.inj (hget.symm.trans hget')
    exact (fromStrRadix36_iff.1 hinner).2.symm

/-- The tokens of a commitment are the numbers of the two assets in the name of the market. -/
theorem commitOrder_tokens {E : Env} {toU64 : ToU64} {o : OrderPutRequest} {m : Market}
    {k : OrderCommitment} (h : am.commitOrder E toU64 o m = .ok k) :
    ∃ base quote baseToken quoteToken, splitName o.market = [base, quote] ∧
      am.assetGet base = some baseToken ∧
      am.assetGet quote = some quoteToken ∧
      (o.orderSide = 0 ∧ k.tokenBuy = quoteToken.innerId ∧ k.tokenSell = baseToken.innerId ∨
        o.orderSide = 1 ∧ k.tokenBuy = baseToken.innerId ∧ k.tokenSell = quoteToken.innerId) := by
  unfold commitOrder at h
  split at h
  case h_2 => simp [bail] at h
  rename_i base quote hname
  simp only [bind_ok, orBail_ok] at h
  obtain ⟨baseToken, hbase, quoteToken, hquote, amount, -, price, -, h⟩ := h
  refine ⟨base, quote, baseToken, quoteToken, hname, hbase, hquote, ?_⟩
  unfold commitTotals at h
  split at h
  · rename_i hside
    simp only [bind_ok, pure_ok] at h
    obtain ⟨_, -, _, -, rfl⟩ := h
    exact .inl ⟨hside, rfl, rfl⟩
  split at h
  · rename_i hside
    simp only [bind_ok, pure_ok] at h
    obtain ⟨_, -, _, -, rfl⟩ := h
    exact .inr ⟨hside, rfl, rfl⟩
  · simp [bail] at h

/-- Where the numbers differ, the tokens of a commitment give the assets. -/
theorem identifies_of_distinct
    (h : ∀ id id' info info', am.assetGet id = some info → am.assetGet id' = some info' → id ≠ id' →
      info.innerId ≠ info'.innerId) :
    am.Identifies := by
  have hsame : ∀ {id id' info info'}, am.assetGet id = some info → am.assetGet id' = some info' →
      info.innerId = info'.innerId → id = id' :=
        fun hget hget' he => by_contra fun hne => h _ _ _ _ hget hget' hne he
  refine ⟨h, fun E toU64 o o' m m' k k' hk hk' hside hbuy hsell => ?_⟩
  obtain ⟨base, quote, bt, qt, hname, hbase, hquote, hcase⟩ := commitOrder_tokens hk
  obtain ⟨base', quote', bt', qt', hname', hbase', hquote', hcase'⟩ := commitOrder_tokens hk'
  rcases hcase with ⟨hs, hb, hq⟩ | ⟨hs, hb, hq⟩ <;>
    rcases hcase' with ⟨hs', hb', hq'⟩ | ⟨hs', hb', hq'⟩
  · rw [hname, hname', hsame hbase hbase' (by rw [← hq, ← hq', hsell]),
      hsame hquote hquote' (by rw [← hb, ← hb', hbuy])]
  · omega
  · omega
  · rw [hname, hname', hsame hbase hbase' (by rw [← hb, ← hb', hbuy]),
      hsame hquote hquote' (by rw [← hq, ← hq', hsell])]

/-- **Asset ids map to unique numeric ids, without a panic, exactly when they are numerals and no
two different ones have the same significant digits.** -/
theorem loads_iff (first : List AssetConf) (later : List (List AssetConf)) :
    (∃ am, load first later = .ok am ∧ am.Identifies) ↔
      (∀ id ∈ idsOf (first ++ later.flatten), Numeral id) ∧
        ∀ id ∈ idsOf (first ++ later.flatten), ∀ id' ∈ idsOf (first ++ later.flatten),
          id ≠ id' → significant id ≠ significant id' := by
  constructor
  · rintro ⟨am, hload, hidentifies⟩
    have hloop := load_iff.1 hload
    have hnumerals := (insertAssets_returns _ _).1 ⟨_, hloop⟩
    refine ⟨hnumerals, fun id hid id' hid' hne he => ?_⟩
    obtain ⟨info, hget⟩ := (insertAssets_innerId hloop id).2 hid
    obtain ⟨info', hget'⟩ := (insertAssets_innerId hloop id').2 hid'
    refine hidentifies.distinct id id' info info' hget hget' hne ?_
    rw [innerId_eq hloop hget, innerId_eq hloop hget']
    exact (value36_eq_iff (hnumerals _ hid) (hnumerals _ hid')).2 he
  · rintro ⟨hnumerals, hdiffer⟩
    obtain ⟨assets, hloop⟩ := (insertAssets_returns _ ∅).2 hnumerals
    refine ⟨⟨assets⟩, load_iff.2 hloop,
      identifies_of_distinct fun id id' info info' hget hget' hne he => ?_⟩
    have hid := (insertAssets_innerId hloop id).1 ⟨info, hget⟩
    have hid' := (insertAssets_innerId hloop id').1 ⟨info', hget'⟩
    rw [innerId_eq hloop hget, innerId_eq hloop hget',
      value36_eq_iff (hnumerals _ hid) (hnumerals _ hid')] at he
    exact hdiffer id hid id' hid' hne he

/-- An asset with an id. -/
def assetOf (id : String) : AssetConf := { id, precSave := 6, precShow := 6 }

example : fromStrRadix36 "usdt" = fromStrRadix36 "+0USDT" := by decide

/-- An id with a `-`, and two ids that differ in case only. -/
theorem not_loads : load [assetOf "ETH-2"] [] = .error .innerId ∧
    ¬ ∃ am, load [assetOf "ETH"] [[assetOf "eth"]] = .ok am ∧ am.Identifies := by
  refine ⟨rfl, ?_⟩
  rintro ⟨am, hload, hidentifies⟩
  have hloop := load_iff.1 hload
  obtain ⟨info, hget⟩ := (insertAssets_innerId hloop "ETH").2 (by decide)
  obtain ⟨info', hget'⟩ := (insertAssets_innerId hloop "eth").2 (by decide)
  refine hidentifies.distinct "ETH" "eth" info info' hget hget' (by decide) ?_
  rw [innerId_eq hloop hget, innerId_eq hloop hget']
  decide

end AssetManager

end Dingir
