import Dingir.Spec.InsertTable

/-!
# The placeholders of a batch match its arguments

The iterator of a tuple merges the numbers of a record with the places of the defaults,
and ends with the numbers. When the defaults are in order and inside the tuple, none of
them can be left then: as many places as defaults are left, so the next place is one
of them (`pairwise_head_le`).

- `collect_merged`: the entries are the numbers, with a default at each of its places.
- **`sqlStatementRt_placed`**: as long as the numbers are `i32`, the statement has one
  tuple for each record, and each placeholder is bound to the argument of its own record.

The number of records is made an `i32` before the tuples are counted, so from `2 ^ 31`
records on only the first tuple is left (`not_placed`).
-/

namespace Dingir.InsertTable

variable {T Arg : Type} {checked : Bool} {schema : TableSchemas T Arg} {records : List T}
  {numbers ds : List ℤ} {entries : List (Option ℤ)} {pos x a b i : ℤ} {fuel : ℕ}

theorem i32_eq (checked : Bool) (x : ℤ) (hlow : -2 ^ 31 ≤ x)
    (hhigh : x < 2 ^ 31) : i32 checked x = some x := by
  rw [i32, if_pos ⟨hlow, hhigh⟩]

theorem i32Range_length : (i32Range a b).length = (b - a).toNat := by simp [i32Range]

/-! ## One tuple -/

/-- The entries of a tuple after the place `pos`: a default at each place of `ds`, the numbers
elsewhere. -/
structure Merged (pos : ℤ) (numbers ds : List ℤ) (entries : List (Option ℤ)) : Prop where
  length : entries.length = numbers.length + ds.length
  numbers : entries.filterMap id = numbers
  defaults : ∀ k < entries.length, entries[k]? = some none ↔ pos + k + 1 ∈ ds

theorem Merged.nil (pos : ℤ) : Merged pos [] [] [] := ⟨rfl, rfl, by simp⟩

/-- A number at the next place. -/
theorem Merged.number (h : Merged (pos + 1) numbers ds entries) (i : ℤ) (hds : pos + 1 ∉ ds) :
    Merged pos (i :: numbers) ds (some i :: entries) := by
  refine ⟨by simp [h.length]; omega, congrArg (i :: ·) h.numbers, fun k hk => ?_⟩
  cases k with
  | zero => simpa using hds
  | succ k =>
    have := h.defaults k (by simpa using hk)
    rw [List.getElem?_cons_succ, this,
      show pos + 1 + (k : ℤ) + 1 = pos + ((k + 1 : ℕ) : ℤ) + 1 by push_cast; ring]

/-- A default at the next place. -/
theorem Merged.default (h : Merged (pos + 1) numbers ds entries) :
    Merged pos numbers ((pos + 1) :: ds) (none :: entries) := by
  refine ⟨by simp [h.length]; omega, h.numbers, fun k hk => ?_⟩
  cases k with
  | zero => simp
  | succ k =>
    have := h.defaults k (by simpa using hk)
    rw [List.getElem?_cons_succ, this,
      show pos + 1 + (k : ℤ) + 1 = pos + ((k + 1 : ℕ) : ℤ) + 1 by push_cast; ring]
    have hne : pos + ((k + 1 : ℕ) : ℤ) + 1 ≠ pos + 1 := by push_cast; omega
    simp only [List.mem_cons, hne, false_or]

/-- Numbers in order up to a bound leave room for each other. -/
theorem pairwise_head_le {d : ℤ} (h : (d :: ds).Pairwise (· < ·))
    (hb : ∀ e ∈ d :: ds, e ≤ b) : d + ds.length ≤ b := by
  induction ds generalizing d with
  | nil => simpa using hb d (by simp)
  | cons e ds ih =>
    have hde : d < e := (List.pairwise_cons.1 h).1 e (by simp)
    have := ih (List.pairwise_cons.1 h).2 fun e' he' => hb e' (List.mem_cons_of_mem _ he')
    simp only [List.length_cons]
    omega

/-- **The iterator of a tuple**, from the place `pos`: it ends with the numbers, and no default is
left. -/
theorem collect_merged (checked : Bool) (numbers : List ℤ)
    (hfuel : numbers.length + ds.length < fuel) (hpos : 0 ≤ pos)
    (hfit : pos + numbers.length + ds.length + 1 < 2 ^ 31) (hsorted : ds.Pairwise (· < ·))
    (hds : ∀ d ∈ ds, pos < d ∧ d ≤ pos + numbers.length + ds.length) :
    ∃ entries, IterHelper.collect checked fuel ⟨numbers, ds.tail, pos, ds.head?⟩ = some entries ∧
      Merged pos numbers ds entries := by
  induction fuel generalizing numbers ds pos with
  | zero => omega
  | succ fuel ih =>
    have hnext : i32 checked (pos + 1) = some (pos + 1) := i32_eq checked _ (by omega) (by omega)
    cases ds with
    | nil =>
      cases numbers with
      | nil => exact ⟨[], by simp [IterHelper.collect, IterHelper.next, IterHelper.nextNumber,
          hnext], .nil pos⟩
      | cons i numbers =>
        simp only [List.length_cons, List.length_nil, Nat.cast_add, Nat.cast_one,
          Nat.cast_zero] at hfuel hfit
        obtain ⟨entries, hcollect, hmerged⟩ :=
          @ih [] (pos + 1) numbers (by simp; omega) (by omega) (by simp; omega) .nil (by simp)
        simp only [List.tail_nil, List.head?_nil] at hcollect
        exact ⟨some i :: entries,
          by simp [IterHelper.collect, IterHelper.next, IterHelper.nextNumber, hnext, hcollect],
          hmerged.number i (by simp)⟩
    | cons d ds =>
      have hroom : d + ds.length ≤ pos + numbers.length + (d :: ds).length :=
        pairwise_head_le hsorted fun e he => (hds e he).2
      have hd := hds d (by simp)
      obtain ⟨hhead, htail⟩ := List.pairwise_cons.1 hsorted
      simp only [List.length_cons, Nat.cast_add, Nat.cast_one] at hfuel hfit hroom hd hds
      by_cases hgt : d > pos + 1
      · -- the default comes later, so there are numbers left
        cases numbers with
        | nil => simp only [List.length_nil, Nat.cast_zero] at hroom; omega
        | cons i numbers =>
          simp only [List.length_cons, Nat.cast_add, Nat.cast_one] at hfuel hfit hroom hd hds
          have hlater : ∀ e ∈ d :: ds, pos + 1 < e := by
            intro e he
            rcases List.mem_cons.1 he with rfl | he
            · exact hgt
            · exact hgt.trans (hhead e he)
          obtain ⟨entries, hcollect, hmerged⟩ :=
            @ih (d :: ds) (pos + 1) numbers (by simp; omega) (by omega) (by simp; omega) hsorted
            (fun e he => ⟨hlater e he, by
              have := (hds e he).2
              simp only [List.length_cons]
              push_cast
              omega⟩)
          simp only [List.tail_cons, List.head?_cons] at hcollect
          exact ⟨some i :: entries,
            by simp [IterHelper.collect, IterHelper.next, IterHelper.nextNumber, hnext, hgt,
              hcollect],
            hmerged.number i fun hmem => lt_irrefl _ (hlater _ hmem)⟩
      · obtain rfl : d = pos + 1 := by omega
        obtain ⟨entries, hcollect, hmerged⟩ :=
          @ih ds (pos + 1) numbers (by omega) (by omega) (by omega) htail
          (fun e he => ⟨hhead e he, by have := (hds e (List.mem_cons_of_mem _ he)).2; omega⟩)
        exact ⟨none :: entries, by simp [IterHelper.collect, IterHelper.next, hnext, hcollect],
          hmerged.default⟩

/-! ## The statement -/

/-- A tuple as it stands in the statement. -/
def tupleText (tuple : List (Option ℤ)) : String :=
  "(" ++ ",".intercalate (tuple.map argText) ++ ")"

/-- The tuple of the record at place `i`. -/
structure TableSchemas.Tuple (schema : TableSchemas T Arg) (i : ℕ)
    (tuple : List (Option ℤ)) : Prop where
  length : (tuple.length : ℤ) = schema.argN + schema.defaultArgsn.length
  defaults : ∀ k < tuple.length, tuple[k]? = some none ↔ (k : ℤ) + 1 ∈ schema.defaultArgsn
  numbers : tuple.filterMap id = i32Range (i * schema.argN + 1) ((i + 1) * schema.argN + 1)

/-- The statement has a tuple for each record. Where the records bind their arguments, the
placeholders of each tuple are those of its record, in order. -/
def TableSchemas.Placed (checked : Bool) (schema : TableSchemas T Arg) (records : List T) : Prop :=
  ∃ tuples : List (List (Option ℤ)),
    sqlStatementRt checked schema records =
      some ("INSERT INTO " ++ schema.tableName ++ " VALUES " ++
        ",".intercalate (tuples.map tupleText) ++ " ON CONFLICT DO NOTHING") ∧
    tuples.length = records.length ∧
    ∀ (i : ℕ) (record : T), records[i]? = some record →
      ∃ tuple, tuples[i]? = some tuple ∧ schema.Tuple i tuple ∧
        ((∀ record ∈ records, ((schema.bindArgs record).length : ℤ) = schema.argN) →
          ∀ j < (schema.bindArgs record).length, ∃ p : ℕ,
            (tuple.filterMap id)[j]? = some ((p : ℤ) + 1) ∧
            (bindArgsAll schema records)[p]? = (schema.bindArgs record)[j]?)

/-- The fold that puts commas between texts that are not empty. -/
theorem foldl_comma (texts : List String) (h : ∀ s ∈ texts, s ≠ "") :
    texts.foldl (fun acc s => if acc.isEmpty then s else acc ++ "," ++ s) "" =
      ",".intercalate texts := by
  have hgo : ∀ texts : List String, ∀ acc, acc ≠ "" →
      texts.foldl (fun acc s => if acc.isEmpty then s else acc ++ "," ++ s) acc =
        ",".intercalate (acc :: texts) := by
    intro texts
    induction texts with
    | nil => simp
    | cons s texts ih =>
      intro acc hacc
      rw [List.foldl_cons, if_neg (by simpa using hacc), ih _ (by simp [hacc]),
        String.intercalate_cons_cons]
      rw [String.intercalate_cons_append]
  cases texts with
  | nil => simp
  | cons s texts => simpa using hgo texts s (h s (by simp))

theorem argText_ne (entry : Option ℤ) : argText entry ≠ "" := by
  cases entry with
  | none => decide
  | some i => simp [argText]

theorem paren_argsText (tuple : List (Option ℤ)) :
    "(" ++ argsText tuple ++ ")" = tupleText tuple := by
  have hne : ∀ s ∈ tuple.map argText, s ≠ "" := by
    intro s hs
    obtain ⟨entry, -, rfl⟩ := List.mem_map.1 hs
    exact argText_ne entry
  rw [argsText, foldl_comma _ hne, tupleText]

/-- The defaults are in order and inside the tuple, and the places are `i32`. -/
structure TableSchemas.Sorted (schema : TableSchemas T Arg) : Prop where
  argN : 1 ≤ schema.argN
  sorted : schema.defaultArgsn.Pairwise (· < ·)
  inside : ∀ d ∈ schema.defaultArgsn, 1 ≤ d ∧ d ≤ schema.argN + schema.defaultArgsn.length
  fits : schema.argN + schema.defaultArgsn.length + 1 < 2 ^ 31

theorem expandArgsnGen_tuple (checked : Bool) (hs : schema.Sorted) (i : ℕ) :
    ∃ tuple, expandArgsnGen checked (i * schema.argN + 1, (i + 1) * schema.argN + 1)
      schema.defaultArgsn = some tuple ∧
      schema.Tuple i tuple := by
  have hargN := hs.argN
  have hlen : (i32Range (i * schema.argN + 1) ((i + 1) * schema.argN + 1)).length =
      schema.argN := by
    rw [i32Range_length,
      show ((i : ℤ) + 1) * schema.argN + 1 - (i * schema.argN + 1) = schema.argN by ring]
    omega
  have hfits := hs.fits
  obtain ⟨tuple, hcollect, hmerged⟩ := collect_merged checked
    (i32Range (i * schema.argN + 1) ((i + 1) * schema.argN + 1)) (Nat.lt_succ_self _) le_rfl
    (by omega) hs.sorted (fun d hd => by have := hs.inside d hd; omega)
  refine ⟨tuple, hcollect, ⟨?_, fun k hk => ?_, hmerged.numbers⟩⟩
  · rw [hmerged.length]
    push_cast
    omega
  · simpa using hmerged.defaults k hk

theorem argRange_eq (hs : schema.Sorted) (i : ℕ) (hfit : ((i : ℤ) + 1) * schema.argN + 1 < 2 ^ 31) :
    argRange checked schema.argN i = some (i * schema.argN + 1, (i + 1) * schema.argN + 1) := by
  have hargN := hs.argN
  have hnext : ((i : ℤ) + 1) * schema.argN = i * schema.argN + schema.argN := by ring
  have hi : (i : ℤ) ≤ i * schema.argN := le_mul_of_one_le_right (by positivity) hargN
  rw [hnext] at hfit
  simp [argRange, hnext, i32_eq checked ((i : ℤ) * schema.argN) (by omega) (by omega),
    i32_eq checked ((i : ℤ) * schema.argN + 1) (by omega) (by omega),
    i32_eq checked ((i : ℤ) + 1) (by omega) (by omega),
    i32_eq checked ((i : ℤ) * schema.argN + schema.argN) (by omega) (by omega),
    i32_eq checked ((i : ℤ) * schema.argN + schema.argN + 1) (by omega) (by omega)]

/-- The statement of one record has its tuple. -/
theorem sqlStatement_tuple (checked : Bool) (hs : schema.Sorted) :
    ∃ tuple, sqlStatement checked schema =
      some ("INSERT INTO " ++ schema.tableName ++ " VALUES " ++ tupleText tuple) ∧
      schema.Tuple 0 tuple := by
  obtain ⟨tuple, hgen, htuple⟩ := expandArgsnGen_tuple checked hs 0
  have hargN := hs.argN
  have hfits := hs.fits
  rw [Nat.cast_zero, zero_mul, zero_add, one_mul] at hgen
  refine ⟨tuple, ?_, htuple⟩
  have hopen : " VALUES (" = " VALUES " ++ "(" := by decide
  simp only [sqlStatement, expandArgsn, i32_eq checked (schema.argN + 1) (by omega) (by omega),
    hgen,
    Option.bind_eq_bind, Option.bind_some, Option.pure_def, ← paren_argsText, hopen,
    String.append_assoc]

/-- **The tuples after the first**, by induction on how many there are. -/
theorem foldlM_tuples (checked : Bool) (hs : schema.Sorted) (head : String)
    {first : List (Option ℤ)} (hfirst : schema.Tuple 0 first) (m : ℕ)
    (hfit : ((m : ℤ) + 1) * schema.argN + 1 < 2 ^ 31) :
    ∃ tuples : List (List (Option ℤ)), (i32Range 1 (m + 1)).foldlM (fun acc i => do
        let entries ← expandArgsnGen checked (← argRange checked schema.argN i) schema.defaultArgsn
        return acc ++ ",(" ++ argsText entries ++ ")") (head ++ tupleText first) =
        some (head ++ ",".intercalate (tuples.map tupleText)) ∧
      tuples.length = m + 1 ∧ ∀ i < m + 1, ∃ tuple, tuples[i]? = some tuple ∧
        schema.Tuple i tuple := by
  induction m with
  | zero =>
    refine ⟨[first], by simp [i32Range], rfl, fun i hi => ⟨first, ?_⟩⟩
    obtain rfl : i = 0 := by omega
    exact ⟨rfl, hfirst⟩
  | succ m ih =>
    have hargN := hs.argN
    have hle : ((m : ℤ) + 1) * schema.argN + 1 < 2 ^ 31 := by
      have : ((m : ℤ) + 1) * schema.argN ≤ (((m + 1 : ℕ) : ℤ) + 1) * schema.argN := by
        gcongr
        omega
      omega
    obtain ⟨tuples, hfold, hlen, htuples⟩ := ih hle
    obtain ⟨tuple, hgen, htuple⟩ := expandArgsnGen_tuple checked hs (m + 1)
    have hrange :
        i32Range 1 (((m + 1 : ℕ) : ℤ) + 1) = i32Range 1 ((m : ℤ) + 1) ++ [((m + 1 : ℕ) : ℤ)] := by
      simp [i32Range, List.range_succ, add_comm]
    have hne : tuples.map tupleText ≠ [] := by
      rw [Ne, List.map_eq_nil_iff, ← List.length_eq_zero_iff]
      omega
    refine ⟨tuples ++ [tuple], ?_, by simp [hlen], fun i hi => ?_⟩
    · rw [hrange, List.foldlM_append, hfold, List.map_append,
        String.intercalate_append_of_ne_nil hne (by simp)]
      have hopen : ",(" = "," ++ "(" := by decide
      simp only [List.foldlM_cons, List.foldlM_nil, argRange_eq hs (m + 1) hfit, hgen,
        Option.bind_eq_bind, Option.bind_some,
        Option.pure_def, List.map_cons, List.map_nil, String.intercalate_singleton,
        ← paren_argsText, hopen,
        String.append_assoc]
    · by_cases hlast : i = m + 1
      · exact ⟨tuple, by simp [hlast, hlen], hlast ▸ htuple⟩
      · obtain ⟨tuple, hget, ht⟩ := htuples i (by omega)
        exact ⟨tuple, by rw [List.getElem?_append_left (by omega), hget], ht⟩

/-! ## The arguments -/

/-- The arguments of a record come after those of the records before it. -/
theorem bindArgsAll_get {m : ℕ} (h : ∀ record ∈ records, (schema.bindArgs record).length = m)
    {i : ℕ} {record : T} (hget : records[i]? = some record) {j : ℕ} (hj : j < m) :
    (bindArgsAll schema records)[i * m + j]? = (schema.bindArgs record)[j]? := by
  induction records generalizing i with
  | nil => simp at hget
  | cons first records ih =>
    have hfirst := h first (by simp)
    rw [bindArgsAll, List.flatMap_cons]
    cases i with
    | zero =>
      obtain rfl : first = record := by simpa using hget
      rw [zero_mul, zero_add, List.getElem?_append_left (by omega)]
    | succ i =>
      rw [List.getElem?_append_right (by rw [hfirst]; nlinarith), hfirst,
        show (i + 1) * m + j - m = i * m + j by rw [Nat.succ_mul]; omega]
      exact ih (fun r hr => h r (List.mem_cons_of_mem _ hr)) (by simpa using hget)

/-- **Placeholders match bindings.** -/
theorem sqlStatementRt_placed (checked : Bool) (schema : TableSchemas T Arg) (records : List T)
    (hs : schema.Sorted) (hne : records ≠ [])
    (hfit : (records.length : ℤ) * schema.argN + 1 < 2 ^ 31) : schema.Placed checked records := by
  have hargN := hs.argN
  obtain ⟨m, hm⟩ : ∃ m, records.length = m + 1 := ⟨records.length - 1, by
    have := List.length_pos_iff.2 hne
    omega⟩
  rw [hm] at hfit
  push_cast at hfit
  have hsmall : ((m : ℤ) + 1) < 2 ^ 31 := by
    have : ((m : ℤ) + 1) ≤ (m + 1) * schema.argN := le_mul_of_one_le_right (by positivity) hargN
    omega
  obtain ⟨first, hstatement, hfirst⟩ := sqlStatement_tuple checked hs
  obtain ⟨tuples, hfold, hlen, htuples⟩ := foldlM_tuples checked hs
    ("INSERT INTO " ++ schema.tableName ++ " VALUES ") hfirst m hfit
  refine ⟨tuples, ?_, by rw [hlen, hm], fun i record hget => ?_⟩
  · have hbmod : Int.bmod ((m + 1 : ℕ) : ℤ) (2 ^ 32) = (m : ℤ) + 1 := by
      rw [Int.bmod_eq_of_le] <;> push_cast <;> omega
    rw [sqlStatementRt, hstatement, hm, hbmod]
    simp only [Option.bind_eq_bind, Option.bind_some] at hfold ⊢
    rw [hfold]
    rfl
  · have hi : i < m + 1 := by
      rw [← hm]
      exact (List.getElem?_eq_some_iff.1 hget).1
    obtain ⟨tuple, htuple, ht⟩ := htuples i hi
    refine ⟨tuple, htuple, ht, fun hbind j hj => ?_⟩
    have hrecord := hbind record (List.mem_of_getElem? hget)
    have hall : ∀ r ∈ records, (schema.bindArgs r).length = (schema.bindArgs record).length := by
      intro r hr
      have := hbind r hr
      omega
    refine ⟨i * (schema.bindArgs record).length + j, ?_, bindArgsAll_get hall hget hj⟩
    rw [ht.numbers, i32Range, List.getElem?_map, List.getElem?_range (by
      rw [show ((i : ℤ) + 1) * schema.argN + 1 - (i * schema.argN + 1) = schema.argN by ring]
      omega)]
    rw [Option.map_some, ← hrecord]
    push_cast
    congr 1
    ring

/-- A table with one argument between defaults. -/
def oneArg : TableSchemas ℕ ℕ := ⟨"just_test", 1, [1, 2, 4], fun record => [record]⟩

theorem oneArg_sorted : oneArg.Sorted := ⟨by decide, by decide, by decide, by decide⟩

theorem sqlStatementRt_placed_two : oneArg.Placed true [10, 20] :=
  sqlStatementRt_placed true oneArg [10, 20] oneArg_sorted (by decide) (by decide)

example : sqlStatementRt true oneArg [10, 20] =
    some "INSERT INTO just_test VALUES (DEFAULT,DEFAULT,$1,DEFAULT),(DEFAULT,DEFAULT,$2,DEFAULT) ON CONFLICT DO NOTHING" := by
  decide +kernel

/-! ## Too many records -/

/-- Each tuple makes the statement longer. -/
theorem length_intercalate_tuples (tuples : List (List (Option ℤ))) :
    tuples.length ≤ (",".intercalate (tuples.map tupleText)).length := by
  induction tuples with
  | nil => simp
  | cons tuple tuples ih =>
    cases tuples with
    | nil =>
      have : ("(").length = 1 := by decide
      simp only [List.map_cons, List.map_nil, String.intercalate_singleton, tupleText,
        String.length_append, List.length_cons,
        List.length_nil]
      omega
    | cons next tuples =>
      rw [List.map_cons, List.map_cons, String.intercalate_cons_cons, ← List.map_cons]
      simp only [String.length_append, List.length_cons] at ih ⊢
      have : (",").length = 1 := by decide
      omega

/-- From `2 ^ 31` records on the count is negative, and no tuple follows the first. -/
theorem sqlStatementRt_wrapped (h : (records.length : ℤ) = 2 ^ 31) :
    sqlStatementRt checked schema records =
      (sqlStatement checked schema).bind fun s => some (s ++ " ON CONFLICT DO NOTHING") := by
  have hrange : i32Range 1 (Int.bmod (2 ^ 31) (2 ^ 32)) = [] := by decide
  rw [sqlStatementRt, h, hrange]
  rfl

theorem not_placed :
    ¬ (⟨"just_test", 1, [], fun _ => [0]⟩ : TableSchemas Unit ℕ).Placed true
      (List.replicate (2 ^ 31) ()) := by
  rintro ⟨tuples, htext, hlen, -⟩
  have hn : ((List.replicate (2 ^ 31) ()).length : ℤ) = 2 ^ 31 := by
    rw [List.length_replicate]
    norm_num
  rw [sqlStatementRt_wrapped hn,
    show sqlStatement true (⟨"just_test", 1, [], fun _ => [0]⟩ : TableSchemas Unit ℕ) =
    some "INSERT INTO just_test VALUES ($1)" by decide +kernel, Option.bind_some,
    Option.some.injEq] at htext
  have hlong := length_intercalate_tuples tuples
  rw [hlen, List.length_replicate] at hlong
  have hshort := congrArg String.length htext
  simp only [String.length_append] at hshort
  have : ("INSERT INTO just_test VALUES ($1)").length = 33 := by decide
  have : (" ON CONFLICT DO NOTHING").length = 23 := by decide
  omega

end Dingir.InsertTable
