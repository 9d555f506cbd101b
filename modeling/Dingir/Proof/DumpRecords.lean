import Dingir.Spec.InsertTable
import Dingir.Proof.Writer

/-!
# Every record of a snapshot is inserted once

A batch is cut into statements of a power of two of rows, and less than eight at last
(`queryFineLoop_spec`). An error gives back the rows from the statement that failed
on; they are filled up from the iterator and tried again. Each turn of the loop
inserts a row or uses up one of the failures (`dumpRecordsLoop_ends`).

- **`dumpRecords_once`**: the rows of the statements that succeeded are the records,
  in order.
-/

namespace Dingir

variable {Q : Type} {conn conn' : Connection Q} {rows records iter : List Q}
  {r : Except (List Q) Unit} {n fuel : ℕ}

/-! ## One batch -/

/-- The sizes of statements: a power of two from 8 to 1024, or less than 8. -/
def Statement.Sized (stmt : Statement Q) : Prop :=
  (∃ k, 3 ≤ k ∧ k ≤ 10 ∧ stmt.rows.length = 2 ^ k) ∨ 0 < stmt.rows.length ∧ stmt.rows.length < 8

/-- The rows of the statements that succeeded. -/
def insertedRows (stmts : List (Statement Q)) : List Q :=
  (stmts.filter fun stmt => stmt.succeeded).flatMap Statement.rows

theorem insertedRows_append (stmts stmts' : List (Statement Q)) :
    insertedRows (stmts ++ stmts') = insertedRows stmts ++ insertedRows stmts' := by
  simp [insertedRows]

/-- What an answer leaves to be inserted. -/
def resident : Except (List Q) Unit → List Q
  | .error rows => rows
  | .ok () => []

theorem statementLength_sized (rows : List Q) (h : rows ≠ []) :
    (∃ k, 3 ≤ k ∧ k ≤ 10 ∧ statementLength rows = 2 ^ k) ∨ 0 < statementLength rows ∧
      statementLength rows < 8 := by
  have hpos : 0 < rows.length := List.length_pos_iff.2 h
  unfold statementLength
  by_cases h8 : rows.length ≥ 8
  · rw [if_pos h8]
    cases hfind :
      ([10, 9, 8, 7, 6, 5, 4, 3] : List ℕ).find? fun n => decide (rows.length ≥ 2 ^ n) with
    | none =>
      have := List.find?_eq_none.1 hfind 3 (by simp)
      simp only [decide_eq_true_eq] at this
      omega
    | some k =>
      have hk := List.mem_of_find?_eq_some hfind
      refine .inl ⟨k, ?_, ?_, rfl⟩ <;>
        · simp only [List.mem_cons, List.not_mem_nil, or_false] at hk
          omega
  · rw [if_neg h8]
    exact .inr ⟨hpos, not_le.1 h8⟩

/-- The first statement of a batch has the length it should. -/
theorem statement_sized (rows : List Q) (h : rows ≠ []) (ok : Bool) :
    (⟨rows.take (statementLength rows), ok⟩ : Statement Q).Sized := by
  have hlen : (rows.take (statementLength rows)).length = statementLength rows :=
    List.length_take_of_le (statementLength_le rows)
  unfold Statement.Sized
  simp only [hlen]
  exact statementLength_sized rows h

theorem statementLength_pos (h : rows ≠ []) : 0 < statementLength rows := by
  rcases statementLength_sized rows h with ⟨k, -, -, hk⟩ | ⟨hpos, -⟩
  · rw [hk]
    positivity
  · exact hpos

/-- What a batch did: its statements, what they inserted, and the failures it met. -/
structure Queried (conn conn' : Connection Q) (rows : List Q)
    (r : Except (List Q) Unit) : Prop where
  issued : ∃ stmts, conn'.issued = conn.issued ++ stmts ∧ (∀ stmt ∈ stmts, stmt.Sized) ∧
    insertedRows stmts ++ resident r = rows
  failing : conn'.failing.length ≤ conn.failing.length
  failed : ∀ left, r = .error left → conn'.failing.length < conn.failing.length ∧ left ≠ []

theorem queryFineLoop_spec (h : queryFineLoop fuel conn rows = (r, conn'))
    (hfuel : rows.length ≤ fuel) : Queried conn conn' rows r := by
  induction fuel generalizing conn rows with
  | zero =>
    obtain ⟨rfl, rfl⟩ := Prod.mk.inj h
    obtain rfl : rows = [] := List.length_eq_zero_iff.1 (Nat.le_zero.1 hfuel)
    exact ⟨⟨[], by simp [insertedRows, resident]⟩, le_rfl, by simp⟩
  | succ fuel ih =>
    unfold queryFineLoop at h
    by_cases hempty : rows = []
    · subst hempty
      obtain ⟨rfl, rfl⟩ := Prod.mk.inj h
      exact ⟨⟨[], by simp [insertedRows, resident]⟩, le_rfl, by simp⟩
    rw [if_neg (by simpa using hempty)] at h
    have hsized := statement_sized rows hempty
    have hpos := statementLength_pos hempty
    unfold Connection.sqlQuery at h
    cases hfail : conn.failing.head?.getD false with
    | false =>
      simp only [hfail, Bool.not_false, if_true] at h
      have hdrop : (rows.drop (statementLength rows)).length ≤ fuel := by
        rw [List.length_drop]
        omega
      obtain ⟨⟨stmts, hissued, hsizes, hrows⟩, hfailing, hfailed⟩ := ih h hdrop
      have htail : conn.failing.tail.length ≤ conn.failing.length := by simp
      refine ⟨⟨⟨rows.take (statementLength rows), true⟩ :: stmts, by simp [hissued], ?_, ?_⟩,
        hfailing.trans htail,
        fun left hleft => ⟨(hfailed left hleft).1.trans_le htail, (hfailed left hleft).2⟩⟩
      · intro stmt hstmt
        rcases List.mem_cons.1 hstmt with rfl | hstmt
        · exact hsized true
        · exact hsizes stmt hstmt
      · have hcons : insertedRows (⟨rows.take (statementLength rows), true⟩ :: stmts) =
            rows.take (statementLength rows) ++ insertedRows stmts := by simp [insertedRows]
        rw [hcons, List.append_assoc, hrows, List.take_append_drop]
    | true =>
      simp only [hfail, Bool.not_true, Bool.false_eq_true, if_false] at h
      obtain ⟨rfl, rfl⟩ := Prod.mk.inj h
      -- the failure is one of those to come
      have hlen : conn.failing.tail.length < conn.failing.length := by
        cases hf : conn.failing with
        | nil => simp [hf] at hfail
        | cons _ _ => simp
      refine ⟨⟨[⟨rows.take (statementLength rows), false⟩], rfl,
        ?_, by simp [insertedRows, resident]⟩, hlen.le,
        fun left hleft => ⟨hlen, Except.error.inj hleft ▸ hempty⟩⟩
      intro stmt hstmt
      rw [List.mem_singleton.1 hstmt]
      exact hsized false

theorem sqlQueryFine_spec (h : sqlQueryFine conn rows = (r, conn')) : Queried conn conn' rows r :=
  queryFineLoop_spec h le_rfl

/-! ## All records -/

theorem collectN_append (iter record : List Q) :
    (collectN n iter record).1 ++ (collectN n iter record).2 = record ++ iter := by
  induction iter generalizing record with
  | nil => simp [collectN]
  | cons i iter ih =>
    unfold collectN
    split
    · rfl
    · rw [ih]
      simp

/-- Nothing is collected only when nothing is left. -/
theorem collectN_nil (hn : 1 ≤ n) (iter record : List Q)
    (h : (collectN n iter record).1 = []) : record = [] ∧ iter = [] := by
  induction iter generalizing record with
  | nil => exact ⟨h, rfl⟩
  | cons i iter ih =>
    unfold collectN at h
    split at h
    · rename_i hlen
      obtain rfl : record = [] := h
      simp at hlen
      omega
    · simpa using (ih _ h).1

/-- **The loop ends**, with the rest of the records inserted. -/
theorem dumpRecordsLoop_ends (hn : 1 ≤ n) (count : ℕ) (hrest : records = [] → iter = [])
    (hfuel : conn.failing.length + records.length + iter.length < fuel) :
    ∃ conn' stmts, dumpRecordsLoop n fuel conn iter records count =
      some (count + (records ++ iter).length, conn') ∧
      conn'.issued = conn.issued ++ stmts ∧ (∀ stmt ∈ stmts, stmt.Sized) ∧
        insertedRows stmts = records ++ iter := by
  induction fuel generalizing conn iter records count with
  | zero => omega
  | succ fuel ih =>
    unfold dumpRecordsLoop
    by_cases hempty : records = []
    · obtain rfl := hrest hempty
      subst hempty
      exact ⟨conn, [], by simp, by simp, by simp, rfl⟩
    rw [if_neg (by simpa using hempty)]
    have hpos : 0 < records.length := List.length_pos_iff.2 hempty
    rcases hquery : sqlQueryFine conn records with ⟨r, conn₁⟩
    obtain ⟨⟨stmts, hissued, hsizes, hrows⟩, hfailing, hfailed⟩ := sqlQueryFine_spec hquery
    -- what comes next is what is left, and the rest of the iterator
    have hnext : ∀ left, insertedRows stmts ++ left = records → ∀ count',
        count' + left.length = count + records.length →
        conn₁.failing.length + left.length < conn.failing.length + records.length →
        ∃ conn' stmts,
          dumpRecordsLoop n fuel conn₁ (collectN n iter left).2 (collectN n iter left).1 count' =
          some (count + (records ++ iter).length, conn') ∧ conn'.issued = conn.issued ++ stmts ∧
          (∀ stmt ∈ stmts, stmt.Sized) ∧ insertedRows stmts = records ++ iter := by
      intro left hleft count' hcount hless
      have happend := collectN_append (n := n) iter left
      have hlen := congrArg List.length happend
      simp only [List.length_append] at hlen
      have hiter : (collectN n iter left).1 = [] → (collectN n iter left).2 = [] := by
        intro hnil
        obtain ⟨rfl, rfl⟩ := collectN_nil hn iter left hnil
        rfl
      have hfuel' : conn₁.failing.length + (collectN n iter left).1.length +
          (collectN n iter left).2.length < fuel := by
        omega
      obtain ⟨conn', stmts', hloop, hissued', hsizes', hrows'⟩ := ih count' hiter hfuel'
      have htotal : left.length + (insertedRows stmts).length = records.length := by
        rw [← hleft, List.length_append, add_comm]
      refine ⟨conn', stmts ++ stmts', ?_, by rw [hissued', hissued, List.append_assoc], ?_, ?_⟩
      · rw [hloop, happend]
        simp only [List.length_append]
        congr 2
        omega
      · intro stmt hstmt
        rcases List.mem_append.1 hstmt with hstmt | hstmt
        · exact hsizes stmt hstmt
        · exact hsizes' stmt hstmt
      · rw [insertedRows_append, hrows', happend, ← List.append_assoc, hleft]
    cases r with
    | ok u =>
      have hall : insertedRows stmts ++ [] = records := hrows
      exact hnext [] hall (count + records.length) rfl (by simp only [List.length_nil]; omega)
    | error left =>
      have hall : insertedRows stmts ++ left = records := hrows
      have hle : left.length ≤ records.length := by
        rw [← hall, List.length_append]
        omega
      exact hnext left hall (count + records.length - left.length) (by omega)
        (by have := (hfailed left rfl).1; omega)

/-- A loop that has ended needs no more fuel. -/
theorem dumpRecordsLoop_succ {count : ℕ} {res : ℕ × Connection Q}
    (h : dumpRecordsLoop n fuel conn iter records count = some res) :
    dumpRecordsLoop n (fuel + 1) conn iter records count = some res := by
  induction fuel generalizing conn iter records count with
  | zero => simp [dumpRecordsLoop] at h
  | succ fuel ih =>
    unfold dumpRecordsLoop at h ⊢
    split
    · rename_i hempty
      rwa [if_pos hempty] at h
    · rename_i hempty
      rw [if_neg hempty] at h
      rcases hquery : sqlQueryFine conn records with ⟨r | r, conn₁⟩ <;> rw [hquery] at h <;>
        exact ih h

/-- **Every record is inserted once, whatever fails**: `dump_records` ends and returns their number,
the rows of the statements that succeeded are the records in order, and each statement has a good
size. What `sql_query_fine` gives back on an error is what it has not inserted. -/
theorem dumpRecords_once (hn : 1 ≤ n) (failing : List Bool) (records : List Q) :
    (∃ fuel₀ conn,
      (∀ fuel ≥ fuel₀, dumpRecords fuel n failing records = some (records.length, conn)) ∧
      insertedRows conn.issued = records ∧ ∀ stmt ∈ conn.issued, stmt.Sized) ∧
    ∀ conn rows r conn', sqlQueryFine conn rows = (r, conn') →
      ∃ stmts, conn'.issued = conn.issued ++ stmts ∧
      (∀ stmt ∈ stmts, stmt.Sized) ∧ insertedRows stmts ++ resident r = (rows : List Q) := by
  refine ⟨?_, fun conn rows r conn' h => (sqlQueryFine_spec h).issued⟩
  have happend := collectN_append (n := n) records []
  have hlen := congrArg List.length happend
  simp only [List.length_append, List.length_nil, zero_add] at hlen
  have hiter : (collectN n records []).1 = [] → (collectN n records []).2 = [] := by
    intro hnil
    obtain ⟨-, rfl⟩ := collectN_nil hn records [] hnil
    rfl
  have hfuel : ({ failing, issued := [] } : Connection Q).failing.length +
    (collectN n records []).1.length +
      (collectN n records []).2.length < failing.length + records.length + 1 := by
    simp only
    omega
  obtain ⟨conn, stmts, hloop, hissued, hsizes, hrows⟩ := dumpRecordsLoop_ends hn 0 hiter hfuel
  rw [happend, List.nil_append, zero_add] at hloop
  rw [happend, List.nil_append] at hrows
  rw [List.nil_append] at hissued
  refine ⟨failing.length + records.length + 1, conn,
    fun fuel hfuel => ?_, by rw [hissued]; exact hrows, by rw [hissued]; exact hsizes⟩
  induction fuel, hfuel using Nat.le_induction with
  | base => exact hloop
  | succ fuel _ ih => exact dumpRecordsLoop_succ ih

/-- Ten records, five at a time; the first statement and the third fail. -/
theorem dumpRecords_once_ten : ∃ fuel₀ conn,
    (∀ fuel ≥ fuel₀, dumpRecords fuel 5 [true, false, true] (List.range 10) = some (10, conn)) ∧
      insertedRows conn.issued = List.range 10 ∧ ∀ stmt ∈ conn.issued, stmt.Sized :=
  (dumpRecords_once (by decide) [true, false, true] (List.range 10)).1

end Dingir
