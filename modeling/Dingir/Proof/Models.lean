import Dingir.Spec.Models

/-!
# Records read back as written

A record of a slice that its table takes comes back unchanged. An entry of the
operation log never does: its table has no column for the user, and reading one
fails (`Record.readsBack_iff`). A record of a batch is inserted as it would be alone
(`insertTableBatch_eq`).
-/

namespace Dingir

open Sql TableSchemas BindQueryArg

variable {serial : Int32}

/-! ## The values of a statement -/

/-- Without defaults the arguments stand in their order. -/
theorem expandArgsn_nil (argn : ℕ) : expandArgsn argn [] = (List.range' 1 argn).map some := by
  unfold expandArgsn expandArgsnGen iterHelper
  rw [Nat.add_sub_cancel]

/-- A default in the first place pushes the arguments back by one. -/
theorem expandArgsn_first {argn : ℕ} (h : 0 < argn) :
    expandArgsn argn [1] = none :: (List.range' 1 argn).map some := by
  obtain ⟨n, rfl⟩ := Nat.exists_eq_succ_of_ne_zero h.ne'
  unfold expandArgsn expandArgsnGen
  rw [Nat.add_sub_cancel, List.range'_succ, iterHelper, if_neg (by omega), iterHelper]

/-- A record whose cells can be read comes back when its table takes the cells. -/
theorem insertTable_read {R α : Type} [TableSchemas R] [BindQueryArg R] {r : R} {cols : List Column}
    {vs : List Cell} {read : Row → Option α} {a : α}
    (hcols : migration.lookup (tableName R) = some cols)
    (hvalues : columnValues serial (bindArgs r) cols (expandArgsn (argn R) (defaultArgsn R)) =
      some vs)
    (hread : read ((cols.map Column.name).zip vs) = some a) :
    (insertTable serial r).bind read = some a ↔ accepted cols vs = true := by
  unfold insertTable insertValues
  rw [hcols, Option.bind_some, insertRow_of_values hvalues]
  by_cases ha : accepted cols vs = true
  · rw [if_pos ha, Option.bind_some, hread]
    exact iff_of_true rfl ha
  · rw [if_neg ha]
    exact iff_of_false (by simp) ha

/-! ## Each kind of record -/

theorem orderSlice_reads (r : Models.OrderSlice) :
    (insertTable serial r).bind FromRow.fromRow = some r ↔ (Record.orderSlice r).Fits := by
  have hvalues : columnValues serial (bindArgs r) orderSliceColumns (expandArgsn 18 []) =
      some (bindArgs r) := by
    rw [expandArgsn_nil]
    rfl
  have hread : FromRow.fromRow ((orderSliceColumns.map Column.name).zip (bindArgs r)) = some r := by
    obtain ⟨id, sid, type, side⟩ := r
    cases type <;> cases side <;> rfl
  have hfits : accepted orderSliceColumns (bindArgs r) = true ↔ (Record.orderSlice r).Fits := by
    have hlimit : "limit".length ≤ 30 := by decide
    have hmarket : "market".length ≤ 30 := by decide
    have hask : "ask".length ≤ 30 := by decide
    have hbid : "bid".length ≤ 30 := by decide
    obtain ⟨id, sid, type, side⟩ := r
    cases type <;> cases side <;>
      simp [accepted, orderSliceColumns, bindArgs, Column.accepts, OrderType.toSql,
      OrderSide.toSql, Record.Fits, hlimit, hmarket, hask, hbid]
  exact (insertTable_read rfl hvalues hread).trans hfits

theorem balanceSlice_reads (r : Models.BalanceSliceInsert) :
    ((insertTable serial r).bind FromRow.fromRow).map Models.BalanceSlice.inserted = some r ↔
      (Record.balanceSlice r).Fits := by
  have hvalues : columnValues serial (bindArgs r) balanceSliceColumns (expandArgsn 5 [1]) =
      some (.integer serial :: bindArgs r) := by
    rw [expandArgsn_first (by decide)]
    rfl
  have hfits : accepted balanceSliceColumns (.integer serial :: bindArgs r) = true ↔
      (Record.balanceSlice r).Fits := by
    simp [accepted, balanceSliceColumns, bindArgs, Column.accepts, Record.Fits]
  have hread : (FromRow.fromRow
      ((balanceSliceColumns.map Column.name).zip (.integer serial :: bindArgs r))).map
      Models.BalanceSlice.inserted = some r := rfl
  rw [Option.map_bind]
  exact (insertTable_read rfl hvalues hread).trans hfits

theorem sliceHistory_reads (r : Models.SliceHistory) :
    (insertTable serial r).bind FromRow.fromRow = some r ↔ (Record.sliceHistory r).Fits := by
  have hvalues : columnValues serial (bindArgs r) sliceHistoryColumns (expandArgsn 4 [1]) =
      some (.integer serial :: bindArgs r) := by
    rw [expandArgsn_first (by decide)]
    rfl
  have hfits : accepted sliceHistoryColumns (.integer serial :: bindArgs r) = true ↔
      (Record.sliceHistory r).Fits := by
    simp [accepted, sliceHistoryColumns, bindArgs, Column.accepts, Record.Fits]
  have hread : FromRow.fromRow
      ((sliceHistoryColumns.map Column.name).zip (.integer serial :: bindArgs r)) = some r := rfl
  exact (insertTable_read rfl hvalues hread).trans hfits

/-- A row of the operation log has no user to read. -/
theorem operationLog_reads (r : Models.OperationLog) :
    (insertTable serial r).bind (FromRow.fromRow : Row → Option Models.OperationLog) = none := by
  have hvalues : columnValues serial (bindArgs r) operationLogColumns (expandArgsn 4 []) =
      some (bindArgs r) := by
    rw [expandArgsn_nil]
    rfl
  have hread : (FromRow.fromRow ((operationLogColumns.map Column.name).zip (bindArgs r)) : Option
      Models.OperationLog) = none := rfl
  have hinsert : insertTable serial r =
      insertRow serial (bindArgs r) operationLogColumns (expandArgsn 4 []) := rfl
  rw [hinsert, insertRow_of_values hvalues]
  by_cases ha : accepted operationLogColumns (bindArgs r) = true
  · rw [if_pos ha, Option.bind_some, hread]
  · rw [if_neg ha, Option.bind_none]

/-- **A record is read back as it was written exactly when it is no log entry and its
table takes it.** -/
theorem Record.readsBack_iff (r : Record) : r.ReadsBack ↔ r.Fits ∧ ¬ r.IsLog := by
  cases r with
  | operationLog r =>
    refine iff_of_false (fun h => ?_) fun h => h.2 trivial
    have hread := h 0
    rw [operationLog_reads] at hread
    simp at hread
  | orderSlice r =>
    have hlog : ¬ (Record.orderSlice r).IsLog := id
    exact ⟨fun h => ⟨(orderSlice_reads r).1 (h 0), hlog⟩,
      fun h serial => (orderSlice_reads r).2 h.1⟩
  | balanceSlice r =>
    have hlog : ¬ (Record.balanceSlice r).IsLog := id
    exact ⟨fun h => ⟨(balanceSlice_reads r).1 (h 0), hlog⟩,
      fun h serial => (balanceSlice_reads r).2 h.1⟩
  | sliceHistory r =>
    have hlog : ¬ (Record.sliceHistory r).IsLog := id
    exact ⟨fun h => ⟨(sliceHistory_reads r).1 (h 0), hlog⟩,
      fun h serial => (sliceHistory_reads r).2 h.1⟩

/-- A log entry that fits its table is not read back. -/
theorem Record.not_readsBack : ¬ ∀ r : Record, r.Fits → r.ReadsBack := by
  intro hall
  let entry : Models.OperationLog :=
    ⟨1, "00000000-0000-0000-0000-000000000001", 0, "order_cancel_all", "null"⟩
  have hfits : (Record.operationLog entry).Fits := by
    show (0 : Int64) ≤ 1
    decide
  have hread := hall (.operationLog entry) hfits 0
  rw [operationLog_reads] at hread
  simp at hread

/-! ## Batches -/

/-- The values of a later record are those of the first with their arguments moved on. -/
theorem iterHelper_map (f : ℕ → ℕ) (t1 t2 : List ℕ) (pos : ℕ) :
    iterHelper (t1.map f) t2 pos = (iterHelper t1 t2 pos).map (Option.map f) := by
  induction t1, t2, pos using iterHelper.induct with
  | case1 t1 pos =>
    cases t1 <;> simp [iterHelper]
  | case2 i t2 pos h => simp [iterHelper, h]
  | case3 i t2 pos h ih => simp [iterHelper, h] at ih ⊢; exact ih
  | case4 a t1 i t2 pos h ih => simp [iterHelper, h, ← ih]
  | case5 a t1 i t2 pos h ih => simp [iterHelper, h, ← ih]

theorem mem_iterHelper {j : ℕ} (t1 t2 : List ℕ) (pos : ℕ)
    (h : some j ∈ iterHelper t1 t2 pos) : j ∈ t1 := by
  induction t1, t2, pos using iterHelper.induct with
  | case1 t1 pos =>
    rw [iterHelper] at h
    simpa using h
  | case2 i t2 pos hlt => simp [iterHelper, hlt] at h
  | case3 i t2 pos hlt ih =>
    rw [iterHelper, if_neg hlt] at h
    exact ih (by simpa using h)
  | case4 a t1 i t2 pos hlt ih =>
    rw [iterHelper, if_pos hlt] at h
    rcases List.mem_cons.1 h with heq | h
    · exact List.mem_cons.2 (.inl (Option.some.inj heq))
    · exact List.mem_cons_of_mem _ (ih h)
  | case5 a t1 i t2 pos hlt ih =>
    rw [iterHelper, if_neg hlt] at h
    exact ih (by simpa using h)

/-- **A record of a batch is inserted as it would be alone.** -/
theorem insertTableBatch_eq {R : Type} [TableSchemas R] [BindQueryArg R]
    (hargs : ∀ r : R, (bindArgs r).length = argn R) {rs : List R} {i : ℕ} (hi : i < rs.length) :
    insertTableBatch serial rs i = insertTable serial rs[i] := by
  have hvalues : batchValues R i =
      (expandArgsn (argn R) (defaultArgsn R)).map (Option.map (i * argn R + ·)) := by
    unfold batchValues expandArgsn expandArgsnGen
    have hlast : (i + 1) * argn R + 1 - (i * argn R + 1) = argn R := by
      rw [Nat.succ_mul]
      omega
    rw [hlast, Nat.add_sub_cancel, ← iterHelper_map, List.map_add_range', Nat.add_comm]
  unfold insertTableBatch insertTable insertValues
  rw [hvalues]
  congr 1
  funext cols
  refine insertRow_congr cols _ fun j hj => ?_
  have hmem := mem_iterHelper _ _ _ hj
  rw [List.mem_range'_1] at hmem
  have hsub : i * argn R + j - 1 = i * argn R + (j - 1) := by omega
  rw [hsub]
  exact getElem?_flatMap hargs hi (by omega)

end Dingir
