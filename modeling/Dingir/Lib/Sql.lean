import Mathlib.Data.Rat.Defs
import Mathlib.Tactic

/-!
# Rows written by position and read by name

An insert lists values for the columns of a table in the order the table declares
them, and leaves out columns at the end; a value is an argument or `DEFAULT`. A row
is read by the names of its columns. Nothing but the table relates the two, so a
round trip is a fact about a table and a record together.

Arguments are numbered from 1. A batch lists the values of several records, and the
arguments of all of them one after the other (`getElem?_flatMap`).
-/

namespace Sql

/-- A value with its type. -/
inductive Cell
  | bigint (n : Int64)
  | integer (n : Int32)
  | smallint (n : Int16)
  | text (s : String)
  | decimal (x : ℚ)
  | timestamp (t : ℚ)
  | bool (b : Bool)

namespace Cell

def toI64 : Cell → Option Int64
  | bigint n => some n
  | _ => none

def toI32 : Cell → Option Int32
  | integer n => some n
  | _ => none

def toI16 : Cell → Option Int16
  | smallint n => some n
  | _ => none

def toText : Cell → Option String
  | text s => some s
  | _ => none

def toDecimal : Cell → Option ℚ
  | decimal x => some x
  | _ => none

def toTimestamp : Cell → Option ℚ
  | timestamp t => some t
  | _ => none

def toBool : Cell → Option Bool
  | bool b => some b
  | _ => none

end Cell

inductive ColumnType
  | serial
  | bigint
  | smallint
  | varchar (n : ℕ)
  | text
  | decimal
  | timestamp
  | bool

structure Column where
  name : String
  type : ColumnType
  /-- `CHECK (name >= 0)` -/
  nonneg : Bool := false
  /-- `DEFAULT`, of a column that is no serial -/
  default? : Option Cell := none

/-- What an omitted value, or `DEFAULT`, stands for. Every column is `NOT NULL`. -/
def Column.omitted (col : Column) (serial : Int32) : Option Cell :=
  match col.type with
  | .serial => some (.integer serial)
  | _ => col.default?

/-- The type, the length and the `CHECK` of a column allow the value. -/
def Column.accepts (col : Column) : Cell → Bool
  | .bigint n => match col.type with
    | .bigint => !col.nonneg || decide (0 ≤ n)
    | _ => false
  | .integer _ => match col.type with
    | .serial => true
    | _ => false
  | .smallint n => match col.type with
    | .smallint => !col.nonneg || decide (0 ≤ n)
    | _ => false
  | .text s => match col.type with
    | .varchar k => decide (s.length ≤ k)
    | .text => true
    | _ => false
  | .decimal _ => match col.type with
    | .decimal => true
    | _ => false
  | .timestamp _ => match col.type with
    | .timestamp => true
    | _ => false
  | .bool _ => match col.type with
    | .bool => true
    | _ => false

abbrev Row := List (String × Cell)

/-- The value of a column: an argument, or the default. -/
def Column.value (col : Column) (serial : Int32) (args : List Cell) :
    Option (Option ℕ) → Option Cell
  | some (some j) => args[j - 1]?
  | _ => col.omitted serial

/-- The values of all columns; more values than columns are an error. -/
def columnValues (serial : Int32) (args : List Cell) :
    List Column → List (Option ℕ) → Option (List Cell)
  | [], [] => some []
  | [], _ :: _ => none
  | col :: cols, values => do
    let v ← col.value serial args values.head?
    return v :: (← columnValues serial args cols values.tail)

/-- Every column accepts its value. -/
def accepted (cols : List Column) (vs : List Cell) : Bool :=
  (cols.zip vs).all fun e => e.1.accepts e.2

/-- `INSERT INTO .. VALUES (..)`, or `none` where it is refused. -/
def insertRow (serial : Int32) (args : List Cell) (cols : List Column)
    (values : List (Option ℕ)) : Option Row := do
  let vs ← columnValues serial args cols values
  guard (accepted cols vs)
  return (cols.map Column.name).zip vs

/-- A column of a row, by its name. -/
def Row.get {α : Type} (row : Row) (name : String) (decode : Cell → Option α) : Option α :=
  (row.lookup name).bind decode

/-! ## Batches -/

/-- Arguments that are numbered differently give every column the same. -/
theorem insertRow_congr {serial : Int32} {args args' : List Cell} {f : ℕ → ℕ} (cols : List Column)
    (values : List (Option ℕ)) (h : ∀ j, some j ∈ values → args'[f j - 1]? = args[j - 1]?) :
    insertRow serial args' cols (values.map (Option.map f)) =
      insertRow serial args cols values := by
  have hvalues : columnValues serial args' cols (values.map (Option.map f)) =
      columnValues serial args cols values := by
    induction cols generalizing values with
    | nil => cases values <;> rfl
    | cons col cols ih =>
      have hvalue : col.value serial args' (values.map (Option.map f)).head? =
          col.value serial args values.head? := by
        cases values with
        | nil => rfl
        | cons v values =>
          cases v with
          | none => rfl
          | some j => exact h j List.mem_cons_self
      have htail : columnValues serial args' cols (values.map (Option.map f)).tail =
          columnValues serial args cols values.tail := by
        cases values with
        | nil => exact ih [] (by simp)
        | cons v values => exact ih values fun j hj => h j (List.mem_cons_of_mem _ hj)
      simp only [columnValues, hvalue, htail]
  unfold insertRow
  rw [hvalues]

/-- An insert whose values are known. -/
theorem insertRow_of_values {serial : Int32} {args vs : List Cell} {cols : List Column}
    {values : List (Option ℕ)} (h : columnValues serial args cols values = some vs) :
    insertRow serial args cols values =
      if accepted cols vs then some ((cols.map Column.name).zip vs) else none := by
  unfold insertRow
  rw [h]
  by_cases ha : accepted cols vs = true
  · simp [ha, guard]
  · simp [ha, guard]

/-- An argument of the `i`th record, among the arguments of all of them. -/
theorem getElem?_flatMap {R : Type} {bind : R → List Cell} {n : ℕ}
    (hbind : ∀ r, (bind r).length = n) {rs : List R} {i k : ℕ} (hi : i < rs.length) (hk : k < n) :
    (rs.flatMap bind)[i * n + k]? = (bind rs[i])[k]? := by
  induction rs generalizing i with
  | nil => simp at hi
  | cons r rs ih =>
    rw [List.flatMap_cons]
    cases i with
    | zero =>
      rw [List.getElem?_append_left (by rw [hbind]; omega)]
      simp
    | succ i =>
      have hlen : (bind r).length ≤ (i + 1) * n + k := by
        rw [hbind, Nat.succ_mul]
        omega
      rw [List.getElem?_append_right hlen, hbind]
      have hsub : (i + 1) * n + k - n = i * n + k := by
        rw [Nat.succ_mul]
        omega
      rw [hsub, ih (by simpa using hi)]
      simp

end Sql
