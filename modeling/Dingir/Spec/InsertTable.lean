import Dingir.Spec.Writer

/-!
# Inserting rows

`storage/sqlxextend.rs`: the text of an insert statement for a batch of rows, and the
way a batch is cut into statements. `matchengine/persist/state_save_load.rs`: the
records of a snapshot are dumped batch by batch, and what an error leaves is tried
again.

The numbers of the placeholders are `i32`: an operation that leaves the type panics
(`none`) where overflow is checked, as it is in a debug build, and wraps otherwise.
-/

namespace Dingir

/-! ## The statement of a batch -/

namespace InsertTable

/-- `TableSchemas` and `BindQueryArg` of a type of rows. -/
structure TableSchemas (T Arg : Type) where
  tableName : String
  argN : ℤ
  defaultArgsn : List ℤ
  bindArgs : T → List Arg

/-- The result of an `i32` operation. -/
def i32 (checked : Bool) (x : ℤ) : Option ℤ :=
  if -2 ^ 31 ≤ x ∧ x < 2 ^ 31 then some x else if checked then none else some (Int.bmod x (2 ^ 32))

/-- The elements of `a..b`. -/
def i32Range (a b : ℤ) : List ℤ := (List.range (b - a).toNat).map fun k : ℕ => a + k

structure IterHelper where
  numbers : List ℤ
  defaults : List ℤ
  position : ℤ
  nextDefault : Option ℤ

namespace IterHelper

/-- The next number, or the end. -/
def nextNumber (s : IterHelper) : Option (Option ℤ) × IterHelper :=
  match s.numbers with
  | [] => (none, s)
  | i :: numbers => (some (some i), { s with numbers })

def next (checked : Bool) (s : IterHelper) : Option (Option (Option ℤ) × IterHelper) := do
  let position ← i32 checked (s.position + 1)
  let s := { s with position }
  match s.nextDefault with
  | some i =>
    if i > position then return s.nextNumber
    else return (some none, { s with nextDefault := s.defaults.head?, defaults := s.defaults.tail })
  | none => return s.nextNumber

/-- The calls of `next` up to the end: each takes a number or a default, so there are not more than
`fuel`. -/
def collect (checked : Bool) : ℕ → IterHelper → Option (List (Option ℤ))
  | 0, _ => some []
  | fuel + 1, s => do
    let (item, s) ← s.next checked
    match item with
    | none => return []
    | some item => return item :: (← collect checked fuel s)

end IterHelper

def expandArgsnGen (checked : Bool) (inp1 : ℤ × ℤ) (inp2 : List ℤ) : Option (List (Option ℤ)) :=
  let t1 := i32Range inp1.1 inp1.2
  IterHelper.collect checked (t1.length + inp2.length + 1)
    { numbers := t1, defaults := inp2.tail, position := 0, nextDefault := inp2.head? }

def expandArgsn (checked : Bool) (inp : ℤ × List ℤ) : Option (List (Option ℤ)) := do
  expandArgsnGen checked (1, ← i32 checked (inp.1 + 1)) inp.2

/-- One entry of a tuple. -/
def argText : Option ℤ → String
  | some i => "$" ++ toString i
  | none => "DEFAULT"

/-- The entries, with commas between them. -/
def argsText (entries : List (Option ℤ)) : String :=
  (entries.map argText).foldl (fun acc s => if acc.isEmpty then s else acc ++ "," ++ s) ""

variable {T Arg : Type}

/-- `InsertTable::sql_statement`. -/
def sqlStatement (checked : Bool) (schema : TableSchemas T Arg) : Option String := do
  let entries ← expandArgsn checked (schema.argN, schema.defaultArgsn)
  return "INSERT INTO " ++ schema.tableName ++ " VALUES (" ++ argsText entries ++ ")"

/-- The placeholder numbers of the record at place `i`. -/
def argRange (checked : Bool) (argN i : ℤ) : Option (ℤ × ℤ) := do
  let first ← i32 checked ((← i32 checked (i * argN)) + 1)
  let last ← i32 checked ((← i32 checked ((← i32 checked (i + 1)) * argN)) + 1)
  return (first, last)

/-- `InsertTableBatch::sql_statement_rt`. -/
def sqlStatementRt (checked : Bool) (schema : TableSchemas T Arg)
    (records : List T) : Option String := do
  let s ← sqlStatement checked schema
  let s ← (i32Range 1 (Int.bmod records.length (2 ^ 32))).foldlM (fun acc i => do
    let entries ← expandArgsnGen checked (← argRange checked schema.argN i) schema.defaultArgsn
    return acc ++ ",(" ++ argsText entries ++ ")") s
  return s ++ " ON CONFLICT DO NOTHING"

/-- `bind_args` of a batch. -/
def bindArgsAll (schema : TableSchemas T Arg) (records : List T) : List Arg :=
  records.flatMap schema.bindArgs

end InsertTable

/-! ## Inserting a batch -/

variable {Q : Type}

/-- A statement that was issued, with its rows. -/
structure Statement (Q : Type) where
  rows : List Q
  succeeded : Bool
  deriving DecidableEq

/-- A connection: which of the next statements fail, and those that were issued. -/
structure Connection (Q : Type) where
  failing : List Bool
  issued : List (Statement Q)

/-- `sql_query`: a statement that fails has no effect. -/
def Connection.sqlQuery (conn : Connection Q) (rows : List Q) : Bool × Connection Q :=
  let ok := !(conn.failing.head?.getD false)
  (ok, { failing := conn.failing.tail, issued := conn.issued ++ [⟨rows, ok⟩] })

/-- The loop of `sql_query_fine`: each statement takes a row at least, so `fuel` is the number of
rows. -/
def queryFineLoop : ℕ → Connection Q → List Q → Except (List Q) Unit × Connection Q
  | 0, conn, _ => (.ok (), conn)
  | fuel + 1, conn, rows =>
    if rows.isEmpty then (.ok (), conn)
    else
      let (ok, conn) := conn.sqlQuery (rows.take (statementLength rows))
      if ok then queryFineLoop fuel conn (rows.drop (statementLength rows)) else (.error rows, conn)

/-- `InsertTableBatch::sql_query_fine`. -/
def sqlQueryFine (conn : Connection Q) (rows : List Q) : Except (List Q) Unit × Connection Q :=
  queryFineLoop rows.length conn rows

/-! ## Dumping the records of a snapshot -/

/-- The records with what `n` of them needs from the iterator, and what is left there. -/
def collectN (n : ℕ) : List Q → List Q → List Q × List Q
  | [], record => (record, [])
  | i :: iter, record =>
    if record.length ≥ n then (record, i :: iter) else collectN n iter (record ++ [i])

/-- The loop of `dump_records`: `none` when it is still running after `fuel` turns. -/
def dumpRecordsLoop (n : ℕ) : ℕ → Connection Q → List Q → List Q → ℕ → Option (ℕ × Connection Q)
  | 0, _, _, _, _ => none
  | fuel + 1, conn, iter, records, insertedCount =>
    if records.isEmpty then some (insertedCount, conn)
    else
      let insertedCount := insertedCount + records.length
      match sqlQueryFine conn records with
      | (.error resident, conn) =>
        let (records, iter) := collectN n iter resident
        dumpRecordsLoop n fuel conn iter records (insertedCount - resident.length)
      | (.ok (), conn) =>
        let (records, iter) := collectN n iter []
        dumpRecordsLoop n fuel conn iter records insertedCount

/-- `dump_records`, with the statements that fail: `true` in `failing`, and none after them. -/
def dumpRecords (fuel n : ℕ) (failing : List Bool) (iter : List Q) : Option (ℕ × Connection Q) :=
  let (records, iter) := collectN n iter []
  dumpRecordsLoop n fuel { failing, issued := [] } iter records 0

end Dingir
