import UnitOfWork.Commit.InsertPlan
import UnitOfWork.Commit.Session
import UnitOfWork.Data.Row
import UnitOfWork.Sql.Build

/-!
# Writers

A writer writes batches of records of one type to one store. `Writer.sql` does so by statements
over a connection.
-/

namespace UnitOfWork

structure Writer (σ : Type) (ρ : Type := CancelReason) where
  /-- The store checks foreign keys only at the end of the transaction. -/
  deferrable : Bool
  insert : RecordType → List RecordId → Working σ ρ InsertResults
  /-- Tells how many rows were affected for each record. -/
  update : RecordType → List RecordId → Working σ ρ (List Nat)
  /-- Tells how many rows were affected in all. -/
  delete : RecordType → List RecordId → Working σ ρ Nat

/-- A connection to a store: it runs the text of a statement with the given values. -/
structure Connection (σ : Type) (ρ : Type := CancelReason) where
  store : String
  query : String → List Value → σ → Except (Halt ρ) (Option Row) × σ
  /-- Tells how many rows were affected, a number without a bound: unlike a count in a machine word
  it does not wrap around at `2 ^ 64` rows. -/
  execute : String → List Value → σ → Except (Halt ρ) Nat × σ

namespace Connection

variable {σ ρ : Type} (c : Connection σ ρ)

/-- Completes the diagnostics of errors by the statement that was run, and by the record that it
was run for. -/
def diagnosed {α : Type} (t : RecordType) (r : Option RecordId) (s : Statement)
    (x : Working σ ρ α) : Working σ ρ α := fun session =>
  match x session with
  | .error (.failed e) session =>
    .error (.failed (e.decorate (some s.sql) t.name (r.map session.heap.describe))) session
  | result => result

def fetch (t : RecordType) (r : RecordId) (s : Statement) : Working σ ρ (Option Row) :=
  diagnosed t r s (.ask (.query c.store r s) (c.query s.sql s.params))

/-- Runs a statement for a row that has to be there. -/
def fetchRow (t : RecordType) (r : RecordId) (s : Statement) : Working σ ρ Row := do
  match ← c.fetch t r s with
  | some row => return row
  | none => diagnosed t r s (.fail (.query
      { fault := .notFound, message := "insert returned no generated values" }))

def perform (t : RecordType) (r : Option RecordId) (s : Statement) : Working σ ρ Nat :=
  diagnosed t r s (.ask (.execute c.store r s) (c.execute s.sql s.params))

/-- Takes over the generated columns of a record from a row. -/
def takeGenerated (r : RecordId) (row : Row) : List String → Working σ ρ Unit
  | [] => return
  | column :: columns => do
    match row.find? column with
    | none => pure ()
    | some v =>
      let content ← .reading fun h => (h.get r).applyGenerated column v
      Working.updating (·.set r content)
    takeGenerated r row columns

def insertOne (t : RecordType) (p : PlannedInsert) : Working σ ρ Unit := do
  let s ← .reading (·.insertStatement t p.record)
  if s.returning.isEmpty then
    let _ ← c.perform t p.record s
  else
    let row ← c.fetchRow t p.record s
    takeGenerated p.record row s.returning
  Working.updating (·.completeInsert p)

/-- Writes one tracked record; a record without a column to write is looked for instead. -/
def updateOne (t : RecordType) (r : RecordId) : Working σ ρ Nat := do
  match ← .reading (·.updateStatement? t r) with
  | some s => c.perform t r s
  | none =>
    let s ← .reading (·.probeStatement t r)
    return if (← c.fetch t r s).isSome then 1 else 0

end Connection

/-- How many rows were affected in all. As a count has no bound, neither has the sum. -/
def total (counts : List Nat) : Nat := counts.foldr (· + ·) 0

/-- The writer that runs statements over a connection. -/
def Writer.sql {σ ρ : Type} (c : Connection σ ρ) (deferrable : Bool) : Writer σ ρ where
  deferrable := deferrable
  insert t rs := do
    let plan ← .reading (·.planInserts deferrable rs)
    plan.inserts.forM (c.insertOne t)
    return plan.results
  update t rs := rs.mapM (c.updateOne t)
  delete t rs := do
    let statements ← .reading (·.deleteStatements t rs)
    let counts ← statements.mapM (c.perform t none)
    return total counts

end UnitOfWork
