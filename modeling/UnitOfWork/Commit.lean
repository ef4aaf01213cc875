import UnitOfWork.Commit.Lease
import UnitOfWork.Tracking.Workspace

/-!
# Commits

A commit writes all that is tracked, in a fixed order: it inserts the new records, in rounds until
none is left; it writes the foreign keys of those that were inserted ahead of their references; it
updates the records that have changed; it deletes rows; and it settles the workspace. A store that
reports anything but success ends the commit, and everything it has written is rolled back by the
owner of the stores.
-/

namespace UnitOfWork

/-- What a commit has written. -/
structure Summary where
  inserted : Nat := 0
  fixedUp : Nat := 0
  updated : Nat := 0
  deleted : Nat := 0
  rounds : Nat := 0
  deriving DecidableEq, Repr

/-- A batch of the same type for other records, if there are any. -/
def Batch.only (b : Batch) (records : List RecordId) : List Batch :=
  if records.isEmpty then [] else [{ b with records }]

def recordCount (batches : List Batch) : Nat := (batches.flatMap (·.records)).length

/-- What a round of inserts leaves to be done. -/
structure RoundResults where
  fixUps : List Batch := []
  retries : List Batch := []
  deriving DecidableEq, Repr

namespace Transaction

variable {σ ρ : Type} (tx : Transaction σ ρ)

/-- Stops here if the commit is cancelled. -/
def checkpoint : Leasing σ ρ Unit := fun run =>
  match tx.cancelReason run.session.world with
  | some reason => .error (.cancelled reason) run
  | none => .ok () run

/-- Hands a batch to the writer of its store. -/
def writing {α : Type} (b : Batch) (e : Event) (x : Writer σ ρ → Working σ ρ α) :
    Leasing σ ρ α := do
  tx.checkpoint
  let w ← tx.lease b.type.store
  Leasing.during do
    Working.note e
    x w

/-- Tries to insert every record of some batches, one batch after the other. -/
def insertRound : List Batch → Leasing σ ρ RoundResults
  | [] => return {}
  | b :: bs => do
    let results ← tx.writing b (.insert b.type.name b.records) (·.insert b.type b.records)
    let rest ← insertRound bs
    return { fixUps := b.only results.fixUps ++ rest.fixUps
             retries := b.only results.retries ++ rest.retries }

/-- Inserts every record of some batches, in as many rounds as it takes; the result is what has to
be fixed up. A round has to insert something, so that fewer records are left to be retried than
there were to be inserted. As long as a writer gives back no more records than it was given, as
`Writer.sql` does, this asks no more than that the two numbers differ
(`InsertLoop.Stands.retries_le`). -/
def insertAll (summary : Summary) (pending : List Batch) : Leasing σ ρ (Summary × List Batch) := do
  if pending.isEmpty then return (summary, [])
  let summary := { summary with rounds := summary.rounds + 1 }
  let results ← tx.insertRound pending
  if recordCount results.retries < recordCount pending then
    let inserted := recordCount pending - recordCount results.retries
    let (summary, fixUps) ←
      insertAll { summary with inserted := summary.inserted + inserted } results.retries
    return (summary, results.fixUps ++ fixUps)
  else
    let h ← Leasing.heap
    throw (.failed (.unresolvedDependencies summary.rounds
      (results.retries.flatMap fun b => b.records.map h.describe)))
termination_by recordCount pending

/-- Takes each record as written whose row was affected. -/
def confirm (t : RecordType) : List RecordId → List Nat → Working σ ρ Unit
  | [], _ => return
  | r :: rs, counts => do
    if counts.headD 0 = 0 then
      let description ← .reading fun h => .ok (h.describe r)
      Working.fail (.missingObject t.name description none)
    Working.updating (·.modify r .resetChanges)
    confirm t rs counts.tail

/-- Updates every record of a batch; each of them has to have a row. -/
def updateBatch (b : Batch) : Leasing σ ρ Nat :=
  tx.writing b (.update b.type.name b.records) fun w => do
    let counts ← w.update b.type b.records
    confirm b.type b.records counts
    return b.records.length

def deleteBatch (b : Batch) : Leasing σ ρ Nat :=
  tx.writing b (.delete b.type.name b.records) (·.delete b.type b.records)

def writeAll (w : Workspace) : Leasing σ ρ Summary := do
  let (summary, fixUps) ← tx.insertAll {} w.insertBatches
  let fixedUp ← fixUps.mapM tx.updateBatch
  let updated ← (w.updateBatches (← Leasing.heap)).mapM tx.updateBatch
  let deleted ← w.deleteBatches.mapM tx.deleteBatch
  return { summary with
    fixedUp := total fixedUp, updated := total updated, deleted := total deleted }

end Transaction

namespace Workspace

variable {σ ρ : Type}

/-- Writes all that is tracked and settles the workspace. -/
def flush (tx : Transaction σ ρ) (w : Workspace) (run : Run σ) :
    Except (Halt ρ) Summary × Workspace × Run σ :=
  match tx.writeAll w run with
  | .error halt run => (.error halt, w, run)
  | .ok summary run =>
    match settle (w, run.session.heap) with
    | .ok () (w, heap) => (.ok summary, w, { run with session.heap := heap })
    | .error e (w, heap) => (.error (.failed e), w, { run with session.heap := heap })

/-- Commits all that is tracked. Nothing is asked of the world as long as a new record lacks a
part of its key. -/
def commit (tx : Transaction σ ρ) (w : Workspace) (s : Session σ) :
    Except (Halt ρ) Summary × Workspace × Session σ :=
  if w.config.bypass then (.ok {}, w, s)
  else
    match checkReady (w, s.heap) with
    | .error e (w, heap) => (.error (.failed e), w, { s with heap })
    | .ok () (w, heap) =>
      match w.flush tx { session := { s with heap } } with
      | (.ok summary, w, run) =>
        let (result, run) := tx.conclude run
        (result.map fun _ => summary, w, run.session)
      | (.error halt, w, run) =>
        let (halt, run) := tx.abort halt run
        (.error halt, w, run.session)

end Workspace

end UnitOfWork
