import UnitOfWork.Record.Dependency

/-!
# Insert plans

Which records of a batch can be written now. Every decision looks at the records as they are
before the batch, so that a record written by the batch does not release another one of it.
-/

namespace UnitOfWork

structure PlannedInsert where
  record : RecordId
  /-- It refers to a record whose key is not known yet, so that its foreign keys have to be
  written later. -/
  needsFixUp : Bool
  deriving DecidableEq, Repr

/-- What becomes of a batch of records. -/
structure InsertPlan where
  inserts : List PlannedInsert := []
  /-- Records that have to wait for others. -/
  retries : List RecordId := []
  /-- How many records have nothing to write. -/
  skipped : Nat := 0
  deriving DecidableEq, Repr

/-- What an insert leaves to be done. -/
structure InsertResults where
  /-- Records whose foreign keys are still to be written. -/
  fixUps : List RecordId := []
  /-- Records that are not written. -/
  retries : List RecordId := []
  deriving DecidableEq, Repr

namespace Heap

/-- A new record can be written: its key waits for no other record and, where foreign keys are
checked at once, neither does a reference. -/
def canInsert (h : Heap) (deferrable : Bool) (r : RecordId) : Bool :=
  !h.keyAwaits r && (deferrable || !h.refersToPending r)

/-- Plans a batch. Only new records can be inserted; those without changes are passed over. -/
def planInserts (h : Heap) (deferrable : Bool) : List RecordId → Except Error InsertPlan
  | [] => .ok {}
  | r :: rs =>
    match (h.get r).state with
    | .unchanged => do
      let plan ← planInserts h deferrable rs
      return { plan with skipped := plan.skipped + 1 }
    | .new => do
      let plan ← planInserts h deferrable rs
      if h.canInsert deferrable r then
        return { plan with inserts := ⟨r, h.refersToAwaiting r⟩ :: plan.inserts }
      else return { plan with retries := r :: plan.retries }
    | state => .error (.unsupportedState (.notInsertable state) (some (h.describe r)))

/-- Notes that a planned record has been written. -/
def completeInsert (h : Heap) (p : PlannedInsert) : Heap :=
  h.modify p.record fun r => if p.needsFixUp then r.markInserted else r.markInserted.resetChanges

end Heap

/-- What is left to be done once the planned records are written. -/
def InsertPlan.results (p : InsertPlan) : InsertResults where
  fixUps := (p.inserts.filter (·.needsFixUp)).map (·.record)
  retries := p.retries

end UnitOfWork
