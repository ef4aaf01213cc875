import UnitOfWork.Proofs.Data.Containers
import UnitOfWork.Record.Dependency
import UnitOfWork.Commit.InsertPlan
import UnitOfWork.Sql.Build

/-!
# Why a statement cannot be built

What is computed from the records alone fails by an error about a record only: it is in a state that
does not allow for the statement, or it lacks a part of its key. No store has a part in that.
-/

namespace UnitOfWork

/-- The error is about a record as it stands, or about a value for it. -/
def Error.isRecordFault : Error → Bool
  | missingPrimaryKey .. | unsupportedState .. | mismatch .. => true
  | missingObject .. | unresolvedDependencies .. | config _ | query _ | release .. | cancelled
  | custom _ => false

/-- The computation fails by an error about a record only. -/
def BlamesRecords {α : Type} (x : Except Error α) : Prop :=
  ∀ e, x = .error e → e.isRecordFault = true

namespace BlamesRecords

variable {α β : Type}

private theorem ok (a : α) : BlamesRecords (.ok a) := fun _ h => nomatch h

private theorem error {e : Error} (he : e.isRecordFault = true) :
    BlamesRecords (.error e : Except Error α) := by
  intro e' h
  exact Except.error.inj h ▸ he

theorem bind {x : Except Error α} {f : α → Except Error β} (hx : BlamesRecords x)
    (hf : ∀ a, BlamesRecords (f a)) : BlamesRecords (x >>= f) := by
  cases x with
  | error e => exact error (hx e rfl)
  | ok a => exact hf a

private theorem mapM {f : α → Except Error β} (hf : ∀ a, BlamesRecords (f a)) (l : List α) :
    BlamesRecords (l.mapM f) := by
  intro e h
  obtain ⟨a, -, ha⟩ := mapM_error h
  exact hf a e ha

end BlamesRecords

theorem Record.applyGenerated_blames (x : Record) (column : String) (v : Value) :
    BlamesRecords (x.applyGenerated column v) := by
  rw [applyGenerated]
  split
  · exact .ok _
  · split
    · exact .ok _
    · exact .error rfl

namespace Heap

variable (h : Heap)

theorem planInserts_blames (deferrable : Bool) (rs : List RecordId) :
    BlamesRecords (h.planInserts deferrable rs) := by
  induction rs with
  | nil => exact .ok _
  | cons r rs ih =>
    rw [planInserts]
    split
    · exact ih.bind fun _ => .ok _
    · refine ih.bind fun plan => ?_
      split <;> exact .ok _
    · exact .error rfl

private theorem keyAssignment_blames (r : RecordId) (c : KeyColumn × Option Key) :
    BlamesRecords (h.keyAssignment r c) := by
  obtain ⟨column, slot⟩ := c
  simp only [keyAssignment]
  split
  · exact .ok _
  · split
    · exact .ok _
    · exact .error rfl
  · exact .ok _

theorem insertStatement_blames (t : RecordType) (r : RecordId) :
    BlamesRecords (h.insertStatement t r) :=
  (BlamesRecords.mapM (h.keyAssignment_blames r) (h.slotsAs t r)).bind fun _ => .ok _

private theorem keyMatch_blames (t : RecordType) (r : RecordId) :
    BlamesRecords (h.keyMatch t r) := by
  rw [keyMatch]
  split
  · exact .ok _
  · exact .error rfl

theorem updateStatement?_blames (t : RecordType) (r : RecordId) :
    BlamesRecords (h.updateStatement? t r) := by
  rw [updateStatement?]
  split
  · exact .ok _
  · exact (h.keyMatch_blames t r).bind fun _ => .ok _

theorem probeStatement_blames (t : RecordType) (r : RecordId) :
    BlamesRecords (h.probeStatement t r) :=
  (h.keyMatch_blames t r).bind fun _ => .ok _

theorem deleteStatements_blames (t : RecordType) (rs : List RecordId) :
    BlamesRecords (h.deleteStatements t rs) := by
  rw [deleteStatements]
  split
  · exact .ok _
  · refine (BlamesRecords.mapM (h.keyMatch_blames t) rs).bind fun keys => ?_
    split <;> exact .ok _

end Heap

end UnitOfWork
