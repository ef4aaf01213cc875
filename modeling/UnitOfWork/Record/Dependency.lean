import UnitOfWork.Record.Resolution

/-!
# Dependencies between records

Which records a record refers to, and whether it has to wait for them: a row can be written once
the rows that its key depends on are, and, where the store checks foreign keys at once, once every
row it refers to is.
-/

namespace UnitOfWork.Heap

/-- The records that a record refers to, by field. -/
def targets (h : Heap) (r : RecordId) : List RecordId := (h.get r).references.values

/-- The records that the key of a record is taken from, by key column. -/
def keyTargets (h : Heap) (r : RecordId) : List RecordId :=
  (h.get r).type.key.filterMap fun c =>
    match c.source with
    | .reference field => (h.get r).references.get? field
    | _ => none

def isPending (h : Heap) (r : RecordId) : Bool := (h.get r).isPending

/-- The record waits for a value that the store generates, its own or that of another record. -/
def awaitsKey (h : Heap) (r : RecordId) : Bool := h.isPending r && (h.primaryKey? r).isNone

/-- The record refers to another one that is not written yet. -/
def refersToPending (h : Heap) (r : RecordId) : Bool :=
  (h.targets r).any fun t => t != r && h.isPending t

/-- The record refers to one, perhaps itself, whose key is not known yet. -/
def refersToAwaiting (h : Heap) (r : RecordId) : Bool := (h.targets r).any h.awaitsKey

/-- The key of the record is taken from another one whose key is not known yet. -/
def keyAwaits (h : Heap) (r : RecordId) : Bool :=
  (h.keyTargets r).any fun t => t != r && h.awaitsKey t

end UnitOfWork.Heap
