import UnitOfWork.Record.Heap

/-!
# Key resolution

The key of a record, when every component is known. A component that is taken from a reference is
the key of the referenced record, which may itself be taken from a reference; a chain of more than
sixteen references counts as unknown, and so does a record that takes its key from itself.
-/

namespace UnitOfWork.Heap

/-- The most references that a key component may be taken through. -/
def maxReferenceDepth : Nat := 16

/-- The value of one key column of the record `r`. The key of another record is found by
`follow`. -/
def component? (h : Heap) (follow : RecordId → Option RowKey) (r : RecordId) :
    KeyColumn × Option Key → Option Key
  | (column, slot) =>
    match column.source with
    | .supplied | .generated => slot
    | .reference field => do
      let target ← (h.get r).references.get? field
      if target = r then none
      else
        let key ← (follow target).bind RowKey.single?
        key.convert? column.kind

/-- The key of a record through fewer than `depth` references. -/
def resolve? (h : Heap) : (depth : Nat) → RecordId → Option RowKey
  | 0, _ => none
  | depth + 1, r => ((h.get r).keySlots.mapM (h.component? (h.resolve? depth) r)).map .mk

/-- The key of a record, when every component is known. -/
def primaryKey? (h : Heap) (r : RecordId) : Option RowKey := h.resolve? (maxReferenceDepth + 1) r

/-- The type of a record and its key, for messages. -/
def describe (h : Heap) (r : RecordId) : String :=
  let key := match h.primaryKey? r with
    | some key => key.list
    | none => "?"
  (h.get r).type.name ++ "(" ++ key ++ ")"

/-- What a foreign key column holds for a reference: the key of the target if that has one
component, and NULL as long as it is not known. -/
def foreignKey (h : Heap) (target : RecordId) : Value :=
  match (h.primaryKey? target).bind RowKey.single? with
  | some key => key.toValue
  | none => .null

end UnitOfWork.Heap
