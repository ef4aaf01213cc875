import UnitOfWork.Record.Resolution
import UnitOfWork.Sql.Statement

/-!
# From records to statements

The statement that writes a record as a row of a type. The type gives the table and the columns;
the content is the record's own.
-/

namespace UnitOfWork.Heap

/-- The foreign key value of a reference field, NULL when the field is not assigned. -/
def referenceValue (h : Heap) (r : RecordId) (field : String) : Value :=
  match (h.get r).references.get? field with
  | some target => h.foreignKey target
  | none => .null

/-- The key columns of a type with the slots of a record. -/
def slotsAs (h : Heap) (t : RecordType) (r : RecordId) : List (KeyColumn × Option Key) :=
  t.key.zip (h.get r).slots

/-- What an insert assigns to a key column: nothing, when the store generates it. -/
def keyAssignment (h : Heap) (r : RecordId) :
    KeyColumn × Option Key → Except Error (Option (String × Value))
  | (column, slot) =>
    match column.source with
    | .generated => .ok none
    | .supplied =>
      match slot with
      | some key => .ok (some (column.name, key.toValue))
      | none =>
        .error (.unsupportedState (.emptyKeyColumn column.name) (some (h.describe r)))
    | .reference field => .ok (some (column.name, h.referenceValue r field))

/-- Adds those assignments of a list whose column is not assigned yet. -/
def addMissing (assigned more : List (String × Value)) : List (String × Value) :=
  more.foldl (fun acc e => if acc.any (·.1 == e.1) then acc else acc ++ [e]) assigned

/-- The foreign keys of a record, by the columns of the type that hold them. -/
def foreignKeys (h : Heap) (t : RecordType) (r : RecordId) : List (String × Value) :=
  (h.get r).references.entries.filterMap fun (field, target) =>
    (t.reference? field).map fun ref => (ref.column, h.foreignKey target)

def insertStatement (h : Heap) (t : RecordType) (r : RecordId) : Except Error Statement := do
  let slots := h.slotsAs t r
  let keyed ← slots.mapM (h.keyAssignment r)
  let assigned := addMissing (addMissing keyed.reduceOption (h.get r).values.entries)
    (h.foreignKeys t r)
  let returning := slots.filterMap fun (c, _) => if c.isGenerated then some c.name else none
  return .insert t.table assigned returning

/-- The part of a statement that finds the row of a record. -/
def keyMatch (h : Heap) (t : RecordType) (r : RecordId) : Except Error KeyMatch :=
  match h.primaryKey? r with
  | some key => .ok { columns := t.key.map (·.name), values := key.values }
  | none => .error (.unsupportedState (.unknownKey t.name) (some (h.describe r)))

/-- The names that an update has to write: what has changed, and in a row that was written ahead
of its references every one of these. -/
def dirtyNames (r : Record) : List String :=
  (if r.isNew then NameSet.addAll r.changed r.references.names else r.changed).names

/-- What an update assigns for a changed name. Key columns are never assigned. -/
def assignment? (h : Heap) (t : RecordType) (r : RecordId) (name : String) :
    Option (String × Value) :=
  if t.hasKeyColumn name then none
  else
    match t.reference? name with
    | some ref => some (ref.column, h.referenceValue r name)
    | none => ((h.get r).values.get? name).map (name, ·)

/-- Writes what has changed in a record, if any of it is a column. -/
def updateStatement? (h : Heap) (t : RecordType) (r : RecordId) :
    Except Error (Option Statement) :=
  match (dirtyNames (h.get r)).filterMap (h.assignment? t r) with
  | [] => .ok none
  | assigned => return some (.update t.table assigned (← h.keyMatch t r))

def probeStatement (h : Heap) (t : RecordType) (r : RecordId) : Except Error Statement :=
  return .probe t.table (← h.keyMatch t r)

/-- Deletes the rows of records, at once if the key has one column. -/
def deleteStatements (h : Heap) (t : RecordType) (rs : List RecordId) :
    Except Error (List Statement) := do
  if rs.isEmpty then return []
  let keys ← rs.mapM (h.keyMatch t)
  if t.isComposite then return keys.map (.delete t.table)
  else
    return [.deleteAny t.table (t.key.head t.key_ne_nil).name (keys.flatMap (·.values))]

end UnitOfWork.Heap
