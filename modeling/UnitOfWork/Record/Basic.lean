import UnitOfWork.Data.Key
import UnitOfWork.Data.NameMap
import UnitOfWork.Schema.RecordType

/-!
# Records

One record in memory: the slots of its key, its data columns, the records it refers to, and what
has happened to it since it was last written. Records refer to each other by identity, so two
records with the same content are still two.
-/

namespace UnitOfWork

/-- The identity of a record. Identities are given out in the order of creation. -/
structure RecordId where
  index : Nat
  deriving DecidableEq, Repr

structure Record where
  type : RecordType
  /-- One slot for each key column. Slots of columns taken from references stay empty. -/
  slots : List (Option Key)
  values : NameMap Value := ∅
  references : NameMap RecordId := ∅
  isNew : Bool := true
  isDeleted : Bool := false
  /-- The names of assigned columns and fields that are not written yet. -/
  changed : NameSet := ∅
  /-- The store has assigned a column since the record was last written. -/
  hydrated : Bool := false
  /-- The running commit has written the record. -/
  inserted : Bool := false
  /-- Built outside any workspace, to be imported. -/
  transient : Bool := false
  slots_length : slots.length = type.key.length
  deriving DecidableEq, Repr

namespace Record

/-- A record that the application is about to create. -/
def create (t : RecordType) : Record :=
  { type := t, slots := List.replicate t.key.length none, slots_length := by simp }

def createTransient (t : RecordType) : Record := { create t with transient := true }

/-- A record read from a row that its store holds. -/
def persisted (t : RecordType) : Record := { create t with isNew := false }

instance : Inhabited Record := ⟨persisted default⟩

def hasChanges (r : Record) : Bool := !r.changed.isEmpty

/-- Deletion hides newness, and newness hides changes. -/
def state (r : Record) : RecordState :=
  if r.isDeleted then .deleted
  else if r.isNew then .new
  else if r.hasChanges then .changed
  else .unchanged

/-- New and not yet written by the running commit. -/
def isPending (r : Record) : Bool := r.isNew && !r.inserted

def keySlots (r : Record) : List (KeyColumn × Option Key) := r.type.key.zip r.slots

def slot? (r : Record) (i : Nat) : Option Key := r.slots[i]?.join

/-- Some key column that the store generates has no value yet. -/
def lacksGeneratedKey (r : Record) : Bool :=
  r.keySlots.any fun (c, slot) => c.isGenerated && slot.isNone

/-- The application has done its part for the key: what it supplies is there, and every reference
that the key is taken from is assigned. -/
def isCommitReady (r : Record) : Bool :=
  r.keySlots.all fun (c, slot) =>
    match c.source with
    | .supplied => slot.isSome
    | .generated => true
    | .reference field => r.references.contains field

def setSlot (r : Record) (i : Nat) (k : Key) : Record :=
  { r with slots := r.slots.set i (some k), slots_length := by simpa using r.slots_length }

/-- Assigns a data column, without noting a change. -/
def assignValue (r : Record) (column : String) (v : Value) : Record :=
  { r with values := r.values.insert column v }

/-- Assigns a reference field, without noting a change. -/
def assignReference (r : Record) (field : String) (target : RecordId) : Except Error Record :=
  if (r.type.reference? field).isSome then
    .ok { r with references := r.references.insert field target }
  else .error (.config (.unknownReference r.type.name field))

/-- Assigns a key column, without noting a change. A column that is taken from a reference is
assigned through that reference only. -/
def assignKey (r : Record) (column : String) (k : Key) : Except Error Record :=
  match r.type.keyColumn? (·.name == column) with
  | none => .error (.config (.unknownKeyColumn r.type.name column))
  | some (c, i) =>
    match c.source with
    | .reference field => .error (.config (.referencedKeyColumn r.type.name column field))
    | .supplied | .generated =>
      if k.kind = c.kind then .ok (r.setSlot i k)
      else .error (.mismatch c.kind.name k.kind.name (some column))

def noteChange (r : Record) (name : String) : Record := { r with changed := r.changed.add name }

def setValue (r : Record) (column : String) (v : Value) : Record :=
  (r.assignValue column v).noteChange column

def setKey (r : Record) (column : String) (k : Key) : Except Error Record :=
  (r.assignKey column k).map (·.noteChange column)

def setReference (r : Record) (field : String) (target : RecordId) : Except Error Record :=
  (r.assignReference field target).map (·.noteChange field)

/-- Takes over a column that the store assigned: a key component if the column is a generated key
column, else a data column. -/
def applyGenerated (r : Record) (column : String) (v : Value) : Except Error Record :=
  match r.type.keyColumn? (fun c => c.name == column && c.isGenerated) with
  | none => .ok { r.assignValue column v with hydrated := true }
  | some (c, i) =>
    match Key.ofValue? c.kind v with
    | some k => .ok { r.setSlot i k with hydrated := true }
    | none => .error (.mismatch c.kind.name v.typeName (some column))

def markDeleted (r : Record) : Record := { r with isDeleted := true }

def undelete (r : Record) : Record := { r with isDeleted := false }

def markInserted (r : Record) : Record := { r with inserted := true }

def setTransient (r : Record) (b : Bool) : Record := { r with transient := b }

/-- Forgets the changes, which have been written. -/
def resetChanges (r : Record) : Record := { r with changed := ∅, hydrated := false }

/-- Settles the record after a commit. -/
def markCommitted (r : Record) : Record :=
  { r with isNew := false, inserted := false }.resetChanges

/-- Fills empty slots from the left with those of another record. -/
def fill : List (Option Key) → List (Option Key) → List (Option Key)
  | s :: ss, o :: os => (s <|> o) :: fill ss os
  | ss, _ => ss

theorem length_fill (ss os : List (Option Key)) : (fill ss os).length = ss.length := by
  induction ss generalizing os with
  | nil => cases os <;> rfl
  | cons s ss ih => cases os <;> simp [fill, ih]

/-- Fills the empty slots of the key from another record. -/
def fillKey (r other : Record) : Record :=
  { r with
    slots := fill r.slots other.slots
    slots_length := by rw [length_fill]; exact r.slots_length }

/-- Takes over a copy of the row that was read again. What was assigned here and not written yet
stays as it is. -/
def merge (r fetched : Record) : Record :=
  { r with
    values := r.values.insertAll
      (fetched.values.entries.filter fun e => !r.changed.contains e.1)
    references := r.references.insertAll
      (fetched.references.entries.filter fun e => !r.changed.contains e.1)
  }.fillKey fetched

/-- Takes over everything that another record for the same row has assigned, as changes. -/
def absorb (r other : Record) : Record :=
  { r with
    values := r.values.insertAll other.values.entries
    references := r.references.insertAll other.references.entries
    changed := NameSet.addAll (NameSet.addAll r.changed other.values.names) other.references.names
  }.fillKey other

/-- How a record is shown, without the records it refers to. -/
def inspect (r : Record) : String :=
  let slot : Option Key → String
    | some k => "Some(" ++ k.inspect ++ ")"
    | none => "None"
  "RecordRef \x7b type: " ++ Text.quoted r.type.name ++
    ", key: [" ++ ", ".intercalate (r.slots.map slot) ++ "], state: " ++ r.state.name ++ " \x7d"

end Record

end UnitOfWork
