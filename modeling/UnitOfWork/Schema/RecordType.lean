import UnitOfWork.Error

/-!
# Record types

What the records of one type have in common: where they are stored, which columns make up their
key and where each of these comes from, and which fields refer to other records. A record type is
made from a declaration by `RecordType.ofDeclaration`, which refuses an inconsistent one.
-/

namespace UnitOfWork

/-- Where the value of a key column comes from. -/
inductive KeySource where
  /-- The application assigns it before a commit. -/
  | supplied
  /-- The store assigns it when the row is written. -/
  | generated
  /-- It is the key of the record that the named field refers to. -/
  | reference (field : String)
  deriving DecidableEq, Repr

/-- A field that refers to another record. -/
structure ReferenceField where
  name : String
  /-- The foreign key column. -/
  column : String
  /-- The name of the referenced type. -/
  target : String
  deriving DecidableEq, Repr

structure KeyDeclaration where
  name : String
  sqlType : SqlType
  source : KeySource
  deriving DecidableEq, Repr

/-- A key column, with the kind that its type stands for. -/
structure KeyColumn extends KeyDeclaration where
  kind : KeyKind
  kind_eq : KeyKind.ofSqlType? sqlType = some kind
  deriving DecidableEq, Repr

namespace KeyColumn

/-- A key column of 64-bit numbers. -/
def bigInt (name : String) (source : KeySource) : KeyColumn where
  name
  sqlType := .bigInt
  source
  kind := .int64
  kind_eq := rfl

def isGenerated (c : KeyColumn) : Bool := c.source == .generated

/-- The field the column takes its value from, when that is not declared. -/
def undeclared? (references : List ReferenceField) (c : KeyColumn) : Option String :=
  match c.source with
  | .reference field => if references.any (·.name == field) then none else some field
  | _ => none

end KeyColumn

def SqlType.keyKind (t : SqlType) : Except Error KeyKind :=
  match KeyKind.ofSqlType? t with
  | some kind => .ok kind
  | none => .error (.config (.keyType t))

def KeyDeclaration.typed (d : KeyDeclaration) : Except Error KeyColumn :=
  match h : KeyKind.ofSqlType? d.sqlType with
  | some kind => .ok { d with kind, kind_eq := h }
  | none => .error (.config (.keyType d.sqlType))

/-- Finds the kinds of declared key columns, from the left. -/
def KeyDeclaration.typedAll : List KeyDeclaration → Except Error (List KeyColumn)
  | [] => .ok []
  | d :: ds => do
    let c ← d.typed
    let cs ← typedAll ds
    return c :: cs

/-- What an application says about a record type. -/
structure Declaration where
  name : String
  table : String := name
  store : String := "default"
  key : List KeyDeclaration
  columns : List String := []
  references : List ReferenceField := []
  deriving DecidableEq, Repr

structure RecordType where
  name : String
  table : String
  /-- The store that holds the records. -/
  store : String
  key : List KeyColumn
  columns : List String
  references : List ReferenceField
  key_ne_nil : key ≠ []
  sources_declared : ∀ c ∈ key, c.undeclared? references = none
  deriving DecidableEq, Repr

namespace RecordType

/-- The first key column that takes its value from an undeclared field, with that field. -/
def undeclaredSource? (references : List ReferenceField) (key : List KeyColumn) :
    Option (String × String) :=
  key.findSome? fun c => (c.undeclared? references).map (c.name, ·)

theorem undeclared?_eq_none {references : List ReferenceField} {key : List KeyColumn}
    (h : undeclaredSource? references key = none) :
    ∀ c ∈ key, c.undeclared? references = none := fun c hc => by
  simpa using List.findSome?_eq_none_iff.mp h c hc

def ofDeclaration (d : Declaration) : Except Error RecordType := do
  let key ← KeyDeclaration.typedAll d.key
  if nonempty : key ≠ [] then
    match declared : undeclaredSource? d.references key with
    | some (column, field) => .error (.config (.undeclaredReference d.name column field))
    | none =>
      .ok { d with key, key_ne_nil := nonempty, sources_declared := undeclared?_eq_none declared }
  else
    .error (.config (.noKeyColumns d.name))

instance : Inhabited RecordType where
  default :=
    { name := "", table := "", store := "default", columns := [], references := []
      key := [.bigInt "key" .supplied]
      key_ne_nil := by simp
      sources_declared := by simp [KeyColumn.undeclared?, KeyColumn.bigInt] }

/-- The kind of the first key column, which decides where the records are tracked. -/
def kind (t : RecordType) : KeyKind := (t.key.head t.key_ne_nil).kind

def arity (t : RecordType) : Nat := t.key.length

def generatedCount (t : RecordType) : Nat := t.key.countP KeyColumn.isGenerated

def isComposite (t : RecordType) : Bool := 1 < t.arity

def hasColumn (t : RecordType) (column : String) : Bool := t.columns.contains column

/-- The first key column that satisfies a condition, with its position. -/
def keyColumn? (t : RecordType) (p : KeyColumn → Bool) : Option (KeyColumn × Nat) :=
  t.key.zipIdx.find? fun c => p c.1

def hasKeyColumn (t : RecordType) (column : String) : Bool := t.key.any (·.name == column)

def reference? (t : RecordType) (field : String) : Option ReferenceField :=
  t.references.find? (·.name == field)

end RecordType

end UnitOfWork
