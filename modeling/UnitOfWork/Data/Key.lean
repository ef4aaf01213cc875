import UnitOfWork.Data.Value
import UnitOfWork.Text.Quoted

/-!
# Keys

A row is found by its key, one component for each key column. Components come in four kinds, and
a component of one kind is not equal to one of another, whatever they show.
-/

namespace UnitOfWork

/-- One component of a key. -/
inductive Key where
  | int32 (n : Int32)
  | int64 (n : Int64)
  | uuid (u : Uuid)
  | text (s : String)
  deriving DecidableEq, Repr, Ord

namespace Key

def kind : Key → KeyKind
  | int32 _ => .int32
  | int64 _ => .int64
  | uuid _ => .uuid
  | text _ => .text

/-- The component a column value stands for, when a column of the given kind can hold it. -/
def ofValue? (kind : KeyKind) (v : Value) : Option Key :=
  match kind with
  | .int32 => v.toInt64?.bind fun n =>
    if Int32.minValue.toInt ≤ n.toInt ∧ n.toInt ≤ Int32.maxValue.toInt then some (int32 n.toInt32)
    else none
  | .int64 => v.toInt64?.map int64
  | .uuid => v.toUuid?.map uuid
  | .text => v.toText?.map text

def toValue : Key → Value
  | int32 n => .int n
  | int64 n => .bigInt n
  | uuid u => .uuid u
  | text s => .text s

/-- The component as a column of another kind holds it. -/
def convert? (kind : KeyKind) (k : Key) : Option Key :=
  if k.kind = kind then some k else ofValue? kind k.toValue

/-- How a component is shown in a description. -/
def display : Key → String
  | int32 n => toString n.toInt
  | int64 n => toString n.toInt
  | uuid u => u.toText
  | text s => Text.quoted s

/-- How a component is shown with its kind. -/
def inspect : Key → String
  | int32 n => "Int32(" ++ toString n.toInt ++ ")"
  | int64 n => "Int64(" ++ toString n.toInt ++ ")"
  | uuid u => "Uuid(" ++ u.toText ++ ")"
  | text s => "Text(" ++ Text.quoted s ++ ")"

end Key

/-- The key of a row. Keys are compared component by component, from the left. -/
structure RowKey where
  components : List Key
  deriving DecidableEq, Repr, Ord

namespace RowKey

def arity (k : RowKey) : Nat := k.components.length

def list (k : RowKey) : String := ", ".intercalate (k.components.map Key.display)

def display (k : RowKey) : String := "(" ++ k.list ++ ")"

/-- All that the hash of a key depends on: the arity and the first eight components. -/
def digest (k : RowKey) : Nat × List Key := (k.arity, k.components.take 8)

/-- The only component, when there is one. -/
def single? (k : RowKey) : Option Key :=
  match k.components with
  | [c] => some c
  | _ => none

def values (k : RowKey) : List Value := k.components.map Key.toValue

end RowKey

end UnitOfWork
