import UnitOfWork.Data.Value

/-!
# Rows

A row that a statement gave back: column names and values, side by side.
-/

namespace UnitOfWork

/-- A row. Either list may be the longer one; the size of a row is that of its values. -/
structure Row where
  columns : List String
  values : List Value
  deriving DecidableEq, Repr

namespace Row

def size (r : Row) : Nat := r.values.length

/-- The value at a position. -/
def get? (r : Row) (i : Nat) : Option Value := r.values[i]?

/-- The value of the first column of the given name. -/
def find? (r : Row) (column : String) : Option Value :=
  (r.columns.findIdx? (· == column)).bind r.get?

/-- The columns that have a value, with it. -/
def pairs (r : Row) : List (String × Value) := r.columns.zip r.values

end Row

end UnitOfWork
