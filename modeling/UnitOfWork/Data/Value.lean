import UnitOfWork.Data.Json
import UnitOfWork.Data.Uuid
import UnitOfWork.Error

/-!
# Column values

The dynamically typed values that data columns hold and statements bind.
-/

namespace UnitOfWork

inductive Value where
  | null
  | bool (b : Bool)
  | int (n : Int32)
  | bigInt (n : Int64)
  | double (d : Double)
  | text (s : String)
  | bytes (bs : List UInt8)
  | uuid (u : Uuid)
  | json (j : Json)
  deriving DecidableEq, Repr

namespace Value

def typeName : Value → String
  | null => "NULL"
  | bool _ => "BOOLEAN"
  | int _ => "INTEGER"
  | bigInt _ => "BIGINT"
  | double _ => "DOUBLE"
  | text _ => "TEXT"
  | bytes _ => "BLOB"
  | uuid _ => "UUID"
  | json _ => "JSON"

def isNull : Value → Bool
  | null => true
  | _ => false

/-- The value as a whole number; a truth value counts as 0 or 1. -/
def toInt64? : Value → Option Int64
  | int n => some n.toInt64
  | bigInt n => some n
  | bool b => some (if b then 1 else 0)
  | _ => none

def toText? : Value → Option String
  | text s => some s
  | _ => none

/-- The value as a UUID, which may also be written out as text. -/
def toUuid? : Value → Option Uuid
  | uuid u => some u
  | text s => Uuid.ofText? s
  | _ => none

/-- The value as a whole number, or why it is none. -/
def expectInt64 (v : Value) : Except Error Int64 :=
  match v.toInt64? with
  | some n => .ok n
  | none => .error (.mismatch "BIGINT" v.typeName none)

/-- The value as text, or why it is none. -/
def expectText (v : Value) : Except Error String :=
  match v.toText? with
  | some s => .ok s
  | none => .error (.mismatch "TEXT" v.typeName none)

/-- An absent value is stored as NULL. -/
def ofOption : Option Value → Value
  | some v => v
  | none => null

/-- Equality that compares doubles as numbers, so that a NaN differs from itself. -/
def equals : Value → Value → Bool
  | double a, double b => a.equals b
  | a, b => a = b

end Value

end UnitOfWork
