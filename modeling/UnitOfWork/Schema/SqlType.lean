/-!
# Column types

The column types a schema may declare, and the four kinds of column that may be part of a key.
-/

namespace UnitOfWork

inductive SqlType where
  | smallInt
  | integer
  | bigInt
  | double
  | boolean
  | char (length : Nat)
  | varChar (length : Nat)
  | text
  | blob
  | timestamp
  | uuid
  | json
  deriving DecidableEq, Repr

namespace SqlType

def sqlName : SqlType → String
  | smallInt => "SMALLINT"
  | integer => "INTEGER"
  | bigInt => "BIGINT"
  | double => "DOUBLE PRECISION"
  | boolean => "BOOLEAN"
  | char n => "CHAR(" ++ toString n ++ ")"
  | varChar n => "VARCHAR(" ++ toString n ++ ")"
  | text => "TEXT"
  | blob => "BLOB"
  | timestamp => "TIMESTAMP"
  | uuid => "UUID"
  | json => "JSON"

/-- The type holds text. -/
def isText : SqlType → Bool
  | char _ | varChar _ | text => true
  | _ => false

end SqlType

/-- How a key column is represented. -/
inductive KeyKind where
  | int32
  | int64
  | uuid
  | text
  deriving DecidableEq, Repr, Ord

namespace KeyKind

def name : KeyKind → String
  | int32 => "int32"
  | int64 => "int64"
  | uuid => "uuid"
  | text => "text"

/-- The kind of a key column of the given type, when it may be part of a key. -/
def ofSqlType? : SqlType → Option KeyKind
  | .integer => some int32
  | .bigInt => some int64
  | .uuid => some uuid
  | .char _ | .varChar _ | .text => some text
  | _ => none

/-- Every kind, in the order in which a commit walks through them. -/
def all : List KeyKind := [int32, int64, uuid, text]

end KeyKind

end UnitOfWork
