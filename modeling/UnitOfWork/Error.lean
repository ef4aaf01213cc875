import UnitOfWork.Record.State
import UnitOfWork.Schema.SqlType

/-!
# Errors

What can go wrong while records are described, tracked and written. An error names its cause;
`Error.message` words it. Only an error of a statement gathers diagnostics on its way out, and
only a failure to give back a store wraps other errors.
-/

namespace UnitOfWork

/-- Why a schema or an assignment that names a part of it is refused. -/
inductive SchemaFault where
  | noKeyColumns (type : String)
  | keyType (declared : SqlType)
  | undeclaredReference (type column field : String)
  | unknownKeyColumn (type column : String)
  | referencedKeyColumn (type column field : String)
  | unknownReference (type field : String)
  | other (message : String)
  deriving DecidableEq, Repr

def SchemaFault.message : SchemaFault → String
  | noKeyColumns type => "type " ++ type ++ " declares no primary key columns"
  | keyType declared =>
    "unsupported primary key type " ++ declared.sqlName ++
      "; keys must be INTEGER, BIGINT, UUID or text"
  | undeclaredReference type column field =>
    "key column " ++ type ++ "." ++ column ++ " refers to unknown reference field " ++ field
  | unknownKeyColumn type column => type ++ " has no key column " ++ column
  | referencedKeyColumn type column field =>
    "key column " ++ type ++ "." ++ column ++ " is taken from reference " ++ field ++
      "; assign the reference instead"
  | unknownReference type field => type ++ " has no reference field " ++ field
  | other message => message

/-- Why a record cannot take part in an operation as it stands. -/
inductive StateFault where
  /-- A tracked record has to have a key, and this one has none. -/
  | untrackableKey
  /-- A statement has to find the row, and the key is not known. -/
  | unknownKey (type : String)
  | emptyKeyColumn (column : String)
  | notInsertable (state : RecordState)
  | other (message : String)
  deriving DecidableEq, Repr

def StateFault.message : StateFault → String
  | untrackableKey => "persisted record has an incomplete primary key"
  | unknownKey type => type ++ " record has an incomplete primary key"
  | emptyKeyColumn column => "key column " ++ column ++ " has no value"
  | notInsertable state => "cannot insert a record in state " ++ state.name
  | other message => message

/-- What kind of failure a store reported. -/
inductive QueryFault where
  | constraint
  | notFound
  | database
  deriving DecidableEq, Repr

/-- A failed statement, with the diagnostics gathered so far. -/
structure QueryError where
  fault : QueryFault
  message : String
  sql : Option String := none
  type : Option String := none
  record : Option String := none
  /-- The text of the error underneath. -/
  source : Option String := none
  deriving DecidableEq, Repr

/-- The message, followed by each diagnostic in brackets. -/
def QueryError.text (q : QueryError) : String :=
  let note (label : String) : Option String → String
    | some s => " [" ++ label ++ " " ++ s ++ "]"
    | none => ""
  q.message ++ note "type" q.type ++ note "record" q.record ++ note "sql" q.sql

inductive Error where
  /-- A new record still lacks a part of its key. -/
  | missingPrimaryKey (type record : String)
  /-- An update found no row. -/
  | missingObject (type record : String) (sql : Option String)
  | unsupportedState (fault : StateFault) (record : Option String)
  /-- An insert round wrote nothing. -/
  | unresolvedDependencies (round : Nat) (records : List String)
  | config (fault : SchemaFault)
  /-- A value or key component of one type stands where another is expected. -/
  | mismatch (expected actual : String) (column : Option String)
  | query (error : QueryError)
  /-- Stores could not be given back; `cause` is what went wrong before that. -/
  | release (failures : List Error) (cause : Option Error)
  | cancelled
  | custom (message : String)
  deriving Repr

namespace Error

mutual

def message : Error → String
  | missingPrimaryKey type record =>
    "Missing or invalid primary key: the object " ++ record ++ " (" ++ type ++
      ") is missing a primary key"
  | missingObject type record _ =>
    "Missing data access object: update of " ++ record ++ " (" ++ type ++ ") affected no rows"
  | unsupportedState fault (some record) =>
    "Unsupported state for " ++ record ++ ": " ++ fault.message
  | unsupportedState fault none => "Unsupported state: " ++ fault.message
  | unresolvedDependencies round records =>
    "Insert round " ++ toString round ++ " made no progress; unresolvable dependencies among: " ++
      ", ".intercalate records
  | config fault => "Configuration error: " ++ fault.message
  | mismatch expected actual (some column) =>
    "Type error: expected " ++ expected ++ " for column '" ++ column ++ "', found " ++ actual
  | mismatch expected actual none => "Type error: expected " ++ expected ++ ", found " ++ actual
  | query error => "Query error: " ++ error.text
  | release failures cause => failuresText failures ++ causeText cause
  | cancelled => "Operation cancelled"
  | custom message => message

/-- How many releases failed, and how the first one did. -/
def failuresText : List Error → String
  | [] => "acquisition release failed"
  | first :: rest =>
    toString (rest.length + 1) ++ " acquisition release(s) failed, first: " ++ first.message

def causeText : Option Error → String
  | none => ""
  | some cause => "; commit error: " ++ cause.message

end

/-- The statement that failed, when the error knows it. -/
def sql? : Error → Option String
  | query error => error.sql
  | missingObject _ _ sql => sql
  | _ => none

/-- The text of the error underneath. -/
def sourceText? : Error → Option String
  | query error => error.source
  | release failures cause => (cause <|> failures.head?).map message
  | _ => none

mutual

/-- The error that started it all: of failed releases their cause, else the first of them. -/
def rootCause : Error → Error
  | release failures cause =>
    (causeRoot? cause <|> failuresRoot? failures).getD (release failures cause)
  | e => e

def causeRoot? : Option Error → Option Error
  | some cause => some cause.rootCause
  | none => none

def failuresRoot? : List Error → Option Error
  | first :: _ => some first.rootCause
  | [] => none

end

/-- Completes the diagnostics of a failed statement; what is already known stays. -/
def decorate (sql : Option String) (type : String) (record : Option String) : Error → Error
  | query q => query { q with
      sql := q.sql <|> sql, type := q.type <|> some type, record := q.record <|> record }
  | e => e

end Error

end UnitOfWork
