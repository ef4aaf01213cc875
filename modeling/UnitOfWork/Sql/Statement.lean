import UnitOfWork.Data.Value

/-!
# Statements

The statements that write records, as data. The values of a statement are bound, not written: its
text has a placeholder for each of them, numbered from 1 in the order of `Statement.params`.
Names are written in double quotes.
-/

namespace UnitOfWork

/-- The part of a statement that finds a row: key columns, and the key to look for. -/
structure KeyMatch where
  columns : List String
  values : List Value
  deriving DecidableEq, Repr

inductive Statement where
  /-- Writes a row, and reads back the columns that the store assigns. -/
  | insert (table : String) (assigned : List (String × Value)) (returning : List String)
  | update (table : String) (assigned : List (String × Value)) (key : KeyMatch)
  /-- Asks whether a row exists. -/
  | probe (table : String) (key : KeyMatch)
  | delete (table : String) (key : KeyMatch)
  /-- Deletes every row whose key, of one column, is in the list. -/
  | deleteAny (table column : String) (keys : List Value)
  deriving DecidableEq, Repr

/-- A piece of the text of a statement. -/
inductive Piece where
  | word (s : String)
  | name (s : String)
  | placeholder (number : Nat)
  deriving DecidableEq, Repr

namespace Piece

def chars : Piece → List Char
  | word s => s.toList
  | name s => '"' :: s.toList ++ ['"']
  | placeholder number => '$' :: (toString number).toList

/-- The groups with a word between each two. -/
def separated (separator : String) (groups : List (List Piece)) : List Piece :=
  [word separator].intercalate groups

def names (columns : List String) : List Piece :=
  separated ", " (columns.map fun c => [name c])

/-- Placeholders for `count` values, from 1 on. -/
def placeholders (count : Nat) : List Piece :=
  separated ", " ((List.range' 1 count).map fun i => [placeholder i])

/-- An equation with a placeholder for each column, numbered from `first` on. -/
def equations (separator : String) (first : Nat) (columns : List String) : List Piece :=
  separated separator
    ((columns.zipIdx first).map fun (c, i) => [name c, word " = ", placeholder i])

end Piece

namespace Statement

open Piece

def params : Statement → List Value
  | insert _ assigned _ => assigned.map Prod.snd
  | update _ assigned key => assigned.map Prod.snd ++ key.values
  | probe _ key => key.values
  | delete _ key => key.values
  | deleteAny _ _ keys => keys

def returning : Statement → List String
  | insert _ _ columns => columns
  | _ => []

def pieces : Statement → List Piece
  | insert table assigned columns =>
    let values := if assigned.isEmpty then [word " DEFAULT VALUES"] else
      [word " ("] ++ names (assigned.map Prod.fst) ++ [word ") VALUES ("] ++
        placeholders assigned.length ++ [word ")"]
    let back := if columns.isEmpty then [] else word " RETURNING " :: names columns
    [word "INSERT INTO ", name table] ++ values ++ back
  | update table assigned key =>
    [word "UPDATE ", name table, word " SET "] ++ equations ", " 1 (assigned.map Prod.fst) ++
      [word " WHERE "] ++ equations " AND " (assigned.length + 1) key.columns
  | probe table key =>
    [word "SELECT 1 FROM ", name table, word " WHERE "] ++ equations " AND " 1 key.columns
  | delete table key =>
    [word "DELETE FROM ", name table, word " WHERE "] ++ equations " AND " 1 key.columns
  | deleteAny table column keys =>
    [word "DELETE FROM ", name table, word " WHERE ", name column, word " IN ("] ++
      placeholders keys.length ++ [word ")"]

def sql (s : Statement) : String := String.ofList (s.pieces.flatMap Piece.chars)

end Statement

end UnitOfWork
