import UnitOfWork.Data.FinMap
import UnitOfWork.Record.Basic

/-!
# Sets of records in order

A set of records that is walked in the order in which they came. A record that is taken out leaves
a hole behind, so that the others keep their places; a set that has been emptied in this way
starts afresh.
-/

namespace UnitOfWork

/-- A set of records, with the place of each of its members. -/
structure IdentitySet where
  slots : List (Option RecordId)
  places : FinMap RecordId Nat
  deriving DecidableEq, Repr

namespace IdentitySet

def empty : IdentitySet := ⟨[], ∅⟩

instance : EmptyCollection IdentitySet := ⟨empty⟩

instance : Inhabited IdentitySet := ⟨empty⟩

/-- The members, in the order in which they came. -/
def toList (s : IdentitySet) : List RecordId := s.slots.reduceOption

def contains (s : IdentitySet) (r : RecordId) : Bool := s.places.contains r

def size (s : IdentitySet) : Nat := s.places.size

/-- Adds a record at the end, unless it is a member, and tells whether it was added. -/
def add (s : IdentitySet) (r : RecordId) : Bool × IdentitySet :=
  if s.contains r then (false, s)
  else (true, ⟨s.slots ++ [some r], s.places.insert r s.slots.length⟩)

/-- Takes a record out, and tells whether it was a member. -/
def remove (s : IdentitySet) (r : RecordId) : Bool × IdentitySet :=
  match s.places.get? r with
  | none => (false, s)
  | some i =>
    let places := s.places.erase r
    (true, if places.size = 0 then ∅ else ⟨s.slots.set i none, places⟩)

/-- The set with a record added. -/
def insert (s : IdentitySet) (r : RecordId) : IdentitySet := (s.add r).2

/-- The set without a record. -/
def erase (s : IdentitySet) (r : RecordId) : IdentitySet := (s.remove r).2

end IdentitySet

end UnitOfWork
