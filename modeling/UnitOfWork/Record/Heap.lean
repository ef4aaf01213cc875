import UnitOfWork.Data.FinMap
import UnitOfWork.Record.Basic

/-!
# The heap of records

Every record lives in one heap, under its identity, and every other structure holds identities
only. Reading never fails: an identity that was not given out reads as a blank record. The two
laws `get_set` and `get_modify` are all that a reader of the heap has to know.
-/

namespace UnitOfWork

/-- The records in memory. -/
structure Heap where
  cells : FinMap RecordId Record
  /-- How many identities have been given out. -/
  next : Nat
  deriving DecidableEq, Repr

namespace Heap

def empty : Heap := { cells := ∅, next := 0 }

instance : EmptyCollection Heap := ⟨empty⟩

instance : Inhabited Heap := ⟨empty⟩

def get (h : Heap) (r : RecordId) : Record := (h.cells.get? r).getD default

def set (h : Heap) (r : RecordId) (content : Record) : Heap :=
  { h with cells := h.cells.insert r content }

def modify (h : Heap) (r : RecordId) (f : Record → Record) : Heap := h.set r (f (h.get r))

/-- Gives out a new identity. -/
def alloc (h : Heap) (content : Record) : RecordId × Heap :=
  (⟨h.next⟩, { h.set ⟨h.next⟩ content with next := h.next + 1 })

/-- The identities in use, in the order of creation. -/
def ids (h : Heap) : List RecordId := h.cells.keys

theorem get_set (h : Heap) (r s : RecordId) (content : Record) :
    (h.set r content).get s = if r = s then content else h.get s := by
  simp only [get, set, FinMap.get?_insert]
  split <;> rfl

theorem get_modify (h : Heap) (r s : RecordId) (f : Record → Record) :
    (h.modify r f).get s = if r = s then f (h.get s) else h.get s := by
  rw [modify, get_set]
  split
  · next e => rw [e]
  · rfl

/-- Applies one update to every record of a list. -/
def modifyAll (h : Heap) (rs : List RecordId) (f : Record → Record) : Heap :=
  rs.foldl (fun h r => h.modify r f) h

end Heap

end UnitOfWork
