import UnitOfWork.Record.Heap
import UnitOfWork.Sql.Statement

/-!
# Sessions

What a running commit works on: the records, the world of the stores, and a trace of everything
that was asked of that world. An action that stops early keeps what it has done until then.
-/

namespace UnitOfWork

/-- Why a commit is to stop, where the world has no reasons of its own. -/
inductive CancelReason where
  | user
  | timeout
  | shutdown
  deriving DecidableEq, Repr

/-- How an action may stop early. The reasons for which a commit is to stop are of the type `ρ`;
they are handed on as they are. -/
inductive Halt (ρ : Type := CancelReason) where
  | failed (error : Error)
  | cancelled (reason : ρ)
  | panicked (message : String)
  deriving Repr

/-- What is asked of the world. -/
inductive Event where
  | acquire (store : String)
  | insert (type : String) (records : List RecordId)
  | update (type : String) (records : List RecordId)
  | delete (type : String) (records : List RecordId)
  /-- A statement that gives back at most one row. `record` is the record it writes or looks for,
  if that is only one. -/
  | query (store : String) (record : Option RecordId) (statement : Statement)
  /-- A statement that gives back how many rows it affected. -/
  | execute (store : String) (record : Option RecordId) (statement : Statement)
  | errored (store : String)
  | release (store : String)
  deriving DecidableEq, Repr

structure Session (σ : Type) where
  heap : Heap
  world : σ
  /-- What has been asked so far, the first event first. -/
  trace : List Event := []

abbrev Working (σ ρ : Type) := EStateM (Halt ρ) (Session σ)

/-- What is done in a world that has no reasons of its own for a commit to stop. -/
abbrev Action (σ : Type) := Working σ CancelReason

namespace Session

variable {σ : Type}

def note (s : Session σ) (e : Event) : Session σ := { s with trace := s.trace ++ [e] }

end Session

namespace Working

variable {σ ρ α : Type}

def fail (e : Error) : Working σ ρ α := throw (.failed e)

/-- Computes something from the records. -/
def reading (f : Heap → Except Error α) : Working σ ρ α := fun s =>
  match f s.heap with
  | .ok a => .ok a s
  | .error e => .error (.failed e) s

def updating (f : Heap → Heap) : Working σ ρ Unit := fun s => .ok () { s with heap := f s.heap }

def note (e : Event) : Working σ ρ Unit := fun s => .ok () (s.note e)

/-- Notes an event and asks the world. -/
def ask (e : Event) (f : σ → Except (Halt ρ) α × σ) : Working σ ρ α := fun s =>
  let s := s.note e
  match f s.world with
  | (.ok a, world) => .ok a { s with world }
  | (.error halt, world) => .error halt { s with world }

end Working

end UnitOfWork
