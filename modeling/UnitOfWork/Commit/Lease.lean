import UnitOfWork.Commit.Writer

/-!
# Leases

A commit leases each store that it writes to, once, when it first needs it. In the end it gives
every lease back; one that is marked errored before is rolled back by its owner. Every lease is
given back even when an earlier one could not be.
-/

namespace UnitOfWork

/-- The transaction around a commit. -/
structure Transaction (σ : Type) (ρ : Type := CancelReason) where
  acquire : String → σ → Except Error Unit × σ
  /-- Writes to a store that is leased. -/
  writer : String → Writer σ ρ
  markErrored : String → σ → σ
  release : String → σ → Except Error Unit × σ
  /-- Set once the commit is to stop. -/
  cancelReason : σ → Option ρ

/-- The stores that are leased, in the order in which they were. -/
structure Leases where
  stores : List String := []
  errored : Bool := false
  deriving DecidableEq, Repr

/-- A session that holds leases. -/
structure Run (σ : Type) where
  session : Session σ
  leases : Leases := {}

abbrev Leasing (σ ρ : Type) := EStateM (Halt ρ) (Run σ)

namespace Leasing

variable {σ ρ α : Type}

/-- An action that leaves the leases alone. -/
def during (x : Working σ ρ α) : Leasing σ ρ α := fun run =>
  match x run.session with
  | .ok a session => .ok a { run with session }
  | .error halt session => .error halt { run with session }

def heap : Leasing σ ρ Heap := fun run => .ok run.session.heap run

end Leasing

namespace Transaction

variable {σ ρ : Type} (tx : Transaction σ ρ)

/-- The writer of a store, which is leased unless it is already. -/
def lease (store : String) : Leasing σ ρ (Writer σ ρ) := do
  let run ← get
  if store ∈ run.leases.stores then return tx.writer store
  Leasing.during <| .ask (.acquire store) fun world =>
    match tx.acquire store world with
    | (.ok (), world) => (.ok (), world)
    | (.error e, world) => (.error (.failed e), world)
  modify fun run => { run with leases.stores := run.leases.stores ++ [store] }
  return tx.writer store

/-- Marks every lease errored, unless that has been done. -/
def errorAll (run : Run σ) : Run σ :=
  if run.leases.errored then run
  else
    { session := run.leases.stores.foldl (fun s store =>
        let s := s.note (.errored store)
        { s with world := tx.markErrored store s.world }) run.session
      leases := { run.leases with errored := true } }

/-- Gives stores back, and tells what went wrong with each of them that could not be. -/
def giveBack (s : Session σ) : List String → List Error × Session σ
  | [] => ([], s)
  | store :: stores =>
    let s := s.note (.release store)
    let (result, world) := tx.release store s.world
    let (failures, s) := giveBack { s with world } stores
    match result with
    | .ok () => (failures, s)
    | .error e => (e :: failures, s)

/-- Gives every lease back, and tells what went wrong. -/
def releaseAll (run : Run σ) : List Error × Run σ :=
  let (failures, session) := tx.giveBack run.session run.leases.stores
  (failures, { session })

end Transaction

/-- How an action has stopped once its leases are given back. Failures to do so are reported
together with the error that came before them. -/
def Halt.withFailures {ρ : Type} (failures : List Error) (halt : Halt ρ) : Halt ρ :=
  if failures.isEmpty then halt
  else
    match halt with
    | .failed e => .failed (.release failures (some e))
    | .cancelled _ => .failed (.release failures (some .cancelled))
    | .panicked _ => .failed (.release failures none)

namespace Transaction

variable {σ ρ : Type} (tx : Transaction σ ρ)

/-- Marks every lease errored and gives it back. -/
def abort (halt : Halt ρ) (run : Run σ) : Halt ρ × Run σ :=
  let (failures, run) := tx.releaseAll (tx.errorAll run)
  (halt.withFailures failures, run)

/-- Gives every lease back at the end of a commit that was successful so far. -/
def conclude (run : Run σ) : Except (Halt ρ) Unit × Run σ :=
  match tx.releaseAll run with
  | ([], run) => (.ok (), run)
  | (failures, run) => (.error (.failed (.release failures none)), run)

end Transaction

end UnitOfWork
