import UnitOfWork.Data.NameMap
import UnitOfWork.Tracking.Bucket

/-!
# Registries

The tracked records whose first key column is of one kind, in one bucket for each type. A type
that is met for the first time gets a bucket, and types are walked in the order of their names.
-/

namespace UnitOfWork

/-- How many types and records are tracked. -/
structure Stats where
  types : Nat := 0
  new : Nat := 0
  pending : Nat := 0
  live : Nat := 0
  deleted : Nat := 0
  deriving DecidableEq, Repr

namespace Stats

def total (s : Stats) : Nat := s.new + s.pending + s.live + s.deleted

instance : Add Stats where
  add a b :=
    { types := a.types + b.types, new := a.new + b.new, pending := a.pending + b.pending
      live := a.live + b.live, deleted := a.deleted + b.deleted }

end Stats

/-- The tracked records of one kind of key, by type. -/
structure Registry (kind : KeyKind) where
  buckets : NameMap Bucket := ∅
  deriving DecidableEq, Repr

namespace Registry

variable {kind : KeyKind}

/-- The bucket of a type, an empty one if the type has none. -/
def bucket (g : Registry kind) (t : RecordType) : Bucket :=
  (g.buckets.get? t.name).getD { type := t }

def setBucket (g : Registry kind) (name : String) (b : Bucket) : Registry kind :=
  { g with buckets := g.buckets.insert name b }

/-- Runs an operation on the bucket of the type of a record. -/
def onBucket {α : Type} (r : RecordId) (x : Tracking Bucket α) : Tracking (Registry kind) α :=
  fun (g, h) =>
    let t := (h.get r).type
    x.within (·.bucket t) (·.setBucket t.name) (g, h)

def track (r : RecordId) (importing : Bool) : Tracking (Registry kind) RecordId :=
  onBucket r (Bucket.track kind r importing)

def remove (r : RecordId) : Tracking (Registry kind) Unit := onBucket r (Bucket.remove kind r)

def find? (g : Registry kind) (type : String) (key : RowKey) : Option RecordId := do
  let b ← g.buckets.get? type
  if key.isFiledUnder kind then b.find? key else none

/-- The records that lack a part of their key, by type. -/
def pending (g : Registry kind) : List RecordId := g.buckets.values.flatMap (·.pending.toList)

/-- Tracks those records of a list that are ready for a commit, and tells the first that is
not. -/
def promote : List RecordId → Tracking (Registry kind) (Option RecordId)
  | [] => return none
  | r :: rs => do
    let (_, h) ← get
    if (h.get r).isCommitReady then
      let _ ← track r false
      promote rs
    else
      let _ ← promote rs
      return some r

/-- Checks that no record lacks a part of its key; records that have got theirs in the meantime
are tracked as ready. -/
def checkReady : Tracking (Registry kind) Unit := do
  let (g, _) ← get
  match ← promote g.pending with
  | none => return
  | some r =>
    let (_, h) ← get
    throw (.missingPrimaryKey (h.get r).type.name (h.describe r))

/-- Settles every bucket after a commit. All keys are found first, so that one that is missing
leaves everything as it is. -/
def settle (purge : Bool) : Tracking (Registry kind) Unit := fun (g, h) =>
  match g.buckets.entries.mapM fun (name, b) => return (name, b, ← b.writtenKeys kind h) with
  | .error e => .error e (g, h)
  | .ok all => .ok () <| all.foldl (fun (g, h) (name, b, written) =>
      let (b, h) := b.settle h purge written
      (g.setBucket name b, h)) (g, h)

/-- One batch for each type that has any of the selected records. -/
def batches (g : Registry kind) (select : Bucket → List RecordId) : List Batch :=
  g.buckets.values.filterMap fun b =>
    match select b with
    | [] => none
    | records => some { type := b.type, records }

def insertBatches (g : Registry kind) : List Batch := g.batches (·.new.toList)

def updateBatches (g : Registry kind) (h : Heap) : List Batch := g.batches (·.dirty h)

/-- The records whose rows are to be deleted. -/
def deleteBatches (g : Registry kind) : List Batch :=
  g.batches fun b => inCreationOrder b.deleted.values

def stats (g : Registry kind) : Stats :=
  g.buckets.values.foldl (fun s b => s +
    { new := b.new.size, pending := b.pending.size, live := b.live.size
      deleted := b.deleted.size }) { types := g.buckets.size }

def isEmpty (g : Registry kind) : Bool := g.stats.total == 0

end Registry

end UnitOfWork
