import UnitOfWork.Record.Dependency
import UnitOfWork.Tracking.IdentitySet

/-!
# Buckets

The tracked records of one type. New records are walked in the order in which they came, and wait
apart from the others while the application owes a part of their key; records that have a row are
found by their key. `Bucket.track` decides which record stands for a row: two records for the same
row become one, and the other is folded into it.
-/

namespace UnitOfWork

/-- Operations that may fail on a structure of tracked records and the heap behind it. Whatever
they changed before they failed stays changed. -/
abbrev Tracking (ρ : Type) := EStateM Error (ρ × Heap)

/-- Runs an operation on a part of a larger structure. -/
def Tracking.within {ρ β α : Type} (part : ρ → β) (replace : ρ → β → ρ) (x : Tracking β α) :
    Tracking ρ α := fun (s, h) =>
  match x (part s, h) with
  | .ok a (b, h) => .ok a (replace s b, h)
  | .error e (b, h) => .error e (replace s b, h)

abbrev KeyIndex := FinMap RowKey RecordId

/-- The records in the order of their creation. -/
def inCreationOrder (rs : List RecordId) : List RecordId :=
  rs.mergeSort fun r s => r.index ≤ s.index

/-- Records of one type that are to be written together. -/
structure Batch where
  type : RecordType
  records : List RecordId
  deriving DecidableEq, Repr

structure Bucket where
  type : RecordType
  /-- New records whose key is ready for a commit. -/
  new : IdentitySet := ∅
  /-- Those of them whose key was known when they were tracked. -/
  newByKey : KeyIndex := ∅
  /-- New records that still lack a part of their key. -/
  pending : IdentitySet := ∅
  /-- Records that have a row. -/
  live : KeyIndex := ∅
  /-- Records whose row is to be deleted. -/
  deleted : KeyIndex := ∅
  deriving DecidableEq, Repr

/-- A key that a registry of the given kind can file: a key of one component has that kind. -/
def RowKey.isFiledUnder (key : RowKey) (kind : KeyKind) : Bool :=
  key.single?.all (·.kind == kind)

/-- The key under which a record is filed, when it is known. -/
def Heap.fileKey? (h : Heap) (kind : KeyKind) (r : RecordId) : Except Error (Option RowKey) :=
  match h.primaryKey? r with
  | none => .ok none
  | some key =>
    if key.isFiledUnder kind then .ok (some key)
    else
      let actual := match key.components with
        | c :: _ => c.kind.name
        | [] => "nothing"
      .error (.mismatch kind.name actual none)

/-- The key under which a record is filed. -/
def Heap.fileKey (h : Heap) (kind : KeyKind) (r : RecordId) : Except Error RowKey := do
  match ← h.fileKey? kind r with
  | some key => return key
  | none => throw (.unsupportedState .untrackableKey (some (h.describe r)))

namespace Bucket

/-- The record that holds the place of `r` under a key already, among the new ones first. -/
def rival? (b : Bucket) (key : RowKey) (r : RecordId) : Option RecordId :=
  (b.newByKey.get? key).filter (· ≠ r) <|> (b.live.get? key).filter (· ≠ r)

/-- Finds the place of a new record whose key is known. It is folded into the record that holds
the place; that may be one whose row was to be deleted, which is then to be updated instead. -/
def placeNew (r : RecordId) (key : RowKey) : Tracking Bucket RecordId := fun (b, h) =>
  match b.rival? key r with
  | some rival =>
    .ok rival ({ b with new := b.new.erase r }, h.modify rival (·.absorb (h.get r)))
  | none =>
    match b.deleted.get? key with
    | some revived =>
      .ok revived
        ({ b with
            new := b.new.erase r
            deleted := b.deleted.erase key
            live := b.live.insert key revived },
          h.modify revived (·.undelete.absorb (h.get r)))
    | none => .ok r ({ b with newByKey := b.newByKey.insert key r }, h)

def trackNew (kind : KeyKind) (r : RecordId) : Tracking Bucket RecordId := fun (b, h) =>
  if (h.get r).isCommitReady then
    let b := { b with pending := b.pending.erase r, new := b.new.insert r }
    if 0 < (h.get r).type.generatedCount then .ok r (b, h)
    else
      match h.fileKey? kind r with
      | .error e => .error e (b, h)
      | .ok none => .ok r (b, h)
      | .ok (some key) => placeNew r key (b, h)
  else .ok r ({ b with pending := b.pending.insert r }, h)

/-- Tracks a record that was read from its row. The record that is tracked already takes over what
was read, and stays deleted if it is. -/
def trackFetched (r : RecordId) (key : RowKey) : Tracking Bucket RecordId := fun (b, h) =>
  match b.live.get? key with
  | some known =>
    if known = r then .ok r (b, h)
    else
      let gone := (h.get known).isDeleted || (h.get r).isDeleted
      .ok known (b, h.modify known fun k =>
        let k := k.merge (h.get r)
        if gone then k.markDeleted else k)
  | none =>
    match b.deleted.get? key with
    | some known =>
      .ok known (b, h.modify known fun k =>
        (if known = r then k else k.merge (h.get r)).markDeleted)
    | none => .ok r ({ b with live := b.live.insert key r }, h)

/-- Tracks a record that has a row, as it comes, in place of one that is tracked already. -/
def trackImported (r : RecordId) (key : RowKey) : Tracking Bucket RecordId := fun (b, h) =>
  if b.deleted.contains key then
    if (h.get r).isDeleted then .ok r ({ b with deleted := b.deleted.insert key r }, h)
    else
      .ok r ({ b with deleted := b.deleted.erase key, live := b.live.insert key r }, h)
  else .ok r ({ b with live := b.live.insert key r }, h)

/-- Tracks a record and tells which record stands for its row from now on. -/
def track (kind : KeyKind) (r : RecordId) (importing : Bool) : Tracking Bucket RecordId :=
  fun (b, h) =>
    if (h.get r).isNew then trackNew kind r (b, h)
    else
      match h.fileKey kind r with
      | .error e => .error e (b, h)
      | .ok key => if importing then trackImported r key (b, h) else trackFetched r key (b, h)

/-- Stops tracking a record that is deleted. Its row, if it has one, is deleted by the next
commit. -/
def remove (kind : KeyKind) (r : RecordId) : Tracking Bucket Unit := fun (b, h) =>
  if (h.get r).isNew then
    let b := { b with new := b.new.erase r, pending := b.pending.erase r }
    match h.fileKey? kind r with
    | .error e => .error e (b, h)
    | .ok none => .ok () (b, h)
    | .ok (some key) =>
      if b.newByKey.get? key = some r then
        .ok () ({ b with newByKey := b.newByKey.erase key }, h)
      else .ok () (b, h)
  else
    match h.fileKey kind r with
    | .error e => .error e (b, h)
    | .ok key =>
      .ok () ({ b with live := b.live.erase key, deleted := b.deleted.insert key r }, h)

/-- The tracked record for a key, among those that have a row first. -/
def find? (b : Bucket) (key : RowKey) : Option RecordId :=
  b.live.get? key <|> b.newByKey.get? key

/-- The new records with the keys that they have been written under. -/
def writtenKeys (b : Bucket) (kind : KeyKind) (h : Heap) :
    Except Error (List (RowKey × RecordId)) :=
  b.new.toList.mapM fun r => return (← h.fileKey kind r, r)

/-- Settles the bucket after a commit: the new records are live now, and nothing is changed. -/
def settle (b : Bucket) (h : Heap) (purge : Bool) (written : List (RowKey × RecordId)) :
    Bucket × Heap :=
  let live := written.foldl (fun live e => live.insert e.1 e.2) b.live
  ({ b with new := ∅, newByKey := ∅, live, deleted := if purge then ∅ else b.deleted },
    (h.modifyAll (written.map Prod.snd) .markCommitted).modifyAll live.values .resetChanges)

/-- The live records that have something to write. -/
def dirty (b : Bucket) (h : Heap) : List RecordId :=
  inCreationOrder (b.live.values.filter fun r => (h.get r).hasChanges || (h.get r).hydrated)

end Bucket

end UnitOfWork
