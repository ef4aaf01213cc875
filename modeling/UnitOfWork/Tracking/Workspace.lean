import UnitOfWork.Tracking.Registry

/-!
# Workspaces

The records that one unit of work has touched. There is one registry for each kind of key; a
record belongs to that of its first key column, a lookup goes to that of the first component.
-/

namespace UnitOfWork

structure Config where
  /-- Nothing is tracked, and a commit does nothing. -/
  bypass : Bool := false
  /-- A successful commit forgets the records that it deleted. -/
  purgeDeleted : Bool := true
  deriving DecidableEq, Repr

structure Workspace where
  config : Config := {}
  int32 : Registry .int32 := {}
  int64 : Registry .int64 := {}
  uuid : Registry .uuid := {}
  text : Registry .text := {}
  deriving DecidableEq, Repr

namespace Workspace

def registry (w : Workspace) : (kind : KeyKind) → Registry kind
  | .int32 => w.int32
  | .int64 => w.int64
  | .uuid => w.uuid
  | .text => w.text

def setRegistry (w : Workspace) : (kind : KeyKind) → Registry kind → Workspace
  | .int32, g => { w with int32 := g }
  | .int64, g => { w with int64 := g }
  | .uuid, g => { w with uuid := g }
  | .text, g => { w with text := g }

/-- Runs an operation on the registry for keys of a kind. -/
def onRegistry {α : Type} (kind : KeyKind) (x : Tracking (Registry kind) α) :
    Tracking Workspace α :=
  x.within (·.registry kind) (·.setRegistry kind)

/-- Tracks a record in the registry that it belongs to. -/
def enroll (r : RecordId) (importing : Bool) : Tracking Workspace RecordId := do
  let (_, h) ← get
  onRegistry (h.get r).type.kind (Registry.track r importing)

/-- Tracks a record and tells which record stands for its row from now on. -/
def track (r : RecordId) : Tracking Workspace RecordId := do
  let (w, _) ← get
  if w.config.bypass then return r else enroll r false

def find? (w : Workspace) (type : String) (key : RowKey) : Option RecordId :=
  if w.config.bypass then none
  else
    match key.components with
    | [] => none
    | c :: _ => (w.registry c.kind).find? type key

/-- Marks a record deleted, and has the next commit delete its row if it has one. A record that is
marked already is left alone. -/
def delete (r : RecordId) : Tracking Workspace Unit := do
  let (w, h) ← get
  if (h.get r).isDeleted then return
  set (w, h.modify r .markDeleted)
  if w.config.bypass then return
  onRegistry (h.get r).type.kind (Registry.remove r)

/-- Moves those of the targets that have not been met yet from the one list to the other. -/
def discover (targets : List RecordId) (unmet stack : List RecordId) :
    List RecordId × List RecordId :=
  targets.foldl (fun (unmet, stack) t =>
    if t ∈ unmet then (unmet.erase t, t :: stack) else (unmet, stack)) (unmet, stack)

theorem length_discover (targets unmet stack : List RecordId) :
    (discover targets unmet stack).1.length + (discover targets unmet stack).2.length =
      unmet.length + stack.length := by
  induction targets generalizing unmet stack with
  | nil => rfl
  | cons t ts ih =>
    by_cases ht : t ∈ unmet
    · have hpos := List.length_pos_of_mem ht
      simp only [discover, List.foldl_cons, ht, if_true] at ih ⊢
      rw [ih, List.length_erase_of_mem ht, List.length_cons]
      omega
    · simp only [discover, List.foldl_cons, ht, if_false] at ih ⊢
      exact ih ..

/-- Tracks the records on the stack and all that can be reached from them through records that
have not been met yet. -/
def importAll (unmet : List RecordId) : (stack : List RecordId) → Tracking Workspace Unit
  | [] => return
  | r :: stack => do
    let (_, h) ← get
    let _ ← enroll r true
    let rest := discover (h.targets r) unmet stack
    importAll rest.1 rest.2
termination_by stack => unmet.length + stack.length
decreasing_by
  have := length_discover (h.targets r) unmet stack
  simp only [List.length_cons]
  omega

/-- Tracks a record and every record that can be reached from it, each of them once. -/
def importGraph (root : RecordId) : Tracking Workspace Unit := do
  let (w, h) ← get
  if w.config.bypass then return
  let h := h.modify root (·.setTransient false)
  set (w, h)
  importAll (h.ids.erase root) [root]

def checkReady : Tracking Workspace Unit :=
  KeyKind.all.forM fun kind => onRegistry kind Registry.checkReady

def settle : Tracking Workspace Unit := do
  let (w, _) ← get
  KeyKind.all.forM fun kind => onRegistry kind (Registry.settle w.config.purgeDeleted)

def insertBatches (w : Workspace) : List Batch :=
  KeyKind.all.flatMap fun kind => (w.registry kind).insertBatches

/-- The live records that have something to write, by kind of key and type. -/
def updateBatches (w : Workspace) (h : Heap) : List Batch :=
  KeyKind.all.flatMap fun kind => (w.registry kind).updateBatches h

/-- The records whose rows are to be deleted, by kind of key and type. -/
def deleteBatches (w : Workspace) : List Batch :=
  KeyKind.all.flatMap fun kind => (w.registry kind).deleteBatches

def stats (w : Workspace) : Stats :=
  KeyKind.all.foldl (fun s kind => s + (w.registry kind).stats) {}

end Workspace

end UnitOfWork
