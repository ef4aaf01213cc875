import UnitOfWork.Proofs.Tracking.Identity
import UnitOfWork.Proofs.Tracking.Recreating

/-!
# Deletes that fail

A request to delete a record marks it before its key is resolved, and the mark stays when the key
cannot be filed. A record that is marked counts as deleted already, so that no later request has its
row deleted, whatever has become of the key, unless the mark is taken off in between.
-/

namespace UnitOfWork

namespace Heap

variable {h h' : Heap} {kind : KeyKind} {r : RecordId} {e : Error}

/-- Why a record cannot be taken out: the key of a record with a row has to be known, and a key that
is known has to be one that the registry can file. -/
def RefusesRemoval (h : Heap) (kind : KeyKind) (r : RecordId) (e : Error) : Prop :=
  if (h.get r).isNew then h.fileKey? kind r = .error e else h.fileKey kind r = .error e

theorem primaryKey?_markDeleted (h : Heap) (r q : RecordId) :
    (h.modify r .markDeleted).primaryKey? q = h.primaryKey? q := by
  refine congrFun (resolve?_congr (fun u => ?_) (fun u => ?_) (fun u => ?_) _) q
  all_goals
    rw [get_modify]
    split <;> rfl

private theorem refusesRemoval_markDeleted :
    (h.modify r .markDeleted).RefusesRemoval kind r e ↔ h.RefusesRemoval kind r e := by
  have hkey := primaryKey?_markDeleted h r r
  have htype : ((h.modify r .markDeleted).get r).type = (h.get r).type := by
    rw [get_modify_self]
    rfl
  have hnew : ((h.modify r .markDeleted).get r).isNew = (h.get r).isNew := by
    rw [get_modify_self]
    rfl
  rw [RefusesRemoval, RefusesRemoval, hnew, fileKey?_congr hkey, fileKey_congr hkey htype]

end Heap

namespace Bucket

variable {kind : KeyKind} {b : Bucket} {h : Heap} {r : RecordId} {e : Error} {s : Bucket × Heap}

/-- The bucket after a record could not be taken out: a new one is listed no longer, which takes no
key. -/
def refusing (b : Bucket) (h : Heap) (r : RecordId) : Bucket :=
  if (h.get r).isNew then { b with new := b.new.erase r, pending := b.pending.erase r } else b

private theorem remove_eq_error : remove kind r (b, h) = .error e s ↔
    h.RefusesRemoval kind r e ∧ s = (b.refusing h r, h) := by
  rw [remove, Heap.RefusesRemoval, refusing]
  cases (h.get r).isNew with
  | true =>
    simp only [if_true]
    cases h.fileKey? kind r with
    | error e' => simp [eq_comm]
    | ok found =>
      cases found with
      | none => simp
      | some key =>
        dsimp only
        split <;> simp
  | false =>
    simp only [Bool.false_eq_true, if_false]
    cases h.fileKey kind r <;> simp [eq_comm]

/-- A row is to be deleted only after the record was taken out or imported. -/
theorem Tracks.notMem_deleted {b' : Bucket} {h' : Heap} {q : RecordId} {importing : Bool}
    {answer : Option RecordId} (a : Tracks kind b h q importing answer b' h')
    (hq : q = r → importing = false) (hr : r ∉ b.deleted.values) : r ∉ b'.deleted.values := by
  cases a with
  | revives | restores => exact fun hin => hr (FinMap.mem_values_erase hin)
  | replacesDeleted _ himporting =>
    intro hin
    rcases FinMap.mem_values_insert hin with rfl | hin
    · exact Bool.noConfusion ((hq rfl).symm.trans himporting)
    · exact hr hin
  | waits | lists | misfiles | joins | files | fails | finds | merges | mergesDeleted | enters =>
    exact hr

private theorem Removes.notMem_deleted {b' : Bucket} {q : RecordId} (a : Removes kind b h q b')
    (hq : q ≠ r) (hr : r ∉ b.deleted.values) : r ∉ b'.deleted.values := by
  cases a with
  | deletes =>
    intro hin
    rcases FinMap.mem_values_insert hin with rfl | hin
    · exact hq rfl
    · exact hr hin
  | forgets | unfiles | fails => exact hr

private theorem settle_notMem_deleted (h : Heap) (purge : Bool) (written : List (RowKey × RecordId))
    (hr : r ∉ b.deleted.values) : r ∉ (b.settle h purge written).1.deleted.values := by
  cases purge with
  | true => exact List.not_mem_nil
  | false => exact hr

private theorem refusing_keyed (b : Bucket) (h : Heap) (r : RecordId) :
    (b.refusing h r).live = b.live ∧ (b.refusing h r).deleted = b.deleted ∧
      (b.refusing h r).newByKey = b.newByKey := by
  rw [refusing]
  split <;> exact ⟨rfl, rfl, rfl⟩

end Bucket

namespace Workspace

variable {s s' : Workspace × Heap} {r : RecordId} {e : Error}

private theorem delete_marked (hm : (s.2.get r).isDeleted) : delete r s = .ok () s := by
  rw [delete_apply, if_pos hm]

private theorem onBucket_eq_error {α : Type} {kind : KeyKind} {x : Tracking Bucket α} :
    onRegistry kind (Registry.onBucket r x) s = .error e s' ↔
      ∃ t, x ((s.1.registry kind).bucket (s.2.get r).type, s.2) = .error e t ∧
        s' = (s.1.setRegistry kind ((s.1.registry kind).setBucket (s.2.get r).type.name t.1),
          t.2) := by
  simp only [onRegistry, Registry.onBucket, Tracking.within]
  cases x ((s.1.registry kind).bucket (s.2.get r).type, s.2) with
  | ok a t => simp
  | error e' t =>
    constructor
    · intro h
      obtain ⟨rfl, rfl⟩ := EStateM.Result.error.inj h
      exact ⟨t, rfl, rfl⟩
    · rintro ⟨t', ht, rfl⟩
      obtain ⟨rfl, rfl⟩ := EStateM.Result.error.inj ht
      rfl

private theorem delete_eq_error : delete r s = .error e s' ↔
    (s.2.get r).isDeleted = false ∧ s.1.config.bypass = false ∧
      s.2.RefusesRemoval (s.2.get r).type.kind r e ∧
      s' = (s.1.setRegistry (s.2.get r).type.kind ((s.1.registry (s.2.get r).type.kind).setBucket
          (s.2.get r).type.name
          (((s.1.registry (s.2.get r).type.kind).bucket (s.2.get r).type).refusing s.2 r)),
        s.2.modify r .markDeleted) := by
  have hget : (s.2.modify r .markDeleted).get r = (s.2.get r).markDeleted :=
    Heap.get_modify_self s.2 r _
  have htype : ((s.2.modify r .markDeleted).get r).type = (s.2.get r).type := by
    rw [hget]
    rfl
  have hrefusing : ∀ b : Bucket, b.refusing (s.2.modify r .markDeleted) r = b.refusing s.2 r := by
    intro b
    rw [Bucket.refusing, Bucket.refusing, hget]
    rfl
  rw [delete_apply]
  cases (s.2.get r).isDeleted with
  | true => simp
  | false =>
    cases s.1.config.bypass with
    | true => simp
    | false =>
      simp only [Bool.false_eq_true, if_false, true_and]
      rw [Registry.remove, onBucket_eq_error]
      simp only [htype, Bucket.remove_eq_error, Heap.refusesRemoval_markDeleted, hrefusing]
      constructor
      · rintro ⟨t, ⟨hrefuses, rfl⟩, rfl⟩
        exact ⟨hrefuses, rfl⟩
      · rintro ⟨hrefuses, rfl⟩
        exact ⟨_, ⟨hrefuses, rfl⟩, rfl⟩

theorem delete_schedules {key : RowKey} (hm : (s.2.get r).isDeleted = false)
    (hbypass : s.1.config.bypass = false) (hn : (s.2.get r).isNew = false)
    (hk : s.2.fileKey (s.2.get r).type.kind r = .ok key) :
    ∃ s' b, delete r s = .ok () s' ∧ s'.2 = s.2.modify r .markDeleted ∧
      s'.1.typeBucket? (s.2.get r).type = some b ∧ b.deleted.get? key = some r ∧
        b.live.get? key = none := by
  have hget : (s.2.modify r .markDeleted).get r = (s.2.get r).markDeleted :=
    Heap.get_modify_self s.2 r _
  have htype : ((s.2.modify r .markDeleted).get r).type = (s.2.get r).type := by
    rw [hget]
    rfl
  have hkey : (s.2.modify r .markDeleted).fileKey (s.2.get r).type.kind r = .ok key :=
    (Heap.fileKey_congr (Heap.primaryKey?_markDeleted s.2 r r) htype).trans hk
  have hnew : ((s.2.modify r .markDeleted).get r).isNew = false := by
    rw [hget]
    exact hn
  rw [delete_apply, if_neg (by simp [hm]), if_neg (by simp [hbypass])]
  simp only [onRegistry, Registry.remove, Registry.onBucket, Tracking.within, htype, Bucket.remove,
    hnew, hkey, Bool.false_eq_true, if_false]
  refine ⟨_, _, rfl, rfl, (get?_setRegistry_setBucket ..).trans (if_pos ⟨rfl, rfl⟩), ?_, ?_⟩
  · exact (FinMap.get?_insert ..).trans (if_pos rfl)
  · exact (FinMap.get?_erase ..).trans (if_pos rfl)

/-- What a request to delete `r` leaves behind in the state `s'` when it fails in the state `s`: the
mark, an empty bucket if the type was not met before, and a new record that is listed no longer. -/
structure HalfDeleted (r : RecordId) (e : Error) (s s' : Workspace × Heap) : Prop where
  cause : s.2.RefusesRemoval (s.2.get r).type.kind r e
  unmarked : (s.2.get r).isDeleted = false
  heap : s'.2 = s.2.modify r .markDeleted
  bucket : ∀ kind name, (s'.1.registry kind).buckets.get? name =
    if kind = (s.2.get r).type.kind ∧ (s.2.get r).type.name = name then
      some (((s.1.registry (s.2.get r).type.kind).bucket (s.2.get r).type).refusing s.2 r)
    else (s.1.registry kind).buckets.get? name
  found : ∀ name key, s'.1.find? name key = s.1.find? name key

private theorem notMem_deleteBatches {w : Workspace} : r ∉ w.deleteBatches.flatMap (·.records) ↔
    w.AllBuckets fun _ b => r ∉ b.deleted.values := by
  rw [mem_deleteBatches]
  constructor
  · exact fun hr kind name b hb hin => hr ⟨kind, name, b, hb, hin⟩
  · rintro hall ⟨kind, name, b, hb, hin⟩
    exact hall kind name b hb hin

private theorem HalfDeleted.spares (hd : HalfDeleted r e s s')
    (hs : s.1.AllBuckets fun _ b => r ∉ b.deleted.values) :
    s'.1.AllBuckets fun _ b => r ∉ b.deleted.values := by
  intro kind name b hb
  rw [hd.bucket] at hb
  split at hb
  · obtain rfl := Option.some.inj hb
    rw [(Bucket.refusing_keyed _ s.2 r).2.1]
    rcases (s.1.registry (s.2.get r).type.kind).bucket_cases (s.2.get r).type with hb | hempty
    · exact hs _ _ _ hb
    · rw [hempty]
      exact List.not_mem_nil
  · exact hs kind name b hb

private theorem halfDeleted_of_error (he : delete r s = .error e s') : HalfDeleted r e s s' := by
  obtain ⟨hm, -, hcause, rfl⟩ := delete_eq_error.mp he
  have hbucket := fun kind name => get?_setRegistry_setBucket s.1 (s.2.get r).type.kind kind
    (s.2.get r).type.name name
    (((s.1.registry (s.2.get r).type.kind).bucket (s.2.get r).type).refusing s.2 r)
  refine ⟨hcause, hm, rfl, hbucket, fun name key => ?_⟩
  have hconfig : ∀ g, (s.1.setRegistry (s.2.get r).type.kind g).config = s.1.config :=
    fun g => config_setRegistry ..
  rw [find?_eq, find?_eq, hconfig]
  refine congrArg (ite (s.1.config.bypass = true) none) ?_
  cases hk : key.kind? with
  | none => simp [bucket?, hk]
  | some kind =>
    rw [bucket?_of_kind? hk, bucket?_of_kind? hk]
    dsimp only
    rw [hbucket]
    split
    · next hsame =>
      -- The bucket was there already, or it is empty.
      obtain ⟨rfl, rfl⟩ := hsame
      obtain ⟨hlive, -, hnew⟩ := Bucket.refusing_keyed
        ((s.1.registry (s.2.get r).type.kind).bucket (s.2.get r).type) s.2 r
      rw [Option.bind_some, Bucket.find?, hlive, hnew, ← Bucket.find?, Registry.bucket]
      cases (s.1.registry (s.2.get r).type.kind).buckets.get? (s.2.get r).type.name <;> rfl
    · rfl

end Workspace

namespace Move

variable {s : Workspace × Heap} {m : Move} {r : RecordId}

/-- The record stays marked, and it is not imported. -/
def KeepsMark (r : RecordId) (s : Workspace × Heap) (m : Move) : Prop :=
  ((m.run s).2.get r).isDeleted ∧
    match m with
    | track _ q importing => q = r → importing = false
    | edit _ | remove _ _ | settle _ _ => True

instance : Decidable (m.KeepsMark r s) :=
  match m with
  | track _ _ _ => inferInstanceAs (Decidable (_ ∧ (_ → _)))
  | edit _ | remove _ _ | settle _ _ => inferInstanceAs (Decidable (_ ∧ True))

private theorem run_spares (hremove : ∀ kind, m ≠ .remove kind r) (hkeeps : m.KeepsMark r s)
    (hs : s.1.AllBuckets fun _ b => r ∉ b.deleted.values) :
    (m.run s).1.AllBuckets fun _ b => r ∉ b.deleted.values := by
  intro kind name b hb
  obtain ⟨key, hk, halters⟩ := exists_alters hb
  have hbucket : ∀ {kind' : KeyKind} {t : RecordType}, key.kind? = some kind' →
      t.name = name → r ∉ ((s.1.registry kind').bucket t).deleted.values := fun hk' ht =>
    Workspace.forall_bucket (P := fun b => r ∉ b.deleted.values) hk' ht
      (fun b hb => hs _ name b ((Workspace.bucket?_of_kind? hk').symm.trans hb)) List.not_mem_nil
  cases halters with
  | leaves hb => exact hs kind name b ((Workspace.bucket?_of_kind? hk).symm.trans hb)
  | tracks hm hk hname a =>
    subst hm
    exact a.notMem_deleted hkeeps.2 (hbucket hk hname)
  | removes hm hk hname a =>
    subst hm
    refine a.notMem_deleted ?_ (hbucket hk hname)
    rintro rfl
    exact hremove _ rfl
  | settles _ hk hb' _ hsettled =>
    subst hsettled
    exact Bucket.settle_notMem_deleted _ _ _
      (hs _ name _ ((Workspace.bucket?_of_kind? hk).symm.trans hb'))

end Move

namespace Operation

variable {σ ρ : Type} {s : Workspace × Heap} {r : RecordId}

/-- A record that is marked but not waiting for its row to be deleted does not come to wait for it,
however often it is asked for, as long as it stays marked. -/
theorem runAll_spares {ops : List (Operation σ ρ)}
    (hkeeps : Move.Along (Move.KeepsMark r) s (allMoves s ops)) (hm : (s.2.get r).isDeleted)
    (hs : s.1.AllBuckets fun _ b => r ∉ b.deleted.values) :
    ((runAll s ops).2.get r).isDeleted ∧
      (runAll s ops).1.AllBuckets fun _ b => r ∉ b.deleted.values := by
  induction ops generalizing s with
  | nil => exact ⟨hm, hs⟩
  | cons op ops ih =>
    obtain ⟨hop, hops⟩ := Move.along_append.mp hkeeps
    rw [← run_eq_runAll] at hops
    have hnone : ∀ m ∈ op.moves s, ∀ kind, m ≠ .remove kind r := by
      rintro m hin kind rfl
      obtain ⟨-, hunmarked⟩ := of_remove_mem_moves hin
      exact Bool.noConfusion (hunmarked.symm.trans hm)
    have hboth := (hop.and (Move.along_of_mem hnone)).invariant
      (I := fun s => (s.2.get r).isDeleted ∧ s.1.AllBuckets fun _ b => r ∉ b.deleted.values)
      (fun s m hm hs => ⟨hm.1.1, Move.run_spares hm.2 hm.1 hs.2⟩) ⟨hm, hs⟩
    rw [← run_eq_runAll] at hboth
    exact ih hops hboth.1 hboth.2

end Operation

namespace Workspace

variable {σ ρ : Type} {s s' : Workspace × Heap} {r : RecordId} {e : Error}

/-- A request to delete a record that fails leaves the mark behind. As long as the record stays
marked, every later request succeeds without doing anything, and the row is not deleted for this
record; if the mark is taken off, then the request is made good by one with a key that can be
filed. -/
theorem delete_fails (he : delete r s = .error e s') :
    HalfDeleted r e s s' ∧
      (∀ ops : List (Operation σ ρ),
        Move.Along (Move.KeepsMark r) s' (Operation.allMoves s' ops) →
          let s'' := Operation.runAll s' ops
          delete r s'' = .ok () s'' ∧
            (r ∉ s.1.deleteBatches.flatMap (·.records) →
              r ∉ s''.1.deleteBatches.flatMap (·.records))) ∧
      ∀ h key, (h.get r).isDeleted = false → (h.get r).isNew = false →
        h.fileKey (h.get r).type.kind r = .ok key →
          ∃ s'' b, delete r (s'.1, h) = .ok () s'' ∧
            s''.1.typeBucket? (h.get r).type = some b ∧ b.deleted.get? key = some r := by
  have hhalf := halfDeleted_of_error he
  obtain ⟨-, hbypass, -, hs'⟩ := delete_eq_error.mp he
  have hmarked : (s'.2.get r).isDeleted := by
    rw [hhalf.heap, Heap.get_modify_self]
    rfl
  refine ⟨hhalf, fun ops hkeeps => ⟨?_, fun hnot => ?_⟩, fun h key hm hn hk => ?_⟩
  · have hstays := hkeeps.invariant (I := fun s => (s.2.get r).isDeleted) (fun _ _ hm _ => hm.1)
      hmarked
    rw [← Operation.runAll_eq] at hstays
    exact delete_marked hstays
  · have hspares := hhalf.spares (notMem_deleteBatches.mp hnot)
    exact notMem_deleteBatches.mpr (Operation.runAll_spares hkeeps hmarked hspares).2
  · have hconfig : s'.1.config.bypass = false := by
      rw [hs', config_setRegistry, hbypass]
    obtain ⟨s'', b, hok, -, hb, hdeleted, -⟩ :=
      delete_schedules (s := (s'.1, h)) hm hconfig hn hk
    exact ⟨s'', b, hok, hb, hdeleted⟩

/-! An item with a row whose key is not known yet is to be deleted, beside another one. -/

def keylessItem : Heap :=
  ((∅ : Heap).set ⟨0⟩ (Record.persisted (itemType "a"))).set ⟨1⟩ Registry.readItem

def trackBesideKeyless : List (Operation Nat) := [.edit keylessItem, .track ⟨1⟩]

def besideKeyless : Workspace × Heap := Operation.runAll ({}, ∅) trackBesideKeyless

def keylessDeleted : Workspace × Heap := endState (delete ⟨0⟩ besideKeyless)

private theorem delete_keyless : ∃ e, delete ⟨0⟩ besideKeyless = .error e keylessDeleted :=
  exists_of_returned? (by decide +kernel)

/-- The key becomes known. -/
def keyKeyless : List (Operation Nat) :=
  [.edit (keylessDeleted.2.modify ⟨0⟩ (·.setSlot 0 (.int64 2)))]

/-- With the key that has become known the item is not deleted either. -/
theorem delete_fails_keyless :
    (Operation.runAll keylessDeleted keyKeyless).2.primaryKey? ⟨0⟩ = some ⟨[.int64 2]⟩ ∧
      delete ⟨0⟩ (Operation.runAll keylessDeleted keyKeyless) =
        .ok () (Operation.runAll keylessDeleted keyKeyless) ∧
      ⟨0⟩ ∉ (Operation.runAll keylessDeleted keyKeyless).1.deleteBatches.flatMap (·.records) := by
  obtain ⟨e, he⟩ := delete_keyless
  obtain ⟨-, hstays, -⟩ := delete_fails (σ := Nat) (ρ := CancelReason) he
  obtain ⟨hagain, hspared⟩ := hstays keyKeyless (by decide +kernel)
  exact ⟨by decide +kernel, hagain, hspared (by decide +kernel)⟩

/-- Some request to delete a record fails and changes the record. -/
theorem not_delete_unchanged :
    ¬ ∀ (ops : List (Operation Nat)) (r : RecordId) (e : Error) (s' : Workspace × Heap),
      Operation.AllLegal ({}, ∅) ops →
        let s := Operation.runAll ({}, ∅) ops
        delete r s = .error e s' →
          s'.2.get r = s.2.get r ∧
            ∀ kind t, (s'.1.registry kind).bucket t = (s.1.registry kind).bucket t := by
  intro hall
  obtain ⟨e, he⟩ := delete_keyless
  have hlegal : Operation.AllLegal ({}, ∅) trackBesideKeyless :=
    ⟨.of_fresh (by decide +kernel), by decide +kernel, trivial⟩
  obtain ⟨hsame, -⟩ := hall trackBesideKeyless ⟨0⟩ e keylessDeleted hlegal he
  revert hsame
  decide +kernel

end Workspace

end UnitOfWork
