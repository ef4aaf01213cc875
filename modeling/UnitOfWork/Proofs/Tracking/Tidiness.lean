import UnitOfWork.Proofs.Record.Setters
import UnitOfWork.Proofs.Tracking.Outcomes
import UnitOfWork.Proofs.Tracking.Settling

/-!
# Tidy buckets

A registry may be handed any record at any time, whatever has been done to the record in between
and whether or not the registry accepts it. Its buckets stay tidy: no key is both live and deleted,
a record is tracked as new once or as pending once, and those that are tracked as new are ready for
a commit.
-/

namespace UnitOfWork

namespace Heap

/-- From `h` to `h'` records have come into being and have been changed by their setters. -/
structure Grows (h h' : Heap) : Prop where
  next : h.next ≤ h'.next
  record : ∀ r, r.index < h.next → (h.get r).Grows (h'.get r)
  minted : ∀ r, (h'.get r).isNew → r.index < h'.next ∨ (h.get r).isNew

/-- An identity that was not given out does not read as a new record. -/
def Minted (h : Heap) : Prop := ∀ r, (h.get r).isNew → r.index < h.next

namespace Grows

variable {h h' h'' : Heap}

theorem refl (h : Heap) : h.Grows h := ⟨Nat.le_refl _, fun _ _ => .refl _, fun _ hn => .inr hn⟩

theorem trans (a : h.Grows h') (b : h'.Grows h'') : h.Grows h'' where
  next := Nat.le_trans a.next b.next
  record r hr := (a.record r hr).trans (b.record r (Nat.lt_of_lt_of_le hr a.next))
  minted r hn := by
    rcases b.minted r hn with hr | hn
    · exact .inl hr
    · exact (a.minted r hn).imp_left fun hr => Nat.lt_of_lt_of_le hr b.next

theorem modify {f : Record → Record} (r : RecordId) (hf : (h.get r).Grows (f (h.get r))) :
    h.Grows (h.modify r f) := by
  have hall : ∀ q, (h.get q).Grows ((h.modify r f).get q) := by
    intro q
    rw [get_modify]
    split
    · next hq => exact hq ▸ hf
    · exact .refl _
  exact ⟨Nat.le_refl _, fun q _ => hall q, fun q hn => .inr ((hall q).isNew hn)⟩

private theorem modifyAll {f : Record → Record} (hf : ∀ x : Record, x.Grows (f x))
    (rs : List RecordId) :
    h.Grows (h.modifyAll rs f) := by
  induction rs generalizing h with
  | nil => exact refl h
  | cons r rs ih => exact (modify r (hf _)).trans ih

theorem alloc (h : Heap) (content : Record) : h.Grows (h.alloc content).2 := by
  have hget : ∀ q : RecordId, q.index ≠ h.next → (h.alloc content).2.get q = h.get q := by
    intro q hq
    exact (get_set h ⟨h.next⟩ q content).trans (if_neg fun he => hq (by rw [← he]))
  refine ⟨Nat.le_succ _, fun q hq => ?_, fun q hn => ?_⟩
  · rw [hget q (Nat.ne_of_lt hq)]
    exact .refl _
  · by_cases hq : q.index = h.next
    · exact .inl (by rw [hq]; exact Nat.lt_succ_self _)
    · rw [hget q hq] at hn
      exact .inr hn

private theorem isMinted (a : h.Grows h') (hm : h.Minted) : h'.Minted := by
  intro r hn
  rcases a.minted r hn with hr | hn
  · exact hr
  · exact Nat.lt_of_lt_of_le (hm r hn) a.next

end Grows

end Heap

namespace Bucket

/-- What an application can rely on: a key is live or deleted, a record is new or pending, once, and
new ones are ready. -/
structure Tidy (b : Bucket) (h : Heap) : Prop where
  liveOrDeleted : ∀ key, b.live.get? key = none ∨ b.deleted.get? key = none
  newOrPending : ∀ r, r ∈ b.new.toList → r ∉ b.pending.toList
  newOnce : b.new.toList.Nodup
  pendingOnce : b.pending.toList.Nodup
  ready : ∀ r ∈ b.new.toList, (h.get r).isCommitReady

/-- A tidy bucket, with all that its being so rests on. -/
structure Kept (b : Bucket) (h : Heap) : Prop where
  apart : ∀ key, b.live.get? key = none ∨ b.deleted.get? key = none
  newCoherent : b.new.Coherent
  pendingCoherent : b.pending.Coherent
  newOrPending : ∀ r, r ∈ b.new.toList → r ∉ b.pending.toList
  ready : ∀ r ∈ b.new.toList, r.index < h.next ∧ (h.get r).isCommitReady

private theorem Kept.tidy {b : Bucket} {h : Heap} (hb : b.Kept h) : b.Tidy h where
  liveOrDeleted := hb.apart
  newOrPending := hb.newOrPending
  newOnce := hb.newCoherent.nodup
  pendingOnce := hb.pendingCoherent.nodup
  ready r hr := (hb.ready r hr).2

variable {kind : KeyKind} {b b' : Bucket} {h h' : Heap} {r : RecordId} {importing : Bool}
  {answer : Option RecordId}

private theorem kept_empty (t : RecordType) (h : Heap) : ({ type := t } : Bucket).Kept h where
  apart _ := .inl rfl
  newCoherent := IdentitySet.coherent_empty
  pendingCoherent := IdentitySet.coherent_empty
  newOrPending r hr := by simp at hr
  ready r hr := by simp at hr

private theorem Kept.grows (hb : b.Kept h) (a : h.Grows h') : b.Kept h' where
  apart := hb.apart
  newCoherent := hb.newCoherent
  pendingCoherent := hb.pendingCoherent
  newOrPending := hb.newOrPending
  ready r hr := by
    obtain ⟨hlt, hready⟩ := hb.ready r hr
    exact ⟨Nat.lt_of_lt_of_le hlt a.next, (a.record r hlt).isCommitReady hready⟩

private theorem Kept.insertPending (hb : b.Kept h) (hr : (h.get r).isCommitReady = false) :
    ({ b with pending := b.pending.insert r } : Bucket).Kept h where
  apart := hb.apart
  newCoherent := hb.newCoherent
  pendingCoherent := hb.pendingCoherent.insert r
  newOrPending q hq hp := by
    rcases hb.pendingCoherent.mem_insert.mp hp with rfl | hp
    · exact Bool.noConfusion (hr.symm.trans (hb.ready q hq).2)
    · exact hb.newOrPending q hq hp
  ready := hb.ready

private theorem Kept.listing (hb : b.Kept h) (hr : r.index < h.next)
    (hready : (h.get r).isCommitReady) :
    (b.listing r).Kept h where
  apart := hb.apart
  newCoherent := hb.newCoherent.insert r
  pendingCoherent := hb.pendingCoherent.erase r
  newOrPending q hq hp := by
    obtain ⟨hne, hp⟩ := hb.pendingCoherent.mem_erase.mp hp
    exact hb.newOrPending q ((hb.newCoherent.mem_insert.mp hq).resolve_left hne) hp
  ready q hq := by
    rcases hb.newCoherent.mem_insert.mp hq with rfl | hq
    · exact ⟨hr, hready⟩
    · exact hb.ready q hq

private theorem Kept.eraseNew (hb : b.Kept h) (r : RecordId) :
    ({ b with new := b.new.erase r } : Bucket).Kept h where
  apart := hb.apart
  newCoherent := hb.newCoherent.erase r
  pendingCoherent := hb.pendingCoherent
  newOrPending q hq := hb.newOrPending q (hb.newCoherent.mem_erase.mp hq).2
  ready q hq := hb.ready q (hb.newCoherent.mem_erase.mp hq).2

private theorem Kept.erasePending (hb : b.Kept h) (r : RecordId) :
    ({ b with pending := b.pending.erase r } : Bucket).Kept h where
  apart := hb.apart
  newCoherent := hb.newCoherent
  pendingCoherent := hb.pendingCoherent.erase r
  newOrPending q hq hp := hb.newOrPending q hq (hb.pendingCoherent.mem_erase.mp hp).2
  ready := hb.ready

private theorem Kept.folding (hb : b.Kept h) (hr : r.index < h.next)
    (hready : (h.get r).isCommitReady) :
    (b.folding r).Kept h :=
  (hb.listing hr hready).eraseNew r

private theorem Kept.enliven (hb : b.Kept h) (key : RowKey) (q : RecordId) :
    ({ b with deleted := b.deleted.erase key, live := b.live.insert key q } : Bucket).Kept h where
  apart k := by
    rw [FinMap.get?_insert, FinMap.get?_erase]
    split
    · exact .inr rfl
    · exact hb.apart k
  newCoherent := hb.newCoherent
  pendingCoherent := hb.pendingCoherent
  newOrPending := hb.newOrPending
  ready := hb.ready

private theorem Kept.condemn (hb : b.Kept h) (key : RowKey) (q : RecordId) :
    ({ b with live := b.live.erase key, deleted := b.deleted.insert key q } : Bucket).Kept h where
  apart k := by
    rw [FinMap.get?_insert, FinMap.get?_erase]
    split
    · exact .inl rfl
    · exact hb.apart k
  newCoherent := hb.newCoherent
  pendingCoherent := hb.pendingCoherent
  newOrPending := hb.newOrPending
  ready := hb.ready

private theorem Kept.insertLive (hb : b.Kept h) {key : RowKey} (hkey : b.deleted.get? key = none)
    (q : RecordId) : ({ b with live := b.live.insert key q } : Bucket).Kept h :=
  { hb with
    apart := fun k => by
      rw [FinMap.get?_insert]
      split
      · next he => exact .inr (he ▸ hkey)
      · exact hb.apart k }

private theorem Kept.insertDeleted (hb : b.Kept h) {key : RowKey} (hkey : b.deleted.contains key)
    (q : RecordId) : ({ b with deleted := b.deleted.insert key q } : Bucket).Kept h :=
  { hb with
    apart := fun k => by
      rw [FinMap.get?_insert]
      split
      · next he =>
        refine .inl ((hb.apart k).resolve_right fun hc => ?_)
        rw [FinMap.contains, he, hc] at hkey
        exact Bool.noConfusion hkey
      · exact hb.apart k }

theorem Tracks.grows (a : Tracks kind b h r importing answer b' h') : h.Grows h' := by
  have hmerge : ∀ x y : Record, x.Grows (x.merge y) := fun x y => (Record.Setter.merge y).grows x
  have hdelete : ∀ x : Record, x.Grows x.markDeleted := fun x => Record.Setter.markDeleted.grows x
  cases a with
  | @joins key q => exact .modify q ((Record.Setter.absorb _).grows _)
  | @revives key q =>
    exact .modify q ((Record.Setter.undelete.grows _).trans ((Record.Setter.absorb _).grows _))
  | @merges key q =>
    refine .modify q ?_
    split
    · exact (hmerge _ _).trans (hdelete _)
    · exact hmerge _ _
  | @mergesDeleted key q =>
    refine .modify q ?_
    split
    · exact hdelete _
    · exact (hmerge _ _).trans (hdelete _)
  | waits | lists | misfiles | files | fails | finds | enters | replacesDeleted | restores =>
    exact .refl h

private theorem Tracks.kept (a : Tracks kind b h r importing answer b' h') (hm : h.Minted)
    (hb : b.Kept h) : b'.Kept h' := by
  refine Kept.grows ?_ a.grows
  cases a with
  | waits hn hready => exact hb.insertPending hready
  | lists hn hready => exact hb.listing (hm r hn) hready
  | misfiles hn hready => exact hb.listing (hm r hn) hready
  | joins hk => exact hb.folding (hm r hk.isNew) hk.ready
  | revives hk => exact (hb.folding (hm r hk.isNew) hk.ready).enliven _ _
  | files hk => exact { hb.listing (hm r hk.isNew) hk.ready with }
  | fails | finds | merges | mergesDeleted => exact hb
  | enters hst hlive hdeleted => exact hb.insertLive hdeleted r
  | replacesDeleted hst hi hd hc => exact hb.insertDeleted hc r
  | restores => exact hb.enliven _ r

private theorem Removes.kept (a : Removes kind b h r b') (hb : b.Kept h) : b'.Kept h := by
  cases a with
  | forgets => exact (hb.eraseNew r).erasePending r
  | unfiles => exact { (hb.eraseNew r).erasePending r with }
  | fails => exact hb
  | deletes => exact hb.condemn _ r

theorem settle_grows (b : Bucket) (h : Heap) (purge : Bool)
    (written : List (RowKey × RecordId)) : h.Grows (b.settle h purge written).2 :=
  (Heap.Grows.modifyAll Record.Setter.markCommitted.grows _).trans
    (.modifyAll Record.Setter.resetChanges.grows _)

private theorem Kept.settle (hb : b.Kept h) (h' : Heap) (written : List (RowKey × RecordId)) :
    (b.settle h' true written).1.Kept h where
  apart key := .inr rfl
  newCoherent := IdentitySet.coherent_empty
  pendingCoherent := hb.pendingCoherent
  newOrPending r hr := by simp [Bucket.settle] at hr
  ready r hr := by simp [Bucket.settle] at hr

end Bucket

namespace Registry

variable {kind : KeyKind} {g : Registry kind} {h h' : Heap} {r : RecordId}

def Tidy (g : Registry kind) (h : Heap) : Prop := ∀ b ∈ g.buckets.values, b.Tidy h

/-- A registry with tidy buckets, and records that have all come into being. -/
structure Kept (s : Registry kind × Heap) : Prop where
  minted : s.2.Minted
  buckets : ∀ name b, s.1.buckets.get? name = some b → b.Kept s.2

private theorem Kept.tidy {s : Registry kind × Heap} (hs : Kept s) : s.1.Tidy s.2 := by
  intro b hb
  obtain ⟨name, hget⟩ := NameMap.mem_values.mp hb
  exact (hs.buckets name b hget).tidy

private theorem Kept.grows (hs : Kept (g, h)) (a : h.Grows h') : Kept (g, h') :=
  ⟨a.isMinted hs.minted, fun name b hb => (hs.buckets name b hb).grows a⟩

private theorem Kept.bucket (hs : Kept (g, h)) (t : RecordType) : (g.bucket t).Kept h := by
  rcases g.bucket_cases t with hb | hb
  · exact hs.buckets _ _ hb
  · rw [hb]
    exact Bucket.kept_empty t h

private theorem Kept.setBucket (hs : Kept (g, h)) (name : String) {b : Bucket} (hb : b.Kept h) :
    Kept (g.setBucket name b, h) := by
  refine ⟨hs.minted, fun name' b' hb' => ?_⟩
  rcases of_get?_setBucket hb' with ⟨-, rfl⟩ | ⟨-, hb'⟩
  · exact hb
  · exact hs.buckets name' b' hb'

private theorem track_kept (r : RecordId) (importing : Bool) :
    Preserves Kept (track r importing : Tracking (Registry kind) RecordId) := by
  rw [preserves_iff]
  rintro ⟨g, h⟩ hs
  have htracks := Bucket.track_tracks kind (g.bucket (h.get r).type) h r importing
  rw [track, (onBucket_eq _ g h).2]
  exact (hs.grows htracks.grows).setBucket _ (htracks.kept hs.minted (hs.bucket _))

private theorem remove_kept (r : RecordId) :
    Preserves Kept (remove r : Tracking (Registry kind) Unit) := by
  rw [preserves_iff]
  rintro ⟨g, h⟩ hs
  obtain ⟨hheap, hremoves⟩ := Bucket.remove_removes kind (g.bucket (h.get r).type) h r
  rw [remove, (onBucket_eq _ g h).2, hheap]
  exact hs.setBucket _ (hremoves.kept (hs.bucket _))

private theorem checkReady_kept : Preserves Kept (checkReady : Tracking (Registry kind) Unit) :=
  checkReady_preserves fun _ _ r _ => track_kept r false

private theorem settleAll_kept (all : List (String × Bucket × List (RowKey × RecordId)))
    (hall : ∀ x ∈ all, x.2.1.Kept h) (s : Registry kind × Heap) (hs : Kept s)
    (hgrows : h.Grows s.2) :
    Kept (all.foldl (fun (g, h) (name, b, written) =>
      let (b, h) := b.settle h true written
      (g.setBucket name b, h)) s) := by
  induction all generalizing s with
  | nil => exact hs
  | cons x all ih =>
    obtain ⟨name, b, written⟩ := x
    have hsettle := Bucket.settle_grows b s.2 true written
    have hb : b.Kept (b.settle s.2 true written).2 :=
      (hall _ List.mem_cons_self).grows (hgrows.trans hsettle)
    apply ih fun y hy => hall y (List.mem_cons_of_mem _ hy)
    · exact (hs.grows hsettle).setBucket name (hb.settle s.2 written)
    · exact hgrows.trans hsettle

private theorem settle_kept : Preserves Kept (settle true : Tracking (Registry kind) Unit) := by
  rw [preserves_iff]
  rintro ⟨g, h⟩ hs
  rw [settle]
  generalize hall : (g.buckets.entries.mapM _ : Except Error _) = result
  cases result with
  | error e => exact hs
  | ok all =>
    have hbuckets : ∀ x ∈ all, x.2.1.Kept h := by
      intro x hx
      exact hs.buckets x.1 x.2.1 ((writtenBuckets_ok hall).1 x hx).1
    exact settleAll_kept all hbuckets (g, h) hs (.refl h)

/-- What can be done with a registry and with the records around it. -/
inductive Step where
  | create (content : Record)
  | assign (r : RecordId) (s : Record.Setter)
  | track (r : RecordId) (importing : Bool)
  | remove (r : RecordId)
  | checkReady
  | settle

/-- What a step comes to, also one that fails. -/
def Step.run (s : Registry kind × Heap) : Step → Registry kind × Heap
  | create content => (s.1, (s.2.alloc content).2)
  | assign r setter => (s.1, s.2.modify r setter.apply)
  | track r importing => endState (Registry.track r importing s)
  | remove r => endState (Registry.remove r s)
  | checkReady => endState (Registry.checkReady s)
  | settle => endState (Registry.settle true s)

private theorem Step.run_kept {s : Registry kind × Heap} (hs : Kept s) (step : Step) :
    Kept (step.run s) := by
  cases step with
  | create content => exact hs.grows (.alloc s.2 content)
  | assign r setter => exact hs.grows (.modify r (setter.grows _))
  | track r importing => exact preserves_iff.mp (track_kept r importing) s hs
  | remove r => exact preserves_iff.mp (remove_kept r) s hs
  | checkReady => exact preserves_iff.mp checkReady_kept s hs
  | settle => exact preserves_iff.mp settle_kept s hs

private theorem kept_empty : Kept (({} : Registry kind), (∅ : Heap)) where
  minted r hn := Bool.noConfusion hn
  buckets name b hb := by cases hb

private theorem Kept.steps {s : Registry kind × Heap} (hs : Kept s) (steps : List Step) :
    Kept (steps.foldl Step.run s) := by
  induction steps generalizing s with
  | nil => exact hs
  | cons step steps ih => exact ih (step.run_kept hs)

/-- Whatever has been done with a registry, its buckets are tidy. -/
theorem steps_tidy (steps : List Step) :
    let s := steps.foldl Step.run (({} : Registry kind), (∅ : Heap))
    s.1.Tidy s.2 := by
  intro s
  have hs : Kept s := kept_empty.steps steps
  exact hs.tidy

end Registry

end UnitOfWork
