import UnitOfWork.Proofs.Commit.SettledRegistry
import UnitOfWork.Proofs.Tracking.Tidiness

/-!
# What can become of a registry

A registry is handed records that exist, in any order, and its records are edited in between,
whether or not their types and keys are such as it expects. Whatever becomes of it, every record is
in the bucket of its type, a record that is found by a key as a new one is ready for a commit and
not pending, and one that is live or deleted has a row.
-/

namespace UnitOfWork

namespace Bucket

/-- A bucket of a registry that only records that exist have been handed to: what is found by a key
is ready and not pending, or it has a row. -/
structure Steady (name : String) (b : Bucket) (h : Heap) : Prop where
  newCoherent : b.new.Coherent
  pendingCoherent : b.pending.Coherent
  new : ∀ r ∈ b.new.toList, r.index < h.next
  pending : ∀ r ∈ b.pending.toList, r.index < h.next ∧ (h.get r).type.name = name
  newByKey : ∀ key q, b.newByKey.get? key = some q → q.index < h.next ∧
    (h.get q).type.name = name ∧ (h.get q).isCommitReady ∧ q ∉ b.pending.toList
  stored : ∀ key q, b.live.get? key = some q ∨ b.deleted.get? key = some q →
    q.index < h.next ∧ (h.get q).isNew = false

variable {kind : KeyKind} {name : String} {b b' : Bucket} {h h' : Heap} {r q : RecordId}
  {key : RowKey} {importing : Bool} {answer : Option RecordId}

private theorem steady_empty (name : String) (t : RecordType) (h : Heap) :
    ({ type := t } : Bucket).Steady name h where
  newCoherent := IdentitySet.coherent_empty
  pendingCoherent := IdentitySet.coherent_empty
  new r hr := by simp at hr
  pending r hr := by simp at hr
  newByKey key q hq := by cases hq
  stored key q hq := by rcases hq with hq | hq <;> cases hq

private theorem Steady.grows (hb : b.Steady name h) (a : h.Grows h') : b.Steady name h' where
  newCoherent := hb.newCoherent
  pendingCoherent := hb.pendingCoherent
  new r hr := Nat.lt_of_lt_of_le (hb.new r hr) a.next
  pending r hr := by
    obtain ⟨hlt, hname⟩ := hb.pending r hr
    exact ⟨Nat.lt_of_lt_of_le hlt a.next, by rw [(a.record r hlt).type, hname]⟩
  newByKey key q hq := by
    obtain ⟨hlt, hname, hready, hnot⟩ := hb.newByKey key q hq
    exact ⟨Nat.lt_of_lt_of_le hlt a.next, by rw [(a.record q hlt).type, hname],
      (a.record q hlt).isCommitReady hready, hnot⟩
  stored key q hq := by
    obtain ⟨hlt, hrow⟩ := hb.stored key q hq
    refine ⟨Nat.lt_of_lt_of_le hlt a.next, Bool.eq_false_iff.mpr fun hn => ?_⟩
    exact Bool.noConfusion (hrow.symm.trans ((a.record q hlt).isNew hn))

private theorem Steady.insertPending (hb : b.Steady name h) (hlt : r.index < h.next)
    (hname : (h.get r).type.name = name) (hr : (h.get r).isCommitReady = false) :
    ({ b with pending := b.pending.insert r } : Bucket).Steady name h :=
  { hb with
    pendingCoherent := hb.pendingCoherent.insert r
    pending := fun q hq => by
      rcases hb.pendingCoherent.mem_insert.mp hq with rfl | hq
      · exact ⟨hlt, hname⟩
      · exact hb.pending q hq
    newByKey := fun key q hq => by
      obtain ⟨hlt, hname, hready, hnot⟩ := hb.newByKey key q hq
      refine ⟨hlt, hname, hready, fun hp => ?_⟩
      rcases hb.pendingCoherent.mem_insert.mp hp with rfl | hp
      · exact Bool.noConfusion (hr.symm.trans hready)
      · exact hnot hp }

private theorem Steady.erasePending (hb : b.Steady name h) (r : RecordId) :
    ({ b with pending := b.pending.erase r } : Bucket).Steady name h :=
  { hb with
    pendingCoherent := hb.pendingCoherent.erase r
    pending := fun q hq => hb.pending q (hb.pendingCoherent.mem_erase.mp hq).2
    newByKey := fun key q hq => by
      obtain ⟨hlt, hname, hready, hnot⟩ := hb.newByKey key q hq
      exact ⟨hlt, hname, hready, fun hp => hnot (hb.pendingCoherent.mem_erase.mp hp).2⟩ }

private theorem Steady.listing (hb : b.Steady name h) (hlt : r.index < h.next) :
    (b.listing r).Steady name h :=
  { hb.erasePending r with
    newCoherent := hb.newCoherent.insert r
    new := fun q hq => by
      rcases hb.newCoherent.mem_insert.mp hq with rfl | hq
      · exact hlt
      · exact hb.new q hq }

private theorem Steady.eraseNew (hb : b.Steady name h) (r : RecordId) :
    ({ b with new := b.new.erase r } : Bucket).Steady name h :=
  { hb with
    newCoherent := hb.newCoherent.erase r
    new := fun q hq => hb.new q (hb.newCoherent.mem_erase.mp hq).2 }

private theorem Steady.folding (hb : b.Steady name h) (hlt : r.index < h.next) :
    (b.folding r).Steady name h :=
  (hb.listing hlt).eraseNew r

private theorem Steady.insertLive (hb : b.Steady name h) (key : RowKey)
    (hq : q.index < h.next ∧ (h.get q).isNew = false) :
    ({ b with live := b.live.insert key q } : Bucket).Steady name h :=
  { hb with
    stored := fun key' q' hq' => by
      rcases hq' with hq' | hq'
      · rcases FinMap.of_get?_insert hq' with ⟨-, rfl⟩ | hq'
        · exact hq
        · exact hb.stored key' q' (.inl hq')
      · exact hb.stored key' q' (.inr hq') }

private theorem Steady.insertDeleted (hb : b.Steady name h) (key : RowKey)
    (hq : q.index < h.next ∧ (h.get q).isNew = false) :
    ({ b with deleted := b.deleted.insert key q } : Bucket).Steady name h :=
  { hb with
    stored := fun key' q' hq' => by
      rcases hq' with hq' | hq'
      · exact hb.stored key' q' (.inl hq')
      · rcases FinMap.of_get?_insert hq' with ⟨-, rfl⟩ | hq'
        · exact hq
        · exact hb.stored key' q' (.inr hq') }

private theorem Steady.eraseLive (hb : b.Steady name h) (key : RowKey) :
    ({ b with live := b.live.erase key } : Bucket).Steady name h :=
  { hb with stored := fun key' q' hq' => hb.stored key' q' (hq'.imp_left FinMap.of_get?_erase) }

private theorem Steady.eraseDeleted (hb : b.Steady name h) (key : RowKey) :
    ({ b with deleted := b.deleted.erase key } : Bucket).Steady name h :=
  { hb with stored := fun key' q' hq' => hb.stored key' q' (hq'.imp_right FinMap.of_get?_erase) }

private theorem Tracks.steady (a : Tracks kind b h r importing answer b' h') (hb : b.Steady name h)
    (hlt : r.index < h.next) (hname : (h.get r).type.name = name) : b'.Steady name h' := by
  refine Steady.grows ?_ a.grows
  cases a with
  | waits _ hnot => exact hb.insertPending hlt hname hnot
  | lists | misfiles => exact hb.listing hlt
  | joins => exact hb.folding hlt
  | revives _ _ hdeleted =>
    have hrow := hb.stored _ _ (.inr hdeleted)
    exact ((hb.folding hlt).eraseDeleted _).insertLive _ hrow
  | @files key hk =>
    refine { hb.listing hlt with newByKey := fun key' q hq => ?_ }
    rcases FinMap.of_get?_insert hq with ⟨-, rfl⟩ | hq
    · exact ⟨hlt, hname, hk.ready, fun hp => (hb.pendingCoherent.mem_erase.mp hp).1 rfl⟩
    · exact (hb.listing hlt).newByKey key' q hq
  | fails | finds | merges | mergesDeleted => exact hb
  | enters hst => exact hb.insertLive _ ⟨hlt, hst.notNew⟩
  | replacesDeleted hst => exact hb.insertDeleted _ ⟨hlt, hst.notNew⟩
  | restores hst => exact (hb.eraseDeleted _).insertLive _ ⟨hlt, hst.notNew⟩

private theorem Tracks.next (a : Tracks kind b h r importing answer b' h') : h'.next = h.next := by
  cases a <;> rfl

private theorem Removes.steady (a : Removes kind b h r b') (hb : b.Steady name h)
    (hlt : r.index < h.next) : b'.Steady name h := by
  cases a with
  | forgets => exact (hb.eraseNew r).erasePending r
  | unfiles =>
    have hleft := (hb.eraseNew r).erasePending r
    exact { hleft with newByKey := fun key q hq => hleft.newByKey key q (FinMap.of_get?_erase hq) }
  | fails => exact hb
  | deletes hst => exact (hb.eraseLive _).insertDeleted _ ⟨hlt, hst.notNew⟩

end Bucket

namespace Registry

variable {kind : KeyKind} {s : Registry kind × Heap} {g : Registry kind} {h h' : Heap}
  {r : RecordId} {name : String} {b : Bucket}

/-- Every bucket is steady. -/
def Steady (s : Registry kind × Heap) : Prop :=
  ∀ name b, s.1.buckets.get? name = some b → b.Steady name s.2

private theorem Steady.grows (hs : Steady (g, h)) (a : h.Grows h') : Steady (g, h') :=
  fun name b hb => (hs name b hb).grows a

private theorem Steady.bucket (hs : Steady s) (t : RecordType) :
    (s.1.bucket t).Steady t.name s.2 := by
  rcases s.1.bucket_cases t with hb | hb
  · exact hs _ _ hb
  · rw [hb]
    exact Bucket.steady_empty t.name t s.2

private theorem Steady.setBucket (hs : Steady (g, h)) (hb : b.Steady name h) :
    Steady (g.setBucket name b, h) := by
  intro name' b' hb'
  rcases of_get?_setBucket hb' with ⟨rfl, rfl⟩ | ⟨-, hb'⟩
  · exact hb
  · exact hs name' b' hb'

theorem Steady.track (hs : Steady s) (hr : r.index < s.2.next) (importing : Bool) :
    Steady (endState (track r importing s)) ∧
      (endState (track r importing s)).2.next = s.2.next := by
  have htracks := Bucket.track_tracks kind (s.1.bucket (s.2.get r).type) s.2 r importing
  have hend := (onBucket_eq (r := r) (Bucket.track kind r importing) s.1 s.2).2
  rw [show endState (Registry.track r importing s) = _ from hend]
  exact ⟨(Steady.grows hs htracks.grows).setBucket (htracks.steady (hs.bucket _) hr rfl),
    htracks.next⟩

private theorem Steady.remove (hs : Steady s) (hr : r.index < s.2.next) :
    Steady (endState (remove r s)) := by
  obtain ⟨hheap, hremoves⟩ := Bucket.remove_removes kind (s.1.bucket (s.2.get r).type) s.2 r
  have hend := (onBucket_eq (r := r) (Bucket.remove kind r) s.1 s.2).2
  rw [show endState (Registry.remove r s) = _ from hend, hheap]
  exact Steady.setBucket hs (hremoves.steady (hs.bucket _) hr)

private theorem Steady.checkReady (hs : Steady s) : Steady (endState (checkReady s)) := by
  -- Tracking gives out no identities, so that the records that are pending go on existing.
  let I (s₁ : Registry kind × Heap) : Prop := Steady s₁ ∧ s₁.2.next = s.2.next
  have hcheck : Preserves I (Registry.checkReady : Tracking (Registry kind) Unit) := by
    refine checkReady_preserves fun s₁ hs₁ r hr => preserves_iff.mpr fun s₂ hs₂ => ?_
    obtain ⟨name, b, hb, hr⟩ := mem_pending.mp hr
    have hlt := ((hs₁.1 name b hb).pending r hr).1
    obtain ⟨hnext, hsame⟩ := hs₂.1.track (hs₂.2.symm ▸ hs₁.2 ▸ hlt) false
    exact ⟨hnext, hsame.trans hs₂.2⟩
  exact (preserves_iff.mp hcheck s ⟨hs, rfl⟩).1

private theorem settle_grows (purge : Bool) (s : Registry kind × Heap) :
    s.2.Grows (endState (settle purge s)).2 :=
  settle_heap (fun h => .refl h) (fun _ _ _ a b => a.trans b) fun b h written =>
    b.settle_grows h purge written

private theorem Steady.settle (hs : Steady s) (purge : Bool) :
    Steady (endState (settle purge s)) := by
  rcases settle_cases s.1 s.2 purge with hsame | hsettled
  · rw [show endState (Registry.settle purge s) = s from hsame]
    exact hs
  · intro name b' hb'
    obtain ⟨b, hb, has⟩ := hsettled.exists_bucket hb'
    have hgrown := (hs name b hb).grows (settle_grows purge s)
    refine ⟨has.new ▸ IdentitySet.coherent_empty, has.pending ▸ hgrown.pendingCoherent,
      fun r hr => ?_, has.pending ▸ hgrown.pending, fun key q hq => ?_, fun key q hq => ?_⟩
    · rw [has.new] at hr
      simp at hr
    · rw [has.newByKey] at hq
      cases hq
    · rcases hq with hq | hq
      · rw [has.live] at hq
        rcases Option.or_eq_some_iff.mp hq with hlast | ⟨-, hlive⟩
        · have hnew : q ∈ b.new.toList := List.mem_reverse.mp (List.mem_of_find?_eq_some hlast)
          exact ⟨hgrown.new q hnew, (hsettled.committed (mem_newRecords.mpr ⟨name, b, hb, hnew⟩)).1⟩
        · exact hgrown.stored key q (.inl hlive)
      · rw [has.deleted] at hq
        split at hq
        · cases hq
        · exact hgrown.stored key q (.inr hq)

/-- What may have become of a registry and of the records around it, beginning with an empty one.
Records come into being and are changed by their setters at any time, and those that exist are
handed to the registry. -/
inductive Reached : Registry kind × Heap → Prop
  | empty : Reached ({}, ∅)
  | create {s : Registry kind × Heap} (content : Record) : Reached s →
    Reached (s.1, (s.2.alloc content).2)
  | assign {s : Registry kind × Heap} (r : RecordId) (setter : Record.Setter) : Reached s →
    Reached (s.1, s.2.modify r setter.apply)
  | track {s : Registry kind × Heap} {r : RecordId} (importing : Bool) : Reached s →
    r.index < s.2.next → Reached (endState (track r importing s))
  | remove {s : Registry kind × Heap} {r : RecordId} : Reached s → r.index < s.2.next →
    Reached (endState (remove r s))
  | checkReady {s : Registry kind × Heap} : Reached s → Reached (endState (checkReady s))
  | settle {s : Registry kind × Heap} (purge : Bool) : Reached s →
    Reached (endState (settle purge s))

theorem Reached.steady (hs : Reached s) : Steady s := by
  induction hs with
  | empty => exact fun name b hb => by cases hb
  | create content _ ih => exact Steady.grows ih (.alloc _ content)
  | assign r setter _ ih => exact Steady.grows ih (.modify r (setter.grows _))
  | track importing _ hr ih => exact (ih.track hr importing).1
  | remove _ hr ih => exact ih.remove hr
  | checkReady _ ih => exact ih.checkReady
  | settle purge _ ih => exact ih.settle purge

end Registry

end UnitOfWork
