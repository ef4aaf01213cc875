import UnitOfWork.Proofs.Tracking.Folding
import UnitOfWork.Proofs.Triple
import UnitOfWork.Tracking.Workspace

/-!
# Sound buckets

The bucket of a type holds records of that type, each at most once as new and at most once as
pending; a new record is filed by its key only if the store generates no part of it, and what has a
row is not new. Every operation keeps this, also one that fails, and all that it does to the records
is to fold some of them into others.
-/

namespace UnitOfWork

/-- The record exists, and its type has the given name and kind of key. -/
structure Heap.Belongs (h : Heap) (kind : KeyKind) (name : String) (r : RecordId) : Prop where
  mem : r ∈ h.ids
  name : (h.get r).type.name = name
  kind : (h.get r).type.kind = kind

theorem Heap.Belongs.evolves {h h' : Heap} {kind : KeyKind} {name : String} {r : RecordId}
    (a : h.Belongs kind name r) (e : h.Evolves h') : h'.Belongs kind name r where
  mem := e.ids r a.mem
  name := by rw [e.type r a.mem, a.name]
  kind := by rw [e.type r a.mem, a.kind]

namespace Bucket

structure Sound (kind : KeyKind) (name : String) (b : Bucket) (h : Heap) : Prop where
  ofType : b.type.name = name
  newCoherent : b.new.Coherent
  pendingCoherent : b.pending.Coherent
  new : ∀ r ∈ b.new.toList, h.Belongs kind name r
  pending : ∀ r ∈ b.pending.toList, h.Belongs kind name r
  newByKey : ∀ r ∈ b.newByKey.values,
    h.Belongs kind name r ∧ (h.get r).type.generatedCount = 0
  live : ∀ r ∈ b.live.values, h.Belongs kind name r ∧ (h.get r).isNew = false
  deleted : ∀ r ∈ b.deleted.values, h.Belongs kind name r ∧ (h.get r).isNew = false

variable {kind : KeyKind} {name : String} {b : Bucket} {h h' : Heap} {r : RecordId}

private theorem isNew_evolves (e : h.Evolves h') (hr : r ∈ h.ids) (hn : (h.get r).isNew = false) :
    (h'.get r).isNew = false := by
  by_contra hc
  rw [Bool.not_eq_false] at hc
  rw [e.isNew r hr hc] at hn
  exact Bool.noConfusion hn

theorem Sound.evolves (hb : b.Sound kind name h) (e : h.Evolves h') : b.Sound kind name h' where
  ofType := hb.ofType
  newCoherent := hb.newCoherent
  pendingCoherent := hb.pendingCoherent
  new r hr := (hb.new r hr).evolves e
  pending r hr := (hb.pending r hr).evolves e
  newByKey r hr := by
    obtain ⟨hm, hg⟩ := hb.newByKey r hr
    exact ⟨hm.evolves e, by rw [e.type r hm.mem, hg]⟩
  live r hr := by
    obtain ⟨hm, hn⟩ := hb.live r hr
    exact ⟨hm.evolves e, isNew_evolves e hm.mem hn⟩
  deleted r hr := by
    obtain ⟨hm, hn⟩ := hb.deleted r hr
    exact ⟨hm.evolves e, isNew_evolves e hm.mem hn⟩

theorem sound_empty (t : RecordType) : ({ type := t } : Bucket).Sound kind t.name h where
  ofType := rfl
  newCoherent := IdentitySet.coherent_empty
  pendingCoherent := IdentitySet.coherent_empty
  new r hr := by simp at hr
  pending r hr := by simp at hr
  newByKey r hr := by simp at hr
  live r hr := by simp at hr
  deleted r hr := by simp at hr

private theorem Sound.insertNew (hb : b.Sound kind name h) (hr : h.Belongs kind name r) :
    ({ b with new := b.new.insert r } : Bucket).Sound kind name h :=
  { hb with
    newCoherent := hb.newCoherent.insert r
    new := fun q hq => by
      rcases hb.newCoherent.mem_insert.mp hq with rfl | hq
      · exact hr
      · exact hb.new q hq }

private theorem Sound.eraseNew (hb : b.Sound kind name h) (r : RecordId) :
    ({ b with new := b.new.erase r } : Bucket).Sound kind name h :=
  { hb with
    newCoherent := hb.newCoherent.erase r
    new := fun q hq => hb.new q (hb.newCoherent.mem_erase.mp hq).2 }

private theorem Sound.insertPending (hb : b.Sound kind name h) (hr : h.Belongs kind name r) :
    ({ b with pending := b.pending.insert r } : Bucket).Sound kind name h :=
  { hb with
    pendingCoherent := hb.pendingCoherent.insert r
    pending := fun q hq => by
      rcases hb.pendingCoherent.mem_insert.mp hq with rfl | hq
      · exact hr
      · exact hb.pending q hq }

private theorem Sound.erasePending (hb : b.Sound kind name h) (r : RecordId) :
    ({ b with pending := b.pending.erase r } : Bucket).Sound kind name h :=
  { hb with
    pendingCoherent := hb.pendingCoherent.erase r
    pending := fun q hq => hb.pending q (hb.pendingCoherent.mem_erase.mp hq).2 }

private theorem Sound.insertLive (hb : b.Sound kind name h) (key : RowKey)
    (hr : h.Belongs kind name r) (hn : (h.get r).isNew = false) :
    ({ b with live := b.live.insert key r } : Bucket).Sound kind name h :=
  { hb with
    live := fun q hq => by
      rcases FinMap.mem_values_insert hq with rfl | hq
      · exact ⟨hr, hn⟩
      · exact hb.live q hq }

private theorem Sound.eraseLive (hb : b.Sound kind name h) (key : RowKey) :
    ({ b with live := b.live.erase key } : Bucket).Sound kind name h :=
  { hb with live := fun q hq => hb.live q (FinMap.mem_values_erase hq) }

private theorem Sound.insertDeleted (hb : b.Sound kind name h) (key : RowKey)
    (hr : h.Belongs kind name r) (hn : (h.get r).isNew = false) :
    ({ b with deleted := b.deleted.insert key r } : Bucket).Sound kind name h :=
  { hb with
    deleted := fun q hq => by
      rcases FinMap.mem_values_insert hq with rfl | hq
      · exact ⟨hr, hn⟩
      · exact hb.deleted q hq }

private theorem Sound.eraseDeleted (hb : b.Sound kind name h) (key : RowKey) :
    ({ b with deleted := b.deleted.erase key } : Bucket).Sound kind name h :=
  { hb with deleted := fun q hq => hb.deleted q (FinMap.mem_values_erase hq) }

/-- The state of a bucket and the records after an operation that began with the records `h`. -/
def SoundAfter (kind : KeyKind) (name : String) (h : Heap) (s : Bucket × Heap) : Prop :=
  s.1.Sound kind name s.2 ∧ h.Folds s.2

private theorem Sound.after (hb : b.Sound kind name h) :
    SoundAfter kind name h (b, h) := ⟨hb, .refl h⟩

private theorem Sound.takes (hb : b.Sound kind name h) {k other : RecordId} {f : Record → Record}
    (hk : h.Belongs kind name k) (ho : h.Belongs kind name other)
    (hf : (h.get k).Takes (h.get other) (f (h.get k))) :
    SoundAfter kind name h (b, h.modify k f) := by
  have hfolds : h.Folds (h.modify k f) := .modify hk.mem (by rw [ho.name, hk.name]) hf
  exact ⟨hb.evolves hfolds.evolves, hfolds⟩

private theorem mem_of_filter {α : Type} {o : Option α} {p : α → Bool} {a : α}
    (ho : o.filter p = some a) : o = some a ∧ p a := by
  simpa [Option.filter_eq_some_iff] using ho

theorem rival?_mem {key : RowKey} {q : RecordId} (hq : b.rival? key r = some q) :
    q ∈ b.newByKey.values ∨ q ∈ b.live.values := by
  rw [rival?] at hq
  cases hk : (b.newByKey.get? key).filter fun x => decide (x ≠ r) with
  | some x =>
    rw [hk] at hq
    obtain rfl : x = q := Option.some.inj hq
    exact .inl (FinMap.mem_values_of_get? (mem_of_filter hk).1)
  | none =>
    rw [hk] at hq
    exact .inr (FinMap.mem_values_of_get? (mem_of_filter hq).1)

private theorem placeNew_sound {key : RowKey} (hb : b.Sound kind name h)
    (hr : h.Belongs kind name r) (hg : (h.get r).type.generatedCount = 0) :
    SoundAfter kind name h (endState (placeNew r key (b, h))) := by
  rw [placeNew]
  split
  · next q hq =>
    have hm : h.Belongs kind name q ∧ ((h.get q).isNew → (h.get q).type.generatedCount = 0) := by
      rcases rival?_mem hq with hq | hq
      · exact ⟨(hb.newByKey q hq).1, fun _ => (hb.newByKey q hq).2⟩
      · exact ⟨(hb.live q hq).1, fun hn => by simp [(hb.live q hq).2] at hn⟩
    exact (hb.eraseNew r).takes hm.1 hr (Record.takes_absorb _ _ hm.2)
  · split
    · next q hq =>
      obtain ⟨hm, hn⟩ := hb.deleted q (FinMap.mem_values_of_get? hq)
      have hs := ((hb.eraseNew r).eraseDeleted key).insertLive key hm hn
      have ha := Record.takes_absorb (h.get q) (h.get r) (fun hc => by simp [hn] at hc)
      exact hs.takes (f := fun k => k.undelete.absorb (h.get r)) hm hr (ha.withDeleted false)
    · refine ⟨{ hb with newByKey := fun q hq => ?_ }, .refl h⟩
      rcases FinMap.mem_values_insert hq with rfl | hq
      · exact ⟨hr, hg⟩
      · exact hb.newByKey q hq

private theorem trackNew_sound (hb : b.Sound kind name h) (hr : h.Belongs kind name r) :
    SoundAfter kind name h (endState (trackNew kind r (b, h))) := by
  rw [trackNew]
  split
  · have hn := (hb.erasePending r).insertNew hr
    dsimp only
    split
    · exact hn.after
    · next hg =>
      split
      · exact hn.after
      · exact hn.after
      · exact placeNew_sound hn hr (by omega)
  · exact (hb.insertPending hr).after

private theorem trackFetched_sound {key : RowKey} (hb : b.Sound kind name h)
    (hr : h.Belongs kind name r) (hn : (h.get r).isNew = false) :
    SoundAfter kind name h (endState (trackFetched r key (b, h))) := by
  rw [trackFetched]
  split
  · next q hq =>
    obtain ⟨hm, hqn⟩ := hb.live q (FinMap.mem_values_of_get? hq)
    split
    · exact hb.after
    · apply hb.takes hm hr
      have ht := Record.takes_merge (h.get q) (h.get r) hqn
      dsimp only
      split
      · exact ht.withDeleted true
      · exact ht
  · split
    · next q hq =>
      obtain ⟨hm, hqn⟩ := hb.deleted q (FinMap.mem_values_of_get? hq)
      apply hb.takes (f := fun k => (if q = r then k else k.merge (h.get r)).markDeleted) hm hr
      split
      · exact (Record.takes_refl _ _).withDeleted true
      · exact (Record.takes_merge _ _ hqn).withDeleted true
    · exact (hb.insertLive key hr hn).after

private theorem trackImported_sound {key : RowKey} (hb : b.Sound kind name h)
    (hr : h.Belongs kind name r) (hn : (h.get r).isNew = false) :
    SoundAfter kind name h (endState (trackImported r key (b, h))) := by
  rw [trackImported]
  split
  · split
    · exact (hb.insertDeleted key hr hn).after
    · exact ((hb.eraseDeleted key).insertLive key hr hn).after
  · exact (hb.insertLive key hr hn).after

theorem track_sound {importing : Bool} (hb : b.Sound kind name h) (hr : h.Belongs kind name r) :
    SoundAfter kind name h (endState (track kind r importing (b, h))) := by
  rw [track]
  split
  · exact trackNew_sound hb hr
  · next hn =>
    rw [Bool.not_eq_true] at hn
    split
    · exact hb.after
    · split
      · exact trackImported_sound hb hr hn
      · exact trackFetched_sound hb hr hn

theorem remove_sound (hb : b.Sound kind name h) (hr : h.Belongs kind name r) :
    SoundAfter kind name h (endState (remove kind r (b, h))) := by
  rw [remove]
  split
  · have hs := (hb.eraseNew r).erasePending r
    dsimp only
    split
    · exact hs.after
    · exact hs.after
    · split
      · exact Sound.after
          { hs with newByKey := fun q hq => hs.newByKey q (FinMap.mem_values_erase hq) }
      · exact hs.after
  · next hn =>
    rw [Bool.not_eq_true] at hn
    split
    · exact hb.after
    · next key _ => exact ((hb.eraseLive key).insertDeleted key hr hn).after

end Bucket

end UnitOfWork
