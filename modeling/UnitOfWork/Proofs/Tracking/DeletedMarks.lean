import UnitOfWork.Proofs.Commit.PartialSettling
import UnitOfWork.Proofs.Tracking.FailedDeletes

/-!
# Marks of deletion

A record carries the mark of its deletion, and its bucket knows whether its row is to be deleted.
The two agree as long as no marked record is handed over whose row is not to be deleted already, and
none is deleted that is filed in a wrong place: what is new, pending or live is not marked, and what
waits for its row to be deleted is, under one key only.
-/

namespace UnitOfWork

namespace Heap

variable {h : Heap} {q : RecordId}

theorem isDeleted_modify {f : Record → Record}
    (hf : (f (h.get q)).isDeleted = (h.get q).isDeleted) (p : RecordId) :
    ((h.modify q f).get p).isDeleted = (h.get p).isDeleted := by
  by_cases hp : p = q
  · rw [hp, get_modify_self, hf]
  · rw [get_modify_of_ne f hp]

private theorem isDeleted_modifyAll {f : Record → Record} (hf : ∀ x, (f x).isDeleted = x.isDeleted)
    (rs : List RecordId) (p : RecordId) :
    ((h.modifyAll rs f).get p).isDeleted = (h.get p).isDeleted := by
  induction rs generalizing h with
  | nil => rfl
  | cons r rs ih => exact ih.trans (isDeleted_modify (hf _) p)

end Heap

namespace Bucket

variable {kind : KeyKind} {name : String} {b b' : Bucket} {h h' : Heap} {r p : RecordId}
  {importing : Bool} {answer : Option RecordId} {key : RowKey}

/-- The record is tracked, and its row is not to be deleted. -/
def Active (b : Bucket) (r : RecordId) : Prop :=
  r ∈ b.new.toList ∨ r ∈ b.pending.toList ∨ r ∈ b.newByKey.values ∨ r ∈ b.live.values

/-- The marks of the records and their places in the bucket agree. -/
structure MarksAgree (b : Bucket) (h : Heap) : Prop where
  active : ∀ p, b.Active p → (h.get p).isDeleted = false
  deleted : ∀ key p, b.deleted.get? key = some p → (h.get p).isDeleted
  once : ∀ key key' p, b.deleted.get? key = some p → b.deleted.get? key' = some p → key = key'

/-- If the record is marked, then it has a row that is to be deleted already. It is not tracked as
live, and an imported one does not wait for its deletion under another key. -/
def Admits (kind : KeyKind) (b : Bucket) (h : Heap) (r : RecordId) (importing : Bool) : Prop :=
  (h.get r).isDeleted → ∃ key, Stored h kind r key ∧ b.deleted.contains key ∧
    (importing = false → b.live.get? key = none) ∧
      (importing → ∀ key', b.deleted.get? key' = some r → key' = key)

/-- The record is tracked as a new one only if it is new, and filed only under the key that it
has. -/
structure InPlace (kind : KeyKind) (b : Bucket) (h : Heap) (r : RecordId) : Prop where
  listed : r ∈ b.new.toList ∨ r ∈ b.pending.toList ∨ r ∈ b.newByKey.values → (h.get r).isNew
  filed : ∀ key, b.newByKey.get? key = some r ∨ b.live.get? key = some r →
    h.fileKey? kind r = .ok (some key)

theorem inPlace_of_entries
    (hlisted : r ∈ b.new.toList ∨ r ∈ b.pending.toList ∨ r ∈ b.newByKey.values → (h.get r).isNew)
    (hfiled : ∀ e ∈ b.newByKey.entries ++ b.live.entries, e.2 = r →
      h.primaryKey? r = some e.1 ∧ e.1.isFiledUnder kind) : b.InPlace kind h r where
  listed := hlisted
  filed key hkey := by
    obtain ⟨hknown, hfiled⟩ := hfiled (key, r)
      (List.mem_append.mpr (hkey.imp FinMap.mem_of_lookup FinMap.mem_of_lookup)) rfl
    exact Heap.fileKey?_of_primaryKey? hknown hfiled

private theorem marksAgree_empty (t : RecordType) (h : Heap) :
    ({ type := t } : Bucket).MarksAgree h where
  active p hp := by rcases hp with hp | hp | hp | hp <;> simp at hp
  deleted _ _ hp := by cases hp
  once _ _ _ hp := by cases hp

private theorem Sound.belongs (hs : b.Sound kind name h) (hr : b.Active r ∨ r ∈ b.deleted.values) :
    h.Belongs kind name r := by
  rcases hr with (hr | hr | hr | hr) | hr
  · exact hs.new r hr
  · exact hs.pending r hr
  · exact (hs.newByKey r hr).1
  · exact (hs.live r hr).1
  · exact (hs.deleted r hr).1

private theorem Sound.active_listing (hs : b.Sound kind name h) (hp : (b.listing r).Active p) :
    b.Active p ∨ p = r := by
  rcases hp with hp | hp | hp
  · rcases hs.newCoherent.mem_insert.mp hp with hp | hp
    · exact .inr hp
    · exact .inl (.inl hp)
  · exact .inl (.inr (.inl (hs.pendingCoherent.mem_erase.mp hp).2))
  · exact .inl (.inr (.inr hp))

private theorem Sound.active_folding (hs : b.Sound kind name h) (hp : (b.folding r).Active p) :
    b.Active p ∨ p = r := by
  rcases hp with hp | hp
  · exact hs.active_listing (.inl ((hs.newCoherent.insert r).mem_erase.mp hp).2)
  · exact hs.active_listing (.inr hp)

private theorem active_insertLive {deleted : KeyIndex}
    (hp : Active { b with live := b.live.insert key r, deleted } p) : b.Active p ∨ p = r := by
  rcases hp with hp | hp | hp | hp
  · exact .inl (.inl hp)
  · exact .inl (.inr (.inl hp))
  · exact .inl (.inr (.inr (.inl hp)))
  · rcases FinMap.mem_values_insert hp with hp | hp
    · exact .inr hp
    · exact .inl (.inr (.inr (.inr hp)))

namespace MarksAgree

theorem congr (hb : b.MarksAgree h)
    (hsame : ∀ p, b.Active p ∨ p ∈ b.deleted.values → (h'.get p).isDeleted = (h.get p).isDeleted) :
    b.MarksAgree h' where
  active p hp := (hsame p (.inl hp)).trans (hb.active p hp)
  deleted key p hp :=
    (hsame p (.inr (FinMap.mem_values_of_get? hp))).trans (hb.deleted key p hp)
  once := hb.once

private theorem subset (hb : b.MarksAgree h)
    (hactive : ∀ p, b'.Active p → b.Active p ∨ (h.get p).isDeleted = false)
    (hdeleted : ∀ key p, b'.deleted.get? key = some p → b.deleted.get? key = some p) :
    b'.MarksAgree h where
  active p hp := (hactive p hp).elim (hb.active p) id
  deleted key p hp := hb.deleted key p (hdeleted key p hp)
  once key key' p hp hp' := hb.once key key' p (hdeleted key p hp) (hdeleted key' p hp')

private theorem insertDeleted (hb : b.MarksAgree h) (hr : (h.get r).isDeleted)
    (honly : ∀ key', b.deleted.get? key' = some r → key' = key) :
    MarksAgree { b with deleted := b.deleted.insert key r } h where
  active := hb.active
  deleted key' p hp := by
    rcases FinMap.of_get?_insert hp with ⟨-, rfl⟩ | hp
    · exact hr
    · exact hb.deleted key' p hp
  once key₁ key₂ p h₁ h₂ := by
    rcases FinMap.of_get?_insert h₁ with ⟨rfl, rfl⟩ | h₁'
    · rcases FinMap.of_get?_insert h₂ with ⟨rfl, -⟩ | h₂
      · rfl
      · exact (honly key₂ h₂).symm
    · rcases FinMap.of_get?_insert h₂ with ⟨rfl, rfl⟩ | h₂
      · exact honly key₁ h₁'
      · exact hb.once key₁ key₂ p h₁' h₂

private theorem mark (hb : b.MarksAgree h) (hr : ¬ b.Active r) :
    b.MarksAgree (h.modify r .markDeleted) where
  active p hp := by
    have hne : p ≠ r := fun he => hr (he ▸ hp)
    rw [Heap.get_modify_of_ne _ hne]
    exact hb.active p hp
  deleted key p hp := by
    rw [Heap.get_modify]
    split
    · rfl
    · exact hb.deleted key p hp
  once := hb.once

theorem notMem_deleted (hb : b.MarksAgree h) (hr : (h.get r).isDeleted = false) :
    r ∉ b.deleted.values := by
  intro hin
  obtain ⟨key, hkey⟩ := FinMap.exists_get?_of_mem_values hin
  exact Bool.noConfusion (hr.symm.trans (hb.deleted key r hkey))

end MarksAgree

private theorem Admits.unmarked_of_isNew (ha : Admits kind b h r importing) (hn : (h.get r).isNew) :
    (h.get r).isDeleted = false := by
  refine Bool.eq_false_iff.mpr fun hm => ?_
  obtain ⟨key, hst, -⟩ := ha hm
  exact Bool.noConfusion (hst.notNew.symm.trans hn)

private theorem Stored.key_eq {key' : RowKey} (hst : Stored h kind r key)
    (hst' : Stored h kind r key') :
    key = key' :=
  Except.ok.inj (hst.fileKey.symm.trans hst'.fileKey)

private theorem Admits.unmarked_of_unfiled (ha : Admits kind b h r importing)
    (hst : Stored h kind r key)
    (hkey : b.deleted.get? key = none) : (h.get r).isDeleted = false := by
  refine Bool.eq_false_iff.mpr fun hm => ?_
  obtain ⟨key', hst', hcontains, -⟩ := ha hm
  obtain rfl := hst.key_eq hst'
  rw [FinMap.contains, hkey] at hcontains
  cases hcontains

/-- A record that is read again does not come to be marked by a live one, nor the live one by it. -/
theorem Admits.isDeleted_merge {q : RecordId} (ha : Admits kind b h r false)
    (hb : b.MarksAgree h) (hst : Stored h kind r key) (hq : b.live.get? key = some q)
    (p : RecordId) :
    ((h.modify q fun k =>
      if (h.get q).isDeleted || (h.get r).isDeleted then (k.merge (h.get r)).markDeleted
      else k.merge (h.get r)).get p).isDeleted = (h.get p).isDeleted := by
  have hlive := hb.active q (.inr (.inr (.inr (FinMap.mem_values_of_get? hq))))
  have hr : (h.get r).isDeleted = false := by
    refine Bool.eq_false_iff.mpr fun hm => ?_
    obtain ⟨key', hst', -, hnone, -⟩ := ha hm
    obtain rfl := hst.key_eq hst'
    cases hq.symm.trans (hnone rfl)
  have hgone : ((h.get q).isDeleted || (h.get r).isDeleted) = false := by rw [hlive, hr]; rfl
  refine Heap.isDeleted_modify ?_ p
  rw [hgone]
  rfl

/-- Only a record whose row was to be deleted has its mark changed: the mark is taken off when the
record is revived. -/
theorem Tracks.isDeleted_eq (a : Tracks kind b h r importing answer b' h') (hb : b.MarksAgree h)
    (ha : Admits kind b h r importing) (hp : p ∉ b.deleted.values) :
    (h'.get p).isDeleted = (h.get p).isDeleted := by
  have hne : ∀ {key q}, b.deleted.get? key = some q → p ≠ q :=
    fun hq he => hp (he ▸ FinMap.mem_values_of_get? hq)
  cases a with
  | waits | lists | misfiles | files | fails | finds | enters | replacesDeleted | restores => rfl
  | joins => exact Heap.isDeleted_modify rfl p
  | revives _ _ hq => rw [Heap.get_modify_of_ne _ (hne hq)]
  | merges hst himporting hq _ =>
    subst himporting
    exact ha.isDeleted_merge hb hst hq p
  | mergesDeleted _ _ _ hq => rw [Heap.get_modify_of_ne _ (hne hq)]

theorem Tracks.isDeleted_of (a : Tracks kind b h r importing answer b' h') (hb : b.MarksAgree h)
    (ha : Admits kind b h r importing) (hp : (h'.get p).isDeleted) : (h.get p).isDeleted := by
  by_cases hin : p ∈ b.deleted.values
  · obtain ⟨key, hkey⟩ := FinMap.exists_get?_of_mem_values hin
    exact hb.deleted key p hkey
  · rwa [← a.isDeleted_eq hb ha hin]

private theorem Tracks.marksAgree (a : Tracks kind b h r importing answer b' h')
    (hs : b.Sound kind name h) (hb : b.MarksAgree h) (ha : Admits kind b h r importing) :
    b'.MarksAgree h' := by
  have hor : ∀ {b' : Bucket}, (h.get r).isDeleted = false →
      (∀ p, b'.Active p → b.Active p ∨ p = r) →
        ∀ p, b'.Active p → b.Active p ∨ (h.get p).isDeleted = false :=
    fun hr hall p hp => (hall p hp).imp_right fun he => by rw [he, hr]
  cases a with
  | waits hn _ =>
    refine hb.subset (hor (ha.unmarked_of_isNew hn) fun p hp => ?_) fun _ _ hp => hp
    rcases hp with hp | hp | hp
    · exact .inl (.inl hp)
    · rcases hs.pendingCoherent.mem_insert.mp hp with hp | hp
      · exact .inr hp
      · exact .inl (.inr (.inl hp))
    · exact .inl (.inr (.inr hp))
  | lists hn _ _ | misfiles hn _ _ =>
    exact hb.subset (hor (ha.unmarked_of_isNew hn) fun _ hp => hs.active_listing hp)
      fun _ _ hp => hp
  | joins hk _ =>
    have hfolded : (b.folding r).MarksAgree h :=
      hb.subset (hor (ha.unmarked_of_isNew hk.isNew) fun _ hp => hs.active_folding hp)
        fun _ _ hp => hp
    exact hfolded.congr fun p _ => Heap.isDeleted_modify rfl p
  | @revives key q hk _ hq =>
    have hr := ha.unmarked_of_isNew hk.isNew
    have hself : ((h.modify q (·.undelete.absorb (h.get r))).get q).isDeleted = false := by
      rw [Heap.get_modify_self]
      rfl
    -- The record that is revived waits under no other key.
    have hne : ∀ key' p, (b.deleted.erase key).get? key' = some p →
        p ≠ q ∧ b.deleted.get? key' = some p := by
      intro key' p hp
      rw [FinMap.get?_erase] at hp
      split at hp
      · cases hp
      · next hkey =>
        refine ⟨?_, hp⟩
        rintro rfl
        exact hkey (hb.once _ _ _ hq hp)
    refine ⟨fun p hp => ?_, fun key' p hp => ?_, fun key₁ key₂ p h₁ h₂ =>
      hb.once key₁ key₂ p (hne key₁ p h₁).2 (hne key₂ p h₂).2⟩
    · by_cases hpq : p = q
      · rw [hpq, hself]
      · rw [Heap.get_modify_of_ne _ hpq]
        rcases active_insertLive (b := b.folding r) hp with hp | hp
        · rcases hs.active_folding hp with hp | rfl
          · exact hb.active p hp
          · exact hr
        · exact absurd hp hpq
    · obtain ⟨hpq, hp⟩ := hne key' p hp
      rw [Heap.get_modify_of_ne _ hpq]
      exact hb.deleted key' p hp
  | files hk _ _ =>
    refine hb.subset (hor (ha.unmarked_of_isNew hk.isNew) fun p hp => ?_) fun _ _ hp => hp
    rcases hp with hp | hp | hp | hp
    · exact hs.active_listing (.inl hp)
    · exact hs.active_listing (.inr (.inl hp))
    · rcases FinMap.mem_values_insert hp with hp | hp
      · exact .inr hp
      · exact .inl (.inr (.inr (.inl hp)))
    · exact .inl (.inr (.inr (.inr hp)))
  | fails | finds => exact hb
  | merges hst himporting hq _ =>
    subst himporting
    exact hb.congr fun p _ => ha.isDeleted_merge hb hst hq p
  | @mergesDeleted key q hst _ _ hq =>
    refine hb.congr fun p _ => Heap.isDeleted_modify ?_ p
    exact (hb.deleted key q hq).symm
  | enters hst _ hkey =>
    exact hb.subset (hor (ha.unmarked_of_unfiled hst hkey) fun _ hp =>
      active_insertLive hp) fun _ _ hp => hp
  | replacesDeleted hst himporting hm _ =>
    obtain ⟨key', hst', -, -, honly⟩ := ha hm
    obtain rfl := hst.key_eq hst'
    exact hb.insertDeleted hm (honly himporting)
  | restores _ _ hm _ =>
    exact hb.subset (hor hm fun _ hp => active_insertLive hp)
      fun _ _ hp => FinMap.of_get?_erase hp

private theorem InPlace.unlisted (hr : b.InPlace kind h r) (hn : (h.get r).isNew = false) :
    ¬ (r ∈ b.new.toList ∨ r ∈ b.pending.toList ∨ r ∈ b.newByKey.values) :=
  fun hl => Bool.noConfusion (hn.symm.trans (hr.listed hl))

private theorem not_mem_erase_values {m : KeyIndex}
    (honly : ∀ key', m.get? key' = some r → key' = key) :
    r ∉ (m.erase key).values := by
  intro hin
  obtain ⟨key', hkey'⟩ := FinMap.exists_get?_of_mem_values hin
  rw [honly key' (FinMap.of_get?_erase hkey'), FinMap.get?_erase, if_pos rfl] at hkey'
  cases hkey'

private theorem Removes.active (a : Removes kind b h r b') (hs : b.Sound kind name h)
    (hp : b'.Active p) : b.Active p := by
  cases a with
  | forgets =>
    exact hp.imp (fun hp => (hs.newCoherent.mem_erase.mp hp).2)
      (.imp_left fun hp => (hs.pendingCoherent.mem_erase.mp hp).2)
  | unfiles =>
    exact hp.imp (fun hp => (hs.newCoherent.mem_erase.mp hp).2)
      (.imp (fun hp => (hs.pendingCoherent.mem_erase.mp hp).2) (.imp_left FinMap.mem_values_erase))
  | fails => exact hp
  | deletes => exact hp.imp_right (.imp_right (.imp_right FinMap.mem_values_erase))

private theorem Removes.not_active (a : Removes kind b h r b') (hs : b.Sound kind name h)
    (hr : b.InPlace kind h r) : ¬ b'.Active r := by
  have hnotLive : (h.get r).isNew → r ∉ b.live.values := fun hn hl =>
    Bool.noConfusion ((hs.live r hl).2.symm.trans hn)
  have hnotNew : r ∉ (b.new.erase r).toList := fun hp => (hs.newCoherent.mem_erase.mp hp).1 rfl
  have hnotPending : r ∉ (b.pending.erase r).toList :=
    fun hp => (hs.pendingCoherent.mem_erase.mp hp).1 rfl
  cases a with
  | forgets hn hnot =>
    rintro (hp | hp | hp | hp)
    · exact hnotNew hp
    · exact hnotPending hp
    · obtain ⟨key, hkey⟩ := FinMap.exists_get?_of_mem_values hp
      exact hnot key (hr.filed key (.inl hkey)) hkey
    · exact hnotLive hn hp
  | unfiles hn hk _ =>
    rintro (hp | hp | hp | hp)
    · exact hnotNew hp
    · exact hnotPending hp
    · refine not_mem_erase_values (fun key' hkey' => ?_) hp
      exact Option.some.inj (Except.ok.inj ((hr.filed key' (.inl hkey')).symm.trans hk))
    · exact hnotLive hn hp
  | fails hn hnot =>
    rintro (hp | hp | hp | hp)
    · exact hr.unlisted hn (.inl hp)
    · exact hr.unlisted hn (.inr (.inl hp))
    · exact hr.unlisted hn (.inr (.inr hp))
    · obtain ⟨key, hkey⟩ := FinMap.exists_get?_of_mem_values hp
      exact hnot key (Heap.fileKey_of_fileKey? (hr.filed key (.inr hkey)))
  | deletes hst =>
    rintro (hp | hp | hp | hp)
    · exact hr.unlisted hst.notNew (.inl hp)
    · exact hr.unlisted hst.notNew (.inr (.inl hp))
    · exact hr.unlisted hst.notNew (.inr (.inr hp))
    · refine not_mem_erase_values (fun key' hkey' => ?_) hp
      exact Stored.key_eq ⟨hst.notNew, Heap.fileKey_of_fileKey? (hr.filed key' (.inr hkey'))⟩ hst

private theorem InPlace.markDeleted (hr : b.InPlace kind h r) :
    b.InPlace kind (h.modify r .markDeleted) r where
  listed hl := by
    rw [Heap.get_modify_self]
    exact hr.listed hl
  filed key hkey :=
    (Heap.fileKey?_congr (Heap.primaryKey?_markDeleted h r r)).trans (hr.filed key hkey)

private theorem Removes.marksAgree (a : Removes kind b (h.modify r .markDeleted) r b')
    (hs : b.Sound kind name (h.modify r .markDeleted)) (hb : b.MarksAgree h)
    (hr : b.InPlace kind h r) (hm : (h.get r).isDeleted = false) :
    b'.MarksAgree (h.modify r .markDeleted) := by
  have hactive := fun p => a.active (p := p) hs
  have hnot := a.not_active hs hr.markDeleted
  cases a with
  | forgets | unfiles | fails =>
    exact (hb.subset (fun p hp => .inl (hactive p hp)) fun _ _ hp => hp).mark hnot
  | @deletes key hst =>
    have hrest : MarksAgree { b with live := b.live.erase key } h :=
      hb.subset (fun p hp => .inl (hactive p hp)) fun _ _ hp => hp
    replace hrest := hrest.mark (r := r) hnot
    refine hrest.insertDeleted (by rw [Heap.get_modify_self]; rfl) fun key' hkey' => ?_
    exact absurd (FinMap.mem_values_of_get? hkey') (hb.notMem_deleted hm)

private theorem settle_marksAgree {written : List (RowKey × RecordId)} (hb : b.MarksAgree h)
    (hw : ∀ e ∈ written, e.2 ∈ b.new.toList) (h' : Heap) (purge : Bool) :
    (b.settle h' purge written).1.MarksAgree h := by
  refine hb.subset (fun p hp => ?_) fun key p hp => ?_
  · rcases hp with hp | hp | hp | hp
    · simp [settle] at hp
    · exact .inl (.inr (.inl hp))
    · simp [settle] at hp
    · rcases mem_values_fileAll hp with hp | hp
      · obtain ⟨e, he, rfl⟩ := List.mem_map.mp hp
        exact .inl (.inl (hw e he))
      · exact .inl (.inr (.inr (.inr hp)))
  · cases purge with
    | true => cases hp
    | false => exact hp

private theorem settle_isDeleted (b : Bucket) (h : Heap) (purge : Bool)
    (written : List (RowKey × RecordId)) (p : RecordId) :
    ((b.settle h purge written).2.get p).isDeleted = (h.get p).isDeleted :=
  (Heap.isDeleted_modifyAll (f := .resetChanges) (fun _ => rfl) _ p).trans
    (Heap.isDeleted_modifyAll (f := .markCommitted) (fun _ => rfl) _ p)

end Bucket

namespace Workspace

variable {s : Workspace × Heap} {kind : KeyKind} {r : RecordId} {importing : Bool}

/-- The marks of the records and their places agree in every bucket. -/
def MarksAgree (s : Workspace × Heap) : Prop := s.1.AllBuckets fun _ b => b.MarksAgree s.2

/-- The record is in a bucket. -/
def Holds (w : Workspace) (r : RecordId) : Prop :=
  ∃ kind name b, (w.registry kind).buckets.get? name = some b ∧
    (b.Active r ∨ r ∈ b.deleted.values)

theorem not_holds_empty (config : Config) (r : RecordId) : ¬ Holds { config } r := by
  rintro ⟨kind, name, b, hb, -⟩
  rw [registry_empty] at hb
  cases hb

theorem MarksAgree.bucket (hs : MarksAgree s) (kind : KeyKind) (t : RecordType) :
    ((s.1.registry kind).bucket t).MarksAgree s.2 := by
  rcases (s.1.registry kind).bucket_cases t with hb | hb
  · exact hs kind t.name _ hb
  · rw [hb]
    exact Bucket.marksAgree_empty t s.2

theorem MarksAgree.find? {name : String} {key : RowKey} (hs : MarksAgree s)
    (hr : s.1.find? name key = some r) : (s.2.get r).isDeleted = false := by
  rw [find?_eq] at hr
  split at hr
  · cases hr
  · obtain ⟨b, hb, hfound⟩ := Option.bind_eq_some_iff.mp hr
    obtain ⟨kind, -, hget⟩ := Option.bind_eq_some_iff.mp hb
    refine (hs kind name b hget).active r ?_
    rcases Bucket.find?_eq_some.mp hfound with hl | ⟨-, hn⟩
    · exact .inr (.inr (.inr (FinMap.mem_values_of_get? hl)))
    · exact .inr (.inr (.inl (FinMap.mem_values_of_get? hn)))

theorem MarksAgree.edit {h : Heap} (hs : MarksAgree s)
    (hsame : ∀ p, s.1.Holds p → (h.get p).isDeleted = (s.2.get p).isDeleted) :
    MarksAgree (s.1, h) :=
  fun kind name b hb => (hs kind name b hb).congr fun p hp => hsame p ⟨kind, name, b, hb, hp⟩

private theorem marksAgree_onBucket {α : Type} {x : Tracking Bucket α}
    (hx : (endState (x ((s.1.registry kind).bucket (s.2.get r).type, s.2))).1.MarksAgree
      (endState (x ((s.1.registry kind).bucket (s.2.get r).type, s.2))).2)
    (hothers : ∀ kind' name b, (s.1.registry kind').buckets.get? name = some b →
      ¬ (kind' = kind ∧ (s.2.get r).type.name = name) →
        b.MarksAgree (endState (x ((s.1.registry kind).bucket (s.2.get r).type, s.2))).2) :
    MarksAgree (endState (onRegistry kind (Registry.onBucket r x) s)) := by
  intro kind' name b hb
  rw [get?_onBucket] at hb
  rw [heap_onBucket]
  split at hb
  · obtain rfl := Option.some.inj hb
    exact hx
  · next hne => exact hothers kind' name b hb hne

theorem MarksAgree.track (hs : MarksAgree s) (hsound : s.1.Sound s.2)
    (ha : ((s.1.registry kind).bucket (s.2.get r).type).Admits kind s.2 r importing) :
    MarksAgree (endState (onRegistry kind (Registry.track r importing) s)) := by
  have hbucket := hs.bucket kind (s.2.get r).type
  have hbs := (hsound kind).bucket (s.2.get r).type
  have htracks := Bucket.track_tracks kind ((s.1.registry kind).bucket (s.2.get r).type) s.2 r
    importing
  refine marksAgree_onBucket (htracks.marksAgree hbs hbucket ha) fun kind' name b hb hne => ?_
  refine (hs kind' name b hb).congr fun p hp => htracks.isDeleted_eq hbucket ha fun hin => ?_
  -- A record is in the bucket of its own type only.
  have hp := (hsound kind' name b hb).belongs hp
  have hin := hbs.belongs (.inr hin)
  exact hne ⟨hp.kind.symm.trans hin.kind, hin.name.symm.trans hp.name⟩

theorem isDeleted_settle (s : Workspace × Heap) (kind : KeyKind) (purge : Bool) :
    ∀ p, ((endState (onRegistry kind (Registry.settle purge) s)).2.get p).isDeleted =
      (s.2.get p).isDeleted := by
  rw [endState_onRegistry]
  exact Registry.settle_heap (s := (s.1.registry kind, s.2))
    (R := fun h h' => ∀ p, (h'.get p).isDeleted = (h.get p).isDeleted) (fun _ _ => rfl)
    (fun _ _ _ a b p => (b p).trans (a p)) fun b h written => b.settle_isDeleted h purge written

theorem MarksAgree.settle (hs : MarksAgree s) (kind : KeyKind) (purge : Bool) :
    MarksAgree (endState (onRegistry kind (Registry.settle purge) s)) := by
  have hmarks := isDeleted_settle s kind purge
  rw [endState_onRegistry] at hmarks ⊢
  intro kind' name b hb
  refine Bucket.MarksAgree.congr (h := s.2) ?_ fun p _ => hmarks p
  by_cases hkind : kind' = kind
  · subst hkind
    dsimp only at hb
    rw [registry_setRegistry] at hb
    rcases (s.1.registry kind').settle_settled s.2 purge name with hsame | hsettled
    · exact hs kind' name b (hsame ▸ hb)
    · obtain ⟨b₀, written, h, hb₀, hw, hb'⟩ := hsettled
      obtain rfl := Option.some.inj (hb'.symm.trans hb)
      exact Bucket.settle_marksAgree (hs kind' name b₀ hb₀)
        (fun e he => ((Bucket.mem_writtenKeys hw).mp he).1) h purge
  · dsimp only at hb
    rw [registry_setRegistry_of_ne hkind] at hb
    exact hs kind' name b hb

theorem get_delete_of_ne {p : RecordId} (hp : p ≠ r) :
    (endState (delete r s)).2.get p = s.2.get p := by
  rw [delete_apply]
  split
  · rfl
  · split
    · exact Heap.get_modify_of_ne _ hp
    · rw [Registry.remove, heap_onBucket, (Bucket.remove_removes ..).1]
      exact Heap.get_modify_of_ne _ hp

theorem MarksAgree.delete (hs : MarksAgree s) (hsound : s.1.Sound s.2)
    (hbypass : s.1.config.bypass = false)
    (hplace : (s.2.get r).isDeleted = false →
      ((s.1.registry (s.2.get r).type.kind).bucket (s.2.get r).type).InPlace
        (s.2.get r).type.kind s.2 r) : MarksAgree (endState (delete r s)) := by
  rw [delete_apply]
  cases hm : (s.2.get r).isDeleted with
  | true => exact hs
  | false =>
    simp only [hbypass, Bool.false_eq_true, if_false]
    have htype : ((s.2.modify r .markDeleted).get r).type = (s.2.get r).type := by
      rw [Heap.get_modify_self]
      rfl
    have hevolves : s.2.Evolves (s.2.modify r .markDeleted) := .modify rfl id
    have hbs := ((hsound.evolves hevolves) (s.2.get r).type.kind).bucket (s.2.get r).type
    obtain ⟨hheap, hremoves⟩ := Bucket.remove_removes (s.2.get r).type.kind
      ((s.1.registry (s.2.get r).type.kind).bucket (s.2.get r).type) (s.2.modify r .markDeleted) r
    refine marksAgree_onBucket (s := (s.1, s.2.modify r .markDeleted)) ?_ ?_
    · dsimp only
      rw [htype, hheap]
      exact hremoves.marksAgree hbs (hs.bucket _ _) (hplace hm) hm
    · intro kind name b hb hne
      dsimp only at hb hne ⊢
      rw [htype] at hne ⊢
      rw [hheap]
      refine (hs kind name b hb).mark fun hactive => ?_
      have hbelongs := (hsound kind name b hb).belongs (.inl hactive)
      exact hne ⟨hbelongs.kind.symm, hbelongs.name⟩

end Workspace

end UnitOfWork
