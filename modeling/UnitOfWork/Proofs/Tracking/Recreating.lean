import UnitOfWork.Proofs.Commit.UpdateBindings
import UnitOfWork.Proofs.Record.Setters
import UnitOfWork.Proofs.Tracking.ImportWalk

/-!
# Creating a deleted record again

A record that is deleted keeps its row until the next commit. When a new record with the same key is
handed over before that, the deleted one stands for the row again: it takes over what the new one
has assigned, and the commit updates the row instead of deleting it and inserting another one.
-/

namespace UnitOfWork

namespace Record

variable {x other : Record} {name : String}

/-- The record has a value or a reference of the name. -/
def Assigned (x : Record) (name : String) : Prop :=
  (x.values.get? name).isSome ∨ (x.references.get? name).isSome

theorem get?_values_absorb (x other : Record) (name : String) :
    (x.absorb other).values.get? name = (other.values.get? name).or (x.values.get? name) :=
  NameMap.get?_insertAll_entries ..

theorem get?_references_absorb (x other : Record) (name : String) :
    (x.absorb other).references.get? name =
      (other.references.get? name).or (x.references.get? name) :=
  NameMap.get?_insertAll_entries ..

theorem mem_changed_absorb : name ∈ (x.absorb other).changed.names ↔
    name ∈ x.changed.names ∨ other.Assigned name := by
  change name ∈ (NameSet.addAll (NameSet.addAll x.changed _) _).names ↔ _
  rw [NameSet.mem_addAll, NameSet.mem_addAll, NameMap.mem_names (m := other.values),
    NameMap.mem_names (m := other.references), or_assoc]
  rfl

theorem fill_isSome_of_other {ss os : List (Option Key)} {i : Nat} (hi : i < ss.length)
    (hos : (os[i]?.join).isSome) : ((fill ss os)[i]?.join).isSome := by
  induction ss generalizing os i with
  | nil => exact absurd hi (Nat.not_lt_zero i)
  | cons s ss ih =>
    cases os with
    | nil => simp at hos
    | cons o os =>
      cases i with
      | zero => cases s <;> simp_all [fill]
      | succ i => simpa [fill] using ih (Nat.lt_of_succ_lt_succ hi) (by simpa using hos)

end Record

namespace Heap

variable {h h' : Heap} {r q : RecordId}

private theorem primaryKey?_isSome_of_supplied
    (hsupplied : ∀ c ∈ (h.get r).type.key, c.source = .supplied) :
    (h.primaryKey? r).isSome ↔ ∀ e ∈ (h.get r).keySlots, e.2.isSome := by
  have hown : ∀ depth, ∀ e ∈ (h.get r).keySlots, h.component? (h.resolve? depth) r e = e.2 := by
    intro depth e he
    refine component?_own fun field hfield => ?_
    rw [hsupplied e.1 (List.of_mem_zip he).1] at hfield
    cases hfield
  constructor
  · intro hk e he
    rw [← hown maxReferenceDepth e he]
    exact component?_isSome_of_primaryKey? hk he
  · intro hslots
    rw [primaryKey?, resolve?, Option.isSome_map]
    refine isSome_mapM fun e he => ?_
    rw [hown maxReferenceDepth e he]
    exact hslots e he

private theorem mem_ids_of_isNew (hr : (h.get r).isNew) : r ∈ h.ids := by
  refine mem_ids_of_get_ne fun hblank => ?_
  rw [hblank] at hr
  exact Bool.noConfusion hr

private theorem primaryKey?_isSome_of_absorb (ht : (h.get q).type = (h.get r).type)
    (hsupplied : ∀ c ∈ (h.get r).type.key, c.source = .supplied)
    (hk : (h.primaryKey? q).isSome) (hr : (h'.get r).type = (h.get r).type)
    (hslots : (h'.get r).slots = Record.fill (h.get r).slots (h.get q).slots) :
    (h'.primaryKey? r).isSome := by
  have hother := (primaryKey?_isSome_of_supplied (ht ▸ hsupplied)).mp hk
  refine (primaryKey?_isSome_of_supplied (hr ▸ hsupplied)).mpr ?_
  rintro ⟨c, slot⟩ he
  obtain ⟨i, hc, hslot⟩ := Record.mem_keySlots.mp he
  rw [hr] at hc
  have hi : i < (h.get r).type.key.length := (List.getElem?_eq_some_iff.mp hc).1
  have hq : i < (h.get q).slots.length := by
    rw [(h.get q).slots_length, ht]
    exact hi
  have hown := hother (c, (h.get q).slots[i])
    (Record.mem_keySlots.mpr ⟨i, ht ▸ hc, List.getElem?_eq_getElem hq⟩)
  have hfilled := Record.fill_isSome_of_other (by rw [(h.get r).slots_length]; exact hi) (by
    rw [List.getElem?_eq_getElem hq]
    exact hown)
  rw [← hslots, hslot] at hfilled
  exact hfilled

end Heap

/-! What holds of every bucket, whatever has been done. -/

namespace Bucket

/-- `P` holds of an empty bucket, and whatever is done to a bucket keeps it. -/
structure IsInvariant (P : KeyKind → Bucket → Prop) : Prop where
  empty : ∀ kind t, P kind { type := t }
  tracks : ∀ {kind b h r importing answer b' h'},
    Tracks kind b h r importing answer b' h' → P kind b → P kind b'
  removes : ∀ {kind b h r b'}, Removes kind b h r b' → P kind b → P kind b'
  settles : ∀ {kind b} h purge written, P kind b → P kind (b.settle h purge written).1

variable {kind : KeyKind} {b : Bucket} {key : RowKey}

/-- Every record that is to be deleted is filed under a key that its registry can file. -/
def FilesDeleted (kind : KeyKind) (b : Bucket) : Prop :=
  ∀ key p, b.deleted.get? key = some p → key.isFiledUnder kind

private theorem FilesDeleted.insert {r : RecordId} (hb : b.FilesDeleted kind)
    (hkey : key.isFiledUnder kind) :
    FilesDeleted kind { b with deleted := b.deleted.insert key r } := by
  intro key' p hp
  change (b.deleted.insert key r).get? key' = some p at hp
  rw [FinMap.get?_insert] at hp
  split at hp
  · next hsame => exact hsame ▸ hkey
  · exact hb key' p hp

private theorem Stored.isFiledUnder {h : Heap} {r : RecordId} (hst : Stored h kind r key) :
    key.isFiledUnder kind :=
  (Heap.primaryKey?_of_fileKey? (Heap.fileKey?_of_fileKey hst.fileKey)).2

private theorem filesDeleted_isInvariant : IsInvariant fun kind b => b.FilesDeleted kind where
  empty _ _ _ _ hp := by cases hp
  tracks t hb := by
    cases t with
    | revives | restores => exact fun key p hp => hb key p (FinMap.of_get?_erase hp)
    | replacesDeleted hst => exact hb.insert hst.isFiledUnder
    | waits | lists | misfiles | joins | files | fails | finds | merges | mergesDeleted |
        enters => exact hb
  removes t hb := by
    cases t with
    | deletes hst => exact hb.insert hst.isFiledUnder
    | forgets | unfiles | fails => exact hb
  settles h purge written hb := by
    intro key p hp
    change (if purge then ∅ else _ : KeyIndex).get? key = some p at hp
    split at hp
    · cases hp
    · exact hb key p hp

end Bucket

namespace Workspace

/-- `P` holds of every bucket. -/
def AllBuckets (P : KeyKind → Bucket → Prop) (w : Workspace) : Prop :=
  ∀ kind name b, (w.registry kind).buckets.get? name = some b → P kind b

variable {P : KeyKind → Bucket → Prop} {s : Workspace × Heap}

private theorem AllBuckets.bucket (hP : Bucket.IsInvariant P) {w : Workspace} (hw : w.AllBuckets P)
    (kind : KeyKind) (t : RecordType) : P kind ((w.registry kind).bucket t) := by
  rcases (w.registry kind).bucket_cases t with hb | hb
  · exact hw kind t.name _ hb
  · rw [hb]
    exact hP.empty kind t

private theorem AllBuckets.onBucket {α : Type} {kind : KeyKind} {r : RecordId}
    {x : Tracking Bucket α} (hs : s.1.AllBuckets P)
    (hx : P kind (endState (x ((s.1.registry kind).bucket (s.2.get r).type, s.2))).1) :
    (endState (onRegistry kind (Registry.onBucket r x) s)).1.AllBuckets P := by
  intro kind' name b hb
  rw [get?_onBucket] at hb
  split at hb
  · next hsame =>
    obtain rfl := Option.some.inj hb
    obtain rfl := hsame.1
    exact hx
  · exact hs kind' name b hb

private theorem AllBuckets.run (hP : Bucket.IsInvariant P) (hs : s.1.AllBuckets P) (m : Move) :
    (m.run s).1.AllBuckets P := by
  cases m with
  | edit h => exact hs
  | track kind r importing =>
    exact hs.onBucket (hP.tracks (Bucket.track_tracks ..) (hs.bucket hP kind _))
  | remove kind r =>
    exact hs.onBucket (hP.removes (Bucket.remove_removes ..).2 (hs.bucket hP kind _))
  | settle kind purge =>
    intro kind' name b hb
    rw [Move.run, endState_onRegistry] at hb
    dsimp only at hb
    by_cases hkind : kind' = kind
    · subst hkind
      rw [registry_setRegistry] at hb
      rcases (s.1.registry kind').settle_settled s.2 purge name with hsame | hsettled
      · exact hs kind' name b (hsame ▸ hb)
      · obtain ⟨b₀, written, h, hb₀, -, hb'⟩ := hsettled
        obtain rfl := Option.some.inj (hb'.symm.trans hb)
        exact hP.settles h purge written (hs kind' name b₀ hb₀)
    · rw [registry_setRegistry_of_ne hkind] at hb
      exact hs kind' name b hb

/-- What nothing that is done to a bucket can change holds of all buckets after any history. -/
theorem allBuckets_runAll {σ ρ : Type} (hP : Bucket.IsInvariant P) (config : Config)
    (ops : List (Operation σ ρ)) : (Operation.runAll ({ config }, ∅) ops).1.AllBuckets P := by
  have hstart : ({ config } : Workspace).AllBuckets P := by
    intro kind name b hb
    rw [Workspace.registry_empty] at hb
    cases hb
  rw [Operation.runAll_eq]
  generalize Operation.allMoves ({ config }, ∅) ops = ms
  have hall : ∀ s : Workspace × Heap, s.1.AllBuckets P → (Move.runAll s ms).1.AllBuckets P := by
    induction ms with
    | nil => exact fun _ hs => hs
    | cons m ms ih => exact fun s hs => ih (m.run s) (hs.run hP m)
  exact hall _ hstart

end Workspace

/-! A new record with the key of one that waits for its row to be deleted. -/

namespace Bucket

variable {kind : KeyKind} {b : Bucket} {h : Heap} {p n : RecordId} {key : RowKey}

/-- The record waits for its row to be deleted, under this key and in no other place, and no other
record is found by the key. -/
structure AwaitsDeletion (b : Bucket) (key : RowKey) (p : RecordId) : Prop where
  deleted : ∀ key', b.deleted.get? key' = some p ↔ key' = key
  notNew : p ∉ b.new.toList
  notPending : p ∉ b.pending.toList
  notLive : p ∉ b.live.values
  live : b.live.get? key = none
  newByKey : b.newByKey.get? key = none

/-- The bucket after the record has been revived by another one. -/
def reviving (b : Bucket) (key : RowKey) (p n : RecordId) : Bucket :=
  { b.folding n with deleted := b.deleted.erase key, live := b.live.insert key p }

private theorem AwaitsDeletion.track (hb : b.AwaitsDeletion key p) (hn : (h.get n).isNew)
    (hg : (h.get n).type.generatedCount = 0) (hk : h.primaryKey? n = some key)
    (hfiled : key.isFiledUnder kind) (importing : Bool) : track kind n importing (b, h) =
      .ok p (b.reviving key p n, h.modify p (·.undelete.absorb (h.get n))) := by
  have hready : (h.get n).isCommitReady := Heap.isCommitReady_of_primaryKey? (by rw [hk]; rfl)
  have hfile := Heap.fileKey?_of_primaryKey? hk hfiled
  have hrival : (b.listing n).rival? key n = none := by
    change ((b.newByKey.get? key).filter _ <|> (b.live.get? key).filter _) = none
    rw [hb.newByKey, hb.live]
    rfl
  have hdeleted : (b.listing n).deleted.get? key = some p := (hb.deleted key).mpr rfl
  rw [Bucket.track, if_pos hn, trackNew, if_pos hready]
  dsimp only
  rw [if_neg (by omega), hfile]
  change placeNew n key (b.listing n, h) = _
  rw [placeNew, hrival, hdeleted]
  rfl

private theorem mem_reviving_new (hb : b.new.Coherent) {r : RecordId} :
    r ∈ (b.reviving key p n).new.toList ↔ r ≠ n ∧ r ∈ b.new.toList := by
  rw [show (b.reviving key p n).new = (b.new.insert n).erase n from rfl,
    (hb.insert n).mem_erase, hb.mem_insert]
  exact and_congr_right fun hne => or_iff_right hne

private theorem AwaitsDeletion.notMem_deleted (hb : b.AwaitsDeletion key p) :
    p ∉ (b.reviving key p n).deleted.values := by
  intro hp
  obtain ⟨key', hkey'⟩ := FinMap.exists_get?_of_mem_values hp
  change (b.deleted.erase key).get? key' = some p at hkey'
  rw [FinMap.get?_erase] at hkey'
  split at hkey'
  · cases hkey'
  · next hne => exact hne ((hb.deleted key').mp hkey').symm

end Bucket

namespace Workspace

variable {s : Workspace × Heap} {r p n : RecordId} {kind : KeyKind} {name : String} {b b' : Bucket}

private theorem track_eq_ok {t : RecordType} {a : RecordId} {h : Heap}
    (hbypass : s.1.config.bypass = false) (ht : (s.2.get r).type = t)
    (hr : Bucket.track t.kind r false ((s.1.registry t.kind).bucket t, s.2) = .ok a (b, h)) :
    track r s =
      .ok a (s.1.setRegistry t.kind ((s.1.registry t.kind).setBucket t.name b), h) := by
  subst ht
  change (if s.1.config.bypass then pure r else enroll r false : Tracking Workspace RecordId) s = _
  rw [hbypass]
  change onRegistry _ (Registry.onBucket r (Bucket.track _ r false)) s = _
  simp only [onRegistry, Registry.onBucket, Tracking.within, hr]

theorem get?_setRegistry_setBucket (w : Workspace) (kind kind' : KeyKind) (name name' : String)
    (b : Bucket) :
    ((w.setRegistry kind ((w.registry kind).setBucket name b)).registry kind').buckets.get? name' =
      if kind' = kind ∧ name = name' then some b else (w.registry kind').buckets.get? name' := by
  by_cases hkind : kind' = kind
  · subst hkind
    rw [registry_setRegistry, Registry.setBucket, NameMap.get?_insert]
    simp
  · rw [registry_setRegistry_of_ne hkind, if_neg fun hc => hkind hc.1]

/-- In the state `s'` the record `p` stands for its row again, with all that `n` had assigned in the
state `s`, and the next commit updates the row. -/
structure Recreated (s s' : Workspace × Heap) (key : RowKey) (p n : RecordId) : Prop where
  bucket : ∃ b ∈ s'.1.typeBucket? (s'.2.get p).type, b.live.get? key = some p ∧
    p ∉ b.deleted.values ∧ n ∉ b.new.toList ∧ n ∉ b.pending.toList
  undeleted : (s'.2.get p).isDeleted = false
  values : ∀ name, (s'.2.get p).values.get? name =
    ((s.2.get n).values.get? name).or ((s.2.get p).values.get? name)
  references : ∀ field, (s'.2.get p).references.get? field =
    ((s.2.get n).references.get? field).or ((s.2.get p).references.get? field)
  changed : ∀ name, (s.2.get n).Assigned name → name ∈ (s'.2.get p).changed.names
  notInserted : ∀ r ∈ [p, n], r ∉ s'.1.insertBatches.flatMap (·.records)
  notDeleted : ∀ r ∈ [p, n], r ∉ s'.1.deleteBatches.flatMap (·.records)
  updated : (∃ name, (s.2.get n).Assigned name) →
    ((s'.1.updateBatches s'.2).flatMap (·.records)).count p = 1
  bound : ∀ t : RecordType, t.RolesApart ((s'.2.get p).values.get? · |>.isSome) →
    ∃ found, s'.2.updateStatement? t p = .ok found ∧
      (∀ name v, (s.2.get n).values.get? name = some v →
        ∃ st, found = some st ∧ Assigns st.assigned name v) ∧
      ∀ field target ref, (s.2.get n).references.get? field = some target →
        t.reference? field = some ref → ∃ st, found = some st ∧
          (ref.column, s'.2.foreignKey target) ∈ st.assigned ∧
          ((t.references.map (·.column)).Nodup →
            Assigns st.assigned ref.column (s'.2.foreignKey target))

private theorem Sound.bucket_eq_of_belongs {w : Workspace} {h : Heap} {t : RecordType}
    (ht : (h.get r).type = t) (hb : w.typeBucket? t = some b)
    (hc : (w.registry kind).buckets.get? name = some b') (hr : h.Belongs kind name r) : b' = b := by
  have hget : (w.registry t.kind).buckets.get? t.name = some b' := by
    rw [← ht, hr.kind, hr.name]
    exact hc
  exact Option.some.inj (hget.symm.trans hb)

variable {w : Workspace} {h h₀ : Heap} {key : RowKey} {t : RecordType}

private theorem notMem_batches_reviving (hw : w.Sound h) (hbs : b.Sound kind name h₀)
    (hb : w.typeBucket? t = some (b.reviving key p n)) (hawaits : b.AwaitsDeletion key p)
    (hp : (h.get p).type = t) (hn : (h.get n).type = t) (hnew : (h.get n).isNew) (hr : r ∈ [p, n]) :
    r ∉ w.insertBatches.flatMap (·.records) ∧ r ∉ w.deleteBatches.flatMap (·.records) := by
  have ht : (h.get r).type = t := by
    simp only [List.mem_cons, List.not_mem_nil, or_false] at hr
    rcases hr with rfl | rfl
    · exact hp
    · exact hn
  constructor
  · intro hin
    obtain ⟨kind', name', c, hc, hrc⟩ := mem_newRecords.mp hin
    have hbelongs := (hw kind' name' c hc).new r hrc
    obtain rfl := Sound.bucket_eq_of_belongs ht hb hc hbelongs
    obtain ⟨hne, hrb⟩ := (Bucket.mem_reviving_new hbs.newCoherent).mp hrc
    simp only [List.mem_cons, List.not_mem_nil, or_false] at hr
    rcases hr with rfl | rfl
    · exact hawaits.notNew hrb
    · exact hne rfl
  · intro hin
    obtain ⟨kind', name', c, hc, hrc⟩ := mem_deleteBatches.mp hin
    obtain ⟨hbelongs, hrow⟩ := (hw kind' name' c hc).deleted r hrc
    obtain rfl := Sound.bucket_eq_of_belongs ht hb hc hbelongs
    simp only [List.mem_cons, List.not_mem_nil, or_false] at hr
    rcases hr with rfl | rfl
    · exact hawaits.notMem_deleted hrc
    · exact Bool.noConfusion (hrow.symm.trans hnew)

/-- The update of a record with a row binds what has been absorbed from another one. -/
theorem bound_absorbed {x other : Record} (hx : h.get p = x.absorb other) (hp : x.isNew = false)
    (hk : (h.primaryKey? p).isSome)
    (hroles : t.RolesApart fun name => ((h.get p).values.get? name).isSome) :
    ∃ found, h.updateStatement? t p = .ok found ∧
      (∀ name v, other.values.get? name = some v →
        ∃ st, found = some st ∧ Assigns st.assigned name v) ∧
      ∀ field target ref, other.references.get? field = some target →
        t.reference? field = some ref → ∃ st, found = some st ∧
          (ref.column, h.foreignKey target) ∈ st.assigned ∧
          ((t.references.map (·.column)).Nodup →
            Assigns st.assigned ref.column (h.foreignKey target)) := by
  obtain ⟨found, hfound, hassigned⟩ := Heap.updateStatement?_of_primaryKey? t hk
  have hdirty : ∀ name, other.Assigned name → name ∈ Heap.dirtyNames (h.get p) := by
    intro name hname
    have hnew : (h.get p).isNew = false := hx ▸ hp
    rw [Heap.dirtyNames, hnew, hx]
    exact Record.mem_changed_absorb.mpr (.inr hname)
  refine ⟨found, hfound, fun name v hv => ?_, fun field target ref htarget href => ?_⟩
  · have hvalue : (h.get p).values.get? name = some v := by
      rw [hx, Record.get?_values_absorb, hv]
      rfl
    have hbinds := Heap.updates_assigns_data hroles (fun _ hd => hd)
      (hdirty name (.inl (by rw [hv]; rfl))) hvalue
    obtain ⟨e, he, -⟩ := hbinds.1
    obtain ⟨st, hst, heq⟩ := hassigned (List.ne_nil_of_mem he)
    exact ⟨st, hst, heq ▸ hbinds⟩
  · have hreference : (h.get p).references.get? field = some target := by
      rw [hx, Record.get?_references_absorb, htarget]
      rfl
    have hbinds := Heap.updates_assigns_reference hroles (fun _ hd => hd)
      (hdirty field (.inr (by rw [htarget]; rfl))) href hreference
    obtain ⟨st, hst, heq⟩ := hassigned (List.ne_nil_of_mem hbinds.1)
    exact ⟨st, hst, heq ▸ hbinds⟩

private theorem recreated (ht : (s.2.get p).type = t) (htn : (s.2.get n).type = t)
    (hb : w.typeBucket? t = some (b.reviving key p n)) (hbs : b.Sound t.kind t.name s.2)
    (hw : w.Sound h) (hh : h = s.2.modify p (·.undelete.absorb (s.2.get n)))
    (hawaits : b.AwaitsDeletion key p) (hsupplied : ∀ c ∈ t.key, c.source = .supplied)
    (hp : (s.2.get p).isNew = false) (hn : (s.2.get n).isNew) (hk : (s.2.primaryKey? n).isSome) :
    Recreated s (w, h) key p n := by
  have hne : n ≠ p := by
    rintro rfl
    exact Bool.noConfusion (hp.symm.trans hn)
  have hgetp : h.get p = (s.2.get p).undelete.absorb (s.2.get n) := by
    rw [hh, Heap.get_modify_self]
  have hgetn : h.get n = s.2.get n := by rw [hh, Heap.get_modify_of_ne _ hne]
  have htp' : (h.get p).type = t := by
    rw [hgetp]
    exact ht
  have hbatches : ∀ r ∈ [p, n], r ∉ w.insertBatches.flatMap (·.records) ∧
      r ∉ w.deleteBatches.flatMap (·.records) := fun r hr =>
    notMem_batches_reviving hw hbs hb hawaits htp' (hgetn ▸ htn) (hgetn ▸ hn) hr
  have hchanged : ∀ name, (s.2.get n).Assigned name → name ∈ (h.get p).changed.names := by
    intro name hname
    rw [hgetp]
    exact Record.mem_changed_absorb.mpr (.inr hname)
  refine ⟨⟨b.reviving key p n, ?_, ?_, hawaits.notMem_deleted, ?_, ?_⟩, ?_, fun name => ?_,
    fun field => ?_, hchanged, fun r hr => (hbatches r hr).1, fun r hr => (hbatches r hr).2,
    fun ⟨name, hname⟩ => ?_, fun u hroles => ?_⟩
  · rw [htp']
    exact hb
  · exact (FinMap.get?_insert ..).trans (if_pos rfl)
  · exact fun hin => ((Bucket.mem_reviving_new hbs.newCoherent).mp hin).1 rfl
  · exact fun hin => (hbs.pendingCoherent.mem_erase.mp hin).1 rfl
  · rw [hgetp]
    rfl
  · rw [hgetp]
    exact Record.get?_values_absorb ..
  · rw [hgetp]
    exact Record.get?_references_absorb ..
  · refine hw.count_updateBatches (b := b.reviving key p n) ?_
      (FinMap.count_values_insert key hawaits.notLive)
      (.inl (Record.hasChanges_of_mem (hchanged name hname)))
    rw [htp']
    exact hb
  · refine bound_absorbed hgetp hp ?_ hroles
    refine Heap.primaryKey?_isSome_of_absorb (htn.trans ht.symm) (ht ▸ hsupplied) hk
      (htp'.trans ht.symm) ?_
    rw [hgetp]
    rfl

private theorem bypass_of_typeBucket? {σ ρ : Type} {config : Config} {ops : List (Operation σ ρ)}
    (hb : (Operation.runAll ({ config }, ∅) ops).1.typeBucket? t = some b) :
    (Operation.runAll ({ config }, ∅) ops).1.config.bypass = false := by
  rw [Operation.config_runAll, Bool.eq_false_iff]
  intro hbypass
  have hkept : ∀ s : Workspace × Heap, s.1.config.bypass →
      (Operation.runAll s ops).1 = s.1 := by
    clear hb
    induction ops with
    | nil => exact fun _ _ => rfl
    | cons op ops ih =>
      intro s hs
      have hrun := Operation.run_bypass hs op
      exact (ih (op.run s) (hrun ▸ hs)).trans hrun
  rw [hkept ({ config }, ∅) hbypass, typeBucket?] at hb
  cases ht : t.kind <;> rw [ht] at hb <;> cases hb

/-- A new record with the key of one that waits for its row to be deleted does not become a second
record for the row, whether it has been handed over before or not: the deleted record takes over
what the new one has assigned, and the next commit updates the row by all of it. -/
theorem track_recreates {σ ρ : Type} {config : Config} {ops : List (Operation σ ρ)}
    (hops : Operation.AllLegal ({ config }, ∅) ops)
    (hs : Operation.runAll ({ config }, ∅) ops = s) (hp : (s.2.get p).isNew = false)
    (hb : s.1.typeBucket? (s.2.get p).type = some b) (hawaits : b.AwaitsDeletion key p)
    (hsupplied : ∀ c ∈ (s.2.get p).type.key, c.source = .supplied)
    (hn : (s.2.get n).isNew) (htype : (s.2.get n).type = (s.2.get p).type)
    (hkey : s.2.primaryKey? n = some key) :
    ∃ s', track n s = .ok p s' ∧ Recreated s s' key p n := by
  have hsound : s.1.Sound s.2 := hs ▸ hops.sound
  have hbypass : s.1.config.bypass = false := by
    rw [← hs] at hb ⊢
    exact bypass_of_typeBucket? hb
  have hfiles : s.1.AllBuckets fun kind b => b.FilesDeleted kind :=
    hs ▸ allBuckets_runAll Bucket.filesDeleted_isInvariant config ops
  have hfiled : key.isFiledUnder (s.2.get p).type.kind :=
    hfiles _ _ b hb key p ((hawaits.deleted key).mpr rfl)
  have hmem : n ∈ s.2.ids := Heap.mem_ids_of_isNew hn
  have hgenerated : (s.2.get n).type.generatedCount = 0 := by
    rw [htype, RecordType.generatedCount, List.countP_eq_zero]
    intro c hc
    simp [KeyColumn.isGenerated, hsupplied c hc]
  have hbucket : (s.1.registry (s.2.get p).type.kind).bucket (s.2.get p).type = b := by
    rw [Registry.bucket, ← typeBucket?, hb, Option.getD_some]
  have htrack := track_eq_ok (b := b.reviving key p n) hbypass htype (by
    rw [hbucket]
    exact hawaits.track hn hgenerated hkey hfiled false)
  refine ⟨_, htrack, ?_⟩
  have hnext : Operation.AllLegal ({ config }, ∅) (ops ++ [(.track n : Operation σ ρ)]) :=
    Operation.allLegal_append.mpr ⟨hops, hs ▸ hmem, trivial⟩
  have hafter := hnext.sound
  rw [Operation.runAll_append, hs] at hafter
  change (endState (track n s)).1.Sound (endState (track n s)).2 at hafter
  rw [htrack] at hafter
  refine recreated rfl htype ?_ (hsound _ _ b hb) hafter rfl hawaits hsupplied hp hn
    (by rw [hkey]; rfl)
  rw [typeBucket?, get?_setRegistry_setBucket, if_pos ⟨rfl, rfl⟩]

end Workspace

/-! A remark that is deleted and written again, with another text and about another item. -/

/-- A remark with a row, and a new one with the same key. -/
def rewrittenRemarks : Heap :=
  ((∅ : Heap).set ⟨0⟩ { remarkOn ⟨2⟩ with
    values := (∅ : NameMap Value).insert "title" (.text "old")
    isNew := false }).set ⟨1⟩ ((remarkOn ⟨3⟩).assignValue "title" (.text "new"))

def deleteRemark : List (Operation Nat) :=
  [.edit rewrittenRemarks, .track ⟨0⟩, .delete ⟨0⟩]

private theorem awaitsDeletion_remark : Bucket.AwaitsDeletion
    { type := remarkType, deleted := (∅ : KeyIndex).insert itemKey ⟨0⟩ } itemKey ⟨0⟩ where
  deleted key := by
    rw [FinMap.get?_insert]
    split
    · next he => simp [he]
    · next hne => simp [Ne.symm hne]
  notNew := by decide
  notPending := by decide
  notLive := by decide
  live := rfl
  newByKey := rfl

open Workspace in
/-- The remark stands for its row again, which is updated once. -/
theorem track_recreates_remark :
    ∃ s', track ⟨1⟩ (Operation.runAll ({}, ∅) deleteRemark) = .ok ⟨0⟩ s' ∧
      (s'.2.get ⟨0⟩).references.get? "item" = some ⟨3⟩ ∧
      ((s'.1.updateBatches s'.2).flatMap (·.records)).count ⟨0⟩ = 1 := by
  have hlegal : Operation.AllLegal ({}, ∅) deleteRemark :=
    ⟨.of_fresh (by decide +kernel), by decide +kernel, by decide +kernel, trivial⟩
  obtain ⟨s', htrack, hrecreated⟩ := track_recreates hlegal rfl (p := ⟨0⟩) (n := ⟨1⟩)
    (by decide +kernel) (by decide +kernel) awaitsDeletion_remark (by decide +kernel)
    (by decide +kernel) (by decide +kernel) (by decide +kernel)
  refine ⟨s', htrack, ?_, hrecreated.updated ⟨"item", .inr (by decide +kernel)⟩⟩
  rw [hrecreated.references]
  decide +kernel

end UnitOfWork
