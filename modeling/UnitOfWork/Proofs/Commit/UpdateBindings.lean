import UnitOfWork.Proofs.Commit.BoundValues
import UnitOfWork.Proofs.Tracking.Batches

/-!
# What an update binds

A record with a row is written by one update, which binds what has changed in it. As long as no
name of the type plays two parts, each changed data column is bound to the value that the record
holds and the column of each changed reference field to the key of the target.
-/

namespace UnitOfWork

/-- No name of the type plays two parts: the names of data, of reference fields and of their
columns, and of key columns. A key column may have the name of the column of a reference field. -/
structure RecordType.RolesApart (t : RecordType) (data : String → Prop) : Prop where
  data_key : ∀ name, data name → t.hasKeyColumn name = false
  data_field : ∀ name, data name → t.reference? name = none
  data_column : ∀ name, data name → ∀ ref ∈ t.references, ref.column ≠ name
  field_key : ∀ ref ∈ t.references, t.hasKeyColumn ref.name = false

namespace Heap

variable {h : Heap} {t : RecordType} {r target : RecordId} {data : String → Prop}
  {name field : String} {v : Value} {ref : ReferenceField}

/-- What the update of a record assigns to columns. -/
def updates (h : Heap) (t : RecordType) (r : RecordId) : List (String × Value) :=
  (dirtyNames (h.get r)).filterMap (h.assignment? t r)

/-- The update of a record whose key is known can be built, and assigns just these columns. -/
theorem updateStatement?_of_primaryKey? (t : RecordType) (hk : (h.primaryKey? r).isSome) :
    ∃ found, h.updateStatement? t r = .ok found ∧
      (h.updates t r ≠ [] → ∃ st, found = some st ∧ st.assigned = h.updates t r) := by
  obtain ⟨key, hkey⟩ := Option.isSome_iff_exists.mp hk
  have hmatch : h.keyMatch t r = .ok { columns := t.key.map (·.name), values := key.values } := by
    rw [keyMatch, hkey]
  rw [updateStatement?, hmatch, ← updates]
  cases h.updates t r with
  | nil => exact ⟨none, rfl, fun hne => absurd rfl hne⟩
  | cons e rest => exact ⟨_, rfl, fun _ => ⟨_, rfl, rfl⟩⟩

private theorem of_mem_updates {e : String × Value} (he : e ∈ h.updates t r) :
    (∃ field ref, t.reference? field = some ref ∧ e = (ref.column, h.referenceValue r field)) ∨
      (h.get r).values.get? e.1 = some e.2 := by
  obtain ⟨name, -, ha⟩ := List.mem_filterMap.mp he
  rw [assignment?] at ha
  split at ha
  · cases ha
  · split at ha
    · next ref href => exact .inl ⟨name, ref, href, (Option.some.inj ha).symm⟩
    · obtain ⟨v, hv, rfl⟩ := Option.map_eq_some_iff.mp ha
      exact .inr hv

theorem updates_assigns_data (hroles : t.RolesApart data)
    (hdata : ∀ name, ((h.get r).values.get? name).isSome → data name)
    (hname : name ∈ dirtyNames (h.get r)) (hv : (h.get r).values.get? name = some v) :
    Assigns (h.updates t r) name v := by
  have hd : data name := hdata name (by rw [hv]; rfl)
  have hassigned : h.assignment? t r name = some (name, v) := by
    rw [assignment?, hroles.data_key name hd, hroles.data_field name hd, hv]
    rfl
  refine ⟨⟨_, List.mem_filterMap.mpr ⟨name, hname, hassigned⟩, rfl⟩, fun e he hc => ?_⟩
  rcases of_mem_updates he with ⟨field, ref, href, rfl⟩ | hvalue
  · exact absurd hc (hroles.data_column name hd ref (RecordType.reference?_some href).1)
  · rw [hc, hv] at hvalue
    exact (Option.some.inj hvalue).symm

theorem updates_assigns_reference (hroles : t.RolesApart data)
    (hdata : ∀ name, ((h.get r).values.get? name).isSome → data name)
    (hname : field ∈ dirtyNames (h.get r)) (href : t.reference? field = some ref)
    (htarget : (h.get r).references.get? field = some target) :
    (ref.column, h.foreignKey target) ∈ h.updates t r ∧
      ((t.references.map (·.column)).Nodup →
        Assigns (h.updates t r) ref.column (h.foreignKey target)) := by
  obtain ⟨hmem, hfield⟩ := RecordType.reference?_some href
  have hvalue : h.referenceValue r field = h.foreignKey target := referenceValue_of_get? htarget
  have hkey : t.hasKeyColumn field = false := hfield ▸ hroles.field_key ref hmem
  have hassigned : h.assignment? t r field = some (ref.column, h.foreignKey target) := by
    rw [assignment?, hkey, href, hvalue]
    rfl
  have hin : (ref.column, h.foreignKey target) ∈ h.updates t r :=
    List.mem_filterMap.mpr ⟨field, hname, hassigned⟩
  refine ⟨hin, fun hcolumns => ⟨⟨_, hin, rfl⟩, fun e he hc => ?_⟩⟩
  rcases of_mem_updates he with ⟨field', ref', href', rfl⟩ | hdatum
  · obtain ⟨hmem', hfield'⟩ := RecordType.reference?_some href'
    obtain rfl : ref' = ref := List.inj_on_of_nodup_map hcolumns hmem' hmem hc
    obtain rfl : field' = field := hfield'.symm.trans hfield
    exact hvalue
  · have hd : data e.1 := hdata e.1 (by rw [hdatum]; rfl)
    exact absurd hc.symm (hroles.data_column e.1 hd ref hmem)

end Heap

namespace Workspace

variable {w : Workspace} {h : Heap} {b : Bucket} {r : RecordId}

/-- A record that is live once in the bucket of its type is written by exactly one update. -/
theorem Sound.count_updateBatches (hw : w.Sound h)
    (hb : (w.registry (h.get r).type.kind).buckets.get? (h.get r).type.name = some b)
    (hlive : b.live.values.count r = 1) (hdirty : (h.get r).hasChanges ∨ (h.get r).hydrated) :
    ((w.updateBatches h).flatMap (·.records)).count r = 1 := by
  have hmem : r ∈ b.live.values := List.one_le_count_iff.mp (Nat.le_of_eq hlive.symm)
  have hlives : r ∈ w.liveRecords :=
    mem_liveRecords.mpr ⟨_, Registry.mem_liveRecords.mpr ⟨_, b, hb, hmem⟩⟩
  obtain ⟨batch, hbatch, hr⟩ := List.mem_flatMap.mp (mem_updateBatches.mpr ⟨hlives, hdirty⟩)
  have hrecords : batch.records = b.dirty h := by
    obtain ⟨kind, -, hk⟩ := List.mem_flatMap.mp hbatch
    obtain ⟨-, name, b', hb', -, hrec⟩ := Registry.mem_batches.mp hk
    rw [hrec, Bucket.dirty, inCreationOrder, List.mem_mergeSort] at hr
    have hbelongs := ((hw kind name b' hb').live r (List.mem_of_mem_filter hr)).1
    rw [← hbelongs.kind, ← hbelongs.name, hb] at hb'
    rw [hrec, Option.some.inj hb']
  have hone : (b.dirty h).count r = 1 := by
    rw [Bucket.dirty, inCreationOrder, (List.mergeSort_perm ..).count_eq, List.count_filter]
    · exact hlive
    · simpa using hdirty
  -- No other batch holds records of this type.
  obtain ⟨before, after, hsplit⟩ := List.append_of_mem hbatch
  have hpairs := hw.pairwise_updateBatches
  rw [hsplit] at hpairs ⊢
  obtain ⟨-, htail, hcross⟩ := List.pairwise_append.mp hpairs
  have hbefore : r ∉ before.flatMap (·.records) := by
    intro hin
    obtain ⟨c, hc, hrc⟩ := List.mem_flatMap.mp hin
    exact (hcross c hc batch List.mem_cons_self r hrc r hr).ne rfl
  have hafter : r ∉ after.flatMap (·.records) := by
    intro hin
    obtain ⟨c, hc, hrc⟩ := List.mem_flatMap.mp hin
    exact ((List.pairwise_cons.mp htail).1 c hc r hr r hrc).ne rfl
  rw [List.flatMap_append, List.flatMap_cons, List.count_append, List.count_append, hrecords, hone,
    List.count_eq_zero_of_not_mem hbefore, List.count_eq_zero_of_not_mem hafter]

end Workspace

end UnitOfWork
