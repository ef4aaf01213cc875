import UnitOfWork.Proofs.Data.Containers
import UnitOfWork.Record.Dependency

/-!
# What tracking does to records

Tracking changes a record only by folding another record of the same type into it: it takes over
values and references and notes them as changes. `Heap.Folds` says what survives any number of such
steps, and `Heap.Evolves` the little that survives whatever an application does.
-/

namespace UnitOfWork

namespace Heap

theorem forall_get {h : Heap} {P : Record → Prop} (hd : P default) (hc : ∀ x ∈ h.cells.values, P x)
    (r : RecordId) : P (h.get r) := by
  rw [get]
  cases hx : h.cells.get? r with
  | none => exact hd
  | some x => exact hc x (FinMap.mem_values_of_get? hx)

theorem mem_ids_of_get_ne {h : Heap} {r : RecordId} (hr : h.get r ≠ default) : r ∈ h.ids := by
  rw [get] at hr
  cases hx : h.cells.get? r with
  | none =>
    rw [hx] at hr
    exact absurd rfl hr
  | some x => exact List.mem_map_of_mem (f := Prod.fst) (FinMap.mem_of_lookup hx)

theorem mem_ids_modify {h : Heap} {r q : RecordId} {f : Record → Record} :
    q ∈ (h.modify r f).ids ↔ q = r ∨ q ∈ h.ids :=
  FinMap.mem_keys_insert

theorem get_modify_self (h : Heap) (r : RecordId) (f : Record → Record) :
    (h.modify r f).get r = f (h.get r) := by
  rw [get_modify, if_pos rfl]

theorem get_modify_of_ne {h : Heap} {r q : RecordId} (f : Record → Record) (hq : q ≠ r) :
    (h.modify r f).get q = h.get q := by
  rw [get_modify, if_neg (Ne.symm hq)]

theorem mem_targets {h : Heap} {r t : RecordId} :
    t ∈ h.targets r ↔ ∃ field, (h.get r).references.get? field = some t :=
  NameMap.mem_values

/-- Records keep their types, and none becomes new again. -/
structure Evolves (h h' : Heap) : Prop where
  ids : ∀ r ∈ h.ids, r ∈ h'.ids
  type : ∀ r ∈ h.ids, (h'.get r).type = (h.get r).type
  isNew : ∀ r ∈ h.ids, (h'.get r).isNew → (h.get r).isNew

namespace Evolves

theorem refl (h : Heap) : h.Evolves h := ⟨fun _ hr => hr, fun _ _ => rfl, fun _ _ hn => hn⟩

theorem trans {h h' h'' : Heap} (a : h.Evolves h') (b : h'.Evolves h'') : h.Evolves h'' where
  ids r hr := b.ids r (a.ids r hr)
  type r hr := (b.type r (a.ids r hr)).trans (a.type r hr)
  isNew r hr hn := a.isNew r hr (b.isNew r (a.ids r hr) hn)

theorem modify {h : Heap} {r : RecordId} {f : Record → Record}
    (ht : (f (h.get r)).type = (h.get r).type) (hn : (f (h.get r)).isNew → (h.get r).isNew) :
    h.Evolves (h.modify r f) where
  ids q hq := mem_ids_modify.mpr (.inr hq)
  type q _ := by
    by_cases hqr : q = r
    · rw [hqr, get_modify_self, ht]
    · rw [get_modify_of_ne f hqr]
  isNew q _ := by
    by_cases hqr : q = r
    · rw [hqr, get_modify_self]
      exact hn
    · rw [get_modify_of_ne f hqr]
      exact id

end Evolves

end Heap

namespace Record

/-- `r'` is `r` after it has taken over some of what `other` has assigned. -/
structure Takes (r other r' : Record) : Prop where
  type : r'.type = r.type
  isNew : r'.isNew = r.isNew
  inserted : r'.inserted = r.inserted
  changed : ∀ name ∈ r.changed.names, name ∈ r'.changed.names
  hydrated : r'.hydrated = r.hydrated
  slots : r.isNew → r'.slots = r.slots ∨ r.type.generatedCount = 0
  reference : ∀ field t, r'.references.get? field = some t →
    r.references.get? field = some t ∨ other.references.get? field = some t
  value : ∀ name v, r'.values.get? name = some v →
    r.values.get? name = some v ∨ other.values.get? name = some v

theorem takes_refl (r other : Record) : r.Takes other r :=
  ⟨rfl, rfl, rfl, fun _ h => h, rfl, fun _ => .inl rfl, fun _ _ h => .inl h, fun _ _ h => .inl h⟩

theorem Takes.withDeleted {r other r' : Record} (h : r.Takes other r') (b : Bool) :
    r.Takes other { r' with isDeleted := b } :=
  ⟨h.type, h.isNew, h.inserted, h.changed, h.hydrated, h.slots, h.reference, h.value⟩

theorem takes_setTransient (r other : Record) (b : Bool) : r.Takes other (r.setTransient b) :=
  ⟨rfl, rfl, rfl, fun _ h => h, rfl, fun _ => .inl rfl, fun _ _ h => .inl h, fun _ _ h => .inl h⟩

theorem takes_absorb (r other : Record) (hg : r.isNew → r.type.generatedCount = 0) :
    r.Takes other (r.absorb other) where
  type := rfl
  isNew := rfl
  inserted := rfl
  changed name hn := by
    change name ∈ (NameSet.addAll (NameSet.addAll r.changed _) _).names
    rw [NameSet.mem_addAll, NameSet.mem_addAll]
    exact .inl (.inl hn)
  hydrated := rfl
  slots hn := .inr (hg hn)
  reference field t ht :=
    (NameMap.get?_insertAll _ _ field ht).imp_right NameMap.mem_entries.mp
  value name v hv := (NameMap.get?_insertAll _ _ name hv).imp_right NameMap.mem_entries.mp

theorem takes_merge (r other : Record) (hn : r.isNew = false) : r.Takes other (r.merge other) where
  type := rfl
  isNew := rfl
  inserted := rfl
  changed _ h := h
  hydrated := rfl
  slots h := by simp [hn] at h
  reference field t ht := by
    refine (NameMap.get?_insertAll _ _ field ht).imp_right fun hm => ?_
    exact NameMap.mem_entries.mp (List.mem_of_mem_filter hm)
  value name v hv := by
    refine (NameMap.get?_insertAll _ _ name hv).imp_right fun hm => ?_
    exact NameMap.mem_entries.mp (List.mem_of_mem_filter hm)

end Record

namespace Heap

/-- What holds of the records before and after others of the same type were folded into them. -/
structure Folds (h h' : Heap) : Prop where
  ids : ∀ r, r ∈ h'.ids ↔ r ∈ h.ids
  type : ∀ r, (h'.get r).type = (h.get r).type
  isNew : ∀ r, (h'.get r).isNew = (h.get r).isNew
  inserted : ∀ r, (h'.get r).inserted = (h.get r).inserted
  changed : ∀ r, ∀ name ∈ (h.get r).changed.names, name ∈ (h'.get r).changed.names
  hydrated : ∀ r, (h'.get r).hydrated = (h.get r).hydrated
  slots : ∀ r, (h.get r).isNew →
    (h'.get r).slots = (h.get r).slots ∨ (h.get r).type.generatedCount = 0
  target : ∀ r, ∀ t ∈ h'.targets r, ∃ q, t ∈ h.targets q
  value : ∀ r name, ((h'.get r).values.get? name).isSome →
    ∃ q, (h.get q).type.name = (h.get r).type.name ∧ ((h.get q).values.get? name).isSome

namespace Folds

theorem refl (h : Heap) : h.Folds h where
  ids _ := .rfl
  type _ := rfl
  isNew _ := rfl
  inserted _ := rfl
  changed _ _ hn := hn
  hydrated _ := rfl
  slots _ _ := .inl rfl
  target r _ ht := ⟨r, ht⟩
  value r _ hv := ⟨r, rfl, hv⟩

theorem trans {h h' h'' : Heap} (a : h.Folds h') (b : h'.Folds h'') : h.Folds h'' where
  ids r := (b.ids r).trans (a.ids r)
  type r := (b.type r).trans (a.type r)
  isNew r := (b.isNew r).trans (a.isNew r)
  inserted r := (b.inserted r).trans (a.inserted r)
  changed r name hn := b.changed r name (a.changed r name hn)
  hydrated r := (b.hydrated r).trans (a.hydrated r)
  slots r hn := by
    rcases b.slots r (by rw [a.isNew, hn]) with hb | hb
    · exact (a.slots r hn).imp_left hb.trans
    · exact .inr (by rw [← a.type r, hb])
  target r t ht := by
    obtain ⟨q, hq⟩ := b.target r t ht
    exact a.target q t hq
  value r name hv := by
    obtain ⟨q, hq, hqv⟩ := b.value r name hv
    obtain ⟨p, hp, hpv⟩ := a.value q name hqv
    refine ⟨p, ?_, hpv⟩
    rw [hp, ← a.type q, hq, a.type r]

theorem evolves {h h' : Heap} (a : h.Folds h') : h.Evolves h' where
  ids r hr := (a.ids r).mpr hr
  type r _ := a.type r
  isNew r _ hn := by rwa [a.isNew r] at hn

theorem modify {h : Heap} {k other : RecordId} {f : Record → Record} (hk : k ∈ h.ids)
    (hname : (h.get other).type.name = (h.get k).type.name)
    (hf : (h.get k).Takes (h.get other) (f (h.get k))) : h.Folds (h.modify k f) := by
  -- Every record but `k` is as before, so each part has an easy case apart from `k`.
  have hself : (h.modify k f).get k = f (h.get k) := get_modify_self h k f
  have helse : ∀ r, r ≠ k → (h.modify k f).get r = h.get r := fun r hr => get_modify_of_ne f hr
  have hids : ∀ r, r ∈ (h.modify k f).ids ↔ r ∈ h.ids := by
    intro r
    exact mem_ids_modify.trans (or_iff_right_of_imp fun hr => hr ▸ hk)
  refine ⟨hids, fun r => ?_, fun r => ?_, fun r => ?_, fun r => ?_, fun r => ?_, fun r => ?_,
    fun r t ht => ?_, fun r name hv => ?_⟩
  all_goals by_cases hr : r = k
  · rw [hr, hself, hf.type]
  · rw [helse r hr]
  · rw [hr, hself, hf.isNew]
  · rw [helse r hr]
  · rw [hr, hself, hf.inserted]
  · rw [helse r hr]
  · rw [hr, hself]
    exact hf.changed
  · rw [helse r hr]
    exact fun _ => id
  · rw [hr, hself, hf.hydrated]
  · rw [helse r hr]
  · rw [hr, hself]
    exact hf.slots
  · rw [helse r hr]
    exact fun _ => .inl rfl
  · rw [mem_targets, hr, hself] at ht
    obtain ⟨field, hfield⟩ := ht
    rcases hf.reference field t hfield with h' | h'
    · exact ⟨k, mem_targets.mpr ⟨field, h'⟩⟩
    · exact ⟨other, mem_targets.mpr ⟨field, h'⟩⟩
  · rw [mem_targets, helse r hr, ← mem_targets] at ht
    exact ⟨r, ht⟩
  · rw [hr, hself] at hv
    obtain ⟨v, hv⟩ := Option.isSome_iff_exists.mp hv
    rcases hf.value name v hv with h' | h'
    · exact ⟨k, by rw [hr], by simp [h']⟩
    · exact ⟨other, by rw [hr, hname], by simp [h']⟩
  · rw [helse r hr] at hv
    exact ⟨r, rfl, hv⟩

end Folds

end Heap

end UnitOfWork
