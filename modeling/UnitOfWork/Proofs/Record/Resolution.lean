import UnitOfWork.Proofs.Data.Containers
import UnitOfWork.Record.Dependency

/-!
# What a key depends on

The key of a record is found from the slots of the record and from the keys of the records that it
is taken from. A chain that is short enough to be followed stays so, and a key that the store
generates depends on the record itself only.
-/

namespace UnitOfWork

theorem RowKey.single?_eq_some {key : RowKey} {k : Key} : key.single? = some k ↔ key = ⟨[k]⟩ := by
  obtain ⟨ks⟩ := key
  match ks with
  | [] => simp [RowKey.single?]
  | [c] => simp [RowKey.single?]
  | _ :: _ :: _ => simp [RowKey.single?]

namespace Record

variable {x : Record} {c : KeyColumn}

theorem map_fst_keySlots (x : Record) : x.keySlots.map Prod.fst = x.type.key :=
  List.map_fst_zip (Nat.le_of_eq x.slots_length.symm)

theorem exists_slot (hc : c ∈ x.type.key) : ∃ slot, (c, slot) ∈ x.keySlots := by
  rw [← map_fst_keySlots] at hc
  obtain ⟨⟨c, slot⟩, he, rfl⟩ := List.mem_map.mp hc
  exact ⟨slot, he⟩

end Record

/-- The key of records of the type is one column, which the store generates. -/
def RecordType.IsGenerated (t : RecordType) : Prop := ∃ d, t.key = [d] ∧ d.isGenerated

namespace Heap

variable {h h' : Heap} {u v : RecordId} {follow : RecordId → Option RowKey} {c : KeyColumn}
  {slot : Option Key} {field : String}

theorem component?_own (hc : ∀ field, c.source ≠ .reference field) :
    h.component? follow u (c, slot) = slot := by
  rw [component?.eq_def]
  dsimp only
  split
  · rfl
  · rfl
  · next field hs => exact absurd hs (hc field)

theorem component?_generated (hc : c.isGenerated) : h.component? follow u (c, slot) = slot := by
  refine component?_own fun field hs => ?_
  rw [KeyColumn.isGenerated, hs] at hc
  exact absurd hc (by simp)

theorem component?_reference (hs : c.source = .reference field) :
    h.component? follow u (c, slot) = ((h.get u).references.get? field).bind fun v =>
      if v = u then none else ((follow v).bind RowKey.single?).bind (Key.convert? c.kind) := by
  rw [component?.eq_def]
  dsimp only
  rw [hs]
  rfl

/-- The key of a record depends on the types, the slots and those references that keys are taken
from. -/
theorem resolve?_congr_of_key (ht : ∀ r, (h'.get r).type = (h.get r).type)
    (hs : ∀ r, (h'.get r).slots = (h.get r).slots)
    (hr : ∀ r, ∀ c ∈ (h.get r).type.key, ∀ field, c.source = .reference field →
      (h'.get r).references.get? field = (h.get r).references.get? field) (depth : Nat) :
    h'.resolve? depth = h.resolve? depth := by
  induction depth with
  | zero => rfl
  | succ depth ih =>
    funext r
    have hk : (h'.get r).keySlots = (h.get r).keySlots := by
      rw [Record.keySlots, Record.keySlots, ht, hs]
    have hc : ∀ e ∈ (h.get r).keySlots,
        h'.component? (h'.resolve? depth) r e = h.component? (h.resolve? depth) r e := by
      rintro ⟨c, slot⟩ he
      rw [component?.eq_def, component?.eq_def, ih]
      dsimp only
      split
      · rfl
      · rfl
      · next field hsource =>
        have hmem : c ∈ (h.get r).type.key := (List.of_mem_zip he).1
        rw [hr r c hmem field hsource]
    rw [resolve?, resolve?, hk, mapM_congr hc]

theorem resolve?_congr (ht : ∀ r, (h'.get r).type = (h.get r).type)
    (hs : ∀ r, (h'.get r).slots = (h.get r).slots)
    (hr : ∀ r, (h'.get r).references = (h.get r).references) (depth : Nat) :
    h'.resolve? depth = h.resolve? depth :=
  resolve?_congr_of_key ht hs (fun r _ _ field _ => by rw [hr]) depth

theorem component?_mono {follow' : RecordId → Option RowKey} {slot' : Option Key} {k : Key}
    (hr : (h'.get u).references = (h.get u).references)
    (hslot : ∀ k, slot = some k → slot' = some k)
    (hfollow : ∀ v key, follow v = some key → follow' v = some key)
    (hk : h.component? follow u (c, slot) = some k) :
    h'.component? follow' u (c, slot') = some k := by
  by_cases hc : ∀ field, c.source ≠ .reference field
  · rw [component?_own hc] at hk ⊢
    exact hslot k hk
  · obtain ⟨field, hs⟩ : ∃ field, c.source = .reference field := by simpa using hc
    rw [component?_reference hs] at hk ⊢
    obtain ⟨target, htarget, hk⟩ := Option.bind_eq_some_iff.mp hk
    rw [hr, htarget, Option.bind_some]
    split at hk
    · cases hk
    · next hne =>
      obtain ⟨k', hk', hk⟩ := Option.bind_eq_some_iff.mp hk
      obtain ⟨key, hkey, hsingle⟩ := Option.bind_eq_some_iff.mp hk'
      rw [if_neg hne, hfollow target key hkey, Option.bind_some, hsingle, Option.bind_some, hk]

theorem resolve?_succ {depth : Nat} {key : RowKey} (hk : h.resolve? depth u = some key) :
    h.resolve? (depth + 1) u = some key := by
  induction depth generalizing u key with
  | zero => cases hk
  | succ depth ih =>
    rw [resolve?] at hk ⊢
    obtain ⟨ks, hks, rfl⟩ := Option.map_eq_some_iff.mp hk
    have hcomponent : ∀ e k, h.component? (h.resolve? depth) u e = some k →
        h.component? (h.resolve? (depth + 1)) u e = some k :=
      fun _ _ he => component?_mono rfl (fun _ hk => hk) (fun _ _ hkey => ih hkey) he
    rw [mapM_some_of_forall hcomponent hks]
    rfl

private theorem component?_isSome_of_resolve? {depth : Nat} (hu : (h.resolve? (depth + 1) u).isSome)
    {e : KeyColumn × Option Key} (he : e ∈ (h.get u).keySlots) :
    (h.component? (h.resolve? depth) u e).isSome := by
  rw [resolve?, Option.isSome_map] at hu
  obtain ⟨ks, hks⟩ := Option.isSome_iff_exists.mp hu
  exact mapM_some hks e he

theorem component?_isSome_of_primaryKey? (hu : (h.primaryKey? u).isSome)
    {e : KeyColumn × Option Key} (he : e ∈ (h.get u).keySlots) :
    (h.component? (h.resolve? maxReferenceDepth) u e).isSome :=
  component?_isSome_of_resolve? hu he

theorem resolve?_isSome_of_reference {depth : Nat} (hu : (h.resolve? (depth + 1) u).isSome)
    (he : (c, slot) ∈ (h.get u).keySlots) (hs : c.source = .reference field)
    (hv : (h.get u).references.get? field = some v) : (h.resolve? depth v).isSome := by
  have hsome := component?_isSome_of_resolve? hu he
  rw [component?_reference hs, hv, Option.bind_some] at hsome
  split at hsome
  · exact Bool.noConfusion hsome
  · obtain ⟨k, hk⟩ := Option.isSome_iff_exists.mp hsome
    obtain ⟨key, hkey, -⟩ := Option.bind_eq_some_iff.mp hk
    obtain ⟨rk, hrk, -⟩ := Option.bind_eq_some_iff.mp hkey
    exact Option.isSome_iff_exists.mpr ⟨rk, hrk⟩

/-- Every record that a known key is taken from has a known key itself. -/
theorem primaryKey?_isSome_of_reference (hu : (h.primaryKey? u).isSome)
    (he : (c, slot) ∈ (h.get u).keySlots) (hs : c.source = .reference field)
    (hv : (h.get u).references.get? field = some v) : (h.primaryKey? v).isSome := by
  obtain ⟨key, hkey⟩ := Option.isSome_iff_exists.mp (resolve?_isSome_of_reference hu he hs hv)
  exact Option.isSome_iff_exists.mpr ⟨key, resolve?_succ hkey⟩

theorem isCommitReady_of_primaryKey? (hu : (h.primaryKey? u).isSome) :
    (h.get u).isCommitReady := by
  rw [Record.isCommitReady, List.all_eq_true]
  rintro ⟨c, slot⟩ he
  have hsome := component?_isSome_of_primaryKey? hu he
  dsimp only
  split
  · next hs =>
    rwa [component?_own fun field hf => by rw [hs] at hf; cases hf] at hsome
  · rfl
  · next field hs =>
    rw [component?_reference hs] at hsome
    cases href : (h.get u).references.get? field with
    | none =>
      rw [href] at hsome
      exact Bool.noConfusion hsome
    | some target => simp [NameMap.contains, href]

theorem mem_keyTargets (hc : c ∈ (h.get u).type.key) (hs : c.source = .reference field)
    (hv : (h.get u).references.get? field = some v) : v ∈ h.keyTargets u := by
  refine List.mem_filterMap.mpr ⟨c, hc, ?_⟩
  rw [hs]
  exact hv

theorem exists_of_mem_keyTargets (hv : v ∈ h.keyTargets u) : ∃ c slot field,
    (c, slot) ∈ (h.get u).keySlots ∧ c.source = .reference field ∧
      (h.get u).references.get? field = some v := by
  obtain ⟨c, hc, hget⟩ := List.mem_filterMap.mp hv
  obtain ⟨slot, he⟩ := Record.exists_slot hc
  split at hget
  · next field hs => exact ⟨c, slot, field, he, hs, hget⟩
  · cases hget

theorem mem_targets_of_mem_keyTargets (hv : v ∈ h.keyTargets u) : v ∈ h.targets u := by
  obtain ⟨c, -, hc⟩ := List.mem_filterMap.mp hv
  split at hc
  · exact NameMap.mem_values.mpr ⟨_, hc⟩
  · cases hc

theorem length_primaryKey? {key : RowKey} (hk : h.primaryKey? u = some key) :
    key.components.length = (h.get u).type.arity := by
  rw [primaryKey?, resolve?] at hk
  obtain ⟨ks, hks, rfl⟩ := Option.map_eq_some_iff.mp hk
  rw [length_mapM_some hks, Record.keySlots, List.length_zip, (h.get u).slots_length, Nat.min_self]
  rfl

theorem primaryKey?_single {key : RowKey} (hk : h.primaryKey? u = some key)
    (ha : (h.get u).type.arity = 1) : ∃ k, key = ⟨[k]⟩ := by
  obtain ⟨ks⟩ := key
  have hlength := length_primaryKey? hk
  rw [ha] at hlength
  obtain ⟨k, rfl⟩ := List.length_eq_one_iff.mp hlength
  exact ⟨k, rfl⟩

private theorem primaryKey?_generated (hg : (h.get u).type.IsGenerated)
    (hs : (h.get u).slots = [slot]) :
    h.primaryKey? u = slot.map fun k => ⟨[k]⟩ := by
  obtain ⟨d, hd, hgen⟩ := hg
  have hk : (h.get u).keySlots = [(d, slot)] := by rw [Record.keySlots, hd, hs]; rfl
  rw [primaryKey?, resolve?, hk]
  cases slot <;> simp [component?_generated hgen]

theorem foreignKey_generated {k : Key} (hg : (h.get u).type.IsGenerated)
    (hs : (h.get u).slots = [some k]) : h.foreignKey u = k.toValue := by
  rw [foreignKey, primaryKey?_generated hg hs]
  rfl

theorem foreignKey_congr (hg : (h.get u).type.IsGenerated)
    (ht : (h'.get u).type = (h.get u).type) (hs : (h'.get u).slots = (h.get u).slots) :
    h'.foreignKey u = h.foreignKey u := by
  obtain ⟨d, hd, -⟩ := id hg
  have hl : (h.get u).slots.length = 1 := by
    rw [(h.get u).slots_length, hd, List.length_singleton]
  obtain ⟨slot, hslot⟩ := List.length_eq_one_iff.mp hl
  rw [foreignKey, foreignKey, primaryKey?_generated hg hslot,
    primaryKey?_generated (ht ▸ hg) (hs.trans hslot)]

end Heap

end UnitOfWork
