import UnitOfWork.Proofs.Commit.SqlWriter

/-!
# The values that statements bind

What the inserts and updates of a record have bound to a column of its row, one after the other.
As long as the names of a type are apart, the statement that writes a record binds the column of a
reference field to the key of the target, and to nothing else.
-/

namespace UnitOfWork

namespace Statement

/-- What an insert or an update assigns to columns. -/
def assigned : Statement → List (String × Value)
  | insert _ assigned _ => assigned
  | update _ assigned _ => assigned
  | _ => []

end Statement

/-- The values that a statement for the record binds to the column. -/
def Event.bound (e : Event) (r : RecordId) (column : String) : List Value :=
  match e.statement? with
  | some (some q, st) => if q = r then (st.assigned.filter (·.1 = column)).map Prod.snd else []
  | _ => []

/-- All values that statements for the record have bound to the column, the last one last. -/
def boundIn (trace : List Event) (r : RecordId) (column : String) : List Value :=
  trace.flatMap fun e => e.bound r column

private theorem Event.bound_of_ne {e : Event} {r : RecordId} {column : String}
    (he : ∀ st, e.statement? ≠ some (some r, st)) : e.bound r column = [] := by
  rw [bound]
  split
  · next q st hst =>
    refine if_neg fun hq => he st ?_
    rw [hst, hq]
  · rfl

theorem boundIn_append_others {trace events : List Event} {r : RecordId} {column : String}
    (he : ∀ e ∈ events, ∀ st, e.statement? ≠ some (some r, st)) :
    boundIn (trace ++ events) r column = boundIn trace r column := by
  have hnone : events.flatMap (fun e => e.bound r column) = [] :=
    List.flatMap_eq_nil_iff.mpr fun e hm => Event.bound_of_ne (he e hm)
  rw [boundIn, List.flatMap_append, hnone, List.append_nil]
  rfl

/-- The column is assigned, to this value only. -/
def Assigns (assigned : List (String × Value)) (column : String) (v : Value) : Prop :=
  (∃ e ∈ assigned, e.1 = column) ∧ ∀ e ∈ assigned, e.1 = column → e.2 = v

theorem getLast?_boundIn {trace : List Event} {e : Event} {r : RecordId} {st : Statement}
    {column : String} {v : Value} (he : e.statement? = some (some r, st))
    (ha : Assigns st.assigned column v) : (boundIn (trace ++ [e]) r column).getLast? = some v := by
  have hbound : e.bound r column = (st.assigned.filter (·.1 = column)).map Prod.snd := by
    rw [Event.bound, he]
    exact if_pos rfl
  have hne : e.bound r column ≠ [] := by
    obtain ⟨a, hm, hc⟩ := ha.1
    rw [hbound]
    exact List.ne_nil_of_mem (List.mem_map_of_mem (List.mem_filter.mpr ⟨hm, by simpa using hc⟩))
  have hv : ∀ x ∈ e.bound r column, x = v := by
    intro x hx
    rw [hbound] at hx
    obtain ⟨a, hm, rfl⟩ := List.mem_map.mp hx
    obtain ⟨hm, hc⟩ := List.mem_filter.mp hm
    exact ha.2 a hm (by simpa using hc)
  have hsnoc : boundIn (trace ++ [e]) r column = boundIn trace r column ++ e.bound r column := by
    simp [boundIn]
  rw [hsnoc, List.getLast?_append, List.getLast?_eq_some_getLast hne, Option.some_or,
    hv _ (List.getLast_mem hne)]

/-- The names of a type are apart, also from those of the data that its records hold; only a key
column and the column of the reference field that it is taken from may have the same name. -/
structure RecordType.NamesApart (t : RecordType) (data : String → Prop) : Prop where
  fields : (t.references.map (·.name)).Nodup
  columns : (t.references.map (·.column)).Nodup
  keys : (t.key.map (·.name)).Nodup
  field_column : ∀ ref ∈ t.references, ∀ ref' ∈ t.references, ref.name ≠ ref'.column
  field_key : ∀ ref ∈ t.references, ∀ c ∈ t.key, ref.name ≠ c.name
  column_key : ∀ ref ∈ t.references, ∀ c ∈ t.key, ref.column = c.name →
    c.source = .reference ref.name
  data_reference : ∀ name, data name → ∀ ref ∈ t.references, name ≠ ref.name ∧ name ≠ ref.column
  data_key : ∀ name, data name → ∀ c ∈ t.key, name ≠ c.name

namespace RecordType

variable {t : RecordType} {field : String} {ref ref' : ReferenceField}

theorem reference?_some (h : t.reference? field = some ref) :
    ref ∈ t.references ∧ ref.name = field :=
  ⟨List.mem_of_find?_eq_some h, by simpa using List.find?_some h⟩

theorem NamesApart.mono {data data' : String → Prop} (hn : t.NamesApart data)
    (hsub : ∀ name, data' name → data name) : t.NamesApart data' :=
  { hn with
    data_reference := fun name hd => hn.data_reference name (hsub name hd)
    data_key := fun name hd => hn.data_key name (hsub name hd) }

private theorem NamesApart.eq_of_column {data : String → Prop} (hn : t.NamesApart data)
    (hr : ref ∈ t.references) (hr' : ref' ∈ t.references) (h : ref.column = ref'.column) :
    ref = ref' :=
  List.inj_on_of_nodup_map hn.columns hr hr' h

end RecordType

namespace Heap

theorem mem_addMissing {acc more : List (String × Value)} {e : String × Value}
    (he : e ∈ addMissing acc more) : e ∈ acc ∨ e ∈ more := by
  induction more generalizing acc with
  | nil => exact .inl he
  | cons a more ih =>
    rw [addMissing, List.foldl_cons] at he
    rcases ih he with he | he
    · split at he
      · exact .inl he
      · rcases List.mem_append.mp he with he | he
        · exact .inl he
        · exact .inr (List.mem_singleton.mp he ▸ List.mem_cons_self)
    · exact .inr (List.mem_cons_of_mem _ he)

theorem mem_addMissing_left {acc more : List (String × Value)} {e : String × Value}
    (he : e ∈ acc) : e ∈ addMissing acc more := by
  induction more generalizing acc with
  | nil => exact he
  | cons a more ih =>
    rw [addMissing, List.foldl_cons]
    apply ih
    split
    · exact he
    · exact List.mem_append_left _ he

theorem exists_mem_addMissing {acc more : List (String × Value)} {e : String × Value}
    (he : e ∈ more) : ∃ e' ∈ addMissing acc more, e'.1 = e.1 := by
  induction more generalizing acc with
  | nil => exact absurd he List.not_mem_nil
  | cons a more ih =>
    rcases List.mem_cons.mp he with rfl | he
    · rw [addMissing, List.foldl_cons]
      by_cases hany : acc.any (·.1 == e.1)
      · rw [if_pos hany]
        obtain ⟨e', he', hc⟩ := List.any_eq_true.mp hany
        exact ⟨e', mem_addMissing_left he', by simpa using hc⟩
      · rw [if_neg hany]
        exact ⟨e, mem_addMissing_left (List.mem_append_right _ List.mem_cons_self), rfl⟩
    · rw [addMissing, List.foldl_cons]
      exact ih he

variable {h : Heap} {t : RecordType} {r target : RecordId} {st : Statement} {field : String}
  {ref : ReferenceField} {data : String → Prop}

theorem referenceValue_of_get? (htarget : (h.get r).references.get? field = some target) :
    h.referenceValue r field = h.foreignKey target := by
  rw [referenceValue, htarget]

theorem insertStatement_assigns (hst : h.insertStatement t r = .ok st) (hn : t.NamesApart data)
    (hdata : ∀ name, ((h.get r).values.get? name).isSome → data name)
    (href : t.reference? field = some ref)
    (htarget : (h.get r).references.get? field = some target) :
    Assigns st.assigned ref.column (h.foreignKey target) := by
  obtain ⟨hmem, hname⟩ := RecordType.reference?_some href
  obtain ⟨keyed, hkeyed, rfl⟩ := insertStatement_ok hst
  have hentry : (ref.column, h.foreignKey target) ∈ h.foreignKeys t r := by
    refine List.mem_filterMap.mpr ⟨(field, target), NameMap.mem_entries.mpr htarget, ?_⟩
    simp [href]
  refine ⟨exists_mem_addMissing hentry, fun e he hc => ?_⟩
  rcases mem_addMissing he with he | he
  · rcases mem_addMissing he with he | he
    · -- A key column of this name is taken from the same field.
      obtain ⟨⟨c, slot⟩, hm, ha⟩ := (mapM_ok hkeyed).2 (some e) (List.reduceOption_mem_iff.mp he)
      rw [keyAssignment.eq_def] at ha
      dsimp only at ha
      have hsource : c.name = ref.column → c.source = .reference field := by
        intro hc'
        exact hname ▸ hn.column_key ref hmem c (List.of_mem_zip hm).1 hc'.symm
      split at ha
      · cases ha
      · next hs =>
        split at ha
        · obtain rfl := Option.some.inj (Except.ok.inj ha)
          have hfield := hsource hc
          rw [hs] at hfield
          cases hfield
        · cases ha
      · next field' hs =>
        obtain rfl := Option.some.inj (Except.ok.inj ha)
        have hfield := hsource hc
        rw [hs] at hfield
        obtain rfl := KeySource.reference.inj hfield
        exact referenceValue_of_get? htarget
    · -- No data column has this name.
      have hvalue := hdata e.1 (Option.isSome_iff_exists.mpr ⟨e.2, NameMap.mem_entries.mp he⟩)
      exact absurd hc (hn.data_reference _ hvalue ref hmem).2
  · obtain ⟨⟨field', target'⟩, hm, ha⟩ := List.mem_filterMap.mp he
    obtain ⟨ref', href', rfl⟩ := Option.map_eq_some_iff.mp ha
    obtain ⟨hmem', hname'⟩ := RecordType.reference?_some href'
    obtain rfl := hn.eq_of_column hmem' hmem hc
    obtain rfl : field' = field := hname'.symm.trans hname
    rw [NameMap.mem_entries.mp hm, Option.some.injEq] at htarget
    rw [htarget]

private theorem mem_dirtyNames {x : Record} (hx : x.isNew) {target : RecordId}
    (htarget : x.references.get? field = some target) : field ∈ dirtyNames x := by
  rw [dirtyNames, if_pos hx]
  have hname : field ∈ x.references.names := NameMap.mem_names.mpr (by simp [htarget])
  exact NameSet.mem_addAll.mpr (.inr hname)

private theorem assignment?_of_reference (hn : t.NamesApart data)
    (href : t.reference? field = some ref)
    (htarget : (h.get r).references.get? field = some target) :
    h.assignment? t r field = some (ref.column, h.foreignKey target) := by
  obtain ⟨hmem, hname⟩ := RecordType.reference?_some href
  have hkey : t.hasKeyColumn field = false := by
    rw [RecordType.hasKeyColumn, List.any_eq_false]
    intro c hc
    simpa [hname] using (hn.field_key ref hmem c hc).symm
  rw [assignment?, hkey, href, ← referenceValue_of_get? htarget]
  rfl

theorem updateStatement?_assigns {found : Option Statement}
    (hst : h.updateStatement? t r = .ok found) (hnew : (h.get r).isNew) (hn : t.NamesApart data)
    (hdata : ∀ name, ((h.get r).values.get? name).isSome → data name ∨ t.hasKeyColumn name)
    (href : t.reference? field = some ref)
    (htarget : (h.get r).references.get? field = some target) :
    ∃ st, found = some st ∧ Assigns st.assigned ref.column (h.foreignKey target) := by
  obtain ⟨hmem, hname⟩ := RecordType.reference?_some href
  have hentry : (ref.column, h.foreignKey target) ∈
      (dirtyNames (h.get r)).filterMap (h.assignment? t r) :=
    List.mem_filterMap.mpr ⟨field, mem_dirtyNames hnew htarget,
      assignment?_of_reference hn href htarget⟩
  rw [updateStatement?] at hst
  split at hst
  · next hnil =>
    rw [hnil] at hentry
    exact absurd hentry List.not_mem_nil
  · cases hk : h.keyMatch t r with
    | error e => rw [hk] at hst; cases hst
    | ok key =>
      rw [hk] at hst
      refine ⟨_, (Except.ok.inj hst).symm, ⟨_, hentry, rfl⟩, fun e he hc => ?_⟩
      obtain ⟨name, -, ha⟩ := List.mem_filterMap.mp he
      rw [assignment?] at ha
      split at ha
      · cases ha
      · next hkey =>
        split at ha
        · next ref' href' =>
          obtain rfl := Option.some.inj ha
          obtain ⟨hmem', hname'⟩ := RecordType.reference?_some href'
          obtain rfl := hn.eq_of_column hmem' hmem hc
          obtain rfl : name = field := hname'.symm.trans hname
          exact referenceValue_of_get? htarget
        · obtain ⟨v, hv, rfl⟩ := Option.map_eq_some_iff.mp ha
          obtain rfl : name = ref.column := hc
          rcases hdata _ (Option.isSome_iff_exists.mpr ⟨v, hv⟩) with hd | hd
          · exact absurd rfl (hn.data_reference _ hd ref hmem).2
          · exact absurd hd hkey

end Heap

end UnitOfWork
