import UnitOfWork.Proofs.Commit.KeyColumns
import UnitOfWork.Proofs.Commit.StatementLog
import UnitOfWork.Proofs.Commit.UpdateBindings
import UnitOfWork.Proofs.Sql.StatementText

/-!
# Parameters and columns

The parameters of a statement come in the order of the placeholders in its text, and each of them
belongs to the column that its placeholder stands for: a component of the key, a value that the
record stores, or the key of a record that it refers to.
-/

namespace UnitOfWork

namespace Heap

variable {h : Heap} {t : RecordType} {r : RecordId} {rs : List RecordId} {st : Statement}
  {keyed : List (Option (String × Value))} {l : List (KeyColumn × Option Key)}

/-- No name that a statement for one of the records mentions holds a double quote. -/
structure Unquoted (h : Heap) (t : RecordType) (rs : List RecordId) : Prop where
  table : '"' ∉ t.table.toList
  key : ∀ c ∈ t.key, '"' ∉ c.name.toList
  references : ∀ ref ∈ t.references, '"' ∉ ref.column.toList
  values : ∀ r ∈ rs, ∀ column ∈ (h.get r).values.names, '"' ∉ column.toList

/-- The value that an insert has to write into a column: a component of the key, else the value that
the record stores, else the key of a record that it refers to. -/
inductive NewCell (h : Heap) (t : RecordType) (r : RecordId) (column : String) : Value → Prop where
  | slot {c : KeyColumn} {k : Key} : (c, some k) ∈ h.slotsAs t r → c.source = .supplied →
      c.name = column → NewCell h t r column k.toValue
  | keyReference {c : KeyColumn} {field : String} : c ∈ t.key → c.source = .reference field →
      c.name = column → NewCell h t r column (h.referenceValue r field)
  | stored {v : Value} : (∀ c ∈ t.key, c.name = column → c.isGenerated) →
      (h.get r).values.get? column = some v → NewCell h t r column v
  | foreignKey {field : String} {ref : ReferenceField} {target : RecordId} :
      (∀ c ∈ t.key, c.name = column → c.isGenerated) → (h.get r).values.get? column = none →
      t.reference? field = some ref → ref.column = column →
      (h.get r).references.get? field = some target → NewCell h t r column (h.foreignKey target)

/-- The value that an update has to write into a column: the changed value that the record stores,
or the key of the record that a changed reference refers to. -/
inductive ChangedCell (h : Heap) (t : RecordType) (r : RecordId) (column : String) :
    Value → Prop where
  | stored {v : Value} : column ∈ dirtyNames (h.get r) → t.hasKeyColumn column = false →
      t.reference? column = none → (h.get r).values.get? column = some v →
      ChangedCell h t r column v
  | reference {field : String} {ref : ReferenceField} : field ∈ dirtyNames (h.get r) →
      t.hasKeyColumn field = false → t.reference? field = some ref → ref.column = column →
      ChangedCell h t r column (h.referenceValue r field)

private theorem map_fst_slotsAs (ht : (h.get r).type = t) :
    (h.slotsAs t r).map Prod.fst = t.key := by
  rw [slotsAs, ← ht]
  exact (h.get r).map_fst_keySlots

private theorem keyAssignment_ok {c : KeyColumn} {slot : Option Key} {a : Option (String × Value)}
    (ha : h.keyAssignment r (c, slot) = .ok a) :
    c.source = .generated ∧ a = none ∨
      (∃ k, c.source = .supplied ∧ slot = some k ∧ a = some (c.name, k.toValue)) ∨
      ∃ field, c.source = .reference field ∧ a = some (c.name, h.referenceValue r field) := by
  rw [keyAssignment.eq_def] at ha
  dsimp only at ha
  split at ha
  · next hs => exact .inl ⟨hs, (Except.ok.inj ha).symm⟩
  · next hs =>
    split at ha
    · next k => exact .inr (.inl ⟨k, hs, rfl, (Except.ok.inj ha).symm⟩)
    · cases ha
  · next field hs => exact .inr (.inr ⟨field, hs, (Except.ok.inj ha).symm⟩)

private theorem map_fst_keyed (hkeyed : l.mapM (h.keyAssignment r) = .ok keyed) :
    keyed.reduceOption.map Prod.fst =
      ((l.map Prod.fst).filter fun c => !c.isGenerated).map (·.name) := by
  have hsteps := mapM_eq_ok.mp hkeyed
  clear hkeyed
  induction hsteps with
  | nil => rfl
  | @cons e a l keyed ha hrest ih =>
    rcases keyAssignment_ok ha with ⟨hs, rfl⟩ | ⟨k, hs, -, rfl⟩ | ⟨field, hs, rfl⟩ <;>
      simp [KeyColumn.isGenerated, hs, ih]

private theorem of_mem_addMissing {acc more : List (String × Value)} {e : String × Value}
    (he : e ∈ addMissing acc more) : e ∈ acc ∨ e ∈ more ∧ ∀ a ∈ acc, a.1 ≠ e.1 := by
  by_cases hname : ∃ a ∈ acc, a.1 = e.1
  · obtain ⟨a, ha, hname⟩ := hname
    exact .inl (mem_of_mem_addMissing he ha hname)
  · have hnone : ∀ a ∈ acc, a.1 ≠ e.1 := fun a ha hc => hname ⟨a, ha, hc⟩
    exact (mem_addMissing he).imp_right fun hm => ⟨hm, hnone⟩

private theorem nodup_addMissing {acc more : List (String × Value)}
    (hacc : (acc.map Prod.fst).Nodup) :
    ((addMissing acc more).map Prod.fst).Nodup := by
  induction more generalizing acc with
  | nil => exact hacc
  | cons e more ih =>
    rw [addMissing, List.foldl_cons]
    apply ih
    split
    · exact hacc
    · next hany =>
      have hfresh : e.1 ∉ acc.map Prod.fst := by simpa using hany
      rw [List.map_append, List.map_singleton]
      exact hacc.append (List.nodup_singleton _) (List.disjoint_singleton.mpr hfresh)

section Insert

/-- What an insert assigns in all, when it assigns this to the columns of the key. -/
def newCells (h : Heap) (t : RecordType) (r : RecordId) (keyed : List (String × Value)) :
    List (String × Value) :=
  addMissing (addMissing keyed (h.get r).values.entries) (h.foreignKeys t r)

private theorem insertStatement_newCells (ht : (h.get r).type = t)
    (hst : h.insertStatement t r = .ok st) :
    ∃ keyed, (h.slotsAs t r).mapM (h.keyAssignment r) = .ok keyed ∧
      st = .insert t.table (h.newCells t r keyed.reduceOption)
        ((t.key.filter KeyColumn.isGenerated).map (·.name)) := by
  obtain ⟨keyed, hkeyed, rfl⟩ := insertStatement_ok hst
  refine ⟨keyed, hkeyed, ?_⟩
  have hreturned : ∀ l : List (KeyColumn × Option Key),
      (l.filterMap fun e => if e.1.isGenerated then some e.1.name else none) =
        ((l.map Prod.fst).filter KeyColumn.isGenerated).map (·.name) := by
    intro l
    induction l with
    | nil => rfl
    | cons e l ih => cases hc : e.1.isGenerated <;> simp [hc, ih]
  rw [← map_fst_slotsAs ht (h := h) (r := r), ← hreturned]
  rfl

variable {column : String}

private theorem nodup_newCells (ht : (h.get r).type = t) (hkeys : (t.key.map (·.name)).Nodup)
    (hkeyed : (h.slotsAs t r).mapM (h.keyAssignment r) = .ok keyed) :
    ((h.newCells t r keyed.reduceOption).map Prod.fst).Nodup := by
  apply nodup_addMissing
  apply nodup_addMissing
  rw [map_fst_keyed hkeyed, map_fst_slotsAs ht]
  exact hkeys.sublist (List.filter_sublist.map _)

private theorem mem_keyed (ht : (h.get r).type = t)
    (hkeyed : (h.slotsAs t r).mapM (h.keyAssignment r) = .ok keyed) {c : KeyColumn}
    (hc : c ∈ t.key) (hown : c.isGenerated = false) :
    c.name ∈ keyed.reduceOption.map Prod.fst := by
  rw [map_fst_keyed hkeyed, map_fst_slotsAs ht]
  exact List.mem_map_of_mem (List.mem_filter.mpr ⟨hc, by simpa using hown⟩)

private theorem mem_newCells_of_mem (hk : column ∈ keyed.reduceOption.map Prod.fst) :
    column ∈ (h.newCells t r keyed.reduceOption).map Prod.fst := by
  obtain ⟨e, he, rfl⟩ := List.mem_map.mp hk
  exact List.mem_map_of_mem (mem_addMissing_left (mem_addMissing_left he))

private theorem mem_newCells_of_values (hv : column ∈ (h.get r).values.names)
    (k : List (String × Value)) :
    column ∈ (h.newCells t r k).map Prod.fst := by
  obtain ⟨e, he, rfl⟩ := List.mem_map.mp hv
  obtain ⟨e', he', hname⟩ : ∃ e' ∈ addMissing k (h.get r).values.entries, e'.1 = e.1 :=
    exists_mem_addMissing he
  exact List.mem_map.mpr ⟨e', mem_addMissing_left he', hname⟩

private theorem mem_newCells_of_reference {field : String} {ref : ReferenceField}
    (href : t.reference? field = some ref) (hf : (h.get r).references.contains field)
    (k : List (String × Value)) : ref.column ∈ (h.newCells t r k).map Prod.fst := by
  obtain ⟨target, htarget⟩ := Option.isSome_iff_exists.mp hf
  have hentry : (ref.column, h.foreignKey target) ∈ h.foreignKeys t r :=
    List.mem_filterMap.mpr ⟨(field, target), NameMap.mem_entries.mpr htarget, by simp [href]⟩
  obtain ⟨e, he, hname⟩ : ∃ e ∈ h.newCells t r k, e.1 = ref.column := exists_mem_addMissing hentry
  exact List.mem_map.mpr ⟨e, he, hname⟩

private theorem newCell_of_mem (ht : (h.get r).type = t)
    (hkeyed : (h.slotsAs t r).mapM (h.keyAssignment r) = .ok keyed) {e : String × Value}
    (he : e ∈ h.newCells t r keyed.reduceOption) : h.NewCell t r e.1 e.2 := by
  -- A column that is not assigned as part of the key is none, or the store generates it.
  have hkey : (∀ a ∈ keyed.reduceOption, a.1 ≠ e.1) →
      ∀ c ∈ t.key, c.name = e.1 → c.isGenerated := by
    intro hnone c hc hname
    by_contra hown
    obtain ⟨a, ha, hca⟩ := List.mem_map.mp (mem_keyed ht hkeyed hc (by simpa using hown))
    exact hnone a ha (hca.trans hname)
  rcases of_mem_addMissing he with he | ⟨he, hnone⟩
  · rcases of_mem_addMissing he with he | ⟨he, hnone⟩
    · obtain ⟨⟨c, slot⟩, hm, ha⟩ := (mapM_ok hkeyed).2 _ (List.reduceOption_mem_iff.mp he)
      rcases keyAssignment_ok ha with ⟨-, hv⟩ | ⟨k, hs, rfl, hv⟩ | ⟨field, hs, hv⟩
      · cases hv
      · obtain rfl := Option.some.inj hv
        exact .slot hm hs rfl
      · obtain rfl := Option.some.inj hv
        exact .keyReference (List.of_mem_zip hm).1 hs rfl
    · exact .stored (hkey hnone) (NameMap.mem_entries.mp he)
  · have hkeyed' : ∀ a ∈ keyed.reduceOption, a.1 ≠ e.1 :=
      fun a ha => hnone a (mem_addMissing_left ha)
    have hvalue : (h.get r).values.get? e.1 = none := by
      rw [Option.eq_none_iff_forall_ne_some]
      intro v hv
      obtain ⟨a, ha, hname⟩ : ∃ a ∈ addMissing keyed.reduceOption (h.get r).values.entries,
          a.1 = (e.1, v).1 := exists_mem_addMissing (NameMap.mem_entries.mpr hv)
      exact hnone a ha hname
    obtain ⟨⟨field, target⟩, hm, ha⟩ := List.mem_filterMap.mp he
    obtain ⟨ref, href, rfl⟩ := Option.map_eq_some_iff.mp ha
    exact .foreignKey (hkey hkeyed') hvalue href rfl (NameMap.mem_entries.mp hm)

end Insert

section Key

private theorem keyMatch_ok {m : KeyMatch} (hm : h.keyMatch t r = .ok m) : ∃ key,
    h.primaryKey? r = some key ∧ m = t.keyMatch key := by
  rw [keyMatch] at hm
  split at hm
  · next key hkey => exact ⟨key, hkey, (Except.ok.inj hm).symm⟩
  · cases hm

private theorem length_values (ht : (h.get r).type = t) {key : RowKey}
    (hkey : h.primaryKey? r = some key) :
    (t.key.map (·.name)).length = key.values.length := by
  rw [RowKey.values, List.length_map, List.length_map, length_primaryKey? hkey, ht]
  rfl

theorem updateStatement?_ok (hst : h.updateStatement? t r = .ok (some st)) : ∃ key,
    h.primaryKey? r = some key ∧ st = .update t.table (h.updates t r) (t.keyMatch key) := by
  rw [updateStatement?, ← updates] at hst
  split at hst
  · cases hst
  · cases hm : h.keyMatch t r with
    | error e => rw [hm] at hst; cases hst
    | ok m =>
      obtain ⟨key, hkey, rfl⟩ := keyMatch_ok hm
      rw [hm] at hst
      exact ⟨key, hkey, (Option.some.inj (Except.ok.inj hst)).symm⟩

private theorem changedCell_of_mem {e : String × Value} (he : e ∈ h.updates t r) :
    h.ChangedCell t r e.1 e.2 := by
  obtain ⟨name, hname, ha⟩ := List.mem_filterMap.mp he
  rw [assignment?] at ha
  split at ha
  · cases ha
  · next hkey =>
    have hkey := Bool.eq_false_iff.mpr hkey
    split at ha
    · next ref href =>
      obtain rfl := Option.some.inj ha
      exact .reference hname hkey href rfl
    · next hfield =>
      obtain ⟨v, hv, rfl⟩ := Option.map_eq_some_iff.mp ha
      exact .stored hname hkey hfield hv

private theorem probeStatement_ok (hst : h.probeStatement t r = .ok st) : ∃ key,
    h.primaryKey? r = some key ∧ st = .probe t.table (t.keyMatch key) := by
  rw [probeStatement] at hst
  cases hm : h.keyMatch t r with
  | error e => rw [hm] at hst; cases hst
  | ok m =>
    obtain ⟨key, hkey, rfl⟩ := keyMatch_ok hm
    rw [hm] at hst
    exact ⟨key, hkey, (Except.ok.inj hst).symm⟩

theorem deleteStatements_eq {sts : List Statement} (hst : h.deleteStatements t rs = .ok sts) :
    ∃ keys, rs.Forall₂ (fun r key => h.primaryKey? r = some key) keys ∧ sts = t.deletes keys := by
  have hkeys : (rs.filterMap h.primaryKey?).map some = rs.map h.primaryKey? := by
    rw [deleteStatements] at hst
    cases rs with
    | nil => rfl
    | cons r rs =>
      cases hms : (r :: rs).mapM (h.keyMatch t) with
      | error e =>
        rw [List.isEmpty_cons, hms] at hst
        cases hst
      | ok ms => exact (mapM_keyMatch hms).2
  refine ⟨rs.filterMap h.primaryKey?, ?_,
    deleteStatements_ok (b := { type := t, records := rs }) hst⟩
  have hequal : List.Forall₂ (· = ·) (rs.map h.primaryKey?)
      ((rs.filterMap h.primaryKey?).map some) := by
    rw [List.forall₂_eq_eq_eq]
    exact hkeys.symm
  simpa only [List.forall₂_map_left_iff, List.forall₂_map_right_iff] using hequal

end Key

section Unquoted

variable {column : String} {v : Value}

private theorem NewCell.unquoted (hcell : h.NewCell t r column v) (hq : h.Unquoted t rs)
    (hr : r ∈ rs) :
    '"' ∉ column.toList := by
  cases hcell with
  | slot hm hs hname => exact hname ▸ hq.key _ (List.of_mem_zip hm).1
  | keyReference hc hs hname => exact hname ▸ hq.key _ hc
  | stored hkey hv => exact hq.values r hr _ (NameMap.mem_names.mpr (by simp [hv]))
  | foreignKey hkey hv href hname ht =>
    exact hname ▸ hq.references _ (RecordType.reference?_some href).1

private theorem ChangedCell.unquoted (hcell : h.ChangedCell t r column v) (hq : h.Unquoted t rs)
    (hr : r ∈ rs) : '"' ∉ column.toList := by
  cases hcell with
  | stored hd hkey hfield hv => exact hq.values r hr _ (NameMap.mem_names.mpr (by simp [hv]))
  | reference hd hkey href hname =>
    exact hname ▸ hq.references _ (RecordType.reference?_some href).1

private theorem Unquoted.map_key (hq : h.Unquoted t rs) :
    ∀ c ∈ t.key.map (·.name), '"' ∉ c.toList := by
  simpa using hq.key

end Unquoted

end Heap

/-- The placeholders in the text are those of the parameters, one after the other, and each of them
stands for a column. -/
structure Statement.Numbered (s : Statement) (pairs : List (String × Nat)) : Prop where
  numbers : numbersIn s.tokens = List.range' 1 s.params.length
  paired : pairs.map Prod.snd = numbersIn s.tokens

namespace Heap

/-- An insert writes each column of the row once, and asks back what the store generates. -/
structure InsertAligned (h : Heap) (t : RecordType) (r : RecordId) (st : Statement) : Prop where
  numbered : st.Numbered (listedIn st.tokens)
  cells : ∀ e ∈ st.bound (listedIn st.tokens), ∃ v, e.2 = some v ∧ h.NewCell t r e.1 v
  distinct : ((listedIn st.tokens).map Prod.fst).Nodup
  key : ∀ c ∈ t.key, c.isGenerated = false → c.name ∈ (listedIn st.tokens).map Prod.fst
  values : ∀ column ∈ (h.get r).values.names, column ∈ (listedIn st.tokens).map Prod.fst
  references : ∀ field ref, t.reference? field = some ref → (h.get r).references.contains field →
    ref.column ∈ (listedIn st.tokens).map Prod.fst
  returned : returnedIn st.tokens = (t.key.filter KeyColumn.isGenerated).map (·.name)
  returning : "RETURNING" ∈ wordsIn st.tokens ↔ ∃ c ∈ t.key, c.isGenerated

/-- The statement looks for the row by the key of the record. -/
def Seeks (h : Heap) (t : RecordType) (r : RecordId) (st : Statement) : Prop :=
  ∃ key, h.primaryKey? r = some key ∧
    st.bound (soughtIn st.tokens) = (t.key.map (·.name)).zip (key.values.map some)

structure UpdateAligned (h : Heap) (t : RecordType) (r : RecordId) (st : Statement) : Prop where
  numbered : st.Numbered (setIn st.tokens ++ soughtIn st.tokens)
  cells : ∀ e ∈ st.bound (setIn st.tokens), ∃ v, e.2 = some v ∧ h.ChangedCell t r e.1 v
  sought : h.Seeks t r st

/-- Deletes look for each row by the key of its record: for one row each if the key has several
columns, else for all of them at once. -/
structure DeleteAligned (h : Heap) (t : RecordType) (rs : List RecordId) (sts : List Statement) :
    Prop where
  numbered : ∀ st ∈ sts, st.Numbered (soughtIn st.tokens)
  composite : t.isComposite = true → rs.Forall₂ (h.Seeks t) sts
  single : t.isComposite = false →
    rs.Forall₂ (fun r e => ∃ k, h.primaryKey? r = some ⟨[k]⟩ ∧
        e = ((t.key.head t.key_ne_nil).name, some k.toValue))
      (sts.flatMap fun st => st.bound (soughtIn st.tokens))

variable {h : Heap} {t : RecordType} {r : RecordId} {rs : List RecordId} {st : Statement}

open Statement

private theorem insertStatement_aligned (hq : h.Unquoted t rs) (hr : r ∈ rs)
    (ht : (h.get r).type = t)
    (hkeys : (t.key.map (·.name)).Nodup) (hst : h.insertStatement t r = .ok st) :
    h.InsertAligned t r st := by
  obtain ⟨keyed, hkeyed, rfl⟩ := insertStatement_newCells ht hst
  have htokens := tokens_eq (s := .insert t.table (h.newCells t r keyed.reduceOption)
      ((t.key.filter KeyColumn.isGenerated).map (·.name))) <| by
    intro c hc
    simp only [mentioned, List.cons_append, List.mem_cons, List.mem_append] at hc
    rcases hc with rfl | hc | hc
    · exact hq.table
    · obtain ⟨e, he, rfl⟩ := List.mem_map.mp hc
      exact (newCell_of_mem ht hkeyed he).unquoted hq hr
    · exact hq.map_key c ((List.filter_sublist.map _).subset hc)
  have hlisted := listedIn_insert t.table (h.newCells t r keyed.reduceOption)
    ((t.key.filter KeyColumn.isGenerated).map (·.name))
  have hcolumns := congrArg (List.map Prod.fst) hlisted
  rw [List.zipIdx_map_fst] at hcolumns
  constructor
  case numbered =>
    constructor
    · rw [htokens, numbersIn_insert, params, List.length_map]
    · rw [htokens, hlisted, List.zipIdx_map_snd, List.length_map, numbersIn_insert]
  case cells =>
    rw [htokens, hlisted, bound_assigned (List.append_nil _).symm]
    intro e he
    obtain ⟨a, ha, rfl⟩ := List.mem_map.mp he
    exact ⟨a.2, rfl, newCell_of_mem ht hkeyed ha⟩
  case distinct =>
    rw [htokens, hcolumns]
    exact nodup_newCells ht hkeys hkeyed
  case key =>
    rw [htokens, hcolumns]
    exact fun c hc hown => mem_newCells_of_mem (mem_keyed ht hkeyed hc hown)
  case values =>
    rw [htokens, hcolumns]
    exact fun column hv => mem_newCells_of_values hv _
  case references =>
    rw [htokens, hcolumns]
    exact fun field ref href hf => mem_newCells_of_reference href hf _
  case returned => rw [htokens, returnedIn_insert]
  case returning =>
    rw [htokens, returning_mem_wordsIn, ne_eq, List.map_eq_nil_iff, List.filter_eq_nil_iff]
    simp

private theorem updateStatement?_aligned (hq : h.Unquoted t rs) (hr : r ∈ rs)
    (ht : (h.get r).type = t)
    (hst : h.updateStatement? t r = .ok (some st)) : h.UpdateAligned t r st := by
  obtain ⟨key, hkey, rfl⟩ := updateStatement?_ok hst
  have hlength := length_values ht hkey
  have htokens := tokens_eq (s := .update t.table (h.updates t r) (t.keyMatch key)) <| by
    intro c hc
    simp only [mentioned, List.cons_append, List.mem_cons, List.mem_append] at hc
    rcases hc with rfl | hc | hc
    · exact hq.table
    · obtain ⟨e, he, rfl⟩ := List.mem_map.mp hc
      exact (changedCell_of_mem he).unquoted hq hr
    · exact hq.map_key c hc
  have hparams : (Statement.update t.table (h.updates t r) (t.keyMatch key)).params =
      (h.updates t r).map Prod.snd ++ key.values := rfl
  have hsought := bound_zipIdx (hparams.trans (List.append_nil _).symm) hlength
  rw [List.length_map] at hsought
  constructor
  case numbered =>
    constructor
    · rw [htokens, numbersIn_update, hparams, List.length_append, List.length_map, ← hlength]
      rfl
    · rw [htokens, setIn_update, soughtIn_update, List.map_append, List.zipIdx_map_snd,
        List.zipIdx_map_snd, numbersIn_update, List.length_map, Nat.add_comm _ 1,
        List.range'_append_1]
  case cells =>
    rw [htokens, setIn_update, bound_assigned hparams]
    intro e he
    obtain ⟨a, ha, rfl⟩ := List.mem_map.mp he
    exact ⟨a.2, rfl, changedCell_of_mem ha⟩
  case sought =>
    rw [Seeks, htokens, soughtIn_update]
    exact ⟨key, hkey, hsought⟩

private theorem seeks_of_params (ht : (h.get r).type = t) {key : RowKey}
    (hkey : h.primaryKey? r = some key) (hparams : st.params = key.values)
    (hnumbers : numbersIn st.tokens = List.range' 1 (t.keyMatch key).columns.length)
    (hsought : soughtIn st.tokens = (t.keyMatch key).columns.zipIdx 1) :
    st.Numbered (soughtIn st.tokens) ∧ h.Seeks t r st := by
  have hlength := length_values ht hkey
  constructor
  · constructor
    · rw [hnumbers, hparams, ← hlength]
      rfl
    · rw [hsought, hnumbers, List.zipIdx_map_snd]
  · rw [Seeks, hsought]
    exact ⟨key, hkey, bound_zipIdx_one (hparams.trans (List.append_nil _).symm) hlength⟩

private theorem probeStatement_aligned (hq : h.Unquoted t rs) (ht : (h.get r).type = t)
    (hst : h.probeStatement t r = .ok st) :
    st.Numbered (soughtIn st.tokens) ∧ h.Seeks t r st := by
  obtain ⟨key, hkey, rfl⟩ := probeStatement_ok hst
  have htokens := tokens_eq (s := .probe t.table (t.keyMatch key))
    (List.forall_mem_cons.mpr ⟨hq.table, hq.map_key⟩)
  apply seeks_of_params ht hkey rfl
  · rw [htokens, numbersIn_probe]
  · rw [htokens, soughtIn_probe]

private theorem delete_aligned (hq : h.Unquoted t rs) (ht : (h.get r).type = t) {key : RowKey}
    (hkey : h.primaryKey? r = some key) :
    (delete t.table (t.keyMatch key)).Numbered (soughtIn (delete t.table (t.keyMatch key)).tokens) ∧
      h.Seeks t r (delete t.table (t.keyMatch key)) := by
  have htokens := tokens_eq (s := .delete t.table (t.keyMatch key))
    (List.forall_mem_cons.mpr ⟨hq.table, hq.map_key⟩)
  apply seeks_of_params ht hkey rfl
  · rw [htokens, numbersIn_delete]
  · rw [htokens, soughtIn_delete]

private theorem deleteAny_numbered (hq : h.Unquoted t rs) (keys : List Value) {column : String}
    (hcolumn : '"' ∉ column.toList) :
    soughtIn (deleteAny t.table column keys).tokens = (List.range' 1 keys.length).map (column, ·) ∧
      (deleteAny t.table column keys).Numbered
        (soughtIn (deleteAny t.table column keys).tokens) := by
  have htokens := tokens_eq (s := .deleteAny t.table column keys) <| by
    simpa [mentioned] using ⟨hq.table, hcolumn⟩
  have hsought : soughtIn (deleteAny t.table column keys).tokens =
      (List.range' 1 keys.length).map (column, ·) := by rw [htokens, soughtIn_deleteAny]
  have hnumbers : numbersIn (deleteAny t.table column keys).tokens =
      List.range' 1 keys.length := by rw [htokens, numbersIn_deleteAny]
  refine ⟨hsought, hnumbers, ?_⟩
  rw [hsought, hnumbers, List.map_map]
  exact List.map_id _

private theorem forall₂_values (harity : ∀ r ∈ rs, (h.get r).type.arity = 1) {keys : List RowKey}
    (hkeys : rs.Forall₂ (fun r key => h.primaryKey? r = some key) keys) (column : String) :
    rs.Forall₂ (fun r e => ∃ k, h.primaryKey? r = some ⟨[k]⟩ ∧ e = (column, some k.toValue))
      ((keys.flatMap (·.values)).map fun v => (column, some v)) := by
  induction hkeys with
  | nil => exact .nil
  | @cons r key rs keys hkey hkeys ih =>
    obtain ⟨hr, hrs⟩ := List.forall_mem_cons.mp harity
    obtain ⟨k, rfl⟩ := primaryKey?_single hkey hr
    exact .cons ⟨k, hkey, rfl⟩ (ih hrs)

private theorem deleteStatements_aligned {sts : List Statement} (hq : h.Unquoted t rs)
    (ht : ∀ r ∈ rs, (h.get r).type = t) (hst : h.deleteStatements t rs = .ok sts) :
    h.DeleteAligned t rs sts := by
  obtain ⟨keys, hkeys, rfl⟩ := deleteStatements_eq hst
  cases hkeys with
  | nil => exact ⟨by simp [RecordType.deletes], fun _ => .nil, fun _ => .nil⟩
  | @cons r key rs keys hkey hrest =>
    have hall : (r :: rs).Forall₂ (fun r key => (h.get r).type = t ∧ h.primaryKey? r = some key)
        (key :: keys) := (List.forall₂_and_left _ _).mpr ⟨ht, .cons hkey hrest⟩
    cases hc : t.isComposite with
    | true =>
      rw [RecordType.deletes_composite hc]
      refine ⟨fun st hst => ?_, fun _ => ?_, fun hf => absurd (hc.symm.trans hf) (by simp)⟩
      · obtain ⟨key', hk', rfl⟩ := List.mem_map.mp hst
        obtain ⟨r', -, htype, hkey'⟩ := exists_of_mem_forall₂ hall hk'
        exact (delete_aligned hq htype hkey').1
      · apply List.forall₂_map_right_iff.mpr
        exact hall.imp fun r' key' hr' => (delete_aligned hq hr'.1 hr'.2).2
    | false =>
      have hdeletes := RecordType.deletes_single hc (List.cons_ne_nil key keys)
      have harity : t.arity = 1 := by
        have hpos := List.length_pos_iff.mpr t.key_ne_nil
        have hle : ¬ 1 < t.arity := by simpa [RecordType.isComposite] using hc
        exact Nat.le_antisymm (Nat.le_of_not_lt hle) hpos
      obtain ⟨hsought, hnumbered⟩ := deleteAny_numbered hq ((key :: keys).flatMap (·.values))
        (hq.key _ (List.head_mem t.key_ne_nil))
      have hparams : (deleteAny t.table (t.key.head t.key_ne_nil).name
          ((key :: keys).flatMap (·.values))).params = (key :: keys).flatMap (·.values) := rfl
      rw [hdeletes]
      refine ⟨by simpa using hnumbered, fun hf => absurd (hc.symm.trans hf) (by simp), fun _ => ?_⟩
      rw [List.flatMap_singleton, hsought, bound_range' hparams]
      exact forall₂_values (fun r' hr' => (congrArg RecordType.arity (ht r' hr')).trans harity)
        (.cons hkey hrest) _

/-- The statements that are built for the records of a type, if no name holds a double quote: the
placeholders of each are numbered from 1 to the number of its parameters, and each of these belongs
to the column that its placeholder stands for. An insert writes no column twice. -/
theorem statements_aligned (hkeys : (t.key.map (·.name)).Nodup)
    (ht : ∀ r ∈ rs, (h.get r).type = t) (hq : h.Unquoted t rs) :
    (∀ r ∈ rs, ∀ st, h.insertStatement t r = .ok st → h.InsertAligned t r st) ∧
      (∀ r ∈ rs, ∀ st, h.updateStatement? t r = .ok (some st) → h.UpdateAligned t r st) ∧
      (∀ r ∈ rs, ∀ st, h.probeStatement t r = .ok st →
        st.Numbered (soughtIn st.tokens) ∧ h.Seeks t r st) ∧
      ∀ sts, h.deleteStatements t rs = .ok sts → h.DeleteAligned t rs sts := by
  refine ⟨fun r hr st hst => ?_, fun r hr st hst => ?_, fun r hr st hst => ?_, fun sts hst => ?_⟩
  · exact insertStatement_aligned hq hr (ht r hr) hkeys hst
  · exact updateStatement?_aligned hq hr (ht r hr) hst
  · exact probeStatement_aligned hq (ht r hr) hst
  · exact deleteStatements_aligned hq ht hst

/-! A line of an order, whose key is the key of the order and a position. -/

def lineType : RecordType where
  name := "line"
  table := "line"
  store := "main"
  key := [.bigInt "order_id" (.reference "order"), .bigInt "pos" .supplied]
  columns := ["label"]
  references := [{ name := "order", column := "order_id", target := "order" }]
  key_ne_nil := by simp
  sources_declared := by simp [KeyColumn.undeclared?, KeyColumn.bigInt]

def orderLine : Heap :=
  ((∅ : Heap).set ⟨0⟩ ((Record.create default).setSlot 0 (.int64 7))).set ⟨1⟩
    { (Record.create lineType).setSlot 1 (.int64 2) with
      values := (∅ : NameMap Value).insert "label" (.text "tea")
      references := (∅ : NameMap RecordId).insert "order" ⟨0⟩ }

theorem statements_aligned_line :
    (∃ st, orderLine.insertStatement lineType ⟨1⟩ = .ok st ∧
      orderLine.InsertAligned lineType ⟨1⟩ st ∧
      st.sql = "INSERT INTO \"line\" (\"order_id\", \"pos\", \"label\") VALUES ($1, $2, $3)" ∧
      st.params = [.bigInt 7, .bigInt 2, .text "tea"]) ∧
    ∃ sts, orderLine.deleteStatements lineType [⟨1⟩] = .ok sts ∧
      orderLine.DeleteAligned lineType [⟨1⟩] sts ∧
      sts.map (·.sql) = ["DELETE FROM \"line\" WHERE \"order_id\" = $1 AND \"pos\" = $2"] := by
  have hq : orderLine.Unquoted lineType [⟨1⟩] :=
    ⟨by decide, by decide, by decide, by decide +kernel⟩
  obtain ⟨hinsert, -, -, hdelete⟩ :=
    statements_aligned (t := lineType) (by decide) (by decide +kernel) hq
  refine ⟨⟨_, rfl, hinsert ⟨1⟩ (by simp) _ rfl, by decide +kernel, by decide +kernel⟩,
    _, rfl, hdelete _ rfl, by decide +kernel⟩

end Heap

end UnitOfWork
