import UnitOfWork.Proofs.Commit.DeletedRows
import UnitOfWork.Proofs.Record.KeyChains
import UnitOfWork.Proofs.Sql.Alignment

/-!
# The key that is inserted and the key that is sought

Every statement that looks for the row of a record binds the key of the record, with each component
as its column holds it. An insert takes what a column has from a reference as the referenced record
holds it. The two are the same exactly if the kinds of the two columns are.
-/

namespace UnitOfWork

private theorem Key.convert?_eq_self {kind : KeyKind} {k k' : Key}
    (hk : k.convert? kind = some k') :
    k = k' ↔ k.kind = kind := by
  constructor
  · rintro rfl
    exact Key.kind_convert? hk
  · intro hkind
    rw [Key.convert?, if_pos hkind] at hk
    exact Option.some.inj hk

/-- The columns of the key that the store does not generate, with their components. -/
def RecordType.ownKey (t : RecordType) (key : RowKey) : List (KeyColumn × Key) :=
  (t.key.zip key.components).filter fun e => !e.1.isGenerated

/-- The statement looks for a row by the key and by nothing else, or for this and other rows. -/
def Statement.SeeksKey (t : RecordType) (key : RowKey) : Statement → Prop
  | insert _ _ _ => False
  | update _ _ m | probe _ m | delete _ m => m = t.keyMatch key
  | deleteAny _ column keys =>
    [column] = t.key.map (·.name) ∧ ∃ before after, keys = before ++ key.values ++ after

namespace Heap

variable {h : Heap} {t : RecordType} {r target : RecordId} {rs : List RecordId} {st : Statement}
  {c : KeyColumn} {slot : Option Key} {key : RowKey} {k : Key} {field : String}

/-- The component that a column takes from a reference is of the kind of the column. -/
def SourceFits (h : Heap) (r : RecordId) (c : KeyColumn) : Prop :=
  ∀ field target source, c.source = .reference field →
    (h.get r).references.get? field = some target → h.primaryKey? target = some ⟨[source]⟩ →
      source.kind = c.kind

private theorem component?_source (hs : c.source = .reference field)
    (hk : h.component? (h.resolve? maxReferenceDepth) r (c, slot) = some k) :
    ∃ target source, (h.get r).references.get? field = some target ∧
      h.primaryKey? target = some ⟨[source]⟩ ∧ source.convert? c.kind = some k := by
  rw [component?_reference hs] at hk
  obtain ⟨target, htarget, hk⟩ := Option.bind_eq_some_iff.mp hk
  split at hk
  · cases hk
  · obtain ⟨source, hsource, hconvert⟩ := Option.bind_eq_some_iff.mp hk
    obtain ⟨key, hkey, hsingle⟩ := Option.bind_eq_some_iff.mp hsource
    obtain rfl := RowKey.single?_eq_some.mp hsingle
    exact ⟨target, source, htarget, resolve?_succ hkey, hconvert⟩

private theorem keyAssignment_component
    (hk : h.component? (h.resolve? maxReferenceDepth) r (c, slot) = some k) :
    (c.isGenerated = true ∧ h.keyAssignment r (c, slot) = .ok none) ∨
      c.isGenerated = false ∧ ∃ v, h.keyAssignment r (c, slot) = .ok (some (c.name, v)) ∧
        (v = k.toValue ↔ h.SourceFits r c) := by
  cases hs : c.source with
  | supplied =>
    rw [component?_own (by simp [hs])] at hk
    subst hk
    refine .inr ⟨by simp [KeyColumn.isGenerated, hs], k.toValue, by simp [keyAssignment, hs], ?_⟩
    simp [SourceFits, hs]
  | generated => exact .inl ⟨by simp [KeyColumn.isGenerated, hs], by simp [keyAssignment, hs]⟩
  | reference field =>
    obtain ⟨target, source, htarget, hsource, hconvert⟩ := component?_source hs hk
    have hvalue : h.referenceValue r field = source.toValue := by
      rw [referenceValue_of_get? htarget, foreignKey, hsource]
      rfl
    have hfits : h.SourceFits r c ↔ source.kind = c.kind := by
      constructor
      · exact fun hf => hf field target source hs htarget hsource
      · intro hkind field' target' source' hs' htarget' hsource'
        obtain rfl := KeySource.reference.inj (hs.symm.trans hs')
        obtain rfl := Option.some.inj (htarget.symm.trans htarget')
        rw [hsource, Option.some.injEq, RowKey.mk.injEq, List.cons.injEq] at hsource'
        exact hsource'.1 ▸ hkind
    refine .inr ⟨by simp [KeyColumn.isGenerated, hs], source.toValue, ?_, ?_⟩
    · simp [keyAssignment, hs, hvalue]
    · rw [Key.toValue_injective.eq_iff, Key.convert?_eq_self hconvert, hfits]

private theorem keyed_components {l : List (KeyColumn × Option Key)} {ks : List Key}
    (hks : l.Forall₂ (fun e k => h.component? (h.resolve? maxReferenceDepth) r e = some k) ks) :
    ∃ keyed, l.mapM (h.keyAssignment r) = .ok keyed ∧
      (((l.map Prod.fst).zip ks).filter fun e => !e.1.isGenerated).Forall₂
        (fun e a => a.1 = e.1.name ∧ (a.2 = e.2.toValue ↔ h.SourceFits r e.1))
        keyed.reduceOption := by
  induction hks with
  | nil => exact ⟨[], rfl, .nil⟩
  | @cons e k l ks hk hks ih =>
    obtain ⟨keyed, hkeyed, hcells⟩ := ih
    rcases keyAssignment_component hk with ⟨hg, ha⟩ | ⟨hg, v, ha, hv⟩
    · refine ⟨none :: keyed, by rw [List.mapM_cons, ha, hkeyed]; rfl, ?_⟩
      simpa [hg] using hcells
    · refine ⟨some (e.1.name, v) :: keyed, by rw [List.mapM_cons, ha, hkeyed]; rfl, ?_⟩
      simpa [hg] using ⟨hv, hcells⟩

private theorem prefix_addMissing (acc more : List (String × Value)) :
    acc <+: addMissing acc more := by
  induction more generalizing acc with
  | nil => exact List.prefix_rfl
  | cons e more ih =>
    rw [addMissing, List.foldl_cons]
    split
    · exact ih acc
    · exact (List.prefix_append acc [e]).trans (ih (acc ++ [e]))

private theorem map_name_single (hc : t.isComposite = false) :
    [(t.key.head t.key_ne_nil).name] = t.key.map (·.name) := by
  have hlength : t.key.length ≤ 1 := by
    simpa [RecordType.isComposite, RecordType.arity] using of_decide_eq_false hc
  obtain ⟨c, rest, hkey⟩ := List.exists_cons_of_ne_nil t.key_ne_nil
  cases rest with
  | nil => simp [hkey]
  | cons d rest => simp [hkey] at hlength

/-- Among the deletes of rows there is one for each of their keys. -/
theorem seeksKey_of_mem_deletes {keys : List RowKey} (hkey : key ∈ keys) :
    ∃ st ∈ t.deletes keys, st.SeeksKey t key := by
  have hne : keys.isEmpty = false := by
    rw [List.isEmpty_eq_false_iff]
    exact List.ne_nil_of_mem hkey
  rw [RecordType.deletes, hne]
  cases hc : t.isComposite with
  | true => exact ⟨_, List.mem_map_of_mem hkey, rfl⟩
  | false =>
    obtain ⟨before, after, rfl⟩ := List.append_of_mem hkey
    refine ⟨_, List.mem_singleton_self _, map_name_single hc, before.flatMap (·.values),
      after.flatMap (·.values), ?_⟩
    simp

private theorem insertStatement_of_keyed {keyed : List (Option (String × Value))}
    (hkeyed : (h.slotsAs t r).mapM (h.keyAssignment r) = .ok keyed) :
    ∃ columns, h.insertStatement t r =
      .ok (.insert t.table (h.newCells t r keyed.reduceOption) columns) := by
  rw [insertStatement, hkeyed]
  exact ⟨_, rfl⟩

/-- For a record whose key is known, every statement that looks for its row binds the key of the
record. An insert binds to a column of its own the same as these statements if and only if the
column is supplied or takes a component of its own kind from the referenced record. -/
theorem insert_binds_sought_key (ht : (h.get r).type = t) (hkey : h.primaryKey? r = some key) :
    (∃ st cells, h.insertStatement t r = .ok st ∧ cells <+: st.assigned ∧
        (t.ownKey key).Forall₂
          (fun e a => a.1 = e.1.name ∧ (a.2 = e.2.toValue ↔ h.SourceFits r e.1)) cells) ∧
      (∀ st, h.updateStatement? t r = .ok (some st) → st.SeeksKey t key) ∧
      (∃ st, h.probeStatement t r = .ok st ∧ st.SeeksKey t key) ∧
      ∀ rs sts, r ∈ rs → h.deleteStatements t rs = .ok sts → ∃ st ∈ sts, st.SeeksKey t key := by
  refine ⟨?_, fun st hst => ?_, ?_, fun rs sts hr hst => ?_⟩
  · obtain ⟨ks, hks, rfl⟩ := Option.map_eq_some_iff.mp hkey
    obtain ⟨keyed, hkeyed, hcells⟩ := keyed_components (mapM_eq_some.mp hks)
    rw [Record.map_fst_keySlots, ht] at hcells
    rw [Record.keySlots, ht] at hkeyed
    obtain ⟨columns, hst⟩ := insertStatement_of_keyed hkeyed
    exact ⟨_, _, hst, (prefix_addMissing _ _).trans (prefix_addMissing _ _), hcells⟩
  · obtain ⟨key', hkey', rfl⟩ := updateStatement?_ok hst
    exact congrArg t.keyMatch (Option.some.inj (hkey'.symm.trans hkey))
  · refine ⟨.probe t.table (t.keyMatch key), ?_, rfl⟩
    rw [probeStatement, keyMatch, hkey]
    rfl
  · obtain ⟨keys, hkeys, rfl⟩ := deleteStatements_eq hst
    obtain ⟨key', hmem, hkey'⟩ := exists_of_mem_forall₂ hkeys.flip hr
    rw [hkey, Option.some.injEq] at hkey'
    exact seeksKey_of_mem_deletes (hkey' ▸ hmem)

/-! The order of a line has a key of the same kind. -/

theorem insert_binds_sought_key_line :
    ∃ st cells, orderLine.insertStatement lineType ⟨1⟩ = .ok st ∧ cells <+: st.assigned ∧
      cells.map Prod.snd = [.bigInt 7, .bigInt 2] := by
  have hkey : orderLine.primaryKey? ⟨1⟩ = some ⟨[.int64 7, .int64 2]⟩ := by decide +kernel
  have hown : lineType.ownKey ⟨[.int64 7, .int64 2]⟩ =
      [(.bigInt "order_id" (.reference "order"), .int64 7),
        (.bigInt "pos" .supplied, .int64 2)] := by
    decide +kernel
  have hsource : orderLine.SourceFits ⟨1⟩ (.bigInt "order_id" (.reference "order")) := by
    intro field target source hs htarget hsource
    obtain rfl := KeySource.reference.inj hs
    obtain rfl : ⟨0⟩ = target := Option.some.inj (Eq.trans (by decide +kernel) htarget)
    have hfound : orderLine.primaryKey? ⟨0⟩ = some ⟨[.int64 7]⟩ := by decide +kernel
    rw [hfound, Option.some.injEq, RowKey.mk.injEq, List.cons.injEq] at hsource
    exact hsource.1 ▸ rfl
  obtain ⟨⟨st, cells, hst, hprefix, hcells⟩, -⟩ := insert_binds_sought_key rfl hkey
  have htype : (orderLine.get ⟨1⟩).type = lineType := rfl
  rw [htype, hown] at hcells
  obtain _ | ⟨⟨-, horder⟩, _ | ⟨⟨-, hpos⟩, _ | _⟩⟩ := hcells
  refine ⟨st, _, hst, hprefix, ?_⟩
  have hsupplied : orderLine.SourceFits ⟨1⟩ (.bigInt "pos" .supplied) := by
    intro field target source hs
    cases hs
  simp [horder.mpr hsource, hpos.mpr hsupplied, Key.toValue]

/-! The key of a card is a `BIGINT`, and a badge has it in a column of type `INTEGER`. -/

theorem not_insert_binds_sought_key :
    ¬ ∀ (h : Heap) (t : RecordType) (r : RecordId) (key : RowKey) (st : Statement),
      (h.get r).type = t → h.primaryKey? r = some key → h.insertStatement t r = .ok st →
        ∀ e ∈ t.ownKey key, (e.1.name, e.2.toValue) ∈ st.assigned := by
  intro hall
  have hbound := hall (stamped 7) badgeType ⟨1⟩ ⟨[.int32 7]⟩ _ rfl (by decide +kernel) rfl
    (badgeColumn, .int32 7) (by decide +kernel)
  revert hbound
  decide +kernel

end Heap

end UnitOfWork
