import UnitOfWork.Proofs.Commit.ForeignKeys
import UnitOfWork.Proofs.Commit.SettledRegistry
import UnitOfWork.Proofs.Tracking.Recreating

/-!
# Reading a row again

A row that is read again refreshes the record that is tracked for it. What was assigned and is not
written yet stays as it is, and so does the key, so that the update that is due is the same before
and after; a key that leads back to the record through the records it refers to is the same too.
-/

namespace UnitOfWork

private theorem FinMap.lookup_filter {κ α : Type} [DecidableEq κ] (keep : κ → Bool) (k : κ)
    (l : List (κ × α)) :
    lookup k (l.filter fun e => keep e.1) = if keep k then lookup k l else none := by
  induction l with
  | nil => simp [lookup]
  | cons e rest ih =>
    obtain ⟨j, a⟩ := e
    by_cases hj : j = k
    · subst hj
      by_cases hk : keep j <;> simp [lookup, hk, ih]
    · by_cases hk : keep j <;> simp [lookup, hk, hj, ih]

namespace NameMap

variable {α : Type}

private theorem get?_insertAll_filter (m m' : NameMap α) (keep : String → Bool) (name : String) :
    (m.insertAll (m'.entries.filter fun e => keep e.1)).get? name =
      if keep name then (m'.get? name).or (m.get? name) else m.get? name := by
  have hsub : (m'.entries.filter fun e => keep e.1).Sublist m'.entries := List.filter_sublist
  rw [get?_insertAll_of_nodup m (m'.nodup_names.sublist (hsub.map _)), FinMap.lookup_filter]
  split
  · rfl
  · rfl

private theorem insertAll_of_get? {m : NameMap α} {l : List (String × α)}
    (h : ∀ e ∈ l, m.get? e.1 = some e.2) : m.insertAll l = m := by
  induction l with
  | nil => rfl
  | cons e rest ih =>
    obtain ⟨he, hrest⟩ := List.forall_mem_cons.mp h
    change (m.insert e.1 e.2).insertAll rest = m
    rw [insert_of_get? he, ih hrest]

private theorem insertAll_filter_twice (m m' : NameMap α) (keep : String → Bool) :
    (m.insertAll (m'.entries.filter fun e => keep e.1)).insertAll
        (m'.entries.filter fun e => keep e.1) =
      m.insertAll (m'.entries.filter fun e => keep e.1) := by
  refine insertAll_of_get? fun e he => ?_
  obtain ⟨hmem, hkeep⟩ := List.mem_filter.mp he
  rw [get?_insertAll_filter, if_pos hkeep, mem_entries.mp hmem, Option.some_or]

end NameMap

namespace Record

variable {x : Record}

private theorem fill_of_isSome {ss : List (Option Key)} (hs : ∀ s ∈ ss, s.isSome)
    (os : List (Option Key)) : fill ss os = ss := by
  induction ss generalizing os with
  | nil => cases os <;> rfl
  | cons s ss ih =>
    obtain ⟨hsome, hrest⟩ := List.forall_mem_cons.mp hs
    obtain ⟨k, rfl⟩ := Option.isSome_iff_exists.mp hsome
    cases os with
    | nil => rfl
    | cons o os =>
      rw [fill, ih hrest]
      rfl

private theorem fill_fill (ss os : List (Option Key)) : fill (fill ss os) os = fill ss os := by
  induction ss generalizing os with
  | nil => cases os <;> rfl
  | cons s ss ih =>
    cases os with
    | nil => rfl
    | cons o os =>
      rw [fill, fill, ih]
      cases s <;> cases o <;> rfl

private theorem get?_values_merge (x fetched : Record) (name : String) :
    (x.merge fetched).values.get? name =
      if x.changed.contains name then x.values.get? name
      else (fetched.values.get? name).or (x.values.get? name) := by
  refine (NameMap.get?_insertAll_filter _ _ (fun n => !x.changed.contains n) name).trans ?_
  cases x.changed.contains name <;> rfl

private theorem get?_references_merge (x fetched : Record) (field : String) :
    (x.merge fetched).references.get? field =
      if x.changed.contains field then x.references.get? field
      else (fetched.references.get? field).or (x.references.get? field) := by
  refine (NameMap.get?_insertAll_filter _ _ (fun n => !x.changed.contains n) field).trans ?_
  cases x.changed.contains field <;> rfl

private theorem merge_eq_of_isSome (hs : ∀ s ∈ x.slots, s.isSome) (fetched : Record) :
    x.merge fetched = { x with
      values := (x.merge fetched).values, references := (x.merge fetched).references } := by
  simp only [merge, fillKey, fill_of_isSome hs]

private theorem merge_merge (x fetched : Record) :
    (x.merge fetched).merge fetched = x.merge fetched := by
  have hvalues := NameMap.insertAll_filter_twice x.values fetched.values
    fun n => !x.changed.contains n
  have hreferences := NameMap.insertAll_filter_twice x.references fetched.references
    fun n => !x.changed.contains n
  simp only [merge, fillKey, hvalues, hreferences, fill_fill]

end Record

namespace Heap

variable {h : Heap} {r f : RecordId}

/-- The key of the record is known, and none of its columns is taken from a reference. -/
structure HasOwnKey (h : Heap) (r : RecordId) : Prop where
  known : (h.primaryKey? r).isSome
  own : ∀ c ∈ (h.get r).type.key, ∀ field, c.source ≠ .reference field

private theorem HasOwnKey.slots (hr : h.HasOwnKey r) : ∀ s ∈ (h.get r).slots, s.isSome := by
  intro s hs
  have hlength : (h.get r).slots.length ≤ (h.get r).type.key.length :=
    Nat.le_of_eq (h.get r).slots_length
  rw [← List.map_snd_zip hlength] at hs
  obtain ⟨⟨c, s⟩, he, rfl⟩ := List.mem_map.mp hs
  have hc : c ∈ (h.get r).type.key := (List.of_mem_zip he).1
  have hsome := component?_isSome_of_primaryKey? hr.known he
  rwa [component?_own (hr.own c hc)] at hsome

/-- No key depends on what such a record takes over, whatever records it is taken through. -/
theorem HasOwnKey.resolve?_merge (hr : h.HasOwnKey r) (fetched : Record) (depth : Nat) :
    (h.modify r (·.merge fetched)).resolve? depth = h.resolve? depth := by
  refine resolve?_congr_of_key (fun q => ?_) (fun q => ?_) (fun q c hc field hs => ?_) depth
  all_goals
    by_cases hq : q = r
  · subst hq
    rw [get_modify_self]
    rfl
  · rw [get_modify_of_ne _ hq]
  · subst hq
    rw [get_modify_self, Record.merge_eq_of_isSome hr.slots]
  · rw [get_modify_of_ne _ hq]
  · subst hq
    exact absurd hs (hr.own c hc field)
  · rw [get_modify_of_ne _ hq]

private theorem HasOwnKey.foreignKey_merge (hr : h.HasOwnKey r) (fetched : Record)
    (target : RecordId) :
    (h.modify r (·.merge fetched)).foreignKey target = h.foreignKey target := by
  rw [foreignKey, foreignKey, primaryKey?, primaryKey?, hr.resolve?_merge]

private theorem HasOwnKey.assignment?_merge (hr : h.HasOwnKey r) (fetched : Record) (t : RecordType)
    {name : String} (hname : (h.get r).changed.contains name) :
    (h.modify r (·.merge fetched)).assignment? t r name = h.assignment? t r name := by
  have hreference : (h.modify r (·.merge fetched)).referenceValue r name =
      h.referenceValue r name := by
    rw [referenceValue, referenceValue, get_modify_self, Record.get?_references_merge,
      if_pos hname]
    simp only [hr.foreignKey_merge]
  have hvalue : ((h.modify r (·.merge fetched)).get r).values.get? name =
      (h.get r).values.get? name := by
    rw [get_modify_self, Record.get?_values_merge, if_pos hname]
  rw [assignment?, assignment?, hvalue, hreference]

private theorem HasOwnKey.updateStatement?_merge (hr : h.HasOwnKey r)
    (hnew : (h.get r).isNew = false) (fetched : Record) (t : RecordType) :
    (h.modify r (·.merge fetched)).updateStatement? t r = h.updateStatement? t r := by
  have hdirty : dirtyNames ((h.get r).merge fetched) = dirtyNames (h.get r) := by
    rw [dirtyNames, dirtyNames, hnew, show ((h.get r).merge fetched).isNew = false from hnew]
    rfl
  have hnames : ∀ name ∈ dirtyNames (h.get r), (h.get r).changed.contains name := by
    intro name hname
    rw [dirtyNames, hnew] at hname
    exact NameMap.mem_names.mp hname
  have hassigned : (dirtyNames (h.get r)).filterMap
        ((h.modify r (·.merge fetched)).assignment? t r) =
      (dirtyNames (h.get r)).filterMap (h.assignment? t r) :=
    List.filterMap_congr fun name hname => hr.assignment?_merge fetched t (hnames name hname)
  have hkey : (h.modify r (·.merge fetched)).primaryKey? r = h.primaryKey? r :=
    congrFun (hr.resolve?_merge fetched _) r
  obtain ⟨key, hknown⟩ := Option.isSome_iff_exists.mp hr.known
  have hmatch : (h.modify r (·.merge fetched)).keyMatch t r = h.keyMatch t r := by
    rw [keyMatch, keyMatch, hkey, hknown]
  rw [updateStatement?, updateStatement?, get_modify_self, hdirty, hassigned, hmatch]

/-- What holds of a record before and after it took over the copy `f` of its row. -/
structure Refetched (h h' : Heap) (r f : RecordId) : Prop where
  /-- No mark, no note of a change and no slot of the key is touched. -/
  frame : h'.get r =
    { h.get r with values := (h'.get r).values, references := (h'.get r).references }
  state : (h'.get r).state = (h.get r).state
  primaryKey : h'.primaryKey? r = h.primaryKey? r
  update : ∀ t, h'.updateStatement? t r = h.updateStatement? t r
  value : ∀ name, (h'.get r).values.get? name =
    if (h.get r).changed.contains name then (h.get r).values.get? name
    else ((h.get f).values.get? name).or ((h.get r).values.get? name)
  reference : ∀ field, (h'.get r).references.get? field =
    if (h.get r).changed.contains field then (h.get r).references.get? field
    else ((h.get f).references.get? field).or ((h.get r).references.get? field)
  again : h'.modify r (·.merge (h'.get f)) = h'

/-- A record that was written before takes over a copy of its row without a change to the update
that is due, to its key or to its state, and it has nothing left to take over then. Whether the copy
has the same type and the same key makes no difference. -/
theorem refetched_merge (hr : h.HasOwnKey r) (hnew : (h.get r).isNew = false) (hf : f ≠ r) :
    h.Refetched (h.modify r (·.merge (h.get f))) r f := by
  have hget : (h.modify r (·.merge (h.get f))).get r = (h.get r).merge (h.get f) :=
    get_modify_self h r _
  have hagain : ((h.modify r (·.merge (h.get f))).get r).merge (h.get f) =
      (h.modify r (·.merge (h.get f))).get r := by
    rw [hget, Record.merge_merge]
  exact {
    frame := by rw [hget]; exact Record.merge_eq_of_isSome hr.slots _
    state := by rw [hget]; rfl
    primaryKey := congrFun (hr.resolve?_merge _ _) r
    update := hr.updateStatement?_merge hnew _
    value := fun name => by rw [hget, Record.get?_values_merge]
    reference := fun field => by rw [hget, Record.get?_references_merge]
    again := by
      rw [get_modify_of_ne _ hf]
      exact modify_eq_self (mem_ids_modify.mpr (.inl rfl)) hagain }

/-! A note about a link that takes its key from the note, and a copy of its row. -/

def notedLink : Heap :=
  (((∅ : Heap).set ⟨0⟩
    { (((Record.persisted noteType).setSlot 0 (.int64 1)).setValue "text" (.text "mine")) with
      references := (∅ : NameMap RecordId).insert "about" ⟨1⟩
      changed := ((∅ : NameSet).add "about").add "text" }).set ⟨1⟩ (link "link" ⟨0⟩)).set ⟨2⟩
    { (((Record.persisted noteType).setSlot 0 (.int64 1)).assignValue "text" (.text "theirs")) with
      references := (∅ : NameMap RecordId).insert "about" ⟨2⟩ }

private theorem notedLink_hasOwnKey : notedLink.HasOwnKey ⟨0⟩ where
  known := by decide +kernel
  own c hc field hs := by
    obtain rfl : c = .bigInt "number" .supplied := List.mem_singleton.mp hc
    cases hs

theorem refetched_merge_note :
    notedLink.updateStatement? noteType ⟨0⟩ =
        .ok (some (.update "note" [("about_id", .bigInt 1), ("text", .text "mine")]
          { columns := ["number"], values := [.bigInt 1] })) ∧
      notedLink.Refetched (notedLink.modify ⟨0⟩ (·.merge (notedLink.get ⟨2⟩))) ⟨0⟩ ⟨2⟩ :=
  ⟨eq_ok_of_toOption (by decide +kernel),
    refetched_merge notedLink_hasOwnKey (by decide +kernel) (by decide)⟩

end Heap

end UnitOfWork
