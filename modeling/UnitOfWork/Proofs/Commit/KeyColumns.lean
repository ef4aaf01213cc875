import UnitOfWork.Proofs.Commit.BoundValues
import UnitOfWork.Proofs.Commit.InsertedKeys
import UnitOfWork.Proofs.Tracking.Batches
import UnitOfWork.Proofs.Tracking.Settling

/-!
# The key columns of an insert

An insert binds a key column that the application supplies to what is in the slot, and fails if
there is nothing. One that is taken from a reference it binds to the key of the target, or to NULL
if that is not known. Since such a key is fixed by then, an insert binds what the key still is when
the commit has ended, however it ends.
-/

namespace UnitOfWork

namespace Statement

/-- The column is assigned, and never to NULL. -/
def Fills (st : Statement) (column : String) : Prop :=
  (∃ e ∈ st.assigned, e.1 = column) ∧ ∀ e ∈ st.assigned, e.1 = column → e.2 ≠ .null

instance (st : Statement) (column : String) : Decidable (st.Fills column) :=
  inferInstanceAs (Decidable (_ ∧ _))

end Statement

private theorem Key.toValue_ne_null (k : Key) : k.toValue ≠ .null := by
  cases k <;> exact fun h => Value.noConfusion h

namespace Heap

/-- What an insert of the record binds to key columns: the supplied ones to key components, those
that are taken from references to the foreign keys that these have now. -/
structure BindsKey (h : Heap) (r : RecordId) (st : Statement) : Prop where
  supplied : ∀ c ∈ (h.get r).type.key, c.source = .supplied →
    ∃ k : Key, (c.name, k.toValue) ∈ st.assigned
  reference : ∀ c ∈ (h.get r).type.key, ∀ field, c.source = .reference field →
    (c.name, h.referenceValue r field) ∈ st.assigned
  only : ∀ c ∈ (h.get r).type.key, c.isGenerated = false → ∀ v, (c.name, v) ∈ st.assigned →
    (∃ k : Key, v = k.toValue) ∨
      ∃ c' ∈ (h.get r).type.key, ∃ field,
        c'.source = .reference field ∧ v = h.referenceValue r field

/-- Every reference that the key of the record is taken from is to a record with a known key of one
component. -/
def SourcesKnown (h : Heap) (r : RecordId) : Prop :=
  ∀ c ∈ (h.get r).type.key, ∀ field, c.source = .reference field →
    ∃ target k, (h.get r).references.get? field = some target ∧ h.primaryKey? target = some ⟨[k]⟩

variable {h h' : Heap} {r u : RecordId} {st : Statement} {c : KeyColumn} {field : String}

private theorem referenceValue_ne_null : h.referenceValue r field ≠ .null ↔
    ∃ target k, (h.get r).references.get? field = some target ∧
      h.primaryKey? target = some ⟨[k]⟩ := by
  rw [referenceValue]
  cases (h.get r).references.get? field with
  | none => simp
  | some target =>
    simp only [foreignKey]
    cases hk : (h.primaryKey? target).bind RowKey.single? with
    | none =>
      refine iff_of_false (fun hne => hne rfl) ?_
      rintro ⟨_, k, ⟨⟩, hkey⟩
      simp [hkey, RowKey.single?] at hk
    | some k =>
      obtain ⟨key, hkey, hsingle⟩ := Option.bind_eq_some_iff.mp hk
      refine iff_of_true k.toValue_ne_null ⟨target, k, rfl, ?_⟩
      rw [hkey, RowKey.single?_eq_some.mp hsingle]

/-- An insert binds no NULL to the columns of a key if and only if every key that this one is taken
from is known. -/
theorem BindsKey.fills_iff (hb : h.BindsKey r st) :
    (∀ c ∈ (h.get r).type.key, c.isGenerated = false → st.Fills c.name) ↔ h.SourcesKnown r := by
  constructor
  · intro hfills c hc field hs
    have hgenerated : c.isGenerated = false := by rw [KeyColumn.isGenerated, hs]; rfl
    have hentry := hb.reference c hc field hs
    exact referenceValue_ne_null.mp ((hfills c hc hgenerated).2 _ hentry rfl)
  · intro hknown c hc hg
    constructor
    · rcases hs : c.source with _ | _ | field
      · obtain ⟨k, hk⟩ := hb.supplied c hc hs
        exact ⟨_, hk, rfl⟩
      · simp [KeyColumn.isGenerated, hs] at hg
      · exact ⟨_, hb.reference c hc field hs, rfl⟩
    · rintro ⟨_, v⟩ he rfl
      rcases hb.only c hc hg v he with ⟨k, rfl⟩ | ⟨c', hc', field, hs, rfl⟩
      · exact k.toValue_ne_null
      · exact referenceValue_ne_null.mpr (hknown c' hc' field hs)

theorem BindsKey.congr (hb : h.BindsKey r st) (ht : (h'.get r).type = (h.get r).type)
    (hv : ∀ c ∈ (h.get r).type.key, ∀ field, c.source = .reference field →
      h'.referenceValue r field = h.referenceValue r field) : h'.BindsKey r st where
  supplied := by rw [ht]; exact hb.supplied
  reference := by
    rw [ht]
    intro c hc field hs
    rw [hv c hc field hs]
    exact hb.reference c hc field hs
  only := by
    rw [ht]
    intro c hc hg v he
    refine (hb.only c hc hg v he).imp_right ?_
    rintro ⟨c', hc', field, hs, rfl⟩
    exact ⟨c', hc', field, hs, (hv c' hc' field hs).symm⟩

theorem mem_of_mem_addMissing {acc more : List (String × Value)} {e a : String × Value}
    (he : e ∈ addMissing acc more) (ha : a ∈ acc) (hname : a.1 = e.1) : e ∈ acc := by
  induction more generalizing acc with
  | nil => exact he
  | cons b more ih =>
    rw [addMissing, List.foldl_cons] at he
    split at he
    · exact ih he ha
    · next hnone =>
      rcases List.mem_append.mp (ih he (List.mem_append_left _ ha)) with he | he
      · exact he
      · obtain rfl := List.mem_singleton.mp he
        exact absurd (List.any_eq_true.mpr ⟨a, ha, by simpa using hname⟩) hnone

private theorem insertStatement_bindsKey (hst : h.insertStatement (h.get r).type r = .ok st) :
    h.BindsKey r st := by
  obtain ⟨keyed, hkeyed, rfl⟩ := insertStatement_ok hst
  obtain ⟨hin, hout⟩ := mapM_ok hkeyed
  have hentry : ∀ e, some e ∈ keyed → e ∈ addMissing (addMissing keyed.reduceOption
      (h.get r).values.entries) (h.foreignKeys (h.get r).type r) := fun e he =>
    mem_addMissing_left (mem_addMissing_left (List.reduceOption_mem_iff.mpr he))
  have hsupplied : ∀ c ∈ (h.get r).type.key, c.source = .supplied →
      ∃ k : Key, some (c.name, k.toValue) ∈ keyed := by
    intro c hc hs
    obtain ⟨slot, he⟩ := Record.exists_slot hc
    obtain ⟨a, ha, hassign⟩ := hin (c, slot) he
    rw [keyAssignment.eq_def] at hassign
    dsimp only at hassign
    rw [hs] at hassign
    cases slot with
    | none => cases hassign
    | some k =>
      obtain rfl := Except.ok.inj hassign
      exact ⟨k, ha⟩
  have hreference : ∀ c ∈ (h.get r).type.key, ∀ field, c.source = .reference field →
      some (c.name, h.referenceValue r field) ∈ keyed := by
    intro c hc field hs
    obtain ⟨slot, he⟩ := Record.exists_slot hc
    obtain ⟨a, ha, hassign⟩ := hin (c, slot) he
    rw [keyAssignment.eq_def] at hassign
    dsimp only at hassign
    rw [hs] at hassign
    obtain rfl := Except.ok.inj hassign
    exact ha
  refine ⟨fun c hc hs => ?_, fun c hc field hs => hentry _ (hreference c hc field hs), ?_⟩
  · obtain ⟨k, hk⟩ := hsupplied c hc hs
    exact ⟨k, hentry _ hk⟩
  · intro c hc hg v he
    -- The column is assigned as a key column, and what follows leaves it alone.
    obtain ⟨a, ha, hname⟩ : ∃ a, some a ∈ keyed ∧ a.1 = c.name := by
      rcases hs : c.source with _ | _ | field
      · obtain ⟨k, hk⟩ := hsupplied c hc hs
        exact ⟨_, hk, rfl⟩
      · simp [KeyColumn.isGenerated, hs] at hg
      · exact ⟨_, hreference c hc field hs, rfl⟩
    have hmem := List.reduceOption_mem_iff.mpr ha
    have hfirst := mem_of_mem_addMissing (mem_of_mem_addMissing he (mem_addMissing_left hmem) hname)
      hmem hname
    obtain ⟨⟨c', slot⟩, hm, hassign⟩ := hout _ (List.reduceOption_mem_iff.mp hfirst)
    rw [keyAssignment.eq_def] at hassign
    dsimp only at hassign
    split at hassign
    · cases hassign
    · split at hassign
      · next k =>
        have hv := congrArg Prod.snd (Option.some.inj (Except.ok.inj hassign))
        exact .inl ⟨k, hv.symm⟩
      · cases hassign
    · next field hs =>
      have hv := congrArg Prod.snd (Option.some.inj (Except.ok.inj hassign))
      exact .inr ⟨c', (List.of_mem_zip hm).1, field, hs, hv.symm⟩

private theorem foreignKey_of_self (hc : c ∈ (h.get r).type.key) (hs : c.source = .reference field)
    (hr : (h.get r).references.get? field = some r) : h.foreignKey r = .null := by
  have hnone : h.primaryKey? r = none := by
    by_contra hsome
    obtain ⟨slot, he⟩ := Record.exists_slot hc
    have hcomponent := component?_isSome_of_primaryKey? (Option.isSome_iff_ne_none.mpr hsome) he
    simp [component?_reference hs, hr] at hcomponent
  rw [foreignKey, hnone]
  rfl

theorem sourcesKnown_of_primaryKey? (hr : (h.primaryKey? r).isSome) : h.SourcesKnown r := by
  intro c hc field hs
  obtain ⟨slot, he⟩ := Record.exists_slot hc
  obtain ⟨k, hk⟩ := Option.isSome_iff_exists.mp (component?_isSome_of_primaryKey? hr he)
  rw [component?_reference hs] at hk
  obtain ⟨target, htarget, hk⟩ := Option.bind_eq_some_iff.mp hk
  split at hk
  · cases hk
  · obtain ⟨k', hk', -⟩ := Option.bind_eq_some_iff.mp hk
    obtain ⟨key, hkey, hsingle⟩ := Option.bind_eq_some_iff.mp hk'
    refine ⟨target, k', htarget, ?_⟩
    rw [primaryKey?, resolve?_succ hkey, RowKey.single?_eq_some.mp hsingle]

private theorem Settles.referenceValue (a : h.Settles h') (r : RecordId) (field : String) :
    h'.referenceValue r field = h.referenceValue r field := by
  rw [Heap.referenceValue, Heap.referenceValue, a.references]
  cases (h.get r).references.get? field with
  | none => rfl
  | some target =>
    dsimp only
    rw [foreignKey, foreignKey, a.primaryKey?]

private theorem Settles.bindsKey (a : h.Settles h') (hb : h.BindsKey r st) : h'.BindsKey r st :=
  hb.congr (a.type r) fun _ _ field _ => a.referenceValue r field

end Heap

/-- Every insert so far is of one of the records with `A`, and has bound the columns of its key to
what is known of them now. -/
def Session.KeysBound {σ : Type} (A : RecordType → RecordId → Prop) (s : Session σ) : Prop :=
  ∀ e ∈ s.trace, ∀ r, e.inserted? = some r →
    (∃ t, A t r) ∧ ∃ st, e.statement? = some (some r, st) ∧ s.heap.BindsKey r st

private theorem Event.statement?_of_inserted? {e : Event} {r : RecordId}
    (he : e.inserted? = some r) :
    ∃ st, e.statement? = some (some r, st) := by
  rw [inserted?] at he
  split at he
  · next q table assigned returning hst =>
    obtain rfl := Option.some.inj he
    exact ⟨_, hst⟩
  · cases he

section

variable {σ ρ : Type} {h : Heap} {A : RecordType → RecordId → Prop} {s s' : Session σ}
  {r q : RecordId} {c : Connection σ ρ} {t : RecordType} {st : Statement}

private theorem Fixing.referenceValue_insert (hp : h.Unwritten) (hs : Fixing h s)
    (hn : (h.get r).isNew) (hfresh : r ∉ insertedIn s.trace) (a : c.Inserts t r st s s')
    (hq : ∀ v ∈ s.heap.keyTargets q, v ≠ q → s.heap.IsFixed v) {d : KeyColumn} {field : String}
    (hd : d ∈ (s.heap.get q).type.key) (hsource : d.source = .reference field) :
    s'.heap.referenceValue q field = s.heap.referenceValue q field := by
  have hkeeps := a.heap.keeps
  rw [Heap.referenceValue, Heap.referenceValue, hkeeps.references]
  cases hv : (s.heap.get q).references.get? field with
  | none => rfl
  | some v =>
    dsimp only
    by_cases hne : v = q
    · subst hne
      have hd' : d ∈ (s'.heap.get v).type.key := by rwa [hkeeps.type]
      have hv' : (s'.heap.get v).references.get? field = some v := by rwa [hkeeps.references]
      rw [Heap.foreignKey_of_self hd hsource hv, Heap.foreignKey_of_self hd' hsource hv']
    · have hfixed := hq v (Heap.mem_keyTargets hd hsource hv) hne
      exact (hs.isFixed_insert hp hn hfresh a hfixed).2

namespace Session.KeysBound

theorem settles {events : List Event} (hs : s.KeysBound A) (ht : s'.trace = s.trace ++ events)
    (he : ∀ e ∈ events, e.inserted? = none) (a : s.heap.Settles s'.heap) : s'.KeysBound A := by
  intro e hm r hr
  rw [ht] at hm
  rcases List.mem_append.mp hm with hm | hm
  · obtain ⟨hA, st, hst, hb⟩ := hs e hm r hr
    exact ⟨hA, st, hst, a.bindsKey hb⟩
  · rw [he e hm] at hr
    cases hr

theorem snoc {e : Event} (hs : s.KeysBound A) (ht : s'.trace = s.trace ++ [e])
    (he : e.inserted? = none) (hheap : s'.heap = s.heap) : s'.KeysBound A :=
  hs.settles ht (fun _ hm => List.mem_singleton.mp hm ▸ he) (hheap ▸ .refl _)

private theorem insert (hp : h.Unwritten) (hf : Fixing h s) (hs : s.KeysBound A)
    (hn : (h.get r).isNew)
    (hfresh : r ∉ insertedIn s.trace) (a : c.Inserts t r st s s') (hA : A t r)
    (ht : (h.get r).type = t) (hkey : ∀ v ∈ s.heap.keyTargets r, v ≠ r → s.heap.IsFixed v) :
    s'.KeysBound A := by
  have hstays : ∀ q st, (∀ v ∈ s.heap.keyTargets q, v ≠ q → s.heap.IsFixed v) →
      s.heap.BindsKey q st → s'.heap.BindsKey q st := fun q st hq hb =>
    hb.congr (a.heap.keeps.type q) fun d hd field hd' =>
      hf.referenceValue_insert hp hn hfresh a hq hd hd'
  intro e he q hq
  rw [a.trace] at he
  rcases List.mem_append.mp he with he | he
  · obtain ⟨hA', st', hst, hb⟩ := hs e he q hq
    have hmem : q ∈ insertedIn s.trace := List.mem_filterMap.mpr ⟨e, he, hq⟩
    exact ⟨hA', st', hst, hstays q st' (hf.closed q ((hf.marks q).mpr hmem)) hb⟩
  · obtain rfl := List.mem_singleton.mp he
    obtain ⟨st', hst⟩ := Event.statement?_of_inserted? hq
    rw [c.statement?_insertEvent] at hst
    obtain ⟨rfl, rfl⟩ : r = q ∧ st = st' := by simpa using hst
    have hstatement := a.statement
    rw [← ht, ← hf.keeps.type] at hstatement
    refine ⟨⟨t, hA⟩, st, c.statement?_insertEvent r st, ?_⟩
    exact hstays r st hkey (Heap.insertStatement_bindsKey hstatement)

end Session.KeysBound

end

namespace Transaction

variable {σ ρ : Type} {tx : Transaction σ ρ} {conn : String → Connection σ ρ}
  {deferrable : String → Bool} {h : Heap} {A : RecordType → RecordId → Prop}

private theorem keysBound_steady : tx.Steady (Session.KeysBound A) := by
  intro s s' q hs
  obtain ⟨e, he, ht⟩ := q.trace
  exact hs.snoc ht (Event.inserted?_of_statement? he) q.heap

private theorem keysBound_invariant (hp : h.Unwritten) (htyped : ∀ t r, A t r → (h.get r).type = t)
    (hknown : ∀ t r, A t r → h.KnownSources r) :
    tx.RecordInvariant conn deferrable A (fun _ s => Fixing h s ∧ s.KeysBound A)
      (Session.KeysBound A) where
  steady _ s s' q hs := ⟨hs.1.quiet q, keysBound_steady s s' q hs.2⟩
  mono _ _ _ _ hs := hs
  stop _ _ hs := hs.2
  insert _ t p st s₀ s s' hA hplan _ hfresh hs₀ hs hprog a := by
    have hn : (h.get p.record).isNew := by
      rw [← hs₀.1.keeps.isNew]
      exact Record.isNew_of_state hplan.state
    have hkey := hs₀.1.isFixed_keyTargets hp hs.1 hprog hplan (hknown t p.record hA)
    have hbound := hs.2.insert hp hs.1 hn hfresh a hA (htyped t p.record hA) hkey
    exact ⟨hbound, fun g => ⟨hs.1.insert hp hn hfresh a g hkey, hbound⟩⟩

private theorem keysBound_late : tx.LateInvariant conn (Session.KeysBound A) where
  steady := keysBound_steady
  update _ _ _ _ _ u hs := by
    obtain ⟨e, he, ht⟩ := u.trace
    exact hs.snoc ht he u.heap
  delete _ _ _ hs := hs.snoc rfl rfl rfl
  reset s r hs := hs.settles (List.append_nil _).symm (fun _ hm => absurd hm List.not_mem_nil)
    (.modify_resetChanges s.heap r)

/-- However the writing of a workspace ends, its inserts have bound the columns of keys to what is
known of them then. -/
theorem WritesBy.writeAll_keysBound (hw : tx.WritesBy conn deferrable) {w : Workspace}
    (hsound : w.Sound h) (hp : h.Unwritten)
    (htyped : ∀ e ∈ entriesOf w.insertBatches, (h.get e.2).type = e.1)
    (hknown : ∀ e ∈ entriesOf w.insertBatches, h.KnownSources e.2) (world : σ) :
    Triple (fun run => run.session = { heap := h, world }) (tx.writeAll w)
      (fun _ run => run.session.KeysBound fun t r => (t, r) ∈ entriesOf w.insertBatches)
      fun _ run => run.session.KeysBound fun t r => (t, r) ∈ entriesOf w.insertBatches := by
  have hkeys : tx.RecordInvariant conn deferrable (fun t r => (t, r) ∈ entriesOf w.insertBatches)
      _ _ := keysBound_invariant hp (fun t r hA => htyped (t, r) hA) fun t r hA =>
        hknown (t, r) hA
  have hinserts := (hkeys.insertInvariant hw).insertAll {} w.insertBatches []
  refine keysBound_late.writeAll hw (hinserts.conseq (fun run hrun => ?_) (fun _ _ hs => hs.1.2)
    fun _ _ hs => hs)
  rw [hrun]
  refine ⟨⟨.start hp world, fun _ he => absurd he List.not_mem_nil⟩, ?_, fun e he => ?_⟩
  · rw [entriesOf_snd]
    exact hsound.nodup_newRecords
  · exact ⟨he, List.not_mem_nil⟩

end Transaction

end UnitOfWork
