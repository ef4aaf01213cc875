import Mathlib.Data.List.Pairwise
import UnitOfWork.Proofs.Commit.InsertBindings
import UnitOfWork.Proofs.Commit.InsertCycles

/-!
# Foreign keys after a commit

The fix-ups bind the keys that the inserts could not, and nothing that is written after them touches
a new record. So a successful commit has bound each foreign key to the key that the target ends up
with, provided that every key which was not its business was known when the writing began.
-/

namespace UnitOfWork

/-- What holds from the last insert on: a record that was inserted has its foreign keys bound, or it
is still to be fixed up. -/
structure Wrote {σ : Type} (h : Heap) (A : RecordType → RecordId → Prop)
    (todo : List (RecordType × RecordId)) (s : Session σ) : Prop where
  keeps : h.Keeps s.heap
  known : ∀ t r u, A t r → u ∈ h.targets r → (h.get u).isNew = false →
    (s.heap.primaryKey? u).isSome
  values : ∀ t q, A t q → ∀ name, ((s.heap.get q).values.get? name).isSome →
    ((h.get q).values.get? name).isSome ∨ t.hasKeyColumn name
  bound : ∀ q ∈ insertedIn s.trace, (h.get q).isNew ∧
    ∃ t, A t q ∧ ((t, q) ∈ todo ∨ s.BoundAs t q)

private theorem Binding.wrote {σ : Type} {h : Heap} {A : RecordType → RecordId → Prop}
    {fixUps : List (RecordType × RecordId)} {s : Session σ} (hp : h.Prepared A)
    (hs : Binding h A fixUps s) : Wrote h A fixUps s where
  keeps := hs.keeps
  known t r u hA hu hn := hs.fixing.known hp.unwritten (hp.known t r hA u hu hn)
  values := hs.values
  bound q hq := by
    obtain ⟨t, hA, hb⟩ := hs.bound q hq
    exact ⟨hs.isNew q hq, t, hA, hb.imp_right And.left⟩

namespace Wrote

variable {σ ρ : Type} {h : Heap} {A : RecordType → RecordId → Prop}
  {todo todo' : List (RecordType × RecordId)} {s s' : Session σ}

theorem mono (hsub : ∀ e ∈ todo, e ∈ todo') (hs : Wrote h A todo s) : Wrote h A todo' s :=
  { hs with
    bound := fun q hq => by
      obtain ⟨hn, t, hA, hb⟩ := hs.bound q hq
      exact ⟨hn, t, hA, hb.imp_left (hsub _)⟩ }

private theorem others {events : List Event}
    (he : ∀ e ∈ events, ∀ r st, e.statement? ≠ some (some r, st))
    (world : σ) (hs : Wrote h A todo s) :
    Wrote h A todo { s with trace := s.trace ++ events, world } where
  keeps := hs.keeps
  known := hs.known
  values := hs.values
  bound q hq := by
    have hinserted : insertedIn (s.trace ++ events) = insertedIn s.trace := by
      have hnone : insertedIn events = [] := List.filterMap_eq_nil_iff.mpr fun e hm => by
        rw [Event.inserted?]
        split
        · next r _ _ _ hst => exact absurd hst (he e hm r _)
        · rfl
      rw [insertedIn_append, hnone, List.append_nil]
    obtain ⟨hn, t, hA, hb⟩ := hs.bound q (hinserted ▸ hq)
    refine ⟨hn, t, hA, hb.imp_right fun hb field ref target href htarget => ?_⟩
    rw [boundIn_append_others fun e hm => he e hm q]
    exact hb field ref target href htarget

private theorem steady {tx : Transaction σ ρ} : tx.Steady (Wrote h A todo) := by
  intro s s' q hs
  have hquiet : ∀ {e : Event} (world : σ), e.statement? = none →
      Wrote h A todo { s.note e with world } := fun world he =>
    hs.others (fun e' hm r st => by simp [List.mem_singleton.mp hm, he]) world
  cases q <;> exact hquiet _ rfl

private theorem reset (r : RecordId) (hs : Wrote h A todo s) :
    Wrote h A todo { s with heap := s.heap.modify r .resetChanges } := by
  have hset := Heap.Settles.modify_resetChanges s.heap r
  have hvalues : ∀ q, ((s.heap.modify r .resetChanges).get q).values = (s.heap.get q).values := by
    intro q
    rw [Heap.get_modify]
    split <;> rfl
  refine ⟨hs.keeps.trans (.modify_resetChanges s.heap r), ?_,
    ?_, ?_⟩
  · intro t r' u hA hu hn
    dsimp only
    rw [hset.primaryKey?]
    exact hs.known t r' u hA hu hn
  · intro t q hA name hv
    dsimp only at hv
    rw [hvalues] at hv
    exact hs.values t q hA name hv
  · intro q hq
    obtain ⟨hn, t, hA, hb⟩ := hs.bound q hq
    refine ⟨hn, t, hA, hb.imp_right fun hb field ref target href htarget => ?_⟩
    dsimp only at htarget ⊢
    rw [hset.references] at htarget
    rw [Heap.foreignKey, hset.primaryKey?]
    exact hb field ref target href htarget

private theorem update (hp : h.Prepared A) {c : Connection σ ρ} {t : RecordType} {r : RecordId}
    (hr : A t r ∨ (h.get r).isNew = false) (htodo : ∀ e ∈ todo, e ∈ todo' ∨ e = (t, r))
    (u : c.Updates t r s s') (hs : Wrote h A todo s) : Wrote h A todo' s' := by
  have hheap := u.heap
  obtain ⟨e, st, found, hfound, hst, hrun, ht⟩ := u.statement
  have hinserted : insertedIn s'.trace = insertedIn s.trace := by
    obtain ⟨e', he', ht'⟩ := u.trace
    rw [ht', insertedIn_snoc_other he']
  refine ⟨hheap ▸ hs.keeps, hheap ▸ hs.known, hheap ▸ hs.values, fun q hq => ?_⟩
  obtain ⟨hn, t', hA, hb⟩ := hs.bound q (hinserted ▸ hq)
  refine ⟨hn, t', hA, ?_⟩
  by_cases hqr : q = r
  · subst hqr
    have hAt : A t q := hr.resolve_right (by simp [hn])
    obtain rfl := hp.unique _ _ _ hA hAt
    refine .inr fun field ref target href htarget => ?_
    rw [hheap] at htarget ⊢
    have hnew : (s.heap.get q).isNew := by rwa [hs.keeps.isNew]
    obtain ⟨st', rfl, hassigns⟩ := Heap.updateStatement?_assigns hfound hnew (hp.names _ q hA)
      (hs.values _ q hA) href htarget
    obtain rfl := hrun st' rfl
    rw [ht]
    exact getLast?_boundIn hst hassigns
  · rcases hb with hb | hb
    · refine .inl ((htodo _ hb).resolve_right fun he => hqr ?_)
      exact congrArg Prod.snd he
    · refine .inr fun field ref target href htarget => ?_
      rw [hheap] at htarget ⊢
      rw [ht, boundIn_append_others fun e' hm st' => ?_]
      · exact hb field ref target href htarget
      · rw [List.mem_singleton.mp hm, hst]
        simp [Ne.symm hqr]

end Wrote

namespace Transaction

variable {σ ρ : Type} {tx : Transaction σ ρ} {conn : String → Connection σ ρ}
  {deferrable : String → Bool} {h : Heap} {A : RecordType → RecordId → Prop}

private theorem WritesBy.updateBatch_wrote (hw : tx.WritesBy conn deferrable) (hp : h.Prepared A)
    (b : Batch) (rest : List (RecordType × RecordId))
    (hb : ∀ r ∈ b.records, A b.type r ∨ (h.get r).isNew = false) :
    Triple (fun run => Wrote h A (b.entries ++ rest) run.session) (tx.updateBatch b)
      (fun _ run => Wrote h A rest run.session) fun _ _ => True := by
  apply writing_triple Wrote.steady (fun _ => .update _ _) (fun _ _ _ _ => trivial)
  rw [hw.writer]
  have hwalk := Triple.mapM_of_mem (E := fun _ _ => True)
    (f := (conn b.type.store).updateOne b.type) (l := b.records)
    (I := fun rs => Wrote h A (rs.map (b.type, ·) ++ rest)) fun r hr rs =>
      Triple.of_starting fun s hs => by
        apply ((conn b.type.store).updateOne_spec b.type r s).conseq (fun _ h => h) ?_
          fun _ _ _ => trivial
        intro _ s' u
        refine hs.update hp (hb r hr) (fun e he => ?_) u
        rw [List.map_cons, List.cons_append] at he
        exact (List.mem_cons.mp he).symm
  apply hwalk.bind
  intro counts
  have hconfirm : Triple (Wrote h A rest) (confirm b.type b.records counts : Working σ ρ Unit)
      (fun _ => Wrote h A rest) fun _ _ => True :=
    confirm_spec (fun s r hs => hs.reset r) (fun _ _ _ _ => trivial) b.type b.records counts
  exact hconfirm.bind fun _ => Triple.pure fun _ hs => hs

private theorem mapM_updateBatch_wrote (hw : tx.WritesBy conn deferrable) (hp : h.Prepared A)
    (batches : List Batch)
    (hb : ∀ b ∈ batches, ∀ r ∈ b.records, A b.type r ∨ (h.get r).isNew = false) :
    Triple (fun run => Wrote h A (entriesOf batches) run.session) (batches.mapM tx.updateBatch)
      (fun _ run => Wrote h A [] run.session) fun _ _ => True := by
  apply Triple.mapM_of_mem (I := fun bs (run : Run σ) => Wrote h A (entriesOf bs) run.session)
  intro b hmem bs
  exact hw.updateBatch_wrote hp b (entriesOf bs) (hb b hmem)

private theorem WritesBy.writeAll_wrote (hw : tx.WritesBy conn deferrable) {w : Workspace}
    (hsound : w.Sound h) (hp : h.Prepared fun t r => (t, r) ∈ entriesOf w.insertBatches)
    (world : σ) :
    Triple (fun run => run.session = { heap := h, world }) (tx.writeAll w)
      (fun _ run => Wrote h (fun t r => (t, r) ∈ entriesOf w.insertBatches) [] run.session)
      fun _ _ => True := by
  rw [writeAll]
  have hbinds : tx.RecordInvariant conn deferrable _ _ _ := binding_invariant hp
  have hinserts := (hbinds.insertInvariant hw).insertAll {} w.insertBatches []
  have hsubset := (hw.fixUps_invariant fun t r => (t, r) ∈ entriesOf w.insertBatches).insertAll
    {} w.insertBatches []
  refine Triple.bind ((hinserts.and hsubset).conseq (fun run hrun => ?_) (fun _ _ h => h)
    fun _ _ _ => trivial) fun result => ?_
  · rw [hrun]
    refine ⟨⟨.start hp world, ?_, fun e he => ⟨he, List.not_mem_nil⟩⟩, fun _ he => he,
      fun _ he => absurd he List.not_mem_nil⟩
    rw [entriesOf_snd]
    exact hsound.nodup_newRecords
  · -- First the fix-ups, which end the list of what is still to be bound.
    apply Triple.of_starting
    intro run hrun
    rw [List.nil_append] at hrun
    have hfix : ∀ b ∈ result.2, ∀ r ∈ b.records,
        (b.type, r) ∈ entriesOf w.insertBatches ∨ (h.get r).isNew = false := by
      intro b hb r hr
      exact .inl (hrun.2.2 _ (mem_entriesOf.mpr ⟨b, hb, rfl, hr⟩))
    apply ((mapM_updateBatch_wrote hw hp result.2 hfix).starting (hrun.1.1.wrote hp)).bind
    intro fixed
    apply Triple.bind (x := Leasing.heap) (R := fun _ (run : Run σ) =>
      Wrote h (fun t r => (t, r) ∈ entriesOf w.insertBatches) [] run.session)
      (fun run hrun => hrun)
    intro g
    -- The other updates are of records that have a row.
    have hlive : ∀ b ∈ w.updateBatches g, ∀ r ∈ b.records,
        (b.type, r) ∈ entriesOf w.insertBatches ∨ (h.get r).isNew = false := by
      intro b hb r hr
      exact .inr (hsound.liveRecord (Workspace.mem_updateBatches.mp
        (List.mem_flatMap.mpr ⟨b, hb, hr⟩)).1).2
    apply ((mapM_updateBatch_wrote hw hp _ hlive).conseq (fun run hrun =>
      hrun.mono fun e he => absurd he List.not_mem_nil) (fun _ _ h => h) fun _ _ h => h).bind
    intro updated
    have hdelete : ∀ (t : RecordType) rs, Preserves (Wrote h (fun t r =>
        (t, r) ∈ entriesOf w.insertBatches) []) ((tx.writer t.store).delete t rs) := by
      intro t rs
      rw [hw.writer]
      refine Writer.sql_delete_preserves (fun st s hs => ?_) t rs
      exact hs.others (fun e hm r st' => by simp [List.mem_singleton.mp hm, Event.statement?]) _
    refine Triple.bind ((Preserves.mapM _ fun b => deleteBatch_preserves Wrote.steady hdelete
      b).conseq (fun _ h => h) (fun _ _ h => h) fun _ _ _ => trivial) fun _ =>
      Triple.pure fun _ h => h

end Transaction

/-- For each reference field that a row of the type `t` has a column for, the target has a key of
one component, which is the last value bound to the column. -/
def Session.BindsKeys {σ : Type} (s : Session σ) (t : RecordType) (r : RecordId) : Prop :=
  ∀ field ref target, t.reference? field = some ref →
    (s.heap.get r).references.get? field = some target →
      ∃ k, s.heap.primaryKey? target = some ⟨[k]⟩ ∧
        (boundIn s.trace r ref.column).getLast? = some k.toValue

namespace Heap

/-- The keys of all referenced records that have a row are known. -/
def KnownTargets (h : Heap) : Prop :=
  ∀ r, ∀ t ∈ h.targets r, (h.get t).isNew = false → (h.primaryKey? t).isSome

/-- The check that precedes the writing marks nothing and generates nothing. -/
theorem Unwritten.folds {h h' : Heap} (hh : h.Unwritten) (hf : h.Folds h') : h'.Unwritten where
  unmarked r := by rw [hf.inserted, hh.unmarked]
  blank r hn e he hg := by
    rw [hf.isNew] at hn
    have hkey : e.1 ∈ (h.get r).type.key := hf.type r ▸ (List.of_mem_zip he).1
    rcases hf.slots r hn with hs | hs
    · refine hh.blank r hn e ?_ hg
      rwa [Record.keySlots, ← hf.type, ← hs]
    · rw [RecordType.generatedCount, List.countP_eq_zero] at hs
      exact absurd hg (hs e.1 hkey)

/-- Some record of a type holds data of this name. -/
def DataName (h : Heap) (type name : String) : Prop :=
  ∃ q, (h.get q).type.name = type ∧ ((h.get q).values.get? name).isSome

end Heap

namespace Workspace

/-- The record is in one of the buckets. -/
def Tracks (w : Workspace) (r : RecordId) : Prop :=
  ∃ kind name b, (w.registry kind).buckets.get? name = some b ∧
    (r ∈ b.new.toList ∨ r ∈ b.pending.toList ∨ r ∈ b.live.values ∨ r ∈ b.deleted.values)

/-- A commit that begins with the records `h` writes the record as a row of the type `t`. -/
def WritesAs (w : Workspace) (h : Heap) (r : RecordId) (t : RecordType) : Prop :=
  ∃ w₁ h₁, w.ready? h = some (w₁, h₁) ∧ (t, r) ∈ entriesOf w₁.insertBatches

/-- What the foreign keys of a commit rely on, apart from the keys of records that have a row. -/
structure FitForKeys (w : Workspace) (h : Heap) : Prop where
  unmarked : ∀ r, (h.get r).inserted = false
  blank : ∀ r, (h.get r).isNew → (h.get r).Blank
  enrolled : ∀ w₁ h₁, w.ready? h = some (w₁, h₁) → ∀ r, w₁.Tracks r →
    ∀ t ∈ h₁.targets r, (h₁.get t).isNew → t ∈ w₁.newRecords
  single : ∀ r, ∀ t ∈ h.targets r, (h.get t).type.arity = 1
  names : ∀ r t, w.WritesAs h r t → t.NamesApart (h.DataName t.name)

variable {σ ρ : Type} {tx : Transaction σ ρ} {conn : String → Connection σ ρ}
  {deferrable : String → Bool} {w w₁ : Workspace} {h h₁ : Heap}

private theorem tracks_of_mem_newRecords {r : RecordId} (hr : r ∈ w.newRecords) : w.Tracks r := by
  obtain ⟨kind, name, b, hb, hr⟩ := mem_newRecords.mp hr
  exact ⟨kind, name, b, hb, .inl hr⟩

theorem mem_newRecords_of_entries {t : RecordType} {r : RecordId}
    (hr : (t, r) ∈ entriesOf w.insertBatches) : r ∈ w.newRecords := by
  rw [newRecords, ← entriesOf_snd]
  exact List.mem_map_of_mem hr

private theorem Sound.entries_unique (hw : w.Sound h) {t t' : RecordType} {r : RecordId}
    (hr : (t, r) ∈ entriesOf w.insertBatches) (hr' : (t', r) ∈ entriesOf w.insertBatches) :
    t = t' := by
  obtain ⟨b, hb, rfl, hm⟩ := mem_entriesOf.mp hr
  obtain ⟨b', hb', rfl, hm'⟩ := mem_entriesOf.mp hr'
  by_contra hne
  have hsymm : Std.Symm fun b b' : Batch =>
      ∀ r ∈ b.records, ∀ r' ∈ b'.records, (h.get r).type ≠ (h.get r').type :=
    ⟨fun _ _ hbb r hr r' hr' he => hbb r' hr' r hr he.symm⟩
  have hpairs := hw.pairwise_insertBatches.imp (S := fun b b' : Batch =>
    ∀ r ∈ b.records, ∀ r' ∈ b'.records, (h.get r).type ≠ (h.get r').type)
    fun hprec r hr r' hr' => (hprec r hr r' hr').ne
  exact hpairs.forall hb hb' (fun he => hne (congrArg _ he)) r hm r hm' rfl

private theorem FitForKeys.prepared (hfit : w.FitForKeys h) (hw : w.Sound h)
    (hr : w.ready? h = some (w₁, h₁)) (hknown : h₁.KnownTargets) :
    h₁.Prepared fun t r => (t, r) ∈ entriesOf w₁.insertBatches := by
  obtain ⟨hsound, hfolds⟩ := ready?_sound hw hr
  have hunwritten : h₁.Unwritten := Heap.Unwritten.folds ⟨hfit.unmarked, hfit.blank⟩ hfolds
  refine ⟨hunwritten.unmarked, hunwritten.blank, fun t t' r => hsound.entries_unique,
    fun t r _ u hu hn => hknown r u hu hn, ?_⟩
  · intro t r hA
    apply (hfit.names r t ⟨w₁, h₁, hr, hA⟩).mono
    intro name hv
    obtain ⟨b, hb, rfl, hm⟩ := mem_entriesOf.mp hA
    obtain ⟨q, hq, hqv⟩ := hfolds.value r name hv
    refine ⟨q, ?_, hqv⟩
    rw [hq, ← hfolds.type, (hsound.insertBatch hb).2.2 r hm]

/-- A successful commit has bound each foreign key of each record that it inserted to the key that
the target has in the end, whether by the insert or by a fix-up. -/
theorem foreign_keys_bound (hw : w.Sound h) (hfit : w.FitForKeys h)
    (hknown : ∀ w₁ h₁, w.ready? h = some (w₁, h₁) → h₁.KnownTargets)
    (htx : tx.WritesBy conn deferrable) (world : σ) {summary : Summary}
    (hok : (w.commit tx { heap := h, world }).1 = .ok summary) {r : RecordId}
    (hr : r ∈ insertedIn (w.commit tx { heap := h, world }).2.2.trace) :
    ∃ t, w.WritesAs h r t ∧ (w.commit tx { heap := h, world }).2.2.BindsKeys t r := by
  cases hready : w.ready? h with
  | none =>
    obtain ⟨result, w', h', hcommit, -, -⟩ :=
      commit_notReady (s := { heap := h, world }) tx hw hready
    rw [hcommit] at hr
    cases hr
  | some s =>
    obtain ⟨w₁, h₁⟩ := s
    obtain ⟨hsound, hfolds⟩ := ready?_sound hw hready
    have hp := hfit.prepared hw hready (hknown _ _ hready)
    obtain ⟨run, w', heap, hwrite, hsettle, hfinal, htrace⟩ :=
      flush_ok (commit_ok (s := { heap := h, world }) hready hok)
    have hwrote := (htx.writeAll_wrote hsound hp world).ok rfl hwrite
    have hreleases := (commit_ready (s := { heap := h, world }) tx hready).2
    obtain ⟨hheap, events, ht, he⟩ := id hreleases
    rw [hfinal] at hheap
    rw [htrace] at ht
    have hset := (settle_sound (hsound.evolves hwrote.keeps.evolves)).ok rfl hsettle
    have hkeys : ∀ u, heap.primaryKey? u = run.session.heap.primaryKey? u := hset.1.2.primaryKey?
    rw [hreleases.insertedIn, htrace] at hr
    obtain ⟨-, t, hA, hb⟩ := hwrote.bound r hr
    have hbound := hb.resolve_left List.not_mem_nil
    refine ⟨t, ⟨w₁, h₁, hready, hA⟩, fun field ref target href htarget => ?_⟩
    rw [hheap] at htarget ⊢
    rw [hset.1.2.references] at htarget
    have htargets : target ∈ h₁.targets r := by
      rw [← hwrote.keeps.targets]
      exact Heap.mem_targets.mpr ⟨field, htarget⟩
    -- The key of the target is known, for it had a row or it has been settled as a new record.
    have hsome : (run.session.heap.primaryKey? target).isSome := by
      by_cases hn : (h₁.get target).isNew
      · have hnew := hfit.enrolled _ _ hready r
          (tracks_of_mem_newRecords (mem_newRecords_of_entries hA)) target htargets hn
        obtain ⟨kind, name, b, hb, hm⟩ := mem_newRecords.mp hnew
        exact hset.2 kind name b hb target hm
      · exact hwrote.known t r target hA htargets (by simpa using hn)
    have harity : (run.session.heap.get target).type.arity = 1 := by
      obtain ⟨q, hq⟩ := hfolds.target r target htargets
      rw [hwrote.keeps.type, hfolds.type, hfit.single q target hq]
    obtain ⟨key, hkey⟩ := Option.isSome_iff_exists.mp hsome
    obtain ⟨k, rfl⟩ := Heap.primaryKey?_single hkey harity
    refine ⟨k, by rw [hkeys, hkey], ?_⟩
    rw [ht, boundIn_append_others fun e hm st => by simp [he e hm],
      hbound field ref target href htarget, Heap.foreignKey, hkey]
    rfl

end Workspace

private theorem namesApart_of_no_data {h : Heap} {t : RecordType}
    (hv : ∀ q, (h.get q).values = ∅) (ht : t.NamesApart fun _ => False) :
    t.NamesApart (h.DataName t.name) := by
  apply ht.mono
  intro name hname
  obtain ⟨q, -, hq⟩ := hname
  rw [hv] at hq
  exact Bool.noConfusion hq

theorem eq_ok_of_toOption {ε α : Type} {x : Except ε α} {a : α}
    (hx : x.toOption = some a) : x = .ok a := by
  cases x with
  | ok b => exact congrArg _ (Option.some.inj hx)
  | error e => cases hx

/-! A store that defers its checks lets the child be inserted first. -/

private theorem tracked_ready {w : Workspace} {h : Heap}
    (hr : tracked.1.ready? tracked.2 = some (w, h)) : w = tracked.1 ∧ h = tracked.2 := by
  have hready : tracked.1.ready? tracked.2 = some tracked := by decide +kernel
  exact Prod.ext_iff.mp (Option.some.inj (hr.symm.trans hready))

private theorem tracked_writesAs {r : RecordId} {t : RecordType}
    (hr : tracked.1.WritesAs tracked.2 r t) :
    t = nodeType := by
  obtain ⟨w₁, h₁, hready, hm⟩ := hr
  obtain ⟨rfl, rfl⟩ := tracked_ready hready
  have hall : ∀ e ∈ entriesOf tracked.1.insertBatches, e.1 = nodeType := by decide +kernel
  exact hall _ hm

private theorem tracked_targets (r : RecordId) : ∀ t ∈ tracked.2.targets r,
    t ∈ tracked.1.newRecords ∧ (tracked.2.get t).isNew ∧ (tracked.2.get t).type.arity = 1 :=
  Heap.forall_get (P := fun x => ∀ t ∈ x.references.values, t ∈ tracked.1.newRecords ∧
    (tracked.2.get t).isNew ∧ (tracked.2.get t).type.arity = 1) (by decide +kernel)
    (by decide +kernel) r

private theorem tracked_fitForKeys : tracked.1.FitForKeys tracked.2 where
  unmarked := Heap.forall_get (P := (·.inserted = false)) rfl (by decide +kernel)
  blank r _ := Heap.forall_get (P := fun x => ∀ e ∈ x.keySlots, e.1.isGenerated → e.2 = none)
    (by decide) (by decide +kernel) r
  enrolled w₁ h₁ hready r _ t ht _ := by
    obtain ⟨rfl, rfl⟩ := tracked_ready hready
    exact (tracked_targets r t ht).1
  single r t ht := (tracked_targets r t ht).2.2
  names r t hr := by
    obtain rfl := tracked_writesAs hr
    apply namesApart_of_no_data (Heap.forall_get (P := (·.values = ∅)) rfl (by decide +kernel))
    exact ⟨by decide, by decide, by decide, by decide, by decide, by decide, fun _ => False.elim,
      fun _ => False.elim⟩

def deferredCommit : Except Halt Summary × Workspace × Session Nat :=
  tracked.1.commit (.sql numbering true) { heap := tracked.2, world := 1 }

/-- The fix-up binds the key that the parent has got after the child. -/
theorem foreign_keys_bound_deferred : ∃ k, deferredCommit.2.2.heap.primaryKey? ⟨1⟩ = some ⟨[k]⟩ ∧
    (boundIn deferredCommit.2.2.trace ⟨0⟩ "parent_id").getLast? = some k.toValue := by
  have hok : deferredCommit.1.toOption = some { inserted := 2, fixedUp := 1, rounds := 1 } := by
    decide +kernel
  have hknown : ∀ w₁ h₁, tracked.1.ready? tracked.2 = some (w₁, h₁) → h₁.KnownTargets := by
    intro w₁ h₁ hready r t ht hn
    obtain ⟨rfl, rfl⟩ := tracked_ready hready
    rw [(tracked_targets r t ht).2.1] at hn
    exact Bool.noConfusion hn
  obtain ⟨t, ht, hbinds⟩ := Workspace.foreign_keys_bound
    (tracked_life.sound fun _ => (·.orderly)) tracked_fitForKeys hknown
    (Transaction.sql_writesBy fun _ => rfl) 1 (eq_ok_of_toOption hok) (r := ⟨0⟩)
    (by decide +kernel)
  obtain rfl := tracked_writesAs ht
  exact hbinds "parent" { name := "parent", column := "parent_id", target := "node" } ⟨1⟩ rfl
    (by decide +kernel)

/-! The check that precedes the writing may lengthen the chain that a key is taken through. -/

/-- A type whose records have the key of the record that they refer to. -/
def linkType (name : String) : RecordType where
  name
  table := name
  store := "main"
  key := [.bigInt "id" (.reference "via")]
  columns := []
  references := [{ name := "via", column := "id", target := "link" }]
  key_ne_nil := by simp
  sources_declared := by simp [KeyColumn.undeclared?, KeyColumn.bigInt]

/-- A type whose records have keys of their own. -/
def noteType : RecordType where
  name := "note"
  table := "note"
  store := "main"
  key := [.bigInt "number" .supplied]
  columns := []
  references := [{ name := "about", column := "about_id", target := "link" }]
  key_ne_nil := by simp
  sources_declared := by simp [KeyColumn.undeclared?, KeyColumn.bigInt]

/-- A record with a row, which takes its key from another one. -/
def link (name : String) (target : RecordId) : Record :=
  { Record.persisted (linkType name) with
    references := (∅ : NameMap RecordId).insert "via" target }

/-- A record with a key, fifteen links that take it one from the other, a short cut to it, a link
that takes it from the short cut, a new note about that link, and a new short cut. -/
def loose : Heap :=
  let base := (∅ : Heap).set ⟨0⟩ ((Record.persisted noteType).setSlot 0 (.int64 1))
  let chain := (List.range 15).foldl (fun h i => h.set ⟨i + 1⟩ (link "link" ⟨i⟩)) base
  (((chain.set ⟨16⟩ (link "cut" ⟨0⟩)).set ⟨17⟩ (link "link" ⟨16⟩)).set ⟨18⟩
    { (Record.create noteType).setSlot 0 (.int64 5) with
      references := (∅ : NameMap RecordId).insert "about" ⟨17⟩ }).set ⟨19⟩
    (Record.create (linkType "cut"))

def looseTracked : Workspace × Heap :=
  endState (Workspace.track ⟨19⟩ (endState (Workspace.track ⟨18⟩
    (endState (Workspace.track ⟨16⟩ ({}, loose))))))

/-- The new short cut gets its key in the end, through all the links. -/
def stretched : Workspace × Heap :=
  (looseTracked.1, looseTracked.2.modify ⟨19⟩ fun x =>
    { x with references := x.references.insert "via" ⟨15⟩ })

def stretchedCommit : Except Halt Summary × Workspace × Session Nat :=
  stretched.1.commit (.sql numbering false) { heap := stretched.2, world := 1 }

private theorem stretched_life :
    Life (σ := Nat) (ρ := CancelReason) Transaction.IsSql [] stretched.1 stretched.2 := by
  have hedits : (∅ : Heap).Edits loose := .of_fresh (by decide +kernel)
  have hloose :
      Life (σ := Nat) (ρ := CancelReason) Transaction.IsSql [] looseTracked.1 looseTracked.2 :=
    .track (r := ⟨19⟩) (.track (r := ⟨18⟩) (.track (r := ⟨16⟩) (.edit (.begin {}) hedits)
      (by decide +kernel)) (by decide +kernel)) (by decide +kernel)
  have hcut : looseTracked.2.Edits stretched.2 :=
    .modify (f := fun x => { x with references := x.references.insert "via" ⟨15⟩ }) rfl id id
  exact .edit hloose hcut

private theorem stretched_entries {r : RecordId} {t : RecordType}
    (hr : stretched.1.WritesAs stretched.2 r t) : t = noteType := by
  obtain ⟨w₁, h₁, hready, hm⟩ := hr
  have hall : (stretched.1.ready? stretched.2).all fun (s : Workspace × Heap) =>
      decide (∀ e ∈ entriesOf s.1.insertBatches, e.1 = noteType) := by decide +kernel
  rw [hready] at hall
  exact of_decide_eq_true hall _ hm

private theorem stretched_fitForKeys : stretched.1.FitForKeys stretched.2 where
  unmarked := Heap.forall_get (P := (·.inserted = false)) rfl (by decide +kernel)
  blank r _ := Heap.forall_get (P := fun x => ∀ e ∈ x.keySlots, e.1.isGenerated → e.2 = none)
    (by decide) (by decide +kernel) r
  enrolled w₁ h₁ hready r _ t ht hn := by
    have hall : (stretched.1.ready? stretched.2).all fun (s : Workspace × Heap) =>
        decide (∀ x ∈ s.2.cells.values, ∀ t ∈ x.references.values, (s.2.get t).isNew = false) := by
      decide +kernel
    rw [hready] at hall
    have hold : ∀ t ∈ h₁.targets r, (h₁.get t).isNew = false :=
      Heap.forall_get (P := fun x => ∀ t ∈ x.references.values, (h₁.get t).isNew = false)
        (fun t ht => absurd ht List.not_mem_nil) (of_decide_eq_true hall) r
    rw [hold t ht] at hn
    exact Bool.noConfusion hn
  single := Heap.forall_get (P := fun x => ∀ t ∈ x.references.values,
    (stretched.2.get t).type.arity = 1) (fun t ht => absurd ht List.not_mem_nil) (by decide +kernel)
  names r t hr := by
    obtain rfl := stretched_entries hr
    apply namesApart_of_no_data (Heap.forall_get (P := (·.values = ∅)) rfl (by decide +kernel))
    exact ⟨by decide, by decide, by decide, by decide, by decide, by decide, fun _ => False.elim,
      fun _ => False.elim⟩

private theorem stretched_knownTargets : stretched.2.KnownTargets :=
  Heap.forall_get (P := fun x => ∀ t ∈ x.references.values, (stretched.2.get t).isNew = false →
    (stretched.2.primaryKey? t).isSome) (fun t ht => absurd ht List.not_mem_nil) (by decide +kernel)

/-- It is not enough that the keys of records with rows are known when the commit begins: the new
short cut is folded into the other one, and the note is inserted without a foreign key. -/
theorem not_foreign_keys_bound :
    ¬ ∀ (w : Workspace) (h : Heap) (tx : Transaction Nat) (conn : String → Connection Nat)
        (deferrable : String → Bool) (world : Nat) (summary : Summary),
      Life (σ := Nat) (ρ := CancelReason) Transaction.IsSql [] w h → w.FitForKeys h →
        h.KnownTargets →
        tx.WritesBy conn deferrable → (w.commit tx { heap := h, world }).1 = .ok summary →
          ∀ r ∈ insertedIn (w.commit tx { heap := h, world }).2.2.trace,
            ∃ t, w.WritesAs h r t ∧ (w.commit tx { heap := h, world }).2.2.BindsKeys t r := by
  intro hall
  have hok : stretchedCommit.1.toOption = some { inserted := 1, updated := 1, rounds := 1 } := by
    decide +kernel
  obtain ⟨t, ht, hbinds⟩ := hall stretched.1 stretched.2 (.sql numbering false) numbering _ 1
    _ stretched_life stretched_fitForKeys stretched_knownTargets
    (Transaction.sql_writesBy fun _ => rfl) (eq_ok_of_toOption hok) ⟨18⟩ (by decide +kernel)
  obtain rfl := stretched_entries ht
  obtain ⟨k, hk, -⟩ := hbinds "about"
    { name := "about", column := "about_id", target := "link" } ⟨17⟩ rfl (by decide +kernel)
  have hnone : stretchedCommit.2.2.heap.primaryKey? ⟨17⟩ = none := by decide +kernel
  rw [stretchedCommit] at hnone
  rw [hnone] at hk
  cases hk

end UnitOfWork
