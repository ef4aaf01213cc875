import UnitOfWork.Proofs.Commit.BoundValues
import UnitOfWork.Proofs.Commit.InsertedKeys

/-!
# Foreign keys at the time of the inserts

A record is inserted with the key of each record that it refers to, unless one of these is not known
yet, and then it is listed to be fixed up. Whatever is bound is fixed by then, also when the key is
that of a record which takes it from others.
-/

namespace UnitOfWork

namespace Heap

variable {σ : Type}

/-- What the foreign keys of records rely on when the writing begins. Records with `A t` are written
as rows of the type `t`. -/
structure Prepared (h : Heap) (A : RecordType → RecordId → Prop) : Prop where
  unmarked : ∀ r, (h.get r).inserted = false
  blank : ∀ r, (h.get r).isNew → (h.get r).Blank
  unique : ∀ t t' r, A t r → A t' r → t = t'
  known : ∀ t r, A t r → ∀ u ∈ h.targets r, (h.get u).isNew = false → (h.primaryKey? u).isSome
  names : ∀ t r, A t r → t.NamesApart fun name => ((h.get r).values.get? name).isSome

theorem Prepared.unwritten {h : Heap} {A : RecordType → RecordId → Prop} (hp : h.Prepared A) :
    h.Unwritten :=
  ⟨hp.unmarked, hp.blank⟩

private theorem Prepared.knownSources {h : Heap} {A : RecordType → RecordId → Prop}
    (hp : h.Prepared A) {t : RecordType} {r : RecordId} (hA : A t r) : h.KnownSources r :=
  fun u hu => hp.known t r hA u (mem_targets_of_mem_keyTargets hu)

end Heap

/-- For each reference field that a row of the type `t` has a column for, the key that the target
has now is the last value bound to the column. -/
def Session.BoundAs {σ : Type} (s : Session σ) (t : RecordType) (r : RecordId) : Prop :=
  ∀ field ref target, t.reference? field = some ref →
    (s.heap.get r).references.get? field = some target →
      (boundIn s.trace r ref.column).getLast? = some (s.heap.foreignKey target)

/-- What holds while the records with `A` are inserted, since the records were `h`. -/
structure Binding {σ : Type} (h : Heap) (A : RecordType → RecordId → Prop)
    (fixUps : List (RecordType × RecordId)) (s : Session σ) : Prop where
  keeps : h.Keeps s.heap
  same : ∀ q, q ∉ insertedIn s.trace → s.heap.get q = h.get q
  marks : ∀ q, (s.heap.get q).inserted ↔ q ∈ insertedIn s.trace
  isNew : ∀ q ∈ insertedIn s.trace, (h.get q).isNew
  slot : ∀ (q : RecordId) (i : Nat) (c : KeyColumn), (h.get q).type.key[i]? = some c →
    c.isGenerated = false → (s.heap.get q).slots[i]? = (h.get q).slots[i]?
  values : ∀ t q, A t q → ∀ name, ((s.heap.get q).values.get? name).isSome →
    ((h.get q).values.get? name).isSome ∨ t.hasKeyColumn name
  closed : s.heap.KeysClosed
  bound : ∀ q ∈ insertedIn s.trace, ∃ t, A t q ∧
    ((t, q) ∈ fixUps ∨ s.BoundAs t q ∧ ∀ u ∈ h.targets q, s.heap.IsFixed u)

namespace Binding

variable {σ ρ : Type} {h : Heap} {A : RecordType → RecordId → Prop}
  {fixUps : List (RecordType × RecordId)} {s₀ s s' : Session σ}

theorem fixing (hs : Binding h A fixUps s) : Fixing h s :=
  ⟨hs.keeps, hs.same, hs.marks, hs.isNew, hs.slot, hs.closed⟩

theorem start (hp : h.Prepared A) (world : σ) : Binding h A fixUps { heap := h, world } :=
  { Fixing.start hp.unwritten world with
    values := fun _ _ _ _ hv => .inl hv
    bound := fun _ hq => absurd hq List.not_mem_nil }

private theorem quiet {tx : Transaction σ ρ} (q : tx.Quiet s s') (hs : Binding h A fixUps s) :
    Binding h A fixUps s' := by
  obtain ⟨e, he, ht⟩ := q.trace
  have hinserted : insertedIn s'.trace = insertedIn s.trace := by
    rw [ht, insertedIn_snoc_other (Event.inserted?_of_statement? he)]
  have hbound : ∀ r column, boundIn s'.trace r column = boundIn s.trace r column := by
    intro r column
    rw [ht, boundIn_append_others fun e' he' st => by simp [List.mem_singleton.mp he', he]]
  refine { hs.fixing.quiet q with values := ?_, bound := ?_ }
  · rw [q.heap]
    exact hs.values
  · rw [hinserted]
    intro r hr
    obtain ⟨t, hA, hb⟩ := hs.bound r hr
    refine ⟨t, hA, hb.imp_right fun hb => ⟨fun field ref target href htarget => ?_, ?_⟩⟩
    · rw [q.heap] at htarget ⊢
      rw [hbound]
      exact hb.1 field ref target href htarget
    · rw [q.heap]
      exact hb.2

theorem mono {fixUps' : List (RecordType × RecordId)} (hsub : ∀ e ∈ fixUps, e ∈ fixUps')
    (hs : Binding h A fixUps s) : Binding h A fixUps' s :=
  { hs with
    bound := fun q hq => by
      obtain ⟨t, hA, hb⟩ := hs.bound q hq
      exact ⟨t, hA, hb.imp_left (hsub _)⟩ }

private theorem isFixed_of_not_awaitsKey (hp : h.Prepared A) (hs : Binding h A fixUps s)
    {t : RecordType}
    {r u : RecordId} (hA : A t r) (hu : u ∈ h.targets r) (hawait : ¬ s.heap.awaitsKey u) :
    s.heap.IsFixed u :=
  hs.fixing.isFixed_of_not_awaitsKey hp.unwritten (hp.known t r hA u hu) hawait

variable {c : Connection σ ρ} {t : RecordType} {st : Statement}

private theorem mem_targets_of_get? {s : Session σ} {q target : RecordId} {field : String}
    (hkeeps : h.Keeps s.heap) (ht : (s.heap.get q).references.get? field = some target) :
    target ∈ h.targets q := by
  rw [← hkeeps.targets]
  exact Heap.mem_targets.mpr ⟨field, ht⟩

private theorem boundAs_insert_other {r q : RecordId} {t' : RecordType} (hp : h.Prepared A)
    (hs : Binding h A fixUps s) (hn : (h.get r).isNew) (hfresh : r ∉ insertedIn s.trace)
    (a : c.Inserts t r st s s') (hqr : q ≠ r) (hb : s.BoundAs t' q)
    (hu : ∀ u ∈ h.targets q, s.heap.IsFixed u) : s'.BoundAs t' q := by
  intro field ref target href htarget
  rw [a.heap.keeps.references] at htarget
  have hfixed := hu target (mem_targets_of_get? hs.keeps htarget)
  rw [a.trace, boundIn_append_others fun e he st' => ?_,
    (hs.fixing.isFixed_insert hp.unwritten hn hfresh a hfixed).2]
  · exact hb field ref target href htarget
  · rw [List.mem_singleton.mp he, c.statement?_insertEvent]
    simp [Ne.symm hqr]

private theorem boundAs_insert_self {r : RecordId} (hp : h.Prepared A) (hs : Binding h A fixUps s)
    (hn : (h.get r).isNew) (hfresh : r ∉ insertedIn s.trace) (a : c.Inserts t r st s s')
    (hA : A t r) (hu : ∀ u ∈ h.targets r, s.heap.IsFixed u) : s'.BoundAs t r := by
  intro field ref target href htarget
  rw [a.heap.keeps.references] at htarget
  have hfixed := hu target (mem_targets_of_get? hs.keeps htarget)
  have hassigns := Heap.insertStatement_assigns a.statement (hp.names t r hA)
    (fun name hv => by rwa [hs.same r hfresh] at hv) href htarget
  rw [a.trace, (hs.fixing.isFixed_insert hp.unwritten hn hfresh a hfixed).2]
  exact getLast?_boundIn (c.statement?_insertEvent r st) hassigns

private theorem insert (hp : h.Prepared A) {deferrable : Bool} {p : PlannedInsert}
    (hA : A t p.record)
    (hplan : s₀.heap.Plans deferrable p) (hfix : p.needsFixUp → (t, p.record) ∈ fixUps)
    (hfresh : p.record ∉ insertedIn s.trace) (hs₀ : Binding h A fixUps s₀)
    (hs : Binding h A fixUps s) (hprog : s₀.Progress s) (a : c.Inserts t p.record st s s')
    (g : c.Gives p.record st s s') : Binding h A fixUps s' := by
  have hn : (h.get p.record).isNew := by
    rw [← hs₀.keeps.isNew]
    exact Record.isNew_of_state hplan.state
  have hinserted : ∀ q, q ∈ insertedIn s'.trace ↔ q ∈ insertedIn s.trace ∨ q = p.record := by
    intro q
    rw [a.insertedIn, List.mem_append, List.mem_singleton]
  have hfixed : ∀ u, s.heap.IsFixed u → s'.heap.IsFixed u := by
    intro u hu
    exact (hs.fixing.isFixed_insert hp.unwritten hn hfresh a hu).1
  -- What was not waited for when the insert was planned was fixed by then.
  have hready : ∀ u ∈ h.targets p.record, ¬ s₀.heap.awaitsKey u → s.heap.IsFixed u := by
    intro u hu hawait
    exact hs₀.fixing.isFixed hp.unwritten hs.fixing hprog
      (hs₀.isFixed_of_not_awaitsKey hp hA hu hawait)
  have hkey := hs₀.fixing.isFixed_keyTargets hp.unwritten hs.fixing hprog hplan (hp.knownSources hA)
  refine { hs.fixing.insert hp.unwritten hn hfresh a g hkey with values := ?_, bound := ?_ }
  · intro t' q hA' name hv
    by_cases hqr : q = p.record
    · subst hqr
      obtain rfl := hp.unique _ _ _ hA hA'
      rcases a.heap.record.value name hv with hv | hv
      · exact hs.values _ _ hA name hv
      · exact .inr hv
    · rw [a.heap.others q hqr] at hv
      exact hs.values t' q hA' name hv
  · intro q hq
    rcases (hinserted q).mp hq with hq | rfl
    · obtain ⟨t', hA', hb⟩ := hs.bound q hq
      refine ⟨t', hA', ?_⟩
      rcases hb with hb | ⟨hb, hu⟩
      · exact .inl hb
      · have hqr : q ≠ p.record := fun he => hfresh (he ▸ hq)
        have hbound := hs.boundAs_insert_other hp hn hfresh a hqr hb hu
        exact .inr ⟨hbound, fun u hm => hfixed u (hu u hm)⟩
    · refine ⟨t, hA, ?_⟩
      by_cases hneeds : p.needsFixUp
      · exact .inl (hfix hneeds)
      · have hnone : ∀ u ∈ h.targets p.record, s.heap.IsFixed u := by
          intro u hu
          refine hready u hu fun hawait => hneeds ?_
          rw [hplan.needsFixUp]
          exact List.any_eq_true.mpr ⟨u, by rwa [hs₀.keeps.targets], hawait⟩
        have hbound := hs.boundAs_insert_self hp hn hfresh a hA hnone
        exact .inr ⟨hbound, fun u hu => hfixed u (hnone u hu)⟩

end Binding

namespace Transaction

variable {σ ρ : Type} {tx : Transaction σ ρ} {conn : String → Connection σ ρ}
  {deferrable : String → Bool} {h : Heap} {A : RecordType → RecordId → Prop}

theorem binding_invariant (hp : h.Prepared A) :
    tx.RecordInvariant conn deferrable A (fun fixUps s => Binding h A fixUps s) fun _ => True where
  steady _ _ _ q hs := hs.quiet q
  mono _ _ _ hsub hs := hs.mono hsub
  stop _ _ _ := trivial
  insert _ _ _ _ _ _ _ hA hplan hfix hfresh hs₀ hs hprog a :=
    ⟨trivial, fun g => Binding.insert hp hA hplan hfix hfresh hs₀ hs hprog a g⟩

/-- Nothing is fixed up but what was to be inserted. -/
theorem WritesBy.fixUps_invariant (hw : tx.WritesBy conn deferrable)
    (A : RecordType → RecordId → Prop) :
    tx.InsertInvariant (fun todo fixUps _ => (∀ e ∈ todo, A e.1 e.2) ∧ ∀ e ∈ fixUps, A e.1 e.2)
      fun _ _ => True where
  steady _ _ _ _ _ hs := hs
  perm _ _ _ _ hp hs := ⟨fun e he => hs.1 e (hp.mem_iff.mpr he), hs.2⟩
  stop _ _ _ _ _ := trivial
  batch t rs todo fixUps := by
    rw [hw.writer]
    refine Triple.bind (R := fun plan s => s.heap.planInserts (deferrable t.store) rs = .ok plan ∧
      (∀ e ∈ rs.map (t, ·) ++ todo, A e.1 e.2) ∧ ∀ e ∈ fixUps, A e.1 e.2)
      (Triple.reading (fun s plan hs hp => ⟨hp, hs⟩) fun _ _ _ _ => trivial)
      fun plan => Triple.of_starting fun s₀ hs => ?_
    obtain ⟨hplan, htodo, hfix⟩ := hs
    have hrs : ∀ r ∈ rs, A t r := by
      intro r hr
      have hmem : (t, r) ∈ rs.map (t, ·) := List.mem_map_of_mem hr
      exact htodo (t, r) (List.mem_append_left _ hmem)
    refine Triple.bind (R := fun _ _ => True) (?_) fun _ => Triple.pure fun _ _ => ⟨?_, ?_⟩
    · intro s _
      split <;> trivial
    · intro e he
      rcases List.mem_append.mp he with he | he
      · obtain ⟨r, hr, rfl⟩ := List.mem_map.mp he
        exact hrs r ((Heap.retries_sublist hplan).subset hr)
      · exact htodo e (List.mem_append_right _ he)
    · intro e he
      rcases List.mem_append.mp he with he | he
      · exact hfix e he
      · obtain ⟨r, hr, rfl⟩ := List.mem_map.mp he
        obtain ⟨p, hpm, rfl⟩ := List.mem_map.mp hr
        exact hrs _ (Heap.planInserts_plans hplan (List.mem_of_mem_filter hpm)).2

end Transaction

end UnitOfWork
