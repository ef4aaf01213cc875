import UnitOfWork.Proofs.Commit.Inserting
import UnitOfWork.Proofs.Commit.InsertRounds

/-!
# Inserts by statements

The rounds of inserts over connections, record by record. A batch is planned from the records as
they are before it; by then and until its own insert a record changes no more than before, and no
record is inserted twice. So an invariant of all rounds is one of single inserts.
-/

namespace UnitOfWork

theorem Record.isNew_of_state {x : Record} (hx : x.state = .new) : x.isNew := by
  rw [Record.state] at hx
  split at hx
  · cases hx
  · split at hx
    · assumption
    · split at hx <;> cases hx

theorem Record.state_of_isNew {x : Record} (hx : x.isNew) :
    x.state = if x.isDeleted then .deleted else .new := by
  rw [Record.state, if_pos hx]

namespace Heap

/-- What every write by statements leaves alone. -/
structure Keeps (h h' : Heap) : Prop where
  ids : ∀ q ∈ h.ids, q ∈ h'.ids
  type : ∀ q, (h'.get q).type = (h.get q).type
  references : ∀ q, (h'.get q).references = (h.get q).references
  isNew : ∀ q, (h'.get q).isNew = (h.get q).isNew
  isDeleted : ∀ q, (h'.get q).isDeleted = (h.get q).isDeleted
  inserted : ∀ q, (h.get q).inserted → (h'.get q).inserted

namespace Keeps

variable {h h' h'' : Heap}

theorem refl (h : Heap) : h.Keeps h :=
  ⟨fun _ hq => hq, fun _ => rfl, fun _ => rfl, fun _ => rfl, fun _ => rfl, fun _ hi => hi⟩

theorem trans (a : h.Keeps h') (b : h'.Keeps h'') : h.Keeps h'' where
  ids q hq := b.ids q (a.ids q hq)
  type q := (b.type q).trans (a.type q)
  references q := (b.references q).trans (a.references q)
  isNew q := (b.isNew q).trans (a.isNew q)
  isDeleted q := (b.isDeleted q).trans (a.isDeleted q)
  inserted q hi := b.inserted q (a.inserted q hi)

theorem modify_resetChanges (h : Heap) (r : RecordId) : h.Keeps (h.modify r .resetChanges) := by
  refine ⟨fun q hq => mem_ids_modify.mpr (.inr hq), fun q => ?_, fun q => ?_, fun q => ?_,
    fun q => ?_, fun q => ?_⟩
  all_goals
    rw [get_modify]
    split
  any_goals rfl
  all_goals exact id

theorem targets (a : h.Keeps h') (r : RecordId) : h'.targets r = h.targets r := by
  rw [Heap.targets, Heap.targets, a.references]

end Keeps

theorem Stores.keeps {t : RecordType} {r : RecordId} {h h' : Heap} (a : h.Stores t r h') :
    h.Keeps h' :=
  ⟨a.ids, fun q => (a.stored q).type, fun q => (a.stored q).references,
    fun q => (a.stored q).isNew, fun q => (a.stored q).isDeleted, fun q => (a.stored q).inserted⟩

/-- The records as they are when a batch is planned let `p` be written now. -/
structure Plans (h : Heap) (deferrable : Bool) (p : PlannedInsert) : Prop where
  state : (h.get p.record).state = .new
  canInsert : h.canInsert deferrable p.record
  needsFixUp : p.needsFixUp = h.refersToAwaiting p.record

/-- There can be no plan with this record: its row is to be changed, or it is to be deleted. -/
def spoils (h : Heap) (r : RecordId) : Bool :=
  (h.get r).state = .changed || (h.get r).state = .deleted

theorem spoils_eq_false {h : Heap} {r : RecordId} : h.spoils r = false ↔
    (h.get r).state = .new ∨ (h.get r).state = .unchanged := by
  rw [spoils]
  cases (h.get r).state <;> simp

/-- The plan of a batch that no record spoils. -/
def sorted (h : Heap) (deferrable : Bool) (rs : List RecordId) : InsertPlan where
  inserts := (rs.filter fun r => (h.get r).state = .new ∧ h.canInsert deferrable r).map
    fun r => ⟨r, h.refersToAwaiting r⟩
  retries := rs.filter fun r => (h.get r).state = .new ∧ ¬ h.canInsert deferrable r
  skipped := (rs.filter fun r => (h.get r).state = .unchanged).length

theorem planInserts_eq (h : Heap) (deferrable : Bool) (rs : List RecordId) :
    h.planInserts deferrable rs = match rs.find? h.spoils with
      | some r => .error (.unsupportedState (.notInsertable (h.get r).state) (some (h.describe r)))
      | none => .ok (h.sorted deferrable rs) := by
  induction rs with
  | nil => rfl
  | cons r rs ih =>
    rw [planInserts, ih, List.find?_cons, spoils]
    cases hstate : (h.get r).state with
    | changed | deleted => simp [hstate]
    | unchanged =>
      cases rs.find? h.spoils with
      | some q => rfl
      | none => simp [sorted, hstate, bind, Except.bind, pure, Except.pure]
    | new =>
      cases rs.find? h.spoils with
      | some q => rfl
      | none =>
        by_cases hc : h.canInsert deferrable r <;>
          simp [sorted, hstate, hc, bind, Except.bind, pure, Except.pure]

section

variable {h : Heap} {deferrable : Bool} {rs : List RecordId} {plan : InsertPlan}

theorem planInserts_eq_ok : h.planInserts deferrable rs = .ok plan ↔
    (∀ r ∈ rs, h.spoils r = false) ∧ h.sorted deferrable rs = plan := by
  rw [planInserts_eq]
  cases hfirst : rs.find? h.spoils with
  | some r =>
    have hr := List.mem_of_find?_eq_some hfirst
    have hspoils := List.find?_some hfirst
    simp only [reduceCtorEq, false_iff, not_and]
    intro hnone
    simp [hnone r hr] at hspoils
  | none =>
    have hnone : ∀ r ∈ rs, h.spoils r = false := by simpa using hfirst
    rw [Except.ok.injEq]
    exact (and_iff_right hnone).symm

theorem planInserts_ok (hp : h.planInserts deferrable rs = .ok plan) :
    plan.inserts = (rs.filter fun r => (h.get r).state = .new ∧ h.canInsert deferrable r).map
        (fun r => ⟨r, h.refersToAwaiting r⟩) ∧
      plan.retries = rs.filter fun r => (h.get r).state = .new ∧ ¬ h.canInsert deferrable r := by
  obtain ⟨-, rfl⟩ := planInserts_eq_ok.mp hp
  exact ⟨rfl, rfl⟩

theorem state_of_planInserts (hp : h.planInserts deferrable rs = .ok plan) {r : RecordId}
    (hr : r ∈ rs) : (h.get r).state = .new ∨ (h.get r).state = .unchanged :=
  spoils_eq_false.mp ((planInserts_eq_ok.mp hp).1 r hr)

@[simp] theorem records_sorted (h : Heap) (deferrable : Bool) (rs : List RecordId) :
    (h.sorted deferrable rs).inserts.map (·.record) =
      rs.filter fun r => (h.get r).state = .new ∧ h.canInsert deferrable r := by
  rw [sorted, List.map_map]
  exact List.map_id' _

theorem inserts_sublist (hp : h.planInserts deferrable rs = .ok plan) :
    (plan.inserts.map (·.record)).Sublist rs := by
  obtain ⟨-, rfl⟩ := planInserts_eq_ok.mp hp
  rw [records_sorted]
  exact List.filter_sublist

theorem retries_sublist (hp : h.planInserts deferrable rs = .ok plan) :
    plan.retries.Sublist rs := by
  obtain ⟨-, rfl⟩ := planInserts_eq_ok.mp hp
  exact List.filter_sublist

theorem disjoint_planInserts (hp : h.planInserts deferrable rs = .ok plan) :
    (plan.inserts.map (·.record)).Disjoint plan.retries := by
  obtain ⟨-, rfl⟩ := planInserts_eq_ok.mp hp
  rw [records_sorted]
  apply List.disjoint_left.mpr
  intro r hr hr'
  simp only [sorted, List.mem_filter, decide_eq_true_eq] at hr hr'
  exact hr'.2.2 hr.2.2

theorem planInserts_plans (hp : h.planInserts deferrable rs = .ok plan) {p : PlannedInsert}
    (hm : p ∈ plan.inserts) : h.Plans deferrable p ∧ p.record ∈ rs := by
  rw [(planInserts_ok hp).1] at hm
  obtain ⟨r, hr, rfl⟩ := List.mem_map.mp hm
  obtain ⟨hmem, hcond⟩ := List.mem_filter.mp hr
  simp only [decide_eq_true_eq] at hcond
  exact ⟨⟨hcond.1, hcond.2, rfl⟩, hmem⟩

theorem nodup_planInserts {D : List RecordId} (hp : h.planInserts deferrable rs = .ok plan)
    (hn : (rs ++ D).Nodup) :
    (plan.inserts.map (·.record) ++ (plan.retries ++ D)).Nodup := by
  obtain ⟨hrs, hD, hdisj⟩ := List.nodup_append'.mp hn
  have hinserts := inserts_sublist hp
  have hretries := retries_sublist hp
  have hrest : (plan.retries ++ D).Nodup := List.nodup_append'.mpr
    ⟨hrs.sublist hretries, hD, List.disjoint_of_subset_left hretries.subset hdisj⟩
  apply List.nodup_append'.mpr
  refine ⟨hrs.sublist hinserts, hrest, ?_⟩
  apply List.disjoint_append_right.mpr
  exact ⟨disjoint_planInserts hp, List.disjoint_of_subset_left hinserts.subset hdisj⟩

end

end Heap

/-- What has happened in a session since `s`: a record that was inserted before, or is not inserted
yet, is as it was. -/
structure Session.Progress {σ : Type} (s s' : Session σ) : Prop where
  trace : ∃ events, s'.trace = s.trace ++ events
  heap : s.heap.Keeps s'.heap
  same : ∀ q, q ∈ insertedIn s.trace ∨ q ∉ insertedIn s'.trace → s'.heap.get q = s.heap.get q

namespace Session.Progress

variable {σ : Type} {s s' s'' : Session σ}

theorem refl (s : Session σ) : s.Progress s :=
  ⟨⟨[], (List.append_nil _).symm⟩, .refl _, fun _ _ => rfl⟩

theorem mem_insertedIn (a : s.Progress s') {q : RecordId} (hq : q ∈ insertedIn s.trace) :
    q ∈ insertedIn s'.trace := by
  obtain ⟨events, he⟩ := a.trace
  rw [he, insertedIn_append]
  exact List.mem_append_left _ hq

theorem trans (a : s.Progress s') (b : s'.Progress s'') : s.Progress s'' where
  trace := by
    obtain ⟨events, he⟩ := a.trace
    obtain ⟨events', he'⟩ := b.trace
    exact ⟨events ++ events', by rw [he', he, List.append_assoc]⟩
  heap := a.heap.trans b.heap
  same q hq := by
    rcases hq with hq | hq
    · exact (b.same q (.inl (a.mem_insertedIn hq))).trans (a.same q (.inl hq))
    · exact (b.same q (.inr hq)).trans (a.same q (.inr fun hm => hq (b.mem_insertedIn hm)))

end Session.Progress

namespace Connection

variable {σ ρ : Type} {c : Connection σ ρ} {t : RecordType} {r : RecordId} {st : Statement}
  {s s' : Session σ}

theorem Inserts.insertedIn (a : c.Inserts t r st s s') :
    insertedIn s'.trace = insertedIn s.trace ++ [r] := by
  obtain ⟨keyed, -, rfl⟩ := Heap.insertStatement_ok a.statement
  rw [a.trace, insertedIn_append]
  congr 1
  rw [insertEvent]
  split <;> rfl

theorem Inserts.progress (a : c.Inserts t r st s s') (hr : r ∉ UnitOfWork.insertedIn s.trace) :
    s.Progress s' where
  trace := ⟨_, a.trace⟩
  heap := a.heap.keeps
  same q hq := by
    apply a.heap.others q
    intro he
    rw [a.insertedIn, he] at hq
    exact hq.elim hr fun h => h (by simp)

end Connection

namespace Transaction

variable {σ ρ : Type}

/-- The transaction writes to every store by statements over a connection. -/
structure WritesBy (tx : Transaction σ ρ) (conn : String → Connection σ ρ)
    (deferrable : String → Bool) : Prop where
  store : ∀ store, (conn store).store = store
  writer : ∀ store, tx.writer store = .sql (conn store) (deferrable store)

/-- What the insert of every record keeps: `J fixUps s` holds of a session in which no other records
than those listed wait to be fixed up, and gives `E` wherever the inserts stop. Only records with
`A` are inserted, each of them once. -/
structure RecordInvariant (tx : Transaction σ ρ) (conn : String → Connection σ ρ)
    (deferrable : String → Bool) (A : RecordType → RecordId → Prop)
    (J : List (RecordType × RecordId) → Session σ → Prop) (E : Session σ → Prop) : Prop where
  steady : ∀ fixUps, tx.Steady (J fixUps)
  mono : ∀ fixUps fixUps' s, (∀ e ∈ fixUps, e ∈ fixUps') → J fixUps s → J fixUps' s
  stop : ∀ fixUps s, J fixUps s → E s
  insert : ∀ fixUps t p st s₀ s s', A t p.record → s₀.heap.Plans (deferrable t.store) p →
    (p.needsFixUp → (t, p.record) ∈ fixUps) → p.record ∉ insertedIn s.trace →
    J fixUps s₀ → J fixUps s → s₀.Progress s → (conn t.store).Inserts t p.record st s s' →
    E s' ∧ ((conn t.store).Gives p.record st s s' → J fixUps s')

variable {tx : Transaction σ ρ} {conn : String → Connection σ ρ} {deferrable : String → Bool}
  {A : RecordType → RecordId → Prop} {J : List (RecordType × RecordId) → Session σ → Prop}
  {E : Session σ → Prop}

/-- Records that may be inserted, different ones and none of them inserted yet. -/
def Fresh (A : RecordType → RecordId → Prop) (todo : List (RecordType × RecordId))
    (s : Session σ) : Prop :=
  (todo.map Prod.snd).Nodup ∧ ∀ e ∈ todo, A e.1 e.2 ∧ e.2 ∉ insertedIn s.trace

private theorem Fresh.quiet {todo : List (RecordType × RecordId)} {s s' : Session σ}
    (q : tx.Quiet s s') (h : Fresh A todo s) : Fresh A todo s' := by
  obtain ⟨e, he, ht⟩ := q.trace
  have hsame : insertedIn s'.trace = insertedIn s.trace := by
    rw [ht, insertedIn_snoc_other (Event.inserted?_of_statement? he)]
  exact ⟨h.1, fun x hx => by rw [hsame]; exact h.2 x hx⟩

private theorem Fresh.perm {todo todo' : List (RecordType × RecordId)} {s : Session σ}
    (hp : todo.Perm todo') (h : Fresh A todo s) : Fresh A todo' s :=
  ⟨(hp.map _).nodup_iff.mp h.1, fun e he => h.2 e (hp.mem_iff.mpr he)⟩

private theorem RecordInvariant.inserts (hJ : tx.RecordInvariant conn deferrable A J E)
    {t : RecordType} {fixUps : List (RecordType × RecordId)} {s₀ : Session σ}
    (hJ₀ : J fixUps s₀) (rest : List PlannedInsert) (waiting : List RecordId)
    (hplan : ∀ p ∈ rest, A t p.record ∧ s₀.heap.Plans (deferrable t.store) p ∧
      (p.needsFixUp → (t, p.record) ∈ fixUps)) :
    Triple (fun s => J fixUps s ∧ s₀.Progress s ∧ (rest.map (·.record) ++ waiting).Nodup ∧
        ∀ r ∈ rest.map (·.record) ++ waiting, r ∉ insertedIn s.trace)
      (rest.forM ((conn t.store).insertOne t))
      (fun _ s => J fixUps s ∧ ∀ r ∈ waiting, r ∉ insertedIn s.trace) fun _ => E := by
  induction rest with
  | nil => exact Triple.pure fun s h => ⟨h.1, h.2.2.2⟩
  | cons p rest ih =>
    have hrest := ih fun q hq => hplan q (List.mem_cons_of_mem _ hq)
    change Triple _ ((conn t.store).insertOne t p >>= fun _ => rest.forM _) _ _
    refine Triple.bind (Triple.of_starting fun s hs => ?_) fun _ => hrest
    obtain ⟨hJs, hprog, hnodup, hfresh⟩ := hs
    obtain ⟨hA, hp, hfix⟩ := hplan p List.mem_cons_self
    rw [List.map_cons, List.cons_append] at hnodup hfresh
    obtain ⟨hnotin, hnodup⟩ := List.nodup_cons.mp hnodup
    have hnot := hfresh p.record List.mem_cons_self
    have hinsert := fun st s' (a : (conn t.store).Inserts t p.record st s s') =>
      hJ.insert fixUps t p st s₀ s s' hA hp hfix hnot hJ₀ hJs hprog a
    refine ((conn t.store).insertOne_spec t p s).conseq (fun _ h => h) ?_ ?_
    · rintro _ s' ⟨st, hins, hgives⟩
      refine ⟨(hinsert st s' hins).2 hgives, hprog.trans (hins.progress hnot), hnodup, ?_⟩
      intro r hr
      rw [hins.insertedIn, List.mem_append, List.mem_singleton, not_or]
      exact ⟨hfresh r (List.mem_cons_of_mem _ hr), fun he => hnotin (he ▸ hr)⟩
    · rintro _ s' (rfl | ⟨st, hins⟩)
      · exact hJ.stop fixUps s' hJs
      · exact (hinsert st s' hins).1

theorem RecordInvariant.insertInvariant (hw : tx.WritesBy conn deferrable)
    (hJ : tx.RecordInvariant conn deferrable A J E) :
    tx.InsertInvariant (fun todo fixUps s => J fixUps s ∧ Fresh A todo s) fun _ => E where
  steady todo fixUps s s' q h := ⟨hJ.steady fixUps s s' q h.1, h.2.quiet q⟩
  perm todo todo' fixUps s hp h := ⟨h.1, h.2.perm hp⟩
  stop todo fixUps e s h := hJ.stop fixUps s h.1
  batch t rs todo fixUps := by
    rw [hw.writer]
    refine Triple.bind (R := fun plan s => s.heap.planInserts (deferrable t.store) rs = .ok plan ∧
      J fixUps s ∧ Fresh A (rs.map (t, ·) ++ todo) s)
      (Triple.reading (fun s plan hs hp => ⟨hp, hs⟩) fun s e hs _ => hJ.stop fixUps s hs.1)
      fun plan => Triple.of_starting fun s₀ hs => ?_
    obtain ⟨hp, hJ₀, hnodup, hfresh⟩ := hs
    have hsnd : (rs.map (t, ·) ++ todo).map Prod.snd = rs ++ todo.map Prod.snd := by
      simp [Function.comp_def]
    rw [hsnd] at hnodup
    have hplanned := Heap.nodup_planInserts hp hnodup
    have hsub : ∀ r, r ∈ plan.inserts.map (·.record) ++ plan.retries → r ∈ rs := by
      intro r hr
      rcases List.mem_append.mp hr with hr | hr
      · exact (Heap.inserts_sublist hp).subset hr
      · exact (Heap.retries_sublist hp).subset hr
    have hrs : ∀ r ∈ rs, A t r ∧ r ∉ insertedIn s₀.trace := by
      intro r hr
      have hmem : (t, r) ∈ rs.map (t, ·) := List.mem_map_of_mem hr
      exact hfresh (t, r) (List.mem_append_left _ hmem)
    -- All that the plan leaves to be fixed up is known from here on.
    let fixUps' := fixUps ++ plan.results.fixUps.map (t, ·)
    have hJ' : J fixUps' s₀ := hJ.mono _ _ _ (fun e he => List.mem_append_left _ he) hJ₀
    have hwalk := hJ.inserts hJ' plan.inserts (plan.retries ++ todo.map Prod.snd)
      fun p hpm => by
        obtain ⟨hplans, hmem⟩ := Heap.planInserts_plans hp hpm
        refine ⟨(hrs _ hmem).1, hplans, fun hfix => List.mem_append_right _ ?_⟩
        refine List.mem_map_of_mem (List.mem_map_of_mem (List.mem_filter.mpr ⟨hpm, hfix⟩))
    refine Triple.bind (hwalk.starting ⟨hJ', .refl s₀, hplanned, ?_⟩)
      fun _ => Triple.pure fun s h => ⟨h.1, ?_, ?_⟩
    · intro r hr
      rw [← List.append_assoc] at hr
      rcases List.mem_append.mp hr with hr | hr
      · exact (hrs r (hsub r hr)).2
      · obtain ⟨e, he, rfl⟩ := List.mem_map.mp hr
        exact (hfresh e (List.mem_append_right _ he)).2
    · have hw' := (List.nodup_append'.mp hplanned).2.1
      simpa [Function.comp_def, InsertPlan.results] using hw'
    · intro e he
      rcases List.mem_append.mp he with he | he
      · obtain ⟨r, hr, rfl⟩ := List.mem_map.mp he
        have hmem := hsub r (List.mem_append_right _ hr)
        exact ⟨(hrs r hmem).1, h.2 r (List.mem_append_left _ hr)⟩
      · exact ⟨(hfresh e (List.mem_append_right _ he)).1,
          h.2 e.2 (List.mem_append_right _ (List.mem_map_of_mem he))⟩

end Transaction

end UnitOfWork
