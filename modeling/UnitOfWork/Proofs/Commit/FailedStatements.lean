import UnitOfWork.Proofs.Commit.LeaseDiscipline
import UnitOfWork.Proofs.Sql.RecordFaults

/-!
# Failed statements

When the writing ends with the error of a statement, no other statement has been run after that one.
What the error tells of it is true: its text, the type of the batch that was being written and the
record that it was built for. What the store has told itself is kept.
-/

namespace UnitOfWork

namespace Event

/-- The event announces a batch. -/
def isBatch : Event → Bool
  | insert .. | update .. | delete .. => true
  | acquire _ | query .. | execute .. | errored _ | release _ => false

/-- In this world the store answers the statement by an error, or not by the row that it owes. -/
inductive FailsWith {σ ρ : Type} (conn : String → Connection σ ρ) (world : σ) :
    Event → QueryError → Prop
  | query {store : String} {r : Option RecordId} {st : Statement} {q : QueryError} :
    ((conn store).query st.sql st.params world).1 = .error (.failed (.query q)) →
      FailsWith conn world (.query store r st) q
  | execute {store : String} {r : Option RecordId} {st : Statement} {q : QueryError} :
    ((conn store).execute st.sql st.params world).1 = .error (.failed (.query q)) →
      FailsWith conn world (.execute store r st) q
  | noRow {store : String} {r : Option RecordId} {st : Statement} :
    ((conn store).query st.sql st.params world).1 = .ok none → st.returning ≠ [] →
      FailsWith conn world (.query store r st)
        { fault := .notFound, message := "insert returned no generated values" }

end Event

/-- The batch that has been announced last. -/
def lastBatch (trace : List Event) : Option Event := (trace.filter Event.isBatch).getLast?

private theorem lastBatch_snoc (trace : List Event) (e : Event) :
    lastBatch (trace ++ [e]) = if e.isBatch then some e else lastBatch trace := by
  rw [lastBatch, lastBatch, List.filter_append]
  cases he : e.isBatch <;> simp [he]

/-- The statement writes rows of the type for the batch: the row of the record, if there is one. -/
def Heap.Writes (h : Heap) (t : RecordType) : Event → Option RecordId → Statement → Prop
  | .insert type rs, some r, st => type = t.name ∧ r ∈ rs ∧ h.insertStatement t r = .ok st
  | .update type rs, some r, st => type = t.name ∧ r ∈ rs ∧
    (h.updateStatement? t r = .ok (some st) ∨
      h.updateStatement? t r = .ok none ∧ h.probeStatement t r = .ok st)
  | .delete type rs, none, st => type = t.name ∧ ∃ sts, h.deleteStatements t rs = .ok sts ∧ st ∈ sts
  | _, _, _ => False

/-- The error with the diagnostics that it lacks. -/
def QueryError.completed (q : QueryError) (sql type : String) (record : Option String) :
    QueryError :=
  { q with
    sql := q.sql <|> some sql, type := q.type <|> some type, record := q.record <|> record }

private theorem Error.decorate_eq_query {e : Error} {sql type : String} {record : Option String}
    {q : QueryError} (he : e.decorate (some sql) type record = .query q) :
    ∃ q₀, e = .query q₀ ∧ q = q₀.completed sql type record := by
  cases e with
  | query q₀ => exact ⟨q₀, rfl, (Error.query.inj he).symm⟩
  | missingPrimaryKey | missingObject | unsupportedState | unresolvedDependencies | config
  | mismatch | release | cancelled | custom => cases he

namespace Transaction

variable {σ ρ α β : Type}

/-- The trace accounts for the world. -/
def Replayed (tx : Transaction σ ρ) (conn : String → Connection σ ρ) (world : σ) (s : Session σ) :
    Prop :=
  s.world = tx.replay conn world s.trace

/-- The last thing asked has been refused with the error: the lease of a store, or a statement. -/
inductive Explains (tx : Transaction σ ρ) (conn : String → Connection σ ρ) (world : σ)
    (s : Session σ) (q : QueryError) : Prop
  | lease {before : List Event} {store : String} : s.trace = before ++ [.acquire store] →
    (tx.acquire store (tx.replay conn world before)).1 = .error (.query q) →
    Explains tx conn world s q
  | statement {before : List Event} {last batch : Event} {t : RecordType} {r : Option RecordId}
    {st : Statement} {q₀ : QueryError} : s.trace = before ++ [last] →
    lastBatch before = some batch → last.statement? = some (r, st) →
    last.statementStore? = some t.store → s.heap.Writes t batch r st →
    last.FailsWith conn (tx.replay conn world before) q₀ →
    q = q₀.completed st.sql t.name (r.map s.heap.describe) → Explains tx conn world s q

/-- If it is the error of a statement that the action has stopped with, the trace explains it. -/
def Explained (tx : Transaction σ ρ) (conn : String → Connection σ ρ) (world : σ) (halt : Halt ρ)
    (s : Session σ) : Prop :=
  ∀ q, halt = .failed (.query q) → tx.Explains conn world s q

/-- The batch is being written. -/
structure Serves (tx : Transaction σ ρ) (conn : String → Connection σ ρ) (world : σ) (batch : Event)
    (s : Session σ) : Prop where
  replayed : tx.Replayed conn world s
  batch : lastBatch s.trace = some batch

variable {tx : Transaction σ ρ} {conn : String → Connection σ ρ} {deferrable : String → Bool}
  {world : σ} {batch e : Event} {t : RecordType} {r : RecordId} {h : Heap} {st : Statement}
  {s s' : Session σ}

theorem Replayed.snoc (hs : tx.Replayed conn world s) (ht : s'.trace = s.trace ++ [e])
    (hw : s'.world = tx.replayEvent conn s.world e) : tx.Replayed conn world s' := by
  rw [Replayed, hw, ht, replay_snoc, ← hs]

private theorem replayed_steady : tx.Steady (tx.Replayed conn world) := by
  intro s s' q hs
  obtain ⟨e, -, ht, hw⟩ := q.replay conn
  exact hs.snoc ht hw

theorem Serves.snoc (hs : tx.Serves conn world batch s) (he : e.isBatch = false)
    (ht : s'.trace = s.trace ++ [e]) (hw : s'.world = tx.replayEvent conn s.world e) :
    tx.Serves conn world batch s' where
  replayed := hs.replayed.snoc ht hw
  batch := by rw [ht, lastBatch_snoc, he, ← hs.batch]; rfl

private theorem explained_of_isRecordFault {err : Error} (herr : err.isRecordFault = true)
    (s : Session σ) :
    tx.Explained conn world (.failed err) s := by
  intro q hq
  obtain rfl := Halt.failed.inj hq
  cases herr

private theorem reading_explained {P : Session σ → Prop} {f : Heap → Except Error α}
    (hf : ∀ h, BlamesRecords (f h)) :
    Triple P (Working.reading f) (fun a s => P s ∧ f s.heap = .ok a)
      (tx.Explained conn world) :=
  Triple.reading (fun _ _ hs ha => ⟨hs, ha⟩)
    fun s e _ he => explained_of_isRecordFault (hf s.heap e he) s

private theorem diagnosed_explained {P : Session σ → Prop} {Q : α → Session σ → Prop}
    {E : Halt ρ → Session σ → Prop} {r : Option RecordId} {x : Working σ ρ α} (hx : Triple P x Q E)
    (hquery : ∀ q₀ s, E (.failed (.query q₀)) s →
      tx.Explains conn world s (q₀.completed st.sql t.name (r.map s.heap.describe))) :
    Triple P (Connection.diagnosed t r st x) Q (tx.Explained conn world) := by
  intro s hs
  have hend := hx s hs
  rw [Connection.diagnosed]
  cases hres : x s with
  | ok a s' => rwa [hres] at hend
  | error halt s' =>
    rw [hres] at hend
    cases halt with
    | failed err =>
      intro q hq
      obtain ⟨q₀, rfl, rfl⟩ := Error.decorate_eq_query (Halt.failed.inj hq)
      exact hquery q₀ s' hend
    | cancelled reason | panicked message =>
      intro q hq
      cases hq

private theorem asked_explained {r : Option RecordId} {f : σ → Except (Halt ρ) α × σ}
    (he : e.statement? = some (r, st)) (hstore : e.statementStore? = some t.store)
    (hworld : ∀ world, (f world).2 = tx.replayEvent conn world e)
    (hfails : ∀ world q, (f world).1 = .error (.failed (.query q)) → e.FailsWith conn world q)
    (hst : h.Writes t batch r st) :
    Triple (fun s => tx.Serves conn world batch s ∧ s.heap = h)
      (Connection.diagnosed t r st (.ask e f))
      (fun a s => (tx.Serves conn world batch s ∧ s.heap = h) ∧ ∃ before,
        s.trace = before ++ [e] ∧ lastBatch before = some batch ∧
          (f (tx.replay conn world before)).1 = .ok a)
      (tx.Explained conn world) := by
  have hbatch : e.isBatch = false := by
    cases e <;> first | rfl | cases he
  -- What is asked is answered in the world that the trace accounts for.
  have hask : Triple (fun s => tx.Serves conn world batch s ∧ s.heap = h) (Working.ask e f)
      (fun a s => (tx.Serves conn world batch s ∧ s.heap = h) ∧ ∃ before,
        s.trace = before ++ [e] ∧ lastBatch before = some batch ∧
          (f (tx.replay conn world before)).1 = .ok a)
      (fun halt s => s.heap = h ∧ ∃ before, s.trace = before ++ [e] ∧
        lastBatch before = some batch ∧ (f (tx.replay conn world before)).1 = .error halt) := by
    apply Triple.ask
    · rintro s a ⟨hs, hheap⟩ ha
      have hnext : tx.Serves conn world batch { s.note e with world := (f s.world).2 } :=
        hs.snoc hbatch rfl (hworld s.world)
      rw [hs.replayed] at ha
      exact ⟨⟨hnext, hheap⟩, s.trace, rfl, hs.batch, ha⟩
    · rintro s halt ⟨hs, hheap⟩ hhalt
      rw [hs.replayed] at hhalt
      exact ⟨hheap, s.trace, rfl, hs.batch, hhalt⟩
  apply diagnosed_explained hask
  rintro q₀ s ⟨rfl, before, htrace, hbefore, hfailed⟩
  exact .statement htrace hbefore he hstore hst (hfails _ q₀ hfailed) rfl

variable (hw : tx.WritesBy conn deferrable)

include hw

private theorem perform_explained {r : Option RecordId} (hst : h.Writes t batch r st) :
    Triple (fun s => tx.Serves conn world batch s ∧ s.heap = h) ((conn t.store).perform t r st)
      (fun _ s => tx.Serves conn world batch s ∧ s.heap = h) (tx.Explained conn world) := by
  rw [Connection.perform, hw.store]
  refine (asked_explained (e := .execute t.store r st) rfl rfl (fun _ => rfl)
    (fun _ _ hq => .execute hq) hst).conseq (fun _ h => h) (fun _ _ h => h.1) fun _ _ h => h

private theorem fetch_explained (hst : h.Writes t batch (some r) st) :
    Triple (fun s => tx.Serves conn world batch s ∧ s.heap = h) ((conn t.store).fetch t r st)
      (fun row s => (tx.Serves conn world batch s ∧ s.heap = h) ∧ ∃ before,
        s.trace = before ++ [.query t.store (some r) st] ∧ lastBatch before = some batch ∧
          ((conn t.store).query st.sql st.params (tx.replay conn world before)).1 = .ok row)
      (tx.Explained conn world) := by
  rw [Connection.fetch, hw.store]
  exact asked_explained (e := .query t.store (some r) st) rfl rfl (fun _ => rfl)
    (fun _ _ hq => .query hq) hst

private theorem fetchRow_explained (hst : h.Writes t batch (some r) st)
    (hreturning : st.returning ≠ []) :
    Triple (fun s => tx.Serves conn world batch s ∧ s.heap = h) ((conn t.store).fetchRow t r st)
      (fun _ s => tx.Serves conn world batch s ∧ s.heap = h) (tx.Explained conn world) := by
  rw [Connection.fetchRow]
  apply (fetch_explained hw hst).bind
  intro found
  cases found with
  | some row => exact Triple.pure fun s hs => hs.1
  | none =>
    refine diagnosed_explained (E := fun halt s => (s.heap = h ∧ ∃ before,
      s.trace = before ++ [.query t.store (some r) st] ∧ lastBatch before = some batch ∧
        ((conn t.store).query st.sql st.params (tx.replay conn world before)).1 = .ok none) ∧
      halt = .failed (.query
        { fault := .notFound, message := "insert returned no generated values" }))
      (Triple.fail fun s hs => ⟨⟨hs.1.2, hs.2⟩, rfl⟩) ?_
    rintro q₀ s ⟨⟨rfl, before, htrace, hbefore, hnone⟩, hq⟩
    obtain rfl := Error.query.inj (Halt.failed.inj hq)
    exact .statement htrace hbefore rfl rfl hst (.noRow hnone hreturning) rfl

omit hw

private theorem takeGenerated_explained (r : RecordId) (row : Row) (columns : List String) :
    Triple (tx.Serves conn world batch) (Connection.takeGenerated r row columns)
      (fun _ => tx.Serves conn world batch) (tx.Explained conn world) := by
  induction columns with
  | nil => exact Triple.pure fun _ hs => hs
  | cons column columns ih =>
    rw [Connection.takeGenerated]
    cases row.find? column with
    | none => exact ih
    | some v =>
      apply (reading_explained fun h => (h.get r).applyGenerated_blames column v).bind
      intro content
      exact Triple.bind (Triple.updating fun s hs => ⟨hs.1.replayed, hs.1.batch⟩) fun _ => ih

include hw

private theorem insertOne_explained {rs : List RecordId} {p : PlannedInsert} (hp : p.record ∈ rs) :
    Triple (tx.Serves conn world (.insert t.name rs)) ((conn t.store).insertOne t p)
      (fun _ => tx.Serves conn world (.insert t.name rs)) (tx.Explained conn world) := by
  rw [Connection.insertOne]
  apply (reading_explained fun h => h.insertStatement_blames t p.record).bind
  intro st
  apply Triple.of_starting
  rintro s ⟨hs, hst⟩
  have hwrites : s.heap.Writes t (.insert t.name rs) (some p.record) st := ⟨rfl, hp, hst⟩
  split
  · refine Triple.bind ((perform_explained hw hwrites).starting ⟨hs, rfl⟩) fun _ => ?_
    exact Triple.updating fun s' hs' => ⟨hs'.1.replayed, hs'.1.batch⟩
  · next hreturning =>
    have hne : st.returning ≠ [] := by simpa using hreturning
    refine Triple.bind ((fetchRow_explained hw hwrites hne).starting ⟨hs, rfl⟩) fun row => ?_
    refine Triple.bind ((takeGenerated_explained p.record row st.returning).conseq
      (fun _ hs' => hs'.1) (fun _ _ hs' => hs') fun _ _ he => he) fun _ => ?_
    exact Triple.updating fun s' hs' => ⟨hs'.replayed, hs'.batch⟩

private theorem updateOne_explained {rs : List RecordId} (hr : r ∈ rs) :
    Triple (tx.Serves conn world (.update t.name rs)) ((conn t.store).updateOne t r)
      (fun _ => tx.Serves conn world (.update t.name rs)) (tx.Explained conn world) := by
  rw [Connection.updateOne]
  apply (reading_explained fun h => h.updateStatement?_blames t r).bind
  intro found
  apply Triple.of_starting
  rintro s ⟨hs, hfound⟩
  cases found with
  | some st =>
    have hwrites : s.heap.Writes t (.update t.name rs) (some r) st := ⟨rfl, hr, .inl hfound⟩
    exact ((perform_explained hw hwrites).starting ⟨hs, rfl⟩).conseq (fun _ h => h)
      (fun _ _ h => h.1) fun _ _ h => h
  | none =>
    apply (reading_explained fun h => h.probeStatement_blames t r).bind
    intro st
    apply Triple.of_starting
    rintro s' ⟨rfl, hst⟩
    have hwrites : s'.heap.Writes t (.update t.name rs) (some r) st :=
      ⟨rfl, hr, .inr ⟨hfound, hst⟩⟩
    exact ((fetch_explained hw hwrites).starting ⟨hs, rfl⟩).bind
      fun row => Triple.pure fun _ h => h.1.1

private theorem insert_explained (t : RecordType) (rs : List RecordId) :
    Triple (tx.Serves conn world (.insert t.name rs)) ((tx.writer t.store).insert t rs)
      (fun _ => tx.Serves conn world (.insert t.name rs)) (tx.Explained conn world) := by
  rw [hw.writer]
  apply (reading_explained fun h => h.planInserts_blames _ rs).bind
  intro plan
  apply Triple.of_starting
  rintro s ⟨hs, hplan⟩
  have hwalk : Triple (tx.Serves conn world (.insert t.name rs))
      (plan.inserts.forM ((conn t.store).insertOne t))
      (fun _ => tx.Serves conn world (.insert t.name rs)) (tx.Explained conn world) := by
    apply Triple.forM_of_mem (I := fun _ => tx.Serves conn world (.insert t.name rs))
    intro p hp _
    exact insertOne_explained hw (Heap.planInserts_plans hplan hp).2
  exact (hwalk.starting hs).bind fun _ => Triple.pure fun _ h => h

private theorem update_explained (t : RecordType) (rs : List RecordId) :
    Triple (tx.Serves conn world (.update t.name rs)) ((tx.writer t.store).update t rs)
      (fun _ => tx.Serves conn world (.update t.name rs)) (tx.Explained conn world) := by
  rw [hw.writer]
  apply Triple.mapM_of_mem (I := fun _ => tx.Serves conn world (.update t.name rs))
  intro r hr _
  exact updateOne_explained hw hr

private theorem delete_explained (t : RecordType) (rs : List RecordId) :
    Triple (tx.Serves conn world (.delete t.name rs)) ((tx.writer t.store).delete t rs)
      (fun _ => tx.Serves conn world (.delete t.name rs)) (tx.Explained conn world) := by
  rw [hw.writer]
  apply (reading_explained fun h => h.deleteStatements_blames t rs).bind
  intro sts
  apply Triple.of_starting
  rintro s ⟨hs, hsts⟩
  -- No statement of the walk changes the records that all of them were built from.
  have hwalk : Triple (fun s' => tx.Serves conn world (.delete t.name rs) s' ∧ s'.heap = s.heap)
      (sts.mapM ((conn t.store).perform t none))
      (fun _ s' => tx.Serves conn world (.delete t.name rs) s' ∧ s'.heap = s.heap)
      (tx.Explained conn world) := by
    apply Triple.mapM_of_mem
      (I := fun _ s' => tx.Serves conn world (.delete t.name rs) s' ∧ s'.heap = s.heap)
    intro st hst _
    exact perform_explained hw ⟨rfl, sts, hsts, hst⟩
  exact (hwalk.starting ⟨hs, rfl⟩).bind fun _ => Triple.pure fun _ h => h.1

omit hw

private theorem confirm_explained (t : RecordType) (rs : List RecordId) (counts : List Nat) :
    Triple (tx.Serves conn world batch) (confirm t rs counts)
      (fun _ => tx.Serves conn world batch) (tx.Explained conn world) := by
  apply confirm_spec (fun s r hs => ⟨hs.replayed, hs.batch⟩)
  intro s type record _ q hq
  cases hq

private theorem writing_explained {b : Batch} {x : Writer σ ρ → Working σ ρ α}
    (hbatch : batch.isBatch = true)
    (hquiet : ∀ s : Session σ, tx.Quiet s (s.note batch))
    (hx : Triple (tx.Serves conn world batch) (x (tx.writer b.type.store))
      (fun _ => tx.Serves conn world batch) (tx.Explained conn world)) :
    Triple (fun run => tx.Replayed conn world run.session) (tx.writing b batch x)
      (fun _ run => tx.Replayed conn world run.session)
      fun halt run => tx.Explained conn world halt run.session := by
  refine writing_spec (tx.Serves conn world batch)
    (fun s hs => replayed_steady s _ (.acquire b.type.store) hs) ?_ ?_ ?_
    (hx.conseq (fun _ h => h) (fun _ _ h => h.replayed) fun _ _ h => h)
  · intro s hs
    refine ⟨replayed_steady s _ (hquiet s) hs, ?_⟩
    rw [Session.note, lastBatch_snoc, if_pos hbatch]
  · intro s reason _ _ q hq
    cases hq
  · intro s e hs hrefused q hq
    obtain rfl := Halt.failed.inj hq
    rw [hs] at hrefused
    exact .lease rfl hrefused

private theorem composes_explained (hw : tx.WritesBy conn deferrable) :
    tx.Composes fun x => Triple (fun run => tx.Replayed conn world run.session) x
      (fun _ run => tx.Replayed conn world run.session)
      fun halt run => tx.Explained conn world halt run.session where
  pure _ := Triple.pure fun _ h => h
  bind := Triple.bind
  heap _ hrun := hrun
  unresolved _ _ := Triple.throw fun _ _ q hq => nomatch hq
  insert b := writing_explained rfl (fun _ => .insert _ _) (insert_explained hw b.type b.records)
  update b := by
    apply writing_explained rfl (fun _ => .update _ _)
    apply (update_explained hw b.type b.records).bind
    intro counts
    exact (confirm_explained b.type b.records counts).bind fun _ => Triple.pure fun _ h => h
  delete b := writing_explained rfl (fun _ => .delete _ _) (delete_explained hw b.type b.records)

end Transaction

private theorem rootCause_withFailures {ρ : Type} (failures : List Error) (e : Error) :
    ∃ e', Halt.withFailures (ρ := ρ) failures (.failed e) = .failed e' ∧
      e'.rootCause = e.rootCause := by
  obtain ⟨e', he', -, hroot⟩ := (reports_error (ρ := ρ) (.failed e) failures).failed e rfl
  exact ⟨e', Except.error.inj he', hroot⟩

/-- When the writing of a commit ends with the error of a statement, the commit reports it as the
root cause, and no statement comes after it in the trace. Unless it was a store that could not be
leased, it is the answer to the last statement of the commit, or tells that this one has not given
back the row it owes. To what the store has told, it adds the text of that statement, the type of
the batch being written and, where the statement was built for one record, the description of this
record. -/
theorem commit_reports_failed_statement {σ ρ : Type} {tx : Transaction σ ρ}
    {conn : String → Connection σ ρ} {deferrable : String → Bool}
    (htx : tx.WritesBy conn deferrable) {w w₁ w' : Workspace} {h h₁ : Heap} {world : σ}
    {q : QueryError} {run : Run σ} {result : Except (Halt ρ) Summary} {s' : Session σ}
    (hready : w.ready? h = some (w₁, h₁))
    (hwrite : tx.writeAll w₁ { session := { heap := h₁, world } } =
      .error (.failed (.query q)) run)
    (hend : w.commit tx { heap := h, world } = (result, w', s')) :
    (∃ e, result = .error (.failed e) ∧ e.rootCause = .query q) ∧
      ∃ before last after, s'.trace = before ++ last :: after ∧
        (∀ e ∈ after, e.statement? = none) ∧
        ((∃ store, last = .acquire store ∧
            (tx.acquire store (tx.replay conn world before)).1 = .error (.query q)) ∨
          ∃ batch t r st q₀, lastBatch before = some batch ∧ last.statement? = some (r, st) ∧
            last.statementStore? = some t.store ∧ s'.heap.Writes t batch r st ∧
            last.FailsWith conn (tx.replay conn world before) q₀ ∧
            q = q₀.completed st.sql t.name (r.map s'.heap.describe)) := by
  have hexplained := (Transaction.composes_explained htx).writeAll w₁
    { session := { heap := h₁, world } } rfl
  rw [hwrite] at hexplained
  obtain ⟨hb, hc⟩ := Workspace.ready?_eq_some.mp hready
  have hflush : w₁.flush tx { session := { heap := h₁, world } } =
      (.error (.failed (.query q)), w₁, run) := by
    rw [Workspace.flush, hwrite]
  rw [Workspace.commit, hb, hc] at hend
  simp only [Bool.false_eq_true, if_false, hflush, Prod.mk.injEq] at hend
  obtain ⟨rfl, -, rfl⟩ := hend
  have hreleases : Transaction.Releases run.session (tx.abort (.failed (.query q)) run).2.session :=
    Transaction.abort_releases (.failed (.query q)) run
  obtain ⟨after, htrace, hafter⟩ := hreleases.trace
  constructor
  · obtain ⟨e, he, hroot⟩ := rootCause_withFailures (tx.releaseAll (tx.errorAll run)).1 (.query q)
    exact ⟨e, congrArg _ he, hroot⟩
  · rw [htrace, hreleases.heap]
    rcases hexplained q rfl with ⟨hrun, hrefused⟩ |
      ⟨hrun, hbatch, hstatement, hstore, hwrites, hfails, hq⟩
    · exact ⟨_, _, after, by rw [hrun, List.append_assoc]; rfl, hafter, .inl ⟨_, rfl, hrefused⟩⟩
    · exact ⟨_, _, after, by rw [hrun, List.append_assoc]; rfl, hafter,
        .inr ⟨_, _, _, _, _, hbatch, hstatement, hstore, hwrites, hfails, hq⟩⟩

/-! Two stores, of which the second one is locked when the commit comes to it. -/

def lockedB (store : String) : Connection Nat where
  store
  query _ _ n := (.ok none, n + 1)
  execute _ _ n :=
    (if store = "b" then
      .error (.failed (.query { fault := .database, message := "database is locked" }))
    else .ok 1, n + 1)

/-- The error of a statement that the writing has ended with. -/
def failedStatement? : EStateM.Result Halt (Run Nat) Summary → Option QueryError
  | .error (.failed (.query q)) _ => some q
  | _ => none

private theorem exists_of_failedStatement? {x : EStateM.Result Halt (Run Nat) Summary}
    {q : QueryError}
    (hq : failedStatement? x = some q) : ∃ run, x = .error (.failed (.query q)) run := by
  match x with
  | .error (.failed (.query q')) run =>
    obtain rfl := Option.some.inj hq
    exact ⟨run, rfl⟩

theorem commit_reports_failed_statement_locked :
    ∃ e, (trackedItems.1.commit (.sql lockedB false)
        { heap := trackedItems.2, world := 0 }).1 = .error (.failed e) ∧
      e.rootCause = .query
        { fault := .database, message := "database is locked", type := some "b"
          sql := some "UPDATE \"b\" SET \"title\" = $1 WHERE \"id\" = $2"
          record := some "b(1)" } := by
  have hready : trackedItems.1.ready? trackedItems.2 = some (trackedItems.1, trackedItems.2) := by
    decide +kernel
  have hfailed : failedStatement? ((Transaction.sql lockedB false).writeAll trackedItems.1
      { session := { heap := trackedItems.2, world := 0 } }) = some
        { fault := .database, message := "database is locked", type := some "b"
          sql := some "UPDATE \"b\" SET \"title\" = $1 WHERE \"id\" = $2"
          record := some "b(1)" } := by
    decide +kernel
  obtain ⟨run, hwrite⟩ := exists_of_failedStatement? hfailed
  exact (commit_reports_failed_statement (Transaction.sql_writesBy fun _ => rfl) hready hwrite
    rfl).1

end UnitOfWork
