import UnitOfWork.Proofs.Commit.SqlWriter

/-!
# The course of a commit

While it writes, a commit asks its transaction for leases and has batches written. Its course tells
these requests in order, each with how it was answered and how it shows in the trace. A store is
leased once and written to only then, and a request that is refused is the last one.
-/

namespace UnitOfWork

/-- The store in which a statement is run. -/
def Event.statementStore? : Event → Option String
  | .query store _ _ => some store
  | .execute store _ _ => some store
  | _ => none

/-- How an action has stopped, if it has, and the state it has left. -/
def answer {ε ρ α : Type} : EStateM.Result ε ρ α → Option ε × ρ
  | .ok _ s => (none, s)
  | .error e s => (some e, s)

private theorem answer_snd {ε ρ α : Type} (result : EStateM.Result ε ρ α) :
    (answer result).2 = endState result := by
  cases result <;> rfl

/-- What a commit asks of its transaction while it writes. -/
inductive Request where
  | lease (store : String)
  | insert (type : RecordType) (records : List RecordId)
  | update (type : RecordType) (records : List RecordId)
  | delete (type : RecordType) (records : List RecordId)
  deriving DecidableEq, Repr

namespace Request

/-- How the request itself shows in a trace. -/
def event : Request → Event
  | lease store => .acquire store
  | insert t rs => .insert t.name rs
  | update t rs => .update t.name rs
  | delete t rs => .delete t.name rs

/-- The store that is to be leased. -/
def leased? : Request → Option String
  | lease store => some store
  | _ => none

/-- The store that is to be written to. -/
def written? : Request → Option String
  | lease _ => none
  | insert t _ => some t.store
  | update t _ => some t.store
  | delete t _ => some t.store

/-- Makes the request and tells how it is refused, if it is. -/
def make {σ ρ : Type} (tx : Transaction σ ρ) (s : Session σ) : Request → Option (Halt ρ) × Session σ
  | lease store =>
    let (result, world) := tx.acquire store s.world
    let s := { s.note (.acquire store) with world }
    match result with
    | .ok () => (none, s)
    | .error e => (some (.failed e), s)
  | insert t rs => answer ((tx.writer t.store).insert t rs (s.note (.insert t.name rs)))
  | update t rs => answer ((tx.writer t.store).update t rs (s.note (.update t.name rs)))
  | delete t rs => answer ((tx.writer t.store).delete t rs (s.note (.delete t.name rs)))

/-- With these stores leased, the request may be made: no store is leased again, and only leased
ones are written to. -/
structure IsDue (request : Request) (stores : List String) : Prop where
  fresh : ∀ store, request.leased? = some store → store ∉ stores
  held : ∀ store, request.written? = some store → store ∈ stores

end Request

/-- A request with what it has added to the trace, and how it was refused if it was. -/
structure Exchange (ρ : Type) where
  request : Request
  events : List Event
  refusal : Option (Halt ρ)

/-- Statements of one store have been noted since `s`, and nothing else. -/
def Session.Notes {σ : Type} (store : String) (s s' : Session σ) : Prop :=
  ∃ events, s'.trace = s.trace ++ events ∧ ∀ e ∈ events, e.statementStore? = some store

namespace Session.Notes

variable {σ : Type} {store : String} {s s' : Session σ}

theorem refl (s : Session σ) : s.Notes store s :=
  ⟨[], (List.append_nil _).symm, fun _ h => absurd h List.not_mem_nil⟩

theorem snoc {e : Event} (h : s.Notes store s') (he : e.statementStore? = some store)
    {s'' : Session σ} (ht : s''.trace = s'.trace ++ [e]) : s.Notes store s'' := by
  obtain ⟨events, hevents, hstore⟩ := h
  refine ⟨events ++ [e], by rw [ht, hevents, List.append_assoc], fun e' hm => ?_⟩
  rcases List.mem_append.mp hm with hm | hm
  · exact hstore e' hm
  · rwa [List.mem_singleton.mp hm]

end Session.Notes

private theorem Connection.Updates.statementStore {σ ρ : Type} {c : Connection σ ρ} {t : RecordType}
    {r : RecordId} {s s' : Session σ} (u : c.Updates t r s s') :
    ∃ e : Event, e.statementStore? = some c.store ∧ s'.trace = s.trace ++ [e] := by
  cases u <;> exact ⟨_, rfl, rfl⟩

namespace Transaction

variable {σ ρ : Type} {tx : Transaction σ ρ}

/-- The writer of a store asks nothing of the world but statements of that store. -/
structure Confined (tx : Transaction σ ρ) : Prop where
  insert : ∀ (t : RecordType) rs (s : Session σ),
    s.Notes t.store (endState ((tx.writer t.store).insert t rs s))
  update : ∀ (t : RecordType) rs (s : Session σ),
    s.Notes t.store (endState ((tx.writer t.store).update t rs s))
  delete : ∀ (t : RecordType) rs (s : Session σ),
    s.Notes t.store (endState ((tx.writer t.store).delete t rs s))

theorem WritesBy.confined {conn : String → Connection σ ρ} {deferrable : String → Bool}
    (hw : tx.WritesBy conn deferrable) : tx.Confined := by
  refine ⟨fun t rs s => ?_, fun t rs s => ?_, fun t rs s => ?_⟩
  all_goals
    rw [hw.writer]
    refine preserves_iff.mp ?_ s (.refl s)
  · refine Writer.sql_insert_preserves (fun t' r st s' s'' _ a h => h.snoc ?_ a.trace) t rs
    rw [Connection.insertEvent, hw.store]
    split <;> rfl
  · refine Writer.sql_update_preserves (fun t' r s' s'' u h => ?_) t rs
    obtain ⟨e, he, ht⟩ := u.statementStore
    rw [hw.store] at he
    exact h.snoc he ht
  · refine Writer.sql_delete_preserves (fun st s' h => h.snoc ?_ rfl) t rs
    exact congrArg some (hw.store t.store)

/-- From `run₀` the requests of a list have been made one after the other, and the commit has
stopped if there is a reason. In between it only changes records; it may stop by itself, too. -/
inductive Course (tx : Transaction σ ρ) (run₀ : Run σ) :
    List (Exchange ρ) → Option (Halt ρ) → Run σ → Prop
  | start : Course tx run₀ [] none run₀
  | records {log : List (Exchange ρ)} {run : Run σ} (heap : Heap) : Course tx run₀ log none run →
    Course tx run₀ log none { run with session.heap := heap }
  | granted {log : List (Exchange ρ)} {run : Run σ} {request : Request} {s : Session σ}
    {events : List Event} : Course tx run₀ log none run → request.IsDue run.leases.stores →
    request.make tx run.session = (none, s) → s.trace = run.session.trace ++ events →
    Course tx run₀ (log ++ [⟨request, events, none⟩]) none
      { session := s
        leases := { run.leases with
          stores := run.leases.stores ++ request.leased?.toList } }
  | refused {log : List (Exchange ρ)} {run : Run σ} {request : Request} {halt : Halt ρ}
    {s : Session σ} {events : List Event} : Course tx run₀ log none run →
    request.IsDue run.leases.stores → request.make tx run.session = (some halt, s) →
    s.trace = run.session.trace ++ events →
    Course tx run₀ (log ++ [⟨request, events, some halt⟩]) (some halt) { run with session := s }
  | stopped {log : List (Exchange ρ)} {run : Run σ} (halt : Halt ρ) : Course tx run₀ log none run →
    Course tx run₀ log (some halt) run

/-- The writing is under way. -/
def Going (tx : Transaction σ ρ) (run₀ run : Run σ) : Prop := ∃ log, tx.Course run₀ log none run

/-- The writing has come to an end. -/
def Over (tx : Transaction σ ρ) (run₀ : Run σ) (halt : Halt ρ) (run : Run σ) : Prop :=
  ∃ log, tx.Course run₀ log (some halt) run

/-- The action is a part of the writing. -/
def Proceeds {α : Type} (tx : Transaction σ ρ) (run₀ : Run σ) (x : Leasing σ ρ α) : Prop :=
  Triple (tx.Going run₀) x (fun _ => tx.Going run₀) (tx.Over run₀)

variable {run₀ : Run σ} {α β : Type}

private theorem Going.records {run : Run σ} (h : tx.Going run₀ run) (heap : Heap) :
    tx.Going run₀ { run with session.heap := heap } := by
  obtain ⟨log, hlog⟩ := h
  exact ⟨log, hlog.records heap⟩

private theorem Going.stopped {run : Run σ} (h : tx.Going run₀ run) (halt : Halt ρ) :
    tx.Over run₀ halt run := by
  obtain ⟨log, hlog⟩ := h
  exact ⟨log, hlog.stopped halt⟩

namespace Proceeds

theorem pure (a : α) : tx.Proceeds run₀ (Pure.pure a) := Triple.pure fun _ h => h

theorem throw (halt : Halt ρ) : tx.Proceeds run₀ (MonadExcept.throw halt : Leasing σ ρ α) :=
  Triple.throw fun _ h => h.stopped halt

theorem bind {x : Leasing σ ρ β} {f : β → Leasing σ ρ α} (hx : tx.Proceeds run₀ x)
    (hf : ∀ b, tx.Proceeds run₀ (f b)) : tx.Proceeds run₀ (x >>= f) :=
  Triple.bind hx hf

private theorem checkpoint : tx.Proceeds run₀ tx.checkpoint := by
  intro run hrun
  rw [Transaction.checkpoint]
  cases tx.cancelReason run.session.world with
  | none => exact hrun
  | some reason => exact hrun.stopped _

end Proceeds

/-- The action changes records at most. -/
def ChangesRecords (x : Working σ ρ α) : Prop := ∀ s, ∃ heap, endState (x s) = { s with heap }

theorem ChangesRecords.during {x : Working σ ρ α} (hx : ChangesRecords x) :
    tx.Proceeds run₀ (Leasing.during x) := by
  intro run hrun
  obtain ⟨heap, hheap⟩ := hx run.session
  rw [Leasing.during]
  cases hres : x run.session with
  | ok a s =>
    rw [hres] at hheap
    obtain rfl : s = { run.session with heap } := hheap
    exact hrun.records heap
  | error halt s =>
    rw [hres] at hheap
    obtain rfl : s = { run.session with heap } := hheap
    exact (hrun.records heap).stopped halt

private theorem during_noted (e : Event) (x : Working σ ρ α) (run : Run σ) :
    Leasing.during (do Working.note e; x) run =
      match x (run.session.note e) with
      | .ok a session => .ok a { run with session }
      | .error halt session => .error halt { run with session } :=
  rfl

theorem confirm_changesRecords (t : RecordType) (rs : List RecordId) (counts : List Nat) :
    ChangesRecords (confirm t rs counts : Working σ ρ Unit) := by
  intro s
  have hkeeps : Preserves (fun s' => ∃ heap, s' = { s with heap })
      (confirm t rs counts : Working σ ρ Unit) := by
    refine confirm_preserves ?_ t rs counts
    rintro s' r ⟨heap, rfl⟩
    exact ⟨_, rfl⟩
  exact preserves_iff.mp hkeeps s ⟨s.heap, rfl⟩

private theorem make_lease_trace (store : String) (s : Session σ) :
    ((Request.lease store).make tx s).2.trace = s.trace ++ [.acquire store] := by
  rw [Request.make]
  rcases tx.acquire store s.world with ⟨e | ⟨⟩, world⟩ <;> rfl

private theorem Confined.make_notes (htx : tx.Confined) {request : Request} {store : String}
    (hstore : request.written? = some store) (s : Session σ) :
    (s.note request.event).Notes store (request.make tx s).2 := by
  cases request with
  | lease store => cases hstore
  | insert t rs =>
    obtain rfl := Option.some.inj hstore
    rw [Request.make, answer_snd]
    exact htx.insert t rs _
  | update t rs =>
    obtain rfl := Option.some.inj hstore
    rw [Request.make, answer_snd]
    exact htx.update t rs _
  | delete t rs =>
    obtain rfl := Option.some.inj hstore
    rw [Request.make, answer_snd]
    exact htx.delete t rs _

theorem Confined.make_trace (htx : tx.Confined) (request : Request) (s : Session σ) :
    ∃ statements, (request.make tx s).2.trace = s.trace ++ (request.event :: statements) ∧
      ∀ e ∈ statements, ∃ store, request.written? = some store ∧
        e.statementStore? = some store := by
  cases hstore : request.written? with
  | none =>
    obtain ⟨store, rfl⟩ : ∃ store, request = .lease store := by
      cases request <;> first | exact ⟨_, rfl⟩ | cases hstore
    exact ⟨[], make_lease_trace store s, fun _ h => absurd h List.not_mem_nil⟩
  | some store =>
    obtain ⟨statements, htrace, hall⟩ := htx.make_notes hstore s
    refine ⟨statements, by rw [htrace, Session.note, List.append_assoc]; rfl, fun e he => ?_⟩
    exact ⟨store, rfl, hall e he⟩

private theorem Going.make (htx : tx.Confined) {run : Run σ} {request : Request}
    (h : tx.Going run₀ run) (hdue : request.IsDue run.leases.stores) :
    match request.make tx run.session with
    | (none, s) => tx.Going run₀
      { session := s
        leases := { run.leases with stores := run.leases.stores ++ request.leased?.toList } }
    | (some halt, s) => tx.Over run₀ halt { run with session := s } := by
  obtain ⟨log, hlog⟩ := h
  obtain ⟨statements, htrace, -⟩ := htx.make_trace request run.session
  rcases hres : request.make tx run.session with ⟨_ | halt, s⟩
  · rw [hres] at htrace
    exact ⟨_, hlog.granted hdue hres htrace⟩
  · rw [hres] at htrace
    exact ⟨_, hlog.refused hdue hres htrace⟩

private theorem lease_proceeds (htx : tx.Confined) (store : String) :
    Triple (tx.Going run₀) (tx.lease store)
      (fun w run => (tx.Going run₀ run ∧ store ∈ run.leases.stores) ∧ w = tx.writer store)
      (tx.Over run₀) := by
  rw [lease]
  apply Triple.get_bind
  intro run hrun
  split
  · next hheld => exact Triple.pure fun _ hs => hs ▸ ⟨⟨hrun, hheld⟩, rfl⟩
  · next hfresh =>
    have hdue : (Request.lease store).IsDue run.leases.stores := by
      refine ⟨fun store' h => ?_, fun _ h => by cases h⟩
      obtain rfl := Option.some.inj h
      exact hfresh
    have hmake := hrun.make htx hdue
    rw [Request.make] at hmake
    refine Triple.bind (R := fun _ run' => tx.Going run₀
      { run' with leases.stores := run'.leases.stores ++ [store] }) ?_ ?_
    · rintro run' rfl
      rw [Leasing.during, Working.ask]
      rcases hanswer : tx.acquire store run'.session.world with ⟨e | ⟨⟩, world⟩
      · rw [hanswer] at hmake
        simpa [Session.note, hanswer] using hmake
      · rw [hanswer] at hmake
        simpa [Session.note, hanswer, Request.leased?] using hmake
    · intro _ run' hrun'
      exact ⟨⟨hrun', List.mem_append_right _ List.mem_cons_self⟩, rfl⟩

/-- A batch is handed to the writer of its store once that is leased. -/
theorem writing_proceeds (htx : tx.Confined) {b : Batch} (request : Request)
    (x : Writer σ ρ → Working σ ρ α) (hfresh : request.leased? = none)
    (hstore : request.written? = some b.type.store)
    (hmake : ∀ s, request.make tx s =
      answer (x (tx.writer b.type.store) (s.note request.event))) :
    tx.Proceeds run₀ (tx.writing b request.event x) := by
  rw [writing]
  apply Proceeds.checkpoint.bind
  intro _
  apply Triple.bind (lease_proceeds htx b.type.store)
  intro w
  apply Triple.assuming
  rintro rfl
  rintro run ⟨hrun, hheld⟩
  have hdue : request.IsDue run.leases.stores := by
    refine ⟨fun store h => ?_, fun store h => ?_⟩
    · rw [hfresh] at h
      cases h
    · rw [hstore] at h
      rwa [← Option.some.inj h]
  have hgoing := hrun.make htx hdue
  rw [hmake, hfresh, Option.toList_none, List.append_nil] at hgoing
  rw [during_noted]
  cases hres : x (tx.writer b.type.store) (run.session.note request.event) with
  | ok a s => rw [hres] at hgoing; exact hgoing
  | error halt s => rw [hres] at hgoing; exact hgoing

private theorem updateBatch_proceeds (htx : tx.Confined) (b : Batch) :
    tx.Proceeds run₀ (tx.updateBatch b) := by
  rw [updateBatch_eq]
  apply Proceeds.bind (writing_proceeds htx (.update b.type b.records) _ rfl rfl fun _ => rfl)
  intro counts
  rw [Leasing.during_bind]
  exact (confirm_changesRecords b.type b.records counts).during.bind fun _ =>
    ChangesRecords.during fun s => ⟨s.heap, rfl⟩

theorem deleteBatch_proceeds (htx : tx.Confined) (b : Batch) :
    tx.Proceeds run₀ (tx.deleteBatch b) :=
  writing_proceeds htx (.delete b.type b.records) _ rfl rfl fun _ => rfl

private theorem composes_proceeds (htx : tx.Confined) : tx.Composes (tx.Proceeds run₀) where
  pure := .pure
  bind := .bind
  heap _ hrun := hrun
  unresolved _ _ := .throw _
  insert b := writing_proceeds htx (.insert b.type b.records) _ rfl rfl fun _ => rfl
  update := updateBatch_proceeds htx
  delete := deleteBatch_proceeds htx

end Transaction

/-- How something has stopped, if it has. -/
def haltOf {ρ α : Type} : Except (Halt ρ) α → Option (Halt ρ)
  | .ok _ => none
  | .error halt => some halt

/-- Writing and settling a workspace is a course of requests. -/
theorem Workspace.flush_course {σ ρ : Type} {tx : Transaction σ ρ} (htx : tx.Confined)
    (w : Workspace) (run₀ : Run σ) :
    ∃ log, tx.Course run₀ log (haltOf (w.flush tx run₀).1) (w.flush tx run₀).2.2 := by
  have hwrite := (Transaction.composes_proceeds htx).writeAll w run₀ ⟨[], .start⟩
  rw [flush]
  cases hres : tx.writeAll w run₀ with
  | error halt run =>
    rw [hres] at hwrite
    exact hwrite
  | ok summary run =>
    rw [hres] at hwrite
    dsimp only
    cases settle (w, run.session.heap) with
    | ok _ s => exact hwrite.records s.2
    | error e s => exact (hwrite.records s.2).stopped _

end UnitOfWork
