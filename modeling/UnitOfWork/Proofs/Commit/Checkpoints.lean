import UnitOfWork.Proofs.Commit.LeaseDiscipline

/-!
# Looking for a cancellation

A commit looks whether it is cancelled before it hands a batch to a writer, and nowhere else. So it
does the same as if nobody could cancel it until it is found to be cancelled where that commit goes
on to a request, for a lease or to a writer.
-/

namespace UnitOfWork

namespace Event

/-- A store is leased, or a batch is handed to a writer. -/
def isRequest : Event → Bool
  | acquire _ | insert .. | update .. | delete .. => true
  | query .. | execute .. | errored _ | release _ => false

/-- The store that is leased. -/
def acquired? : Event → Option String
  | acquire store => some store
  | _ => none

private theorem isRequest_of_statementStore? {e : Event} {store : String}
    (he : e.statementStore? = some store) : e.isRequest = false ∧ e.acquired? = none := by
  cases e <;> first | exact ⟨rfl, rfl⟩ | cases he

end Event

/-- The stores that have been asked for, the first one first. -/
def leasedIn (events : List Event) : List String := events.filterMap Event.acquired?

private theorem leasedIn_append (events others : List Event) :
    leasedIn (events ++ others) = leasedIn events ++ leasedIn others :=
  List.filterMap_append

/-- Statements of one store have been run since `s`, where `step` tells what an event does to the
world. -/
def Session.Runs {σ : Type} (step : σ → Event → σ) (store : String) (s s' : Session σ) : Prop :=
  ∃ events, s'.trace = s.trace ++ events ∧ s'.world = events.foldl step s.world ∧
    ∀ e ∈ events, e.statementStore? = some store

namespace Session.Runs

variable {σ : Type} {step : σ → Event → σ} {store : String} {s s' s'' : Session σ}

theorem refl (s : Session σ) : s.Runs step store s :=
  ⟨[], (List.append_nil _).symm, rfl, fun _ h => absurd h List.not_mem_nil⟩

theorem snoc {e : Event} (h : s.Runs step store s') (he : e.statementStore? = some store)
    (ht : s''.trace = s'.trace ++ [e]) (hw : s''.world = step s'.world e) :
    s.Runs step store s'' := by
  obtain ⟨events, hevents, hworld, hstore⟩ := h
  refine ⟨events ++ [e], by rw [ht, hevents, List.append_assoc], ?_, fun e' hm => ?_⟩
  · rw [hw, hworld, List.foldl_concat]
  · rcases List.mem_append.mp hm with hm | hm
    · exact hstore e' hm
    · rwa [List.mem_singleton.mp hm]

private theorem notes (h : s.Runs step store s') : s.Notes store s' := by
  obtain ⟨events, htrace, -, hstore⟩ := h
  exact ⟨events, htrace, hstore⟩

end Session.Runs

namespace Transaction

variable {σ ρ : Type} {tx : Transaction σ ρ} {step : σ → Event → σ} {α β : Type}

/-- Every change of the world shows in the trace: `step` tells what an event does to it. -/
structure Traces (tx : Transaction σ ρ) (step : σ → Event → σ) : Prop where
  acquire : ∀ store world, (tx.acquire store world).2 = step world (.acquire store)
  announce : ∀ (request : Request) world, request.leased? = none → step world request.event = world
  insert : ∀ (t : RecordType) rs (s : Session σ),
    s.Runs step t.store (endState ((tx.writer t.store).insert t rs s))
  update : ∀ (t : RecordType) rs (s : Session σ),
    s.Runs step t.store (endState ((tx.writer t.store).update t rs s))
  delete : ∀ (t : RecordType) rs (s : Session σ),
    s.Runs step t.store (endState ((tx.writer t.store).delete t rs s))

theorem Traces.confined (hs : tx.Traces step) : tx.Confined where
  insert t rs s := (hs.insert t rs s).notes
  update t rs s := (hs.update t rs s).notes
  delete t rs s := (hs.delete t rs s).notes

theorem WritesBy.traces {conn : String → Connection σ ρ} {deferrable : String → Bool}
    (hw : tx.WritesBy conn deferrable) : tx.Traces (tx.replayEvent conn) := by
  refine ⟨fun _ _ => rfl, fun request world hr => ?_, fun t rs s => ?_, fun t rs s => ?_,
    fun t rs s => ?_⟩
  · cases request <;> first | rfl | cases hr
  all_goals
    rw [hw.writer]
    refine preserves_iff.mp ?_ s (.refl s)
  · refine Writer.sql_insert_preserves (fun t' r st s' s'' _ a h => ?_) t rs
    have htrace := a.trace
    have hworld := a.world
    rw [Connection.insertEvent, hw.store] at htrace
    split at htrace
    · next hr =>
      rw [if_pos hr] at hworld
      exact h.snoc rfl htrace hworld
    · next hr =>
      rw [if_neg hr] at hworld
      exact h.snoc rfl htrace hworld
  · refine Writer.sql_update_preserves (fun t' r s' s'' u h => ?_) t rs
    cases u with
    | update hst =>
      exact h.snoc (e := .execute t.store (some r) _) rfl
        (by rw [Connection.executed, hw.store]; rfl) rfl
    | probe _ hst =>
      exact h.snoc (e := .query t.store (some r) _) rfl
        (by rw [Connection.queried, hw.store]; rfl) rfl
  · refine Writer.sql_delete_preserves (fun st s' h => ?_) t rs
    exact h.snoc (e := .execute t.store none st) rfl
      (by rw [Connection.executed, hw.store]; rfl) rfl

/-- The same transaction, when nobody cancels the commit. -/
def uncancelled (tx : Transaction σ ρ) : Transaction σ ρ :=
  { tx with cancelReason := fun _ => none }

theorem Confined.uncancelled (htx : tx.Confined) : tx.uncancelled.Confined :=
  ⟨htx.insert, htx.update, htx.delete⟩

private theorem uncancelled_giveBack (s : Session σ) (stores : List String) :
    tx.uncancelled.giveBack s stores = tx.giveBack s stores := by
  induction stores generalizing s with
  | nil => rfl
  | cons store stores ih =>
    simp only [giveBack, ih]
    rfl

theorem uncancelled_conclude (run : Run σ) : tx.uncancelled.conclude run = tx.conclude run := by
  rw [conclude, conclude, releaseAll, releaseAll, uncancelled_giveBack]

theorem uncancelled_abort (halt : Halt ρ) (run : Run σ) :
    tx.uncancelled.abort halt run = tx.abort halt run := by
  rw [abort, abort, releaseAll, releaseAll, uncancelled_giveBack]
  rfl

/-- What `writing` does when the commit is not cancelled. -/
def handing (tx : Transaction σ ρ) (b : Batch) (e : Event) (x : Writer σ ρ → Working σ ρ α) :
    Leasing σ ρ α := do
  let w ← tx.lease b.type.store
  Leasing.during do
    Working.note e
    x w

private theorem writing_cancelled {b : Batch} {e : Event} {x : Writer σ ρ → Working σ ρ α}
    {run : Run σ} {reason : ρ} (hc : tx.cancelReason run.session.world = some reason) :
    tx.writing b e x run = .error (.cancelled reason) run := by
  change EStateM.bind _ _ run = _
  rw [EStateM.bind, checkpoint, hc]

private theorem writing_handing {b : Batch} {e : Event} {x : Writer σ ρ → Working σ ρ α}
    {run : Run σ} (hc : tx.cancelReason run.session.world = none) :
    tx.writing b e x run = tx.handing b e x run := by
  change EStateM.bind _ _ run = _
  rw [EStateM.bind, checkpoint, hc]
  rfl

private theorem uncancelled_writing (b : Batch) (e : Event) (x : Writer σ ρ → Working σ ρ α)
    (run : Run σ) :
    tx.uncancelled.writing b e x run = tx.handing b e x run :=
  writing_handing rfl

section Runs

variable (tx step) (world : σ)

/-- The commit was found not to be cancelled, and no statement has been run since then. -/
def Cleared (events : List Event) : Prop :=
  ∃ before after, events = before ++ after ∧
    tx.cancelReason (before.foldl step world) = none ∧ ∀ e ∈ after, e.statement? = none

/-- Nothing was requested unless the commit had been found not to be cancelled. -/
def Checked (events : List Event) : Prop :=
  ∀ i e, events[i]? = some e → e.isRequest → tx.Cleared step world (events.take i)

/-- Everything that was asked of the world has been granted so far. -/
structure Intact (run : Run σ) : Prop where
  replayed : run.session.world = run.session.trace.foldl step world
  checked : tx.Checked step world run.session.trace
  leases : run.leases = { stores := leasedIn run.session.trace }

/-- An action has left the commit intact, or has stopped it by itself. -/
def Leaves : EStateM.Result (Halt ρ) (Run σ) α → Prop
  | .ok _ run => tx.Intact step world run
  | .error _ run => tx.Checked step world run.session.trace

/-- The commit was found to be cancelled just before the other run, which has ended as `result`,
went on to a request. -/
def Stops (run : Run σ) (reason : ρ) (result : EStateM.Result (Halt ρ) (Run σ) α) : Prop :=
  tx.Intact step world run ∧ tx.cancelReason run.session.world = some reason ∧
    ∃ e rest, e.isRequest ∧ (endState result).session.trace = run.session.trace ++ e :: rest

/-- The first action does the same as the second one, unless it is cancelled before a request. -/
structure Tracks (x y : Leasing σ ρ α) : Prop where
  proceeds : ∀ run₀, tx.uncancelled.Proceeds run₀ y
  runs : ∀ run, tx.Intact step world run →
    (x run = y run ∧ tx.Leaves step world (y run)) ∨
    ∃ reason run', x run = .error (.cancelled reason) run' ∧
      tx.Stops step world run' reason (y run)

end Runs

variable {world : σ} {events : List Event} {run : Run σ}

theorem Cleared.snoc {e : Event} (h : tx.Cleared step world events) (he : e.statement? = none) :
    tx.Cleared step world (events ++ [e]) := by
  obtain ⟨before, after, rfl, hc, hafter⟩ := h
  refine ⟨before, after ++ [e], List.append_assoc .., hc, fun e' hm => ?_⟩
  rcases List.mem_append.mp hm with hm | hm
  · exact hafter e' hm
  · rwa [List.mem_singleton.mp hm]

theorem Checked.snoc {e : Event} (h : tx.Checked step world events)
    (he : e.isRequest → tx.Cleared step world events) :
    tx.Checked step world (events ++ [e]) := by
  have hsnoc := forall_getElem?_snoc (l := events) (a := e)
    (P := fun before e => e.isRequest → tx.Cleared step world before)
  exact hsnoc.mpr ⟨h, he⟩

theorem Checked.append {others : List Event} (h : tx.Checked step world events)
    (he : ∀ e ∈ others, e.isRequest = false) : tx.Checked step world (events ++ others) := by
  induction others generalizing events with
  | nil => rwa [List.append_nil]
  | cons e others ih =>
    obtain ⟨hfirst, hothers⟩ := List.forall_mem_cons.mp he
    rw [List.append_cons]
    exact ih (h.snoc fun hr => by rw [hfirst] at hr; cases hr) hothers

private theorem Intact.heap (h : tx.Intact step world run) (heap : Heap) :
    tx.Intact step world { run with session.heap := heap } :=
  ⟨h.replayed, h.checked, h.leases⟩

private theorem Intact.leaves {result : EStateM.Result (Halt ρ) (Run σ) α}
    (h : tx.Intact step world (endState result)) : tx.Leaves step world result := by
  cases result with
  | ok a run => exact h
  | error halt run => exact h.checked

private theorem Course.trace_append {run₀ : Run σ} {log : List (Exchange ρ)}
    {stop : Option (Halt ρ)} (hc : tx.Course run₀ log stop run) :
    ∃ events, run.session.trace = run₀.session.trace ++ events := by
  induction hc with
  | start => exact ⟨[], (List.append_nil _).symm⟩
  | records heap _ ih => exact ih
  | granted _ _ _ htrace ih | refused _ _ _ htrace ih =>
    obtain ⟨events, hevents⟩ := ih
    exact ⟨events ++ _, by rw [htrace, hevents, List.append_assoc]⟩
  | stopped halt _ ih => exact ih

private theorem Proceeds.trace_append {x : Leasing σ ρ α} (hx : ∀ run₀, tx.Proceeds run₀ x)
    (run : Run σ) :
    ∃ events, (endState (x run)).session.trace = run.session.trace ++ events := by
  have hend := hx run run ⟨[], .start⟩
  cases hres : x run with
  | ok a run' | error halt run' =>
    rw [hres] at hend
    obtain ⟨log, hlog⟩ := hend
    exact hlog.trace_append

/-! ## A batch -/

/-- A run in which a store has been asked for. -/
def asked (tx : Transaction σ ρ) (store : String) (s : Session σ) : Session σ :=
  { s.note (.acquire store) with world := (tx.acquire store s.world).2 }

theorem lease_cases (tx : Transaction σ ρ) (store : String) (run : Run σ) :
    tx.lease store run = .ok (tx.writer store) run ∨
    tx.lease store run = .ok (tx.writer store)
      { session := tx.asked store run.session
        leases := { run.leases with stores := run.leases.stores ++ [store] } } ∨
    ∃ e, tx.lease store run =
      .error (.failed e) { run with session := tx.asked store run.session } := by
  change (if store ∈ run.leases.stores then pure (tx.writer store) else _ : Leasing σ ρ _) run = _ ∨
    (if store ∈ run.leases.stores then pure (tx.writer store) else _ : Leasing σ ρ _) run = _ ∨
    ∃ e, (if store ∈ run.leases.stores then pure (tx.writer store) else _ : Leasing σ ρ _) run = _
  split
  · exact .inl rfl
  · refine .inr ?_
    change EStateM.bind _ _ run = _ ∨ ∃ e, EStateM.bind _ _ run = _
    simp only [EStateM.bind, Leasing.during, Working.ask, asked, Session.note]
    rcases tx.acquire store run.session.world with ⟨e | ⟨⟩, world⟩
    · exact .inr ⟨e, rfl⟩
    · exact .inl rfl

private theorem handing_eq (b : Batch) (e : Event) (x : Writer σ ρ → Working σ ρ α) (run : Run σ) :
    tx.handing b e x run = match tx.lease b.type.store run with
      | .ok w run => Leasing.during (do Working.note e; x w) run
      | .error halt run => .error halt run := by
  change EStateM.bind _ _ run = _
  rw [EStateM.bind]
  cases tx.lease b.type.store run <;> rfl

private theorem endState_during (x : Working σ ρ α) (run : Run σ) :
    endState (Leasing.during x run) = { run with session := endState (x run.session) } := by
  rw [Leasing.during]
  cases x run.session <;> rfl

private theorem Intact.cleared (h : tx.Intact step world run)
    (hc : tx.cancelReason run.session.world = none) :
    tx.Cleared step world run.session.trace :=
  ⟨_, [], (List.append_nil _).symm, h.replayed ▸ hc, fun _ h => absurd h List.not_mem_nil⟩

private theorem Intact.leased (hs : tx.Traces step) (h : tx.Intact step world run)
    (hc : tx.Cleared step world run.session.trace) (store : String) :
    tx.Intact step world
      { session := tx.asked store run.session
        leases := { run.leases with stores := run.leases.stores ++ [store] } } where
  replayed := by
    rw [asked, Session.note, List.foldl_concat, ← h.replayed, hs.acquire]
  checked := h.checked.snoc fun _ => hc
  leases := by
    rw [h.leases, asked, Session.note, leasedIn_append]
    rfl

private theorem Intact.written (hs : tx.Traces step) (h : tx.Intact step world run)
    (hc : tx.Cleared step world run.session.trace) {request : Request} {store : String}
    (hfresh : request.leased? = none) {s : Session σ}
    (hruns : (run.session.note request.event).Runs step store s) :
    tx.Intact step world { run with session := s } := by
  obtain ⟨statements, htrace, hworld, hall⟩ := hruns
  have hquiet : ∀ e ∈ statements, e.isRequest = false ∧ e.acquired? = none :=
    fun e he => Event.isRequest_of_statementStore? (hall e he)
  have hrequest : request.event.acquired? = none := by
    cases request <;> first | rfl | cases hfresh
  constructor
  · change s.world = s.trace.foldl step world
    rw [hworld, htrace, List.foldl_append, Session.note, List.foldl_concat, ← h.replayed,
      hs.announce request _ hfresh]
  · change tx.Checked step world s.trace
    rw [htrace]
    exact (h.checked.snoc fun _ => hc).append fun e he => (hquiet e he).1
  · change run.leases = { stores := leasedIn s.trace }
    have hannounced : leasedIn [request.event] = [] := by
      rw [leasedIn, List.filterMap_cons, hrequest, List.filterMap_nil]
    have hstatements : leasedIn statements = [] :=
      List.filterMap_eq_nil_iff.mpr fun e he => (hquiet e he).2
    rw [htrace, Session.note, leasedIn_append, leasedIn_append, hannounced, hstatements,
      List.append_nil, List.append_nil, h.leases]

variable {b : Batch} {request : Request} {x : Writer σ ρ → Working σ ρ α}

private theorem handing_requests (hfresh : request.leased? = none)
    (hx : ∀ s : Session σ, s.Runs step b.type.store (endState (x (tx.writer b.type.store) s)))
    (run : Run σ) :
    ∃ e rest, e.isRequest ∧ (endState (tx.handing b request.event x run)).session.trace =
      run.session.trace ++ e :: rest := by
  have hrequest : request.event.isRequest := by cases request <;> rfl
  have hwritten : ∀ run : Run σ, ∃ rest, (endState (Leasing.during
      (do Working.note request.event; x (tx.writer b.type.store)) run)).session.trace =
        run.session.trace ++ request.event :: rest := by
    intro run
    obtain ⟨statements, htrace, -⟩ := hx (run.session.note request.event)
    refine ⟨statements, ?_⟩
    rw [endState_during]
    exact htrace.trans (List.append_assoc ..)
  rw [handing_eq]
  rcases tx.lease_cases b.type.store run with h | h | ⟨e, h⟩ <;> rw [h]
  · obtain ⟨rest, hrest⟩ := hwritten run
    exact ⟨_, rest, hrequest, hrest⟩
  · obtain ⟨rest, hrest⟩ := hwritten
      { session := tx.asked b.type.store run.session
        leases := { run.leases with stores := run.leases.stores ++ [b.type.store] } }
    exact ⟨.acquire b.type.store, _, rfl, hrest.trans (List.append_assoc ..)⟩
  · exact ⟨.acquire b.type.store, [], rfl, rfl⟩

private theorem handing_intact (hs : tx.Traces step) (hfresh : request.leased? = none)
    (hx : ∀ s : Session σ, s.Runs step b.type.store (endState (x (tx.writer b.type.store) s)))
    (h : tx.Intact step world run) (hc : tx.cancelReason run.session.world = none) :
    tx.Leaves step world (tx.handing b request.event x run) := by
  have hwritten : ∀ run : Run σ, tx.Intact step world run →
      tx.Cleared step world run.session.trace →
      tx.Leaves step world (Leasing.during
        (do Working.note request.event; x (tx.writer b.type.store)) run) := by
    intro run h hclear
    apply Intact.leaves
    rw [endState_during]
    exact h.written hs hclear hfresh (hx (run.session.note request.event))
  have hclear := h.cleared hc
  rw [handing_eq]
  rcases tx.lease_cases b.type.store run with hl | hl | ⟨e, hl⟩ <;> rw [hl]
  · exact hwritten run h hclear
  · exact hwritten _ (h.leased hs hclear b.type.store) (hclear.snoc rfl)
  · exact h.checked.snoc fun _ => hclear

/-! ## The writing -/

private theorem bind_apply (x : Leasing σ ρ β) (f : β → Leasing σ ρ α) (run : Run σ) :
    (x >>= f) run = match x run with
      | .ok b run => f b run
      | .error halt run => .error halt run := by
  change EStateM.bind x f run = _
  rw [EStateM.bind]
  cases x run <;> rfl

theorem Stops.bind {y : Leasing σ ρ β} {g : β → Leasing σ ρ α} {run run' : Run σ}
    {reason : ρ} (h : tx.Stops step world run' reason (y run))
    (hg : ∀ a run₀, tx.uncancelled.Proceeds run₀ (g a)) :
    tx.Stops step world run' reason ((y >>= g) run) := by
  obtain ⟨hintact, hreason, e, rest, he, htrace⟩ := h
  refine ⟨hintact, hreason, e, ?_⟩
  rw [bind_apply]
  cases hy : y run with
  | error halt run'' =>
    rw [hy] at htrace
    exact ⟨rest, he, htrace⟩
  | ok a run'' =>
    rw [hy] at htrace
    obtain ⟨events, hevents⟩ := Proceeds.trace_append (hg a) run''
    refine ⟨rest ++ events, he, hevents.trans ?_⟩
    exact (congrArg (· ++ events) htrace).trans (List.append_assoc ..)

namespace Tracks

theorem pure (a : α) : tx.Tracks step world (Pure.pure a : Leasing σ ρ α) (Pure.pure a) where
  proceeds _ := .pure a
  runs _ h := .inl ⟨rfl, h⟩

theorem throw (halt : Halt ρ) : tx.Tracks step world (MonadExcept.throw halt : Leasing σ ρ α)
    (MonadExcept.throw halt) where
  proceeds _ := .throw halt
  runs _ h := .inl ⟨rfl, h.checked⟩

theorem bind {x y : Leasing σ ρ β} {f g : β → Leasing σ ρ α} (hx : tx.Tracks step world x y)
    (hf : ∀ a, tx.Tracks step world (f a) (g a)) :
    tx.Tracks step world (x >>= f) (y >>= g) where
  proceeds run₀ := (hx.proceeds run₀).bind fun a => (hf a).proceeds run₀
  runs run h := by
    rcases hx.runs run h with ⟨heq, hleaves⟩ | ⟨reason, run', hstop, hstops⟩
    · rw [bind_apply, bind_apply, heq]
      cases hy : y run with
      | error halt run' =>
        rw [hy] at hleaves
        exact .inl ⟨rfl, hleaves⟩
      | ok a run' =>
        rw [hy] at hleaves
        exact (hf a).runs run' hleaves
    · exact .inr ⟨reason, run', by rw [bind_apply, hstop],
        hstops.bind fun a => (hf a).proceeds⟩

private theorem mapM {f g : β → Leasing σ ρ α} (hf : ∀ b, tx.Tracks step world (f b) (g b))
    (l : List β) :
    tx.Tracks step world (l.mapM f) (l.mapM g) := by
  induction l with
  | nil => exact pure []
  | cons b l ih =>
    rw [List.mapM_cons, List.mapM_cons]
    exact (hf b).bind fun a => ih.bind fun as => pure (a :: as)

private theorem heap : tx.Tracks step world (Leasing.heap : Leasing σ ρ Heap) Leasing.heap where
  proceeds _ _ h := h
  runs _ h := .inl ⟨rfl, h⟩

private theorem records {x : Working σ ρ α} (hx : ChangesRecords x) :
    tx.Tracks step world (Leasing.during x) (Leasing.during x) where
  proceeds _ := hx.during
  runs run h := by
    refine .inl ⟨rfl, Intact.leaves ?_⟩
    obtain ⟨heap, hheap⟩ := hx run.session
    rw [endState_during, hheap]
    exact h.heap heap

private theorem writing (request : Request) (hs : tx.Traces step) (hfresh : request.leased? = none)
    (hx : ∀ s : Session σ, s.Runs step b.type.store (endState (x (tx.writer b.type.store) s)))
    (hp : ∀ run₀, tx.uncancelled.Proceeds run₀ (tx.uncancelled.writing b request.event x)) :
    tx.Tracks step world (tx.writing b request.event x)
      (tx.uncancelled.writing b request.event x) where
  proceeds := hp
  runs run h := by
    rw [uncancelled_writing]
    cases hc : tx.cancelReason run.session.world with
    | none => exact .inl ⟨writing_handing hc, handing_intact hs hfresh hx h hc⟩
    | some reason =>
      exact .inr ⟨reason, run, writing_cancelled hc, h, hc, handing_requests hfresh hx run⟩

private theorem insertRound (hs : tx.Traces step) (bs : List Batch) :
    tx.Tracks step world (tx.insertRound bs) (tx.uncancelled.insertRound bs) := by
  induction bs with
  | nil => exact pure _
  | cons b bs ih =>
    rw [Transaction.insertRound, Transaction.insertRound]
    refine Tracks.bind ?_ fun results => ih.bind fun rest => pure _
    exact writing (.insert b.type b.records) hs rfl (hs.insert b.type b.records)
      fun run₀ => writing_proceeds hs.confined.uncancelled _ _ rfl rfl fun _ => rfl

private theorem insertAll (hs : tx.Traces step) (summary : Summary) (pending : List Batch) :
    tx.Tracks step world (tx.insertAll summary pending)
      (tx.uncancelled.insertAll summary pending) := by
  induction hn : recordCount pending using Nat.strongRecOn generalizing summary pending with
  | _ n ih =>
    subst hn
    rw [Transaction.insertAll, Transaction.insertAll]
    split
    · exact pure _
    · refine (insertRound hs pending).bind fun results => ?_
      dsimp only
      split
      · next hlt => exact (ih _ hlt _ _ rfl).bind fun rest => pure _
      · exact heap.bind fun h => throw _

private theorem updateBatch (hs : tx.Traces step) (b : Batch) :
    tx.Tracks step world (tx.updateBatch b) (tx.uncancelled.updateBatch b) := by
  rw [updateBatch_eq, updateBatch_eq]
  refine Tracks.bind ?_ fun counts => ?_
  · exact writing (.update b.type b.records) hs rfl (hs.update b.type b.records)
      fun run₀ => writing_proceeds hs.confined.uncancelled _ _ rfl rfl fun _ => rfl
  · rw [Leasing.during_bind]
    exact (records (confirm_changesRecords b.type b.records counts)).bind fun _ =>
      records fun s => ⟨s.heap, rfl⟩

private theorem deleteBatch (hs : tx.Traces step) (b : Batch) :
    tx.Tracks step world (tx.deleteBatch b) (tx.uncancelled.deleteBatch b) :=
  writing (.delete b.type b.records) hs rfl (hs.delete b.type b.records)
    fun _ => deleteBatch_proceeds hs.confined.uncancelled b

theorem writeAll (hs : tx.Traces step) (w : Workspace) :
    tx.Tracks step world (tx.writeAll w) (tx.uncancelled.writeAll w) := by
  rw [Transaction.writeAll, Transaction.writeAll]
  refine (insertAll hs {} w.insertBatches).bind fun result => ?_
  refine (mapM (updateBatch hs) result.2).bind fun _ => heap.bind fun h => ?_
  refine (mapM (updateBatch hs) (w.updateBatches h)).bind fun _ => ?_
  exact (mapM (deleteBatch hs) w.deleteBatches).bind fun _ => pure _

end Tracks

theorem Checked.not_isRequest (h : tx.Checked step world events) {n : Nat} {e : Event}
    (hn : events[n]? = some e) (he : e.statement?.isSome)
    (hafter : ∀ i, n < i → i ≤ events.length →
      tx.cancelReason ((events.take i).foldl step world) ≠ none) :
    ∀ e' ∈ events.drop (n + 1), e'.isRequest = false := by
  intro e' hm
  obtain ⟨k, hk⟩ := List.mem_iff_getElem?.mp hm
  rw [List.getElem?_drop] at hk
  rw [Bool.eq_false_iff]
  intro hrequest
  obtain ⟨before, after, happend, hc, hquiet⟩ := h _ e' hk hrequest
  have hlength := (List.getElem?_eq_some_iff.mp hk).1
  have hbefore : before = events.take before.length := by
    have htake : before <+: events := (happend ▸ List.prefix_append before after).trans
      (List.take_prefix _ events)
    exact List.prefix_iff_eq_take.mp htake
  by_cases hlt : n < before.length
  · -- The look at the cancellation would have come after it.
    have hle : before.length ≤ events.length := by
      rw [hbefore, List.length_take]
      exact Nat.min_le_right _ _
    exact hafter before.length hlt hle (hbefore ▸ hc)
  · have hstatement : after[n - before.length]? = some e := by
      rw [← List.getElem?_append_right (Nat.le_of_not_lt hlt), ← happend, List.getElem?_take]
      rw [if_pos (by omega), hn]
    rw [hquiet e (List.mem_of_getElem? hstatement)] at he
    cases he

end Transaction

end UnitOfWork
