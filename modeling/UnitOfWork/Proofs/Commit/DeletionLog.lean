import UnitOfWork.Proofs.Commit.WrittenOnce

/-!
# The log of deletions

A commit announces each batch of rows that it deletes, so that its trace tells for every statement
that deletes rows which records these belong to. Nothing is deleted before the last phase of the
writing, and then the rows are deleted batch by batch.
-/

namespace UnitOfWork

/-- The statement deletes rows. -/
def Statement.isDelete : Statement → Bool
  | delete .. | deleteAny .. => true
  | insert .. | update .. | probe .. => false

namespace Event

/-- The statement that is run, if it deletes rows. -/
def deletion? (e : Event) : Option Statement :=
  (e.statement?.map Prod.snd).filter Statement.isDelete

/-- The records whose rows are to be deleted next, if these were `last` before the event. -/
def announced (last : List RecordId) : Event → List RecordId
  | delete _ records => records
  | _ => last

private theorem deletion?_of_statement? {e : Event} (he : e.statement? = none) :
    e.deletion? = none := by
  rw [deletion?, he]
  rfl

private theorem deletion?_eq {e : Event} {r : Option RecordId} {st : Statement}
    (he : e.statement? = some (r, st)) : e.deletion? = if st.isDelete then some st else none := by
  rw [deletion?, he]
  exact Option.filter_some

end Event

/-- The records whose rows have been announced last. -/
def lastAnnounced (trace : List Event) : List RecordId := trace.foldl Event.announced []

/-- The statements that delete rows, each with the records that were announced before it; `last`
if nothing has been announced since. -/
def deletionsAfter : List RecordId → List Event → List (List RecordId × Statement)
  | _, [] => []
  | last, e :: es => e.deletion?.toList.map (last, ·) ++ deletionsAfter (e.announced last) es

/-- The statements of a trace that delete rows, each with the records whose rows these are. -/
def deletionLog (trace : List Event) : List (List RecordId × Statement) := deletionsAfter [] trace

private theorem lastAnnounced_snoc (trace : List Event) (e : Event) :
    lastAnnounced (trace ++ [e]) = e.announced (lastAnnounced trace) :=
  List.foldl_append

private theorem deletionLog_snoc (trace : List Event) (e : Event) :
    deletionLog (trace ++ [e]) =
      deletionLog trace ++ e.deletion?.toList.map (lastAnnounced trace, ·) := by
  rw [deletionLog, deletionLog, lastAnnounced]
  generalize [] = last
  induction trace generalizing last with
  | nil => exact List.append_nil _
  | cons e' trace ih =>
    rw [List.cons_append, deletionsAfter, ih, deletionsAfter, List.append_assoc, List.foldl_cons]

private theorem deletionLog_append_other {trace events : List Event}
    (hevents : ∀ e ∈ events, e.deletion? = none) :
    deletionLog (trace ++ events) = deletionLog trace := by
  induction events generalizing trace with
  | nil => rw [List.append_nil]
  | cons e events ih =>
    obtain ⟨he, hevents⟩ := List.forall_mem_cons.mp hevents
    rw [List.append_cons, ih hevents, deletionLog_snoc, he]
    exact List.append_nil _

namespace Heap

variable {h : Heap} {b : Batch} {st : Statement} {t : RecordType} {r : RecordId}

/-- The statements that delete the rows of some batches, each with the records of its batch. -/
def deletions (h : Heap) (bs : List Batch) : List (List RecordId × Statement) :=
  bs.flatMap fun b => (h.deletesOf b).map (b.records, ·)

private theorem Touches.not_isDelete {probed : Prop} (ht : h.Touches t r probed st) :
    st.isDelete = false := by
  cases ht <;> rfl

private theorem isDelete_of_mem_deletesOf (hst : st ∈ h.deletesOf b) : st.isDelete := by
  rw [deletesOf, RecordType.deletes] at hst
  split at hst
  · cases hst
  · split at hst
    · obtain ⟨key, -, rfl⟩ := List.mem_map.mp hst
      rfl
    · obtain rfl := List.mem_singleton.mp hst
      rfl

end Heap

namespace Transaction

variable {σ ρ : Type} {tx : Transaction σ ρ} {conn : String → Connection σ ρ}
  {deferrable : String → Bool} {h : Heap} {b : Batch} {log : List (List RecordId × Statement)}
  {s s' : Session σ}

/-- Nothing has been deleted. -/
def DeletesNothing (s : Session σ) : Prop := ∀ e ∈ s.trace, e.deletion? = none

theorem DeletesNothing.snoc (hs : DeletesNothing s) {e : Event} (he : e.deletion? = none)
    (ht : s'.trace = s.trace ++ [e]) : DeletesNothing s' := by
  intro e' he'
  rw [ht, List.mem_append, List.mem_singleton] at he'
  rcases he' with he' | rfl
  · exact hs e' he'
  · exact he

private theorem DeletesNothing.inserts (hs : DeletesNothing s) {c : Connection σ ρ} {t : RecordType}
    {r : RecordId} {st : Statement} (a : c.Inserts t r st s s') : DeletesNothing s' := by
  refine hs.snoc ?_ a.trace
  obtain ⟨keyed, -, rfl⟩ := Heap.insertStatement_ok a.statement
  exact Event.deletion?_eq (Connection.statement?_insertEvent ..)

private theorem DeletesNothing.updates (hs : DeletesNothing s) {c : Connection σ ρ} {t : RecordType}
    {r : RecordId} (u : c.Updates t r s s') : DeletesNothing s' := by
  cases u with
  | update hst =>
    refine hs.snoc ?_ rfl
    rw [Event.deletion?_eq rfl, (Heap.touches_of_updateStatement? hst).not_isDelete]
    rfl
  | probe hnone hst =>
    refine hs.snoc ?_ rfl
    rw [Event.deletion?_eq rfl, (Heap.touches_of_probeStatement hnone hst).not_isDelete]
    rfl

/-- No phase of the writing deletes anything before the last one does. -/
theorem WritesBy.writeAll_deletions (hw : tx.WritesBy conn deferrable) {w : Workspace}
    {P : Session σ → Prop} (hstop : ∀ s, DeletesNothing s → P s)
    (hdeletes : Triple (fun run => DeletesNothing run.session)
      (w.deleteBatches.mapM tx.deleteBatch) (fun _ run => P run.session)
      fun _ run => P run.session) :
    Triple (fun run => DeletesNothing run.session) (tx.writeAll w) (fun _ run => P run.session)
      fun _ run => P run.session := by
  have hsteady : tx.Steady (DeletesNothing (σ := σ)) := by
    intro s s' q hs
    obtain ⟨e, he, ht⟩ := q.trace
    exact hs.snoc (Event.deletion?_of_statement? he) ht
  have hinsert : ∀ (t : RecordType) rs, Preserves (DeletesNothing (σ := σ))
      ((tx.writer t.store).insert t rs) := by
    intro t rs
    rw [hw.writer]
    exact Writer.sql_insert_preserves (fun _ _ _ _ _ _ a hs => hs.inserts a) t rs
  have hupdate : ∀ (t : RecordType) rs, Preserves (DeletesNothing (σ := σ))
      ((tx.writer t.store).update t rs) := by
    intro t rs
    rw [hw.writer]
    exact Writer.sql_update_preserves (fun _ _ _ _ u hs => hs.updates u) t rs
  exact Transaction.writeAll_deletes hsteady hupdate (fun s r hs => hs)
    (insertAll_preserves hsteady hinsert {} w.insertBatches) hdeletes hstop

/-- The session has deleted the rows of these records by these statements. -/
structure HasDeleted (h : Heap) (log : List (List RecordId × Statement)) (s : Session σ) :
    Prop where
  heap : s.heap = h
  log : deletionLog s.trace = log

private theorem HasDeleted.quiet (hs : HasDeleted h log s) (q : tx.Quiet s s') :
    HasDeleted h log s' := by
  obtain ⟨e, he, ht⟩ := q.trace
  refine ⟨q.heap.trans hs.heap, ?_⟩
  rw [ht, deletionLog_append_other fun e' he' => ?_, hs.log]
  exact List.mem_singleton.mp he' ▸ Event.deletion?_of_statement? he

/-- Of some statements the first ones have been run. -/
def DeletedSome (h : Heap) (log rest : List (List RecordId × Statement)) (s : Session σ) : Prop :=
  ∃ done, done <+: rest ∧ HasDeleted h (log ++ done) s

private theorem HasDeleted.some (hs : HasDeleted h log s)
    (rest : List (List RecordId × Statement)) :
    DeletedSome h log rest s :=
  ⟨[], List.nil_prefix, by rwa [List.append_nil]⟩

private theorem DeletedSome.after {rest rest' : List (List RecordId × Statement)}
    (hs : DeletedSome h (log ++ rest) rest' s) : DeletedSome h log (rest ++ rest') s := by
  obtain ⟨done, hdone, hs⟩ := hs
  refine ⟨rest ++ done, (List.prefix_append_right_inj rest).mpr hdone, ?_⟩
  rwa [← List.append_assoc]

private theorem DeletedSome.extend {rest rest' : List (List RecordId × Statement)}
    (hs : DeletedSome h log rest s) (hrest : rest <+: rest') : DeletedSome h log rest' s := by
  obtain ⟨done, hdone, hs⟩ := hs
  exact ⟨done, hdone.trans hrest, hs⟩

/-- The rows of the records are being deleted. -/
structure Announced (rs : List RecordId) (h : Heap) (log : List (List RecordId × Statement))
    (s : Session σ) : Prop extends HasDeleted h log s where
  announced : lastAnnounced s.trace = rs

private theorem Announced.executed {rs : List RecordId} (hs : Announced rs h log s) {st : Statement}
    (hst : st.isDelete) (c : Connection σ ρ) :
    Announced rs h (log ++ [(rs, st)]) (c.executed none st s) := by
  have htrace : (c.executed none st s).trace = s.trace ++ [.execute c.store none st] := rfl
  have he : (Event.execute c.store none st).deletion? = some st :=
    (Event.deletion?_eq rfl).trans (if_pos hst)
  refine ⟨⟨hs.heap, ?_⟩, ?_⟩
  · rw [htrace, deletionLog_snoc, he, hs.log, hs.announced]
    rfl
  · rw [htrace, lastAnnounced_snoc, ← hs.announced]
    rfl

private theorem perform_announced (c : Connection σ ρ) (t : RecordType) {rs : List RecordId}
    {sts : List Statement} (hsts : ∀ st ∈ sts, st.isDelete) :
    Triple (Announced rs h log) (sts.mapM (c.perform t none))
      (fun _ => HasDeleted h (log ++ sts.map (rs, ·)))
      fun _ => DeletedSome h log (sts.map (rs, ·)) := by
  induction sts generalizing log with
  | nil =>
    refine Triple.pure fun s hs => ?_
    rw [List.map_nil, List.append_nil]
    exact hs.toHasDeleted
  | cons st sts ih =>
    rw [List.mapM_cons]
    refine Triple.of_starting fun s hs => ?_
    have hnext := hs.executed (hsts st List.mem_cons_self) c
    have hcons : ∀ s : Session σ, DeletedSome h (log ++ [(rs, st)]) (sts.map (rs, ·)) s →
        DeletedSome h log ([(rs, st)] ++ sts.map (rs, ·)) s := fun _ hs => hs.after
    refine Triple.bind (R := fun _ => Announced rs h (log ++ [(rs, st)]))
      ((c.perform_triple t none st s).conseq (fun _ h => h) ?_ ?_) fun n =>
      Triple.bind ((ih fun st' hst' => hsts st' (List.mem_cons_of_mem _ hst')).conseq
        (fun _ h => h) (fun _ _ h => h) fun _ s h => hcons s h) fun ns => Triple.pure ?_
    · rintro n _ ⟨-, rfl⟩
      exact hnext
    · rintro halt _ ⟨-, rfl⟩
      exact hcons _ (hnext.some _)
    · intro s' hs'
      rwa [List.append_assoc] at hs'

private theorem WritesBy.deleteBatch_log (hw : tx.WritesBy conn deferrable) (b : Batch) :
    Triple (fun run => HasDeleted h log run.session) (tx.deleteBatch b)
      (fun _ run => HasDeleted h (log ++ h.deletions [b]) run.session)
      fun _ run => DeletedSome h log (h.deletions [b]) run.session := by
  have hsteady : tx.Steady (HasDeleted h log) := fun _ _ q hs => hs.quiet q
  rw [Heap.deletions, List.flatMap_singleton]
  refine writing_announced (Announced b.records h log) hsteady
    (fun s hs => ⟨hsteady s _ (.delete _ _) hs, lastAnnounced_snoc s.trace _⟩)
    (fun _ _ _ hs => hs.some _) ?_
  rw [hw.writer]
  refine Triple.bind (R := fun sts s => Announced b.records h log s ∧ sts = h.deletesOf b)
    (Triple.reading (fun s sts hs hsts => ⟨hs, Heap.deleteStatements_ok (hs.heap ▸ hsts)⟩)
      fun s e hs _ => hs.some _) fun sts => Triple.assuming ?_
  rintro rfl
  exact (perform_announced (conn b.type.store) b.type fun st => Heap.isDelete_of_mem_deletesOf).bind
    fun counts => Triple.pure fun _ h => h

private theorem WritesBy.deletes_log (hw : tx.WritesBy conn deferrable) (bs : List Batch) :
    Triple (fun run => HasDeleted h log run.session) (bs.mapM tx.deleteBatch)
      (fun _ run => HasDeleted h (log ++ h.deletions bs) run.session)
      fun _ run => DeletedSome h log (h.deletions bs) run.session := by
  induction bs generalizing log with
  | nil =>
    refine Triple.pure fun run hs => ?_
    rwa [Heap.deletions, List.flatMap_nil, List.append_nil]
  | cons b bs ih =>
    have hcons : h.deletions (b :: bs) = h.deletions [b] ++ h.deletions bs := by
      simp only [Heap.deletions, List.flatMap_cons, List.flatMap_nil, List.append_nil]
    rw [List.mapM_cons, hcons]
    refine Triple.bind ((hw.deleteBatch_log b).conseq (fun _ h => h) (fun _ _ h => h)
      fun _ _ h => h.extend (List.prefix_append ..)) fun n =>
      Triple.bind (ih.conseq (fun _ h => h) (fun _ _ h => h) fun _ _ h => h.after) fun ns =>
        Triple.pure ?_
    intro run hs
    rwa [List.append_assoc] at hs

/-- The session has deleted the first of the rows that are to be deleted. -/
def DeletesInTurn (bs : List Batch) (s : Session σ) : Prop :=
  deletionLog s.trace <+: s.heap.deletions bs

private theorem DeletesNothing.deletionLog (hs : DeletesNothing s) : deletionLog s.trace = [] := by
  rw [← List.nil_append s.trace, deletionLog_append_other hs]
  rfl

private theorem WritesBy.writeAll_deletesInTurn (hw : tx.WritesBy conn deferrable) (w : Workspace) :
    Triple (fun run => DeletesNothing run.session) (tx.writeAll w)
      (fun _ run => DeletesInTurn w.deleteBatches run.session)
      fun _ run => DeletesInTurn w.deleteBatches run.session := by
  refine hw.writeAll_deletions (fun s hs => ?_) (Triple.of_starting fun run hs => ?_)
  · rw [DeletesInTurn, hs.deletionLog]
    exact List.nil_prefix
  · have hstart : HasDeleted run.session.heap [] run.session := ⟨rfl, hs.deletionLog⟩
    refine ((hw.deletes_log w.deleteBatches).starting hstart).conseq (fun _ h => h) ?_ ?_
    · rintro _ run' ⟨hheap, hlog⟩
      rw [DeletesInTurn, hheap, hlog]
      exact List.prefix_rfl
    · rintro _ run' ⟨done, hdone, hheap, hlog⟩
      rwa [DeletesInTurn, hheap, hlog]

private theorem DeletesInTurn.settles {bs : List Batch} (hs : DeletesInTurn bs s) {heap : Heap}
    (a : s.heap.Settles heap) : DeletesInTurn bs { s with heap } := by
  have hsame : heap.deletions bs = s.heap.deletions bs := by
    simp only [Heap.deletions, a.deletesOf]
  rw [DeletesInTurn, hsame]
  exact hs

private theorem DeletesInTurn.releases {bs : List Batch} (hs : DeletesInTurn bs s)
    (a : Releases s s') :
    DeletesInTurn bs s' := by
  obtain ⟨events, ht, he⟩ := a.trace
  rw [DeletesInTurn, ht,
    deletionLog_append_other fun e hm => Event.deletion?_of_statement? (he e hm), a.heap]
  exact hs

end Transaction

namespace Workspace

variable {σ ρ : Type} {tx : Transaction σ ρ} {conn : String → Connection σ ρ}
  {deferrable : String → Bool} {w w₁ : Workspace} {h h₁ : Heap}

/-- A commit that gets as far as writing deletes rows batch by batch. -/
theorem commit_deletesInTurn (hw : tx.WritesBy conn deferrable) (hsound : w.Sound h)
    (hready : w.ready? h = some (w₁, h₁)) (world : σ) :
    let c := (w.commit tx { heap := h, world }).2.2
    Transaction.DeletesInTurn w₁.deleteBatches c ∧ w₁.Sound c.heap := by
  have hsound₁ := (ready?_sound hsound hready).1
  have hreleases := (commit_ready (s := { heap := h, world }) tx hready).2
  obtain ⟨heap, hsettles, hsession, -⟩ :=
    flush_settles hw.orderly { session := { heap := h₁, world } } hsound₁
  have hdeletes := (hw.writeAll_deletesInTurn w₁).endState
    (s := { session := { heap := h₁, world } }) fun e he => absurd he List.not_mem_nil
  have hevolves := (hw.orderly.writeAll w₁ h₁).endState
    (s := { session := { heap := h₁, world } }) (.refl h₁)
  refine ⟨Transaction.DeletesInTurn.releases ?_ hreleases, ?_⟩
  · rw [hsession]
    exact hdeletes.settles hsettles
  · rw [hreleases.heap, hsession]
    exact (hsound₁.evolves hevolves).evolves hsettles.evolves

end Workspace

end UnitOfWork
