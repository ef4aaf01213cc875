import UnitOfWork.Proofs.Commit.Course
import UnitOfWork.Proofs.Commit.InsertOrder
import UnitOfWork.Proofs.Commit.UnsavedChanges

/-!
# The discipline of leases

A commit leases a store once, before it writes to it, and stops asking after the first request that
is refused. Whatever has stopped it, every lease that it has got is marked errored once and then
given back once; a commit that has written everything gives its leases back unmarked.
-/

namespace UnitOfWork

theorem forall_getElem?_snoc {α : Type} {l : List α} {a : α} {P : List α → α → Prop} :
    (∀ i b, (l ++ [a])[i]? = some b → P ((l ++ [a]).take i) b) ↔
      (∀ i b, l[i]? = some b → P (l.take i) b) ∧ P l a := by
  constructor
  · intro h
    refine ⟨fun i b hi => ?_, ?_⟩
    · have hlt := (List.getElem?_eq_some_iff.mp hi).1
      have hP := h i b (by rw [List.getElem?_append_left hlt, hi])
      rwa [List.take_append_of_le_length (Nat.le_of_lt hlt)] at hP
    · have hP := h l.length a List.getElem?_concat_length
      rwa [List.take_append_of_le_length (Nat.le_refl _), List.take_length] at hP
  · rintro ⟨h, ha⟩ i b hi
    by_cases hlt : i < l.length
    · rw [List.getElem?_append_left hlt] at hi
      rw [List.take_append_of_le_length (Nat.le_of_lt hlt)]
      exact h i b hi
    · obtain rfl : i = l.length := by
        have hi' := (List.getElem?_eq_some_iff.mp hi).1
        rw [List.length_append, List.length_singleton] at hi'
        omega
      rw [List.getElem?_concat_length, Option.some.injEq] at hi
      rw [List.take_append_of_le_length (Nat.le_refl _), List.take_length]
      exact hi ▸ ha

variable {ρ : Type}

/-- The store that the exchange has leased. -/
def Exchange.obtained? (x : Exchange ρ) : Option String :=
  if x.refusal.isNone then x.request.leased? else none

/-- The stores that have been leased, in the order in which they were. -/
def obtained (log : List (Exchange ρ)) : List String := log.filterMap Exchange.obtained?

/-- The request shows in the trace, and then the statements that were run in its store. A lease
runs none. -/
def Exchange.Shows (x : Exchange ρ) : Prop :=
  ∃ statements, x.events = x.request.event :: statements ∧
    ∀ e ∈ statements, ∃ store, x.request.written? = some store ∧ e.statementStore? = some store

/-- The requests of a commit that has stopped if there is a reason. -/
structure Disciplined (log : List (Exchange ρ)) (stop : Option (Halt ρ)) : Prop where
  shows : ∀ x ∈ log, x.Shows
  /-- No store is leased twice, whether or not it could be leased. -/
  leasedOnce : (log.filterMap (·.request.leased?)).Nodup
  /-- A store is leased before it is written to. -/
  leasedFirst : ∀ i x, log[i]? = some x →
    ∀ store, x.request.written? = some store → store ∈ obtained (log.take i)
  /-- A request that is refused is the last one, and the reason to stop. -/
  refusedLast : ∀ i x, log[i]? = some x →
    ∀ halt, x.refusal = some halt → i + 1 = log.length ∧ stop = some halt

namespace Disciplined

variable {log : List (Exchange ρ)} {stop : Option (Halt ρ)}

theorem start : Disciplined (ρ := ρ) [] none :=
  ⟨fun _ h => absurd h List.not_mem_nil, List.nodup_nil, fun i x hi => by simp at hi,
    fun i x hi => by simp at hi⟩

private theorem granted (h : Disciplined log none) {x : Exchange ρ} (hx : x ∈ log) :
    x.refusal = none := by
  obtain ⟨i, hi⟩ := List.mem_iff_getElem?.mp hx
  cases hr : x.refusal with
  | none => rfl
  | some halt => exact absurd (h.refusedLast i x hi halt hr).2 nofun

private theorem obtained_eq (h : Disciplined log none) :
    obtained log = log.filterMap (·.request.leased?) := by
  apply List.filterMap_congr
  intro x hx
  rw [Exchange.obtained?, h.granted hx]
  rfl

private theorem stopped (h : Disciplined log none) (halt : Halt ρ) :
    Disciplined log (some halt) where
  shows := h.shows
  leasedOnce := h.leasedOnce
  leasedFirst := h.leasedFirst
  refusedLast i x hi halt' hr := absurd (h.refusedLast i x hi halt' hr).2 nofun

theorem snoc (h : Disciplined log none) {x : Exchange ρ} (hdue : x.request.IsDue (obtained log))
    (hx : x.Shows) : Disciplined (log ++ [x]) x.refusal where
  shows y hy := by
    rcases List.mem_append.mp hy with hy | hy
    · exact h.shows y hy
    · rwa [List.mem_singleton.mp hy]
  leasedOnce := by
    rw [List.filterMap_append]
    cases hleased : x.request.leased? with
    | none => simpa [hleased] using h.leasedOnce
    | some store =>
      have hfresh := hdue.fresh store hleased
      rw [h.obtained_eq] at hfresh
      have hlast : [x].filterMap (·.request.leased?) = [store] := by simp [hleased]
      rw [hlast]
      refine List.nodup_append'.mpr ⟨h.leasedOnce, List.nodup_singleton store, ?_⟩
      exact List.disjoint_singleton.mpr hfresh
  leasedFirst := by
    have hsnoc := forall_getElem?_snoc (l := log) (a := x) (P := fun before y =>
      ∀ store, y.request.written? = some store → store ∈ obtained before)
    exact hsnoc.mpr ⟨h.leasedFirst, hdue.held⟩
  refusedLast i y hi halt hr := by
    by_cases hlt : i < log.length
    · rw [List.getElem?_append_left hlt] at hi
      exact absurd (h.refusedLast i y hi halt hr).2 nofun
    · have hi' := (List.getElem?_eq_some_iff.mp hi).1
      rw [List.length_append, List.length_singleton] at hi'
      obtain rfl : i = log.length := by omega
      rw [List.getElem?_concat_length, Option.some.injEq] at hi
      subst hi
      exact ⟨by rw [List.length_append, List.length_singleton], hr⟩

end Disciplined

private theorem obtained_sublist (log : List (Exchange ρ)) :
    (obtained log).Sublist (log.filterMap (·.request.leased?)) := by
  induction log with
  | nil => exact .slnil
  | cons x log ih =>
    rw [obtained, List.filterMap_cons, List.filterMap_cons, Exchange.obtained?]
    cases x.refusal with
    | none => cases x.request.leased? <;> simpa [obtained] using ih
    | some halt => cases x.request.leased? <;> simpa [obtained] using ih.trans (by simp)

private theorem obtained_snoc (log : List (Exchange ρ)) (x : Exchange ρ) :
    obtained (log ++ [x]) = obtained log ++ x.obtained?.toList := by
  rw [obtained, List.filterMap_append, ← obtained]
  cases hx : x.obtained? <;> simp [hx]

namespace Transaction

variable {σ : Type} {tx : Transaction σ ρ} {run₀ run : Run σ} {log : List (Exchange ρ)}
  {stop : Option (Halt ρ)}

/-- The course of a commit that starts without leases is disciplined; the trace tells all of it, and
the leases held are those it has got. -/
theorem Course.disciplined (htx : tx.Confined) (hc : tx.Course run₀ log stop run)
    (hleases : run₀.leases = {}) :
    Disciplined log stop ∧ run.session.trace = run₀.session.trace ++ log.flatMap (·.events) ∧
      run.leases = { stores := obtained log } := by
  induction hc with
  | start => exact ⟨.start, (List.append_nil _).symm, hleases⟩
  | records heap _ ih => exact ih
  | @granted log run request s events _ hdue hmake htrace ih =>
    obtain ⟨hlog, hevents, hstores⟩ := ih
    have hshows : Exchange.Shows (ρ := ρ) ⟨request, events, none⟩ := by
      obtain ⟨statements, hmade, hall⟩ := htx.make_trace request run.session
      rw [hmake, htrace] at hmade
      exact ⟨statements, List.append_cancel_left hmade, hall⟩
    rw [hstores] at hdue
    refine ⟨hlog.snoc hdue hshows, ?_, ?_⟩
    · rw [htrace, hevents, List.flatMap_append, List.append_assoc]
      simp
    · rw [hstores, obtained_snoc]
      rfl
  | @refused log run request halt s events _ hdue hmake htrace ih =>
    obtain ⟨hlog, hevents, hstores⟩ := ih
    have hshows : Exchange.Shows ⟨request, events, some halt⟩ := by
      obtain ⟨statements, hmade, hall⟩ := htx.make_trace request run.session
      rw [hmake, htrace] at hmade
      exact ⟨statements, List.append_cancel_left hmade, hall⟩
    rw [hstores] at hdue
    refine ⟨hlog.snoc hdue hshows, ?_, ?_⟩
    · rw [htrace, hevents, List.flatMap_append, List.append_assoc]
      simp
    · rw [obtained_snoc]
      simpa [Exchange.obtained?] using hstores
  | stopped halt _ ih => exact ⟨ih.1.stopped halt, ih.2⟩

/-- How the stores answer when they are given back one after the other. -/
def releaseAnswers (tx : Transaction σ ρ) (world : σ) : List String → List (Except Error Unit)
  | [] => []
  | store :: stores =>
    (tx.release store world).1 :: tx.releaseAnswers (tx.release store world).2 stores

/-- The world after some stores have been marked errored. -/
def erroredWorld (tx : Transaction σ ρ) (world : σ) (stores : List String) : σ :=
  stores.foldl (fun world store => tx.markErrored store world) world

end Transaction

/-- What went wrong, in order. -/
def errorsOf (answers : List (Except Error Unit)) : List Error :=
  answers.filterMap fun
    | .ok () => none
    | .error e => some e

namespace Transaction

variable {σ : Type} {tx : Transaction σ ρ}

theorem giveBack_eq (s : Session σ) (stores : List String) :
    (tx.giveBack s stores).1 = errorsOf (tx.releaseAnswers s.world stores) ∧
      (tx.giveBack s stores).2.trace = s.trace ++ stores.map .release := by
  induction stores generalizing s with
  | nil => exact ⟨rfl, (List.append_nil _).symm⟩
  | cons store stores ih =>
    obtain ⟨hfailures, htrace⟩ :=
      ih { s.note (.release store) with world := (tx.release store s.world).2 }
    rw [giveBack, releaseAnswers, errorsOf, List.filterMap_cons, List.map_cons]
    dsimp only
    rw [Session.note, List.append_assoc] at htrace
    have hworld : (s.note (.release store)).world = s.world := rfl
    rw [hworld]
    cases (tx.release store s.world).1 with
    | ok _ => exact ⟨hfailures, htrace⟩
    | error e => exact ⟨congrArg (e :: ·) hfailures, htrace⟩

theorem errorAll_eq (run : Run σ) (herrored : run.leases.errored = false) :
    (tx.errorAll run).session.world = tx.erroredWorld run.session.world run.leases.stores ∧
      (tx.errorAll run).session.trace =
        run.session.trace ++ run.leases.stores.map .errored ∧
      (tx.errorAll run).leases.stores = run.leases.stores := by
  rw [errorAll, herrored]
  refine ⟨?_, ?_, rfl⟩
  · change (List.foldl _ run.session run.leases.stores).world = _
    generalize run.session = s
    induction run.leases.stores generalizing s with
    | nil => rfl
    | cons store stores ih => exact ih _
  · change (List.foldl _ run.session run.leases.stores).trace = _
    generalize run.session = s
    induction run.leases.stores generalizing s with
    | nil => exact (List.append_nil _).symm
    | cons store stores ih =>
      rw [List.foldl_cons, ih, Session.note, List.append_assoc]
      rfl

/-- In this world the event is answered by a refusal. -/
def Refuses (tx : Transaction σ ρ) (conn : String → Connection σ ρ) (world : σ) : Event → Prop
  | .acquire store => ∃ e, (tx.acquire store world).1 = .error e
  | .query store _ st => ∃ halt, ((conn store).query st.sql st.params world).1 = .error halt
  | .execute store _ st => ∃ halt, ((conn store).execute st.sql st.params world).1 = .error halt
  | .release store => ∃ e, (tx.release store world).1 = .error e
  | _ => False

/-- Everything that was asked so far has been granted. -/
structure Smooth (tx : Transaction σ ρ) (conn : String → Connection σ ρ) (world : σ)
    (s : Session σ) : Prop where
  replayed : s.world = tx.replay conn world s.trace
  granted : ∀ i e, s.trace[i]? = some e →
    ¬ tx.Refuses conn (tx.replay conn world (s.trace.take i)) e

/-- At most the last thing asked was refused. -/
def LastRefused (tx : Transaction σ ρ) (conn : String → Connection σ ρ) (world : σ)
    (s : Session σ) : Prop :=
  ∀ i e, s.trace[i]? = some e → tx.Refuses conn (tx.replay conn world (s.trace.take i)) e →
    i + 1 = s.trace.length

namespace Smooth

variable {conn : String → Connection σ ρ} {world : σ} {s s' : Session σ} {e : Event}

theorem start {h : Heap} : tx.Smooth conn world { heap := h, world := world } :=
  ⟨rfl, fun i e hi => by simp at hi⟩

private theorem lastRefused (h : tx.Smooth conn world s) : tx.LastRefused conn world s :=
  fun i e hi hr => absurd hr (h.granted i e hi)

private theorem granted_snoc (h : tx.Smooth conn world s) (ht : s'.trace = s.trace ++ [e])
    (hw : s'.world = tx.replayEvent conn s.world e) (he : ¬ tx.Refuses conn s.world e) :
    tx.Smooth conn world s' where
  replayed := by rw [hw, ht, replay_snoc, h.replayed]
  granted := by
    rw [ht]
    have hsnoc := forall_getElem?_snoc (l := s.trace) (a := e)
      (P := fun before e => ¬ tx.Refuses conn (tx.replay conn world before) e)
    exact hsnoc.mpr ⟨h.granted, by rwa [← h.replayed]⟩

private theorem lastRefused_snoc (h : tx.Smooth conn world s) (ht : s'.trace = s.trace ++ [e]) :
    tx.LastRefused conn world s' := by
  intro i e' hi hr
  rw [ht] at hi hr ⊢
  rw [List.length_append, List.length_singleton]
  by_cases hlt : i < s.trace.length
  · rw [List.getElem?_append_left hlt] at hi
    rw [List.take_append_of_le_length (Nat.le_of_lt hlt)] at hr
    exact absurd hr (h.granted i e' hi)
  · have hi' := (List.getElem?_eq_some_iff.mp hi).1
    rw [List.length_append, List.length_singleton] at hi'
    omega

variable {c : Connection σ ρ} {t : RecordType} {st : Statement}

private theorem perform (hc : c = conn c.store) (r : Option RecordId) :
    Triple (tx.Smooth conn world) (c.perform t r st) (fun _ => tx.Smooth conn world)
      fun _ => tx.LastRefused conn world := by
  refine Triple.of_starting fun s hs => ?_
  refine (c.perform_triple t r st s).conseq (fun _ h => h) (fun n s' h => ?_) fun _ s' h => ?_
  · rw [h.2]
    refine hs.granted_snoc (e := .execute c.store r st) rfl ?_ ?_
    · rw [replayEvent, ← hc]
      rfl
    · rintro ⟨halt, hhalt⟩
      rw [← hc, h.1] at hhalt
      cases hhalt
  · rw [h.2]
    exact hs.lastRefused_snoc (e := .execute c.store r st) rfl

private theorem fetch (hc : c = conn c.store) (r : RecordId) :
    Triple (tx.Smooth conn world) (c.fetch t r st) (fun _ => tx.Smooth conn world)
      fun _ => tx.LastRefused conn world := by
  refine Triple.of_starting fun s hs => ?_
  refine (c.fetch_triple t r st s).conseq (fun _ h => h) (fun n s' h => ?_) fun _ s' h => ?_
  · rw [h.2]
    refine hs.granted_snoc (e := .query c.store r st) rfl ?_ ?_
    · rw [replayEvent, ← hc]
      rfl
    · rintro ⟨halt, hhalt⟩
      rw [← hc, h.1] at hhalt
      cases hhalt
  · rw [h.2]
    exact hs.lastRefused_snoc (e := .query c.store r st) rfl

private theorem reading {α : Type} (f : Heap → Except Error α) :
    Triple (tx.Smooth conn world) (Working.reading f : Working σ ρ α)
      (fun _ => tx.Smooth conn world) fun _ => tx.LastRefused conn world :=
  Triple.reading (fun _ _ hs _ => hs) fun _ _ hs _ => hs.lastRefused

private theorem updating (f : Heap → Heap) :
    Triple (tx.Smooth conn world) (Working.updating f : Working σ ρ Unit)
      (fun _ => tx.Smooth conn world) fun _ => tx.LastRefused conn world :=
  Triple.updating fun _ hs => ⟨hs.replayed, hs.granted⟩

private theorem fetchRow (hc : c = conn c.store) (r : RecordId) :
    Triple (tx.Smooth conn world) (c.fetchRow t r st) (fun _ => tx.Smooth conn world)
      fun _ => tx.LastRefused conn world := by
  rw [Connection.fetchRow]
  apply (fetch hc r).bind
  intro found
  cases found with
  | some row => exact Triple.pure fun _ hs => hs
  | none => exact Triple.diagnosed (Triple.fail fun _ hs => hs.lastRefused)

private theorem takeGenerated (r : RecordId) (row : Row) (columns : List String) :
    Triple (tx.Smooth conn world) (Connection.takeGenerated r row columns : Working σ ρ Unit)
      (fun _ => tx.Smooth conn world) fun _ => tx.LastRefused conn world := by
  induction columns with
  | nil => exact Triple.pure fun _ hs => hs
  | cons column columns ih =>
    rw [Connection.takeGenerated]
    cases row.find? column with
    | none => exact ih
    | some v =>
      apply (reading _).bind
      intro content
      exact (updating _).bind fun _ => ih

private theorem insertOne (hc : c = conn c.store) (p : PlannedInsert) :
    Triple (tx.Smooth conn world) (c.insertOne t p) (fun _ => tx.Smooth conn world)
      fun _ => tx.LastRefused conn world := by
  rw [Connection.insertOne]
  apply (reading _).bind
  intro st
  split
  · exact (perform hc _).bind fun _ => updating _
  · apply (fetchRow hc p.record).bind
    intro row
    exact (takeGenerated p.record row st.returning).bind fun _ => updating _

private theorem updateOne (hc : c = conn c.store) (r : RecordId) :
    Triple (tx.Smooth conn world) (c.updateOne t r) (fun _ => tx.Smooth conn world)
      fun _ => tx.LastRefused conn world := by
  rw [Connection.updateOne]
  apply (reading _).bind
  intro found
  cases found with
  | some st => exact perform hc _
  | none =>
    apply (reading _).bind
    intro st
    exact (fetch hc r).bind fun row => Triple.pure fun _ hs => hs

end Smooth

private theorem WritesBy.make_smooth {conn : String → Connection σ ρ} {deferrable : String → Bool}
    (hw : tx.WritesBy conn deferrable) {world : σ} {s : Session σ}
    (hs : tx.Smooth conn world s) (request : Request) :
    match request.make tx s with
    | (none, s') => tx.Smooth conn world s'
    | (some _, s') => tx.LastRefused conn world s' := by
  have hanswer : ∀ {α : Type} {x : Working σ ρ α} {s : Session σ}, tx.Smooth conn world s →
      Triple (tx.Smooth conn world) x (fun _ => tx.Smooth conn world)
        (fun _ => tx.LastRefused conn world) →
      match answer (x s) with
      | (none, s') => tx.Smooth conn world s'
      | (some _, s') => tx.LastRefused conn world s' := by
    intro α x s hs hx
    have hend := hx s hs
    cases hres : x s <;> rwa [hres] at hend
  have hc : ∀ store, conn store = conn (conn store).store := fun store => by rw [hw.store]
  cases request with
  | lease store =>
    rw [Request.make]
    rcases hacquire : tx.acquire store s.world with ⟨e | ⟨⟩, world'⟩
    · exact hs.lastRefused_snoc (e := .acquire store) rfl
    · refine hs.granted_snoc (e := .acquire store) rfl ?_ ?_
      · rw [replayEvent, hacquire]
      · rintro ⟨e, he⟩
        rw [hacquire] at he
        cases he
  | insert t rs =>
    rw [Request.make, hw.writer]
    refine hanswer (hs.granted_snoc (e := .insert t.name rs) rfl rfl id) ?_
    apply (Smooth.reading _).bind
    intro plan
    refine Triple.bind (Triple.forM (I := fun _ => tx.Smooth conn world) plan.inserts
      fun p _ => Smooth.insertOne (hc _) p) fun _ => Triple.pure fun _ h => h
  | update t rs =>
    rw [Request.make, hw.writer]
    refine hanswer (hs.granted_snoc (e := .update t.name rs) rfl rfl id) ?_
    exact Triple.mapM_of_mem (I := fun _ => tx.Smooth conn world)
      fun r _ _ => Smooth.updateOne (hc _) r
  | delete t rs =>
    rw [Request.make, hw.writer]
    refine hanswer (hs.granted_snoc (e := .delete t.name rs) rfl rfl id) ?_
    apply (Smooth.reading _).bind
    intro statements
    refine Triple.bind (Triple.mapM_of_mem (I := fun _ => tx.Smooth conn world)
      fun st _ _ => Smooth.perform (hc _) none) fun _ => Triple.pure fun _ h => h

/-- While it writes, a commit asks for nothing after the first refusal. -/
theorem Course.smooth {conn : String → Connection σ ρ} {deferrable : String → Bool}
    (hw : tx.WritesBy conn deferrable) {world : σ} {run₀ run : Run σ} {log : List (Exchange ρ)}
    {stop : Option (Halt ρ)} (hc : tx.Course run₀ log stop run)
    (hstart : tx.Smooth conn world run₀.session) :
    (stop = none → tx.Smooth conn world run.session) ∧
      tx.LastRefused conn world run.session := by
  induction hc with
  | start => exact ⟨fun _ => hstart, hstart.lastRefused⟩
  | records heap _ ih =>
    have hs := ih.1 rfl
    exact ⟨fun _ => ⟨hs.replayed, hs.granted⟩, hs.lastRefused⟩
  | @granted _ _ request _ _ _ _ hmake _ ih =>
    have hs := hw.make_smooth (ih.1 rfl) request
    rw [hmake] at hs
    exact ⟨fun _ => hs, hs.lastRefused⟩
  | @refused _ _ request _ _ _ _ _ hmake _ ih =>
    have hs := hw.make_smooth (ih.1 rfl) request
    rw [hmake] at hs
    exact ⟨nofun, hs⟩
  | stopped halt _ ih => exact ⟨nofun, ih.2⟩

end Transaction

/-- What a commit reports when the writing has ended as `written` and some leases could not be given
back. -/
structure Reports (written : Except (Halt ρ) Summary) (failures : List Error)
    (outcome : Except (Halt ρ) Summary) : Prop where
  ok : ∀ summary, outcome = .ok summary ↔ written = .ok summary ∧ failures = []
  notReleased : ∀ summary, written = .ok summary → failures ≠ [] →
    outcome = .error (.failed (.release failures none))
  failed : ∀ e, written = .error (.failed e) →
    ∃ e', outcome = .error (.failed e') ∧
      e' = (if failures.isEmpty then e else .release failures (some e)) ∧
      e'.rootCause = e.rootCause
  cancelled : ∀ reason, written = .error (.cancelled reason) →
    outcome = .error (if failures.isEmpty then .cancelled reason
      else .failed (.release failures (some .cancelled)))
  panicked : ∀ message, written = .error (.panicked message) →
    outcome = .error (if failures.isEmpty then .panicked message
      else .failed (.release failures none))

private theorem reports_ok (summary : Summary) (failures : List Error) :
    Reports (ρ := ρ) (.ok summary) failures
      (if failures.isEmpty then .ok summary else .error (.failed (.release failures none))) := by
  cases failures with
  | nil => exact ⟨fun _ => by simp, fun _ _ h => absurd rfl h, nofun, nofun, nofun⟩
  | cons e failures => exact ⟨fun _ => by simp, fun _ _ _ => rfl, nofun, nofun, nofun⟩

theorem reports_error (halt : Halt ρ) (failures : List Error) :
    Reports (.error halt) failures (.error (halt.withFailures failures)) where
  ok summary := ⟨nofun, nofun⟩
  notReleased := nofun
  failed e he := by
    obtain rfl := Except.error.inj he
    cases failures with
    | nil => exact ⟨e, rfl, rfl, rfl⟩
    | cons first rest => exact ⟨_, rfl, rfl, by simp [Error.rootCause, Error.causeRoot?]⟩
  cancelled reason he := by
    obtain rfl := Except.error.inj he
    cases failures <;> rfl
  panicked message he := by
    obtain rfl := Except.error.inj he
    cases failures <;> rfl

namespace Transaction

variable {σ : Type} {tx : Transaction σ ρ}

private theorem abort_eq (halt : Halt ρ) {run : Run σ} {stores : List String}
    (hleases : run.leases = { stores }) :
    (tx.abort halt run).1 = halt.withFailures
        (errorsOf (tx.releaseAnswers (tx.erroredWorld run.session.world stores) stores)) ∧
      (tx.abort halt run).2.session.trace =
        run.session.trace ++ (stores.map .errored ++ stores.map .release) := by
  obtain ⟨hworld, htrace, hstores⟩ := tx.errorAll_eq run (by rw [hleases])
  obtain ⟨hfailures, hgiven⟩ := tx.giveBack_eq (tx.errorAll run).session
    (tx.errorAll run).leases.stores
  rw [hleases] at hworld htrace hstores
  rw [hstores, hworld] at hfailures
  rw [hstores, htrace, List.append_assoc] at hgiven
  rw [abort, releaseAll, hstores]
  exact ⟨congrArg halt.withFailures hfailures, hgiven⟩

private theorem conclude_eq (summary : Summary) (run : Run σ) :
    ((tx.conclude run).1.map fun _ => summary) =
        (let failures := errorsOf (tx.releaseAnswers run.session.world run.leases.stores)
        if failures.isEmpty then .ok summary else .error (.failed (.release failures none))) ∧
      (tx.conclude run).2.session.trace = run.session.trace ++ run.leases.stores.map .release := by
  obtain ⟨hfailures, htrace⟩ := tx.giveBack_eq run.session run.leases.stores
  rw [← hfailures, ← htrace, conclude, releaseAll]
  dsimp only
  cases (tx.giveBack run.session run.leases.stores).1 <;> exact ⟨rfl, rfl⟩

private theorem LastRefused.append_releases {conn : String → Connection σ ρ} {world : σ}
    {s : Session σ} (h : tx.LastRefused conn world s) {rest : List Event} {i : Nat} {e : Event}
    (he : (s.trace ++ rest)[i]? = some e)
    (hr : tx.Refuses conn (tx.replay conn world ((s.trace ++ rest).take i)) e) :
    ∀ e' ∈ (s.trace ++ rest).drop (i + 1), e' ∈ rest := by
  have hdrop : s.trace.length ≤ i + 1 := by
    by_cases hlt : i < s.trace.length
    · rw [List.getElem?_append_left hlt] at he
      rw [List.take_append_of_le_length (Nat.le_of_lt hlt)] at hr
      exact Nat.le_of_eq (h i e he hr).symm
    · omega
  intro e' hm
  rw [List.drop_append, List.drop_eq_nil_of_le hdrop, List.nil_append] at hm
  exact List.mem_of_mem_drop hm

end Transaction

/-- How a commit ends that has got as far as writing, from the leases that it holds by then. -/
theorem commit_ending {σ : Type} (tx : Transaction σ ρ) {w w₁ : Workspace} {h h₁ : Heap} (world : σ)
    (hr : w.ready? h = some (w₁, h₁)) :
    let c := w.commit tx { heap := h, world }
    let f := w₁.flush tx { session := { heap := h₁, world } }
    ∀ held, f.2.2.leases = { stores := held } →
      let marked := if (haltOf f.1).isSome then held else []
      c.2.2.trace = f.2.2.session.trace ++ (marked.map .errored ++ held.map .release) ∧
        Reports f.1
          (errorsOf (tx.releaseAnswers (tx.erroredWorld f.2.2.session.world marked) held)) c.1 := by
  obtain ⟨hb, hc⟩ := Workspace.ready?_eq_some.mp hr
  rw [Workspace.commit, hb, hc]
  dsimp only
  intro held hleases
  rcases hf : w₁.flush tx { session := { heap := h₁, world } } with ⟨halt | summary, w', run⟩
  all_goals
    rw [hf] at hleases
    dsimp only at hleases
    simp only [Bool.false_eq_true, if_false]
  · obtain ⟨houtcome, htrace⟩ := tx.abort_eq halt hleases
    refine ⟨htrace, ?_⟩
    rw [houtcome]
    exact reports_error _ _
  · obtain ⟨houtcome, htrace⟩ := tx.conclude_eq summary run
    rw [hleases] at houtcome htrace
    refine ⟨htrace, ?_⟩
    rw [houtcome]
    exact reports_ok _ _

/-- In every commit of a transaction whose writers run statements of their own store only: without
the writing, nothing is asked of the world. Otherwise the commit has a disciplined course; then the
leases it has got are marked errored, if the writing has stopped, and all given back, in the order
in which it has got them and whatever the answers are; and it reports the end of the writing and
what could not be given back. Over connections nothing comes after a statement or a lease that is
refused, save that leases are marked and given back. -/
theorem commit_leases {σ : Type} {tx : Transaction σ ρ} (htx : tx.Confined) (w : Workspace)
    (h : Heap) (world : σ) :
    let c := w.commit tx { heap := h, world }
    match w.ready? h with
    | none =>
      c.2.2.trace = [] ∧ c.2.2.world = world ∧
        ((w.config.bypass = true ∧ c.1 = .ok {}) ∨
          ∃ e s, Workspace.checkReady (w, h) = .error e s ∧ c.1 = .error (.failed e))
    | some (w₁, h₁) =>
      let f := w₁.flush tx { session := { heap := h₁, world } }
      let held := f.2.2.leases.stores
      let marked := if (haltOf f.1).isSome then held else []
      (∃ log, tx.Course { session := { heap := h₁, world } } log (haltOf f.1) f.2.2 ∧
        Disciplined log (haltOf f.1) ∧ held = obtained log ∧ held.Nodup ∧
        c.2.2.trace = log.flatMap (·.events) ++ (marked.map .errored ++ held.map .release)) ∧
      Reports f.1
        (errorsOf (tx.releaseAnswers (tx.erroredWorld f.2.2.session.world marked) held)) c.1 ∧
      ∀ conn deferrable, tx.WritesBy conn deferrable →
        ∀ i e, c.2.2.trace[i]? = some e →
          tx.Refuses conn (tx.replay conn world (c.2.2.trace.take i)) e →
          ∀ e' ∈ c.2.2.trace.drop (i + 1), ∃ store, e' = .errored store ∨ e' = .release store := by
  intro c
  cases hr : w.ready? h with
  | none =>
    dsimp only [c]
    rw [Workspace.commit]
    cases hb : w.config.bypass with
    | true => exact ⟨rfl, rfl, .inl ⟨rfl, rfl⟩⟩
    | false =>
      cases hc : Workspace.checkReady (w, h) with
      | ok u s =>
        rw [Workspace.ready?_eq_some.mpr ⟨hb, hc⟩] at hr
        cases hr
      | error e s => exact ⟨rfl, rfl, .inr ⟨e, s, rfl, rfl⟩⟩
  | some s =>
    obtain ⟨w₁, h₁⟩ := s
    dsimp only
    obtain ⟨log, hcourse⟩ := w₁.flush_course htx { session := { heap := h₁, world } }
    obtain ⟨hlog, htrace, hleases⟩ := hcourse.disciplined htx rfl
    obtain ⟨hend, hreports⟩ := commit_ending tx world hr (obtained log) hleases
    rw [List.nil_append] at htrace
    rw [hleases]
    have hnodup := hlog.leasedOnce.sublist (obtained_sublist log)
    refine ⟨⟨log, hcourse, hlog, rfl, hnodup, ?_⟩, hreports, ?_⟩
    · rw [← htrace]
      exact hend
    · intro conn deferrable hw i e he hrefused
      have hlast := (hcourse.smooth hw .start).2
      rw [hend] at he hrefused ⊢
      intro e' hm
      have hrest := hlast.append_releases he hrefused e' hm
      rcases List.mem_append.mp hrest with hm | hm
      · obtain ⟨store, -, rfl⟩ := List.mem_map.mp hm
        exact ⟨store, .inl rfl⟩
      · obtain ⟨store, -, rfl⟩ := List.mem_map.mp hm
        exact ⟨store, .inr rfl⟩

/-! Two stores, of which the one refuses its update and the other cannot be given back. -/

def stuckStores : Transaction Nat :=
  { Transaction.sql refusingB false with
    release := fun store n =>
      (if store = "a" then .error (.custom "connection lost") else .ok (), n + 1) }

private theorem stuckStores_confined : stuckStores.Confined := by
  have hw : stuckStores.WritesBy refusingB fun _ => false := ⟨fun _ => rfl, fun _ => rfl⟩
  exact hw.confined

/-- Both stores are marked errored, and both are given back although the first one answers by an
error. -/
theorem commit_leases_stuck : ∃ (log : List (Exchange CancelReason)) (stop : Option Halt),
    Disciplined log stop ∧ obtained log = ["a", "b"] ∧
    (trackedItems.1.commit stuckStores { heap := trackedItems.2, world := 0 }).2.2.trace =
      log.flatMap (·.events) ++
        [.errored "a", .errored "b", .release "a", .release "b"] := by
  have hready : trackedItems.1.ready? trackedItems.2 = some (trackedItems.1, trackedItems.2) := by
    decide +kernel
  have hcommit := commit_leases stuckStores_confined trackedItems.1 trackedItems.2 0
  rw [hready] at hcommit
  obtain ⟨⟨log, -, hlog, hheld, -, htrace⟩, -⟩ := hcommit
  have hstores : (trackedItems.1.flush stuckStores
      { session := { heap := trackedItems.2, world := 0 } }).2.2.leases.stores = ["a", "b"] := by
    decide +kernel
  have hstopped : (haltOf (trackedItems.1.flush stuckStores
      { session := { heap := trackedItems.2, world := 0 } }).1).isSome = true := by
    decide +kernel
  rw [hstores, if_pos hstopped] at htrace
  exact ⟨log, _, hlog, by rw [← hheld, hstores], htrace⟩

end UnitOfWork
