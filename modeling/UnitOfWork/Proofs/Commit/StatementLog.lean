import UnitOfWork.Proofs.Commit.InsertOrder
import UnitOfWork.Proofs.Commit.UnsavedChanges

/-!
# The log of statements

The statements that a commit has run, each with the record that it was run for, and how many rows
the store has reported for those that are to find one. Each phase of the writing adds its statements
to the end of the log, one for each record in the order of the batches; a phase that stops has added
those of the first records.
-/

namespace UnitOfWork

/-- The statements of a trace, each with the record that it was run for. -/
def statementsIn (trace : List Event) : List (Option RecordId × Statement) :=
  trace.filterMap Event.statement?

namespace Event

/-- The statement has to find a row: it updates one or asks for it. -/
def seeksRow (e : Event) : Bool :=
  match e.statement? with
  | some (_, .update ..) | some (_, .probe ..) => true
  | _ => false

variable {σ ρ : Type}

/-- How many rows the store reports for the statement, if it is run in `world`. -/
def count? (conn : String → Connection σ ρ) (world : σ) : Event → Option Nat
  | execute store _ st => ((conn store).execute st.sql st.params world).1.toOption
  | query store _ st => ((conn store).query st.sql st.params world).1.toOption.map fun row =>
    if row.isSome then 1 else 0
  | _ => none

private theorem seeksRow_of_statement? {e : Event} (he : e.statement? = none) :
    e.seeksRow = false := by
  rw [seeksRow, he]

end Event

namespace Transaction

variable {σ ρ : Type} {tx : Transaction σ ρ} {conn : String → Connection σ ρ} {world : σ}

/-- What has been reported for the statements that have to find a row, in a commit that began in
`world`. -/
def reports (tx : Transaction σ ρ) (conn : String → Connection σ ρ) (world : σ) :
    List Event → List (Option Nat)
  | [] => []
  | e :: es =>
    (if e.seeksRow then [e.count? conn world] else []) ++
      reports tx conn (tx.replayEvent conn world e) es

private theorem reports_snoc (events : List Event) (e : Event) :
    tx.reports conn world (events ++ [e]) = tx.reports conn world events ++
      if e.seeksRow then [e.count? conn (tx.replay conn world events)] else [] := by
  induction events generalizing world with
  | nil => simp [reports, replay]
  | cons e' events ih =>
    rw [List.cons_append, reports, ih, reports, List.append_assoc]
    rfl

private theorem reports_append_quiet {events others : List Event}
    (hothers : ∀ e ∈ others, e.statement? = none) :
    tx.reports conn world (events ++ others) = tx.reports conn world events := by
  induction others generalizing events with
  | nil => rw [List.append_nil]
  | cons e others ih =>
    obtain ⟨he, hothers⟩ := List.forall_mem_cons.mp hothers
    rw [List.append_cons, ih hothers, reports_snoc, Event.seeksRow_of_statement? he,
      if_neg Bool.false_ne_true, List.append_nil]

theorem mem_reports {events : List Event} {i : Nat} {e : Event} (hi : events[i]? = some e)
    (he : e.seeksRow) :
    e.count? conn (tx.replay conn world (events.take i)) ∈ tx.reports conn world events := by
  induction events generalizing world i with
  | nil => cases hi
  | cons e' events ih =>
    rw [reports, List.mem_append]
    cases i with
    | zero =>
      obtain rfl : e' = e := Option.some.inj hi
      simp [he, replay]
    | succ i => exact .inr (ih hi)

/-- The session has run these statements and got these reports. -/
structure Logged (tx : Transaction σ ρ) (conn : String → Connection σ ρ) (world : σ)
    (log : List (Option RecordId × Statement)) (reports : List (Option Nat)) (s : Session σ) :
    Prop where
  replayed : s.world = tx.replay conn world s.trace
  log : statementsIn s.trace = log
  reports : tx.reports conn world s.trace = reports

variable {log : List (Option RecordId × Statement)} {counts : List (Option Nat)}
  {s s' : Session σ}

theorem Logged.start (h : Heap) : tx.Logged conn world [] [] { heap := h, world } := ⟨rfl, rfl, rfl⟩

theorem Logged.withHeap (hs : tx.Logged conn world log counts s) (h : Heap) :
    tx.Logged conn world log counts { s with heap := h } :=
  ⟨hs.replayed, hs.log, hs.reports⟩

theorem Logged.snoc (hs : tx.Logged conn world log counts s) {e : Event}
    (ht : s'.trace = s.trace ++ [e]) (hw : s'.world = tx.replayEvent conn s.world e) :
    tx.Logged conn world (log ++ e.statement?.toList)
      (counts ++ if e.seeksRow then [e.count? conn s.world] else []) s' where
  replayed := by rw [hw, ht, replay_snoc, hs.replayed]
  log := by
    rw [ht, statementsIn, List.filterMap_append, ← statementsIn, hs.log]
    cases he : e.statement? <;> simp [he]
  reports := by rw [ht, reports_snoc, hs.reports, hs.replayed]

theorem Logged.quiet (hs : tx.Logged conn world log counts s) (q : tx.Quiet s s') :
    tx.Logged conn world log counts s' := by
  obtain ⟨e, he, ht, hw⟩ := q.replay conn
  have hsnoc := hs.snoc ht hw
  rwa [he, Event.seeksRow_of_statement? he, Option.toList_none, List.append_nil,
    if_neg Bool.false_ne_true, List.append_nil] at hsnoc

theorem Logged.releases (hs : tx.Logged conn world log counts s) (a : Releases s s') :
    statementsIn s'.trace = log ∧ tx.reports conn world s'.trace = counts := by
  obtain ⟨events, ht, he⟩ := a.trace
  rw [ht, reports_append_quiet he, hs.reports, statementsIn, List.filterMap_append,
    List.filterMap_eq_nil_iff.mpr he, List.append_nil]
  exact ⟨hs.log, rfl⟩

private theorem Logged.executed (hs : tx.Logged conn world log counts s) {store : String}
    (hstore : (conn store).store = store) (r : Option RecordId) (st : Statement) :
    tx.Logged conn world (log ++ [(r, st)])
      (counts ++ if (Event.execute store r st).seeksRow then
        [((conn store).execute st.sql st.params s.world).1.toOption] else [])
      ((conn store).executed r st s) :=
  hs.snoc (e := .execute store r st) (by rw [Connection.executed, hstore]; rfl) rfl

private theorem Logged.queried (hs : tx.Logged conn world log counts s) {store : String}
    (hstore : (conn store).store = store) (r : Option RecordId) (st : Statement) :
    tx.Logged conn world (log ++ [(r, st)])
      (counts ++ if (Event.query store r st).seeksRow then
        [((conn store).query st.sql st.params s.world).1.toOption.map fun row =>
          if row.isSome then 1 else 0] else [])
      ((conn store).queried r st s) :=
  hs.snoc (e := .query store r st) (by rw [Connection.queried, hstore]; rfl) rfl

end Transaction

namespace Heap

/-- The statement writes to the row with the key of `r`, or asks for that row if `probed` holds. -/
inductive Touches (h : Heap) (t : RecordType) (r : RecordId) (probed : Prop) : Statement → Prop
  | update {key : KeyMatch} (assigned : List (String × Value)) : h.keyMatch t r = .ok key →
    Touches h t r probed (.update t.table assigned key)
  | probe {key : KeyMatch} : h.keyMatch t r = .ok key → probed →
    Touches h t r probed (.probe t.table key)

/-- No reference of the record is written by an update: the name of its field is that of a key
column, or the type has no such field. -/
def WritesNoReference (h : Heap) (t : RecordType) (r : RecordId) : Prop :=
  ∀ name ∈ (h.get r).references.names, t.hasKeyColumn name ∨ t.reference? name = none

/-- The record may have nothing to update: it has a row already, or no update writes any of its
references. -/
def MayProbe (h : Heap) (t : RecordType) (r : RecordId) : Prop :=
  (h.get r).isNew → h.WritesNoReference t r

/-- The statement was run for the record, whose row it touches. -/
def Finds (h : Heap) (probed : RecordType → RecordId → Prop) (e : RecordType × RecordId)
    (x : Option RecordId × Statement) : Prop :=
  x.1 = some e.2 ∧ h.Touches e.1 e.2 (probed e.1 e.2) x.2

variable {h : Heap} {t : RecordType} {r : RecordId} {st : Statement}

theorem Touches.imp {probed probed' : Prop} (ht : h.Touches t r probed st)
    (hp : probed → probed') : h.Touches t r probed' st := by
  cases ht with
  | update assigned hk => exact .update assigned hk
  | probe hk hprobed => exact .probe hk (hp hprobed)

private theorem Touches.seeksRow {probed : Prop} (ht : h.Touches t r probed st) {e : Event}
    {q : Option RecordId} (he : e.statement? = some (q, st)) : e.seeksRow := by
  rw [Event.seeksRow, he]
  cases ht <;> rfl

theorem Touches.congr {probed : Prop} {h' : Heap} (ht : h.Touches t r probed st)
    (hk : h'.primaryKey? r = h.primaryKey? r) : h'.Touches t r probed st := by
  have hmatch : ∀ {key}, h.keyMatch t r = .ok key → h'.keyMatch t r = .ok key := by
    intro key hkey
    rw [keyMatch] at hkey ⊢
    rw [hk]
    cases hp : h.primaryKey? r with
    | none => rw [hp] at hkey; cases hkey
    | some k => rwa [hp] at hkey
  cases ht with
  | update assigned hkey => exact .update assigned (hmatch hkey)
  | probe hkey hprobed => exact .probe (hmatch hkey) hprobed

theorem touches_of_updateStatement? (hst : h.updateStatement? t r = .ok (some st)) :
    h.Touches t r False st := by
  rw [updateStatement?] at hst
  split at hst
  · cases hst
  · next assigned _ =>
    cases hk : h.keyMatch t r with
    | error e => rw [hk] at hst; cases hst
    | ok key =>
      rw [hk] at hst
      obtain rfl := Option.some.inj (Except.ok.inj hst)
      exact .update _ hk

/-- A record is looked for only if there is nothing to update; in a record that was inserted ahead
of its references, that is none of these. -/
theorem touches_of_probeStatement (hnone : h.updateStatement? t r = .ok none)
    (hst : h.probeStatement t r = .ok st) :
    h.Touches t r (h.MayProbe t r) st := by
  rw [probeStatement] at hst
  cases hk : h.keyMatch t r with
  | error e => rw [hk] at hst; cases hst
  | ok key =>
    rw [hk] at hst
    obtain rfl := Except.ok.inj hst
    refine .probe hk fun hn name hname => ?_
    have hdirty : name ∈ dirtyNames (h.get r) := by
      rw [dirtyNames, if_pos hn, NameSet.mem_addAll]
      exact .inr hname
    have hempty : (dirtyNames (h.get r)).filterMap (h.assignment? t r) = [] := by
      rw [updateStatement?] at hnone
      split at hnone
      · assumption
      · rw [hk] at hnone
        cases hnone
    have hassignment := List.filterMap_eq_nil_iff.mp hempty name hdirty
    rw [assignment?] at hassignment
    split at hassignment
    · exact .inl ‹_›
    · split at hassignment
      · cases hassignment
      · exact .inr ‹_›

private theorem Keeps.modifyAll_resetChanges (h : Heap) (rs : List RecordId) :
    h.Keeps (h.modifyAll rs .resetChanges) := by
  induction rs generalizing h with
  | nil => exact .refl h
  | cons r rs ih => exact (Keeps.modify_resetChanges h r).trans (ih _)

theorem Finds.imp {probed probed' : RecordType → RecordId → Prop} {e : RecordType × RecordId}
    {x : Option RecordId × Statement} (hx : h.Finds probed e x)
    (hp : probed e.1 e.2 → probed' e.1 e.2) : h.Finds probed' e x :=
  ⟨hx.1, hx.2.imp hp⟩

theorem Finds.settles {probed : RecordType → RecordId → Prop} {h' : Heap}
    {e : RecordType × RecordId} {x : Option RecordId × Statement} (hx : h.Finds probed e x)
    (hs : h.Settles h') : h'.Finds probed e x :=
  ⟨hx.1, hx.2.congr (hs.primaryKey? e.2)⟩

theorem Keeps.mayProbe {h' : Heap} (a : h.Keeps h') (t : RecordType) (r : RecordId) :
    h'.MayProbe t r ↔ h.MayProbe t r := by
  rw [MayProbe, MayProbe, WritesNoReference, WritesNoReference, a.isNew, a.references]

private theorem Finds.of_resetChanges {e : RecordType × RecordId} {x : Option RecordId × Statement}
    {rs : List RecordId}
    (hx : (h.modifyAll rs .resetChanges).Finds (h.modifyAll rs .resetChanges).MayProbe e x) :
    h.Finds h.MayProbe e x := by
  have hs := Settles.modifyAll Settles.modify_resetChanges h rs
  have hk := Keeps.modifyAll_resetChanges h rs
  exact ⟨hx.1, (hx.2.congr (hs.primaryKey? e.2).symm).imp (hk.mayProbe e.1 e.2).mp⟩

end Heap

namespace Connection

variable {σ ρ : Type} {tx : Transaction σ ρ} {conn : String → Connection σ ρ} {world : σ}
  {log : List (Option RecordId × Statement)} {counts : List (Option Nat)} {h : Heap}

/-- The update of one record runs one statement, and answers with what is reported for it. -/
theorem updateOne_logged {store : String} (hstore : (conn store).store = store) (t : RecordType)
    (r : RecordId) :
    Triple (fun s => tx.Logged conn world log counts s ∧ s.heap = h)
      ((conn store).updateOne t r)
      (fun n s => (∃ st, h.Touches t r (h.MayProbe t r) st ∧
        tx.Logged conn world (log ++ [(some r, st)]) (counts ++ [some n]) s) ∧ s.heap = h)
      fun _ s => ((∃ st counts', h.Touches t r (h.MayProbe t r) st ∧
        tx.Logged conn world (log ++ [(some r, st)]) counts' s) ∨
          tx.Logged conn world log counts s) ∧ s.heap = h := by
  rw [updateOne]
  refine Triple.bind (R := fun found s => h.updateStatement? t r = .ok found ∧
    tx.Logged conn world log counts s ∧ s.heap = h)
    (Triple.reading (fun s found hs hf => ⟨hs.2 ▸ hf, hs⟩) fun s e hs _ => ⟨.inr hs.1, hs.2⟩)
    fun found => ?_
  cases found with
  | some st =>
    refine Triple.of_starting fun s hs => ?_
    obtain ⟨hst, hlog, hheap⟩ := hs
    have htouches := Heap.touches_of_updateStatement? hst
    have hran := hlog.executed hstore (some r) st
    refine ((conn store).perform_triple t r st s).conseq (fun _ h => h) ?_ ?_
    · rintro n s' ⟨hn, rfl⟩
      refine ⟨⟨st, htouches.imp False.elim, ?_⟩, hheap⟩
      rwa [if_pos (htouches.seeksRow rfl), hn] at hran
    · rintro _ s' ⟨-, rfl⟩
      exact ⟨.inl ⟨st, _, htouches.imp False.elim, hran⟩, hheap⟩
  | none =>
    refine Triple.bind (R := fun st s => h.probeStatement t r = .ok st ∧
      h.updateStatement? t r = .ok none ∧ tx.Logged conn world log counts s ∧ s.heap = h)
      (Triple.reading (fun s st hs hst => ⟨hs.2.2 ▸ hst, hs⟩) fun s e hs _ => ⟨.inr hs.2.1, hs.2.2⟩)
      fun st => Triple.of_starting fun s hs => ?_
    obtain ⟨hst, hnone, hlog, hheap⟩ := hs
    have htouches := Heap.touches_of_probeStatement hnone hst
    have hran := hlog.queried hstore (some r) st
    refine Triple.bind (((conn store).fetch_triple t r st s).conseq (fun _ h => h)
      (fun _ _ h => h) ?_) fun row => Triple.pure ?_
    · rintro _ s' ⟨-, rfl⟩
      exact ⟨.inl ⟨st, _, htouches, hran⟩, hheap⟩
    · rintro s' ⟨hrow, rfl⟩
      refine ⟨⟨st, htouches, ?_⟩, hheap⟩
      rw [if_pos (htouches.seeksRow rfl), hrow] at hran
      cases row <;> exact hran

end Connection

namespace Transaction

variable {σ ρ : Type} {tx : Transaction σ ρ} {conn : String → Connection σ ρ}
  {deferrable : String → Bool} {world : σ} {log : List (Option RecordId × Statement)}
  {counts : List (Option Nat)} {h : Heap} {s : Session σ}

/-- Statements were run for the first of some records only. -/
def Stopped (tx : Transaction σ ρ) (conn : String → Connection σ ρ) (world : σ)
    (log : List (Option RecordId × Statement)) (h : Heap) (es : List (RecordType × RecordId))
    (s : Session σ) : Prop :=
  ∃ done xs counts, done <+: es ∧ done.Forall₂ (h.Finds h.MayProbe) xs ∧
    tx.Logged conn world (log ++ xs) counts s

private theorem Logged.stopped (hs : tx.Logged conn world log counts s)
    (es : List (RecordType × RecordId)) : tx.Stopped conn world log h es s :=
  ⟨[], [], counts, List.nil_prefix, .nil, by rwa [List.append_nil]⟩

theorem Stopped.cons {es : List (RecordType × RecordId)} {e : RecordType × RecordId}
    {x : Option RecordId × Statement} (hx : h.Finds h.MayProbe e x)
    (hs : tx.Stopped conn world (log ++ [x]) h es s) :
    tx.Stopped conn world log h (e :: es) s := by
  obtain ⟨done, xs, counts, hdone, hall, hlog⟩ := hs
  refine ⟨e :: done, x :: xs, counts, List.cons_prefix_cons.mpr ⟨rfl, hdone⟩, .cons hx hall, ?_⟩
  rwa [List.append_assoc] at hlog

private theorem WritesBy.update_logged (hw : tx.WritesBy conn deferrable) (t : RecordType)
    (rs : List RecordId) :
    Triple (fun s => tx.Logged conn world log counts s ∧ s.heap = h)
      (rs.mapM ((conn t.store).updateOne t))
      (fun ns s => (∃ xs, (rs.map (t, ·)).Forall₂ (h.Finds h.MayProbe) xs ∧ ns.length = rs.length ∧
        tx.Logged conn world (log ++ xs) (counts ++ ns.map some) s) ∧ s.heap = h)
      fun _ s => tx.Stopped conn world log h (rs.map (t, ·)) s ∧ s.heap = h := by
  induction rs generalizing log counts with
  | nil => exact Triple.pure fun s hs => ⟨⟨[], .nil, rfl, by simpa using hs.1⟩, hs.2⟩
  | cons r rs ih =>
    rw [List.mapM_cons]
    refine Triple.bind ((Connection.updateOne_logged (hw.store t.store) t r).conseq (fun _ h => h)
      (fun _ _ h => h) ?_) fun n => Triple.of_starting fun s hs => ?_
    · rintro _ s ⟨⟨st, counts', htouches, hlog⟩ | hlog, hheap⟩
      · exact ⟨Stopped.cons ⟨rfl, htouches⟩ (hlog.stopped _), hheap⟩
      · exact ⟨hlog.stopped _, hheap⟩
    · obtain ⟨⟨st, htouches, hlog⟩, hheap⟩ := hs
      have hfinds : h.Finds h.MayProbe (t, r) (some r, st) := ⟨rfl, htouches⟩
      refine Triple.bind ((ih.starting ⟨hlog, hheap⟩).conseq (fun _ h => h) (fun _ _ h => h)
        fun _ s hs => ⟨hs.1.cons hfinds, hs.2⟩) fun ns => Triple.pure ?_
      rintro s ⟨⟨xs, hall, hlength, hlog⟩, hheap⟩
      refine ⟨⟨(some r, st) :: xs, .cons hfinds hall, by simp [hlength], ?_⟩, hheap⟩
      simpa [List.append_assoc] using hlog

private theorem pos_of_confirmed {rs : List RecordId} {ns : List Nat}
    (hlength : ns.length = rs.length) (hall : confirmed rs ns = rs) : ∀ n ∈ ns, 0 < n := by
  induction rs generalizing ns with
  | nil =>
    rw [List.eq_nil_of_length_eq_zero hlength]
    exact fun n hn => absurd hn List.not_mem_nil
  | cons r rs ih =>
    obtain ⟨n, ns, rfl⟩ := List.exists_cons_of_length_eq_add_one hlength
    rw [confirmed] at hall
    split at hall
    · cases hall
    · next hne =>
      refine List.forall_mem_cons.mpr ⟨Nat.pos_of_ne_zero hne, ?_⟩
      exact ih (Nat.succ.inj hlength) (List.cons.inj hall).2

/-- The row of each record was found, and nothing is left to be written of it. -/
structure Found (tx : Transaction σ ρ) (conn : String → Connection σ ρ) (world : σ)
    (log : List (Option RecordId × Statement)) (counts : List (Option Nat)) (h : Heap)
    (es : List (RecordType × RecordId)) (s : Session σ) : Prop where
  log : ∃ xs, ∃ ns : List Nat, es.Forall₂ (h.Finds h.MayProbe) xs ∧ (∀ n ∈ ns, 0 < n) ∧
    tx.Logged conn world (log ++ xs) (counts ++ ns.map some) s
  heap : s.heap = h.modifyAll (es.map Prod.snd) .resetChanges

private theorem entries_snd (b : Batch) : b.entries.map Prod.snd = b.records := by
  simp [Batch.entries, Function.comp_def]

private theorem WritesBy.updateBatch_logged (hw : tx.WritesBy conn deferrable) (b : Batch) :
    Triple (fun run => tx.Logged conn world log counts run.session ∧ run.session.heap = h)
      (tx.updateBatch b) (fun _ run => tx.Found conn world log counts h b.entries run.session)
      fun _ run => tx.Stopped conn world log h b.entries run.session ∧
        h.Settles run.session.heap := by
  rw [updateBatch_eq]
  have hsteady : tx.Steady fun s => tx.Logged conn world log counts s ∧ s.heap = h :=
    fun s s' q hs => ⟨hs.1.quiet q, q.heap.trans hs.2⟩
  have hwriting := writing_triple (b := b) (e := .update b.type.name b.records)
    (x := fun w => w.update b.type b.records)
    (Q := fun ns s => (∃ xs, b.entries.Forall₂ (h.Finds h.MayProbe) xs ∧
      ns.length = b.records.length ∧
      tx.Logged conn world (log ++ xs) (counts ++ ns.map some) s) ∧ s.heap = h)
    (E := fun _ s => tx.Stopped conn world log h b.entries s ∧ s.heap = h) hsteady
    (fun _ => .update _ _) (fun _ _ s hs => ⟨hs.1.stopped _, hs.2⟩)
    (by rw [hw.writer]; exact hw.update_logged b.type b.records)
  refine Triple.bind (hwriting.conseq (fun _ h => h) (fun _ _ h => h) fun _ run hs => ?_)
    fun ns => ?_
  · exact ⟨hs.1, hs.2 ▸ .refl _⟩
  · refine Triple.of_starting fun run hs => ?_
    obtain ⟨⟨xs, hall, hlength, hlog⟩, hheap⟩ := hs
    have hkept : Preserves (fun s => tx.Logged conn world (log ++ xs) (counts ++ ns.map some) s)
        (confirm b.type b.records ns : Working σ ρ Unit) :=
      confirm_preserves (P := tx.Logged conn world (log ++ xs) (counts ++ ns.map some))
        (fun s r hs => hs.withHeap _) b.type b.records ns
    have hconfirm := (hkept.starting hlog).and (confirm_heap b.type b.records ns run.session)
    have hboth : Triple (· = run.session)
        (do confirm b.type b.records ns; return b.records.length : Working σ ρ Nat)
        (fun _ s => tx.Found conn world log counts h b.entries s)
        fun _ s => tx.Stopped conn world log h b.entries s ∧ h.Settles s.heap := by
      refine Triple.bind (hconfirm.conseq (fun _ h => ⟨h, h⟩) (fun _ _ h => h) ?_)
        fun _ => Triple.pure ?_
      · rintro _ s ⟨hlog, hheap'⟩
        refine ⟨⟨b.entries, xs, _, List.prefix_rfl, hall, hlog⟩, ?_⟩
        rw [hheap', hheap]
        exact Heap.Settles.modifyAll Heap.Settles.modify_resetChanges _ _
      · rintro s ⟨hlog, hconfirmed, hheap'⟩
        refine ⟨⟨xs, ns, hall, pos_of_confirmed hlength hconfirmed, hlog⟩, ?_⟩
        rw [hheap', hheap, entries_snd]
    exact (Triple.during hboth).starting rfl

theorem Stopped.append {es es' : List (RecordType × RecordId)}
    {xs : List (Option RecordId × Statement)} (hall : es.Forall₂ (h.Finds h.MayProbe) xs)
    (hs : tx.Stopped conn world (log ++ xs) h es' s) :
    tx.Stopped conn world log h (es ++ es') s := by
  obtain ⟨done, xs', counts, hdone, hall', hlog⟩ := hs
  refine ⟨es ++ done, xs ++ xs', counts, (List.prefix_append_right_inj es).mpr hdone,
    List.rel_append hall hall', ?_⟩
  rwa [List.append_assoc] at hlog

theorem Stopped.imp {h' : Heap} {es es' : List (RecordType × RecordId)}
    (hs : tx.Stopped conn world log h es s) (hes : es <+: es')
    (hf : ∀ e x, h.Finds h.MayProbe e x → h'.Finds h'.MayProbe e x) :
    tx.Stopped conn world log h' es' s := by
  obtain ⟨done, xs, counts, hdone, hall, hlog⟩ := hs
  exact ⟨done, xs, counts, hdone.trans hes, hall.imp hf, hlog⟩

/-- The updates of several batches run one statement for each of their records. -/
theorem WritesBy.updates_logged (hw : tx.WritesBy conn deferrable) (bs : List Batch) :
    Triple (fun run => tx.Logged conn world log counts run.session ∧ run.session.heap = h)
      (bs.mapM tx.updateBatch)
      (fun _ run => tx.Found conn world log counts h (entriesOf bs) run.session)
      fun _ run => tx.Stopped conn world log h (entriesOf bs) run.session ∧
        h.Settles run.session.heap := by
  induction bs generalizing log counts h with
  | nil =>
    exact Triple.pure fun run hs => ⟨⟨[], [], .nil, by simp, by simpa using hs.1⟩, hs.2⟩
  | cons b bs ih =>
    rw [List.mapM_cons, entriesOf_cons]
    refine Triple.bind ((hw.updateBatch_logged b).conseq (fun _ h => h) (fun _ _ h => h)
      fun _ run hs => ⟨hs.1.imp (List.prefix_append ..) fun _ _ => id, hs.2⟩) fun n =>
      Triple.of_starting fun run hs => ?_
    obtain ⟨⟨xs, ns, hall, hpos, hlog⟩, hheap⟩ := hs
    have hsettles := Heap.Settles.modifyAll Heap.Settles.modify_resetChanges h
      (b.entries.map Prod.snd)
    refine Triple.bind ((ih.starting ⟨hlog, hheap⟩).conseq (fun _ h => h) (fun _ _ h => h) ?_)
      fun ms => Triple.pure ?_
    · rintro _ run' ⟨hstopped, hs⟩
      exact ⟨.append hall (hstopped.imp List.prefix_rfl fun _ _ => .of_resetChanges),
        hsettles.trans hs⟩
    · rintro run' ⟨⟨xs', ns', hall', hpos', hlog'⟩, hheap'⟩
      refine ⟨⟨xs ++ xs', ns ++ ns', List.rel_append hall (hall'.imp fun _ _ => .of_resetChanges),
        fun n hn => (List.mem_append.mp hn).elim (hpos n) (hpos' n), ?_⟩, ?_⟩
      · simpa [List.append_assoc] using hlog'
      · rw [hheap', List.map_append]
        exact (List.foldl_append ..).symm

end Transaction

/-- The part of a statement that finds the row with the key. -/
def RecordType.keyMatch (t : RecordType) (key : RowKey) : KeyMatch :=
  { columns := t.key.map (·.name), values := key.values }

/-- The statements that delete the rows with the keys: each key is bound once. -/
def RecordType.deletes (t : RecordType) (keys : List RowKey) : List Statement :=
  if keys.isEmpty then []
  else if t.isComposite then
    keys.map fun key => .delete t.table (t.keyMatch key)
  else [.deleteAny t.table (t.key.head t.key_ne_nil).name (keys.flatMap (·.values))]

theorem RecordType.deletes_composite {t : RecordType} (hc : t.isComposite) (keys : List RowKey) :
    t.deletes keys = keys.map fun key => .delete t.table (t.keyMatch key) := by
  cases keys <;> simp [deletes, hc]

theorem RecordType.deletes_single {t : RecordType} (hc : t.isComposite = false)
    {keys : List RowKey} (hne : keys ≠ []) : t.deletes keys =
      [.deleteAny t.table (t.key.head t.key_ne_nil).name (keys.flatMap (·.values))] := by
  simp [deletes, hc, hne]

/-- The statements that delete the rows of a batch. -/
def Heap.deletesOf (h : Heap) (b : Batch) : List Statement :=
  b.type.deletes (b.records.filterMap h.primaryKey?)

theorem Heap.mapM_keyMatch {h : Heap} {t : RecordType} {rs : List RecordId} {ms : List KeyMatch}
    (hok : rs.mapM (h.keyMatch t) = .ok ms) :
    ms = (rs.filterMap h.primaryKey?).map t.keyMatch ∧ (rs.filterMap h.primaryKey?).map some =
      rs.map h.primaryKey? := by
  induction rs generalizing ms with
  | nil =>
    obtain rfl := Except.ok.inj hok
    exact ⟨rfl, rfl⟩
  | cons r rs ih =>
    rw [List.mapM_cons, keyMatch] at hok
    cases hk : h.primaryKey? r with
    | none => rw [hk] at hok; cases hok
    | some key =>
      cases hrest : rs.mapM (h.keyMatch t) with
      | error e => rw [hk, hrest] at hok; cases hok
      | ok rest =>
        rw [hk, hrest] at hok
        obtain rfl := Except.ok.inj hok
        obtain ⟨rfl, hkeys⟩ := ih hrest
        simp [hk, hkeys, RecordType.keyMatch]

theorem Heap.deleteStatements_ok {h : Heap} {b : Batch} {sts : List Statement}
    (hok : h.deleteStatements b.type b.records = .ok sts) : sts = h.deletesOf b := by
  rw [deleteStatements] at hok
  rw [deletesOf, RecordType.deletes]
  cases hrecords : b.records with
  | nil =>
    rw [hrecords] at hok
    exact (Except.ok.inj hok).symm
  | cons r rs =>
    rw [hrecords] at hok
    simp only [List.isEmpty_cons, Bool.false_eq_true, if_false] at hok
    cases hms : (r :: rs).mapM (h.keyMatch b.type) with
    | error e => rw [hms] at hok; cases hok
    | ok ms =>
      obtain ⟨rfl, hkeys⟩ := mapM_keyMatch hms
      have hne : ((r :: rs).filterMap h.primaryKey?).isEmpty = false := by
        rw [List.isEmpty_eq_false_iff]
        intro hnil
        rw [hnil] at hkeys
        cases hkeys
      rw [hms] at hok
      rw [hne]
      simp only [Bool.false_eq_true, if_false]
      by_cases hc : b.type.isComposite
      · rw [if_pos hc]
        obtain rfl : _ = sts := Except.ok.inj ((if_pos hc).symm.trans hok)
        rw [List.map_map]
        rfl
      · rw [if_neg hc]
        obtain rfl : _ = sts := Except.ok.inj ((if_neg hc).symm.trans hok)
        rw [List.flatMap_map]
        rfl

private theorem RecordType.not_seeksRow_of_mem_deletes {t : RecordType} {keys : List RowKey}
    {st : Statement} (hst : st ∈ t.deletes keys) (store : String) (r : Option RecordId) :
    (Event.execute store r st).seeksRow = false := by
  rw [deletes] at hst
  split at hst
  · cases hst
  · split at hst
    · obtain ⟨key, -, rfl⟩ := List.mem_map.mp hst
      rfl
    · obtain rfl := List.mem_singleton.mp hst
      rfl

namespace Transaction

variable {σ ρ : Type} {tx : Transaction σ ρ} {conn : String → Connection σ ρ}
  {deferrable : String → Bool} {world : σ} {log : List (Option RecordId × Statement)}
  {counts : List (Option Nat)} {h : Heap}

/-- Only the first of some statements were run, each for no record in particular. -/
def Cut (tx : Transaction σ ρ) (conn : String → Connection σ ρ) (world : σ)
    (log : List (Option RecordId × Statement)) (counts : List (Option Nat)) (sts : List Statement)
    (s : Session σ) : Prop :=
  ∃ done, done <+: sts ∧ tx.Logged conn world (log ++ done.map (none, ·)) counts s

private theorem Logged.cut {s : Session σ} (hs : tx.Logged conn world log counts s)
    (sts : List Statement) : tx.Cut conn world log counts sts s :=
  ⟨[], List.nil_prefix, by simpa using hs⟩

theorem Cut.append {sts sts' : List Statement} {s : Session σ}
    (hs : tx.Cut conn world (log ++ sts.map (none, ·)) counts sts' s) :
    tx.Cut conn world log counts (sts ++ sts') s := by
  obtain ⟨done, hdone, hlog⟩ := hs
  refine ⟨sts ++ done, (List.prefix_append_right_inj sts).mpr hdone, ?_⟩
  rwa [List.append_assoc, ← List.map_append] at hlog

private theorem Cut.extend {sts sts' : List Statement} {s : Session σ}
    (hs : tx.Cut conn world log counts sts s) (hsts : sts <+: sts') :
    tx.Cut conn world log counts sts' s := by
  obtain ⟨done, hdone, hlog⟩ := hs
  exact ⟨done, hdone.trans hsts, hlog⟩

private theorem WritesBy.perform_logged (hw : tx.WritesBy conn deferrable) (store : String)
    (t : RecordType) {sts : List Statement}
    (hsts : ∀ st ∈ sts, ∀ store r, (Event.execute store r st).seeksRow = false) :
    Triple (fun s => tx.Logged conn world log counts s ∧ s.heap = h)
      (sts.mapM ((conn store).perform t none))
      (fun _ s => tx.Logged conn world (log ++ sts.map (none, ·)) counts s ∧ s.heap = h)
      fun _ s => tx.Cut conn world log counts sts s ∧ s.heap = h := by
  induction sts generalizing log with
  | nil => exact Triple.pure fun s hs => by simpa using hs
  | cons st sts ih =>
    rw [List.mapM_cons]
    refine Triple.of_starting fun s hs => ?_
    have hran := hs.1.executed (hw.store store) none st
    rw [hsts st List.mem_cons_self, if_neg Bool.false_ne_true, List.append_nil] at hran
    have hone : tx.Logged conn world (log ++ [st].map (none, ·)) counts
        ((conn store).executed none st s) := hran
    have hcons : ∀ {s}, tx.Cut conn world (log ++ [st].map (none, ·)) counts sts s →
        tx.Cut conn world log counts (st :: sts) s := fun hs => hs.append
    have hrest := (ih fun st' hst' => hsts st' (List.mem_cons_of_mem _ hst')).starting ⟨hone, hs.2⟩
    refine Triple.bind (((conn store).perform_triple t none st s).conseq (fun _ h => h)
      (fun _ _ h => h) ?_) fun n => Triple.bind (hrest.conseq ?_ (fun _ _ h => h) ?_) fun ns =>
      Triple.pure ?_
    · rintro _ s' ⟨-, rfl⟩
      exact ⟨hcons (hone.cut sts), hs.2⟩
    · exact fun _ h => h.2
    · rintro _ s' ⟨hcut, hheap⟩
      exact ⟨hcons hcut, hheap⟩
    · rintro s' ⟨hlog, hheap⟩
      refine ⟨?_, hheap⟩
      simpa [List.append_assoc] using hlog

private theorem WritesBy.deleteBatch_logged (hw : tx.WritesBy conn deferrable) (b : Batch) :
    Triple (fun run => tx.Logged conn world log counts run.session ∧ run.session.heap = h)
      (tx.deleteBatch b)
      (fun _ run => tx.Logged conn world (log ++ (h.deletesOf b).map (none, ·)) counts run.session ∧
        run.session.heap = h)
      fun _ run => tx.Cut conn world log counts (h.deletesOf b) run.session ∧
        run.session.heap = h := by
  have hsteady : tx.Steady fun s => tx.Logged conn world log counts s ∧ s.heap = h :=
    fun s s' q hs => ⟨hs.1.quiet q, q.heap.trans hs.2⟩
  refine writing_triple (Q := fun _ s => tx.Logged conn world
      (log ++ (h.deletesOf b).map (none, ·)) counts s ∧ s.heap = h)
    (E := fun _ s => tx.Cut conn world log counts (h.deletesOf b) s ∧ s.heap = h) hsteady
    (fun _ => .delete _ _) (fun _ _ s hs => ⟨hs.1.cut _, hs.2⟩) ?_
  rw [hw.writer]
  refine Triple.bind (R := fun sts s => sts = h.deletesOf b ∧
    tx.Logged conn world log counts s ∧ s.heap = h)
    (Triple.reading (fun s sts hs hok => ⟨Heap.deleteStatements_ok (hs.2 ▸ hok), hs⟩)
      fun s e hs _ => ⟨hs.1.cut _, hs.2⟩) fun sts => Triple.of_starting fun s hs => ?_
  obtain ⟨rfl, hs⟩ := hs
  exact Triple.bind ((hw.perform_logged b.type.store b.type fun st hst =>
    RecordType.not_seeksRow_of_mem_deletes hst).starting hs) fun ns => Triple.pure fun _ h => h

theorem WritesBy.deletes_logged (hw : tx.WritesBy conn deferrable) (bs : List Batch) :
    Triple (fun run => tx.Logged conn world log counts run.session ∧ run.session.heap = h)
      (bs.mapM tx.deleteBatch)
      (fun _ run => tx.Logged conn world (log ++ (bs.flatMap h.deletesOf).map (none, ·)) counts
        run.session ∧ run.session.heap = h)
      fun _ run => tx.Cut conn world log counts (bs.flatMap h.deletesOf) run.session ∧
        run.session.heap = h := by
  induction bs generalizing log with
  | nil => exact Triple.pure fun s hs => by simpa using hs
  | cons b bs ih =>
    rw [List.mapM_cons, List.flatMap_cons]
    refine Triple.bind ((hw.deleteBatch_logged b).conseq (fun _ h => h) (fun _ _ h => h)
      fun _ _ h => ⟨h.1.extend (List.prefix_append ..), h.2⟩) fun n =>
      Triple.bind (ih.conseq (fun _ h => h) (fun _ _ h => h) fun _ _ h => ⟨h.1.append, h.2⟩)
        fun ns => Triple.pure ?_
    rintro run ⟨hlog, hheap⟩
    refine ⟨?_, hheap⟩
    rwa [List.append_assoc, ← List.map_append] at hlog

end Transaction

end UnitOfWork
