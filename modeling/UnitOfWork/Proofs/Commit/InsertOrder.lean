import UnitOfWork.Proofs.Commit.History

/-!
# The order of inserts

A store that checks foreign keys at once wants the row of a record after the rows it refers to. A
commit sees to that by the mark of the records it has inserted, and a commit that fails leaves the
marks and the keys behind that it has given out: the next one takes such a record for written.
-/

namespace UnitOfWork

namespace Transaction

variable {σ ρ : Type}

/-- What an event does to the world. -/
def replayEvent (tx : Transaction σ ρ) (conn : String → Connection σ ρ) (world : σ) : Event → σ
  | .acquire store => (tx.acquire store world).2
  | .insert .. | .update .. | .delete .. => world
  | .query store _ st => ((conn store).query st.sql st.params world).2
  | .execute store _ st => ((conn store).execute st.sql st.params world).2
  | .errored store => tx.markErrored store world
  | .release store => (tx.release store world).2

/-- The world after some events. -/
def replay (tx : Transaction σ ρ) (conn : String → Connection σ ρ) (world : σ)
    (events : List Event) : σ :=
  events.foldl (tx.replayEvent conn) world

/-- In a commit that began in `world`, the store has answered the insert of `t` with the key `k`. -/
def GivesKey (tx : Transaction σ ρ) (conn : String → Connection σ ρ) (world : σ)
    (events : List Event) (t : RecordId) (type : RecordType) (k : Key) : Prop :=
  ∃ j store st row, events[j]? = some (.query store (some t) st) ∧
    ((conn store).query st.sql st.params (tx.replay conn world (events.take j))).1 =
      .ok (some row) ∧
    type.givenKey? st.returning row = some k

variable {tx : Transaction σ ρ} {conn : String → Connection σ ρ} {world : σ} {events : List Event}

theorem replay_snoc (e : Event) :
    tx.replay conn world (events ++ [e]) = tx.replayEvent conn (tx.replay conn world events) e :=
  List.foldl_concat ..

theorem Quiet.replay {s s' : Session σ} (q : tx.Quiet s s') (conn : String → Connection σ ρ) :
    ∃ e : Event, e.statement? = none ∧ s'.trace = s.trace ++ [e] ∧
      s'.world = tx.replayEvent conn s.world e := by
  cases q <;> exact ⟨_, rfl, rfl, rfl⟩

private theorem givenKey?_some {type : RecordType} {columns : List String} {row : Row} {k : Key}
    (h : type.givenKey? columns row = some k) :
    (∃ d, type.key = [d] ∧ d.isGenerated) ∧ columns ≠ [] := by
  refine ⟨?_, ?_⟩
  · rw [RecordType.givenKey?] at h
    split at h
    · next d hd =>
      split at h
      · next hc => exact ⟨d, hd, hc.1⟩
      · cases h
    · cases h
  · intro he
    subst he
    rw [RecordType.givenKey?_nil] at h
    cases h

private theorem GivesKey.mem_insertedIn {t : RecordId} {type : RecordType} {k : Key}
    (h : tx.GivesKey conn world events t type k) : t ∈ insertedIn events := by
  obtain ⟨j, store, st, row, hj, -, hk⟩ := h
  refine List.mem_filterMap.mpr ⟨_, List.mem_of_getElem? hj, ?_⟩
  cases st with
  | insert => rfl
  | _ => exact absurd rfl (givenKey?_some hk).2

private theorem givesKey_snoc {e : Event} {t : RecordId} {type : RecordType} {k : Key} :
    tx.GivesKey conn world (events ++ [e]) t type k ↔ tx.GivesKey conn world events t type k ∨
      ∃ store st row, e = .query store (some t) st ∧
        ((conn store).query st.sql st.params (tx.replay conn world events)).1 = .ok (some row) ∧
        type.givenKey? st.returning row = some k := by
  constructor
  · rintro ⟨j, store, st, row, hj, hrow, hk⟩
    by_cases hlt : j < events.length
    · rw [List.getElem?_append_left hlt] at hj
      rw [List.take_append_of_le_length (Nat.le_of_lt hlt)] at hrow
      exact .inl ⟨j, store, st, row, hj, hrow, hk⟩
    · have hlen : j = events.length := by
        have hj' := (List.getElem?_eq_some_iff.mp hj).1
        rw [List.length_append, List.length_singleton] at hj'
        omega
      subst hlen
      rw [List.getElem?_concat_length, Option.some.injEq] at hj
      rw [List.take_append_of_le_length (Nat.le_refl _), List.take_length] at hrow
      exact .inr ⟨store, st, row, hj, hrow, hk⟩
  · rintro (⟨j, store, st, row, hj, hrow, hk⟩ | ⟨store, st, row, rfl, hrow, hk⟩)
    · have hlt := (List.getElem?_eq_some_iff.mp hj).1
      refine ⟨j, store, st, row, by rw [List.getElem?_append_left hlt, hj], ?_, hk⟩
      rw [List.take_append_of_le_length (Nat.le_of_lt hlt), hrow]
    · refine ⟨events.length, store, st, row, List.getElem?_concat_length, ?_, hk⟩
      rw [List.take_append_of_le_length (Nat.le_refl _), List.take_length, hrow]

end Transaction

namespace Heap

private theorem not_pending_of_canInsert {h : Heap} {r t : RecordId} (hc : h.canInsert false r)
    (ht : t ∈ h.targets r) (hne : t ≠ r) (hn : (h.get t).isNew) : (h.get t).inserted := by
  simp only [canInsert, Bool.false_or, Bool.and_eq_true, Bool.not_eq_true', refersToPending,
    List.any_eq_false, isPending, Record.isPending, bne_iff_ne, not_and] at hc
  simpa [hn] using hc.2 t ht hne

end Heap

namespace Transaction

variable {σ ρ : Type} {tx : Transaction σ ρ} {conn : String → Connection σ ρ} {world : σ} {h : Heap}
  {events : List Event}

/-- What the insert of `r` that comes after the events `before` has waited for, and what it binds;
the commit has begun with the records `h`. -/
structure Follows (tx : Transaction σ ρ) (conn : String → Connection σ ρ) (world : σ) (h : Heap)
    (before : List Event) (e : Event) (r : RecordId) : Prop where
  waited : ∀ t ∈ h.targets r, t ≠ r → (h.get t).isNew →
    t ∈ insertedIn before ∨ (h.get t).inserted
  binds : ∃ (records : Heap) (type : RecordType) (st : Statement),
    e.statement? = some (some r, st) ∧ records.insertStatement type r = .ok st ∧
      (records.get r).references = (h.get r).references ∧
      ∀ t, (h.get t).type.IsGenerated →
        (∀ k, tx.GivesKey conn world before t (h.get t).type k → records.foreignKey t = k.toValue) ∧
        (t ∉ insertedIn before → records.foreignKey t = h.foreignKey t)

/-- Every insert follows those it has waited for. -/
def Ordered (tx : Transaction σ ρ) (conn : String → Connection σ ρ) (world : σ) (h : Heap)
    (events : List Event) : Prop :=
  ∀ i e r, events[i]? = some e → e.inserted? = some r →
    tx.Follows conn world h (events.take i) e r

theorem Ordered.snoc {e : Event} (ho : tx.Ordered conn world h events)
    (he : ∀ r, e.inserted? = some r → tx.Follows conn world h events e r) :
    tx.Ordered conn world h (events ++ [e]) := by
  intro i e' r hi hr
  by_cases hlt : i < events.length
  · rw [List.getElem?_append_left hlt] at hi
    rw [List.take_append_of_le_length (Nat.le_of_lt hlt)]
    exact ho i e' r hi hr
  · have hlen : i = events.length := by
      have hi' := (List.getElem?_eq_some_iff.mp hi).1
      rw [List.length_append, List.length_singleton] at hi'
      omega
    subst hlen
    rw [List.getElem?_concat_length, Option.some.injEq] at hi
    subst hi
    rw [List.take_append_of_le_length (Nat.le_refl _), List.take_length]
    exact he r hr

private theorem Ordered.snoc_other {e : Event} (ho : tx.Ordered conn world h events)
    (he : e.inserted? = none) : tx.Ordered conn world h (events ++ [e]) :=
  ho.snoc fun r hr => by simp [he] at hr

private theorem Ordered.append_others {others : List Event} (ho : tx.Ordered conn world h events)
    (he : ∀ e ∈ others, e.inserted? = none) : tx.Ordered conn world h (events ++ others) := by
  induction others generalizing events with
  | nil => rwa [List.append_nil]
  | cons e others ih =>
    rw [List.append_cons]
    apply ih (ho.snoc_other (he e List.mem_cons_self))
    intro e' hm
    exact he e' (List.mem_cons_of_mem _ hm)

/-- What holds while the records of a commit that began with `h` are inserted. -/
structure Inserting (tx : Transaction σ ρ) (conn : String → Connection σ ρ) (world : σ) (h : Heap)
    (s : Session σ) : Prop where
  progress : Session.Progress { heap := h, world := world } s
  replayed : s.world = tx.replay conn world s.trace
  marks : ∀ q, (s.heap.get q).inserted → (h.get q).inserted ∨ q ∈ insertedIn s.trace
  given : ∀ t k, tx.GivesKey conn world s.trace t (h.get t).type k →
    (s.heap.get t).slots = [some k]
  ordered : tx.Ordered conn world h s.trace

theorem Inserting.start : tx.Inserting conn world h { heap := h, world := world } where
  progress := .refl _
  replayed := rfl
  marks _ hq := .inl hq
  given t k hk := absurd hk.mem_insertedIn List.not_mem_nil
  ordered i e r hi := by simp at hi

private theorem Inserting.quiet {s s' : Session σ} (hs : tx.Inserting conn world h s)
    (q : tx.Quiet s s') : tx.Inserting conn world h s' := by
  obtain ⟨e, he, ht, hw⟩ := q.replay conn
  have hnone := Event.inserted?_of_statement? he
  have hsame : insertedIn s'.trace = insertedIn s.trace := by rw [ht, insertedIn_snoc_other hnone]
  refine ⟨hs.progress.trans ⟨⟨[e], ht⟩, q.heap ▸ .refl _, fun _ _ => by rw [q.heap]⟩,
    ?_, ?_, ?_, ?_⟩
  · rw [hw, ht, replay_snoc, hs.replayed]
  · rw [q.heap, hsame]
    exact hs.marks
  · intro t k hk
    rw [ht, givesKey_snoc] at hk
    rw [q.heap]
    rcases hk with hk | ⟨store, st, row, rfl, -, -⟩
    · exact hs.given t k hk
    · cases he
  · rw [ht]
    exact hs.ordered.snoc_other hnone

section

variable {t : RecordType} {p : PlannedInsert} {st : Statement} {s₀ s s' : Session σ}

/-- What a record waited for when its insert was planned has been inserted by the time of it. -/
theorem Inserting.follows (hp : s₀.heap.Plans false p) (hs₀ : tx.Inserting conn world h s₀)
    (hs : tx.Inserting conn world h s) (hprog : s₀.Progress s)
    (a : (conn t.store).Inserts t p.record st s s') :
    tx.Follows conn world h s.trace ((conn t.store).insertEvent p.record st) p.record := by
  have hkeeps := hs.progress.heap
  constructor
  · intro q hq hne hn
    rw [← hs₀.progress.heap.targets] at hq
    rw [← hs₀.progress.heap.isNew] at hn
    rcases hs₀.marks q (Heap.not_pending_of_canInsert hp.canInsert hq hne hn) with hm | hm
    · exact .inr hm
    · exact .inl (hprog.mem_insertedIn hm)
  · refine ⟨s.heap, t, st, (conn t.store).statement?_insertEvent p.record st, a.statement,
      hkeeps.references p.record, fun q hg => ⟨?_, ?_⟩⟩
    · intro k hk
      exact Heap.foreignKey_generated (by rwa [hkeeps.type]) (hs.given q k hk)
    · intro hq
      have hsame := hs.progress.same q (.inr hq)
      exact Heap.foreignKey_congr hg (hkeeps.type q) (by rw [hsame])

private theorem Inserting.ordered_insert (hp : s₀.heap.Plans false p)
    (hs₀ : tx.Inserting conn world h s₀) (hs : tx.Inserting conn world h s) (hprog : s₀.Progress s)
    (a : (conn t.store).Inserts t p.record st s s') : tx.Ordered conn world h s'.trace := by
  rw [a.trace]
  apply hs.ordered.snoc
  intro r hr
  obtain rfl : p.record = r := by
    have hr' := a.insertedIn
    rw [a.trace, insertedIn_append] at hr'
    have hlast := List.append_cancel_left hr'
    simpa [insertedIn, hr, eq_comm] using hlast
  exact hs₀.follows hp hs hprog a

private theorem Inserting.insert (hw : tx.WritesBy conn fun _ => false) (hp : s₀.heap.Plans false p)
    (hfresh : p.record ∉ insertedIn s.trace) (hs₀ : tx.Inserting conn world h s₀)
    (hs : tx.Inserting conn world h s) (hprog : s₀.Progress s)
    (a : (conn t.store).Inserts t p.record st s s') :
    tx.Ordered conn world h s'.trace ∧
      ((conn t.store).Gives p.record st s s' → tx.Inserting conn world h s') := by
  have hevent := (conn t.store).statement?_insertEvent p.record st
  have hordered := hs₀.ordered_insert hp hs hprog a
  refine ⟨hordered, fun hgives => ⟨hs.progress.trans (a.progress hfresh), ?_, ?_, ?_, hordered⟩⟩
  · rw [a.world, a.trace, replay_snoc, ← hs.replayed, Connection.insertEvent, hw.store]
    split <;> rfl
  · intro q hq
    rw [a.insertedIn, List.mem_append, List.mem_singleton]
    by_cases hqr : q = p.record
    · exact .inr (.inr hqr)
    · rw [a.heap.others q hqr] at hq
      exact (hs.marks q hq).imp_right .inl
  · intro q k hk
    rw [a.trace, givesKey_snoc] at hk
    rcases hk with hk | ⟨store, st', row, he, hrow, hk⟩
    · have hqr : q ≠ p.record := fun he => hfresh (he ▸ hk.mem_insertedIn)
      rw [a.heap.others q hqr]
      exact hs.given q k hk
    · rw [he] at hevent
      obtain ⟨rfl, rfl⟩ : q = p.record ∧ st' = st := by simpa [Event.statement?] using hevent
      rw [Connection.insertEvent, hw.store] at he
      split at he
      · cases he
      · obtain ⟨rfl, -⟩ : t.store = store ∧ _ := Event.query.inj he
        apply hgives.slots row k (by rw [hs.replayed]; exact hrow)
        rw [hs.progress.heap.type]
        exact hk

end

private theorem inserting_invariant (hw : tx.WritesBy conn fun _ => false) (world : σ) (h : Heap) :
    tx.RecordInvariant conn (fun _ => false) (fun _ _ => True)
      (fun _ s => tx.Inserting conn world h s) fun s => tx.Ordered conn world h s.trace where
  steady _ _ _ q hs := hs.quiet q
  mono _ _ _ _ hs := hs
  stop _ _ hs := hs.ordered
  insert _ _ _ _ _ _ _ _ hp _ hfresh hs₀ hs hprog a :=
    Inserting.insert hw hp hfresh hs₀ hs hprog a

private theorem ordered_late : tx.LateInvariant conn fun s => tx.Ordered conn world h s.trace where
  steady s s' q hs := by
    obtain ⟨e, he, ht⟩ := q.trace
    rw [ht]
    exact hs.snoc_other (Event.inserted?_of_statement? he)
  update store t r s s' u hs := by
    obtain ⟨e, he, ht⟩ := u.trace
    rw [ht]
    exact hs.snoc_other he
  delete store st s hs := hs.snoc_other rfl
  reset s r hs := hs

/-- The writing of a sound workspace inserts in order, whatever becomes of it. -/
theorem WritesBy.ordered (hw : tx.WritesBy conn fun _ => false) (world : σ) {w : Workspace}
    (hsound : w.Sound h) :
    tx.Ordered conn world h
      (endState (tx.writeAll w { session := { heap := h, world } })).session.trace := by
  have hinserts := ((inserting_invariant hw world h).insertInvariant hw).insertAll
    {} w.insertBatches []
  have hwrite := ordered_late.writeAll hw (hinserts.conseq (fun _ h => h)
    (fun _ _ hs => hs.1.ordered) fun _ _ hs => hs)
  have hfresh : Fresh (fun _ _ => True) (entriesOf w.insertBatches)
      ({ heap := h, world } : Session σ) := by
    refine ⟨?_, fun e _ => ⟨trivial, List.not_mem_nil⟩⟩
    rw [entriesOf_snd]
    exact hsound.nodup_newRecords
  have hend := hwrite { session := { heap := h, world } } ⟨.start, hfresh⟩
  cases hres : tx.writeAll w { session := { heap := h, world } } <;> rwa [hres] at hend

/-- The transaction writes to every store by statements. -/
def IsSql (tx : Transaction σ ρ) : Prop := ∃ conn deferrable, tx.WritesBy conn deferrable

theorem IsSql.orderly (hw : tx.IsSql) : tx.Orderly := by
  obtain ⟨conn, deferrable, hw⟩ := hw
  exact hw.orderly

/-- The records have kept what writing leaves alone since they were `h`, and those with a new mark
have been inserted. -/
structure Marks (h : Heap) (s : Session σ) : Prop where
  references : ∀ q, (s.heap.get q).references = (h.get q).references
  inserted : ∀ q, (s.heap.get q).inserted → (h.get q).inserted ∨ q ∈ insertedIn s.trace

private theorem marks_late : tx.LateInvariant conn fun s => h.Evolves s.heap ∧ Marks h s where
  steady s s' q hs := by
    obtain ⟨e, he, ht⟩ := q.trace
    rw [q.heap]
    refine ⟨hs.1, by rw [q.heap]; exact hs.2.references, ?_⟩
    rw [q.heap, ht, insertedIn_snoc_other (Event.inserted?_of_statement? he)]
    exact hs.2.inserted
  update store t r s s' u hs := by
    obtain ⟨e, he, ht⟩ := u.trace
    rw [u.heap]
    refine ⟨hs.1, by rw [u.heap]; exact hs.2.references, ?_⟩
    rw [u.heap, ht, insertedIn_snoc_other he]
    exact hs.2.inserted
  delete store st s hs := by
    refine ⟨hs.1, hs.2.references, ?_⟩
    change ∀ q, (s.heap.get q).inserted → _ ∨ q ∈ insertedIn (s.trace ++ [_])
    rw [insertedIn_snoc_other rfl]
    exact hs.2.inserted
  reset s r hs := by
    have hk := Heap.Keeps.modify_resetChanges s.heap r
    refine ⟨hs.1.trans hk.evolves, fun q => (hk.references q).trans (hs.2.references q), ?_⟩
    intro q hq
    apply hs.2.inserted q
    change ((s.heap.modify r .resetChanges).get q).inserted at hq
    rw [Heap.get_modify] at hq
    split at hq <;> exact hq

private theorem IsSql.marks_flush (hw : tx.IsSql) {w : Workspace} (hsound : w.Sound h) (world : σ) :
    Marks h (w.flush tx { session := { heap := h, world } }).2.2.session := by
  obtain ⟨conn, deferrable, hw⟩ := hw
  have hwrite := (marks_late (h := h)).writeAll_preserves hw (fun store t r st s s' _ a hs => ?_) w
    { session := { heap := h, world } } ⟨.refl h, fun _ => rfl, fun _ hq => .inl hq⟩
  · rw [Workspace.flush]
    cases hres : tx.writeAll w { session := { heap := h, world } } with
    | error halt run =>
      rw [hres] at hwrite
      exact hwrite.2
    | ok summary run =>
      rw [hres] at hwrite
      have hsettle := Workspace.settle_sound (hsound.evolves hwrite.1) _ rfl
      have hmarks : ∀ heap, run.session.heap.Settles heap →
          Marks h { run.session with heap } := by
        intro heap hs
        exact ⟨fun q => (hs.references q).trans (hwrite.2.references q),
          fun q hq => hwrite.2.inserted q (hs.inserted q hq)⟩
      dsimp only
      cases hset : Workspace.settle (w, run.session.heap) with
      | ok u s =>
        rw [hset] at hsettle
        exact hmarks s.2 hsettle.1.2
      | error e s =>
        rw [hset] at hsettle
        exact hmarks s.2 hsettle.2
  · refine ⟨hs.1.trans a.heap.keeps.evolves,
      fun q => (a.heap.keeps.references q).trans (hs.2.references q), fun q hq => ?_⟩
    rw [a.insertedIn, List.mem_append, List.mem_singleton]
    by_cases hqr : q = r
    · exact .inr (.inr hqr)
    · rw [a.heap.others q hqr] at hq
      exact (hs.2.inserted q hq).imp_right .inl

private theorem IsSql.marks_commit (hw : tx.IsSql) {w : Workspace} (hsound : w.Sound h) (world : σ)
    {q : RecordId} (hq : (((w.commit tx { heap := h, world }).2.2.heap).get q).inserted) :
    (h.get q).inserted ∨ q ∈ insertedIn (w.commit tx { heap := h, world }).2.2.trace := by
  cases hr : w.ready? h with
  | none =>
    obtain ⟨result, w', h', hcommit, -, hfolds⟩ :=
      Workspace.commit_notReady (s := { heap := h, world }) tx hsound hr
    rw [hcommit] at hq
    exact .inl (by rwa [hfolds.inserted] at hq)
  | some s =>
    obtain ⟨hsound₁, hfolds⟩ := Workspace.ready?_sound hsound hr
    have hreleases := (Workspace.commit_ready (s := { heap := h, world }) tx hr).2
    rw [hreleases.heap] at hq
    rw [hreleases.insertedIn, ← hfolds.inserted]
    exact (hw.marks_flush hsound₁ world).inserted q hq

end Transaction

/-- The mark of a record comes from a commit that has inserted it. -/
theorem Life.marked {σ ρ : Type} {past : List (List Event)} {w : Workspace} {h : Heap}
    (life : Life (σ := σ) (ρ := ρ) Transaction.IsSql past w h) {q : RecordId}
    (hq : (h.get q).inserted) :
    ∃ events ∈ past, q ∈ insertedIn events := by
  have hfolds : ∀ {α : Type} {w : Workspace} {h : Heap} {x : Tracking Workspace α},
      Preserves (Workspace.SoundSince h) x → w.Sound h →
        ((endState (x (w, h))).2.get q).inserted = (h.get q).inserted := fun hx hw =>
    (preserves_iff.mp hx _ ⟨hw, .refl _⟩).2.inserted q
  induction life with
  | begin config => exact Bool.noConfusion hq
  | edit _ e ih => exact ih (e.inserted q hq)
  | track life hr ih =>
    exact ih (by rwa [hfolds (Workspace.track_sound hr) (life.sound fun _ => (·.orderly))] at hq)
  | delete life hr ih =>
    exact ih (by rwa [hfolds (Workspace.delete_sound hr) (life.sound fun _ => (·.orderly))] at hq)
  | importGraph life hr ih =>
    exact ih (by
      rwa [hfolds (Workspace.importGraph_sound hr) (life.sound fun _ => (·.orderly))] at hq)
  | check life ih =>
    exact ih (by rwa [hfolds Workspace.checkReady_sound (life.sound fun _ => (·.orderly))] at hq)
  | commit world life htx ih =>
    rcases htx.marks_commit (life.sound fun _ => (·.orderly)) world hq with hm | hm
    · obtain ⟨events, hmem, hin⟩ := ih hm
      exact ⟨events, List.mem_append_left _ hmem, hin⟩
    · exact ⟨_, List.mem_append_right _ (List.mem_singleton_self _), hm⟩

section

variable {σ ρ : Type} {past : List (List Event)} {w : Workspace} {h : Heap} {tx : Transaction σ ρ}
  {conn : String → Connection σ ρ}

private theorem generatedCount_ne_zero {t : RecordType} (ht : t.IsGenerated) :
    t.generatedCount ≠ 0 := by
  obtain ⟨d, hd, hg⟩ := ht
  simp [RecordType.generatedCount, hd, hg]

private theorem ordered_commit (hw : tx.WritesBy conn fun _ => false) (world : σ)
    {w₁ : Workspace} {h₁ : Heap} (hr : w.ready? h = some (w₁, h₁)) (hsound : w₁.Sound h₁) :
    tx.Ordered conn world h₁ (w.commit tx { heap := h, world }).2.2.trace := by
  have hordered := hw.ordered world hsound
  obtain ⟨heap, hflush⟩ := Workspace.flush_session tx w₁ { session := { heap := h₁, world } }
  obtain ⟨events, ht, he⟩ := (Workspace.commit_ready (s := { heap := h, world }) tx hr).2.trace
  rw [ht, hflush]
  apply hordered.append_others
  intro e hm
  exact Event.inserted?_of_statement? (he e hm)

/-- In every commit of a life over stores that check foreign keys at once, an insert comes after
those of all records that its record refers to and that were new when the commit began, and it
binds the keys that they were given in this commit. The exception is a record that still has the
mark of an earlier commit which inserted it: its insert need not come first, and until then it
counts with the key it was left with. -/
theorem insert_after_targets (life : Life (σ := σ) (ρ := ρ) Transaction.IsSql past w h)
    (hw : tx.WritesBy conn fun _ => false) (world : σ) {i : Nat} {e : Event} {r : RecordId}
    (he : (w.commit tx { heap := h, world }).2.2.trace[i]? = some e) (hr : e.inserted? = some r) :
    let s := (w.commit tx { heap := h, world }).2.2
    let before := s.trace.take i
    ∃ (records : Heap) (type : RecordType) (st : Statement),
      e.statement? = some (some r, st) ∧ records.insertStatement type r = .ok st ∧
        (records.get r).references = (s.heap.get r).references ∧
        ∀ t ∈ s.heap.targets r, t ≠ r → (h.get t).isNew →
          (t ∈ insertedIn before ∨
            (h.get t).inserted ∧ ∃ events ∈ past, t ∈ insertedIn events) ∧
          ((h.get t).type.IsGenerated →
            (∀ k, tx.GivesKey conn world before t (h.get t).type k →
              records.foreignKey t = k.toValue) ∧
            (t ∉ insertedIn before → records.foreignKey t = h.foreignKey t)) := by
  have hsound := life.sound fun _ => (·.orderly)
  cases hready : w.ready? h with
  | none =>
    obtain ⟨result, w', h', hcommit, -, -⟩ :=
      Workspace.commit_notReady (s := { heap := h, world }) tx hsound hready
    rw [hcommit] at he
    cases he
  | some s =>
    obtain ⟨hsound₁, hfolds⟩ := Workspace.ready?_sound hsound hready
    have hreleases := (Workspace.commit_ready (s := { heap := h, world }) tx hready).2
    have hmarks := Transaction.IsSql.marks_flush ⟨conn, _, hw⟩ hsound₁ world
    have hrefs : ∀ q, ((w.commit tx { heap := h, world }).2.2.heap.get q).references =
        (s.2.get q).references := fun q => by rw [hreleases.heap, hmarks.references]
    obtain ⟨hwaited, records, type, st, hst, hins, hrec, hbinds⟩ :=
      ordered_commit hw world hready hsound₁ i e r he hr
    refine ⟨records, type, st, hst, hins, hrec.trans (hrefs r).symm, fun t ht hne hn => ?_⟩
    rw [Heap.targets, hrefs] at ht
    constructor
    · rcases hwaited t ht hne (by rwa [hfolds.isNew]) with hm | hm
      · exact .inl hm
      · rw [hfolds.inserted] at hm
        exact .inr ⟨hm, life.marked hm⟩
    · intro hg
      have hbind := hbinds t (by rwa [hfolds.type])
      rw [hfolds.type] at hbind
      refine ⟨hbind.1, fun hnot => (hbind.2 hnot).trans ?_⟩
      have hslots := (hfolds.slots t hn).resolve_right (generatedCount_ne_zero hg)
      exact Heap.foreignKey_congr hg (hfolds.type t) hslots

end

/-! A commit that fails after its first insert, and the next one. -/

/-- A type whose records refer to a parent of the same type. -/
def nodeType : RecordType where
  name := "node"
  table := "node"
  store := "main"
  key := [.bigInt "id" .generated]
  columns := []
  references := [{ name := "parent", column := "parent_id", target := "node" }]
  key_ne_nil := by simp
  sources_declared := by simp [KeyColumn.undeclared?, KeyColumn.bigInt]

/-- Each statement gives its number back as the key, and the second one fails. -/
def failingOnce (store : String) : Connection Nat where
  store
  query _ _ n :=
    (if n = 2 then .error (.failed (.custom "constraint"))
      else .ok (some { columns := ["id"], values := [.bigInt n.toInt64] }), n + 1)
  execute _ _ n := (.ok 1, n + 1)

/-- A child, which comes first, and its parent. -/
def family : Heap :=
  ((∅ : Heap).set ⟨0⟩
    { Record.create nodeType with references := (∅ : NameMap RecordId).insert "parent" ⟨1⟩ }).set
    ⟨1⟩ (Record.create nodeType)

def tracked : Workspace × Heap :=
  endState (Workspace.track ⟨1⟩ (endState (Workspace.track ⟨0⟩ ({}, family))))

def failedCommit : Except Halt Summary × Workspace × Session Nat :=
  tracked.1.commit (.sql failingOnce false) { heap := tracked.2, world := 1 }

def retriedCommit : Except Halt Summary × Workspace × Session Nat :=
  failedCommit.2.1.commit (.sql failingOnce false)
    { heap := failedCommit.2.2.heap, world := failedCommit.2.2.world }

private theorem failingOnce_writesBy :
    (Transaction.sql failingOnce false).WritesBy failingOnce fun _ => false :=
  Transaction.sql_writesBy fun _ => rfl

theorem tracked_life :
    Life (σ := Nat) (ρ := CancelReason) Transaction.IsSql [] tracked.1 tracked.2 := by
  have hedits : (∅ : Heap).Edits family := .of_fresh (by decide +kernel)
  exact .track (r := ⟨1⟩) (.track (r := ⟨0⟩) (.edit (.begin {}) hedits) (by decide +kernel))
    (by decide +kernel)

private theorem failedCommit_life :
    Life (σ := Nat) (ρ := CancelReason) Transaction.IsSql [failedCommit.2.2.trace]
      failedCommit.2.1 failedCommit.2.2.heap :=
  .commit 1 tracked_life ⟨failingOnce, _, failingOnce_writesBy⟩

/-- The retry inserts the child before its parent, which an earlier commit has inserted. -/
theorem insert_after_targets_retried :
    ⟨1⟩ ∈ insertedIn (retriedCommit.2.2.trace.take 2) ∨
      (failedCommit.2.2.heap.get ⟨1⟩).inserted ∧
        ∃ events ∈ [failedCommit.2.2.trace], ⟨1⟩ ∈ insertedIn events := by
  obtain ⟨records, type, st, -, -, -, htargets⟩ := insert_after_targets failedCommit_life
    failingOnce_writesBy failedCommit.2.2.world (i := 2) (r := ⟨0⟩)
    (e := .query "main" (some ⟨0⟩) (.insert "node" [("parent_id", .bigInt 1)] ["id"]))
    (by decide +kernel) rfl
  exact (htargets ⟨1⟩ (by decide +kernel) (by decide) (by decide +kernel)).1

/-- Some commit of some life inserts a record before one that it refers to and that was new. -/
theorem not_insert_after_targets :
    ¬ ∀ (past : List (List Event)) (w : Workspace) (h : Heap) (tx : Transaction Nat)
        (conn : String → Connection Nat) (world : Nat),
      Life (σ := Nat) (ρ := CancelReason) Transaction.IsSql past w h →
        tx.WritesBy conn (fun _ => false) →
        ∀ (i : Nat) (e : Event) (r : RecordId),
          (w.commit tx { heap := h, world }).2.2.trace[i]? = some e → e.inserted? = some r →
            ∀ t ∈ (w.commit tx { heap := h, world }).2.2.heap.targets r, t ≠ r → (h.get t).isNew →
              t ∈ insertedIn ((w.commit tx { heap := h, world }).2.2.trace.take i) := by
  intro hall
  have hfirst := hall _ _ _ _ _ failedCommit.2.2.world failedCommit_life failingOnce_writesBy 2
    (.query "main" (some ⟨0⟩) (.insert "node" [("parent_id", .bigInt 1)] ["id"])) ⟨0⟩
    (by decide +kernel) rfl ⟨1⟩ (by decide +kernel) (by decide) (by decide +kernel)
  revert hfirst
  decide +kernel

end UnitOfWork
