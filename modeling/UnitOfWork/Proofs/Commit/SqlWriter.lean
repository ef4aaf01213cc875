import UnitOfWork.Proofs.Commit.Phases
import UnitOfWork.Proofs.Commit.SqlInserts

/-!
# Writing by statements

An update runs one statement for each record and a delete one or more for none in particular; the
records themselves stay as they are. What every single statement keeps, the writing of a whole
workspace does.
-/

namespace UnitOfWork

namespace Connection

variable {σ ρ : Type} {c : Connection σ ρ} {t : RecordType} {r : RecordId} {s s' : Session σ}

/-- What is run for the update of one record. -/
inductive Updates (c : Connection σ ρ) (t : RecordType) (r : RecordId) (s : Session σ) :
    Session σ → Prop
  | update {st : Statement} : s.heap.updateStatement? t r = .ok (some st) →
    Updates c t r s (c.executed r st s)
  | probe {st : Statement} : s.heap.updateStatement? t r = .ok none →
    s.heap.probeStatement t r = .ok st → Updates c t r s (c.queried r st s)

theorem updateOne_spec (t : RecordType) (r : RecordId) (s : Session σ) :
    Triple (· = s) (c.updateOne t r) (fun _ s' => c.Updates t r s s')
      fun _ s' => s' = s ∨ c.Updates t r s s' := by
  rw [updateOne]
  refine Triple.bind (R := fun found s' => s' = s ∧ s.heap.updateStatement? t r = .ok found)
    (Triple.reading (fun s' found hs h => ⟨hs, hs ▸ h⟩) fun s' e hs _ => .inl hs) fun found =>
    Triple.assuming fun hfound => ?_
  cases found with
  | some st =>
    refine (c.perform_triple t r st s).conseq (fun _ h => h) (?_) ?_
    · intro _ s' h
      rw [h.2]
      exact .update hfound
    · intro _ s' h
      rw [h.2]
      exact .inr (.update hfound)
  | none =>
    refine Triple.bind (R := fun st s' => s' = s ∧ s.heap.probeStatement t r = .ok st)
      (Triple.reading (fun s' found hs h => ⟨hs, hs ▸ h⟩) fun s' e hs _ => .inl hs) fun st =>
      Triple.assuming fun hst => ?_
    refine Triple.bind ((c.fetch_triple t r st s).conseq (fun _ h => h) (fun _ _ h => h)
      ?_) fun row => Triple.pure ?_
    · intro _ s' h
      rw [h.2]
      exact .inr (.probe hfound hst)
    · intro s' h
      rw [h.2]
      exact .probe hfound hst

theorem Updates.heap (u : c.Updates t r s s') : s'.heap = s.heap := by
  cases u <;> rfl

theorem Updates.statement (u : c.Updates t r s s') :
    ∃ (e : Event) (st : Statement) (found : Option Statement),
      s.heap.updateStatement? t r = .ok found ∧ e.statement? = some (some r, st) ∧
        (∀ st', found = some st' → st' = st) ∧ s'.trace = s.trace ++ [e] := by
  cases u with
  | @update st hst =>
    exact ⟨.execute c.store (some r) st, st, some st, hst, rfl,
      fun _ h => (Option.some.inj h).symm, rfl⟩
  | @probe st hfound _ =>
    exact ⟨.query c.store (some r) st, st, none, hfound, rfl, fun _ h => absurd h (by simp), rfl⟩

theorem Updates.trace (u : c.Updates t r s s') :
    ∃ e : Event, e.inserted? = none ∧ s'.trace = s.trace ++ [e] := by
  cases u with
  | update hst =>
    refine ⟨_, ?_, rfl⟩
    rw [Heap.updateStatement?] at hst
    split at hst
    · cases hst
    · cases hk : s.heap.keyMatch t r with
      | error e => rw [hk] at hst; cases hst
      | ok key =>
        rw [hk] at hst
        obtain rfl := Option.some.inj (Except.ok.inj hst)
        rfl
  | probe _ hst =>
    refine ⟨_, ?_, rfl⟩
    rw [Heap.probeStatement] at hst
    cases hk : s.heap.keyMatch t r with
    | error e => rw [hk] at hst; cases hst
    | ok key =>
      rw [hk] at hst
      obtain rfl := Except.ok.inj hst
      rfl

end Connection

namespace Writer

variable {σ ρ : Type} {c : Connection σ ρ} {deferrable : Bool} {P : Session σ → Prop}

theorem sql_update_preserves (hP : ∀ t r s s', c.Updates t r s s' → P s → P s')
    (t : RecordType) (rs : List RecordId) : Preserves P ((sql c deferrable).update t rs) := by
  refine Preserves.mapM rs fun r => Triple.of_starting fun s hs => ?_
  apply (c.updateOne_spec t r s).conseq (fun _ h => h) (fun _ s' h => hP t r s s' h hs)
  intro _ s' h
  rcases h with rfl | h
  · exact hs
  · exact hP t r s s' h hs

theorem sql_delete_preserves (hP : ∀ st s, P s → P (c.executed none st s)) (t : RecordType)
    (rs : List RecordId) : Preserves P ((sql c deferrable).delete t rs) := by
  refine Triple.bind (R := fun _ => P) (Triple.reading (fun _ _ hs _ => hs) fun _ _ hs _ => hs)
    fun statements => Preserves.bind (Preserves.mapM statements fun st => ?_)
    fun _ => Preserves.pure _
  apply Triple.of_starting
  intro s hs
  refine (c.perform_triple t none st s).conseq (fun _ h => h) (?_) ?_
  · intro _ s' h
    rw [h.2]
    exact hP st s hs
  · intro _ s' h
    rw [h.2]
    exact hP st s hs

theorem sql_insert_preserves (hP : ∀ t r st s s', (s.heap.get r).isNew → c.Inserts t r st s s' →
    P s → P s') (t : RecordType) (rs : List RecordId) :
    Preserves P ((sql c deferrable).insert t rs) := by
  refine Triple.bind (R := fun plan s => s.heap.planInserts deferrable rs = .ok plan ∧ P s)
    (Triple.reading (fun s plan hs hp => ⟨hp, hs⟩) fun s e hs _ => hs)
    fun plan => Triple.of_starting fun s₀ hs₀ => ?_
  obtain ⟨hp, hs₀⟩ := hs₀
  -- What the plan has found to be new is so until it is written.
  have hwalk := Triple.forM_of_mem (E := fun _ => P) (f := c.insertOne t) (l := plan.inserts)
    (I := fun _ s => P s ∧ s₀.heap.Keeps s.heap) fun p hpm _ => Triple.of_starting fun s hs => by
      obtain ⟨hPs, hkeeps⟩ := hs
      have hisNew : (s.heap.get p.record).isNew := by
        rw [hkeeps.isNew]
        exact Record.isNew_of_state (Heap.planInserts_plans hp hpm).1.state
      refine (c.insertOne_spec t p s).conseq (fun _ h => h) ?_ ?_
      · rintro _ s' ⟨st, a, -⟩
        exact ⟨hP t _ st s s' hisNew a hPs, hkeeps.trans a.heap.keeps⟩
      · rintro _ s' (rfl | ⟨st, a⟩)
        · exact hPs
        · exact hP t _ st s s' hisNew a hPs
  exact Triple.bind (hwalk.starting ⟨hs₀, .refl _⟩) fun _ => Triple.pure fun _ h => h.1

end Writer

namespace Transaction

variable {σ ρ : Type} {tx : Transaction σ ρ} {conn : String → Connection σ ρ}
  {deferrable : String → Bool} {P : Session σ → Prop}

/-- What every step of the writing keeps, other than an insert. -/
structure LateInvariant (tx : Transaction σ ρ) (conn : String → Connection σ ρ)
    (P : Session σ → Prop) : Prop where
  steady : tx.Steady P
  update : ∀ store t r s s', (conn store).Updates t r s s' → P s → P s'
  delete : ∀ store st s, P s → P ((conn store).executed none st s)
  reset : ∀ s r, P s → P { s with heap := s.heap.modify r .resetChanges }

theorem LateInvariant.writeAll (hw : tx.WritesBy conn deferrable) (hP : tx.LateInvariant conn P)
    {Q : Run σ → Prop} {w : Workspace}
    (hinserts : Triple Q (tx.insertAll {} w.insertBatches) (fun _ run => P run.session)
      fun _ run => P run.session) :
    Triple Q (tx.writeAll w) (fun _ run => P run.session) fun _ run => P run.session := by
  have hupdate : ∀ (t : RecordType) rs, Preserves P ((tx.writer t.store).update t rs) := by
    intro t rs
    rw [hw.writer]
    exact Writer.sql_update_preserves (fun t r s s' => hP.update _ t r s s') t rs
  have hdelete : ∀ (t : RecordType) rs, Preserves P ((tx.writer t.store).delete t rs) := by
    intro t rs
    rw [hw.writer]
    exact Writer.sql_delete_preserves (fun st s => hP.delete _ st s) t rs
  exact writeAll_triple hP.steady hupdate hdelete hP.reset hinserts

/-- What every single statement keeps, the writing of a workspace does. -/
theorem LateInvariant.writeAll_preserves (hw : tx.WritesBy conn deferrable)
    (hP : tx.LateInvariant conn P) (hinsert : ∀ store t r st s s', (s.heap.get r).isNew →
      (conn store).Inserts t r st s s' → P s → P s') (w : Workspace) :
    Preserves (fun run => P run.session) (tx.writeAll w) := by
  refine hP.writeAll hw (insertAll_preserves hP.steady (fun t rs => ?_) {} w.insertBatches)
  rw [hw.writer]
  exact Writer.sql_insert_preserves (fun t r st s s' => hinsert _ t r st s s') t rs

/-- The transaction that writes over connections and never refuses anything by itself. -/
def sql (conn : String → Connection σ ρ) (deferrable : Bool) : Transaction σ ρ where
  acquire _ world := (.ok (), world)
  writer store := .sql (conn store) deferrable
  markErrored _ world := world
  release _ world := (.ok (), world)
  cancelReason _ := none

theorem sql_writesBy {deferrable : Bool} (hs : ∀ store, (conn store).store = store) :
    (sql conn deferrable).WritesBy conn fun _ => deferrable :=
  ⟨hs, fun _ => rfl⟩

end Transaction

end UnitOfWork
