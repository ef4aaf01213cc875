import UnitOfWork.Proofs.Commit.InsertRounds
import UnitOfWork.Proofs.Tracking.SoundWorkspace

/-!
# The phases of a commit

What every phase keeps, a commit keeps; after the writing it only gives leases back, which touches
no record and runs no statement.
-/

namespace UnitOfWork

theorem exists_ok_of_isOk {ε α : Type} {x : Except ε α} (hx : x.isOk) : ∃ a, x = .ok a := by
  cases x with
  | ok a => exact ⟨a, rfl⟩
  | error e => cases hx

namespace Transaction

variable {σ ρ : Type} {tx : Transaction σ ρ} {P : Session σ → Prop}

/-- What has been updated is as saved from now on. The first record without a row stops this. -/
theorem confirm_spec {E : Halt ρ → Session σ → Prop}
    (hreset : ∀ s r, P s → P { s with heap := s.heap.modify r .resetChanges })
    (hmissing : ∀ s type record, P s → E (.failed (.missingObject type record none)) s)
    (t : RecordType) (rs : List RecordId) (counts : List Nat) :
    Triple P (confirm t rs counts) (fun _ => P) E := by
  induction rs generalizing counts with
  | nil => exact Triple.pure fun _ hs => hs
  | cons r rs ih =>
    rw [confirm]
    have hrest : Triple P (do
        Working.updating (·.modify r .resetChanges)
        confirm t rs counts.tail) (fun _ => P) E :=
      Triple.bind (Triple.updating fun s hs => hreset s r hs) fun _ => ih counts.tail
    split
    · apply Triple.bind (R := fun _ => P) (Triple.reading (fun _ _ hs _ => hs) nofun)
      intro description
      apply Triple.bind (R := fun _ => P) (Triple.fail fun s hs => hmissing s _ _ hs)
      exact fun _ => hrest
    · exact hrest

theorem confirm_preserves (hreset : ∀ s r, P s → P { s with heap := s.heap.modify r .resetChanges })
    (t : RecordType) (rs : List RecordId) (counts : List Nat) :
    Preserves P (confirm t rs counts : Working σ ρ Unit) :=
  confirm_spec hreset (fun _ _ _ hs => hs) t rs counts

theorem updateBatch_eq (b : Batch) : tx.updateBatch b =
    tx.writing b (.update b.type.name b.records) (·.update b.type b.records) >>= fun counts =>
      Leasing.during do
        confirm b.type b.records counts
        return b.records.length := by
  rw [updateBatch, writing, writing]
  simp only [bind_assoc, Leasing.during_bind]

/-- A property of actions that what is put together from actions has if its parts do, and that the
writing of every batch has. -/
structure Composes (tx : Transaction σ ρ) (K : ∀ {α : Type}, Leasing σ ρ α → Prop) : Prop where
  pure : ∀ {α : Type} (a : α), K (Pure.pure a)
  bind : ∀ {α β : Type} {x : Leasing σ ρ β} {f : β → Leasing σ ρ α}, K x → (∀ b, K (f b)) →
    K (x >>= f)
  heap : K Leasing.heap
  unresolved : ∀ {α : Type} (round : Nat) (records : List String),
    K (throw (.failed (.unresolvedDependencies round records)) : Leasing σ ρ α)
  insert : ∀ b : Batch,
    K (tx.writing b (.insert b.type.name b.records) (·.insert b.type b.records))
  update : ∀ b, K (tx.updateBatch b)
  delete : ∀ b, K (tx.deleteBatch b)

namespace Composes

variable {K : ∀ {α : Type}, Leasing σ ρ α → Prop}

private theorem mapM (hK : tx.Composes K) {α β : Type} {f : β → Leasing σ ρ α} (hf : ∀ b, K (f b))
    (l : List β) : K (l.mapM f) := by
  induction l with
  | nil => exact hK.pure []
  | cons b l ih =>
    rw [List.mapM_cons]
    exact hK.bind (hf b) fun a => hK.bind ih fun as => hK.pure (a :: as)

private theorem insertRound (hK : tx.Composes K) (bs : List Batch) : K (tx.insertRound bs) := by
  induction bs with
  | nil => exact hK.pure _
  | cons b bs ih =>
    rw [Transaction.insertRound]
    exact hK.bind (hK.insert b) fun results => hK.bind ih fun rest => hK.pure _

private theorem insertAll (hK : tx.Composes K) (summary : Summary) (pending : List Batch) :
    K (tx.insertAll summary pending) := by
  induction hn : recordCount pending using Nat.strongRecOn generalizing summary pending with
  | _ n ih =>
    subst hn
    rw [Transaction.insertAll]
    split
    · exact hK.pure _
    · apply hK.bind (hK.insertRound pending)
      intro results
      split
      · next hlt => exact hK.bind (ih _ hlt _ _ rfl) fun rest => hK.pure _
      · exact hK.bind hK.heap fun h => hK.unresolved _ _

theorem writeAll (hK : tx.Composes K) (w : Workspace) : K (tx.writeAll w) := by
  rw [Transaction.writeAll]
  apply hK.bind (hK.insertAll {} w.insertBatches)
  intro result
  apply hK.bind (hK.mapM hK.update result.2)
  intro fixed
  apply hK.bind hK.heap
  intro h
  apply hK.bind (hK.mapM hK.update (w.updateBatches h))
  intro updated
  exact hK.bind (hK.mapM hK.delete w.deleteBatches) fun deleted => hK.pure _

end Composes

private theorem updateBatch_preserves (hP : tx.Steady P)
    (hupdate : ∀ (t : RecordType) rs, Preserves P ((tx.writer t.store).update t rs))
    (hreset : ∀ s r, P s → P { s with heap := s.heap.modify r .resetChanges }) (b : Batch) :
    Preserves (fun run => P run.session) (tx.updateBatch b) :=
  writing_triple hP (fun _ => .update _ _) (fun _ _ _ h => h) <|
    (hupdate b.type b.records).bind fun counts =>
      (confirm_preserves hreset b.type b.records counts).bind fun _ => Preserves.pure _

theorem deleteBatch_preserves (hP : tx.Steady P)
    (hdelete : ∀ (t : RecordType) rs, Preserves P ((tx.writer t.store).delete t rs)) (b : Batch) :
    Preserves (fun run => P run.session) (tx.deleteBatch b) :=
  writing_triple hP (fun _ => .delete _ _) (fun _ _ _ h => h) (hdelete b.type b.records)

theorem insertAll_preserves (hP : tx.Steady P)
    (hinsert : ∀ (t : RecordType) rs, Preserves P ((tx.writer t.store).insert t rs))
    (summary : Summary) (pending : List Batch) :
    Preserves (fun run => P run.session) (tx.insertAll summary pending) :=
  InsertInvariant.insertAll (I := fun _ _ => P) (E := fun _ => P)
    ⟨fun _ _ => hP, fun _ _ _ _ _ h => h, fun t rs _ _ => hinsert t rs, fun _ _ _ _ h => h⟩
    summary pending []

/-- The inserts and the deletes may be dealt with apart from the other phases. -/
theorem writeAll_deletes {P' : Session σ → Prop} {Q : Run σ → Prop} (hP : tx.Steady P)
    (hupdate : ∀ (t : RecordType) rs, Preserves P ((tx.writer t.store).update t rs))
    (hreset : ∀ s r, P s → P { s with heap := s.heap.modify r .resetChanges }) {w : Workspace}
    (hinserts : Triple Q (tx.insertAll {} w.insertBatches) (fun _ run => P run.session)
      fun _ run => P run.session)
    (hdeletes : Triple (fun run => P run.session) (w.deleteBatches.mapM tx.deleteBatch)
      (fun _ run => P' run.session) fun _ run => P' run.session)
    (hstop : ∀ s, P s → P' s) :
    Triple Q (tx.writeAll w) (fun _ run => P' run.session) fun _ run => P' run.session := by
  have hupdates : ∀ bs : List Batch, Triple (fun run => P run.session) (bs.mapM tx.updateBatch)
      (fun _ run => P run.session) fun _ run => P' run.session := fun bs =>
    (Preserves.mapM _ fun b => updateBatch_preserves hP hupdate hreset b).conseq
      (fun _ h => h) (fun _ _ h => h) fun _ _ h => hstop _ h
  rw [writeAll]
  apply (hinserts.conseq (fun _ h => h) (fun _ _ h => h) fun _ _ h => hstop _ h).bind
  intro result
  apply (hupdates _).bind
  intro fixed
  apply Triple.bind (x := Leasing.heap) (R := fun _ run => P run.session) (fun run hrun => hrun)
  intro h
  apply (hupdates _).bind
  intro _
  apply hdeletes.bind
  intro _
  exact Triple.pure fun _ h => h

/-- The inserts may be dealt with apart from the other phases. -/
theorem writeAll_triple {Q : Run σ → Prop} (hP : tx.Steady P)
    (hupdate : ∀ (t : RecordType) rs, Preserves P ((tx.writer t.store).update t rs))
    (hdelete : ∀ (t : RecordType) rs, Preserves P ((tx.writer t.store).delete t rs))
    (hreset : ∀ s r, P s → P { s with heap := s.heap.modify r .resetChanges }) {w : Workspace}
    (hinserts : Triple Q (tx.insertAll {} w.insertBatches) (fun _ run => P run.session)
      fun _ run => P run.session) :
    Triple Q (tx.writeAll w) (fun _ run => P run.session) fun _ run => P run.session :=
  writeAll_deletes hP hupdate hreset hinserts
    (Preserves.mapM _ fun b => deleteBatch_preserves hP hdelete b) fun _ h => h

/-- Leases are given back: no record changes, and no statement is run. -/
structure Releases (s s' : Session σ) : Prop where
  heap : s'.heap = s.heap
  trace : ∃ events, s'.trace = s.trace ++ events ∧ ∀ e ∈ events, e.statement? = none

theorem Releases.refl (s : Session σ) : Releases s s :=
  ⟨rfl, [], (List.append_nil _).symm, fun _ h => absurd h List.not_mem_nil⟩

theorem Releases.trans {s s' s'' : Session σ} (a : Releases s s') (b : Releases s' s'') :
    Releases s s'' := by
  obtain ⟨events, ht, he⟩ := a.trace
  obtain ⟨events', ht', he'⟩ := b.trace
  refine ⟨b.heap.trans a.heap, events ++ events', by rw [ht', ht, List.append_assoc], ?_⟩
  exact fun e h => (List.mem_append.mp h).elim (he e) (he' e)

private theorem Releases.note (s : Session σ) {e : Event} (world : σ) (he : e.statement? = none) :
    Releases s { s.note e with world } :=
  ⟨rfl, [e], rfl, fun _ h => List.mem_singleton.mp h ▸ he⟩

theorem Releases.insertedIn {s s' : Session σ} (a : Releases s s') :
    insertedIn s'.trace = insertedIn s.trace := by
  obtain ⟨events, ht, he⟩ := a.trace
  have hnone : UnitOfWork.insertedIn events = [] :=
    List.filterMap_eq_nil_iff.mpr fun e hm => Event.inserted?_of_statement? (he e hm)
  rw [ht, insertedIn_append, hnone, List.append_nil]

private theorem errorAll_releases (run : Run σ) :
    Releases run.session (tx.errorAll run).session := by
  rw [errorAll]
  split
  · exact .refl _
  · dsimp only
    generalize run.session = s
    induction run.leases.stores generalizing s with
    | nil => exact .refl s
    | cons store stores ih => exact (Releases.note s _ rfl).trans (ih _)

private theorem giveBack_releases (s : Session σ) (stores : List String) :
    Releases s (tx.giveBack s stores).2 := by
  induction stores generalizing s with
  | nil => exact .refl s
  | cons store stores ih =>
    rw [giveBack]
    have hnext := (Releases.note (e := .release store) s (tx.release store s.world).2 rfl).trans
      (ih _)
    dsimp only
    split <;> exact hnext

theorem abort_releases (halt : Halt ρ) (run : Run σ) :
    Releases run.session (tx.abort halt run).2.session :=
  (errorAll_releases run).trans (giveBack_releases (tx.errorAll run).session _)

private theorem conclude_releases (run : Run σ) :
    Releases run.session (tx.conclude run).2.session := by
  have hreleases : Releases run.session (tx.releaseAll run).2.session :=
    giveBack_releases run.session run.leases.stores
  rw [conclude]
  split <;> next h => rwa [h] at hreleases

end Transaction

namespace Workspace

variable {σ ρ : Type} {tx : Transaction σ ρ} {w w₁ : Workspace} {s : Session σ} {h h₁ : Heap}

/-- What a commit begins to write with, if it gets as far as that. -/
def ready? (w : Workspace) (h : Heap) : Option (Workspace × Heap) :=
  if w.config.bypass then none
  else
    match checkReady (w, h) with
    | .ok () s => some s
    | .error _ _ => none

theorem ready?_eq_some : w.ready? h = some (w₁, h₁) ↔
    w.config.bypass = false ∧ checkReady (w, h) = .ok () (w₁, h₁) := by
  rw [ready?]
  cases w.config.bypass with
  | true => simp
  | false =>
    cases checkReady (w, h) with
    | ok u s => simp
    | error e s => simp

theorem flush_session (tx : Transaction σ ρ) (w : Workspace) (run : Run σ) :
    ∃ heap, (w.flush tx run).2.2.session =
      { (endState (tx.writeAll w run)).session with heap } := by
  rw [flush]
  cases tx.writeAll w run with
  | error halt run' => exact ⟨run'.session.heap, rfl⟩
  | ok summary run' =>
    dsimp only
    split <;> exact ⟨_, rfl⟩

theorem flush_ok {run : Run σ} {summary : Summary} (hok : (w.flush tx run).1 = .ok summary) :
    ∃ run' w' heap, tx.writeAll w run = .ok summary run' ∧
      settle (w, run'.session.heap) = .ok () (w', heap) ∧
        (w.flush tx run).2.2.session.heap = heap ∧
        (w.flush tx run).2.2.session.trace = run'.session.trace := by
  rw [flush] at hok ⊢
  cases hres : tx.writeAll w run with
  | error halt run' =>
    rw [hres] at hok
    cases hok
  | ok summary' run' =>
    rw [hres] at hok
    dsimp only at hok ⊢
    cases hset : settle (w, run'.session.heap) with
    | ok u s =>
      rw [hset] at hok
      obtain rfl := Except.ok.inj hok
      exact ⟨run', s.1, s.2, rfl, hset, rfl, rfl⟩
    | error e s =>
      rw [hset] at hok
      cases hok

theorem ready?_sound (hw : w.Sound h) (hr : w.ready? h = some (w₁, h₁)) :
    w₁.Sound h₁ ∧ h.Folds h₁ := by
  have hcheck := preserves_iff.mp checkReady_sound (w, h) ⟨hw, .refl h⟩
  rw [(ready?_eq_some.mp hr).2] at hcheck
  exact hcheck

/-- A commit that does not get as far as writing asks nothing of the world. -/
theorem commit_notReady (tx : Transaction σ ρ) (hw : w.Sound s.heap) (hr : w.ready? s.heap = none) :
    ∃ result w' h', w.commit tx s = (result, w', { s with heap := h' }) ∧
      w'.Sound h' ∧ s.heap.Folds h' := by
  rw [commit]
  cases hb : w.config.bypass with
  | true => exact ⟨_, w, s.heap, rfl, hw, .refl _⟩
  | false =>
    have hcheck := preserves_iff.mp checkReady_sound (w, s.heap) ⟨hw, .refl s.heap⟩
    cases hc : checkReady (w, s.heap) with
    | ok u s' =>
      rw [ready?_eq_some.mpr ⟨hb, hc⟩] at hr
      cases hr
    | error e s' =>
      rw [hc] at hcheck
      exact ⟨_, s'.1, s'.2, rfl, hcheck.1, hcheck.2⟩

theorem commit_trace_notReady (tx : Transaction σ ρ) (hr : w.ready? s.heap = none) :
    (w.commit tx s).2.2.trace = s.trace := by
  rw [commit]
  split
  · rfl
  · next hb =>
    cases hc : checkReady (w, s.heap) with
    | ok u s' => cases hr.symm.trans (ready?_eq_some.mpr ⟨Bool.eq_false_iff.mpr hb, hc⟩)
    | error e s' => rfl

theorem ready_of_commit_isOk (hb : w.config.bypass = false) (hok : (w.commit tx s).1.isOk) :
    ∃ w₁ h₁, w.ready? s.heap = some (w₁, h₁) := by
  rw [commit, hb] at hok
  cases hc : checkReady (w, s.heap) with
  | ok u s' => exact ⟨s'.1, s'.2, ready?_eq_some.mpr ⟨hb, hc⟩⟩
  | error e s' =>
    rw [hc] at hok
    cases hok

/-- A commit that gets as far as writing does what `flush` does, and gives leases back. -/
theorem commit_ready (tx : Transaction σ ρ) (hr : w.ready? s.heap = some (w₁, h₁)) :
    (w.commit tx s).2.1 = (w₁.flush tx { session := { s with heap := h₁ } }).2.1 ∧
      Transaction.Releases (w₁.flush tx { session := { s with heap := h₁ } }).2.2.session
        (w.commit tx s).2.2 := by
  obtain ⟨hb, hc⟩ := ready?_eq_some.mp hr
  rw [commit, hb, hc]
  simp only [Bool.false_eq_true, if_false]
  split
  · next summary w' run hf =>
    rw [hf]
    exact ⟨rfl, Transaction.conclude_releases run⟩
  · next halt w' run hf =>
    rw [hf]
    exact ⟨rfl, Transaction.abort_releases halt run⟩

theorem commit_ok (hr : w.ready? s.heap = some (w₁, h₁)) {summary : Summary}
    (hok : (w.commit tx s).1 = .ok summary) :
    (w₁.flush tx { session := { s with heap := h₁ } }).1 = .ok summary := by
  obtain ⟨hb, hc⟩ := ready?_eq_some.mp hr
  rw [commit, hb, hc] at hok
  simp only [Bool.false_eq_true, if_false] at hok
  split at hok
  · next summary' w' run hf =>
    rw [hf]
    cases hconclude : (tx.conclude run).1 with
    | ok u =>
      simp only [hconclude] at hok
      exact congrArg Except.ok (Except.ok.inj hok)
    | error e =>
      simp only [hconclude] at hok
      cases hok
  · cases hok

end Workspace

end UnitOfWork
