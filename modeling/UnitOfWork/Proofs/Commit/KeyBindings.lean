import UnitOfWork.Proofs.Commit.DeferredInserts
import UnitOfWork.Proofs.Commit.ForeignKeys
import UnitOfWork.Proofs.Commit.KeyColumns
import UnitOfWork.Proofs.Tracking.BucketTypes

/-!
# Keys of inserted rows

No insert binds NULL to a key column that the application supplies. Whether one does so to a column
that is taken from a reference shows when the commit has ended: it is NULL if the key of the target
is not known even then. A commit that succeeds has inserted no such row. One that fails may have,
for a record that takes its key from itself is not put off.
-/

namespace UnitOfWork

namespace Workspace

variable {σ ρ : Type} {tx : Transaction σ ρ} {conn : String → Connection σ ρ}
  {deferrable : String → Bool} {w w₁ : Workspace} {h h₁ : Heap}

/-- However a commit ends that gets as far as writing, its inserts have bound the columns of keys to
what is known of them then. -/
theorem commit_keysBound (hw : w.Sound h) (htyped : w.Typed h) (hshares : h.SharesTypes)
    (hunwritten : h.Unwritten) (htx : tx.WritesBy conn deferrable)
    (hready : w.ready? h = some (w₁, h₁)) (hknown : ∀ r ∈ w₁.newRecords, h₁.KnownSources r)
    (world : σ) : (w.commit tx { heap := h, world }).2.2.KeysBound
      fun t r => (t, r) ∈ entriesOf w₁.insertBatches := by
  obtain ⟨hsound, hfolds⟩ := ready?_sound hw hready
  have hwrites := htx.writeAll_keysBound hsound (hunwritten.folds hfolds)
    (fun e he => (htyped.ready? hw hready).type_eq hsound (hshares.folds hfolds) he)
    (fun e he => hknown e.2 (mem_newRecords_of_entries he)) world
  have hwritten := hwrites.endState (s := { session := { heap := h₁, world } }) rfl
  obtain ⟨heap, hsettles, hsession, -⟩ :=
    flush_settles htx.orderly { session := { heap := h₁, world } } hsound
  have hreleases := (commit_ready (s := { heap := h, world }) tx hready).2
  obtain ⟨events, htrace, hquiet⟩ := hreleases.trace
  rw [hsession] at htrace
  refine hwritten.settles htrace (fun e he => Event.inserted?_of_statement? (hquiet e he)) ?_
  rwa [hreleases.heap, hsession]

/-- Where a commit succeeds, the keys of all that it was to insert are known in the end. -/
theorem known_of_commit_ok (hw : w.Sound h) (htx : tx.Orderly) {world : σ} {summary : Summary}
    (hready : w.ready? h = some (w₁, h₁))
    (hok : (w.commit tx { heap := h, world }).1 = .ok summary) {r : RecordId}
    (hr : r ∈ w₁.newRecords) :
    ((w.commit tx { heap := h, world }).2.2.heap.primaryKey? r).isSome := by
  obtain ⟨hsound, -⟩ := ready?_sound hw hready
  obtain ⟨run, w', heap, hwrite, hsettle, hfinal, -⟩ :=
    flush_ok (commit_ok (s := { heap := h, world }) hready hok)
  have hevolves := (htx.writeAll w₁ h₁).ok (.refl h₁) hwrite
  have hset := (settle_sound (hsound.evolves hevolves)).ok rfl hsettle
  have hreleases := (commit_ready (s := { heap := h, world }) tx hready).2
  obtain ⟨kind, name, b, hb, hm⟩ := mem_newRecords.mp hr
  rw [hreleases.heap, hfinal, hset.1.2.primaryKey?]
  exact hset.2 kind name b hb r hm

/-- However a commit ends, each of its inserts has bound every key column that is supplied to a
component of the key, and every one that is taken from a reference to the foreign key which the
target has in the end. So it has bound no NULL if and only if all keys that it takes its own from
are known then, and it has bound none if the commit succeeds. -/
theorem inserts_bind_keys {config : Config} {ops : List (Operation σ ρ)} {s : Workspace × Heap}
    (hops : Operation.AllLegal ({ config }, ∅) ops)
    (hs : Operation.runAll ({ config }, ∅) ops = s) (hshares : s.2.SharesTypes)
    (hunwritten : s.2.Unwritten) (hknown : ∀ w₁ h₁, s.1.ready? s.2 = some (w₁, h₁) →
      ∀ r ∈ w₁.newRecords, h₁.KnownSources r)
    (htx : tx.WritesBy conn deferrable) {world : σ} {result : Except (Halt ρ) Summary}
    {w' : Workspace} {s' : Session σ}
    (hend : s.1.commit tx { heap := s.2, world } = (result, w', s')) {e : Event} {r : RecordId}
    (he : e ∈ s'.trace) (hr : e.inserted? = some r) :
    ∃ st, e.statement? = some (some r, st) ∧ s'.heap.BindsKey r st ∧
      ((∀ c ∈ (s'.heap.get r).type.key, c.isGenerated = false → st.Fills c.name) ↔
        s'.heap.SourcesKnown r) ∧
      ∀ summary, result = .ok summary →
        ∀ c ∈ (s'.heap.get r).type.key, c.isGenerated = false → st.Fills c.name := by
  subst hs
  have hsession := congrArg (·.2.2) hend
  have hresult := congrArg (·.1) hend
  dsimp only at hsession hresult
  subst hsession hresult
  cases hready : (Operation.runAll ({ config }, ∅) ops).1.ready?
      (Operation.runAll ({ config }, ∅) ops).2 with
  | none =>
    rw [commit_trace_notReady (s := { heap := _, world }) tx hready] at he
    cases he
  | some ready =>
    obtain ⟨w₁, h₁⟩ := ready
    obtain ⟨⟨t, ht⟩, st, hst, hbinds⟩ := commit_keysBound hops.sound hops.typed hshares hunwritten
      htx hready (hknown w₁ h₁ hready) world e he r hr
    refine ⟨st, hst, hbinds, hbinds.fills_iff, fun summary hok => hbinds.fills_iff.mpr ?_⟩
    exact Heap.sourcesKnown_of_primaryKey? (known_of_commit_ok hops.sound htx.orderly hready hok
      (mem_newRecords_of_entries ht))

end Workspace

/-! A detail is inserted with the key that the store has given to its node just before. -/

def pairCommit : Except Halt Summary × Workspace × Session Nat :=
  trackedPair.1.commit (.sql numbering true) { heap := trackedPair.2, world := 1 }

theorem inserts_bind_keys_detail : ∃ e ∈ pairCommit.2.2.trace, ∃ st,
    e.statement? = some (some ⟨0⟩, st) ∧ st.Fills "id" := by
  have hops : Operation.AllLegal (σ := Nat) (ρ := CancelReason) ({}, ∅)
      [.edit detailedPair, .track ⟨0⟩, .track ⟨1⟩, .track ⟨2⟩] :=
    ⟨.of_fresh (by decide +kernel), by decide +kernel, by decide +kernel, by decide +kernel,
      trivial⟩
  have hunwritten : trackedPair.2.Unwritten :=
    ⟨Heap.forall_get (P := (·.inserted = false)) rfl (by decide +kernel), fun r _ =>
      Heap.forall_get (P := fun x => ∀ e ∈ x.keySlots, e.1.isGenerated → e.2 = none)
        (by decide) (by decide +kernel) r⟩
  have hknown : ∀ w₁ h₁, trackedPair.1.ready? trackedPair.2 = some (w₁, h₁) →
      ∀ r ∈ w₁.newRecords, h₁.KnownSources r := by
    intro w₁ h₁ hready r hr u hu hn
    have hnew : (trackedPair.1.ready? trackedPair.2).all fun (s : Workspace × Heap) =>
        decide (∀ r ∈ s.1.newRecords, ∀ u ∈ s.2.keyTargets r, (s.2.get u).isNew) := by
      decide +kernel
    rw [hready] at hnew
    have hisNew := of_decide_eq_true hnew r hr u hu
    exact Bool.noConfusion (hn.symm.trans hisNew)
  have hinserted : (⟨0⟩ : RecordId) ∈ insertedIn pairCommit.2.2.trace := by decide +kernel
  obtain ⟨e, he, hr⟩ := List.mem_filterMap.mp hinserted
  have hend : trackedPair.1.commit (.sql numbering true) { heap := trackedPair.2, world := 1 } =
      (pairCommit.1, pairCommit.2.1, pairCommit.2.2) := rfl
  obtain ⟨st, hst, -, -, hfills⟩ := Workspace.inserts_bind_keys hops rfl (by decide +kernel)
    hunwritten hknown (Transaction.sql_writesBy fun _ => rfl) hend he hr
  have hok : pairCommit.1.toOption = some { inserted := 3, fixedUp := 2, rounds := 2 } := by
    decide +kernel
  have htype : (pairCommit.2.2.heap.get ⟨0⟩).type = detailType := by decide +kernel
  rw [htype] at hfills
  exact ⟨e, he, st, hst, hfills _ (eq_ok_of_toOption hok) _ List.mem_cons_self rfl⟩

/-! A link that takes its key from itself is not put off. -/

def selfLinked : Heap :=
  (∅ : Heap).set ⟨0⟩ { Record.create (linkType "link") with
    references := (∅ : NameMap RecordId).insert "via" ⟨0⟩ }

theorem not_inserts_bind_keys :
    ¬ ∀ (ops : List (Operation Nat)) (tx : Transaction Nat) (conn : String → Connection Nat)
        (deferrable : String → Bool) (world : Nat), Operation.AllLegal ({}, ∅) ops →
      tx.WritesBy conn deferrable →
        let s := Operation.runAll ({}, ∅) ops
        s.2.SharesTypes → (∀ r ∈ s.2.ids, ∀ u ∈ s.2.keyTargets r, (s.2.get u).type.arity = 1) →
          ∀ e ∈ (s.1.commit tx { heap := s.2, world }).2.2.trace, ∀ r st, e.inserted? = some r →
            e.statement? = some (some r, st) → ∀ c ∈ (s.2.get r).type.key,
              c.isGenerated = false → st.Fills c.name := by
  intro hall
  have hlegal : Operation.AllLegal (σ := Nat) (ρ := CancelReason) ({}, ∅)
      [.edit selfLinked, .track ⟨0⟩] :=
    ⟨.of_fresh (by decide +kernel), by decide +kernel, trivial⟩
  have hfills := hall [.edit selfLinked, .track ⟨0⟩] (.sql numbering false) numbering _ 1 hlegal
    (Transaction.sql_writesBy fun _ => rfl) (by decide +kernel) (by decide +kernel)
    (.execute "main" (some ⟨0⟩) (.insert "link" [("id", .null)] [])) (by decide +kernel) ⟨0⟩ _ rfl
    rfl (.bigInt "id" (.reference "via")) (by decide +kernel) rfl
  revert hfills
  decide +kernel

end UnitOfWork
