import UnitOfWork.Proofs.Commit.Actions

/-!
# The rounds of inserts

Whatever one batch of inserts does to the records that are still to be inserted and to those that
are to be fixed up, all rounds together do. An invariant is about both lists and the session; how
the records are spread over batches plays no part in it.
-/

namespace UnitOfWork

/-- The records of a batch, each with the type that it is written as. -/
def Batch.entries (b : Batch) : List (RecordType × RecordId) := b.records.map (b.type, ·)

/-- The records of all batches, each with the type that it is written as. -/
def entriesOf (batches : List Batch) : List (RecordType × RecordId) :=
  batches.flatMap Batch.entries

theorem entriesOf_cons (b : Batch) (bs : List Batch) :
    entriesOf (b :: bs) = b.entries ++ entriesOf bs := rfl

private theorem entriesOf_append (bs bs' : List Batch) :
    entriesOf (bs ++ bs') = entriesOf bs ++ entriesOf bs' := List.flatMap_append

private theorem entriesOf_only (b : Batch) (records : List RecordId) :
    entriesOf (b.only records) = records.map (b.type, ·) := by
  cases records <;> simp [entriesOf, Batch.only, Batch.entries]

theorem entriesOf_snd (batches : List Batch) :
    (entriesOf batches).map Prod.snd = batches.flatMap (·.records) := by
  simp [entriesOf, Batch.entries, List.map_flatMap, Function.comp_def]

theorem mem_entriesOf {batches : List Batch} {t : RecordType} {r : RecordId} :
    (t, r) ∈ entriesOf batches ↔ ∃ b ∈ batches, b.type = t ∧ r ∈ b.records := by
  simp only [entriesOf, Batch.entries, List.mem_flatMap, List.mem_map, Prod.mk.injEq]
  constructor
  · rintro ⟨b, hb, r, hr, rfl, rfl⟩
    exact ⟨b, hb, rfl, hr⟩
  · rintro ⟨b, hb, rfl, hr⟩
    exact ⟨b, hb, r, hr, rfl, rfl⟩

namespace Transaction

variable {σ ρ : Type}

/-- What every batch of inserts keeps. `I todo fixUps s` is about the records that are still to be
inserted and those that are to be fixed up; it gives `E` wherever the inserts stop. -/
structure InsertInvariant (tx : Transaction σ ρ)
    (I : List (RecordType × RecordId) → List (RecordType × RecordId) → Session σ → Prop)
    (E : Halt ρ → Session σ → Prop) : Prop where
  steady : ∀ todo fixUps, tx.Steady (I todo fixUps)
  perm : ∀ todo todo' fixUps s, todo.Perm todo' → I todo fixUps s → I todo' fixUps s
  batch : ∀ (t : RecordType) (rs : List RecordId) todo fixUps,
    Triple (I (rs.map (t, ·) ++ todo) fixUps) ((tx.writer t.store).insert t rs)
      (fun results => I (results.retries.map (t, ·) ++ todo)
        (fixUps ++ results.fixUps.map (t, ·))) E
  stop : ∀ todo fixUps e s, I todo fixUps s → E e s

variable {tx : Transaction σ ρ}
  {I : List (RecordType × RecordId) → List (RecordType × RecordId) → Session σ → Prop}
  {E : Halt ρ → Session σ → Prop}

private theorem InsertInvariant.insertRound (hI : tx.InsertInvariant I E) (batches : List Batch)
    (todo fixUps : List (RecordType × RecordId)) :
    Triple (fun run => I (entriesOf batches ++ todo) fixUps run.session) (tx.insertRound batches)
      (fun results run => I (entriesOf results.retries ++ todo)
        (fixUps ++ entriesOf results.fixUps) run.session)
      fun e run => E e run.session := by
  induction batches generalizing todo fixUps with
  | nil => exact Triple.pure fun run h => by simpa [entriesOf] using h
  | cons b bs ih =>
    rw [Transaction.insertRound]
    have hbatch := writing_triple (b := b) (e := .insert b.type.name b.records)
      (x := (·.insert b.type b.records))
      (hI.steady (b.entries ++ (entriesOf bs ++ todo)) fixUps)
      (fun s => .insert _ _) (fun _ => hI.stop _ _) (hI.batch b.type b.records _ fixUps)
    refine Triple.bind (hbatch.conseq (fun run h => ?_) (fun _ _ h => h) fun _ _ h => h)
      fun results => ?_
    · rwa [entriesOf_cons, List.append_assoc] at h
    · -- What the batch leaves to be inserted waits while the other batches are written.
      refine Triple.bind ((ih (results.retries.map (b.type, ·) ++ todo)
        (fixUps ++ results.fixUps.map (b.type, ·))).conseq (?_) (fun _ _ h => h)
        fun _ _ h => h) fun rest => Triple.pure ?_
      · intro run h
        refine hI.perm _ _ _ _ ?_ h
        rw [← List.append_assoc, ← List.append_assoc]
        exact (List.perm_append_comm).append_right todo
      · intro run h
        simp only [entriesOf_append, entriesOf_only]
        rw [List.append_assoc] at h
        refine hI.perm _ _ _ _ ?_ h
        rw [← List.append_assoc]
        exact (List.perm_append_comm).append_right todo

theorem InsertInvariant.insertAll (hI : tx.InsertInvariant I E) (summary : Summary)
    (pending : List Batch) (fixUps : List (RecordType × RecordId)) :
    Triple (fun run => I (entriesOf pending) fixUps run.session) (tx.insertAll summary pending)
      (fun result run => I [] (fixUps ++ entriesOf result.2) run.session)
      fun e run => E e run.session := by
  induction hn : recordCount pending using Nat.strongRecOn generalizing summary pending fixUps with
  | _ n ih =>
    rw [Transaction.insertAll]
    split
    · next hempty =>
      obtain rfl := List.isEmpty_iff.mp hempty
      exact Triple.pure fun run h => by simpa [entriesOf] using h
    · apply Triple.bind ((hI.insertRound pending [] fixUps).conseq (fun run h => by simpa using h)
        (fun _ _ h => h) fun _ _ h => h)
      intro results
      simp only [List.append_nil]
      split
      · next hlt =>
        refine Triple.bind (ih _ (hn ▸ hlt) _ _ _ rfl) fun rest => Triple.pure fun run h => ?_
        rwa [entriesOf_append, ← List.append_assoc]
      · refine Triple.bind (R := fun _ run =>
          I (entriesOf results.retries) (fixUps ++ entriesOf results.fixUps) run.session) ?_
          fun h => Triple.throw fun run hrun => hI.stop _ _ _ _ hrun
        exact fun run hrun => hrun

end Transaction

end UnitOfWork
