import UnitOfWork.Proofs.Commit.History
import UnitOfWork.Proofs.Record.Building

/-!
# Records that are written

What a writer does to records comes down to their setters: the answer of the store fills generated
columns, and the marks are set and taken back. So records that were built when a commit began are so
when it ends, whatever the store has answered.
-/

namespace UnitOfWork

theorem Record.Built.mark {x : Record} (hx : x.Built) (s : Record.Setter) (hs : s.other? = none) :
    (s.apply x).Built := by
  refine .set s hx ?_ ?_ <;>
  · intro other ho
    rw [hs] at ho
    cases ho

namespace Heap

variable {h : Heap} {r : RecordId} {x : Record} {f : Record → Record}

/-- Every record is built. -/
def Built (h : Heap) : Prop := ∀ r, (h.get r).Built

theorem built_empty : (∅ : Heap).Built := fun _ => .persisted default

theorem Built.set (hh : h.Built) (hx : x.Built) : (h.set r x).Built := by
  intro q
  rw [get_set]
  split
  · exact hx
  · exact hh q

theorem Built.modify (hh : h.Built) (hf : (f (h.get r)).Built) : (h.modify r f).Built := hh.set hf

private theorem Built.completeInsert (hh : h.Built) (p : PlannedInsert) :
    (h.completeInsert p).Built := by
  have hmarked : (h.get p.record).markInserted.Built := (hh p.record).mark .markInserted rfl
  refine hh.modify ?_
  split
  · exact hmarked
  · exact hmarked.mark .resetChanges rfl

theorem Built.modifyAll (hf : ∀ x : Record, x.Built → (f x).Built) (rs : List RecordId)
    (hh : h.Built) : (h.modifyAll rs f).Built := by
  induction rs generalizing h with
  | nil => exact hh
  | cons r rs ih => exact ih (hh.modify (hf _ (hh r)))

end Heap

namespace Connection

variable {σ ρ : Type} {c : Connection σ ρ}

private theorem apply_applyGenerated {x y : Record} {column : String} {v : Value}
    (h : x.applyGenerated column v = .ok y) :
    (Record.Setter.applyGenerated column v).apply x = y := by
  rw [Record.Setter.apply, h]
  rfl

private theorem takeGenerated_built (r : RecordId) (row : Row) (columns : List String) :
    Preserves (fun s => s.heap.Built) (takeGenerated r row columns : Working σ ρ Unit) := by
  induction columns with
  | nil => exact Preserves.pure ()
  | cons column columns ih =>
    rw [takeGenerated]
    cases row.find? column with
    | none => exact ih
    | some v =>
      refine Triple.bind (R := fun content s => content.Built ∧ s.heap.Built)
        (Triple.reading (fun s content hs hcontent => ⟨?_, hs⟩) fun s e hs _ => hs) fun content =>
        Triple.bind (Triple.updating fun s hs => hs.2.set hs.1) fun _ => ih
      exact apply_applyGenerated hcontent ▸ (hs r).mark (.applyGenerated column v) rfl

private theorem preserves_of_heap {α : Type} {P : Heap → Prop} {x : Working σ ρ α}
    (hx : ∀ s : Session σ, Triple (· = s) x (fun _ s' => s'.heap = s.heap)
      fun _ s' => s'.heap = s.heap) : Preserves (fun s => P s.heap) x := by
  refine Triple.of_starting fun s hs => (hx s).conseq (fun _ h => h) (fun _ s' h => ?_) ?_
  · rwa [h]
  · intro _ s' h
    rwa [h]

private theorem insertOne_built (t : RecordType) (p : PlannedInsert) :
    Preserves (fun s => s.heap.Built) (c.insertOne t p) := by
  have hcomplete : Preserves (fun s : Session σ => s.heap.Built)
      (Working.updating (·.completeInsert p) : Working σ ρ Unit) :=
    Triple.updating fun s hs => hs.completeInsert p
  rw [insertOne]
  refine Triple.bind (R := fun _ s => s.heap.Built)
    (Triple.reading (fun s st hs _ => hs) fun s e hs _ => hs) fun st => ?_
  split
  · have hperform : Preserves (fun s => s.heap.Built) (c.perform t p.record st) :=
      preserves_of_heap fun s => (c.perform_triple t p.record st s).conseq (fun _ h => h)
        (fun _ s' h => by rw [h.2]; rfl) fun _ s' h => by rw [h.2]; rfl
    exact hperform.bind fun _ => hcomplete
  · have hfetch : Preserves (fun s => s.heap.Built) (c.fetchRow t p.record st) :=
      preserves_of_heap fun s => (c.fetchRow_triple t p.record st s).conseq (fun _ h => h)
        (fun _ s' h => by rw [h.2]; rfl) fun _ s' h => by rw [h.2]; rfl
    exact hfetch.bind fun row =>
      (takeGenerated_built p.record row st.returning).bind fun _ => hcomplete

end Connection

namespace Transaction

variable {σ ρ : Type} {tx : Transaction σ ρ}

/-- The writers change records by their setters only. -/
structure Builds (tx : Transaction σ ρ) : Prop where
  insert : ∀ store t rs, Preserves (fun s => s.heap.Built) ((tx.writer store).insert t rs)
  update : ∀ store t rs, Preserves (fun s => s.heap.Built) ((tx.writer store).update t rs)
  delete : ∀ store t rs, Preserves (fun s => s.heap.Built) ((tx.writer store).delete t rs)

theorem WritesBy.builds {conn : String → Connection σ ρ} {deferrable : String → Bool}
    (hw : tx.WritesBy conn deferrable) : tx.Builds where
  insert store t rs := by
    rw [hw.writer]
    refine Triple.bind (R := fun _ s => s.heap.Built)
      (Triple.reading (fun _ _ hs _ => hs) fun _ _ hs _ => hs) fun plan => ?_
    exact Preserves.bind (Preserves.forM plan.inserts (Connection.insertOne_built t))
      fun _ => Preserves.pure _
  update store t rs := by
    rw [hw.writer]
    exact Writer.sql_update_preserves (fun _ _ _ _ u hs => by rwa [u.heap]) t rs
  delete store t rs := by
    rw [hw.writer]
    exact Writer.sql_delete_preserves (fun _ _ hs => hs) t rs

theorem Builds.writeAll (ht : tx.Builds) (w : Workspace) :
    Preserves (fun run : Run σ => run.session.heap.Built) (tx.writeAll w) := by
  have hinsert := insertAll_preserves (P := fun s => s.heap.Built) steady_heap
    (fun t rs => ht.insert t.store t rs) {} w.insertBatches
  exact writeAll_triple steady_heap (fun t rs => ht.update t.store t rs)
    (fun t rs => ht.delete t.store t rs) (fun s r hs => hs.modify ((hs r).mark .resetChanges rfl))
    hinsert

end Transaction

end UnitOfWork
