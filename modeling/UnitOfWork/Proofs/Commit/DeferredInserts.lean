import UnitOfWork.Proofs.Commit.InsertBindings
import UnitOfWork.Proofs.Commit.InsertCycles

/-!
# Inserts that foreign keys do not hold up

Where foreign keys are checked at the end of a transaction, a record waits only for records that its
key is taken from, and only until their keys are known. The rounds then insert every new record,
unless there is a cycle of keys that are taken from each other; other references may form cycles as
they like.
-/

namespace UnitOfWork

namespace Heap

variable {σ : Type} {h h' : Heap} {R done : List RecordId} {r t : RecordId} {s : Session σ}

/-- One of the records `R` takes its key from another one of them. -/
def TakesKeyIn (h : Heap) (R : List RecordId) (r t : RecordId) : Prop :=
  (r ∈ R ∧ t ∈ R) ∧ t ≠ r ∧ t ∈ h.keyTargets r

private theorem Keeps.takesKeyIn (a : h.Keeps h') (R : List RecordId) :
    h'.TakesKeyIn R = h.TakesKeyIn R := by
  funext r t
  rw [TakesKeyIn, TakesKeyIn, a.keyTargets]

private theorem acc_of_resolve? {depth : Nat} (hr : (h.resolve? depth r).isSome) :
    Acc (fun t r => h.TakesKeyIn R r t) r := by
  induction depth generalizing r with
  | zero => cases hr
  | succ depth ih =>
    refine .intro r fun t ht => ih ?_
    obtain ⟨c, slot, field, he, hs, hget⟩ := exists_of_mem_keyTargets ht.2.2
    exact resolve?_isSome_of_reference hr he hs hget

private theorem canInsert_true (h : Heap) (r : RecordId) : h.canInsert true r = !h.keyAwaits r :=
  Bool.and_true _

private theorem Advanced.acc_of_canInsert (ha : h.Advanced done s) (hR : h.Insertable R)
    (hr : s.heap.canInsert true r) (ht : h.TakesKeyIn R r t) :
    t ∈ done ∨ Acc (fun t r => h.TakesKeyIn R r t) t := by
  by_cases hd : t ∈ done
  · exact .inl hd
  right
  have hpending : s.heap.isPending t := by
    rw [Heap.isPending, ha.same t hd]
    exact hR.isPending ht.1.2
  have hknown : (s.heap.primaryKey? t).isSome := by
    rw [canInsert_true, Bool.not_eq_true', keyAwaits, ha.keeps.keyTargets,
      List.any_eq_false] at hr
    simpa [awaitsKey, hpending, ht.2.1, Option.isSome_iff_ne_none] using hr t ht.2.2
  rw [← ha.keeps.takesKeyIn]
  exact acc_of_resolve? hknown

private theorem Advanced.waits_of_canInsert (ha : h.Advanced done s) (hR : h.Insertable R)
    (hr : r ∈ R) (hc : s.heap.canInsert true r = false) : ∃ t, h.TakesKeyIn R r t ∧ t ∉ done := by
  have hawaits : s.heap.keyAwaits r := by simpa [canInsert_true] using hc
  rw [keyAwaits, ha.keeps.keyTargets] at hawaits
  obtain ⟨t, ht, hcond⟩ := List.any_eq_true.mp hawaits
  obtain ⟨hne, hawait⟩ : t ≠ r ∧ s.heap.awaitsKey t := by simpa using hcond
  rw [awaitsKey, Bool.and_eq_true] at hawait
  have hpending : (s.heap.get t).isPending := hawait.1
  have hd : t ∉ done := fun hd => by simp [Record.isPending, ha.marked t hd] at hpending
  rw [ha.same t hd] at hpending
  exact ⟨t, ⟨⟨hr, hR.closed r hr t (mem_targets_of_mem_keyTargets ht) hne hpending⟩, hne, ht⟩, hd⟩

end Heap

namespace Transaction

variable {σ ρ : Type} {tx : Transaction σ ρ} {conn : String → Connection σ ρ} {h : Heap}
  {R done : List RecordId} {bs : List Batch}

private theorem WritesBy.insertRound_deferred (hw : tx.WritesBy conn fun _ => true)
    (hwilling : tx.Willing) (hR : h.Insertable R) (hbs : ∀ b ∈ bs, Takes conn h R b.type b.records)
    (hn : (done ++ recordsOf bs).Nodup) :
    Triple (fun run => h.Advanced done run.session) (tx.insertRound bs)
      (fun results run => ∃ done', Round (h.TakesKeyIn R) done bs done' results.retries ∧
        h.Advanced done' run.session) fun _ _ => False := by
  refine hw.insertRound_plans hwilling hR (Round (h.TakesKeyIn R)) (fun done => .nil _ done) ?_
    hbs hn
  intro done b bs done' left s ha hmem hrest
  refine .cons (s.heap.canInsert true) (fun r _ hc t ht => ?_) (fun r hr hc => ?_) hrest
  · exact ha.acc_of_canInsert hR hc ht
  · exact ha.waits_of_canInsert hR (hmem r hr) hc

end Transaction

section

variable {σ ρ : Type} {w : Workspace} {h : Heap} {tx : Transaction σ ρ}
  {conn : String → Connection σ ρ}

/-- Over stores that defer the check of foreign keys and take every insert, the new records of a
workspace are inserted as far as their keys are not taken from a cycle of them; one round is enough
where no key is taken from a reference. -/
theorem insertAll_unless_keys_cyclic (hw : w.Sound h) (htx : tx.WritesBy conn fun _ => true)
    (hwilling : tx.Willing) (hnew : h.Insertable w.newRecords)
    (htakes : ∀ b ∈ w.insertBatches, ∀ r ∈ b.records,
      (h.get r).Supplies b.type ∧ (conn b.type.store).Answers b.type (h.get r).type) (world : σ) :
    w.InsertsUnlessCyclic (h.TakesKeyIn w.newRecords)
      (fun rounds _ =>
        (∀ r ∈ w.newRecords, ∀ c ∈ (h.get r).type.key, ∀ field, c.source ≠ .reference field) →
          rounds ≤ 1)
      (tx.insertAll {} w.insertBatches { session := { heap := h, world } }) := by
  refine insertsUnlessCyclic conn hw (fun _ _ hrt => hrt.1) htakes
    (fun _ _ _ => True) (fun _ done bs hbs hn _ => ?_) trivial
    (fun k done p _ _ hp hle hkeys => hle.trans (hp.1.length_le_one fun r t hrt => ?_)) world
  · refine (htx.insertRound_deferred hwilling hnew hbs hn).conseq (fun _ h => h) ?_
      fun _ _ h => h
    rintro results run ⟨done', hround, ha⟩
    exact ⟨done', hround, trivial, ha⟩
  · obtain ⟨c, slot, field, he, hsource, -⟩ := Heap.exists_of_mem_keyTargets hrt.2.2
    exact hkeys r hrt.1.1 c (List.of_mem_zip he).1 field hsource

end

/-! Two nodes that refer to each other, and a detail that has its key from one of them. -/

/-- A type whose records have the key of the node that they refer to. -/
def detailType : RecordType where
  name := "detail"
  table := "detail"
  store := "main"
  key := [.bigInt "id" (.reference "node")]
  columns := []
  references := [{ name := "node", column := "id", target := "node" }]
  key_ne_nil := by simp
  sources_declared := by simp [KeyColumn.undeclared?, KeyColumn.bigInt]

private theorem numbering_answers_detail (store : String) :
    (numbering store).Answers detailType detailType := by
  intro h r st world hst
  refine ⟨fun _ => ⟨1, rfl⟩, fun _ => ⟨_, rfl, fun d hd hg => ?_⟩⟩
  obtain rfl := List.mem_singleton.mp hd
  cases hg

def detailedPair : Heap :=
  (((∅ : Heap).set ⟨0⟩
    { Record.create detailType with
      references := (∅ : NameMap RecordId).insert "node" ⟨1⟩ }).set ⟨1⟩
    { Record.create nodeType with
      references := (∅ : NameMap RecordId).insert "parent" ⟨2⟩ }).set ⟨2⟩
    { Record.create nodeType with references := (∅ : NameMap RecordId).insert "parent" ⟨1⟩ }

def trackedPair : Workspace × Heap :=
  endState (Workspace.track ⟨2⟩
    (endState (Workspace.track ⟨1⟩ (endState (Workspace.track ⟨0⟩ ({}, detailedPair))))))

private theorem trackedPair_life :
    Life (σ := Nat) (ρ := CancelReason) Transaction.IsSql [] trackedPair.1 trackedPair.2 := by
  have hedits : (∅ : Heap).Edits detailedPair := .of_fresh (by decide +kernel)
  exact .track (r := ⟨2⟩) (.track (r := ⟨1⟩) (.track (r := ⟨0⟩) (.edit (.begin {}) hedits)
    (by decide +kernel)) (by decide +kernel)) (by decide +kernel)

/-- The nodes are inserted at once, although each refers to the other, and the detail after them. -/
theorem insertAll_unless_keys_cyclic_pair : trackedPair.1.InsertsUnlessCyclic
    (trackedPair.2.TakesKeyIn trackedPair.1.newRecords)
    (fun rounds _ =>
      (∀ r ∈ trackedPair.1.newRecords, ∀ c ∈ (trackedPair.2.get r).type.key, ∀ field,
        c.source ≠ .reference field) → rounds ≤ 1)
    ((Transaction.sql numbering true).insertAll {} trackedPair.1.insertBatches
      { session := { heap := trackedPair.2, world := 1 } }) := by
  have hnew : trackedPair.2.Insertable trackedPair.1.newRecords :=
    ⟨by decide +kernel, by decide +kernel, by decide +kernel⟩
  have htype : ∀ b ∈ trackedPair.1.insertBatches, ∀ r ∈ b.records,
      (trackedPair.2.get r).type = b.type ∧ (trackedPair.2.get r).isCommitReady := by
    decide +kernel
  have hanswers : ∀ b ∈ trackedPair.1.insertBatches,
      (numbering b.type.store).Answers b.type b.type := by
    have htypes : ∀ b ∈ trackedPair.1.insertBatches, b.type = detailType ∨ b.type = nodeType := by
      decide +kernel
    intro b hb
    rcases htypes b hb with ht | ht <;> rw [ht]
    · exact numbering_answers_detail "main"
    · exact numbering_answers "main"
  refine insertAll_unless_keys_cyclic (trackedPair_life.sound fun _ => (·.orderly))
    (Transaction.sql_writesBy fun _ => rfl) ⟨fun _ => rfl, fun _ _ => rfl⟩ hnew ?_ 1
  intro b hb r hr
  obtain ⟨ht, hready⟩ := htype b hb r hr
  exact ⟨ht ▸ Record.supplies_of_isCommitReady hready, ht ▸ hanswers b hb⟩

end UnitOfWork
