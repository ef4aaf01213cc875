import UnitOfWork.Proofs.Commit.DeletedRows
import UnitOfWork.Proofs.Commit.StoppingErrors

/-!
# The order of deletes

Rows are deleted batch by batch, in the order of the types of the records: first by the kinds of
their keys, and then by the names of the types. In the trace of a commit no row of a type comes
after those of a type that it precedes. The references among the records play no part in this.
-/

namespace UnitOfWork

/-- The statement deletes the rows of all records of a batch at once. -/
def Statement.isDeleteAny : Statement → Bool
  | deleteAny .. => true
  | insert .. | update .. | probe .. | delete .. => false

namespace Heap

variable {h : Heap} {b : Batch}

private theorem pairwise_deletesOf (h : Heap) (b : Batch) :
    (h.deletesOf b).Pairwise fun _ st => st.isDeleteAny = false := by
  rw [deletesOf, RecordType.deletes]
  split
  · exact .nil
  · split
    · exact List.pairwise_map.mpr (List.pairwise_of_forall fun _ _ => rfl)
    · exact List.pairwise_singleton ..

end Heap

namespace Workspace

variable {w : Workspace} {h : Heap}

private theorem Sound.not_precedes_of_mem (hw : w.Sound h) {b : Batch} (hb : b ∈ w.deleteBatches)
    {r t : RecordId} (hr : r ∈ b.records) (ht : t ∈ b.records) :
    ¬ (h.get r).type.Precedes (h.get t).type := by
  simp only [deleteBatches, List.mem_flatMap, Registry.deleteBatches, Registry.mem_batches] at hb
  obtain ⟨kind, -, -, name, bucket, hget, -, hrec⟩ := hb
  have hbelongs : ∀ q ∈ b.records, h.Belongs kind name q := by
    intro q hq
    rw [hrec, inCreationOrder, List.mem_mergeSort] at hq
    exact ((hw kind name bucket hget).deleted q hq).1
  have hrb := hbelongs r hr
  have htb := hbelongs t ht
  rintro (hlt | ⟨-, hlt⟩)
  · rw [hrb.kind, htb.kind] at hlt
    revert hlt
    cases kind <;> decide
  · rw [hrb.name, htb.name] at hlt
    exact String.lt_irrefl _ hlt

/-- Of two statements the later one deletes no row of a type that precedes one of the earlier, nor
all rows of the same batch. -/
theorem Sound.pairwise_deletions (hw : w.Sound h) :
    (h.deletions w.deleteBatches).Pairwise fun e e' => ∀ r ∈ e.1, ∀ r' ∈ e'.1,
      ¬ (h.get r').type.Precedes (h.get r).type ∧
        ((h.get r').type = (h.get r).type → e'.2.isDeleteAny = false) := by
  rw [Heap.deletions, List.pairwise_flatMap]
  constructor
  · intro b hb
    refine List.pairwise_map.mpr ((h.pairwise_deletesOf b).imp fun hst r hr r' hr' => ?_)
    exact ⟨hw.not_precedes_of_mem hb hr' hr, fun _ => hst⟩
  · refine hw.pairwise_deleteBatches.imp fun hprec e he e' he' r hr r' hr' => ?_
    obtain ⟨st, -, rfl⟩ := List.mem_map.mp he
    obtain ⟨st', -, rfl⟩ := List.mem_map.mp he'
    have ht := hprec r hr r' hr'
    exact ⟨ht.asymm, fun hsame => absurd hsame.symm ht.ne⟩

end Workspace

section

variable {σ ρ : Type} {tx : Transaction σ ρ} {conn : String → Connection σ ρ}
  {deferrable : String → Bool} {world : σ} {config : Config} {ops : List (Operation σ ρ)}

/-- A commit deletes no row after that of another record if the type of the record precedes that of
the other one, or if both are of one type with a single key column, whose rows are deleted by one
statement. -/
theorem commit_deletes_in_order (hlegal : Operation.AllLegal ({ config }, ∅) ops)
    (hw : tx.WritesBy conn deferrable) :
    let s := Operation.runAll ({ config }, ∅) ops
    let c := (s.1.commit tx { heap := s.2, world }).2.2
    ∀ (i j : Nat) (rs ts : List RecordId) (st st' : Statement) (r t : RecordId),
      (deletionLog c.trace)[i]? = some (rs, st) → (deletionLog c.trace)[j]? = some (ts, st') →
        r ∈ rs → t ∈ ts →
          ((c.heap.get r).type.Precedes (c.heap.get t).type ∨
            (c.heap.get r).type = (c.heap.get t).type ∧ st.isDeleteAny) → i ≤ j := by
  intro s c i j rs ts st st' r t hi hj hr ht hfirst
  have hsound : s.1.Sound s.2 := hlegal.sound
  cases hready : s.1.ready? s.2 with
  | none =>
    rw [show c.trace = [] from Workspace.commit_trace_notReady tx hready] at hi
    cases hi
  | some s₁ =>
    obtain ⟨w₁, h₁⟩ := s₁
    obtain ⟨hinturn, hsound₁⟩ := Workspace.commit_deletesInTurn hw hsound hready world
    have hpairs := List.pairwise_iff_getElem.mp (hsound₁.pairwise_deletions.sublist hinturn.sublist)
    obtain ⟨hi, hri⟩ := List.getElem?_eq_some_iff.mp hi
    obtain ⟨hj, htj⟩ := List.getElem?_eq_some_iff.mp hj
    by_contra hlt
    have hlater := hpairs j i hj hi (Nat.lt_of_not_le hlt)
    rw [hri, htj] at hlater
    obtain ⟨hprec, hsame⟩ := hlater t ht r hr
    rcases hfirst with hfirst | ⟨htype, hany⟩
    · exact hprec hfirst
    · rw [hsame htype] at hany
      cases hany

end

/-! A book and its author, both of which have a row and are deleted, the book first. -/

def authorType : RecordType := { itemType "author" with store := "main" }

def bookType : RecordType :=
  { itemType "book" with
    store := "main"
    references := [{ name := "author", column := "author_id", target := "author" }]
    sources_declared := by decide }

def authorAndBook : Heap :=
  ((∅ : Heap).set ⟨0⟩ ((Record.persisted authorType).setSlot 0 (.int64 1))).set ⟨1⟩
    { (Record.persisted bookType).setSlot 0 (.int64 2) with
      references := (∅ : NameMap RecordId).insert "author" ⟨0⟩ }

def deleteBook : List (Operation Nat) :=
  [.edit authorAndBook, .track ⟨0⟩, .track ⟨1⟩, .delete ⟨1⟩, .delete ⟨0⟩]

def deleteBookCommit : Session Nat :=
  let s := Operation.runAll ({}, ∅) deleteBook
  (s.1.commit (.sql numbering false) { heap := s.2, world := 1 }).2.2

private theorem deleteBook_legal : Operation.AllLegal ({}, ∅) deleteBook :=
  ⟨.of_fresh (by decide +kernel), by decide +kernel, by decide +kernel, by decide +kernel,
    by decide +kernel, trivial⟩

/-- The row of the author is deleted before that of the book, since it is the type of the author
that precedes the other one. -/
theorem commit_deletes_in_order_book :
    (deletionLog deleteBookCommit.trace).length = 2 ∧ ∀ (i j : Nat) (st st' : Statement),
      (deletionLog deleteBookCommit.trace)[i]? = some ([⟨0⟩], st) →
        (deletionLog deleteBookCommit.trace)[j]? = some ([⟨1⟩], st') → i ≤ j := by
  have hw : (Transaction.sql numbering false).WritesBy numbering fun _ => false :=
    Transaction.sql_writesBy fun _ => rfl
  refine ⟨by decide +kernel, fun i j st st' hi hj => ?_⟩
  exact commit_deletes_in_order deleteBook_legal hw i j _ _ st st' ⟨0⟩ ⟨1⟩ hi hj
    List.mem_cons_self List.mem_cons_self (.inl (by decide +kernel))

/-- Some commit deletes the row of a record after that of a record that it refers to. -/
theorem not_commit_deletes_in_order :
    ¬ ∀ (ops : List (Operation Nat)) (tx : Transaction Nat) (conn : String → Connection Nat)
        (world : Nat) (store : String), Operation.AllLegal ({}, ∅) ops →
      (tx.WritesBy conn fun _ => false) → tx.Willing → (∀ store, (conn store).AnswersAll) →
        let s := Operation.runAll ({}, ∅) ops
        let c := (s.1.commit tx { heap := s.2, world }).2.2
        let rs := s.1.deleteBatches.flatMap (·.records)
        (∀ r ∈ rs, (s.2.get r).type.store = store) →
          (∀ r, ¬ Relation.TransGen (fun r t => r ∈ rs ∧ t ∈ s.2.targets r) r r) →
            ∀ (i j : Nat) (es es' : List RecordId) (st st' : Statement) (r t : RecordId),
              (deletionLog c.trace)[i]? = some (es, st) → r ∈ es →
                (∀ key ∈ c.heap.primaryKey? r, st.DeletesRow key) →
              (deletionLog c.trace)[j]? = some (es', st') → t ∈ es' →
                (∀ key ∈ c.heap.primaryKey? t, st'.DeletesRow key) →
              t ∈ s.2.targets r → i ≤ j := by
  intro hall
  have hw : (Transaction.sql numbering false).WritesBy numbering fun _ => false :=
    Transaction.sql_writesBy fun _ => rfl
  have hauthor : deleteBookCommit.heap.primaryKey? ⟨0⟩ = some ⟨[.int64 1]⟩ := by decide +kernel
  have hbook : deleteBookCommit.heap.primaryKey? ⟨1⟩ = some ⟨[.int64 2]⟩ := by decide +kernel
  have hlate := hall deleteBook _ _ 1 "main" deleteBook_legal hw ⟨fun _ => rfl, fun _ _ => rfl⟩
    (fun _ => ⟨fun _ _ _ => rfl, fun _ _ _ => rfl⟩) (by decide +kernel)
    (Heap.acyclic_of_index_lt (by decide +kernel) fun _ _ hrt => hrt) 1 0 [⟨1⟩] [⟨0⟩]
    (.deleteAny "book" "id" [.bigInt 2]) (.deleteAny "author" "id" [.bigInt 1]) ⟨1⟩ ⟨0⟩
    (by decide +kernel) List.mem_cons_self
    (fun key hkey => ⟨.bigInt 2, List.mem_cons_self, by
      obtain rfl : ⟨[.int64 2]⟩ = key := Option.some.inj (hbook.symm.trans hkey)
      rfl⟩)
    (by decide +kernel) List.mem_cons_self
    (fun key hkey => ⟨.bigInt 1, List.mem_cons_self, by
      obtain rfl : ⟨[.int64 1]⟩ = key := Option.some.inj (hauthor.symm.trans hkey)
      rfl⟩)
    (by decide +kernel)
  exact absurd hlate (by decide)

end UnitOfWork
