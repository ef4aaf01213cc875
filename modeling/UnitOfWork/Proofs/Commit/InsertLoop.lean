import Mathlib.Logic.Relation
import UnitOfWork.Proofs.Commit.InsertCycles
import UnitOfWork.Proofs.Commit.SqlWriter

/-!
# The end of the inserts

The rounds of inserts go on until nothing is left, or until a round has left as many records as it
was given; how many rounds that may take is not limited. They come to an end all the same, whatever
the records look like and whatever the stores answer: a batch leaves some of its own records, so
that every round after which the inserts go on has fewer to insert.
-/

namespace UnitOfWork

variable {σ ρ : Type}

/-- How many records the buckets hold as new. -/
def Workspace.newCount (w : Workspace) : Nat :=
  total (KeyKind.all.map fun kind =>
    total ((w.registry kind).buckets.values.map (·.new.toList.length)))

private theorem total_cons (n : Nat) (ns : List Nat) : total (n :: ns) = n + total ns := rfl

private theorem recordCount_append (bs bs' : List Batch) :
    recordCount (bs ++ bs') = recordCount bs + recordCount bs' := by
  rw [recordCount, List.flatMap_append, List.length_append, recordCount, recordCount]

private theorem Registry.recordCount_batches {kind : KeyKind} (g : Registry kind)
    (select : Bucket → List RecordId) :
    recordCount (g.batches select) = total (g.buckets.values.map fun b => (select b).length) := by
  rw [batches]
  induction g.buckets.values with
  | nil => rfl
  | cons b bs ih =>
    rw [List.filterMap_cons, List.map_cons, total_cons, ← ih]
    cases select b with
    | nil => exact (Nat.zero_add _).symm
    | cons r rs => exact List.length_append

private theorem Workspace.recordCount_insertBatches (w : Workspace) :
    recordCount w.insertBatches = w.newCount := by
  rw [newCount, insertBatches]
  induction KeyKind.all with
  | nil => rfl
  | cons kind kinds ih =>
    rw [List.flatMap_cons, recordCount_append, ih, List.map_cons, total_cons]
    congr 1
    exact (w.registry kind).recordCount_batches _

/-- Where the inserts stand between two rounds. -/
structure InsertLoop (σ : Type) where
  summary : Summary
  pending : List Batch
  fixUps : List Batch := []
  run : Run σ

namespace InsertLoop

def start (w : Workspace) (run : Run σ) : InsertLoop σ :=
  { summary := {}, pending := w.insertBatches, run }

/-- What a round leaves is to be inserted by the next one. -/
def next (l : InsertLoop σ) (results : RoundResults) (run : Run σ) : InsertLoop σ where
  summary := { l.summary with
    rounds := l.summary.rounds + 1
    inserted := l.summary.inserted + (recordCount l.pending - recordCount results.retries) }
  pending := results.retries
  fixUps := l.fixUps ++ results.fixUps
  run

end InsertLoop

namespace Transaction

variable (tx : Transaction σ ρ)

/-- A round is made, and it does not leave as many records as it was given. -/
inductive Continues (l : InsertLoop σ) : InsertLoop σ → Prop
  | round {results : RoundResults} {run : Run σ} : l.pending ≠ [] →
    tx.insertRound l.pending l.run = .ok results run →
    recordCount results.retries ≠ recordCount l.pending → Continues l (l.next results run)

/-- The inserts end here: nothing is left, or the round that is begun is the last one. The number
is that of all the rounds that were begun. -/
inductive Ends (l : InsertLoop σ) :
    Nat → EStateM.Result (Halt ρ) (Run σ) (Summary × List Batch) → Prop
  | done : l.pending = [] → Ends l l.summary.rounds (.ok (l.summary, l.fixUps) l.run)
  | stuck {results : RoundResults} {run : Run σ} : l.pending ≠ [] →
    tx.insertRound l.pending l.run = .ok results run →
    recordCount results.retries = recordCount l.pending →
    Ends l (l.summary.rounds + 1)
      (.error (.failed (.unresolvedDependencies (l.summary.rounds + 1)
        (results.retries.flatMap fun b => b.records.map run.session.heap.describe))) run)
  | stopped {halt : Halt ρ} {run : Run σ} : l.pending ≠ [] →
    tx.insertRound l.pending l.run = .error halt run →
    Ends l (l.summary.rounds + 1) (.error halt run)

end Transaction

/-- Batches have been handed over since `s`, and none of them was empty. -/
def Session.HandsOver (s s' : Session σ) : Prop :=
  ∃ events, s'.trace = s.trace ++ events ∧
    ∀ type records, Event.insert type records ∈ events → records ≠ []

namespace Session.HandsOver

variable {s s' s'' : Session σ}

theorem refl (s : Session σ) : s.HandsOver s :=
  ⟨[], (List.append_nil _).symm, fun _ _ h => absurd h List.not_mem_nil⟩

theorem snoc (a : s.HandsOver s') {e : Event} (ht : s''.trace = s'.trace ++ [e])
    (he : ∀ type records, e = .insert type records → records ≠ []) : s.HandsOver s'' := by
  obtain ⟨events, htrace, hfull⟩ := a
  refine ⟨events ++ [e], by rw [ht, htrace, List.append_assoc], ?_⟩
  intro type records hm
  rcases List.mem_append.mp hm with hm | hm
  · exact hfull type records hm
  · exact he type records (List.mem_singleton.mp hm).symm

end Session.HandsOver

namespace Transaction

variable {tx : Transaction σ ρ} {conn : String → Connection σ ρ} {deferrable : String → Bool}

private theorem WritesBy.insert_leaves (hw : tx.WritesBy conn deferrable) (t : RecordType)
    (rs : List RecordId) (s : Session σ) :
    Triple s.HandsOver ((tx.writer t.store).insert t rs)
      (fun results s' => results.retries.Sublist rs ∧ s.HandsOver s') fun _ => s.HandsOver := by
  rw [hw.writer]
  have hkeeps : Preserves s.HandsOver
      ((Writer.sql (conn t.store) (deferrable t.store)).insert t rs) := by
    apply Writer.sql_insert_preserves
    intro t' r st s₁ s₂ _ a hs
    apply hs.snoc a.trace
    intro type records he
    rw [Connection.insertEvent] at he
    split at he <;> cases he
  have hleaves : Triple (fun _ => True)
      ((Writer.sql (conn t.store) (deferrable t.store)).insert t rs)
      (fun results _ => results.retries.Sublist rs) fun _ _ => True := by
    apply Triple.bind (R := fun plan _ => plan.retries.Sublist rs)
    · apply Triple.reading
      · intro s' plan _ hplan
        exact Heap.retries_sublist hplan
      · intro s' e _ _
        trivial
    · intro plan
      apply (Triple.fixed (plan.inserts.forM ((conn t.store).insertOne t))).bind
      intro _
      exact Triple.pure fun _ h => h
  exact (hleaves.and hkeeps).conseq (fun _ hs => ⟨trivial, hs⟩) (fun _ _ h => h) fun _ _ h => h.2

/-- A round hands over no batch that is empty, leaves none, and leaves no record that it was not
given. -/
theorem WritesBy.insertRound_leaves (hw : tx.WritesBy conn deferrable) {bs : List Batch}
    (hbs : ∀ b ∈ bs, b.records ≠ []) (s : Session σ) :
    Triple (fun run => s.HandsOver run.session) (tx.insertRound bs)
      (fun results run => (recordsOf results.retries).Sublist (recordsOf bs) ∧
        (∀ b ∈ results.retries, b.records ≠ []) ∧ s.HandsOver run.session)
      fun _ run => s.HandsOver run.session := by
  induction bs with
  | nil =>
    apply Triple.pure
    intro run hrun
    exact ⟨.refl _, fun _ hb => absurd hb List.not_mem_nil, hrun⟩
  | cons b bs ih =>
    obtain ⟨hb, hrest⟩ := List.forall_mem_cons.mp hbs
    rw [insertRound]
    have hinsert : ∀ type records,
        Event.insert b.type.name b.records = .insert type records → records ≠ [] := by
      intro type records he
      cases he
      exact hb
    have hwriting := writing_spec (x := (·.insert b.type b.records)) s.HandsOver
      (fun s' hs => hs.snoc rfl (by intro _ _ he; cases he))
      (fun s' hs => hs.snoc rfl hinsert)
      (fun s' reason hs _ => hs) (fun s' e hs _ => hs.snoc rfl (by intro _ _ he; cases he))
      (hw.insert_leaves b.type b.records s)
    apply hwriting.bind
    intro results
    apply Triple.of_starting
    intro run hrun
    obtain ⟨hretries, hover⟩ := hrun
    apply ((ih hrest).starting hover).bind
    intro rest
    apply Triple.pure
    intro run' hrun'
    obtain ⟨hsub, hfull, hover'⟩ := hrun'
    refine ⟨?_, ?_, hover'⟩
    · rw [recordsOf_append, recordsOf_only]
      exact hretries.append hsub
    · intro b' hb'
      rcases List.mem_append.mp hb' with hb' | hb'
      · obtain ⟨hne, rfl⟩ := Batch.mem_only.mp hb'
        exact hne
      · exact hfull b' hb'

end Transaction

namespace InsertLoop

variable {tx : Transaction σ ρ} {conn : String → Connection σ ρ} {deferrable : String → Bool}
  {l l' : InsertLoop σ}

/-- What the inserts come to from here on, if they begin with what is known by now. -/
def rest (tx : Transaction σ ρ) (l : InsertLoop σ) :
    EStateM.Result (Halt ρ) (Run σ) (Summary × List Batch) :=
  (do
    let result ← tx.insertAll l.summary l.pending
    return (result.1, l.fixUps ++ result.2) : Leasing σ ρ (Summary × List Batch)) l.run

private theorem rest_nil (hl : l.pending = []) : l.rest tx = .ok (l.summary, l.fixUps) l.run := by
  rw [rest, hl, Transaction.insertAll]
  change EStateM.Result.ok (l.summary, l.fixUps ++ []) l.run = _
  rw [List.append_nil]

private theorem rest_of_error (hl : l.pending ≠ []) {halt : Halt ρ} {run : Run σ}
    (hround : tx.insertRound l.pending l.run = .error halt run) :
    l.rest tx = .error halt run := by
  rw [rest, Transaction.insertAll, if_neg (by rwa [List.isEmpty_iff])]
  change EStateM.bind (EStateM.bind (tx.insertRound l.pending) _) _ l.run = _
  simp only [EStateM.bind, hround]

private theorem rest_of_ok (hl : l.pending ≠ []) {results : RoundResults} {run : Run σ}
    (hround : tx.insertRound l.pending l.run = .ok results run) :
    l.rest tx =
      if recordCount results.retries < recordCount l.pending then (l.next results run).rest tx
      else .error (.failed (.unresolvedDependencies (l.summary.rounds + 1)
        (results.retries.flatMap fun b => b.records.map run.session.heap.describe))) run := by
  rw [rest, Transaction.insertAll, if_neg (by rwa [List.isEmpty_iff])]
  change EStateM.bind (EStateM.bind (tx.insertRound l.pending) _) _ l.run = _
  simp only [EStateM.bind, hround]
  by_cases hlt : recordCount results.retries < recordCount l.pending
  · rw [if_pos hlt, if_pos hlt, rest]
    change EStateM.bind (EStateM.bind
        (tx.insertAll (l.next results run).summary results.retries) _) _ run =
      EStateM.bind (tx.insertAll (l.next results run).summary results.retries) _ run
    simp only [EStateM.bind]
    cases tx.insertAll (l.next results run).summary results.retries run with
    | ok result run' =>
      change EStateM.Result.ok (result.1, l.fixUps ++ (results.fixUps ++ result.2)) run' =
        .ok (result.1, (l.fixUps ++ results.fixUps) ++ result.2) run'
      rw [List.append_assoc]
    | error halt run' => rfl
  · rw [if_neg hlt, if_neg hlt]
    rfl

/-- What holds between two rounds of the inserts of `total` records, begun in the session `s`. -/
structure Stands (l : InsertLoop σ) (s : Session σ) (total : Nat) : Prop where
  balance : l.summary.inserted + recordCount l.pending = total
  rounds : l.summary.rounds ≤ l.summary.inserted
  full : ∀ b ∈ l.pending, b.records ≠ []
  handsOver : s.HandsOver l.run.session

variable {s : Session σ} {total : Nat}

private theorem stands_start (w : Workspace) (run : Run σ) :
    (start w run).Stands run.session w.newCount where
  balance := (Nat.zero_add _).trans w.recordCount_insertBatches
  rounds := Nat.le_refl 0
  full b hb := by
    obtain ⟨kind, hb⟩ := Workspace.mem_insertBatches.mp hb
    exact (Registry.mem_batches.mp hb).1
  handsOver := .refl _

private theorem Stands.rounds_lt (hl : l.Stands s total) (hpending : l.pending ≠ []) :
    l.summary.rounds < total := by
  obtain ⟨b, hb⟩ := List.exists_mem_of_ne_nil _ hpending
  obtain ⟨r, hr⟩ := List.exists_mem_of_ne_nil _ (hl.full b hb)
  have hpos : 0 < recordCount l.pending := by
    rw [recordCount_eq]
    exact List.length_pos_of_mem (List.mem_flatMap.mpr ⟨b, hb, hr⟩)
  have hbalance := hl.balance
  have hrounds := hl.rounds
  omega

/-- A round leaves no more records than it was given. -/
theorem Stands.retries_le (hw : tx.WritesBy conn deferrable) (hl : l.Stands s total)
    {results : RoundResults} {run : Run σ}
    (hround : tx.insertRound l.pending l.run = .ok results run) :
    recordCount results.retries ≤ recordCount l.pending := by
  have hleaves := (hw.insertRound_leaves hl.full s).ok hl.handsOver hround
  rw [recordCount_eq, recordCount_eq]
  exact hleaves.1.length_le

private theorem Stands.continues (hw : tx.WritesBy conn deferrable) (hl : l.Stands s total)
    (h : tx.Continues l l') : l'.Stands s total := by
  cases h with
  | @round results run hpending hround hne =>
    obtain ⟨-, hfull, hover⟩ := (hw.insertRound_leaves hl.full s).ok hl.handsOver hround
    have hle := hl.retries_le hw hround
    have hbalance := hl.balance
    have hrounds := hl.rounds
    refine ⟨?_, ?_, hfull, hover⟩
    · simp only [next]
      omega
    · simp only [next]
      omega

private theorem Stands.reaches (hw : tx.WritesBy conn deferrable) (hl : l.Stands s total)
    (h : Relation.ReflTransGen tx.Continues l l') : l'.Stands s total := by
  induction h with
  | refl => exact hl
  | tail _ hstep ih => exact ih.continues hw hstep

/-- The inserts come to an end, with the result that the program gives. -/
theorem Stands.exists_ends (hw : tx.WritesBy conn deferrable) (hl : l.Stands s total) :
    ∃ last rounds, Relation.ReflTransGen tx.Continues l last ∧ tx.Ends last rounds (l.rest tx) ∧
      rounds ≤ total ∧ s.HandsOver (endState (l.rest tx)).session := by
  induction hn : recordCount l.pending using Nat.strongRecOn generalizing l with
  | _ n ih =>
    by_cases hpending : l.pending = []
    · rw [rest_nil hpending]
      have hbalance := hl.balance
      have hrounds := hl.rounds
      exact ⟨l, _, .refl, .done hpending, by omega, hl.handsOver⟩
    · have hspec := hw.insertRound_leaves hl.full s l.run hl.handsOver
      cases hround : tx.insertRound l.pending l.run with
      | error halt run =>
        rw [hround] at hspec
        rw [rest_of_error hpending hround]
        exact ⟨l, _, .refl, .stopped hpending hround, hl.rounds_lt hpending, hspec⟩
      | ok results run =>
        rw [hround] at hspec
        rw [rest_of_ok hpending hround]
        have hle := hl.retries_le hw hround
        split
        · next hlt =>
          have hstep : tx.Continues l (l.next results run) := .round hpending hround hlt.ne
          obtain ⟨last, rounds, hreach, hends⟩ := ih _ (hn ▸ hlt) (hl.continues hw hstep) rfl
          exact ⟨last, rounds, .head hstep hreach, hends⟩
        · next hnot =>
          have hsame := Nat.le_antisymm hle (Nat.le_of_not_lt hnot)
          exact ⟨l, _, .refl, .stuck hpending hround hsame, hl.rounds_lt hpending, hspec.2.2⟩

end InsertLoop

namespace Transaction

variable {tx : Transaction σ ρ} {conn : String → Connection σ ρ} {deferrable : String → Bool}

/-- The inserts of a workspace come to an end in any state and whatever the stores answer, after no
more rounds than there are new records. Between two rounds the records that are inserted and those
that are left are all of them; a round leaves no more than it was given, and no batch that is handed
over is empty. -/
theorem WritesBy.insertAll_ends (hw : tx.WritesBy conn deferrable) (w : Workspace) (run : Run σ) :
    (∃ last rounds, Relation.ReflTransGen tx.Continues (.start w run) last ∧
        tx.Ends last rounds (tx.insertAll {} w.insertBatches run) ∧ rounds ≤ w.newCount) ∧
      (∀ l, Relation.ReflTransGen tx.Continues (.start w run) l →
        l.summary.inserted + recordCount l.pending = w.newCount ∧
        l.summary.rounds ≤ w.newCount ∧ (∀ b ∈ l.pending, b.records ≠ []) ∧
        ∀ results run', tx.insertRound l.pending l.run = .ok results run' →
          recordCount results.retries ≤ recordCount l.pending) ∧
      run.session.HandsOver (endState (tx.insertAll {} w.insertBatches run)).session := by
  have hstart := InsertLoop.stands_start w run
  obtain ⟨last, rounds, hreach, hends, hrounds, hover⟩ := hstart.exists_ends hw
  have hrest : (InsertLoop.start w run).rest tx = tx.insertAll {} w.insertBatches run := by
    rw [InsertLoop.rest, InsertLoop.start]
    simp
  rw [hrest] at hends hover
  refine ⟨⟨last, rounds, hreach, hends, hrounds⟩, ?_, hover⟩
  intro l hl
  have hstands := hstart.reaches hw hl
  have hbalance := hstands.balance
  have hle := hstands.rounds
  refine ⟨hbalance, by omega, hstands.full, ?_⟩
  intro results run' hround
  exact hstands.retries_le hw hround

/-- Two records that are inserted in two rounds, or stopped before. -/
theorem insertAll_ends_family :
    (sql numbering false).WritesBy numbering (fun _ => false) ∧ tracked.1.newCount = 2 ∧
      ∃ last rounds, Relation.ReflTransGen (sql numbering false).Continues
          (.start tracked.1 { session := { heap := tracked.2, world := 1 } }) last ∧
        (sql numbering false).Ends last rounds ((sql numbering false).insertAll {}
          tracked.1.insertBatches { session := { heap := tracked.2, world := 1 } }) ∧
        rounds ≤ 2 := by
  have hw : (sql numbering false).WritesBy numbering fun _ => false := sql_writesBy fun _ => rfl
  have hcount : tracked.1.newCount = 2 := by decide +kernel
  have hends := (hw.insertAll_ends tracked.1 { session := { heap := tracked.2, world := 1 } }).1
  rw [hcount] at hends
  exact ⟨hw, hcount, hends⟩

end Transaction

end UnitOfWork
