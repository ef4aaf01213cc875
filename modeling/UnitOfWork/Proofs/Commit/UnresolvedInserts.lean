import UnitOfWork.Proofs.Commit.InsertAccounts
import UnitOfWork.Proofs.Commit.InsertCycles
import UnitOfWork.Proofs.Commit.StoppingErrors
import UnitOfWork.Proofs.Tracking.Readiness
import UnitOfWork.Proofs.Tracking.Standing

/-!
# Inserts that cannot be resolved

A round of inserts that inserts nothing has left records each of which waits for another one of
them, if whatever they wait for is among the records to be inserted. This is so when all that is
referred to stands for itself; a record that was folded into another one is waited for in vain.
-/

namespace UnitOfWork

namespace Heap

variable {h h' : Heap} {R S : List RecordId}

/-- The pending ones of the records `R` are among those that are still to be inserted. -/
def Covers (h : Heap) (R todo : List RecordId) : Prop := ∀ t ∈ R, h.isPending t → t ∈ todo

/-- The records `R` wait for each other only. -/
def IsClosed (h : Heap) (R : List RecordId) : Prop :=
  ∀ r ∈ R, ∀ t ∈ h.targets r, t ≠ r → h.isPending t → t ∈ R

private theorem isPending_isNew {t : RecordId} (ht : h.isPending t) : (h.get t).isNew := by
  rw [Heap.isPending, Record.isPending, Bool.and_eq_true] at ht
  exact ht.1

private theorem Keeps.isPending (a : h.Keeps h') {t : RecordId} (ht : h'.isPending t) :
    h.isPending t := by
  obtain ⟨hn, hi⟩ : (h'.get t).isNew ∧ (h'.get t).inserted = false := by
    simpa [Heap.isPending, Record.isPending] using ht
  rw [a.isNew] at hn
  have hold : (h.get t).inserted = false := Bool.eq_false_iff.mpr fun h => by
    simp [a.inserted t h] at hi
  simp [Heap.isPending, Record.isPending, hn, hold]

private theorem Covers.keeps (hc : h.Covers R S) (a : h.Keeps h') : h'.Covers R S :=
  fun t ht hp => hc t ht (a.isPending hp)

private theorem not_isPending_of_inserted {t : RecordId} (hi : (h.get t).inserted) :
    h.isPending t = false := by
  simp [Heap.isPending, Record.isPending, hi]

private theorem IsClosed.exists_refersIn {h₁ : Heap} (hR : h₁.IsClosed R) (a : h₁.Keeps h)
    (hc : h.Covers R S) {r : RecordId} (hr : r ∈ R) (hnot : h.canInsert false r = false) :
    ∃ t ∈ S, h₁.RefersIn R r t := by
  rw [canInsert_false, Bool.not_eq_false'] at hnot
  obtain ⟨t, ht, hcond⟩ := List.any_eq_true.mp hnot
  obtain ⟨hne, hpending⟩ : t ≠ r ∧ h.isPending t := by simpa using hcond
  rw [a.targets] at ht
  have htR := hR r hr t ht hne (a.isPending hpending)
  exact ⟨t, hc t htR hpending, ⟨hr, htR⟩, hne, ht⟩

end Heap

/-- What a batch or a round has left of the records `rs`, since the records were `h`: whatever is
pending is left, and what is left waits for one of the records `S`. -/
structure LeavesWaiting (h₁ h : Heap) (R S rs left : List RecordId) (h' : Heap) : Prop where
  keeps : h.Keeps h'
  sublist : left.Sublist rs
  waits : ∀ r ∈ left, ∃ t ∈ S, h₁.RefersIn R r t
  pending : ∀ t ∈ rs, h'.isPending t → t ∈ left

theorem LeavesWaiting.append {h₁ h h' h'' : Heap} {R S rs rs' left left' : List RecordId}
    (a : LeavesWaiting h₁ h R S rs left h') (b : LeavesWaiting h₁ h' R S rs' left' h'') :
    LeavesWaiting h₁ h R S (rs ++ rs') (left ++ left') h'' where
  keeps := a.keeps.trans b.keeps
  sublist := a.sublist.append b.sublist
  waits r hr := (List.mem_append.mp hr).elim (a.waits r) (b.waits r)
  pending t ht hp := List.mem_append.mpr <| (List.mem_append.mp ht).imp
    (fun hm => a.pending t hm (b.keeps.isPending hp)) fun hm => b.pending t hm hp

namespace Transaction

variable {σ ρ : Type} {tx : Transaction σ ρ} {conn : String → Connection σ ρ} {h₁ : Heap}
  {R S : List RecordId}

private theorem insertPlanned_inserted {c : Connection σ ρ} (t : RecordType)
    (plan : List PlannedInsert) (s : Session σ) :
    Triple (· = s) (plan.forM (c.insertOne t))
      (fun _ s' => s.heap.Keeps s'.heap ∧ ∀ p ∈ plan, (s'.heap.get p.record).inserted)
      fun _ _ => True := by
  have hwalk := Triple.forM (E := fun _ _ => True) (f := c.insertOne t)
    (I := fun rest s' => s.heap.Keeps s'.heap ∧
      ∀ p ∈ plan, p ∈ rest ∨ (s'.heap.get p.record).inserted)
    plan fun p rest => Triple.of_starting fun s' hs' => by
      obtain ⟨hkeeps, hdone⟩ := hs'
      refine (c.insertOne_spec t p s').conseq (fun _ h => h) ?_ fun _ _ _ => trivial
      rintro _ s'' ⟨st, hinserts, hgives⟩
      refine ⟨hkeeps.trans hinserts.heap.keeps, fun q hq => ?_⟩
      rcases hdone q hq with hm | hi
      · rcases List.mem_cons.mp hm with rfl | hm
        · exact .inr hgives.inserted
        · exact .inl hm
      · exact .inr (hinserts.heap.keeps.inserted q.record hi)
  refine (hwalk.starting ⟨.refl _, fun p hp => .inl hp⟩).conseq (fun _ h => h) ?_ fun _ _ h => h
  rintro _ s' ⟨hkeeps, hdone⟩
  exact ⟨hkeeps, fun p hp => (hdone p hp).resolve_left List.not_mem_nil⟩

private theorem WritesBy.insert_waiting (hw : tx.WritesBy conn fun _ => false) (hR : h₁.IsClosed R)
    (t : RecordType) {rs : List RecordId} (hrs : ∀ r ∈ rs, r ∈ R) {s : Session σ}
    (a : h₁.Keeps s.heap) (hc : s.heap.Covers R S) :
    Triple (· = s) ((tx.writer t.store).insert t rs)
      (fun results s' => LeavesWaiting h₁ s.heap R S rs results.retries s'.heap)
      fun _ _ => True := by
  rw [hw.writer]
  refine Triple.bind (R := fun plan s' => s' = s ∧ s.heap.planInserts false rs = .ok plan)
    (Triple.reading (fun _ plan hs hp => ⟨hs, hs ▸ hp⟩) fun _ _ _ _ => trivial) fun plan =>
    Triple.assuming fun hplan => ?_
  obtain ⟨-, hretries⟩ := Heap.planInserts_ok hplan
  refine (insertPlanned_inserted t plan.inserts s).bind fun _ => Triple.pure ?_
  rintro s' ⟨hkeeps, hdone⟩
  refine ⟨hkeeps, ?_, fun r hr => ?_, fun q hq hp => ?_⟩
  · exact Heap.retries_sublist hplan
  · change r ∈ plan.retries at hr
    rw [hretries] at hr
    obtain ⟨hmem, hcond⟩ := List.mem_filter.mp hr
    simp only [decide_eq_true_eq, Bool.not_eq_true] at hcond
    exact hR.exists_refersIn a hc (hrs r hmem) hcond.2
  · have hold : (s.heap.get q).isNew := Heap.isPending_isNew (hkeeps.isPending hp)
    refine (Heap.mem_planInserts hplan hq hold).resolve_left fun hm => ?_
    obtain ⟨p, hpm, rfl⟩ := List.mem_map.mp hm
    rw [Heap.not_isPending_of_inserted (hdone p hpm)] at hp
    cases hp

private theorem WritesBy.insertRound_waiting (hw : tx.WritesBy conn fun _ => false)
    (hR : h₁.IsClosed R) {bs : List Batch} (hbs : ∀ r ∈ recordsOf bs, r ∈ R) {run : Run σ}
    (a : h₁.Keeps run.session.heap) (hc : run.session.heap.Covers R S) :
    Triple (· = run) (tx.insertRound bs)
      (fun results run' => LeavesWaiting h₁ run.session.heap R S (recordsOf bs)
          (recordsOf results.retries) run'.session.heap ∧ ∀ b ∈ results.retries, b.records ≠ [])
      fun _ _ => True := by
  induction bs generalizing run with
  | nil =>
    refine Triple.pure ?_
    rintro _ rfl
    exact ⟨⟨.refl _, .refl _, fun _ hr => absurd hr List.not_mem_nil, fun _ ht _ => ht⟩,
      fun _ hb => absurd hb List.not_mem_nil⟩
  | cons b bs ih =>
    have hrecords : recordsOf (b :: bs) = b.records ++ recordsOf bs := rfl
    rw [hrecords] at hbs
    have hb : ∀ r ∈ b.records, r ∈ R := fun r hr => hbs r (List.mem_append_left _ hr)
    have hinsert : Triple (fun s : Session σ => s.heap = run.session.heap)
        ((tx.writer b.type.store).insert b.type b.records)
        (fun results s' => LeavesWaiting h₁ run.session.heap R S b.records results.retries s'.heap)
        fun _ _ => True := Triple.of_starting fun s hs => by
      rw [← hs] at a hc ⊢
      exact hw.insert_waiting hR b.type hb a hc
    rw [insertRound]
    refine ((writing_triple (P := fun s : Session σ => s.heap = run.session.heap)
      (e := .insert b.type.name b.records) (x := (·.insert b.type b.records))
      (steady_heap (P := (· = run.session.heap))) (fun s => .insert _ _)
      (fun _ _ _ _ => trivial) hinsert).starting (s := run) rfl).bind
      fun results => Triple.of_starting fun run₁ hfirst => ?_
    refine (ih (fun r hr => hbs r (List.mem_append_right _ hr)) (a.trans hfirst.keeps)
      (hc.keeps hfirst.keeps)).bind fun rest => Triple.pure ?_
    rintro run' ⟨hrest, hfull⟩
    refine ⟨?_, fun b' hb' => ?_⟩
    · dsimp only
      rw [recordsOf_append, recordsOf_only]
      exact hfirst.append hrest
    · rcases List.mem_append.mp hb' with hb' | hb'
      · obtain ⟨hne, rfl⟩ := Batch.mem_only.mp hb'
        exact hne
      · exact hfull b' hb'

/-- Without a cycle of references among the records to be inserted the rounds do not end with a
record that waits, as long as these records wait for each other only. -/
theorem WritesBy.insertAll_resolved (hw : tx.WritesBy conn fun _ => false)
    (hleases : tx.LeasesResolved) (hanswers : ∀ store, (conn store).AnswersAll) (hR : h₁.IsClosed R)
    (hacyclic : ∀ r, ¬ Relation.TransGen (h₁.RefersIn R) r r) (summary : Summary)
    {bs : List Batch} (hbs : ∀ r ∈ recordsOf bs, r ∈ R) (hfull : ∀ b ∈ bs, b.records ≠ []) :
    Triple (fun run => h₁.Keeps run.session.heap ∧ run.session.heap.Covers R (recordsOf bs))
      (tx.insertAll summary bs) (fun _ _ => True) fun halt _ => halt.isUnresolved = false := by
  induction hn : recordCount bs using Nat.strongRecOn generalizing summary bs with
  | _ n ih =>
    rw [insertAll]
    split
    · exact Triple.pure fun _ _ => trivial
    · next hempty =>
      refine Triple.of_starting fun run hrun => ?_
      obtain ⟨a, hc⟩ := hrun
      have hround := ((hw.insertRound_waiting hR hbs a hc).and
        (hw.insertRound_never hleases hanswers bs)).conseq (fun _ h => ⟨h, trivial⟩)
        (fun _ _ h => h.1) fun _ _ h => h.2
      refine Triple.bind hround fun results => Triple.of_starting fun run₁ hrun₁ => ?_
      obtain ⟨hleft, hfull'⟩ := hrun₁
      split
      · next hlt =>
        have hbs' : ∀ r ∈ recordsOf results.retries, r ∈ R :=
          fun r hr => hbs r (hleft.sublist.subset hr)
        refine ((ih _ (hn ▸ hlt) _ hbs' hfull' rfl).starting
          ⟨a.trans hleft.keeps, fun t ht hp => ?_⟩).bind fun _ => Triple.pure fun _ _ => trivial
        exact hleft.pending t (hc t ht (hleft.keeps.isPending hp)) hp
      · next hnot =>
        -- The round has inserted nothing, so that each record waits for another one of the round.
        exfalso
        rw [recordCount_eq, recordCount_eq] at hnot
        have hsame := hleft.sublist.eq_of_length_le (Nat.le_of_not_lt hnot)
        have hwaits := hleft.waits
        rw [hsame] at hwaits
        obtain ⟨b, hb⟩ := List.exists_mem_of_ne_nil bs fun h => hempty (by rw [h]; rfl)
        obtain ⟨r, hr⟩ := List.exists_mem_of_ne_nil b.records (hfull b hb)
        obtain ⟨c, -, hcycle⟩ := reachesCycle_of_successors hwaits
          (List.mem_flatMap.mpr ⟨b, hb, hr⟩)
        exact hacyclic c hcycle

private theorem WritesBy.writeAll_resolved (hw : tx.WritesBy conn fun _ => false)
    (hleases : tx.LeasesResolved) (hanswers : ∀ store, (conn store).AnswersAll) {w : Workspace}
    (hclosed : h₁.IsClosed w.newRecords)
    (hacyclic : ∀ r, ¬ Relation.TransGen (h₁.RefersIn w.newRecords) r r) :
    Triple (fun run => run.session.heap = h₁) (tx.writeAll w) (fun _ _ => True)
      fun halt _ => halt.isUnresolved = false := by
  have hfull : ∀ b ∈ w.insertBatches, b.records ≠ [] := by
    intro b hb
    obtain ⟨kind, -, hb⟩ := List.mem_flatMap.mp hb
    exact (Registry.mem_batches.mp hb).1
  have hinserts : Triple (fun run => run.session.heap = h₁) (tx.insertAll {} w.insertBatches)
      (fun _ _ => True) fun halt _ => halt.isUnresolved = false :=
    (hw.insertAll_resolved hleases hanswers hclosed hacyclic {} (fun r hr => hr) hfull).conseq
      (fun run hrun => ⟨hrun ▸ .refl h₁, fun t ht _ => ht⟩) (fun _ _ h => h) fun _ _ h => h
  have hupdates (bs : List Batch) : Never Halt.isUnresolved (bs.mapM tx.updateBatch) :=
    .mapM (hw.updateBatch_never hleases hanswers) bs
  rw [writeAll]
  refine hinserts.bind fun result => (hupdates _).bind fun _ => ?_
  refine Triple.bind (x := Leasing.heap) (R := fun _ _ => True) (fun _ _ => trivial) fun h => ?_
  refine (hupdates _).bind fun _ => ?_
  exact (Never.mapM (hw.deleteBatch_never hleases hanswers) _).bind fun _ => .pure _

end Transaction

section

variable {σ ρ : Type} {tx : Transaction σ ρ} {conn : String → Connection σ ρ} {w : Workspace}
  {h : Heap}

private theorem Workspace.flush_resolved {run : Run σ} (hwrite : Triple (· = run) (tx.writeAll w)
      (fun _ _ => True) fun halt _ => halt.isUnresolved = false) {halt : Halt ρ}
    (hhalt : (w.flush tx run).1 = .error halt) : halt.isUnresolved = false := by
  have hwritten := hwrite run rfl
  rw [flush] at hhalt
  cases hres : tx.writeAll w run with
  | error halt' run' =>
    rw [hres] at hwritten hhalt
    obtain rfl := Except.error.inj hhalt
    exact hwritten
  | ok summary run' =>
    have hsettled := settle_never (w, run'.session.heap) trivial
    rw [hres] at hhalt
    cases hset : settle (w, run'.session.heap) with
    | error e s =>
      rw [hset] at hsettled
      simp only [hset] at hhalt
      obtain rfl := Except.error.inj hhalt
      exact hsettled
    | ok u s =>
      simp only [hset] at hhalt
      cases hhalt

/-- A commit does not fail by unresolved dependencies if the records that it is to insert wait for
each other only, and not in a circle. -/
theorem Workspace.commit_resolved_of_closed (hw : tx.WritesBy conn fun _ => false)
    (hleases : tx.LeasesResolved) (hanswers : ∀ store, (conn store).AnswersAll) (world : σ)
    (hready : ∀ w₁ h₁, checkReady (w, h) = .ok () (w₁, h₁) → h₁.IsClosed w₁.newRecords ∧
      ∀ r, ¬ Relation.TransGen (h₁.RefersIn w₁.newRecords) r r) {halt : Halt ρ}
    (hhalt : (w.commit tx { heap := h, world }).1 = .error halt) : halt.isUnresolved = false := by
  have hcheck := checkReady_never (w, h) trivial
  rw [commit] at hhalt
  split at hhalt
  · cases hhalt
  · cases hres : checkReady (w, h) with
    | error e s =>
      rw [hres] at hcheck hhalt
      obtain rfl := Except.error.inj hhalt
      exact hcheck
    | ok u s =>
      obtain ⟨w₁, h₁⟩ := s
      obtain ⟨hclosed, hacyclic⟩ := hready w₁ h₁ hres
      have hwrite := (hw.writeAll_resolved hleases hanswers hclosed hacyclic).starting
        (s := { session := { heap := h₁, world } }) rfl
      rw [hres] at hhalt
      dsimp only at hhalt
      split at hhalt
      · -- All is written, and at most giving back a lease fails.
        rw [Transaction.conclude] at hhalt
        split at hhalt
        · cases hhalt
        · obtain rfl := Except.error.inj hhalt
          rfl
      · next halt' w' run hflush =>
        obtain rfl := Except.error.inj hhalt
        have hresolved := flush_resolved hwrite (congrArg Prod.fst hflush)
        exact Halt.isUnresolved_withFailures hresolved _

variable {config : Config} {ops : List (Operation σ ρ)}

/-- After any history a commit over stores that check foreign keys at once and answer every
statement does not fail by unresolved dependencies, if there is no cycle of references between the
records that it is to insert, and all new records that these refer to stand for themselves. -/
theorem commit_resolved (hlegal : Operation.AllLegal ({ config }, ∅) ops)
    (hw : tx.WritesBy conn fun _ => false) (hleases : tx.LeasesResolved)
    (hanswers : ∀ store, (conn store).AnswersAll) (world : σ) :
    let s := Operation.runAll ({ config }, ∅) ops
    let checked := Operation.allMoves ({ config }, ∅) ops ++ Workspace.checkMoves s
    let s₁ := Move.runAll ({ config }, ∅) checked
    (∀ r, ¬ Relation.TransGen (s₁.2.RefersIn s₁.1.newRecords) r r) →
      (∀ r ∈ s₁.1.newRecords, ∀ t ∈ s₁.2.targets r, t ≠ r → s₁.2.isPending t →
        Move.standsAfter t ({ config }, ∅) false checked) →
      ∀ halt, (s.1.commit tx { heap := s.2, world }).1 = .error halt →
        halt.isUnresolved = false := by
  intro s checked s₁ hacyclic hstands halt hhalt
  have hs₁ : s₁ = endState (Workspace.checkReady s) := by
    rw [Workspace.endState_checkReady]
    exact (Move.runAll_append ..).trans (congrArg (Move.runAll · _) Operation.runAll_eq.symm)
  refine Workspace.commit_resolved_of_closed hw hleases hanswers world (fun w₁ h₁ hcheck => ?_)
    hhalt
  rw [hcheck] at hs₁
  rw [hs₁] at hacyclic hstands
  refine ⟨fun r hr t ht hne hp => ?_, hacyclic⟩
  exact Operation.mem_newRecords_of_standsAfter hlegal hcheck (hstands r hr t ht hne hp)
    (Heap.isPending_isNew hp)

end

/-! Two new items with the same key, the second of which is folded into the first, and a new remark
that refers to one of them. -/

/-- A type whose records refer to an item. -/
def remarkType : RecordType :=
  { itemType "remark" with
    references := [{ name := "item", column := "item_id", target := "a" }]
    sources_declared := by decide }

def remarkOn (t : RecordId) : Record :=
  { (Record.create remarkType).setSlot 0 (.int64 1) with
    references := (∅ : NameMap RecordId).insert "item" t }

/-- The two items, the remark and another item, which has a row. -/
def remarkedItems (t : RecordId) : Heap :=
  let items := ((∅ : Heap).set ⟨0⟩ Registry.newItem).set ⟨1⟩ Registry.newItem
  (items.set ⟨2⟩ (remarkOn t)).set ⟨3⟩ (changedItem "b")

def remarkItem (t : RecordId) : List (Operation Nat) :=
  [.edit (remarkedItems t), .track ⟨0⟩, .track ⟨1⟩, .track ⟨2⟩, .track ⟨3⟩]

/-- Every statement is answered, but affects no row. -/
def absent (store : String) : Connection Nat where
  store
  query _ _ n := (.ok none, n + 1)
  execute _ _ n := (.ok 0, n + 1)

private theorem absent_answersAll (store : String) : (absent store).AnswersAll :=
  ⟨fun _ _ _ => rfl, fun _ _ _ => rfl⟩

def remarkCommit (t : RecordId) : Except Halt Summary × Workspace × Session Nat :=
  let s := Operation.runAll ({}, ∅) (remarkItem t)
  s.1.commit (.sql absent false) { heap := s.2, world := 0 }

/-- The remark refers to the item that stands for both: they are inserted one after the other, and
the commit fails only as the other item turns out to have no row. -/
theorem commit_resolved_remark : ∃ halt, (remarkCommit ⟨0⟩).1 = .error halt ∧
    halt.isUnresolved = false ∧ insertedIn (remarkCommit ⟨0⟩).2.2.trace = [⟨0⟩, ⟨2⟩] := by
  have hlegal : Operation.AllLegal ({}, ∅) (remarkItem ⟨0⟩) :=
    ⟨.of_fresh (by decide +kernel), by decide +kernel, by decide +kernel, by decide +kernel,
      by decide +kernel, trivial⟩
  have hw : (Transaction.sql absent false).WritesBy absent fun _ => false :=
    Transaction.sql_writesBy fun _ => rfl
  have hwilling : (Transaction.sql absent false).Willing := ⟨fun _ => rfl, fun _ _ => rfl⟩
  have hfails : (remarkCommit ⟨0⟩).1.isOk = false := by decide +kernel
  have hresolved := commit_resolved hlegal hw hwilling.leasesResolved absent_answersAll 0
    (Heap.acyclic_of_index_lt (by decide +kernel) fun _ _ hrt => ⟨hrt.1.1, hrt.2.2⟩)
    (by decide +kernel)
  cases hcommit : (remarkCommit ⟨0⟩).1 with
  | ok summary =>
    rw [hcommit] at hfails
    cases hfails
  | error halt => exact ⟨halt, rfl, hresolved halt hcommit, by decide +kernel⟩

namespace Move

/-- Whether the record `t` is handed over in some moves without an error. -/
def handedOver (t : RecordId) (s : Workspace × Heap) : List Move → Bool
  | [] => false
  | m :: ms =>
    (match m with
    | track kind r importing => r = t &&
      (returned? (Workspace.onRegistry kind (Registry.track r importing) s)).isSome
    | _ => false) || handedOver t (m.run s) ms

end Move

/-- Some commit fails by unresolved dependencies although every record has been handed over and
there is no cycle of references. -/
theorem not_commit_resolved :
    ¬ ∀ (ops : List (Operation Nat)) (tx : Transaction Nat) (conn : String → Connection Nat)
        (world : Nat), Operation.AllLegal ({}, ∅) ops → (tx.WritesBy conn fun _ => false) →
      tx.Willing → (∀ store, (conn store).AnswersAll) →
        let s := Operation.runAll ({}, ∅) ops
        (∀ r ∈ s.2.ids, Move.handedOver r ({}, ∅) (Operation.allMoves ({}, ∅) ops)) →
          (∀ r, ¬ Relation.TransGen (fun r t => r ∈ s.2.ids ∧ t ∈ s.2.targets r) r r) →
            ∀ halt, (s.1.commit tx { heap := s.2, world }).1 = .error halt →
              halt.isUnresolved = false := by
  intro hall
  have hlegal : Operation.AllLegal ({}, ∅) (remarkItem ⟨1⟩) :=
    ⟨.of_fresh (by decide +kernel), by decide +kernel, by decide +kernel, by decide +kernel,
      by decide +kernel, trivial⟩
  have hw : (Transaction.sql absent false).WritesBy absent fun _ => false :=
    Transaction.sql_writesBy fun _ => rfl
  have hresolved := hall (remarkItem ⟨1⟩) _ _ 0 hlegal hw ⟨fun _ => rfl, fun _ _ => rfl⟩
    absent_answersAll (by decide +kernel)
    (Heap.acyclic_of_index_lt (by decide +kernel) fun _ _ hrt => hrt)
  have hunresolved : ((match (remarkCommit ⟨1⟩).1 with
    | .error halt => halt.isUnresolved
    | .ok _ => false) : Bool) = true := by decide +kernel
  change ∀ halt, (remarkCommit ⟨1⟩).1 = .error halt → halt.isUnresolved = false at hresolved
  cases hcommit : (remarkCommit ⟨1⟩).1 with
  | ok summary =>
    rw [hcommit] at hunresolved
    cases hunresolved
  | error halt =>
    rw [hcommit] at hunresolved
    exact Bool.noConfusion ((hresolved halt hcommit).symm.trans hunresolved)

end UnitOfWork
