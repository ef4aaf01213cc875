import UnitOfWork.Proofs.Commit.InsertGraph
import UnitOfWork.Proofs.Commit.InsertOrder

/-!
# Inserts that succeed

When a store takes every insert, the rounds run exactly as they are planned: they insert every new
record, unless there is a cycle of references among them.
-/

namespace UnitOfWork

namespace Record

/-- The application has given its part of the key, for a row of the type `t`. -/
def Supplies (x : Record) (t : RecordType) : Prop :=
  ∀ e ∈ t.key.zip x.slots, e.1.source = .supplied → e.2.isSome

theorem supplies_of_isCommitReady {x : Record} (hx : x.isCommitReady) : x.Supplies x.type := by
  intro e he hs
  obtain ⟨c, slot⟩ := e
  have hready := List.all_eq_true.mp hx (c, slot) he
  dsimp only at hready hs
  rwa [hs] at hready

private theorem applyGenerated_succeeds {x : Record} {column : String} {v : Value}
    (hv : ∀ d ∈ x.type.key, d.isGenerated → d.name = column → (Key.ofValue? d.kind v).isSome) :
    ∃ x', x.applyGenerated column v = .ok x' := by
  rw [applyGenerated]
  split
  · exact ⟨_, rfl⟩
  · next c i hfound =>
    obtain ⟨hc, hp⟩ := RecordType.keyColumn?_some hfound
    obtain ⟨hname, hgen⟩ : c.name = column ∧ c.isGenerated := by simpa using hp
    obtain ⟨k, hk⟩ := Option.isSome_iff_exists.mp (hv c (List.mem_of_getElem? hc) hgen hname)
    rw [hk]
    exact ⟨_, rfl⟩

end Record

namespace Heap

private theorem exists_insertStatement {h : Heap} {t : RecordType} {r : RecordId}
    (hr : (h.get r).Supplies t) : ∃ st, h.insertStatement t r = .ok st := by
  have hkeyed : ∃ keyed, (h.slotsAs t r).mapM (h.keyAssignment r) = .ok keyed := by
    refine exists_mapM_ok fun ⟨c, slot⟩ he => ?_
    rw [keyAssignment.eq_def]
    dsimp only
    split
    · exact ⟨_, rfl⟩
    · next hs =>
      obtain ⟨k, rfl⟩ := Option.isSome_iff_exists.mp (hr (c, slot) he hs)
      exact ⟨_, rfl⟩
    · exact ⟨_, rfl⟩
  obtain ⟨keyed, hkeyed⟩ := hkeyed
  rw [insertStatement]
  dsimp only
  rw [hkeyed]
  exact ⟨_, rfl⟩

theorem canInsert_false (h : Heap) (r : RecordId) :
    h.canInsert false r = !h.refersToPending r := by
  have hkey : h.keyAwaits r → h.refersToPending r := by
    intro hawaits
    obtain ⟨t, ht, hcond⟩ := List.any_eq_true.mp hawaits
    obtain ⟨hne, hawait⟩ : t ≠ r ∧ h.awaitsKey t := by simpa using hcond
    rw [awaitsKey, Bool.and_eq_true] at hawait
    exact List.any_eq_true.mpr ⟨t, mem_targets_of_mem_keyTargets ht, by simpa using ⟨hne, hawait.1⟩⟩
  rw [canInsert, Bool.false_or]
  cases hp : h.refersToPending r with
  | true => simp
  | false =>
    have hnot : h.keyAwaits r = false := Bool.eq_false_iff.mpr fun hk => by simpa [hp] using hkey hk
    rw [hnot]
    rfl

end Heap

namespace Connection

variable {σ ρ : Type}

/-- The store takes every row of the type `t`, and what it gives back fits the generated key columns
of a record of the type `own`. -/
def Answers (c : Connection σ ρ) (t own : RecordType) : Prop :=
  ∀ (h : Heap) (r : RecordId) (st : Statement) (world : σ), h.insertStatement t r = .ok st →
    (st.returning = [] → ∃ n, (c.execute st.sql st.params world).1 = .ok n) ∧
    (st.returning ≠ [] → ∃ row, (c.query st.sql st.params world).1 = .ok (some row) ∧
      ∀ d ∈ own.key, d.isGenerated → ∀ v, row.find? d.name = some v →
        (Key.ofValue? d.kind v).isSome)

variable {c : Connection σ ρ} {t : RecordType}

private theorem takeGenerated_succeeds {own : RecordType} {r : RecordId} {row : Row}
    (hrow : ∀ d ∈ own.key, d.isGenerated → ∀ v, row.find? d.name = some v →
      (Key.ofValue? d.kind v).isSome) (columns : List String) :
    Triple (fun s => (s.heap.get r).type = own) (takeGenerated r row columns : Working σ ρ Unit)
      (fun _ _ => True) fun _ _ => False := by
  induction columns with
  | nil => exact Triple.pure fun _ _ => trivial
  | cons column columns ih =>
    rw [takeGenerated]
    cases hv : row.find? column with
    | none => exact ih
    | some v =>
      refine Triple.bind (R := fun content s => (s.heap.get r).type = own ∧
        (s.heap.get r).applyGenerated column v = .ok content)
        (Triple.reading (fun s a hs ha => ⟨hs, ha⟩) ?_) ?_
      · intro s e hs he
        obtain ⟨x', hx'⟩ : ∃ x', (s.heap.get r).applyGenerated column v = .ok x' :=
          Record.applyGenerated_succeeds fun d hd hg hname => hrow d (hs ▸ hd) hg v (hname ▸ hv)
        rw [hx'] at he
        cases he
      · intro content
        refine Triple.bind (Triple.updating fun s hs => ?_) fun _ => ih
        dsimp only
        rw [Heap.get_set, if_pos rfl, (Record.applyGenerated_keeps hs.2).1]
        exact hs.1

/-- The insert of a record that is ready succeeds if the store takes it. -/
theorem insertOne_succeeds {p : PlannedInsert} {s : Session σ}
    (hs : (s.heap.get p.record).Supplies t) (hc : c.Answers t (s.heap.get p.record).type) :
    Triple (· = s) (c.insertOne t p)
      (fun _ s' => ∃ st, c.Inserts t p.record st s s' ∧ c.Gives p.record st s s')
      fun _ _ => False := by
  obtain ⟨st, hst⟩ := Heap.exists_insertStatement hs
  obtain ⟨hexecute, hquery⟩ := hc s.heap p.record st s.world hst
  have hsuccess : Triple (· = s) (c.insertOne t p) (fun _ _ => True) fun _ _ => False := by
    rw [insertOne]
    apply Triple.reading_bind hst
    split
    · next hempty =>
      obtain ⟨n, hn⟩ := hexecute (List.isEmpty_iff.mp hempty)
      refine Triple.bind ((c.perform_triple t p.record st s).conseq (fun _ h => h)
        (fun _ _ h => h) fun _ _ h => h.1 n hn) fun _ => Triple.updating fun _ _ => trivial
    · next hne =>
      obtain ⟨row, hrow, hfits⟩ := hquery fun he => hne (List.isEmpty_iff.mpr he)
      refine Triple.bind (R := fun row' s' => row' = row ∧ s' = c.queried p.record st s)
        ((c.fetchRow_triple t p.record st s).conseq (fun _ h => h) (?_)
          fun _ _ h => h.1 row hrow) ?_
      · intro row' s' h
        exact ⟨by simpa [hrow, eq_comm] using h.1, h.2⟩
      · intro row'
        refine Triple.bind (R := fun _ _ => True) ?_ fun _ => Triple.updating fun _ _ => trivial
        rintro s' ⟨rfl, rfl⟩
        exact takeGenerated_succeeds hfits st.returning _ rfl
  have hboth := (c.insertOne_spec t p s).and hsuccess
  apply hboth.conseq (fun _ h => ⟨h, h⟩) (fun _ _ h => h.1)
  intro _ _ h
  exact h.2

end Connection

namespace Heap

variable {σ ρ : Type} {h : Heap} {R done : List RecordId} {s : Session σ}

/-- Records that nothing keeps from being inserted but references among them. -/
structure Insertable (h : Heap) (R : List RecordId) : Prop where
  new : ∀ r ∈ R, (h.get r).state = .new
  unmarked : ∀ r ∈ R, (h.get r).inserted = false
  closed : ∀ r ∈ R, ∀ t ∈ h.targets r, t ≠ r → (h.get t).isPending → t ∈ R

theorem Insertable.isPending (hR : h.Insertable R) {r : RecordId} (hr : r ∈ R) :
    (h.get r).isPending := by
  rw [Record.isPending, Record.isNew_of_state (hR.new r hr), hR.unmarked r hr]
  rfl

/-- Since the records were `h` those of the list `done` have been inserted, and no other record has
changed. -/
structure Advanced (h : Heap) (done : List RecordId) (s : Session σ) : Prop where
  keeps : h.Keeps s.heap
  same : ∀ q, q ∉ done → s.heap.get q = h.get q
  marked : ∀ q ∈ done, (s.heap.get q).inserted
  trace : insertedIn s.trace = done

theorem Advanced.start (h : Heap) (world : σ) :
    h.Advanced [] { heap := h, world } :=
  ⟨.refl h, fun _ _ => rfl, fun _ hq => absurd hq List.not_mem_nil, rfl⟩

private theorem Advanced.quiet {tx : Transaction σ ρ} {s' : Session σ} (q : tx.Quiet s s')
    (ha : h.Advanced done s) : h.Advanced done s' := by
  obtain ⟨e, he, ht⟩ := q.trace
  refine ⟨q.heap ▸ ha.keeps, q.heap ▸ ha.same, q.heap ▸ ha.marked, ?_⟩
  rw [ht, insertedIn_snoc_other (Event.inserted?_of_statement? he), ha.trace]

private theorem Advanced.insert {c : Connection σ ρ} {t : RecordType} {r : RecordId}
    {st : Statement} {s' : Session σ} (ha : h.Advanced done s) (hi : c.Inserts t r st s s')
    (hg : c.Gives r st s s') : h.Advanced (done ++ [r]) s' where
  keeps := ha.keeps.trans hi.heap.keeps
  same q hq := by
    rw [List.mem_append, List.mem_singleton, not_or] at hq
    exact (hi.heap.others q hq.2).trans (ha.same q hq.1)
  marked q hq := by
    rcases List.mem_append.mp hq with hq | hq
    · exact hi.heap.keeps.inserted q (ha.marked q hq)
    · exact List.mem_singleton.mp hq ▸ hg.inserted
  trace := by rw [hi.insertedIn, ha.trace]

private theorem Advanced.canInsert (ha : h.Advanced done s) (hR : h.Insertable R) {r : RecordId}
    (hr : r ∈ R) : s.heap.canInsert false r = h.isFree R done r := by
  have hpending : ∀ t ∈ h.targets r, t ≠ r → ((s.heap.get t).isPending ↔ t ∈ R ∧ t ∉ done) := by
    intro t ht hne
    by_cases hd : t ∈ done
    · simp [Record.isPending, ha.marked t hd, hd]
    · rw [ha.same t hd]
      exact ⟨fun hp => ⟨hR.closed r hr t ht hne hp, hd⟩, fun hm => hR.isPending hm.1⟩
  have hfree : s.heap.refersToPending r ↔ ¬ h.isFree R done r := by
    rw [refersToPending, ha.keeps.targets, isFree]
    simp only [List.any_eq_true, Bool.and_eq_true, bne_iff_ne, Heap.isPending, decide_eq_true_eq,
      not_forall]
    constructor
    · rintro ⟨t, ht, hne, hp⟩
      obtain ⟨htR, hd⟩ := (hpending t ht hne).mp hp
      exact ⟨t, ht, hne, htR, hd⟩
    · rintro ⟨t, ht, hne, htR, hd⟩
      exact ⟨t, ht, hne, (hpending t ht hne).mpr ⟨htR, hd⟩⟩
  rw [canInsert_false]
  cases hf : h.isFree R done r with
  | true => simpa [hf] using hfree
  | false => simpa [hf] using hfree

end Heap

namespace Transaction

variable {σ ρ : Type} {tx : Transaction σ ρ} {conn : String → Connection σ ρ} {h : Heap}
  {R done : List RecordId}

/-- The records of a batch are to be inserted, and the store takes each of them. -/
structure Takes (conn : String → Connection σ ρ) (h : Heap) (R : List RecordId) (t : RecordType)
    (rs : List RecordId) : Prop where
  mem : ∀ r ∈ rs, r ∈ R
  supplies : ∀ r ∈ rs, (h.get r).Supplies t
  answers : ∀ r ∈ rs, (conn t.store).Answers t (h.get r).type

private theorem Takes.subset {t : RecordType} {rs rs' : List RecordId} (ht : Takes conn h R t rs)
    (hs : ∀ r ∈ rs', r ∈ rs) : Takes conn h R t rs' :=
  ⟨fun r hr => ht.mem r (hs r hr), fun r hr => ht.supplies r (hs r hr),
    fun r hr => ht.answers r (hs r hr)⟩

section

variable {t : RecordType} {rs : List RecordId}

private theorem planInserts_advanced (deferrable : Bool) {s : Session σ} (hR : h.Insertable R)
    (ht : Takes conn h R t rs) (hdisjoint : List.Disjoint done rs) (hs : h.Advanced done s) :
    ∃ plan, s.heap.planInserts deferrable rs = .ok plan ∧
      plan.inserts.map (·.record) = rs.filter (s.heap.canInsert deferrable) ∧
      plan.retries = rs.filter fun r => !s.heap.canInsert deferrable r := by
  have hnew : ∀ r ∈ rs, (s.heap.get r).state = .new := by
    intro r hr
    rw [hs.same r fun hd => List.disjoint_left.mp hdisjoint hd hr]
    exact hR.new r (ht.mem r hr)
  have hspoils : ∀ r ∈ rs, s.heap.spoils r = false := by
    intro r hr
    exact Heap.spoils_eq_false.mpr (.inl (hnew r hr))
  refine ⟨_, Heap.planInserts_eq_ok.mpr ⟨hspoils, rfl⟩, ?_, ?_⟩
  · rw [Heap.records_sorted]
    apply List.filter_congr
    intro r hr
    simp [hnew r hr]
  · apply List.filter_congr
    intro r hr
    simp [hnew r hr]

private theorem insertPlanned_triple (ht : Takes conn h R t rs) (hn : (done ++ rs).Nodup)
    (free : RecordId → Bool) (plan : List PlannedInsert)
    (hplan : plan.map (·.record) = rs.filter free) :
    Triple (h.Advanced done) (plan.forM ((conn t.store).insertOne t))
      (fun _ => h.Advanced (done ++ rs.filter free)) fun _ _ => False := by
  obtain ⟨-, hnodup, hdisjoint⟩ := List.nodup_append'.mp hn
  have hfree : ∀ p ∈ plan, p.record ∈ rs := by
    intro p hp
    have hr := List.mem_map_of_mem (f := PlannedInsert.record) hp
    rw [hplan] at hr
    exact (List.mem_filter.mp hr).1
  have hwalk := Triple.forM_of_mem (E := fun _ _ => False) (f := (conn t.store).insertOne t)
    (l := plan) (I := fun rest s => ∃ before, h.Advanced (done ++ before) s ∧
      before ++ rest.map (·.record) = rs.filter free)
    fun p hm rest => Triple.of_starting fun s hs => by
      obtain ⟨before, ha, hbefore⟩ := hs
      rw [List.map_cons] at hbefore
      have hp := hfree p hm
      have hfresh : p.record ∉ done ++ before := by
        have hnd : (before ++ p.record :: rest.map (·.record)).Nodup := hbefore ▸ hnodup.filter _
        rw [List.mem_append, not_or]
        exact ⟨fun hd => List.disjoint_left.mp hdisjoint hd hp, fun hb =>
          List.disjoint_left.mp (List.nodup_append'.mp hnd).2.2 hb List.mem_cons_self⟩
      have hsame := ha.same p.record hfresh
      refine (Connection.insertOne_succeeds (c := conn t.store) (t := t) (p := p) (s := s)
        (hsame ▸ ht.supplies _ hp) (hsame ▸ ht.answers _ hp)).conseq (fun _ h => h) ?_
        fun _ _ h => h
      rintro _ s' ⟨st, hi, hg⟩
      refine ⟨before ++ [p.record], ?_, ?_⟩
      · rw [← List.append_assoc]
        exact ha.insert hi hg
      · rw [List.append_assoc]
        exact hbefore
  refine hwalk.conseq (fun s hs => ⟨[], by rwa [List.append_nil], hplan⟩) ?_ fun _ _ h => h
  intro _ s hs
  obtain ⟨before, ha, hbefore⟩ := hs
  rw [List.map_nil, List.append_nil] at hbefore
  exact hbefore ▸ ha

/-- A batch inserts what can be inserted when it begins, and leaves the rest for another round. -/
theorem WritesBy.insert_triple {deferrable : Bool} (hw : tx.WritesBy conn fun _ => deferrable)
    (hR : h.Insertable R) (ht : Takes conn h R t rs) (hn : (done ++ rs).Nodup) {s : Session σ}
    (hs : h.Advanced done s) :
    Triple (· = s) ((tx.writer t.store).insert t rs)
      (fun results s' =>
        results.retries = rs.filter (fun r => !s.heap.canInsert deferrable r) ∧
          h.Advanced (done ++ rs.filter (s.heap.canInsert deferrable)) s')
      fun _ _ => False := by
  rw [hw.writer]
  obtain ⟨plan, hplan, hinserts, hretries⟩ :=
    planInserts_advanced deferrable hR ht (List.nodup_append'.mp hn).2.2 hs
  apply Triple.reading_bind hplan
  apply ((insertPlanned_triple ht hn _ plan.inserts hinserts).starting hs).bind
  intro _
  exact Triple.pure fun s hs => ⟨hretries, hs⟩

end

variable {bs : List Batch}

/-- A round goes through the batches, each of which inserts what can be inserted when it begins.
`Plans done bs done' left` is what follows for a round that begins with the records `done` inserted:
it has inserted `done'` and left `left`. -/
theorem WritesBy.insertRound_plans {deferrable : Bool} (hw : tx.WritesBy conn fun _ => deferrable)
    (hwilling : tx.Willing) (hR : h.Insertable R)
    (Plans : List RecordId → List Batch → List RecordId → List Batch → Prop)
    (hnil : ∀ done, Plans done [] done [])
    (hcons : ∀ done b bs done' left (s : Session σ), h.Advanced done s →
      (∀ r ∈ b.records, r ∈ R) →
      Plans (done ++ b.records.filter (s.heap.canInsert deferrable)) bs done' left →
      Plans done (b :: bs) done'
        (b.only (b.records.filter fun r => !s.heap.canInsert deferrable r) ++ left))
    (hbs : ∀ b ∈ bs, Takes conn h R b.type b.records) (hn : (done ++ recordsOf bs).Nodup) :
    Triple (fun run => h.Advanced done run.session) (tx.insertRound bs)
      (fun results run => ∃ done', Plans done bs done' results.retries ∧
        h.Advanced done' run.session) fun _ _ => False := by
  induction bs generalizing done with
  | nil => exact Triple.pure fun run hrun => ⟨done, hnil done, hrun⟩
  | cons b bs ih =>
    rw [Transaction.insertRound]
    have hrecords : recordsOf (b :: bs) = b.records ++ recordsOf bs := rfl
    rw [hrecords, ← List.append_assoc] at hn
    have htakes := hbs b List.mem_cons_self
    have hinsert : Triple (h.Advanced done) ((tx.writer b.type.store).insert b.type b.records)
        (fun results s' => ∃ s, h.Advanced done s ∧
          results.retries = b.records.filter (fun r => !s.heap.canInsert deferrable r) ∧
          h.Advanced (done ++ b.records.filter (s.heap.canInsert deferrable)) s')
        fun _ _ => False := Triple.of_starting fun s hs =>
      (hw.insert_triple hR htakes (List.nodup_append'.mp hn).1 hs).conseq (fun _ h => h)
        (fun _ _ h => ⟨s, hs, h⟩) fun _ _ h => h
    apply (writing_triple (e := .insert b.type.name b.records)
      (x := (·.insert b.type b.records)) (fun _ _ q ha => ha.quiet q) (fun s => .insert _ _)
      (fun hnot => absurd hwilling hnot) hinsert).bind
    intro results
    refine Triple.of_starting fun run hrun => ?_
    obtain ⟨s, hs, hretries, ha⟩ := hrun
    have hrest := @ih (done ++ b.records.filter (s.heap.canInsert deferrable))
      (fun b' hb' => hbs b' (List.mem_cons_of_mem _ hb'))
      (hn.sublist ((List.filter_sublist.append_left done).append_right _))
    refine (hrest.starting ha).bind fun rest => Triple.pure ?_
    rintro run ⟨done', hplans, ha'⟩
    refine ⟨done', ?_, ha'⟩
    rw [hretries]
    exact hcons done b bs done' rest.retries s hs htakes.mem hplans

private theorem WritesBy.insertRound_triple (hw : tx.WritesBy conn fun _ => false)
    (hwilling : tx.Willing) (hR : h.Insertable R) (hbs : ∀ b ∈ bs, Takes conn h R b.type b.records)
    (hn : (done ++ recordsOf bs).Nodup) :
    Triple (fun run => h.Advanced done run.session) (tx.insertRound bs)
      (fun results run => results.retries = (h.planRound R done bs).2 ∧
        h.Advanced (h.planRound R done bs).1 run.session) fun _ _ => False := by
  refine (hw.insertRound_plans hwilling hR (fun done bs done' left =>
    h.planRound R done bs = (done', left)) (fun _ => rfl) ?_ hbs hn).conseq (fun _ h => h) ?_
    fun _ _ h => h
  · intro done b bs done' left s ha hmem hrest
    have hfree : ∀ r ∈ b.records, s.heap.canInsert false r = h.isFree R done r :=
      fun r hr => ha.canInsert hR (hmem r hr)
    have hnot : ∀ r ∈ b.records, (!s.heap.canInsert false r) = !h.isFree R done r :=
      fun r hr => congrArg _ (hfree r hr)
    rw [List.filter_congr hfree] at hrest
    rw [Heap.planRound, hrest, List.filter_congr hnot]
  · rintro results run ⟨done', hplan, ha⟩
    rw [hplan]
    exact ⟨rfl, ha⟩

/-- The rounds go on until nothing is left or a round has inserted nothing. `Stands k done bs` holds
when `k` rounds have inserted the records `done` and left the batches `bs`. -/
theorem insertAll_rounds (Stands : Nat → List RecordId → List Batch → Prop)
    (Stuck : List Batch → Prop)
    (hround : ∀ k done bs, Stands k done bs → bs ≠ [] →
      Triple (fun run => h.Advanced done run.session) (tx.insertRound bs)
        (fun results run => ∃ done', Stands (k + 1) done' results.retries ∧
          (recordCount bs ≤ recordCount results.retries → Stuck results.retries) ∧
          h.Advanced done' run.session) fun _ _ => False)
    (summary : Summary) (hs : Stands summary.rounds done bs) :
    Triple (fun run => h.Advanced done run.session) (tx.insertAll summary bs)
      (fun result run => ∃ done', Stands result.1.rounds done' [] ∧ h.Advanced done' run.session ∧
        result.1.inserted = summary.inserted + recordCount bs)
      fun halt run => ∃ rounds done' stuck, Stands rounds done' stuck ∧ Stuck stuck ∧
        h.Advanced done' run.session ∧
        halt = .failed (.unresolvedDependencies rounds
          ((recordsOf stuck).map run.session.heap.describe)) := by
  induction hcount : recordCount bs using Nat.strongRecOn generalizing summary done bs with
  | _ n ih =>
    rw [Transaction.insertAll]
    split
    · next hempty =>
      obtain rfl := List.isEmpty_iff.mp hempty
      apply Triple.pure
      intro run hrun
      exact ⟨done, hs, hrun, by rw [← hcount]; rfl⟩
    · next hempty =>
      have hne : bs ≠ [] := fun h => hempty (List.isEmpty_iff.mpr h)
      apply (hround _ _ _ hs hne).conseq (fun _ h => h) (fun _ _ h => h) (fun _ _ h => h.elim)
        |>.bind
      intro results
      refine Triple.of_starting fun run hrun => ?_
      obtain ⟨done', hnext, hstuck, ha⟩ := hrun
      dsimp only
      split
      · next hlt =>
        refine ((ih _ (hcount ▸ hlt)
          { summary with
            rounds := summary.rounds + 1
            inserted := summary.inserted + (recordCount bs - recordCount results.retries) }
          hnext rfl).starting ha).bind fun result => Triple.pure ?_
        rintro run ⟨done'', hstands, ha', hinserted⟩
        refine ⟨done'', hstands, ha', ?_⟩
        rw [hinserted]
        dsimp only
        omega
      · next hnot =>
        refine Triple.bind (x := Leasing.heap) (R := fun g run' => run' = run ∧
          g = run.session.heap) (fun _ hrun => by subst hrun; exact ⟨rfl, rfl⟩)
          fun g => Triple.throw ?_
        rintro _ ⟨rfl, rfl⟩
        refine ⟨_, _, _, hnext, hstuck (Nat.le_of_not_lt hnot), ha, ?_⟩
        rw [recordsOf, List.map_flatMap]

/-- The rounds go on until nothing is left, or until all that is left can reach a cycle of waiting.
Whatever `Kept k done bs` says of the records that `k` rounds have inserted and of the batches that
they have left goes along. -/
theorem insertAll_waves {E : RecordId → RecordId → Prop} (hE : ∀ r t, E r t → t ∈ R)
    (hRn : R.Nodup) (Kept : Nat → List RecordId → List Batch → Prop)
    (hround : ∀ k done bs, (∀ b ∈ bs, Takes conn h R b.type b.records) →
      (done ++ recordsOf bs).Nodup → Kept k done bs →
      Triple (fun run => h.Advanced done run.session) (tx.insertRound bs)
        (fun results run => ∃ done', Round E done bs done' results.retries ∧
          Kept (k + 1) done' results.retries ∧ h.Advanced done' run.session) fun _ _ => False)
    (summary : Summary) (hbs : ∀ b ∈ bs, Takes conn h R b.type b.records)
    (hs : Waves E R summary.rounds done bs) (hkept : Kept summary.rounds done bs) :
    Triple (fun run => h.Advanced done run.session) (tx.insertAll summary bs)
      (fun result run => ∃ done', Waves E R result.1.rounds done' [] ∧
        Kept result.1.rounds done' [] ∧ h.Advanced done' run.session ∧
        result.1.inserted = summary.inserted + recordCount bs)
      fun halt run => ∃ rounds done' stuck, Waves E R rounds done' stuck ∧ stuck ≠ [] ∧
        (∀ r ∈ recordsOf stuck, ReachesCycle E r) ∧ h.Advanced done' run.session ∧
        halt = .failed (.unresolvedDependencies rounds
          ((recordsOf stuck).map run.session.heap.describe)) := by
  refine (insertAll_rounds (fun k done bs => Waves E R k done bs ∧ Kept k done bs ∧
      ∀ b ∈ bs, Takes conn h R b.type b.records)
    (fun bs => bs ≠ [] ∧ ∀ r ∈ recordsOf bs, ReachesCycle E r)
    (fun k done bs hs hne => ?_) summary ⟨hs, hkept, hbs⟩).conseq (fun _ h => h) ?_ ?_
  · obtain ⟨hs, hkept, hbs⟩ := hs
    refine (hround k done bs hbs (hs.perm.nodup_iff.mpr hRn) hkept).conseq (fun _ h => h) ?_
      fun _ _ h => h
    rintro results run ⟨done', hplanned, hnext, ha⟩
    refine ⟨done', ⟨hs.next hE hne hplanned, hnext, fun b hb => ?_⟩, hs.stuck hE hne hplanned, ha⟩
    obtain ⟨b', hb', ht, hsub⟩ := hplanned.batch b hb
    exact ht ▸ (hbs b' hb').subset hsub
  · rintro result run ⟨done', ⟨hs, hkept, -⟩, ha, hinserted⟩
    exact ⟨done', hs, hkept, ha, hinserted⟩
  · rintro halt run ⟨rounds, done', stuck, ⟨hs, -, -⟩, ⟨hne, hcycle⟩, ha, hhalt⟩
    exact ⟨rounds, done', stuck, hs, hne, hcycle, ha, hhalt⟩

end Transaction

section

variable {σ ρ : Type} {w : Workspace} {h : Heap} {tx : Transaction σ ρ}
  {conn : String → Connection σ ρ}

/-- How the rounds of inserts end where an edge of `E` leads from a new record to one that it waits
for: either there is no cycle, and each new record has been inserted once, in no more rounds than
there are records on a longest walk; or there is one, and the error tells the records that can reach
one, while each of the others has been inserted once. `Bound` is what else the number of rounds and
the length of a longest walk satisfy. -/
def Workspace.InsertsUnlessCyclic (w : Workspace) (E : RecordId → RecordId → Prop)
    (Bound : Nat → Nat → Prop) : EStateM.Result (Halt ρ) (Run σ) (Summary × List Batch) → Prop
  | .ok (summary, _) run =>
    (∀ r, ¬ Relation.TransGen E r r) ∧
      (insertedIn run.session.trace).Nodup ∧
      (∀ r, r ∈ insertedIn run.session.trace ↔ r ∈ w.newRecords) ∧
      summary.inserted = w.newRecords.length ∧
      ∃ p, IsLongestWalk E w.newRecords p ∧ summary.rounds ≤ p.length ∧
        Bound summary.rounds p.length
  | .error halt run =>
    (∃ r, Relation.TransGen E r r) ∧
      (∃ (rounds : Nat) (stuck : List RecordId), halt = .failed (.unresolvedDependencies rounds
          (stuck.map run.session.heap.describe)) ∧ stuck.Nodup ∧
        ∀ r, r ∈ stuck ↔ r ∈ w.newRecords ∧ ReachesCycle E r) ∧
      (insertedIn run.session.trace).Nodup ∧
      ∀ r, r ∈ insertedIn run.session.trace ↔ r ∈ w.newRecords ∧ ¬ ReachesCycle E r

/-- Rounds that insert what waits for nothing insert all that waits for no cycle. -/
theorem insertsUnlessCyclic (conn : String → Connection σ ρ) {E : RecordId → RecordId → Prop}
    (hw : w.Sound h) (hE : ∀ r t, E r t → r ∈ w.newRecords ∧ t ∈ w.newRecords)
    (htakes : ∀ b ∈ w.insertBatches, ∀ r ∈ b.records,
      (h.get r).Supplies b.type ∧ (conn b.type.store).Answers b.type (h.get r).type)
    (Kept : Nat → List RecordId → List Batch → Prop)
    (hround : ∀ k done bs,
      (∀ b ∈ bs, Transaction.Takes conn h w.newRecords b.type b.records) →
      (done ++ recordsOf bs).Nodup → Kept k done bs →
      Triple (fun run => h.Advanced done run.session) (tx.insertRound bs)
        (fun results run => ∃ done', Round E done bs done' results.retries ∧
          Kept (k + 1) done' results.retries ∧ h.Advanced done' run.session) fun _ _ => False)
    (hkept : Kept 0 [] w.insertBatches) {Bound : Nat → Nat → Prop}
    (hbound : ∀ k done p, Waves E w.newRecords k done [] → Kept k done [] →
      IsLongestWalk E w.newRecords p → k ≤ p.length → Bound k p.length) (world : σ) :
    w.InsertsUnlessCyclic E Bound
      (tx.insertAll {} w.insertBatches { session := { heap := h, world } }) := by
  have hnodup := hw.nodup_newRecords
  have hbs : ∀ b ∈ w.insertBatches, Transaction.Takes conn h w.newRecords b.type b.records :=
    fun b hb => ⟨fun r hr => List.mem_flatMap.mpr ⟨b, hb, hr⟩, fun r hr => (htakes b hb r hr).1,
      fun r hr => (htakes b hb r hr).2⟩
  have hstart : Waves E w.newRecords 0 [] w.insertBatches :=
    .start fun b hb => (hw.insertBatch hb).1
  have hrun := Transaction.insertAll_waves (fun r t hrt => (hE r t hrt).2) hnodup Kept hround {}
    hbs hstart hkept { session := { heap := h, world } } (.start h world)
  cases hres : tx.insertAll {} w.insertBatches { session := { heap := h, world } } with
  | ok result run =>
    rw [hres] at hrun
    obtain ⟨done, hs, hkept, ha, hinserted⟩ := hrun
    have hleft : ∀ r t, E r t → r ∈ w.newRecords := fun r t hrt => (hE r t hrt).1
    obtain ⟨p, hp⟩ := exists_isLongestWalk E w.newRecords
    have hrounds := hs.rounds_le hleft hp
    have hcount : recordCount w.insertBatches = w.newRecords.length := recordCount_eq _
    refine ⟨hs.acyclic hleft, ?_, ?_, by rw [hinserted, hcount, Nat.zero_add], p, hp, hrounds,
      hbound _ done p hs hkept hp hrounds⟩
    · rw [ha.trace]
      exact (List.nodup_append'.mp (hs.perm.nodup_iff.mpr hnodup)).1
    · intro r
      rw [ha.trace, hs.mem_iff, recordsOf, List.flatMap_nil]
      simp
  | error halt run =>
    rw [hres] at hrun
    obtain ⟨rounds, done, stuck, hs, hne, hcycle, ha, hhalt⟩ := hrun
    obtain ⟨hdone, hstuck, hdisjoint⟩ :=
      List.nodup_append'.mp (hs.perm.nodup_iff.mpr hnodup)
    refine ⟨?_, ⟨rounds, recordsOf stuck, hhalt, hstuck, fun r => hs.mem_left_iff hcycle⟩, ?_, ?_⟩
    · obtain ⟨r, hr⟩ := hs.exists_mem hne
      obtain ⟨c, -, hc⟩ := hcycle r hr
      exact ⟨c, hc⟩
    · rwa [ha.trace]
    · intro r
      rw [ha.trace]
      exact hs.mem_done_iff hcycle

/-- Over stores that check foreign keys at once and take every insert, the new records of a
workspace are inserted as far as there is no cycle of references among them; records of one type
take as many rounds as there are records on a longest walk. -/
theorem insertAll_unless_cyclic (hw : w.Sound h) (htx : tx.WritesBy conn fun _ => false)
    (hwilling : tx.Willing) (hnew : h.Insertable w.newRecords)
    (htakes : ∀ b ∈ w.insertBatches, ∀ r ∈ b.records,
      (h.get r).Supplies b.type ∧ (conn b.type.store).Answers b.type (h.get r).type) (world : σ) :
    w.InsertsUnlessCyclic (h.RefersIn w.newRecords)
      (fun rounds longest =>
        (∃ t, ∀ r ∈ w.newRecords, (h.get r).type = t) → rounds = longest)
      (tx.insertAll {} w.insertBatches { session := { heap := h, world } }) := by
  refine insertsUnlessCyclic conn hw (fun _ _ hrt => hrt.1) htakes
    (fun k done bs => (∃ t, ∀ r ∈ w.newRecords, (h.get r).type = t) →
      h.Even w.newRecords k done bs)
    (fun k done bs hbs hn heven => ?_)
    (fun ⟨_, ht⟩ => .start (hw.length_insertBatches ht)) (fun k done p hs heven hp hle hone => ?_)
    world
  · have hmem : ∀ r ∈ recordsOf bs, r ∈ w.newRecords := by
      intro r hr
      obtain ⟨b, hb, hrb⟩ := List.mem_flatMap.mp hr
      exact (hbs b hb).mem r hrb
    refine (htx.insertRound_triple hwilling hnew hbs hn).conseq (fun _ h => h) ?_ fun _ _ h => h
    rintro results run ⟨hretries, ha⟩
    rw [hretries]
    exact ⟨_, Heap.planRound_round hmem, fun hone => (heven hone).next, ha⟩
  · exact Nat.le_antisymm hle ((heven hone).le_rounds hs hp.1)

end

/-- Each statement gives its number back as the key. -/
def numbering (store : String) : Connection Nat where
  store
  query _ _ n := (.ok (some { columns := ["id"], values := [.bigInt n.toInt64] }), n + 1)
  execute _ _ n := (.ok 1, n + 1)

theorem numbering_answers (store : String) : (numbering store).Answers nodeType nodeType := by
  intro h r st world hst
  refine ⟨fun _ => ⟨1, rfl⟩, fun _ => ⟨_, rfl, fun d hd _ v hv => ?_⟩⟩
  obtain rfl := List.mem_singleton.mp hd
  obtain rfl : Value.bigInt world.toInt64 = v := by
    simpa [Row.find?, Row.get?, KeyColumn.bigInt] using hv
  rfl

/-- A child that comes before its parent takes a second round. -/
theorem insertAll_unless_cyclic_family : tracked.1.InsertsUnlessCyclic
    (tracked.2.RefersIn tracked.1.newRecords)
    (fun rounds longest =>
      (∃ t, ∀ r ∈ tracked.1.newRecords, (tracked.2.get r).type = t) → rounds = longest)
    ((Transaction.sql numbering false).insertAll {} tracked.1.insertBatches
      { session := { heap := tracked.2, world := 1 } }) := by
  have hnew : tracked.2.Insertable tracked.1.newRecords :=
    ⟨by decide +kernel, by decide +kernel, by decide +kernel⟩
  have hbatch : tracked.1.insertBatches = [{ type := nodeType, records := [⟨0⟩, ⟨1⟩] }] := by
    decide +kernel
  refine insertAll_unless_cyclic (tracked_life.sound fun _ => (·.orderly))
    (Transaction.sql_writesBy fun _ => rfl) ⟨fun _ => rfl, fun _ _ => rfl⟩ hnew ?_ 1
  rw [hbatch]
  intro b hb
  obtain rfl := List.mem_singleton.mp hb
  have htype : ∀ r ∈ [(⟨0⟩ : RecordId), ⟨1⟩], (tracked.2.get r).type = nodeType ∧
      (tracked.2.get r).isCommitReady := by decide +kernel
  intro r hr
  obtain ⟨ht, hready⟩ := htype r hr
  exact ⟨ht ▸ Record.supplies_of_isCommitReady hready, ht ▸ numbering_answers "main"⟩

end UnitOfWork
