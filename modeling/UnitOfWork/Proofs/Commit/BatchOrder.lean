import UnitOfWork.Proofs.Commit.SettledRegistry
import UnitOfWork.Proofs.Sql.Alignment

/-!
# The order of a batch

The records of a batch come in no order that could be relied on. Where a store answers a statement
in the same way at all times, an update or a delete of the batch does the same in every order: all
statements are built from the records as they are before the batch, and what is noted about them
afterwards is noted for each record by itself.
-/

namespace UnitOfWork

namespace Connection

variable {σ ρ : Type} {c : Connection σ ρ} {t : RecordType} {h : Heap} {world : σ}
  {rs : List RecordId} {es : List Event} {s : Session σ}

/-- What a statement is answered depends on nothing but the statement. -/
structure Repeats (c : Connection σ ρ) : Prop where
  query : ∀ sql params world world', (c.query sql params world).1 = (c.query sql params world').1
  execute : ∀ sql params world world',
    (c.execute sql params world).1 = (c.execute sql params world').1

/-- Deleting several rows at once is answered in the same way in whatever order their keys are
bound. -/
def CountsUnordered (c : Connection σ ρ) : Prop :=
  ∀ table column (keys keys' : List Value) world n, keys.Perm keys' →
    (c.execute (Statement.deleteAny table column keys).sql keys world).1 = .ok n →
      (c.execute (Statement.deleteAny table column keys').sql keys' world).1 = .ok n

/-- The event of the update of a record, which is answered with a positive count. -/
inductive Confirms (c : Connection σ ρ) (h : Heap) (world : σ) (t : RecordType) (r : RecordId) :
    Event → Prop
  | update {st : Statement} {n : Nat} : h.updateStatement? t r = .ok (some st) →
    (c.execute st.sql st.params world).1 = .ok n → 0 < n →
    Confirms c h world t r (.execute c.store r st)
  | probe {st : Statement} {row : Row} : h.updateStatement? t r = .ok none →
    h.probeStatement t r = .ok st → (c.query st.sql st.params world).1 = .ok (some row) →
    Confirms c h world t r (.query c.store r st)

private theorem updateOne_confirms (hc : c.Repeats) {r : RecordId} {e : Event}
    (he : c.Confirms s.heap world t r e) :
    Triple (· = s) (c.updateOne t r)
      (fun n s' => 0 < n ∧ s'.heap = s.heap ∧ s'.trace = s.trace ++ [e]) fun _ _ => False := by
  rw [updateOne]
  cases he with
  | @update st n hst hn hpos =>
    rw [hc.execute _ _ world s.world] at hn
    apply Triple.reading_bind hst
    apply (c.perform_triple t r st s).conseq (fun _ h => h)
    · intro m s' h
      obtain ⟨hm, hs'⟩ := h
      subst hs'
      obtain rfl := Except.ok.inj (hn.symm.trans hm)
      exact ⟨hpos, rfl, rfl⟩
    · intro _ s' h
      exact h.1 n hn
  | @probe st row hnone hst hrow =>
    rw [hc.query _ _ world s.world] at hrow
    apply Triple.reading_bind hnone
    apply Triple.reading_bind hst
    apply Triple.bind (R := fun found s' => found = some row ∧ s' = c.queried r st s)
    · apply (c.fetch_triple t r st s).conseq (fun _ h => h)
      · intro found s' h
        exact ⟨(Except.ok.inj (hrow.symm.trans h.1)).symm, h.2⟩
      · intro _ s' h
        exact h.1 _ hrow
    · intro found
      apply Triple.pure
      intro s' h
      obtain ⟨hfound, hs'⟩ := h
      subst hfound hs'
      exact ⟨Nat.one_pos, rfl, rfl⟩

private theorem update_confirms (hc : c.Repeats) (hes : rs.Forall₂ (c.Confirms h world t) es)
    (trace : List Event) :
    Triple (fun s => s.heap = h ∧ s.trace = trace) (rs.mapM (c.updateOne t))
      (fun ns s => ns.length = rs.length ∧ (∀ n ∈ ns, 0 < n) ∧ s.heap = h ∧ s.trace = trace ++ es)
      fun _ _ => False := by
  induction hes generalizing trace with
  | nil =>
    apply Triple.pure
    intro s hs
    exact ⟨rfl, fun _ hn => absurd hn List.not_mem_nil, hs.1, by rw [hs.2, List.append_nil]⟩
  | @cons r e rs es he _ ih =>
    rw [List.mapM_cons]
    have hone : Triple (fun s => s.heap = h ∧ s.trace = trace) (c.updateOne t r)
        (fun n s => (s.heap = h ∧ s.trace = trace ++ [e]) ∧ 0 < n) fun _ _ => False := by
      apply Triple.of_starting
      intro s hs
      obtain ⟨rfl, rfl⟩ := hs
      apply (updateOne_confirms hc he).conseq (fun _ h => h) _ fun _ _ h => h
      intro n s' h
      exact ⟨h.2, h.1⟩
    apply hone.bind
    intro n
    apply Triple.assuming
    intro hn
    apply (ih (trace ++ [e])).bind
    intro ns
    apply Triple.pure
    intro s hs
    obtain ⟨hlength, hpos, hheap, htrace⟩ := hs
    refine ⟨by simp [hlength], List.forall_mem_cons.mpr ⟨hn, hpos⟩, hheap, ?_⟩
    rw [htrace, List.append_assoc]
    rfl

/-- The statements were answered with these counts. -/
def Answered (c : Connection σ ρ) (world : σ) (sts : List Statement) (ns : List Nat) : Prop :=
  sts.Forall₂ (fun st n => (c.execute st.sql st.params world).1 = .ok n) ns

private theorem perform_answered (hc : c.Repeats) (world : σ) (t : RecordType)
    (sts : List Statement) (trace : List Event) :
    Triple (fun s => s.heap = h ∧ s.trace = trace) (sts.mapM (c.perform t none))
      (fun ns s => c.Answered world sts ns ∧ s.heap = h ∧
        s.trace = trace ++ sts.map (.execute c.store none))
      fun _ _ => ∀ ns, ¬ c.Answered world sts ns := by
  induction sts generalizing trace with
  | nil =>
    apply Triple.pure
    intro s hs
    exact ⟨.nil, hs.1, by rw [hs.2, List.map_nil, List.append_nil]⟩
  | cons st sts ih =>
    rw [List.mapM_cons]
    have hone : Triple (fun s => s.heap = h ∧ s.trace = trace) (c.perform t none st)
        (fun n s => (s.heap = h ∧ s.trace = trace ++ [.execute c.store none st]) ∧
          (c.execute st.sql st.params world).1 = .ok n)
        fun _ _ => ∀ ns, ¬ c.Answered world (st :: sts) ns := by
      apply Triple.of_starting
      intro s hs
      obtain ⟨rfl, rfl⟩ := hs
      have hsame := hc.execute st.sql st.params s.world world
      apply (c.perform_triple t none st s).conseq (fun _ h => h)
      · intro n s' h
        obtain ⟨hn, hs'⟩ := h
        subst hs'
        exact ⟨⟨rfl, rfl⟩, hsame ▸ hn⟩
      · intro _ s' h ns hns
        cases hns with
        | cons hn _ => exact h.1 _ (hsame ▸ hn)
    apply hone.bind
    intro n
    apply Triple.assuming
    intro hn
    apply Triple.bind ((ih _).conseq (fun _ h => h) (fun _ _ h => h) _)
    · intro ns
      apply Triple.pure
      intro s hs
      obtain ⟨hns, hheap, htrace⟩ := hs
      refine ⟨.cons hn hns, hheap, ?_⟩
      rw [htrace, List.append_assoc]
      rfl
    · intro _ s hnone ns hns
      cases hns with
      | cons _ hrest => exact hnone _ hrest

private theorem Answered.unique {sts : List Statement} {ns ns' : List Nat}
    (hns : c.Answered world sts ns) (hns' : c.Answered world sts ns') : ns = ns' := by
  have hunique : Relator.RightUnique fun (st : Statement) n =>
      (c.execute st.sql st.params world).1 = .ok n :=
    fun _ _ _ ha hb => Except.ok.inj (ha.symm.trans hb)
  exact hunique.forall₂ hns hns'

private theorem Answered.deletes {keys keys' : List RowKey} {ns : List Nat}
    (hin : t.isComposite = false → c.CountsUnordered) (hkeys : keys'.Perm keys)
    (hns : c.Answered world (t.deletes keys) ns) :
    ∃ ns', c.Answered world (t.deletes keys') ns' ∧ ns'.Perm ns := by
  cases hc : t.isComposite with
  | true =>
    rw [RecordType.deletes_composite hc] at hns ⊢
    exact List.perm_comp_forall₂ (hkeys.map _) hns
  | false =>
    cases keys with
    | nil =>
      rw [hkeys.eq_nil]
      exact ⟨ns, hns, .refl ns⟩
    | cons key keys =>
      have hne : keys' ≠ [] := by
        intro hnil
        simp [hnil] at hkeys
      rw [RecordType.deletes_single hc (List.cons_ne_nil key keys)] at hns
      rw [RecordType.deletes_single hc hne]
      cases hns with
      | cons hn hnil =>
        cases hnil
        exact ⟨_, .cons (hin hc _ _ _ _ _ _ (hkeys.flatMap_right _).symm hn) .nil, .refl _⟩

end Connection

namespace Heap

variable {h : Heap} {t : RecordType} {rs : List RecordId}

/-- The keys of the records are known. -/
def HasKeys (h : Heap) (rs : List RecordId) (keys : List RowKey) : Prop :=
  rs.Forall₂ (fun r key => h.primaryKey? r = some key) keys

private theorem HasKeys.unique {keys keys' : List RowKey} (hkeys : h.HasKeys rs keys)
    (hkeys' : h.HasKeys rs keys') : keys = keys' := by
  have hunique : Relator.RightUnique fun r key => h.primaryKey? r = some key :=
    fun _ _ _ ha hb => Option.some.inj (ha.symm.trans hb)
  exact hunique.forall₂ hkeys hkeys'

private theorem HasKeys.perm {rs' : List RecordId} {keys : List RowKey} (hkeys : h.HasKeys rs keys)
    (hperm : rs'.Perm rs) : ∃ keys', h.HasKeys rs' keys' ∧ keys'.Perm keys :=
  List.perm_comp_forall₂ hperm hkeys

private theorem deleteStatements_ok_iff {sts : List Statement} : h.deleteStatements t rs = .ok sts ↔
    ∃ keys, h.HasKeys rs keys ∧ sts = t.deletes keys := by
  constructor
  · exact deleteStatements_eq
  · intro hexists
    obtain ⟨keys, hkeys, rfl⟩ := hexists
    have hmatches : ∃ ms, rs.mapM (h.keyMatch t) = .ok ms := by
      apply exists_mapM_ok
      intro r hr
      obtain ⟨key, -, hkey⟩ := exists_of_mem_forall₂ hkeys.flip hr
      rw [keyMatch, hkey]
      exact ⟨_, rfl⟩
    obtain ⟨ms, hms⟩ := hmatches
    have hbuilt : ∃ sts, h.deleteStatements t rs = .ok sts := by
      rw [deleteStatements, hms]
      cases rs.isEmpty <;> cases t.isComposite <;> exact ⟨_, rfl⟩
    obtain ⟨sts, hsts⟩ := hbuilt
    obtain ⟨keys', hkeys', rfl⟩ := deleteStatements_eq hsts
    rw [hsts, hkeys.unique hkeys']

/-- The statements bind the keys of the records: each of them by itself, or all at once if the key
is one column. -/
structure BindsKeys (h : Heap) (t : RecordType) (rs : List RecordId) (sts : List Statement)
    (ks : List RowKey) : Prop where
  keys : h.HasKeys rs ks
  composite : t.isComposite → sts.map (·.params) = ks.map (·.values)
  single : t.isComposite = false → rs ≠ [] → sts.map (·.params) = [ks.flatMap (·.values)]
  none : rs = [] → sts = []

private theorem HasKeys.bindsKeys {keys : List RowKey} (hkeys : h.HasKeys rs keys)
    (t : RecordType) :
    h.BindsKeys t rs (t.deletes keys) keys := by
  refine ⟨hkeys, ?_, ?_, ?_⟩
  · intro hc
    rw [RecordType.deletes_composite hc, List.map_map]
    rfl
  · intro hc hne
    have hkeysne : keys ≠ [] := by
      intro hnil
      subst hnil
      cases hkeys
      exact hne rfl
    rw [RecordType.deletes_single hc hkeysne]
    rfl
  · intro hnil
    subst hnil
    cases hkeys
    rfl

end Heap

namespace Writer

variable {σ ρ : Type} {c : Connection σ ρ} {deferrable : Bool} {t : RecordType} {world : σ}
  {rs rs' : List RecordId} {s : Session σ}

/-- A delete succeeds exactly if the keys are known and every statement is answered with a count,
and it returns the sum of the counts. -/
theorem sql_delete_spec (deferrable : Bool) (hc : c.Repeats) (world : σ) (t : RecordType)
    (rs : List RecordId) (s : Session σ) :
    Triple (· = s) ((sql c deferrable).delete t rs)
      (fun n s' => ∃ keys ns, s.heap.HasKeys rs keys ∧ c.Answered world (t.deletes keys) ns ∧
        n = total ns ∧ s'.heap = s.heap ∧
        s'.trace = s.trace ++ (t.deletes keys).map (.execute c.store none))
      fun _ _ => ∀ keys ns, s.heap.HasKeys rs keys → ¬ c.Answered world (t.deletes keys) ns := by
  cases hsts : s.heap.deleteStatements t rs with
  | error e =>
    apply Triple.bind (R := fun _ _ => False)
    · apply Triple.reading
      · intro s' sts hs hok
        subst hs
        rw [hsts] at hok
        cases hok
      · intro s' e' hs _ keys ns hkeys
        rw [Heap.deleteStatements_ok_iff.mpr ⟨keys, hkeys, rfl⟩] at hsts
        cases hsts
    · intro _ _ hfalse
      exact hfalse.elim
  | ok sts =>
    obtain ⟨keys, hkeys, rfl⟩ := Heap.deleteStatements_ok_iff.mp hsts
    apply Triple.reading_bind hsts
    have hperform := (Connection.perform_answered (h := s.heap) hc world t (t.deletes keys)
      s.trace).starting (s := s) ⟨rfl, rfl⟩
    apply Triple.bind (hperform.conseq (fun _ h => h) (fun _ _ h => h) _)
    · intro ns
      apply Triple.pure
      intro s' hs'
      exact ⟨keys, ns, hkeys, hs'.1, rfl, hs'.2⟩
    · intro _ s' hnone keys' ns hkeys'
      rw [← hkeys.unique hkeys']
      exact hnone ns

/-- Deleting the same records in two orders returns the same count, if it succeeds, and binds the
same keys. -/
structure DeletesAlike (w : Writer σ ρ) (store : String) (t : RecordType) (rs rs' : List RecordId)
    (s : Session σ) : Prop where
  total : ∀ n, (∃ s₁, w.delete t rs s = .ok n s₁) ↔ ∃ s₂, w.delete t rs' s = .ok n s₂
  bound : ∀ n s₁ s₂, w.delete t rs s = .ok n s₁ → w.delete t rs' s = .ok n s₂ →
    ∃ sts sts' ks ks', s.heap.BindsKeys t rs sts ks ∧ s.heap.BindsKeys t rs' sts' ks' ∧
      ks'.Perm ks ∧ s₁.trace = s.trace ++ sts.map (.execute store none) ∧
      s₂.trace = s.trace ++ sts'.map (.execute store none)

/-- A delete that succeeds does so in every order of its records. -/
theorem sql_delete_perm (hc : c.Repeats) (hin : t.isComposite = false → c.CountsUnordered)
    (hperm : rs'.Perm rs) {n : Nat} {s₁ : Session σ}
    (hdelete : (sql c deferrable).delete t rs s = .ok n s₁) :
    ∃ s₂, (sql c deferrable).delete t rs' s = .ok n s₂ := by
  have hspec := sql_delete_spec deferrable hc s.world t rs s s rfl
  have hspec' := sql_delete_spec deferrable hc s.world t rs' s s rfl
  rw [hdelete] at hspec
  obtain ⟨keys, ns, hkeys, hns, rfl, -⟩ := hspec
  obtain ⟨keys', hkeys', hkeysPerm⟩ := hkeys.perm hperm
  obtain ⟨ns', hns', hnsPerm⟩ := hns.deletes hin hkeysPerm
  cases hres : (sql c deferrable).delete t rs' s with
  | error halt s₂ =>
    rw [hres] at hspec'
    exact absurd hns' (hspec' keys' ns' hkeys')
  | ok m s₂ =>
    rw [hres] at hspec'
    obtain ⟨keys'', ns'', hkeys'', hns'', rfl, -⟩ := hspec'
    rw [← hkeys'.unique hkeys''] at hns''
    have htotal : total ns'' = total ns := by
      rw [← hns'.unique hns'']
      exact hnsPerm.sum_nat
    exact ⟨s₂, by rw [htotal]⟩

private theorem sql_deletesAlike (deferrable : Bool) (hc : c.Repeats)
    (hin : t.isComposite = false → c.CountsUnordered) (hperm : rs'.Perm rs) (s : Session σ) :
    (sql c deferrable).DeletesAlike c.store t rs rs' s where
  total n := by
    constructor
    · intro hexists
      obtain ⟨s₁, hdelete⟩ := hexists
      exact sql_delete_perm hc hin hperm hdelete
    · intro hexists
      obtain ⟨s₂, hdelete⟩ := hexists
      exact sql_delete_perm hc hin hperm.symm hdelete
  bound n s₁ s₂ h₁ h₂ := by
    obtain ⟨keys, -, hkeys, -, -, -, htrace⟩ :=
      (sql_delete_spec deferrable hc s.world t rs s).ok rfl h₁
    obtain ⟨keys', -, hkeys', -, -, -, htrace'⟩ :=
      (sql_delete_spec deferrable hc s.world t rs' s).ok rfl h₂
    obtain ⟨ks, hks, hksPerm⟩ := hkeys.perm hperm
    obtain rfl := hkeys'.unique hks
    exact ⟨_, _, keys, keys', hkeys.bindsKeys t, hkeys'.bindsKeys t, hksPerm, htrace, htrace'⟩

end Writer

namespace Transaction

variable {σ ρ : Type} {tx : Transaction σ ρ} {conn : String → Connection σ ρ}
  {deferrable : String → Bool} {h : Heap} {world : σ} {es : List Event}

private theorem confirm_all (t : RecordType) (rs : List RecordId) (ns : List Nat)
    (hlength : ns.length = rs.length) (hpos : ∀ n ∈ ns, 0 < n) (s : Session σ) :
    Triple (· = s) (confirm t rs ns : Working σ ρ Unit)
      (fun _ s' => s' = { s with heap := s.heap.modifyAll rs .resetChanges }) fun _ _ => False := by
  induction rs generalizing ns s with
  | nil =>
    apply Triple.pure
    intro s' hs
    subst hs
    rfl
  | cons r rs ih =>
    obtain ⟨n, ns, rfl⟩ := List.exists_cons_of_length_eq_add_one hlength
    obtain ⟨hn, hpos⟩ := List.forall_mem_cons.mp hpos
    rw [confirm, List.headD_cons, if_neg hn.ne', List.tail_cons]
    apply Triple.bind (R := fun _ s' => s' = { s with heap := s.heap.modify r .resetChanges })
    · apply Triple.updating
      intro s' hs
      subst hs
      rfl
    · intro _
      exact ih ns (Nat.succ.inj hlength) hpos _

/-- What comes before a batch is handed over. -/
def approach (tx : Transaction σ ρ) (store : String) : Leasing σ ρ (Writer σ ρ) := do
  tx.checkpoint
  tx.lease store

private theorem approach_spec (tx : Transaction σ ρ) (store : String) (run : Run σ) :
    Triple (· = run) (tx.approach store)
      (fun w run' => w = tx.writer store ∧ run'.session.heap = run.session.heap ∧
        statementsIn run'.session.trace = statementsIn run.session.trace)
      fun _ run' => run'.session.heap = run.session.heap ∧
        statementsIn run'.session.trace = statementsIn run.session.trace := by
  have hacquire : ∀ s : Session σ, s.heap = run.session.heap ∧
      statementsIn s.trace = statementsIn run.session.trace →
        (s.note (.acquire store)).heap = run.session.heap ∧
          statementsIn (s.note (.acquire store)).trace = statementsIn run.session.trace := by
    intro s hs
    refine ⟨hs.1, ?_⟩
    rw [Session.note, ← hs.2]
    simp [statementsIn, Event.statement?]
  have hcheck : Triple (· = run) tx.checkpoint (fun _ run' => run' = run)
      fun _ run' => run' = run := by
    intro run' hrun
    subst hrun
    rw [checkpoint]
    cases tx.cancelReason run'.session.world <;> rfl
  apply Triple.bind (hcheck.conseq (fun _ h => h) (fun _ _ h => h) _)
  · intro _
    apply (lease_spec (P := fun s => s.heap = run.session.heap ∧
      statementsIn s.trace = statementsIn run.session.trace) (E := fun _ s =>
      s.heap = run.session.heap ∧ statementsIn s.trace = statementsIn run.session.trace)
      (fun s hs => hacquire s hs) (fun s e hs _ => hacquire s hs)).conseq _ (fun _ _ h => h)
      (fun _ _ h => h)
    intro run' hrun
    subst hrun
    exact ⟨rfl, rfl⟩
  · intro _ run' hrun
    subst hrun
    exact ⟨rfl, rfl⟩

private theorem WritesBy.update_all (hw : tx.WritesBy conn deferrable) (b : Batch)
    (hc : (conn b.type.store).Repeats)
    (hes : b.records.Forall₂ ((conn b.type.store).Confirms h world b.type) es)
    (trace : List Event) :
    Triple (fun s => s.heap = h ∧ s.trace = trace)
      (do
        Working.note (.update b.type.name b.records)
        let counts ← (tx.writer b.type.store).update b.type b.records
        confirm b.type b.records counts
        return b.records.length)
      (fun n s => n = b.records.length ∧ s.heap = h.modifyAll b.records .resetChanges ∧
        s.trace = trace ++ .update b.type.name b.records :: es) fun _ _ => False := by
  rw [hw.writer]
  apply Triple.bind (R := fun _ s => s.heap = h ∧
    s.trace = trace ++ [.update b.type.name b.records])
  · apply Triple.note
    intro s hs
    exact ⟨hs.1, by rw [Session.note, hs.2]⟩
  · intro _
    apply (Connection.update_confirms hc hes _).bind
    intro ns
    apply Triple.of_starting
    intro s hs
    obtain ⟨hlength, hpos, hheap, htrace⟩ := hs
    apply (confirm_all b.type b.records ns hlength hpos s).bind
    intro _
    apply Triple.pure
    intro s' hs'
    subst hs'
    refine ⟨rfl, by rw [hheap], ?_⟩
    rw [htrace, List.append_assoc]
    rfl

private theorem updateBatch_approach (tx : Transaction σ ρ) (b : Batch) : tx.updateBatch b =
    tx.approach b.type.store >>= fun w => Leasing.during do
      Working.note (.update b.type.name b.records)
      let counts ← w.update b.type b.records
      confirm b.type b.records counts
      return b.records.length := by
  rw [updateBatch, writing, approach, bind_assoc]

/-- The update of a batch that is handed over and of which every record is confirmed. -/
theorem WritesBy.updateBatch_confirms (hw : tx.WritesBy conn deferrable) {b : Batch}
    (hc : (conn b.type.store).Repeats) {run run' : Run σ}
    (hrun : tx.approach b.type.store run = .ok (tx.writer b.type.store) run')
    (hes : b.records.Forall₂
      ((conn b.type.store).Confirms run'.session.heap world b.type) es) :
    ∃ run₁, tx.updateBatch b run = .ok b.records.length run₁ ∧
      run₁.session.heap = run'.session.heap.modifyAll b.records .resetChanges ∧
      run₁.session.trace = run'.session.trace ++ .update b.type.name b.records :: es := by
  have hwrite := Triple.during (hw.update_all b hc hes run'.session.trace) run' ⟨rfl, rfl⟩
  rw [updateBatch_approach]
  change ∃ run₁, EStateM.bind _ _ run = _ ∧ _
  rw [EStateM.bind, hrun]
  dsimp only
  cases hres : Leasing.during (do
      Working.note (.update b.type.name b.records)
      let counts ← (tx.writer b.type.store).update b.type b.records
      confirm b.type b.records counts
      return b.records.length) run' with
  | error halt run₁ =>
    rw [hres] at hwrite
    exact hwrite.elim
  | ok n run₁ =>
    rw [hres] at hwrite
    obtain ⟨rfl, hheap, htrace⟩ := hwrite
    exact ⟨run₁, rfl, hheap, htrace⟩

/-- Updating the same records in two orders: both stop in the same way before anything is written,
or both run the same statements, each in the order of its records, and leave the same records. -/
inductive UpdatesAlike (tx : Transaction σ ρ) (c : Connection σ ρ) (b b' : Batch)
    (run : Run σ) : Prop
  | stopped {halt : Halt ρ} {run' : Run σ} : tx.updateBatch b run = .error halt run' →
    tx.updateBatch b' run = .error halt run' → run'.session.heap = run.session.heap →
    statementsIn run'.session.trace = statementsIn run.session.trace → UpdatesAlike tx c b b' run
  | written {run₁ run₂ : Run σ} {before es es' : List Event} :
    tx.updateBatch b run = .ok b.records.length run₁ →
    tx.updateBatch b' run = .ok b.records.length run₂ →
    statementsIn before = statementsIn run.session.trace →
    run₁.session.trace = before ++ .update b.type.name b.records :: es →
    run₂.session.trace = before ++ .update b'.type.name b'.records :: es' →
    b.records.Forall₂ (c.Confirms run.session.heap run.session.world b.type) es →
    b'.records.Forall₂ (c.Confirms run.session.heap run.session.world b'.type) es' →
    es'.Perm es → (∀ q, run₂.session.heap.get q = run₁.session.heap.get q) →
    UpdatesAlike tx c b b' run

private theorem WritesBy.updatesAlike (hw : tx.WritesBy conn deferrable) {b : Batch}
    {rs : List RecordId} (hperm : rs.Perm b.records) (hc : (conn b.type.store).Repeats)
    (run : Run σ) (hconfirms : ∀ r ∈ b.records, ∃ e,
      (conn b.type.store).Confirms run.session.heap run.session.world b.type r e) :
    tx.UpdatesAlike (conn b.type.store) b { b with records := rs } run := by
  have hevents : ∃ es, b.records.Forall₂
      ((conn b.type.store).Confirms run.session.heap run.session.world b.type) es :=
    exists_forall₂ hconfirms
  obtain ⟨es, hes⟩ := hevents
  obtain ⟨es', hes', hesPerm⟩ := List.perm_comp_forall₂ hperm hes
  have happroach := approach_spec tx b.type.store run run rfl
  cases hrun : tx.approach b.type.store run with
  | error halt run' =>
    rw [hrun] at happroach
    have hfirst : tx.updateBatch b run = .error halt run' := by
      rw [updateBatch_approach]
      change EStateM.bind _ _ run = _
      rw [EStateM.bind, hrun]
    have hsecond : tx.updateBatch { b with records := rs } run = .error halt run' := by
      rw [updateBatch_approach]
      change EStateM.bind _ _ run = _
      rw [EStateM.bind, hrun]
    exact .stopped hfirst hsecond happroach.1 happroach.2
  | ok w run' =>
    rw [hrun] at happroach
    obtain ⟨rfl, hheap, hstatements⟩ := happroach
    have hes₁ := hes
    have hes₂ := hes'
    rw [← hheap] at hes₁ hes₂
    obtain ⟨run₁, hok₁, hheap₁, htrace₁⟩ := hw.updateBatch_confirms hc hrun hes₁
    obtain ⟨run₂, hok₂, hheap₂, htrace₂⟩ :=
      hw.updateBatch_confirms (b := { b with records := rs }) hc hrun hes₂
    rw [hperm.length_eq] at hok₂
    apply UpdatesAlike.written hok₁ hok₂ hstatements htrace₁ htrace₂ hes hes' hesPerm
    intro q
    have hreset : ∀ x : Record, x.resetChanges.resetChanges = x.resetChanges := fun _ => rfl
    rw [hheap₁, hheap₂, Heap.get_modifyAll hreset, Heap.get_modifyAll hreset]
    simp [hperm.mem_iff]

/-- The order of a batch does not matter, where answers depend on the statements only. If all
updates are answered with positive counts, updating the records in another order runs the same
statements in that order and leaves the same records. Deleting them in another order returns the
same count, if it succeeds, and binds the same keys. -/
theorem WritesBy.batch_order (hw : tx.WritesBy conn deferrable) {b : Batch} {rs : List RecordId}
    (hperm : rs.Perm b.records) (hc : (conn b.type.store).Repeats) (run : Run σ) :
    ((∀ r ∈ b.records, ∃ e,
        (conn b.type.store).Confirms run.session.heap run.session.world b.type r e) →
      tx.UpdatesAlike (conn b.type.store) b { b with records := rs } run) ∧
      ((b.type.isComposite = false → (conn b.type.store).CountsUnordered) →
        (tx.writer b.type.store).DeletesAlike b.type.store b.type b.records rs run.session) := by
  constructor
  · intro hconfirms
    exact hw.updatesAlike hperm hc run hconfirms
  · intro hin
    have halike := Writer.sql_deletesAlike (deferrable b.type.store) hc hin hperm run.session
    rw [hw.writer]
    rwa [hw.store] at halike

/-- A row is found for every statement, and as many are affected as there are parameters. -/
def tallying (store : String) : Connection Nat where
  store
  query _ _ n := (.ok (some { columns := [], values := [] }), n + 1)
  execute _ params n := (.ok params.length, n + 1)

/-- A record that has been moved to another one, which has no changes. -/
def moved : Heap :=
  ((∅ : Heap).set ⟨0⟩
    { (Record.persisted nodeType).setSlot 0 (.int64 1) with
      references := (∅ : NameMap RecordId).insert "parent" ⟨1⟩
      changed := (∅ : NameSet).add "parent" }).set
    ⟨1⟩ ((Record.persisted nodeType).setSlot 0 (.int64 2))

/-- An update by a statement and one that only looks for the row, in both orders. -/
theorem batch_order_moved :
    (sql tallying false).UpdatesAlike (tallying "main") ⟨nodeType, [⟨0⟩, ⟨1⟩]⟩
        ⟨nodeType, [⟨1⟩, ⟨0⟩]⟩ { session := { heap := moved, world := 0 } } ∧
      ((sql tallying false).writer "main").DeletesAlike "main" nodeType [⟨0⟩, ⟨1⟩] [⟨1⟩, ⟨0⟩]
        { heap := moved, world := 0 } := by
  have hw : (sql tallying false).WritesBy tallying fun _ => false := sql_writesBy fun _ => rfl
  have hperm : [(⟨1⟩ : RecordId), ⟨0⟩].Perm [⟨0⟩, ⟨1⟩] := .swap ..
  have hc : (tallying "main").Repeats := ⟨fun _ _ _ _ => rfl, fun _ _ _ _ => rfl⟩
  obtain ⟨hupdate, hdelete⟩ := hw.batch_order (b := ⟨nodeType, [⟨0⟩, ⟨1⟩]⟩) hperm hc
    { session := { heap := moved, world := 0 } }
  constructor
  · apply hupdate
    intro r hr
    simp only [List.mem_cons, List.not_mem_nil, or_false] at hr
    rcases hr with rfl | rfl
    · have hst : moved.updateStatement? nodeType ⟨0⟩ = .ok (some (.update "node"
          [("parent_id", .bigInt 2)] { columns := ["id"], values := [.bigInt 1] })) := by rfl
      exact ⟨_, .update hst rfl (by decide)⟩
    · have hnone : moved.updateStatement? nodeType ⟨1⟩ = .ok none := by rfl
      exact ⟨_, .probe hnone rfl rfl⟩
  · apply hdelete
    intro _ table column keys keys' world n hkeys hn
    rw [← hn]
    show Except.ok keys'.length = Except.ok keys.length
    rw [hkeys.length_eq]

end Transaction

end UnitOfWork
