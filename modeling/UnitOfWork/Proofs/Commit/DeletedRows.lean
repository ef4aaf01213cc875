import UnitOfWork.Proofs.Commit.DeletionLog
import UnitOfWork.Proofs.Tracking.Reconciling

/-!
# Deleted rows

The rows that a commit deletes belong to records that were to be deleted. None of them is the row of
a record that the same commit inserts, as long as a record that is created again is met when it is
tracked.
-/

namespace UnitOfWork

theorem Key.toValue_injective : Function.Injective Key.toValue := by
  intro k k' h
  cases k <;> cases k' <;> simp_all [toValue]

private theorem RowKey.values_injective : Function.Injective RowKey.values := by
  rintro ⟨cs⟩ ⟨cs'⟩ h
  exact congrArg mk (List.map_injective_iff.mpr Key.toValue_injective h)

/-- The statement deletes the row with the key. -/
def Statement.DeletesRow (key : RowKey) : Statement → Prop
  | delete _ found => found.values = key.values
  | deleteAny _ _ keys => ∃ v ∈ keys, key.values = [v]
  | insert .. | update .. | probe .. => False

namespace Heap

variable {h : Heap} {b : Batch} {st : Statement} {key : RowKey} {t : RecordType} {r q : RecordId}

/-- The statements of a trace that delete rows of records of the type. -/
def deletionsOf (h : Heap) (t : RecordType) (trace : List Event) : List Statement :=
  ((deletionLog trace).filter fun e => e.1.all fun q => (h.get q).type = t).map Prod.snd

private theorem exists_of_deletesRow (hst : st ∈ h.deletesOf b) (hrow : st.DeletesRow key)
    (hkeys : ∀ q ∈ b.records, ∀ key' ∈ h.primaryKey? q,
      key'.components.length = key.components.length) :
    ∃ q ∈ b.records, h.primaryKey? q = some key := by
  have hmem : ∀ {key'}, key' ∈ b.records.filterMap h.primaryKey? → ∃ q ∈ b.records,
      h.primaryKey? q = some key' := List.mem_filterMap.mp
  rw [deletesOf, RecordType.deletes] at hst
  split at hst
  · cases hst
  · split at hst
    · obtain ⟨key', hkey', rfl⟩ := List.mem_map.mp hst
      obtain rfl : key' = key := RowKey.values_injective hrow
      exact hmem hkey'
    · obtain rfl := List.mem_singleton.mp hst
      obtain ⟨v, hv, hvalues⟩ := hrow
      obtain ⟨key', hkey', hv⟩ := List.mem_flatMap.mp hv
      obtain ⟨q, hq, hqkey⟩ := hmem hkey'
      have hlength : key'.values.length = 1 := by
        rw [RowKey.values, List.length_map, hkeys q hq key' hqkey,
          ← List.length_map (f := Key.toValue), ← RowKey.values, hvalues, List.length_singleton]
      obtain ⟨v', hv'⟩ := List.length_eq_one_iff.mp hlength
      obtain rfl : v = v' := by rwa [hv', List.mem_singleton] at hv
      obtain rfl : key' = key := RowKey.values_injective (hv'.trans hvalues.symm)
      exact ⟨q, hq, hqkey⟩

/-- What the store has generated of the key of a record. -/
def generatedSlots (h : Heap) (r : RecordId) : List (Option Key) :=
  ((h.get r).keySlots.filter fun e => e.1.isGenerated).map Prod.snd

private theorem map_filter_isGenerated {es : List (KeyColumn × Option Key)} {ks : List Key}
    {follow : RecordId → Option RowKey} (hks : es.mapM (h.component? follow r) = some ks) :
    (es.filter fun e => e.1.isGenerated).map Prod.snd =
      (((es.map Prod.fst).zip ks).filter fun e => e.1.isGenerated).map fun e => some e.2 := by
  induction es generalizing ks with
  | nil => rfl
  | cons e es ih =>
    rw [List.mapM_cons] at hks
    obtain ⟨k, hk, hks⟩ := Option.bind_eq_some_iff.mp hks
    obtain ⟨ks, hrest, hks⟩ := Option.bind_eq_some_iff.mp hks
    obtain rfl := Option.some.inj hks
    obtain ⟨c, slot⟩ := e
    cases hc : c.isGenerated with
    | true =>
      rw [component?_generated hc] at hk
      simp [hc, hk, ih hrest]
    | false => simp [hc, ih hrest]

private theorem generatedSlots_eq (ht : (h.get q).type = (h.get r).type)
    (hr : h.primaryKey? r = some key)
    (hq : h.primaryKey? q = some key) : h.generatedSlots q = h.generatedSlots r := by
  have hslots : ∀ {u}, h.primaryKey? u = some key → h.generatedSlots u =
      (((h.get u).type.key.zip key.components).filter fun e => e.1.isGenerated).map
        fun e => some e.2 := by
    intro u hu
    rw [primaryKey?, resolve?] at hu
    obtain ⟨ks, hks, rfl⟩ := Option.map_eq_some_iff.mp hu
    rw [generatedSlots, map_filter_isGenerated hks, Record.map_fst_keySlots]
  rw [hslots hq, hslots hr, ht]

end Heap

theorem Transaction.DeletesInTurn.exists_record {σ : Type} {s : Session σ} {bs : List Batch}
    (hs : DeletesInTurn bs s) {t : RecordType} {st : Statement} {key : RowKey}
    (hst : st ∈ s.heap.deletionsOf t s.trace) (hrow : st.DeletesRow key)
    (hlength : key.components.length = t.arity) :
    ∃ q ∈ bs.flatMap (·.records), (s.heap.get q).type = t ∧ s.heap.primaryKey? q = some key := by
  obtain ⟨e, he, rfl⟩ := List.mem_map.mp hst
  obtain ⟨hlog, hall⟩ := List.mem_filter.mp he
  obtain ⟨b, hb, he⟩ := List.mem_flatMap.mp (hs.subset hlog)
  obtain ⟨st', hdeletes, rfl⟩ := List.mem_map.mp he
  have htypes : ∀ q ∈ b.records, (s.heap.get q).type = t := by simpa using hall
  obtain ⟨q, hq, hkey⟩ := Heap.exists_of_deletesRow hdeletes hrow fun q hq key' hkey' => by
    rw [Heap.length_primaryKey? hkey', htypes q hq, hlength]
  exact ⟨q, List.mem_flatMap.mpr ⟨b, hb, hq⟩, htypes q hq, hkey⟩

private theorem Written.mem_newRecords {w : Workspace} {h h' : Heap} {trace : List Event}
    {inserted fixedUp updated : List (RecordType × RecordId)} {deleted : List Statement}
    (hs : Written w h h' (statementsIn trace) inserted fixedUp updated deleted) {r : RecordId}
    (hr : r ∈ insertedIn trace) : r ∈ w.newRecords := by
  obtain ⟨e, he, hr⟩ := List.mem_filterMap.mp hr
  obtain ⟨table, assigned, returning, hst⟩ : ∃ table assigned returning,
      e.statement? = some (some r, .insert table assigned returning) := by
    rw [Event.inserted?] at hr
    split at hr
    · next hst =>
      obtain rfl := Option.some.inj hr
      exact ⟨_, _, _, hst⟩
    · cases hr
  have hmem : (some r, Statement.insert table assigned returning) ∈ statementsIn trace :=
    List.mem_filterMap.mpr ⟨e, he, hst⟩
  obtain ⟨xs, ys, zs, hlog, hxs, hys, hzs⟩ := hs.log
  have hfinds : ∀ {probed} {es : List (RecordType × RecordId)} {xs},
      es.Forall₂ (h'.Finds probed) xs →
        (some r, Statement.insert table assigned returning) ∉ xs := by
    intro probed es xs hall hx
    obtain ⟨e, -, -, ht⟩ := exists_of_mem_forall₂ hall hx
    cases ht
  simp only [hlog, List.mem_append, List.mem_map] at hmem
  rcases hmem with ((hx | hy) | hz) | ⟨st, -, hd⟩
  · obtain ⟨e, he, hfor, -⟩ := exists_of_mem_forall₂ hxs hx
    obtain rfl : r = e.2 := Option.some.inj hfor
    rw [Workspace.newRecords, ← entriesOf_snd]
    exact List.mem_map_of_mem (hs.inserted_mem e he).1
  · exact absurd hy (hfinds hys)
  · exact absurd hz (hfinds hzs)
  · cases hd

namespace Workspace

variable {σ ρ : Type} {tx : Transaction σ ρ} {conn : String → Connection σ ρ}
  {deferrable : String → Bool} {w w₁ : Workspace} {h h₁ : Heap}

/-- A commit that gets as far as writing inserts new records and deletes rows that are to be
deleted, and in the end the keys are what they were before the deletes. -/
theorem commit_rows (hw : tx.WritesBy conn deferrable) (hsound : w.Sound h)
    (hready : w.ready? h = some (w₁, h₁)) (world : σ) :
    let written := (endState (tx.writeAll w₁ { session := { heap := h₁, world } })).session.heap
    let c := (w.commit tx { heap := h, world }).2.2
    written.Settles c.heap ∧ Transaction.DeletesInTurn w₁.deleteBatches c ∧
      ∀ r ∈ insertedIn c.trace, r ∈ w₁.newRecords := by
  have hsound₁ := (ready?_sound hsound hready).1
  have hreleases := (commit_ready (s := { heap := h, world }) tx hready).2
  obtain ⟨heap, hsettles, hsession, -⟩ :=
    flush_settles hw.orderly { session := { heap := h₁, world } } hsound₁
  obtain ⟨log, counts, inserted, fixedUp, updated, deleted, hlog, hwritten⟩ :=
    (hw.flush_written world hsound₁).1
  rw [← (hlog.releases hreleases).1] at hwritten
  refine ⟨?_, (commit_deletesInTurn hw hsound hready world).1, fun r hr =>
    hwritten.mem_newRecords hr⟩
  rw [hreleases.heap, hsession]
  exact hsettles

end Workspace

namespace Operation

variable {σ ρ : Type} {tx : Transaction σ ρ} {s : Workspace × Heap} {w₁ : Workspace} {h₁ : Heap}
  {name : String} {key : RowKey} {r : RecordId}

/-- A commit that gets as far as writing checks the workspace first, and then the records are as the
writers leave them. -/
theorem exists_moves_commit (tx : Transaction σ ρ) (world : σ)
    (hready : s.1.ready? s.2 = some (w₁, h₁)) :
    Move.runAll s (Workspace.checkMoves s) = (w₁, h₁) ∧ ∃ settling,
      moves s (.commit tx world) = Workspace.checkMoves s ++
        .edit (endState (tx.writeAll w₁ { session := { heap := h₁, world } })).session.heap ::
          settling := by
  obtain ⟨hbypass, hcheck⟩ := Workspace.ready?_eq_some.mp hready
  have hend := Workspace.endState_checkReady s
  rw [hcheck] at hend
  refine ⟨hend.symm, ?_⟩
  rw [moves, if_neg (by simp [hbypass]), hcheck]
  dsimp only
  rw [flushMoves]
  cases tx.writeAll w₁ { session := { heap := h₁, world } } with
  | ok summary run => exact ⟨_, rfl⟩
  | error halt run => exact ⟨[], rfl⟩

private theorem written_reconciled (htx : tx.Orderly) (world : σ)
    (hs : Move.Reconciled name key r s)
    (hapt : Move.Along (Move.IsApt name key r) s (moves s (.commit tx world)))
    (hready : s.1.ready? s.2 = some (w₁, h₁)) :
    Move.Reconciled name key r
      (w₁, (endState (tx.writeAll w₁ { session := { heap := h₁, world } })).session.heap) := by
  have hlegal : Move.Along Move.IsLegal s (moves s (.commit tx world)) :=
    moves_legal htx ⟨hs.1, .refl s.2⟩
  obtain ⟨hchecked, settling, hmoves⟩ := exists_moves_commit tx world hready
  rw [hmoves, Move.along_append, hchecked] at hlegal hapt
  have hs₁ := hlegal.1.reconciled hapt.1 hs
  rw [hchecked] at hs₁
  exact hapt.2.1.run hlegal.2.1 hs₁

end Operation

section

variable {σ ρ : Type} {tx : Transaction σ ρ} {conn : String → Connection σ ρ}
  {deferrable : String → Bool} {world : σ} {config : Config} {ops : List (Operation σ ρ)}
  {t : RecordType} {r : RecordId} {key : RowKey}

/-- A commit does not delete the row of a record that it inserts. If the store generates no part of
the key, then all records with the key have to be handed over as they should be, in the commit, too;
otherwise what the store generates must not be that of a record that had a row before. -/
theorem commit_deletes_no_inserted_row (hlegal : Operation.AllLegal ({ config }, ∅) ops)
    (hw : tx.WritesBy conn deferrable) :
    let s := Operation.runAll ({ config }, ∅) ops
    let c := (s.1.commit tx { heap := s.2, world }).2.2
    r ∈ insertedIn c.trace → (c.heap.get r).type = t → c.heap.primaryKey? r = some key →
      key.kind? = some t.kind →
      (t.generatedCount = 0 → Move.Along (Move.IsApt t.name key r) ({ config }, ∅)
        (Operation.allMoves ({ config }, ∅) (ops ++ [.commit tx world]))) →
      (t.generatedCount ≠ 0 → ∀ q, (s.2.get q).isNew = false → (c.heap.get q).type = t →
        c.heap.generatedSlots q ≠ c.heap.generatedSlots r) →
      ∀ st ∈ c.heap.deletionsOf t c.trace, ¬ st.DeletesRow key := by
  intro s c hr ht hkey hkind hapt hfresh st hst hrow
  have hbegin : Move.SoundFrom ∅ ({ config }, ∅) := ⟨Workspace.sound_empty config ∅, .refl ∅⟩
  have hmoves := hlegal.moves_legal hbegin
  have hs : s = Move.runAll ({ config }, ∅) (Operation.allMoves ({ config }, ∅) ops) :=
    Operation.runAll_eq
  have hsound : s.1.Sound s.2 := by
    rw [hs]
    exact (Move.runAll_sound hmoves hbegin).1
  cases hready : s.1.ready? s.2 with
  | none =>
    obtain ⟨result, w', h', hcommit, -⟩ :=
      Workspace.commit_notReady (s := { heap := s.2, world }) tx hsound hready
    have htrace : c.trace = [] := congrArg (·.2.2.trace) hcommit
    rw [htrace] at hr
    cases hr
  | some s₁ =>
    obtain ⟨w₁, h₁⟩ := s₁
    obtain ⟨hsound₁, hfolds⟩ := Workspace.ready?_sound hsound hready
    obtain ⟨hsettles, hrows, hnews⟩ := Workspace.commit_rows hw hsound hready world
    obtain ⟨q, hq, hqt, hqkey⟩ := hrows.exists_record hst hrow
      ((Heap.length_primaryKey? hkey).trans (congrArg RecordType.arity ht))
    by_cases hg : t.generatedCount = 0
    · have happly := hapt hg
      rw [Operation.allMoves_append, Move.along_append, ← hs] at happly
      have hstart := hmoves.reconciled happly.1 (Move.reconciled_empty config ∅)
      rw [← hs] at hstart
      have hrec := Operation.written_reconciled hw.orderly world hstart
        (Move.along_append.mp happly.2).1 hready
      subst ht
      rw [hsettles.type] at hrec hkind hg
      rw [hsettles.primaryKey?] at hkey hqkey
      rw [hsettles.type, hsettles.type] at hqt
      exact hrec.primaryKey?_ne hkind hg (hnews r hr) hkey hq hqt hqkey
    · obtain ⟨kind, name, bucket, hbucket, hq⟩ := Workspace.mem_deleteBatches.mp hq
      obtain ⟨-, hnotNew⟩ := (hsound₁ kind name bucket hbucket).deleted q hq
      rw [hfolds.isNew] at hnotNew
      exact hfresh hg q hnotNew hqt (Heap.generatedSlots_eq (hqt.trans ht.symm) hkey hqkey)

end

/-! An item is deleted and created again; another one is deleted and yet another one is created. -/

def fourItems : Heap :=
  let recreated := ((∅ : Heap).set ⟨0⟩ Registry.readItem).set ⟨1⟩ Registry.newItem
  (recreated.set ⟨2⟩ (Registry.readItem.setSlot 0 (.int64 2))).set ⟨3⟩
    (Registry.newItem.setSlot 0 (.int64 3))

def recreateItem : List (Operation Nat) :=
  [.edit fourItems, .track ⟨0⟩, .delete ⟨0⟩, .track ⟨1⟩, .track ⟨2⟩, .delete ⟨2⟩, .track ⟨3⟩]

def recreateCommit : Session Nat :=
  let s := Operation.runAll ({}, ∅) recreateItem
  (s.1.commit (.sql refusingB false) { heap := s.2, world := 0 }).2.2

/-- One item is updated instead, one is inserted, and only the row of the other one is deleted. -/
theorem commit_deletes_no_inserted_row_items :
    recreateCommit.heap.deletionsOf (itemType "a") recreateCommit.trace =
        [.deleteAny "a" "id" [.bigInt 2]] ∧
      ∀ st ∈ recreateCommit.heap.deletionsOf (itemType "a") recreateCommit.trace,
        ¬ st.DeletesRow ⟨[.int64 3]⟩ := by
  have hlegal : Operation.AllLegal ({}, ∅) recreateItem :=
    ⟨.of_fresh (by decide +kernel), by decide +kernel, by decide +kernel, by decide +kernel,
      by decide +kernel, by decide +kernel, by decide +kernel, trivial⟩
  have hw : (Transaction.sql refusingB false).WritesBy refusingB fun _ => false :=
    Transaction.sql_writesBy fun _ => rfl
  refine ⟨by decide +kernel, ?_⟩
  exact commit_deletes_no_inserted_row (r := ⟨3⟩) hlegal hw (by decide +kernel) (by decide +kernel)
    (by decide +kernel) (by decide +kernel) (fun _ => by decide +kernel)
    fun hg => absurd (by decide +kernel) hg

/-! A new item, whose row is read nevertheless and then deleted. -/

/-- No known key is reassigned. -/
def Move.KeepsAllKeys (s : Workspace × Heap) (m : Move) : Prop :=
  ∀ q ∈ s.2.ids, ∀ key ∈ s.2.primaryKey? q, (m.run s).2.primaryKey? q = some key

instance (s : Workspace × Heap) (m : Move) : Decidable (m.KeepsAllKeys s) :=
  inferInstanceAs (Decidable (∀ q ∈ s.2.ids, ∀ key ∈ s.2.primaryKey? q, _))

def deleteReadItem : List (Operation Nat) :=
  [.edit Registry.oneItem, .track ⟨0⟩, .track ⟨1⟩, .delete ⟨1⟩]

/-- Some commit inserts a record and deletes its row. -/
theorem not_commit_deletes_no_inserted_row :
    ¬ ∀ (ops : List (Operation Nat)) (tx : Transaction Nat) (conn : String → Connection Nat)
        (deferrable : String → Bool) (world : Nat) (t : RecordType) (r : RecordId) (key : RowKey),
      Operation.AllLegal ({}, ∅) ops → tx.WritesBy conn deferrable →
        Move.Along Move.KeepsAllKeys ({}, ∅)
            (Operation.allMoves ({}, ∅) (ops ++ [.commit tx world])) →
          let s := Operation.runAll ({}, ∅) ops
          let c := (s.1.commit tx { heap := s.2, world }).2.2
          r ∈ insertedIn c.trace → (c.heap.get r).type = t → c.heap.primaryKey? r = some key →
            key.kind? = some t.kind → t.generatedCount = 0 →
              ∀ st ∈ c.heap.deletionsOf t c.trace, ¬ st.DeletesRow key := by
  intro hall
  have hlegal : Operation.AllLegal ({}, ∅) deleteReadItem :=
    ⟨.of_fresh (by decide +kernel), by decide +kernel, by decide +kernel, by decide +kernel,
      trivial⟩
  have hw : (Transaction.sql refusingB false).WritesBy refusingB fun _ => false :=
    Transaction.sql_writesBy fun _ => rfl
  exact hall deleteReadItem _ _ _ 0 (itemType "a") ⟨0⟩ ⟨[.int64 1]⟩ hlegal hw (by decide +kernel)
    (by decide +kernel) (by decide +kernel) (by decide +kernel) (by decide +kernel)
    (by decide +kernel) (.deleteAny "a" "id" [.bigInt 1]) (by decide +kernel)
    ⟨.bigInt 1, List.mem_singleton_self _, rfl⟩

end UnitOfWork
