import UnitOfWork.Proofs.Commit.InsertAccounts
import UnitOfWork.Proofs.Commit.InsertCycles
import UnitOfWork.Proofs.Tracking.Moves

/-!
# Every write once

A commit inserts each new record once, fixes up some of those, updates each live record that has
something to write once and deletes each row that is to be deleted once, in this order and without
any other statement. A commit that does not succeed has run the statements of some of these records
only, in the same order.
-/

namespace UnitOfWork

namespace Heap

variable {h h' : Heap}

private theorem Spares.modify_resetChanges {r : RecordId} (hr : (h.get r).isNew) :
    h.Spares (h.modify r .resetChanges) := by
  have hkept : ∀ q, (h.get q).isNew = false → (h.modify r .resetChanges).get q = h.get q := by
    intro q hq
    apply get_modify_of_ne
    rintro rfl
    rw [hr] at hq
    cases hq
  exact ⟨(Keeps.modify_resetChanges h r).evolves, fun q _ hq => by rw [hkept q hq],
    fun q _ hq => by rw [hkept q hq]⟩

private theorem Spares.modifyAll_resetChanges {rs : List RecordId}
    (hrs : ∀ r ∈ rs, (h.get r).isNew) :
    h.Spares (h.modifyAll rs .resetChanges) := by
  induction rs generalizing h with
  | nil => exact .refl h
  | cons r rs ih =>
    obtain ⟨hr, hrs⟩ := List.forall_mem_cons.mp hrs
    refine (Spares.modify_resetChanges hr).trans (ih fun q hq => ?_)
    rw [(Keeps.modify_resetChanges h r).isNew]
    exact hrs q hq

/-- The statements that delete the rows of the batch bind the key of each of its records once. -/
structure DeletesOnce (h : Heap) (b : Batch) : Prop where
  known : ∀ r ∈ b.records, (h.primaryKey? r).isSome
  nodup : (b.records.map h.primaryKey?).Nodup
  bound : (h.deletesOf b).flatMap Statement.params =
    (b.records.filterMap h.primaryKey?).flatMap RowKey.values

private theorem params_deletesOf (h : Heap) (b : Batch) : (h.deletesOf b).flatMap Statement.params =
    (b.records.filterMap h.primaryKey?).flatMap RowKey.values := by
  rw [deletesOf, RecordType.deletes]
  split
  · next hempty => rw [List.isEmpty_iff.mp hempty]; rfl
  · split
    · rw [List.flatMap_map]
      rfl
    · rw [List.flatMap_singleton]
      rfl

theorem Settles.deletesOf (a : h.Settles h') (b : Batch) : h'.deletesOf b = h.deletesOf b := by
  rw [Heap.deletesOf, Heap.deletesOf, funext a.primaryKey?]

end Heap

namespace Workspace

variable {w : Workspace} {h h' : Heap}

/-- The records that have a row have the keys that they are filed under. -/
def FiledByKey (w : Workspace) (h : Heap) : Prop :=
  ∀ kind, ∀ b ∈ (w.registry kind).buckets.values, ∀ e ∈ b.live.entries ++ b.deleted.entries,
    h.primaryKey? e.2 = some e.1

/-- What is to be updated does not depend on what becomes of the new records before. -/
theorem Sound.updateBatches_eq (hw : w.Sound h) (a : h.Spares h') :
    w.updateBatches h' = w.updateBatches h := by
  have hbatches : ∀ kind,
      (w.registry kind).updateBatches h' = (w.registry kind).updateBatches h := by
    intro kind
    apply List.filterMap_congr
    intro b hb
    obtain ⟨name, hb⟩ := NameMap.mem_values.mp hb
    have hdirty : b.dirty h' = b.dirty h := by
      rw [Bucket.dirty, Bucket.dirty]
      congr 1
      apply List.filter_congr
      intro r hr
      obtain ⟨hm, hn⟩ := (hw kind name b hb).live r hr
      rw [Record.hasChanges, Record.hasChanges, a.changed r hm.mem hn, a.hydrated r hm.mem hn]
    dsimp only
    rw [hdirty]
  rw [updateBatches, updateBatches, funext hbatches]

private theorem Sound.nodup_updateBatches (hw : w.Sound h) (hk : w.FiledByKey h') :
    ((entriesOf (w.updateBatches h)).map Prod.snd).Nodup := by
  rw [entriesOf_snd, List.nodup_flatMap]
  constructor
  · intro b hb
    simp only [updateBatches, List.mem_flatMap, Registry.updateBatches, Registry.mem_batches] at hb
    obtain ⟨kind, -, -, name, bucket, hget, -, hrec⟩ := hb
    have hlive := FinMap.nodup_map_values (m := bucket.live) fun e he =>
      hk kind bucket (NameMap.mem_values.mpr ⟨name, hget⟩) e (List.mem_append_left _ he)
    rw [hrec, Bucket.dirty, inCreationOrder]
    exact (List.mergeSort_perm ..).nodup_iff.mpr (hlive.of_map.filter _)
  · refine hw.pairwise_updateBatches.imp fun hprec => ?_
    exact List.disjoint_left.mpr fun r hr hr' => (hprec r hr r hr').ne rfl

private theorem FiledByKey.deletesOnce (hk : w.FiledByKey h) {b : Batch}
    (hb : b ∈ w.deleteBatches) :
    h.DeletesOnce b := by
  simp only [deleteBatches, List.mem_flatMap, Registry.deleteBatches, Registry.mem_batches] at hb
  obtain ⟨kind, -, -, name, bucket, hget, -, hrec⟩ := hb
  have hkeys : ∀ e ∈ bucket.deleted.entries, h.primaryKey? e.2 = some e.1 := fun e he =>
    hk kind bucket (NameMap.mem_values.mpr ⟨name, hget⟩) e (List.mem_append_right _ he)
  have hperm : b.records.Perm bucket.deleted.values := by
    rw [hrec, inCreationOrder]
    exact List.mergeSort_perm ..
  refine ⟨fun r hr => ?_, (hperm.map _).nodup_iff.mpr (FinMap.nodup_map_values hkeys),
    h.params_deletesOf b⟩
  obtain ⟨e, he, rfl⟩ := List.mem_map.mp (hperm.mem_iff.mp hr)
  rw [hkeys e he]
  rfl

end Workspace

/-- What the statements of a commit are for that began with the workspace `w` and the records `h`,
when the records have become `h'`. -/
structure Written (w : Workspace) (h h' : Heap) (log : List (Option RecordId × Statement))
    (inserted fixedUp updated : List (RecordType × RecordId)) (deleted : List Statement) :
    Prop where
  log : ∃ xs ys zs, log = xs ++ ys ++ zs ++ deleted.map (none, ·) ∧
    inserted.Forall₂ Transaction.InsertsRow xs ∧
      fixedUp.Forall₂ (h'.Finds h.WritesNoReference) ys ∧
      updated.Forall₂ (h'.Finds fun _ _ => True) zs
  inserted_mem : ∀ e ∈ inserted, e ∈ entriesOf w.insertBatches ∧ (h.get e.2).isNew
  inserted_nodup : (inserted.map Prod.snd).Nodup
  fixedUp_mem : ∀ e ∈ fixedUp, e ∈ inserted
  fixedUp_nodup : (fixedUp.map Prod.snd).Nodup
  updated_initial : updated <+: entriesOf (w.updateBatches h)
  deleted_initial : deleted <+: w.deleteBatches.flatMap h'.deletesOf

namespace Written

variable {w : Workspace} {h h' h'' : Heap} {log : List (Option RecordId × Statement)}
  {inserted fixedUp updated : List (RecordType × RecordId)} {deleted : List Statement}

private theorem nothing (w : Workspace) (h h' : Heap) : Written w h h' [] [] [] [] [] where
  log := ⟨[], [], [], rfl, .nil, .nil, .nil⟩
  inserted_mem _ he := absurd he List.not_mem_nil
  inserted_nodup := .nil
  fixedUp_mem _ he := absurd he List.not_mem_nil
  fixedUp_nodup := .nil
  updated_initial := List.nil_prefix
  deleted_initial := List.nil_prefix

private theorem settles (hs : Written w h h' log inserted fixedUp updated deleted)
    (a : h'.Settles h'') : Written w h h'' log inserted fixedUp updated deleted := by
  obtain ⟨xs, ys, zs, hlog, hxs, hys, hzs⟩ := hs.log
  refine { hs with
    log := ⟨xs, ys, zs, hlog, hxs, hys.imp fun _ _ hx => hx.settles a,
      hzs.imp fun _ _ hx => hx.settles a⟩
    deleted_initial := ?_ }
  rw [funext a.deletesOf]
  exact hs.deleted_initial

private theorem fixUp {ys : List (Option RecordId × Statement)}
    (hs : Written w h h' log inserted [] [] []) (hk : h.Keeps h')
    (hys : fixedUp.Forall₂ (h'.Finds h'.MayProbe) ys) (hmem : ∀ e ∈ fixedUp, e ∈ inserted)
    (hnodup : (fixedUp.map Prod.snd).Nodup) :
    Written w h h' (log ++ ys) inserted fixedUp [] [] := by
  obtain ⟨xs, ys', zs, hlog, hxs, hnil, hnil'⟩ := hs.log
  obtain rfl := List.forall₂_nil_left_iff.mp hnil
  obtain rfl := List.forall₂_nil_left_iff.mp hnil'
  refine { hs with
    log := ⟨xs, ys, [], by simp [hlog], hxs, ?_, .nil⟩
    fixedUp_mem := hmem
    fixedUp_nodup := hnodup }
  have hnew : ∀ e ∈ fixedUp, (h.get e.2).isNew := fun e he => (hs.inserted_mem e (hmem e he)).2
  refine ((List.forall₂_and_left _ _).mpr ⟨hnew, hys⟩).imp fun e x hx => hx.2.imp fun hp => ?_
  exact (hk.mayProbe e.1 e.2).mp hp hx.1

private theorem update {zs : List (Option RecordId × Statement)}
    (hs : Written w h h' log inserted fixedUp [] [])
    (hzs : updated.Forall₂ (h'.Finds h'.MayProbe) zs)
    (hinitial : updated <+: entriesOf (w.updateBatches h)) :
    Written w h h' (log ++ zs) inserted fixedUp updated [] := by
  obtain ⟨xs, ys, zs', hlog, hxs, hys, hnil⟩ := hs.log
  obtain rfl := List.forall₂_nil_left_iff.mp hnil
  exact { hs with
    log := ⟨xs, ys, zs, by simp [hlog], hxs, hys,
      hzs.imp fun _ _ hx => hx.imp fun _ => trivial⟩
    updated_initial := hinitial }

private theorem delete (hs : Written w h h' log inserted fixedUp updated [])
    (hinitial : deleted <+: w.deleteBatches.flatMap h'.deletesOf) :
    Written w h h' (log ++ deleted.map (none, ·)) inserted fixedUp updated deleted := by
  obtain ⟨xs, ys, zs, hlog, hall⟩ := hs.log
  exact { hs with
    log := ⟨xs, ys, zs, by simp [hlog], hall⟩
    deleted_initial := hinitial }

private theorem perm_insertBatches (hs : Written w h h' log inserted fixedUp updated deleted)
    (hsound : w.Sound h)
    (hnews : ∀ e ∈ entriesOf w.insertBatches, (h.get e.2).isNew → e ∈ inserted)
    (hnew : ∀ r ∈ w.newRecords, (h.get r).isNew) : inserted.Perm (entriesOf w.insertBatches) := by
  have hnodup := hsound.nodup_newRecords
  rw [Workspace.newRecords, ← entriesOf_snd] at hnodup hnew
  refine (List.perm_ext_iff_of_nodup hs.inserted_nodup.of_map hnodup.of_map).mpr fun e =>
    ⟨fun he => (hs.inserted_mem e he).1, fun he => hnews e he ?_⟩
  exact hnew e.2 (List.mem_map_of_mem he)

end Written

namespace Transaction

variable {σ ρ : Type} {tx : Transaction σ ρ} {conn : String → Connection σ ρ}
  {deferrable : String → Bool} {world : σ} {w : Workspace} {h : Heap} {s : Session σ}
  {inserted fixedUp updated : List (RecordType × RecordId)} {deleted : List Statement}

/-- A row was found for each of these reports. -/
def AllPositive (counts : List (Option Nat)) : Prop := ∀ c ∈ counts, ∃ n, 0 < n ∧ c = some n

theorem AllPositive.append {counts : List (Option Nat)} {ns : List Nat}
    (hs : AllPositive counts) (hns : ∀ n ∈ ns, 0 < n) : AllPositive (counts ++ ns.map some) := by
  intro c hc
  rcases List.mem_append.mp hc with hc | hc
  · exact hs c hc
  · obtain ⟨n, hn, rfl⟩ := List.mem_map.mp hc
    exact ⟨n, hns n hn, rfl⟩

/-- The session has run statements for some of what there is to write. -/
def HasWritten (tx : Transaction σ ρ) (conn : String → Connection σ ρ) (world : σ) (w : Workspace)
    (h : Heap) (s : Session σ) : Prop :=
  ∃ log counts inserted fixedUp updated deleted, tx.Logged conn world log counts s ∧
    Written w h s.heap log inserted fixedUp updated deleted

/-- The session has run these statements, and every row that they had to find was found. -/
def HasConfirmed (tx : Transaction σ ρ) (conn : String → Connection σ ρ) (world : σ) (w : Workspace)
    (h : Heap) (inserted fixedUp updated : List (RecordType × RecordId)) (deleted : List Statement)
    (s : Session σ) : Prop :=
  ∃ log counts, tx.Logged conn world log counts s ∧
    Written w h s.heap log inserted fixedUp updated deleted ∧ AllPositive counts

private theorem HasConfirmed.hasWritten
    (hs : tx.HasConfirmed conn world w h inserted fixedUp updated deleted s) :
    tx.HasWritten conn world w h s := by
  obtain ⟨log, counts, hlog, hwritten, -⟩ := hs
  exact ⟨log, counts, _, _, _, _, hlog, hwritten⟩

private theorem Accounts.hasConfirmed {todo fixUps : List (RecordType × RecordId)}
    (hs : tx.Accounts conn world h (entriesOf w.insertBatches) todo fixUps inserted s) :
    tx.HasConfirmed conn world w h inserted [] [] [] s := by
  obtain ⟨xs, hxs, hlog⟩ := hs.log
  refine ⟨xs, [], hlog, ?_, fun c hc => absurd hc List.not_mem_nil⟩
  have hnodup := hs.nodup
  rw [List.map_append, List.nodup_append'] at hnodup
  exact { Written.nothing w h s.heap with
    log := ⟨xs, [], [], by simp, hxs, .nil, .nil⟩
    inserted_mem := fun e he => ⟨hs.mem_news e (List.mem_append_right _ he), hs.isNew e he⟩
    inserted_nodup := hnodup.2.1
    fixedUp_mem := fun e he => absurd he List.not_mem_nil }

private theorem WritesBy.fixUps_confirmed (hw : tx.WritesBy conn deferrable) (fixUps : List Batch) :
    Triple (fun run => tx.Accounts conn world h (entriesOf w.insertBatches) [] (entriesOf fixUps)
        inserted run.session)
      (fixUps.mapM tx.updateBatch)
      (fun _ run => tx.HasConfirmed conn world w h inserted (entriesOf fixUps) [] [] run.session ∧
        h.Spares run.session.heap)
      fun _ run => tx.HasWritten conn world w h run.session := by
  refine Triple.of_starting fun run hs => ?_
  obtain ⟨log, counts, hlog, hwritten, hpos⟩ := hs.hasConfirmed
  refine ((hw.updates_logged fixUps).starting ⟨hlog, rfl⟩).conseq (fun _ h => h) ?_ ?_
  · rintro _ run' ⟨⟨ys, ns, hys, hns, hlog'⟩, hheap⟩
    have hall := hwritten.fixUp hs.keeps hys hs.fixUps_inserted hs.fixUps_nodup
    have hsettles := Heap.Settles.modifyAll Heap.Settles.modify_resetChanges run.session.heap
      ((entriesOf fixUps).map Prod.snd)
    have hnew : ∀ r ∈ (entriesOf fixUps).map Prod.snd, (run.session.heap.get r).isNew := by
      intro r hr
      obtain ⟨e, he, rfl⟩ := List.mem_map.mp hr
      rw [hs.keeps.isNew]
      exact hs.isNew e (hs.fixUps_inserted e he)
    rw [← hheap] at hsettles
    refine ⟨⟨_, _, hlog', hall.settles hsettles, hpos.append hns⟩, ?_⟩
    rw [hheap]
    exact hs.spares.trans (.modifyAll_resetChanges hnew)
  · rintro _ run' ⟨⟨done, ys, counts', hdone, hys, hlog'⟩, hsettles⟩
    have hall := hwritten.fixUp hs.keeps hys
      (fun e he => hs.fixUps_inserted e (hdone.subset he))
      (hs.fixUps_nodup.sublist (hdone.sublist.map _))
    exact ⟨_, _, _, _, _, _, hlog', hall.settles hsettles⟩

private theorem WritesBy.updates_confirmed (hw : tx.WritesBy conn deferrable) {bs : List Batch}
    (hbs : bs = w.updateBatches h) :
    Triple (fun run => tx.HasConfirmed conn world w h inserted fixedUp [] [] run.session)
      (bs.mapM tx.updateBatch)
      (fun _ run => tx.HasConfirmed conn world w h inserted fixedUp
        (entriesOf (w.updateBatches h)) [] run.session)
      fun _ run => tx.HasWritten conn world w h run.session := by
  subst hbs
  refine Triple.of_starting fun run hs => ?_
  obtain ⟨log, counts, hlog, hwritten, hpos⟩ := hs
  refine ((hw.updates_logged _).starting ⟨hlog, rfl⟩).conseq (fun _ h => h) ?_ ?_
  · rintro _ run' ⟨⟨zs, ns, hzs, hns, hlog'⟩, hheap⟩
    have hsettles := Heap.Settles.modifyAll Heap.Settles.modify_resetChanges run.session.heap
      ((entriesOf (w.updateBatches h)).map Prod.snd)
    rw [← hheap] at hsettles
    exact ⟨_, _, hlog', (hwritten.update hzs List.prefix_rfl).settles hsettles, hpos.append hns⟩
  · rintro _ run' ⟨⟨done, zs, counts', hdone, hzs, hlog'⟩, hsettles⟩
    exact ⟨_, _, _, _, _, _, hlog', (hwritten.update hzs hdone).settles hsettles⟩

private theorem WritesBy.deletes_confirmed (hw : tx.WritesBy conn deferrable) :
    Triple (fun run => tx.HasConfirmed conn world w h inserted fixedUp updated [] run.session)
      (w.deleteBatches.mapM tx.deleteBatch)
      (fun _ run => tx.HasConfirmed conn world w h inserted fixedUp updated
        (w.deleteBatches.flatMap run.session.heap.deletesOf) run.session)
      fun _ run => tx.HasWritten conn world w h run.session := by
  refine Triple.of_starting fun run hs => ?_
  obtain ⟨log, counts, hlog, hwritten, hpos⟩ := hs
  refine ((hw.deletes_logged w.deleteBatches).starting ⟨hlog, rfl⟩).conseq (fun _ h => h) ?_ ?_
  · rintro _ run' ⟨hlog', hheap⟩
    rw [← hheap] at hwritten hlog'
    exact ⟨_, _, hlog', hwritten.delete List.prefix_rfl, hpos⟩
  · rintro _ run' ⟨⟨done, hdone, hlog'⟩, hheap⟩
    rw [← hheap] at hwritten hdone
    exact ⟨_, _, _, _, _, _, hlog', hwritten.delete hdone⟩

/-- All there is to write has been written. -/
def HasWrittenAll (tx : Transaction σ ρ) (conn : String → Connection σ ρ) (world : σ)
    (w : Workspace) (h : Heap) (s : Session σ) : Prop :=
  ∃ inserted fixedUp, tx.HasConfirmed conn world w h inserted fixedUp
      (entriesOf (w.updateBatches h)) (w.deleteBatches.flatMap s.heap.deletesOf) s ∧
    ∀ e ∈ entriesOf w.insertBatches, (h.get e.2).isNew → e ∈ inserted

private theorem HasWrittenAll.hasWritten (hs : tx.HasWrittenAll conn world w h s) :
    tx.HasWritten conn world w h s := by
  obtain ⟨inserted, fixedUp, hconfirmed, -⟩ := hs
  exact hconfirmed.hasWritten

/-- The writing of a sound workspace that succeeds writes all there is to write. -/
theorem WritesBy.writeAll_written (hw : tx.WritesBy conn deferrable) (world : σ)
    (hsound : w.Sound h) :
    Triple (· = { session := { heap := h, world } }) (tx.writeAll w)
      (fun _ run => tx.HasWrittenAll conn world w h run.session)
      fun _ run => tx.HasWritten conn world w h run.session := by
  have hnews : ((entriesOf w.insertBatches).map Prod.snd).Nodup := by
    rw [entriesOf_snd]
    exact hsound.nodup_newRecords
  have hstart : tx.Accounts conn world h (entriesOf w.insertBatches) (entriesOf w.insertBatches)
      [] [] { heap := h, world } :=
    { log := ⟨[], .nil, .start h⟩
      nodup := by rwa [List.append_nil]
      mem_news := fun e he => by rwa [List.append_nil] at he
      all := fun e he _ => by rwa [List.append_nil]
      isNew := fun e he => absurd he List.not_mem_nil
      fixUps_nodup := .nil
      fixUps_inserted := fun e he => absurd he List.not_mem_nil
      keeps := .refl h
      spares := .refl h }
  have hinserts := (accounts_invariant hw world h (entriesOf w.insertBatches)).insertAll
    {} w.insertBatches []
  rw [writeAll]
  refine Triple.bind ((hinserts.starting ⟨[], hstart⟩).conseq (fun _ h => h) (fun _ _ h => h) ?_)
    fun result => Triple.of_starting fun run₁ hs₁ => ?_
  · rintro _ run ⟨todo, fixUps, inserted, hs⟩
    exact hs.hasConfirmed.hasWritten
  obtain ⟨summary, fixUps⟩ := result
  obtain ⟨inserted, hs₁⟩ := hs₁
  refine Triple.bind ((hw.fixUps_confirmed fixUps).starting hs₁) fun fixed =>
    Triple.of_starting fun run₂ hs₂ => ?_
  obtain ⟨hconfirmed, hspares⟩ := hs₂
  refine Triple.bind (R := fun heap run => heap = run₂.session.heap ∧ run = run₂)
    (fun run hrun => ⟨hrun ▸ rfl, hrun⟩) fun heap => Triple.of_starting fun run hrun => ?_
  obtain ⟨rfl, rfl⟩ := hrun
  have hupdates := (hw.updates_confirmed (hsound.updateBatches_eq hspares)).starting hconfirmed
  refine Triple.bind hupdates fun updated =>
    Triple.bind hw.deletes_confirmed fun deleted => Triple.pure fun run hs =>
      ⟨inserted, entriesOf fixUps, hs, hs₁.all⟩

theorem WritesBy.flush_written (hw : tx.WritesBy conn deferrable) (world : σ)
    (hsound : w.Sound h) :
    let c := w.flush tx { session := { heap := h, world } }
    tx.HasWritten conn world w h c.2.2.session ∧
      (c.1.isOk → tx.HasWrittenAll conn world w h c.2.2.session) := by
  have hwrite := hw.writeAll_written world hsound _ rfl
  obtain ⟨heap, hsettles, hsession, -⟩ :=
    Workspace.flush_settles hw.orderly { session := { heap := h, world } } hsound
  cases hres : tx.writeAll w { session := { heap := h, world } } with
  | error halt run =>
    rw [hres] at hwrite
    rw [Workspace.flush, hres]
    exact ⟨hwrite, fun hok => Bool.noConfusion hok⟩
  | ok summary run =>
    rw [hres] at hwrite hsettles hsession
    obtain ⟨inserted, fixedUp, ⟨log, counts, hlog, hwritten, hpos⟩, hnews⟩ := hwrite
    have hall : tx.HasWrittenAll conn world w h { run.session with heap } := by
      refine ⟨inserted, fixedUp, ⟨log, counts, hlog.withHeap heap, ?_, hpos⟩, hnews⟩
      rw [funext hsettles.deletesOf]
      exact hwritten.settles hsettles
    dsimp only
    rw [hsession]
    exact ⟨hall.hasWritten, fun _ => hall⟩

theorem WritesBy.commit_writtenAll (hw : tx.WritesBy conn deferrable) {w₁ : Workspace} {h₁ : Heap}
    (hsound : w.Sound h) (hready : w.ready? h = some (w₁, h₁))
    (hok : (w.commit tx { heap := h, world }).1.isOk) :
    let c := (w.commit tx { heap := h, world }).2.2
    ∃ inserted fixedUp,
      Written w₁ h₁ c.heap (statementsIn c.trace) inserted fixedUp
        (entriesOf (w₁.updateBatches h₁)) (w₁.deleteBatches.flatMap c.heap.deletesOf) ∧
      (∀ e ∈ entriesOf w₁.insertBatches, (h₁.get e.2).isNew → e ∈ inserted) ∧
      AllPositive (tx.reports conn world c.trace) := by
  obtain ⟨summary, hresult⟩ := exists_ok_of_isOk hok
  have hflush := Workspace.commit_ok (s := { heap := h, world }) hready hresult
  have hreleases := (Workspace.commit_ready (s := { heap := h, world }) tx hready).2
  obtain ⟨inserted, fixedUp, ⟨log, counts, hlog, hwritten, hpos⟩, hnews⟩ :=
    (hw.flush_written world (Workspace.ready?_sound hsound hready).1).2 (by rw [hflush]; rfl)
  obtain ⟨rfl, rfl⟩ := hlog.releases hreleases
  rw [← hreleases.heap] at hwritten
  exact ⟨inserted, fixedUp, hwritten, hnews, hpos⟩

end Transaction

section

variable {σ ρ : Type} {W : Transaction σ ρ → Prop} {past : List (List Event)} {w : Workspace}
  {h : Heap}

private theorem Life.untracked (life : Life W past w h) (hb : w.config.bypass) :
    w = { config := w.config } := by
  have hrun : ∀ {w : Workspace} {h : Heap} (op : Operation σ ρ),
      (w.config.bypass → w = { config := w.config }) →
        (op.run (w, h)).1.config.bypass →
          (op.run (w, h)).1 = { config := (op.run (w, h)).1.config } := by
    intro w h op ih hb
    rw [op.run_eq_runAll, Move.runAll_config] at hb
    rw [op.run_bypass hb]
    exact ih hb
  induction life with
  | begin config => rfl
  | edit _ _ ih => exact ih hb
  | @track _ _ _ r _ _ ih => exact hrun (.track r) ih hb
  | @delete _ _ _ r _ _ ih => exact hrun (.delete r) ih hb
  | @importGraph _ _ _ root _ _ ih => exact hrun (.importGraph root) ih hb
  | check _ ih =>
    rw [Workspace.endState_checkReady, Move.runAll_config] at hb
    rw [ih hb]
    rfl
  | @commit _ _ _ tx world _ _ ih => exact hrun (.commit tx world) ih hb

variable {tx : Transaction σ ρ} {conn : String → Connection σ ρ} {deferrable : String → Bool}

private theorem commit_written (hW : ∀ tx, W tx → tx.Orderly) (life : Life W past w h)
    (hw : tx.WritesBy conn deferrable) (world : σ) :
    let s := endState (Workspace.checkReady (w, h))
    let c := w.commit tx { heap := h, world }
    ∃ inserted fixedUp updated deleted,
      Written s.1 s.2 c.2.2.heap (statementsIn c.2.2.trace) inserted fixedUp updated deleted ∧
        (c.1.isOk →
          ((∀ r ∈ s.1.newRecords, (s.2.get r).isNew) →
            inserted.Perm (entriesOf s.1.insertBatches)) ∧
          updated = entriesOf (s.1.updateBatches s.2) ∧
          deleted = s.1.deleteBatches.flatMap c.2.2.heap.deletesOf ∧
          Transaction.AllPositive (tx.reports conn world c.2.2.trace)) := by
  have hsound := life.sound hW
  cases hready : w.ready? h with
  | some s =>
    obtain ⟨hsound₁, -⟩ := Workspace.ready?_sound hsound hready
    rw [(Workspace.ready?_eq_some.mp hready).2]
    dsimp only [endState]
    cases hresult : (w.commit tx { heap := h, world }).1 with
    | ok summary =>
      obtain ⟨inserted, fixedUp, hwritten, hnews, hpos⟩ :=
        hw.commit_writtenAll hsound hready (by rw [hresult]; rfl)
      have hperm := hwritten.perm_insertBatches hsound₁ hnews
      exact ⟨inserted, fixedUp, _, _, hwritten, fun _ => ⟨hperm, rfl, rfl, hpos⟩⟩
    | error halt =>
      have hreleases := (Workspace.commit_ready (s := { heap := h, world }) tx hready).2
      obtain ⟨log, counts, inserted, fixedUp, updated, deleted, hlog, hwritten⟩ :=
        (hw.flush_written world hsound₁).1
      obtain ⟨rfl, -⟩ := hlog.releases hreleases
      rw [hreleases.heap]
      exact ⟨inserted, fixedUp, updated, deleted, hwritten, fun hok => Bool.noConfusion hok⟩
  | none =>
    refine ⟨[], [], [], [], ?_⟩
    cases hb : w.config.bypass with
    | true =>
      rw [Workspace.commit, if_pos hb, life.untracked hb]
      have hcheck : Workspace.checkReady ({ config := w.config }, h) =
          .ok () ({ config := w.config }, h) := rfl
      rw [hcheck]
      exact ⟨.nothing _ _ _, fun _ => ⟨fun _ => .nil, rfl, rfl, fun c hc =>
        absurd hc List.not_mem_nil⟩⟩
    | false =>
      rw [Workspace.commit, if_neg (by simp [hb])]
      cases hc : Workspace.checkReady (w, h) with
      | error e s => exact ⟨.nothing _ _ _, fun hok => Bool.noConfusion hok⟩
      | ok u s =>
        rw [Workspace.ready?_eq_some.mpr ⟨hb, hc⟩] at hready
        cases hready

/-- In every commit of a life each write is issued once, one phase after the other: inserts, the
fix-ups of inserted records, updates and deletes. If the commit succeeds, this is all there is to
write after the check: every new record is inserted, every live record with something to write is
updated or at least looked for, the keys of the deleted records are all bound, and each row that a
statement had to find was found. A record that is fixed up gets an update, too, save that its row
is only looked for if no update writes any of its references. -/
theorem commit_writes_once (hW : ∀ tx, W tx → tx.Orderly) (life : Life W past w h)
    (hw : tx.WritesBy conn deferrable) (world : σ)
    (hkeys : (endState (Workspace.checkReady (w, h))).1.FiledByKey
      (w.commit tx { heap := h, world }).2.2.heap) :
    let s := endState (Workspace.checkReady (w, h))
    let c := w.commit tx { heap := h, world }
    ∃ inserted fixedUp updated deleted,
      Written s.1 s.2 c.2.2.heap (statementsIn c.2.2.trace) inserted fixedUp updated deleted ∧
      (updated.map Prod.snd).Nodup ∧
      (∀ b ∈ s.1.deleteBatches, c.2.2.heap.DeletesOnce b) ∧
      (c.1.isOk →
        ((∀ r ∈ s.1.newRecords, (s.2.get r).isNew) →
          inserted.Perm (entriesOf s.1.insertBatches)) ∧
        updated = entriesOf (s.1.updateBatches s.2) ∧
        deleted = s.1.deleteBatches.flatMap c.2.2.heap.deletesOf ∧
        ∀ (i : Nat) (e : Event), c.2.2.trace[i]? = some e → e.seeksRow →
          ∃ n, 0 < n ∧ e.count? conn (tx.replay conn world (c.2.2.trace.take i)) = some n) := by
  have hsound := (preserves_iff.mp Workspace.checkReady_sound (w, h) ⟨life.sound hW, .refl h⟩).1
  obtain ⟨inserted, fixedUp, updated, deleted, hwritten, hok⟩ := commit_written hW life hw world
  refine ⟨inserted, fixedUp, updated, deleted, hwritten, ?_, ?_, fun hcommit => ?_⟩
  · exact (hsound.nodup_updateBatches hkeys).sublist (hwritten.updated_initial.sublist.map _)
  · exact fun b hb => hkeys.deletesOnce hb
  · obtain ⟨hperm, hupdated, hdeleted, hpos⟩ := hok hcommit
    exact ⟨hperm, hupdated, hdeleted, fun i e hi he => hpos _ (Transaction.mem_reports hi he)⟩

end

/-! A commit with something to do in each phase. -/

/-- A child and its parent, both new, and two items with a row. -/
def mixed : Heap := (family.set ⟨2⟩ (changedItem "a")).set ⟨3⟩ (changedItem "b")

/-- All of them are tracked, and the last one is deleted. -/
def mixedTracked : Workspace × Heap :=
  let s := endState (Workspace.track ⟨1⟩ (endState (Workspace.track ⟨0⟩ ({}, mixed))))
  let s := endState (Workspace.track ⟨3⟩ (endState (Workspace.track ⟨2⟩ s)))
  endState (Workspace.delete ⟨3⟩ s)

def mixedCommit : Except Halt Summary × Workspace × Session Nat :=
  mixedTracked.1.commit (.sql numbering true) { heap := mixedTracked.2, world := 1 }

private theorem mixedTracked_life :
    Life (σ := Nat) (ρ := CancelReason) Transaction.Orderly [] mixedTracked.1 mixedTracked.2 := by
  have hedits : (∅ : Heap).Edits mixed := .of_fresh (by decide +kernel)
  exact .delete (r := ⟨3⟩) (.track (r := ⟨3⟩) (.track (r := ⟨2⟩) (.track (r := ⟨1⟩)
    (.track (r := ⟨0⟩) (.edit (.begin {}) hedits) (by decide +kernel)) (by decide +kernel))
    (by decide +kernel)) (by decide +kernel)) (by decide +kernel)

/-- Both nodes are inserted, the one item is updated and the other one deleted. -/
theorem commit_writes_once_mixed : ∃ inserted fixedUp,
    Written mixedTracked.1 mixedTracked.2 mixedCommit.2.2.heap
      (statementsIn mixedCommit.2.2.trace) inserted fixedUp [(itemType "a", ⟨2⟩)]
      [.deleteAny "b" "id" [.bigInt 1]] ∧
    inserted.Perm [(nodeType, ⟨0⟩), (nodeType, ⟨1⟩)] := by
  have hcheck : endState (Workspace.checkReady mixedTracked) = mixedTracked := by decide +kernel
  have hkeys : (endState (Workspace.checkReady mixedTracked)).1.FiledByKey
      mixedCommit.2.2.heap := by
    intro kind
    cases kind <;> decide +kernel
  obtain ⟨inserted, fixedUp, updated, deleted, hwritten, -, -, hok⟩ := commit_writes_once
    (fun _ h => h) mixedTracked_life (Transaction.sql_writesBy fun _ => rfl) 1 hkeys
  obtain ⟨hperm, rfl, rfl, -⟩ := hok (by decide +kernel)
  rw [show endState (Workspace.checkReady (mixedTracked.1, mixedTracked.2)) = mixedTracked from
    hcheck] at hwritten hperm
  have hupdated : entriesOf (mixedTracked.1.updateBatches mixedTracked.2) =
    [(itemType "a", ⟨2⟩)] := by decide +kernel
  have hdeleted : mixedTracked.1.deleteBatches.flatMap mixedCommit.2.2.heap.deletesOf =
    [.deleteAny "b" "id" [.bigInt 1]] := by decide +kernel
  have hinserted : entriesOf mixedTracked.1.insertBatches =
    [(nodeType, ⟨0⟩), (nodeType, ⟨1⟩)] := by decide +kernel
  rw [← hupdated, ← hdeleted, ← hinserted]
  exact ⟨inserted, fixedUp, hwritten, hperm (by decide +kernel)⟩

/-! A fix-up that writes nothing. -/

/-- A type with a reference whose field bears the name of the key column. -/
def mirrorType : RecordType :=
  { nodeType with
    references := [{ name := "id", column := "parent_id", target := "node" }]
    sources_declared := by decide }

/-- A new record that refers to itself. -/
def mirrored : Heap :=
  (∅ : Heap).set ⟨0⟩
    { Record.create mirrorType with references := (∅ : NameMap RecordId).insert "id" ⟨0⟩ }

def mirrorTracked : Workspace × Heap := endState (Workspace.track ⟨0⟩ ({}, mirrored))

def mirrorCommit : Except Halt Summary × Workspace × Session Nat :=
  mirrorTracked.1.commit (.sql numbering false) { heap := mirrorTracked.2, world := 1 }

private theorem mirrorTracked_life :
    Life (σ := Nat) (ρ := CancelReason) Transaction.Orderly [] mirrorTracked.1 mirrorTracked.2 := by
  have hedits : (∅ : Heap).Edits mirrored := .of_fresh (by decide +kernel)
  exact .track (r := ⟨0⟩) (.edit (.begin {}) hedits) (by decide +kernel)

/-- Some commit succeeds that has looked for the row of a new record in place of fixing it up. -/
theorem not_commit_writes_once :
    ¬ ∀ (past : List (List Event)) (w : Workspace) (h : Heap) (tx : Transaction Nat)
        (conn : String → Connection Nat) (deferrable : String → Bool) (world : Nat),
      Life (σ := Nat) (ρ := CancelReason) Transaction.Orderly past w h →
        tx.WritesBy conn deferrable →
        (endState (Workspace.checkReady (w, h))).1.FiledByKey
          (w.commit tx { heap := h, world }).2.2.heap →
        (∀ r ∈ (endState (Workspace.checkReady (w, h))).1.newRecords,
          ((endState (Workspace.checkReady (w, h))).2.get r).isNew) →
        (w.commit tx { heap := h, world }).1.isOk →
          ∀ r table key, (some r, Statement.probe table key) ∈
              statementsIn (w.commit tx { heap := h, world }).2.2.trace →
            r ∈ (endState (Workspace.checkReady (w, h))).1.liveRecords := by
  intro hall
  have hkeys : (endState (Workspace.checkReady mirrorTracked)).1.FiledByKey
      mirrorCommit.2.2.heap := by
    intro kind
    cases kind <;> decide +kernel
  have hw : (Transaction.sql numbering false).WritesBy numbering fun _ => false :=
    Transaction.sql_writesBy fun _ => rfl
  have hlive := hall _ _ _ _ _ _ 1 mirrorTracked_life hw hkeys (by decide +kernel)
    (by decide +kernel) ⟨0⟩ "node" { columns := ["id"], values := [.bigInt 1] } (by decide +kernel)
  revert hlive
  decide +kernel

end UnitOfWork
