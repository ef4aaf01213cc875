import UnitOfWork.Proofs.Commit.FinalDeletes
import UnitOfWork.Proofs.Tracking.BucketTypes
import UnitOfWork.Proofs.Tracking.MarkedHistories

/-!
# Scheduled deletes

The row of a record that was taken out waits to be deleted until a commit deletes it, unless the
record is revived by a new one or another record is imported or taken out for the row. Where the
marks of the records and their places agree, a request to delete a record is all that has it marked,
so that what a workspace has marked is deleted by the next commit.
-/

namespace UnitOfWork

namespace Bucket

variable {kind : KeyKind} {name : String} {b b' : Bucket} {h h' : Heap} {r q : RecordId}
  {importing : Bool} {answer : Option RecordId} {key : RowKey}

/-- A row waits on for its deletion if its record stays marked and no other one is imported for
it. -/
theorem Tracks.get?_deleted (a : Tracks kind b h q importing answer b' h')
    (hr : b.deleted.get? key = some r) (hm : (h'.get r).isDeleted)
    (honly : importing → h.primaryKey? q = some key → q = r) : b'.deleted.get? key = some r := by
  cases a with
  | @revives key' p _ _ hp =>
    refine (FinMap.get?_erase_of_ne ?_).trans hr
    rintro rfl
    obtain rfl := Option.some.inj (hp.symm.trans hr)
    rw [Heap.get_modify_self] at hm
    cases hm
  | @replacesDeleted key' hst himporting _ _ =>
    refine (FinMap.get?_insert ..).trans ?_
    split
    · next hkey => rw [honly himporting (hkey ▸ hst.primaryKey?)]
    · exact hr
  | @restores key' hst himporting hunmarked _ =>
    refine (FinMap.get?_erase_of_ne ?_).trans hr
    rintro rfl
    rw [← honly himporting hst.primaryKey?, hunmarked] at hm
    cases hm
  | waits | lists | misfiles | joins | files | fails | finds | merges | mergesDeleted | enters =>
    exact hr

private theorem Removes.get?_deleted (a : Removes kind b h q b') (hr : b.deleted.get? key = some r)
    (hq : h.primaryKey? q ≠ some key) : b'.deleted.get? key = some r := by
  cases a with
  | deletes hst =>
    refine (FinMap.get?_insert_of_ne ?_).trans hr
    rintro rfl
    exact hq hst.primaryKey?
  | forgets | unfiles | fails => exact hr

end Bucket

namespace Move

variable {s : Workspace × Heap} {m : Move} {t : RecordType} {key : RowKey} {r : RecordId}

/-- The row of the record waits to be deleted under the key. -/
def Scheduled (t : RecordType) (key : RowKey) (r : RecordId) (s : Workspace × Heap) : Prop :=
  ∃ b, s.1.typeBucket? t = some b ∧ b.deleted.get? key = some r

/-- The record stays marked, which it does not if it is revived. No other one is imported or taken
out for its row, and what waits to be deleted is not forgotten. -/
def LeavesScheduled (t : RecordType) (key : RowKey) (r : RecordId) (s : Workspace × Heap)
    (m : Move) : Prop :=
  ((m.run s).2.get r).isDeleted ∧
    match m with
    | edit _ => True
    | track _ q importing =>
      importing → (s.2.get q).type.name = t.name → s.2.primaryKey? q = some key → q = r
    | remove _ q => (s.2.get q).type.name = t.name → s.2.primaryKey? q ≠ some key
    | settle kind purge => kind = t.kind → purge = false

instance : Decidable (m.LeavesScheduled t key r s) :=
  match m with
  | edit _ => inferInstanceAs (Decidable (_ ∧ True))
  | track _ _ _ => inferInstanceAs (Decidable (_ ∧ (_ → _ → _ → _)))
  | remove _ _ => inferInstanceAs (Decidable (_ ∧ (_ → _)))
  | settle _ _ => inferInstanceAs (Decidable (_ ∧ (_ → _)))

private theorem LeavesScheduled.run (hm : m.LeavesScheduled t key r s) (hs : Scheduled t key r s) :
    Scheduled t key r (m.run s) := by
  obtain ⟨b, hb, hr⟩ := hs
  obtain ⟨hmarked, hm⟩ := hm
  have hbucket : ∀ {kind : KeyKind} {q : RecordId}, t.kind = kind ∧ (s.2.get q).type.name = t.name →
      (s.1.registry kind).bucket (s.2.get q).type = b := by
    rintro kind q ⟨rfl, hname⟩
    rw [Registry.bucket, hname, show (s.1.registry t.kind).buckets.get? t.name = some b from hb,
      Option.getD_some]
  cases m with
  | edit h => exact ⟨b, hb, hr⟩
  | track kind q importing =>
    rw [Move.run, Registry.track, Workspace.heap_onBucket] at hmarked
    rw [Scheduled, Workspace.typeBucket?, Move.run, Registry.track, Workspace.get?_onBucket]
    split
    · next hsame =>
      rw [hbucket hsame] at hmarked ⊢
      exact ⟨_, rfl, (Bucket.track_tracks kind b s.2 q importing).get?_deleted hr hmarked
        fun himporting hkey => hm himporting hsame.2 hkey⟩
    · exact ⟨b, hb, hr⟩
  | remove kind q =>
    rw [Scheduled, Workspace.typeBucket?, Move.run, Registry.remove, Workspace.get?_onBucket]
    split
    · next hsame =>
      rw [hbucket hsame]
      exact ⟨_, rfl, (Bucket.remove_removes kind b s.2 q).2.get?_deleted hr (hm hsame.2)⟩
    · exact ⟨b, hb, hr⟩
  | settle kind purge =>
    rw [Scheduled, Workspace.typeBucket?, Move.run, Workspace.endState_onRegistry]
    dsimp only
    by_cases hkind : t.kind = kind
    · subst hkind
      rw [Workspace.registry_setRegistry]
      rcases (s.1.registry t.kind).settle_settled s.2 purge t.name with hsame | hsettled
      · exact ⟨b, hsame.trans hb, hr⟩
      · obtain ⟨b₀, written, h, hb₀, -, hb'⟩ := hsettled
        obtain rfl := Option.some.inj (hb.symm.trans hb₀)
        obtain rfl := hm rfl
        exact ⟨_, hb', hr⟩
    · rw [Workspace.registry_setRegistry_of_ne hkind]
      exact ⟨b, hb, hr⟩

private theorem Along.scheduled {ms : List Move} (hms : Along (LeavesScheduled t key r) s ms)
    (hm : (s.2.get r).isDeleted) (hs : Scheduled t key r s) :
    ((runAll s ms).2.get r).isDeleted ∧ Scheduled t key r (runAll s ms) :=
  hms.invariant (I := fun s => (s.2.get r).isDeleted ∧ Scheduled t key r s)
    (fun _ _ hm hs => ⟨hm.1, hm.run hs.2⟩) ⟨hm, hs⟩

end Move

namespace Heap

variable {h : Heap} {b : Batch} {key : RowKey} {r : RecordId}

private theorem exists_deletesRow (hr : r ∈ b.records) (hkey : h.primaryKey? r = some key)
    (hlength : key.components.length = b.type.arity) : ∃ st ∈ h.deletesOf b, st.DeletesRow key := by
  have hmem : key ∈ b.records.filterMap h.primaryKey? := List.mem_filterMap.mpr ⟨r, hr, hkey⟩
  rw [deletesOf, RecordType.deletes, if_neg fun hempty => ?_]
  · split
    · exact ⟨_, List.mem_map_of_mem hmem, rfl⟩
    · next hcomposite =>
      have hone : key.values.length = 1 := by
        have hpos : 0 < b.type.arity := List.length_pos_of_ne_nil b.type.key_ne_nil
        rw [RecordType.isComposite, decide_eq_true_eq] at hcomposite
        rw [RowKey.values, List.length_map, hlength]
        omega
      obtain ⟨v, hv⟩ := List.length_eq_one_iff.mp hone
      refine ⟨_, List.mem_singleton_self _, v, List.mem_flatMap.mpr ⟨key, hmem, ?_⟩, hv⟩
      rw [hv]
      exact List.mem_singleton_self v
  · rw [List.isEmpty_iff.mp hempty] at hmem
    cases hmem

end Heap

namespace Workspace

variable {σ ρ : Type} {tx : Transaction σ ρ} {conn : String → Connection σ ρ}
  {deferrable : String → Bool} {w : Workspace} {h : Heap} {s : Workspace × Heap} {key : RowKey}
  {r : RecordId}

private theorem Typed.type_of_mem_deleteBatches (ht : w.Typed h) (hw : w.Sound h)
    (hshares : h.SharesTypes)
    {b : Batch} (hb : b ∈ w.deleteBatches) (hr : r ∈ b.records) : b.type = (h.get r).type := by
  simp only [deleteBatches, List.mem_flatMap, Registry.deleteBatches, Registry.mem_batches] at hb
  obtain ⟨kind, -, -, name, bucket, hget, htype, hrec⟩ := hb
  rw [hrec, inCreationOrder, List.mem_mergeSort] at hr
  rw [htype]
  exact (ht.bucket_type hw hshares hget ((hw kind name bucket hget).deleted r hr).1).symm

/-- A commit that succeeds deletes the row of each record that waits for it and has its key. -/
theorem commit_deletes_scheduled (hw : tx.WritesBy conn deferrable) (hsound : s.1.Sound s.2)
    (htyped : s.1.Typed s.2) (hshares : s.2.SharesTypes) (hbypass : s.1.config.bypass = false)
    (hs : Move.Scheduled (s.2.get r).type key r s) (hm : (s.2.get r).isDeleted) (world : σ) :
    let c := s.1.commit tx { heap := s.2, world }
    Move.Along (Move.LeavesScheduled (s.2.get r).type key r) s (checkMoves s) →
      c.1.isOk → c.2.2.heap.primaryKey? r = some key →
        ∃ b ∈ (endState (checkReady s)).1.deleteBatches, b.type = (s.2.get r).type ∧
          r ∈ b.records ∧ ∃ st ∈ c.2.2.heap.deletesOf b,
            (none, st) ∈ statementsIn c.2.2.trace ∧ st.DeletesRow key := by
  intro c hleaves hok hkey
  obtain ⟨b₀, hb₀, hr₀⟩ := hs
  have hr := ((hsound _ _ b₀ hb₀).deleted r (FinMap.mem_values_of_get? hr₀)).1.mem
  obtain ⟨w₁, h₁, hready⟩ := ready_of_commit_isOk (s := { heap := s.2, world }) hbypass hok
  obtain ⟨hsound₁, hfolds⟩ := ready?_sound hsound hready
  obtain ⟨-, b₁, hb₁, hr₁⟩ := hleaves.scheduled hm ⟨b₀, hb₀, hr₀⟩
  have hend : endState (checkReady s) = (w₁, h₁) := by rw [(ready?_eq_some.mp hready).2]; rfl
  rw [← endState_checkReady, hend] at hb₁
  rw [hend]
  obtain ⟨b, hb, hrb⟩ := List.mem_flatMap.mp
    (mem_deleteBatches.mpr ⟨_, _, b₁, hb₁, FinMap.mem_values_of_get? hr₁⟩)
  have htype : b.type = (s.2.get r).type := by
    have htyped₁ := htyped.ready? hsound hready
    rw [htyped₁.type_of_mem_deleteBatches hsound₁ (hshares.folds hfolds) hb hrb, hfolds.type]
  -- The commit leaves the record of its type, so the key has as many components as the rows.
  have hevolves : s.2.Evolves c.2.2.heap := by
    have hcommit : Move.Along Move.IsLegal s (Operation.moves s (.commit tx world)) :=
      Operation.moves_legal hw.orderly ⟨hsound, .refl s.2⟩
    have hall := (Move.runAll_sound hcommit ⟨hsound, .refl s.2⟩).2
    rwa [← Operation.run_commit] at hall
  have hlength : key.components.length = b.type.arity := by
    rw [Heap.length_primaryKey? hkey, hevolves.type r hr, htype]
  obtain ⟨st, hst, hrow⟩ := Heap.exists_deletesRow hrb hkey hlength
  obtain ⟨inserted, fixedUp, hwritten, -⟩ := hw.commit_writtenAll hsound hready hok
  obtain ⟨xs, ys, zs, hall, -⟩ := hwritten.log
  refine ⟨b, hb, htype, hrb, st, hst, ?_, hrow⟩
  rw [hall]
  exact List.mem_append_right _ (List.mem_map_of_mem (List.mem_flatMap.mpr ⟨b, hb, hst⟩))

end Workspace

section

variable {σ ρ : Type} {config : Config} {ops : List (Operation σ ρ)}

/-- If no marked record is handed over whose row is not to be deleted already, if records are
deleted from their places and the marks of tracked records are left alone, then the marks of the
records and their places agree, and no marked record is found. Only a record that is to be deleted
comes to be marked then. If it has a row and a key, it waits for its row to be deleted, as long as
it stays marked and nothing takes its place, and the next commit that succeeds deletes the row if
the record has its key still. -/
theorem deleted_marks_agree (hlegal : Operation.AllLegal ({ config }, ∅) ops)
    (hrespect : Operation.AllRespect ({ config }, ∅) ops) :
    let s := Operation.runAll ({ config }, ∅) ops
    Workspace.MarksAgree s ∧
      (∀ name key r, s.1.find? name key = some r → (s.2.get r).isDeleted = false) ∧
      ∀ before op after r, ops = before ++ op :: after → config.bypass = false →
        (∀ h, op ≠ .edit h) →
          let s₀ := Operation.runAll ({ config }, ∅) before
          let t := (s₀.2.get r).type
          (s₀.2.get r).isDeleted = false → ((op.run s₀).2.get r).isDeleted →
            op = .delete r ∧
            ∀ key, (s₀.2.get r).isNew = false → s₀.2.fileKey t.kind r = .ok key →
              Move.Along (Move.LeavesScheduled t key r) (op.run s₀)
                  (Operation.allMoves (op.run s₀) after) →
                Move.Scheduled t key r s ∧ (s.2.get r).isDeleted ∧
                ∀ (tx : Transaction σ ρ) (conn : String → Connection σ ρ)
                  (deferrable : String → Bool) (world : σ),
                  tx.WritesBy conn deferrable → s.2.SharesTypes →
                    Move.Along (Move.LeavesScheduled t key r) s (Workspace.checkMoves s) →
                      let c := s.1.commit tx { heap := s.2, world }
                      c.1.isOk → c.2.2.heap.primaryKey? r = some key →
                        ∃ b ∈ (endState (Workspace.checkReady s)).1.deleteBatches, b.type = t ∧
                          r ∈ b.records ∧ ∃ st ∈ c.2.2.heap.deletesOf b,
                            (none, st) ∈ statementsIn c.2.2.trace ∧ st.DeletesRow key := by
  intro s
  have hmarks : Workspace.MarksAgree s := hrespect.marksAgree hlegal
  refine ⟨hmarks, fun name key r hfound => hmarks.find? hfound, ?_⟩
  rintro before op after r rfl hbypass hnot s₀ t hunmarked hmarked
  obtain ⟨hlegal₀, hop, hafter⟩ := Operation.allLegal_append.mp hlegal
  obtain ⟨hrespect₀, hop', -⟩ := Operation.allRespect_append.mp hrespect
  have hs₀ : Move.SoundMarked s₀ :=
    hrespect₀.soundMarked hlegal₀ hbypass (Operation.soundMarked_empty config)
  obtain rfl := hop'.eq_delete hop hs₀ hnot hunmarked hmarked
  refine ⟨rfl, fun key hn hkey hleaves => ?_⟩
  have hconfig : s₀.1.config.bypass = false := by
    rw [show s₀.1.config = config from Operation.config_runAll, hbypass]
  obtain ⟨s₁, b, hdelete, -, hb, hdeleted, -⟩ :=
    Workspace.delete_schedules hunmarked hconfig hn hkey
  have hrun : Operation.run (σ := σ) (ρ := ρ) s₀ (.delete r) = s₁ := by
    rw [Operation.run, hdelete]
    rfl
  have hs : s = Operation.runAll s₁ after := by
    rw [← hrun]
    exact Operation.runAll_append
  rw [hrun] at hleaves hmarked
  obtain ⟨hstays, hscheduled⟩ := hleaves.scheduled hmarked ⟨b, hb, hdeleted⟩
  rw [← Operation.runAll_eq, ← hs] at hstays hscheduled
  refine ⟨hscheduled, hstays, fun tx conn deferrable world hw hshares hcheck hok hfinal => ?_⟩
  have htype : (s.2.get r).type = t := by
    have hrest : Operation.AllLegal s₀ (.delete r :: after) := ⟨hop, hafter⟩
    have hevolves := (hrest.soundFrom ⟨hlegal₀.sound, .refl s₀.2⟩).2
    rw [← Operation.runAll_append] at hevolves
    exact hevolves.type r hop
  rw [← htype] at hscheduled hcheck ⊢
  refine Workspace.commit_deletes_scheduled hw hlegal.sound hlegal.typed hshares ?_ hscheduled
    hstays world hcheck hok hfinal
  rw [show s.1.config = config from Operation.config_runAll, hbypass]

end

/-! An item is deleted, or not, and then read again when it is marked already. -/

def readMarked : Heap :=
  ((∅ : Heap).set ⟨0⟩ Registry.readItem).set ⟨1⟩ Registry.readItem.markDeleted

def deleteThenRead : List (Operation Nat) := [.edit readMarked, .track ⟨0⟩, .delete ⟨0⟩, .track ⟨1⟩]

def readDeleted : Workspace × Heap := Operation.runAll ({}, ∅) deleteThenRead

def readDeletedCommit : Except Halt Summary × Workspace × Session Nat :=
  readDeleted.1.commit (.sql refusingB false) { heap := readDeleted.2, world := 0 }

/-- The item waits for its row to be deleted, and the next commit deletes it. -/
theorem deleted_marks_agree_item :
    Workspace.MarksAgree readDeleted ∧ Move.Scheduled (itemType "a") itemKey ⟨0⟩ readDeleted ∧
      ∃ st, (none, st) ∈ statementsIn readDeletedCommit.2.2.trace ∧ st.DeletesRow itemKey := by
  have hlegal : Operation.AllLegal ({}, ∅) deleteThenRead :=
    ⟨.of_fresh (by decide +kernel), by decide +kernel, by decide +kernel, by decide +kernel,
      trivial⟩
  have hfiled : itemKey.isFiledUnder (itemType "a").kind := by decide +kernel
  have hrespect : Operation.AllRespect ({}, ∅) deleteThenRead :=
    ⟨⟨fun p hp => absurd hp (Workspace.not_holds_empty _ p), trivial⟩,
      Operation.respects_track fun hm => absurd hm (by decide +kernel),
      fun _ => Bucket.inPlace_of_entries (by decide +kernel) (by decide +kernel),
      Operation.respects_track fun _ => ⟨itemKey,
        ⟨by decide +kernel, Heap.fileKey_of_primaryKey? (by decide +kernel) hfiled⟩,
        by decide +kernel, fun _ => by decide +kernel, fun hfalse => Bool.noConfusion hfalse⟩,
      trivial⟩
  obtain ⟨hmarks, -, hdeleted⟩ := deleted_marks_agree hlegal hrespect
  obtain ⟨-, hscheduled⟩ := hdeleted [.edit readMarked, .track ⟨0⟩] (.delete ⟨0⟩) [.track ⟨1⟩] ⟨0⟩
    rfl rfl (fun _ he => by cases he) (by decide +kernel) (by decide +kernel)
  obtain ⟨hwaits, -, hcommit⟩ := hscheduled itemKey (by decide +kernel)
    (Heap.fileKey_of_primaryKey? (by decide +kernel) hfiled) (by decide +kernel)
  have hw : (Transaction.sql refusingB false).WritesBy refusingB fun _ => false :=
    Transaction.sql_writesBy fun _ => rfl
  obtain ⟨b, -, -, -, st, -, hst, hrow⟩ := hcommit _ _ _ 0 hw (by decide +kernel)
    (by decide +kernel) (by decide +kernel) (by decide +kernel)
  exact ⟨hmarks, hwaits, st, hst, hrow⟩

/-- Some record is found that is marked, although it has been handed over without a mark. -/
theorem not_deleted_marks_agree :
    ¬ ∀ (h : Heap) (ops : List (Operation Nat)), (∀ op ∈ ops, ∀ h', op ≠ .edit h') →
      Operation.AllLegal ({}, ∅) (.edit h :: ops) →
        let s := Operation.runAll ({}, ∅) (.edit h :: ops)
        (∀ kind name b, (s.1.registry kind).buckets.get? name = some b →
          ∀ r ∈ b.live.values, (s.2.get r).isDeleted = false) ∧
        ∀ name key r, s.1.find? name key = some r → (s.2.get r).isDeleted = false := by
  intro hall
  have hlegal : Operation.AllLegal (σ := Nat) (ρ := CancelReason) ({}, ∅)
      [.edit readMarked, .track ⟨0⟩, .track ⟨1⟩] :=
    ⟨.of_fresh (by decide +kernel), by decide +kernel, by decide +kernel, trivial⟩
  obtain ⟨-, hfound⟩ := hall readMarked [.track ⟨0⟩, .track ⟨1⟩]
    (fun op hop h' he => by subst he; simp at hop) hlegal
  have hmarked := hfound "a" itemKey ⟨0⟩ (by decide +kernel)
  revert hmarked
  decide +kernel

end UnitOfWork
