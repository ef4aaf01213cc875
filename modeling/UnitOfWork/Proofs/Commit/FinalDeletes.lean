import UnitOfWork.Proofs.Commit.DeletedRows
import UnitOfWork.Proofs.Commit.Repeating
import UnitOfWork.Proofs.Tracking.Standing

/-!
# Deletes for good

A commit that succeeds forgets which rows it has deleted, unless the workspace is configured to keep
them. From then on no row is deleted unless a record with its key is taken out again, and a new
record with the key is inserted like any other one. A workspace that keeps what it has deleted
deletes it in every commit.
-/

namespace UnitOfWork

/-- A key of records of the type: there is a component for each key column, and the first one is of
the kind of the type. -/
def RowKey.IsOf (key : RowKey) (t : RecordType) : Prop :=
  key.kind? = some t.kind ∧ key.components.length = t.arity

instance (key : RowKey) (t : RecordType) : Decidable (key.IsOf t) :=
  inferInstanceAs (Decidable (_ ∧ _))

namespace Bucket

variable {kind : KeyKind} {name : String} {b b' : Bucket} {h h' : Heap} {r : RecordId}
  {importing : Bool} {answer : Option RecordId} {key : RowKey}

/-- The row with the key is not to be deleted. -/
structure Unmarked (b : Bucket) (h : Heap) (key : RowKey) : Prop where
  unfiled : b.deleted.get? key = none
  others : ∀ q ∈ b.deleted.values, h.primaryKey? q ≠ some key

/-- No record whose row is to be deleted is given the key. -/
def Withholds (b : Bucket) (h h' : Heap) (key : RowKey) : Prop :=
  ∀ q ∈ b.deleted.values, h'.primaryKey? q = some key → h.primaryKey? q = some key

private theorem unmarked_of_empty (hb : b.deleted = ∅) : b.Unmarked h key where
  unfiled := by rw [hb]; rfl
  others q hq := by
    rw [hb] at hq
    exact absurd hq List.not_mem_nil

private theorem Unmarked.subset (hb : b.Unmarked h key) (hk : b.Withholds h h' key)
    (hget : ∀ q, b'.deleted.get? key = some q → b.deleted.get? key = some q)
    (hvalues : ∀ q ∈ b'.deleted.values, q ∈ b.deleted.values) : b'.Unmarked h' key where
  unfiled := Option.eq_none_iff_forall_ne_some.mpr fun q hq =>
    nomatch hb.unfiled.symm.trans (hget q hq)
  others q hq hkey := hb.others q (hvalues q hq) (hk q (hvalues q hq) hkey)

private theorem Unmarked.insert {key' : RowKey} (hb : b.Unmarked h key)
    (hr : h.primaryKey? r = some key') (hne : key' ≠ key)
    (hdeleted : b'.deleted = b.deleted.insert key' r) : b'.Unmarked h key where
  unfiled := by rw [hdeleted, FinMap.get?_insert_of_ne hne, hb.unfiled]
  others q hq hkey := by
    rw [hdeleted] at hq
    rcases FinMap.mem_values_insert hq with rfl | hq
    · exact hne (Option.some.inj (hr.symm.trans hkey))
    · exact hb.others q hq hkey

private theorem Tracks.unmarked (a : Tracks kind b h r importing answer b' h')
    (hk : b.Withholds h h' key) (hb : b.Unmarked h key) : b'.Unmarked h' key := by
  cases a with
  | revives | restores =>
    exact hb.subset hk (fun _ => FinMap.of_get?_erase) fun _ => FinMap.mem_values_erase
  | replacesDeleted hst _ _ hcontains =>
    refine hb.insert hst.primaryKey? ?_ rfl
    rintro rfl
    rw [FinMap.contains, hb.unfiled] at hcontains
    cases hcontains
  | waits | lists | misfiles | joins | files | fails | finds | merges | mergesDeleted | enters =>
    exact hb.subset hk (fun _ hq => hq) fun _ hq => hq

private theorem Removes.unmarked (a : Removes kind b h r b') (hr : h.primaryKey? r ≠ some key)
    (hb : b.Unmarked h key) : b'.Unmarked h key := by
  cases a with
  | forgets | unfiles | fails => exact ⟨hb.unfiled, hb.others⟩
  | deletes hst =>
    refine hb.insert hst.primaryKey? ?_ rfl
    rintro rfl
    exact hr hst.primaryKey?

private theorem Unmarked.settle (hb : b.Unmarked h key) (hk : b.Withholds h h' key) (h₀ : Heap)
    (purge : Bool) (written : List (RowKey × RecordId)) :
    (b.settle h₀ purge written).1.Unmarked h' key := by
  cases purge with
  | true => exact unmarked_of_empty rfl
  | false => exact hb.subset hk (fun _ hq => hq) fun _ hq => hq

/-- A new record whose key is known stands for its row or is folded into another new one that does,
if the row is not to be deleted and no record that has it is found. -/
theorem Tracks.finds_new (a : Tracks kind b h r importing answer b' h') (hs : b.Sound kind name h)
    (hfiled : key.isFiledUnder kind) (hn : (h.get r).isNew)
    (hg : (h.get r).type.generatedCount = 0) (hkey : h.primaryKey? r = some key)
    (hunfiled : b.deleted.get? key = none) (hfind : ∀ q, b.find? key = some q → (h.get q).isNew) :
    ∃ q, answer = some q ∧ (h.get q).isNew ∧ b'.find? key = some q := by
  have hlive : b.live.get? key = none := by
    refine Option.eq_none_iff_forall_ne_some.mpr fun q hq => ?_
    have hold := (hs.live q (FinMap.mem_values_of_get? hq)).2
    exact Bool.noConfusion (hold.symm.trans (hfind q (find?_eq_some.mpr (.inl hq))))
  rcases a.of_known hfiled hn hg hkey with
    ⟨q, hrival, rfl, rfl⟩ | ⟨q, hdeleted, -, -⟩ | ⟨-, -, rfl, rfl⟩
  · rcases (rival?_eq_some hrival).2 with hq | ⟨hq, -⟩
    · have hfound : b.find? key = some q := find?_eq_some.mpr (.inr ⟨hlive, hq⟩)
      exact ⟨q, rfl, hfind q hfound, hfound⟩
    · cases hlive.symm.trans hq
  · cases hunfiled.symm.trans hdeleted
  · have hfound : (b.newByKey.insert key r).get? key = some r :=
      (FinMap.get?_insert ..).trans (if_pos rfl)
    exact ⟨r, rfl, hn, find?_eq_some.mpr (.inr ⟨hlive, hfound⟩)⟩

end Bucket

namespace Move

variable {s : Workspace × Heap} {m : Move} {name : String} {key : RowKey}

/-- No record with the key is taken out, and no record whose row is to be deleted is given the
key. -/
structure LeavesRow (name : String) (key : RowKey) (s : Workspace × Heap) (m : Move) : Prop where
  keepsRow : m.KeepsRow name key s
  withholds : ∀ b ∈ s.1.bucket? name key, b.Withholds s.2 (m.run s).2 key

/-- The row with the key is not to be deleted. -/
def Unmarked (name : String) (key : RowKey) (s : Workspace × Heap) : Prop :=
  ∀ b ∈ s.1.bucket? name key, b.Unmarked s.2 key

private theorem LeavesRow.run (hm : m.LeavesRow name key s) (hs : Unmarked name key s) :
    Unmarked name key (m.run s) := by
  intro b hb
  cases run_alters hb with
  | leaves hb => exact (hs b hb).subset (hm.withholds b hb) (fun _ hq => hq) fun _ hq => hq
  | tracks _ hk hname a =>
    obtain ⟨hunmarked, hwithholds⟩ := Workspace.forall_bucket
      (P := fun b => b.Unmarked s.2 key ∧ b.Withholds s.2 (m.run s).2 key) hk hname
      (fun b hb => ⟨hs b hb, hm.withholds b hb⟩)
      ⟨Bucket.unmarked_of_empty rfl, fun _ hq => absurd hq List.not_mem_nil⟩
    exact a.unmarked hwithholds hunmarked
  | removes hmove hk hname a hheap =>
    subst hmove
    rw [hheap]
    exact a.unmarked (hm.keepsRow hname)
      (Workspace.forall_bucket hk hname hs (Bucket.unmarked_of_empty rfl))
  | settles _ _ hb' _ hsettled =>
    subst hsettled
    exact (hs _ hb').settle (hm.withholds _ hb') ..

private theorem Along.unmarked {ms : List Move} (hms : Along (LeavesRow name key) s ms)
    (hs : Unmarked name key s) : Unmarked name key (runAll s ms) :=
  hms.invariant (fun _ _ hm => hm.run) hs

end Move

private theorem Written.mem_insertedIn {w : Workspace} {h h' : Heap} {trace : List Event}
    {inserted fixedUp updated : List (RecordType × RecordId)} {deleted : List Statement}
    (hs : Written w h h' (statementsIn trace) inserted fixedUp updated deleted)
    {e : RecordType × RecordId} (he : e ∈ inserted) : e.2 ∈ insertedIn trace := by
  obtain ⟨xs, ys, zs, hlog, hxs, -, -⟩ := hs.log
  obtain ⟨x, hx, hfor, assigned, returning, hst⟩ := exists_of_mem_forall₂ hxs.flip he
  obtain rfl : x = (some e.2, .insert e.1.table assigned returning) := Prod.ext hfor hst
  have hmem : (some e.2, Statement.insert e.1.table assigned returning) ∈ statementsIn trace := by
    rw [hlog]
    simp [hx]
  obtain ⟨event, hevent, hstatement⟩ := List.mem_filterMap.mp hmem
  refine List.mem_filterMap.mpr ⟨event, hevent, ?_⟩
  rw [Event.inserted?, hstatement]

namespace Workspace

variable {σ ρ : Type} {tx : Transaction σ ρ} {conn : String → Connection σ ρ}
  {deferrable : String → Bool} {w w₁ : Workspace} {h h₁ : Heap} {name : String} {key : RowKey}
  {r : RecordId}

private theorem commit_unmarked {world : σ} (hbypass : w.config.bypass = false)
    (hpurge : w.config.purgeDeleted) (hok : (w.commit tx { heap := h, world }).1.isOk) :
    let c := w.commit tx { heap := h, world }
    Move.Unmarked name key (c.2.1, c.2.2.heap) := by
  intro c b hb
  obtain ⟨summary, hresult⟩ := exists_ok_of_isOk hok
  obtain ⟨w₁, h₁, h₂, hcheck, hsettled⟩ := commit_settled hbypass hresult
  have hconfig := Move.runAll_config (w, h) (checkMoves (w, h))
  rw [← endState_checkReady, hcheck] at hconfig
  obtain ⟨kind, -, hget⟩ := Option.bind_eq_some_iff.mp hb
  have hpurged := hsettled kind
  rw [show w₁.config = w.config from hconfig, hpurge] at hpurged
  obtain ⟨b', written, h₀, -, rfl⟩ := hpurged.exists_bucket hget
  exact Bucket.unmarked_of_empty rfl

/-- A commit that succeeds inserts every record that is new after the check and was tracked as
one. -/
theorem commit_inserts (hw : tx.WritesBy conn deferrable) (hsound : w.Sound h)
    (hready : w.ready? h = some (w₁, h₁)) {world : σ}
    (hok : (w.commit tx { heap := h, world }).1.isOk) (hr : r ∈ w₁.newRecords)
    (hn : (h₁.get r).isNew) : r ∈ insertedIn (w.commit tx { heap := h, world }).2.2.trace := by
  obtain ⟨inserted, fixedUp, hwritten, hnews, -⟩ := hw.commit_writtenAll hsound hready hok
  rw [newRecords, ← entriesOf_snd] at hr
  obtain ⟨e, he, rfl⟩ := List.mem_map.mp hr
  exact hwritten.mem_insertedIn (hnews e he hn)

private theorem track_finds_new {s : Workspace × Heap} (hs : s.1.Sound s.2)
    (hbypass : s.1.config.bypass = false) (hn : (s.2.get r).isNew)
    (hg : (s.2.get r).type.generatedCount = 0) (hkind : key.kind? = some (s.2.get r).type.kind)
    (hkey : s.2.primaryKey? r = some key) (hunmarked : Move.Unmarked (s.2.get r).type.name key s)
    (hfind : ∀ a, s.1.find? (s.2.get r).type.name key = some a → (s.2.get a).isNew) :
    ∃ a, returned? (track r s) = some a ∧ (s.2.get a).isNew ∧
      (endState (track r s)).1.find? (s.2.get r).type.name key = some a := by
  have hbucket := forall_bucket
    (P := fun b => b.deleted.get? key = none ∧ ∀ a, b.find? key = some a → (s.2.get a).isNew)
    hkind rfl (fun b hb => ⟨(hunmarked b hb).unfiled, fun a ha => hfind a ?_⟩)
    ⟨rfl, fun a ha => by cases ha⟩
  · have htrack := Operation.run_eq_runAll (σ := Unit) (ρ := CancelReason) s (.track r)
    rw [Operation.moves, if_neg (by simp [hbypass])] at htrack
    obtain ⟨a, ha, hnew, hfound⟩ := (Bucket.track_tracks _ _ s.2 r false).finds_new
      ((hs _).bucket _) (RowKey.isFiledUnder_of_kind? hkind) hn hg hkey hbucket.1 hbucket.2
    refine ⟨a, (returned?_track hbypass r).trans ha, hnew, ?_⟩
    change (Operation.run (σ := Unit) (ρ := CancelReason) s (.track r)).1.find? _ key = some a
    rw [find?_eq, htrack, Move.runAll_config, if_neg (by simp [hbypass])]
    change Option.bind ((endState (onRegistry _ (Registry.track r false) s)).1.bucket? _ key) _ = _
    rw [Registry.track, bucket?_onBucket, if_pos ⟨hkind, rfl⟩]
    exact hfound
  · rw [find?_eq, if_neg (by simp [hbypass]), Option.mem_def.mp hb]
    exact ha

end Workspace

namespace Operation

variable {σ ρ : Type} {tx : Transaction σ ρ} {conn : String → Connection σ ρ}
  {deferrable : String → Bool} {s : Workspace × Heap} {t : RecordType} {key : RowKey}

private theorem commit_spares_row (hw : tx.WritesBy conn deferrable) (hsound : s.1.Sound s.2)
    (world : σ) (hkey : key.IsOf t) (hs : Move.Unmarked t.name key s)
    (hleaves : Move.Along (Move.LeavesRow t.name key) s (moves s (.commit tx world))) :
    let c := (s.1.commit tx { heap := s.2, world }).2.2
    ∀ st ∈ c.heap.deletionsOf t c.trace, ¬ st.DeletesRow key := by
  intro c st hst hrow
  cases hready : s.1.ready? s.2 with
  | none =>
    rw [show c.trace = [] from Workspace.commit_trace_notReady tx hready] at hst
    cases hst
  | some s₁ =>
    obtain ⟨w₁, h₁⟩ := s₁
    obtain ⟨hsettles, hrows, -⟩ := Workspace.commit_rows hw hsound hready world
    obtain ⟨q, hq, hqt, hqkey⟩ := hrows.exists_record hst hrow hkey.2
    obtain ⟨kind, name, b, hb, hq⟩ := Workspace.mem_deleteBatches.mp hq
    have hlegal : Move.Along Move.IsLegal s (moves s (.commit tx world)) :=
      moves_legal hw.orderly ⟨hsound, .refl s.2⟩
    obtain ⟨hchecked, settling, hmoves⟩ := exists_moves_commit tx world hready
    rw [hmoves, Move.along_append, hchecked] at hlegal hleaves
    have hunmarked := hleaves.1.unmarked hs
    rw [hchecked] at hunmarked
    have hwritten := hleaves.2.1.run hunmarked
    -- The record is in the bucket that the key belongs to.
    have hsound₁ := (Workspace.ready?_sound hsound hready).1
    have hbelongs := ((hsound₁ kind name b hb).deleted q hq).1.evolves hlegal.2.1
    rw [hsettles.type] at hqt
    rw [← hbelongs.kind, ← hbelongs.name, hqt] at hb
    rw [hsettles.primaryKey?] at hqkey
    exact (hwritten b ((Workspace.bucket?_of_kind? hkey.1).trans hb)).others q hq hqkey

variable {config : Config} {ops : List (Operation σ ρ)} {a : RecordId}

private theorem runAll_unmarked {name : String} (hs : Move.Unmarked name key s)
    (hleaves : Move.Along (Move.LeavesRow name key) s (allMoves s ops)) :
    Move.Unmarked name key (runAll s ops) := by
  rw [runAll_eq]
  exact hleaves.unmarked hs

private theorem commit_inserts_standing (hlegal : AllLegal ({ config }, ∅) ops)
    (hbypass : config.bypass = false) (hw : tx.WritesBy conn deferrable) (world : σ) :
    let s := runAll ({ config }, ∅) ops
    let c := s.1.commit tx { heap := s.2, world }
    Move.standsAfter a ({ config }, ∅) false
        (allMoves ({ config }, ∅) ops ++ Workspace.checkMoves s) →
      (s.2.get a).isNew → c.1.isOk → a ∈ insertedIn c.2.2.trace := by
  intro s c hstands hn hok
  have hconfig : s.1.config.bypass = false := by
    rw [show s.1.config = config from config_runAll, hbypass]
  obtain ⟨w₁, h₁, hready⟩ :=
    Workspace.ready_of_commit_isOk (s := { heap := s.2, world }) hconfig hok
  have hnew := (Workspace.ready?_sound hlegal.sound hready).2.isNew a
  rw [hn] at hnew
  exact Workspace.commit_inserts hw hlegal.sound hready hok
    (mem_newRecords_of_standsAfter hlegal (Workspace.ready?_eq_some.mp hready).2 hstands hnew) hnew

/-- A new record with a key whose row is not to be deleted stands for the row when it is tracked, or
another new record does, if no record that has a row is found by the key. Whichever does is inserted
by a later commit, if it succeeds. -/
theorem track_inserts {later : List (Operation σ ρ)} {n : RecordId}
    (hlegal : AllLegal ({ config }, ∅) (ops ++ .track n :: later))
    (hbypass : config.bypass = false) (hw : tx.WritesBy conn deferrable) (world : σ)
    (hkey : key.IsOf t) (hs : Move.Unmarked t.name key (runAll ({ config }, ∅) ops)) :
    let s := runAll ({ config }, ∅) ops
    let s' := runAll ({ config }, ∅) (ops ++ .track n :: later)
    let c := s'.1.commit tx { heap := s'.2, world }
    (s.2.get n).isNew → (s.2.get n).type = t → t.generatedCount = 0 →
      s.2.primaryKey? n = some key →
      (∀ a, s.1.find? t.name key = some a → (s.2.get a).isNew) →
        ∃ a, returned? (Workspace.track n s) = some a ∧ (s.2.get a).isNew ∧
          (endState (Workspace.track n s)).1.find? t.name key = some a ∧
          (Move.standsAfter a ({ config }, ∅) false
              (allMoves ({ config }, ∅) (ops ++ .track n :: later) ++ Workspace.checkMoves s') →
            (s'.2.get a).isNew → c.1.isOk → a ∈ insertedIn c.2.2.trace) := by
  rintro s s' c hn rfl hg hnkey hfind
  have hsound : s.1.Sound s.2 := (allLegal_append.mp hlegal).1.sound
  have hconfig : s.1.config.bypass = false := by
    rw [show s.1.config = config from config_runAll, hbypass]
  obtain ⟨a, ha, hnew, hfound⟩ :=
    Workspace.track_finds_new hsound hconfig hn hg hkey.1 hnkey hs hfind
  exact ⟨a, ha, hnew, hfound, commit_inserts_standing hlegal hbypass hw world⟩

end Operation

section

variable {σ ρ : Type} {tx tx' : Transaction σ ρ} {conn : String → Connection σ ρ}
  {deferrable : String → Bool} {world : σ} {config : Config}
  {before after : List (Operation σ ρ)} {t : RecordType} {key : RowKey}

/-- A row that was deleted by a commit that succeeded is deleted by no later commit, unless a record
with its key is taken out again or is given the key when it has been taken out. A new record with
the key that is tracked meanwhile stands for the row, or another new one does, if no record that has
a row is found by the key; and whichever does is inserted by the next commit that succeeds. -/
theorem commit_deletes_for_good (hpurge : config.purgeDeleted)
    (hlegal : Operation.AllLegal ({ config }, ∅) (before ++ .commit tx world :: after))
    (hw : tx'.WritesBy conn deferrable) (world' : σ) (hkey : key.IsOf t) :
    let s := Operation.runAll ({ config }, ∅) before
    let c := s.1.commit tx { heap := s.2, world }
    let s' := (c.2.1, c.2.2.heap)
    let s'' := Operation.runAll s' after
    let c' := s''.1.commit tx' { heap := s''.2, world := world' }
    c.1.isOk → (∃ st ∈ c.2.2.heap.deletionsOf t c.2.2.trace, st.DeletesRow key) →
      Move.Along (Move.LeavesRow t.name key) s'
          (Operation.allMoves s' (after ++ [.commit tx' world'])) →
        (∀ st ∈ c'.2.2.heap.deletionsOf t c'.2.2.trace, ¬ st.DeletesRow key) ∧
        ∀ mid n later, after = mid ++ .track n :: later →
          let sₙ := Operation.runAll s' mid
          (sₙ.2.get n).isNew → (sₙ.2.get n).type = t → t.generatedCount = 0 →
            sₙ.2.primaryKey? n = some key →
            (∀ a, sₙ.1.find? t.name key = some a → (sₙ.2.get a).isNew) →
              ∃ a, returned? (Workspace.track n sₙ) = some a ∧ (sₙ.2.get a).isNew ∧
                (endState (Workspace.track n sₙ)).1.find? t.name key = some a ∧
                (Move.standsAfter a ({ config }, ∅) false
                    (Operation.allMoves ({ config }, ∅) (before ++ .commit tx world :: after) ++
                      Workspace.checkMoves s'') →
                  (s''.2.get a).isNew → c'.1.isOk → a ∈ insertedIn c'.2.2.trace) := by
  intro s c s' s'' c' hok hdeleted hleaves
  have hconfig : s.1.config = config := Operation.config_runAll
  have hbypass : config.bypass = false := by
    -- Where nothing is tracked, nothing is deleted.
    refine Bool.eq_false_iff.mpr fun hb => ?_
    obtain ⟨st, hst, -⟩ := hdeleted
    have hready : s.1.ready? s.2 = none := if_pos (by rw [hconfig, hb])
    rw [show c.2.2.trace = [] from Workspace.commit_trace_notReady tx hready] at hst
    cases hst
  have hrun : ∀ ops : List (Operation σ ρ), Operation.runAll ({ config }, ∅)
      (before ++ .commit tx world :: ops) = Operation.runAll s' ops :=
    fun _ => Operation.runAll_append
  have hstart : Move.Unmarked t.name key s' :=
    Workspace.commit_unmarked (by rw [hconfig, hbypass]) (by rw [hconfig, hpurge]) hok
  rw [Operation.allMoves_append, Move.along_append, ← Operation.runAll_eq] at hleaves
  obtain ⟨hafter, hcommit⟩ := hleaves
  have hsound := hlegal.sound
  rw [hrun] at hsound
  refine ⟨Operation.commit_spares_row hw hsound world' hkey
    (Operation.runAll_unmarked hstart hafter) (Move.along_append.mp hcommit).1, ?_⟩
  rintro mid n later rfl
  rw [Operation.allMoves_append, Move.along_append] at hafter
  have hunmarked := Operation.runAll_unmarked hstart hafter.1
  have hsplit : before ++ .commit tx world :: (mid ++ .track n :: later) =
      (before ++ .commit tx world :: mid) ++ .track n :: later := by simp
  rw [hsplit] at hlegal
  rw [← hrun] at hunmarked
  have hinserts := Operation.track_inserts hlegal hbypass hw world' hkey hunmarked
  rw [← hsplit, hrun, hrun] at hinserts
  exact hinserts

end

/-! An item is deleted and then created again. -/

instance (b : Bucket) (h h' : Heap) (key : RowKey) : Decidable (b.Withholds h h' key) :=
  inferInstanceAs (Decidable (∀ q ∈ b.deleted.values, _ → _))

instance (name : String) (key : RowKey) (s : Workspace × Heap) (m : Move) :
    Decidable (m.LeavesRow name key s) :=
  decidable_of_iff (m.KeepsRow name key s ∧
    ∀ b ∈ s.1.bucket? name key, b.Withholds s.2 (m.run s).2 key)
    ⟨fun h => ⟨h.1, h.2⟩, fun h => ⟨h.keepsRow, h.withholds⟩⟩

def itemTwice : Heap := ((∅ : Heap).set ⟨0⟩ Registry.readItem).set ⟨1⟩ Registry.newItem

def deleteItem : List (Operation Nat) := [.edit itemTwice, .track ⟨0⟩, .delete ⟨0⟩]

/-- The deletion is committed before the item is created again. -/
def deleteThenCreate : List (Operation Nat) :=
  deleteItem ++ .commit (.sql refusingB false) 0 :: [.track ⟨1⟩]

def createdAgain : Workspace × Heap := Operation.runAll ({}, ∅) deleteThenCreate

def createAgainCommit : Except Halt Summary × Workspace × Session Nat :=
  createdAgain.1.commit (.sql refusingB false) { heap := createdAgain.2, world := 0 }

/-- The row is not deleted once more, and the new record is inserted. -/
theorem commit_deletes_for_good_item :
    (∀ st ∈ createAgainCommit.2.2.heap.deletionsOf (itemType "a") createAgainCommit.2.2.trace,
      ¬ st.DeletesRow itemKey) ∧ ⟨1⟩ ∈ insertedIn createAgainCommit.2.2.trace := by
  have hlegal : Operation.AllLegal ({}, ∅) deleteThenCreate :=
    ⟨.of_fresh (by decide +kernel), by decide +kernel, by decide +kernel, refusingB_orderly,
      by decide +kernel, trivial⟩
  have hw : (Transaction.sql refusingB false).WritesBy refusingB fun _ => false :=
    Transaction.sql_writesBy fun _ => rfl
  have hkey : itemKey.IsOf (itemType "a") := by decide +kernel
  obtain ⟨hspares, hinserts⟩ := commit_deletes_for_good rfl hlegal hw 0 hkey (by decide +kernel)
    ⟨.deleteAny "a" "id" [.bigInt 1], by decide +kernel, .bigInt 1, List.mem_cons_self, rfl⟩
    (by decide +kernel)
  have hnone : (Operation.runAll ({}, ∅) (deleteItem ++
      [.commit (.sql refusingB false) 0])).1.find? "a" itemKey = none := by decide +kernel
  have htold : returned? (Workspace.track ⟨1⟩ (Operation.runAll ({}, ∅) (deleteItem ++
      [.commit (.sql refusingB false) 0]))) = some ⟨1⟩ := by decide +kernel
  obtain ⟨a, ha, -, -, hinserted⟩ := hinserts [] ⟨1⟩ [] rfl (by decide +kernel) (by decide +kernel)
    (by decide +kernel) (by decide +kernel) fun a ha => nomatch hnone.symm.trans ha
  obtain rfl : a = ⟨1⟩ := Option.some.inj (ha.symm.trans htold)
  exact ⟨hspares, hinserted (by decide +kernel) (by decide +kernel) (by decide +kernel)⟩

/-- Some row is deleted by two commits, although no record with its key has been taken out again. -/
theorem not_commit_deletes_for_good :
    ¬ ∀ (config : Config) (before after : List (Operation Nat)) (tx tx' : Transaction Nat)
        (conn conn' : String → Connection Nat) (deferrable deferrable' : String → Bool)
        (world world' : Nat) (t : RecordType) (key : RowKey),
      Operation.AllLegal ({ config }, ∅) (before ++ .commit tx world :: after) →
        tx.WritesBy conn deferrable → tx'.WritesBy conn' deferrable' → key.IsOf t →
          Move.Along Move.KeepsAllKeys ({ config }, ∅) (Operation.allMoves ({ config }, ∅)
              (before ++ .commit tx world :: after ++ [.commit tx' world'])) →
            let s := Operation.runAll ({ config }, ∅) before
            let c := s.1.commit tx { heap := s.2, world }
            let s' := (c.2.1, c.2.2.heap)
            let s'' := Operation.runAll s' after
            let c' := s''.1.commit tx' { heap := s''.2, world := world' }
            c.1.isOk → (∃ st ∈ c.2.2.heap.deletionsOf t c.2.2.trace, st.DeletesRow key) →
              Move.Along (Move.KeepsRow t.name key) s'
                  (Operation.allMoves s' (after ++ [.commit tx' world'])) →
                ∀ st ∈ c'.2.2.heap.deletionsOf t c'.2.2.trace, ¬ st.DeletesRow key := by
  intro hall
  have hlegal : Operation.AllLegal ({ config := { purgeDeleted := false } }, ∅)
      (deleteItem ++ [.commit (.sql refusingB false) 0]) :=
    ⟨.of_fresh (by decide +kernel), by decide +kernel, by decide +kernel, refusingB_orderly,
      trivial⟩
  have hw : (Transaction.sql refusingB false).WritesBy refusingB fun _ => false :=
    Transaction.sql_writesBy fun _ => rfl
  have hkey : itemKey.IsOf (itemType "a") := by decide +kernel
  have hrow : (Statement.deleteAny "a" "id" [.bigInt 1]).DeletesRow itemKey :=
    ⟨.bigInt 1, List.mem_cons_self, rfl⟩
  exact hall _ deleteItem [] _ _ _ _ _ _ 0 0 _ _ hlegal hw hw hkey (by decide +kernel)
    (by decide +kernel) ⟨_, by decide +kernel, hrow⟩ (by decide +kernel) _ (by decide +kernel) hrow

end UnitOfWork
