import UnitOfWork.Proofs.Tracking.DeletedMarks

/-!
# Histories that respect the marks

An application respects the marks of the records if it hands over no marked one whose row is not to
be deleted already, deletes records from their places and leaves the marks of what is tracked alone.
Then the marks and the places agree in every workspace that comes of it, and only a request to
delete a record has it marked.
-/

namespace UnitOfWork

private theorem Transaction.IsSql.isDeleted_writeAll {σ ρ : Type} {tx : Transaction σ ρ}
    (hw : tx.IsSql) (w : Workspace) (run : Run σ) (p : RecordId) :
    ((endState (tx.writeAll w run)).session.heap.get p).isDeleted =
      (run.session.heap.get p).isDeleted := by
  obtain ⟨conn, deferrable, hw⟩ := hw
  have hlate : tx.LateInvariant conn fun s =>
      ∀ p, (s.heap.get p).isDeleted = (run.session.heap.get p).isDeleted :=
    { steady := fun s s' q hs p => by rw [q.heap]; exact hs p
      update := fun store t r s s' u hs p => by rw [u.heap]; exact hs p
      delete := fun store st s hs => hs
      reset := fun s r hs p =>
        ((Heap.Keeps.modify_resetChanges s.heap r).isDeleted p).trans (hs p) }
  have hwrite := hlate.writeAll_preserves hw
    (fun store t r st s s' _ a hs p => (a.heap.keeps.isDeleted p).trans (hs p)) w
  exact preserves_iff.mp hwrite run (fun _ => rfl) p

namespace Move

variable {s : Workspace × Heap} {m : Move}

/-- Edits leave the marks of the records that are tracked alone, and no marked record is tracked
whose row is not to be deleted already. A record is not taken out without the request that marks
it. -/
def Respects (s : Workspace × Heap) : Move → Prop
  | edit h => ∀ p, s.1.Holds p → (h.get p).isDeleted = (s.2.get p).isDeleted
  | track kind r importing =>
    ((s.1.registry kind).bucket (s.2.get r).type).Admits kind s.2 r importing
  | remove _ _ => False
  | settle _ _ => True

/-- A sound workspace in which marks and places agree. -/
def SoundMarked (s : Workspace × Heap) : Prop := s.1.Sound s.2 ∧ Workspace.MarksAgree s

private theorem Respects.run (hm : m.Respects s) (hlegal : m.IsLegal s) (hs : SoundMarked s) :
    SoundMarked (m.run s) := by
  refine ⟨(run_sound hlegal ⟨hs.1, .refl s.2⟩).1, ?_⟩
  cases m with
  | edit h => exact hs.2.edit hm
  | track kind r importing => exact hs.2.track hs.1 hm
  | remove kind r => exact hm.elim
  | settle kind purge => exact hs.2.settle kind purge

private theorem Along.soundMarked {ms : List Move} (hlegal : Along IsLegal s ms)
    (hms : Along Respects s ms) (hs : SoundMarked s) : SoundMarked (runAll s ms) :=
  (hlegal.and hms).invariant (fun _ _ h => h.2.run h.1) hs

/-- Edits put no mark on and take none off. -/
def LeavesMarks (s : Workspace × Heap) : Move → Prop
  | edit h => ∀ p, (h.get p).isDeleted = (s.2.get p).isDeleted
  | track _ _ _ | remove _ _ | settle _ _ => True

private theorem leavesMarks_of_mem {ms : List Move} (hms : ∀ m ∈ ms, ∀ h, m ≠ .edit h) :
    Along LeavesMarks s ms := by
  refine (along_of_mem hms).imp fun s m hm => ?_
  cases m with
  | edit h => exact absurd rfl (hm h)
  | track | remove | settle => trivial

private theorem Respects.isDeleted_of (hm : m.Respects s) (hleaves : m.LeavesMarks s)
    (hs : SoundMarked s)
    {p : RecordId} (hp : ((m.run s).2.get p).isDeleted) : (s.2.get p).isDeleted := by
  cases m with
  | edit h => exact (hleaves p).symm.trans hp
  | track kind r importing =>
    rw [Move.run, Registry.track, Workspace.heap_onBucket] at hp
    exact (Bucket.track_tracks kind _ s.2 r importing).isDeleted_of (hs.2.bucket kind _) hm hp
  | remove kind r => exact hm.elim
  | settle kind purge => exact (Workspace.isDeleted_settle s kind purge p).symm.trans hp

private theorem checkMoves_respects (hs : SoundMarked s) :
    Along Respects s (Workspace.checkMoves s) := by
  have hcheck : Along (fun s m => (∃ kind r, m = .track kind r false) ∧ m.IsLegal s ∧ m.Respects s)
      s (Workspace.checkMoves s) := by
    refine Workspace.checkMoves_along
      (Q := fun kind r s => (r ∈ s.2.ids ∧ (s.2.get r).type.kind = kind) ∧
        (s.2.get r).isDeleted = false)
      (fun s m hm hs => hm.2.2.run hm.2.1 hs) ?_ ?_ ?_ hs
    · rintro s _ kind p ⟨⟨kind', r, rfl⟩, hlegal, ha⟩ hs ⟨⟨hp, hk⟩, hunmarked⟩
      have he := (run_sound hlegal ⟨hs.1, .refl s.2⟩).2
      have hbucket := hs.2.bucket kind' (s.2.get r).type
      refine ⟨⟨he.ids p hp, by rw [he.type p hp, hk]⟩, ?_⟩
      rw [run, Registry.track, Workspace.heap_onBucket]
      exact ((Bucket.track_tracks kind' _ s.2 r false).isDeleted_eq hbucket ha
        (hbucket.notMem_deleted hunmarked)).trans hunmarked
    · rintro s kind r hs ⟨hr, hunmarked⟩
      exact ⟨⟨kind, r, rfl⟩, hr, fun hm => Bool.noConfusion (hunmarked.symm.trans hm)⟩
    · intro s kind r hs hr
      obtain ⟨name, b, hb, hin⟩ := Registry.mem_pending.mp hr
      exact ⟨hs.1.of_mem_pending hr, (hs.2 kind name b hb).active r (.inr (.inl hin))⟩
  exact hcheck.imp fun _ _ h => h.2.2

end Move

namespace Operation

open Move (Along Respects SoundMarked)

variable {σ ρ : Type} {s : Workspace × Heap} {op : Operation σ ρ} {ops ops' : List (Operation σ ρ)}

/-- The application leaves the marks of tracked records alone and hands over no marked record,
unless its row is to be deleted already. It deletes only records that are in their places. The
writers of a commit write by statements. -/
def Respects (s : Workspace × Heap) : Operation σ ρ → Prop
  | delete r => (s.2.get r).isDeleted = false →
    ((s.1.registry (s.2.get r).type.kind).bucket (s.2.get r).type).InPlace
      (s.2.get r).type.kind s.2 r
  | commit tx _ => tx.IsSql
  | edit h => Along Move.Respects s (moves (σ := σ) (ρ := ρ) s (.edit h))
  | track r => Along Move.Respects s (moves (σ := σ) (ρ := ρ) s (.track r))
  | importGraph root => Along Move.Respects s (moves (σ := σ) (ρ := ρ) s (.importGraph root))

private theorem commit_respects {tx : Transaction σ ρ} (hw : tx.IsSql) (world : σ)
    (hs : SoundMarked s) :
    Along (fun s m => m.Respects s ∧ m.LeavesMarks s) s (moves s (.commit tx world)) := by
  rw [moves]
  split
  · trivial
  · have hnone : ∀ m ∈ Workspace.checkMoves s, ∀ h, m ≠ .edit h := by
      rintro _ hm h rfl
      obtain ⟨_, _, he⟩ := Workspace.mem_checkMoves hm
      cases he
    refine Move.along_append.mpr
      ⟨(Move.checkMoves_respects hs).and (Move.leavesMarks_of_mem hnone), ?_⟩
    rw [← Workspace.endState_checkReady]
    cases Workspace.checkReady s with
    | error e s' => trivial
    | ok u s' =>
      have hmarks := hw.isDeleted_writeAll s'.1 { session := { heap := s'.2, world } }
      dsimp only [endState]
      rw [flushMoves]
      cases hres : tx.writeAll s'.1 { session := { heap := s'.2, world } } with
      | error halt run =>
        rw [hres] at hmarks
        exact ⟨⟨fun p _ => hmarks p, hmarks⟩, trivial⟩
      | ok summary run =>
        rw [hres] at hmarks
        refine ⟨⟨fun p _ => hmarks p, hmarks⟩, ?_⟩
        refine (Move.along_of_mem (R := fun m => ∃ kind purge, m = .settle kind purge)
          fun m hm => Workspace.mem_settleMoves hm).imp ?_
        rintro _ _ ⟨kind, purge, rfl⟩
        exact ⟨trivial, trivial⟩

private theorem Respects.moves (hop : op.Respects s) (hs : SoundMarked s)
    (hnot : ∀ r, op ≠ .delete r) :
    Along Move.Respects s (op.moves s) := by
  cases op with
  | delete r => exact absurd rfl (hnot r)
  | commit tx world => exact (commit_respects hop world hs).imp fun _ _ h => h.1
  | edit | track | importGraph => exact hop

theorem respects_track {r : RecordId}
    (ha : ((s.1.registry (s.2.get r).type.kind).bucket (s.2.get r).type).Admits
      (s.2.get r).type.kind s.2 r false) : (track r : Operation σ ρ).Respects s := by
  change Along Move.Respects s (if _ then [] else _)
  split
  · trivial
  · exact ⟨ha, trivial⟩

private theorem Respects.moves_leaveMarks (hop : op.Respects s) (hs : SoundMarked s)
    (hnot : ∀ h, op ≠ .edit h) (hnot' : ∀ r, op ≠ .delete r) :
    Along Move.LeavesMarks s (op.moves s) := by
  cases op with
  | edit h => exact absurd rfl (hnot h)
  | delete r => exact absurd rfl (hnot' r)
  | commit tx world => exact (commit_respects hop world hs).imp fun _ _ h => h.2
  | track r =>
    rw [Operation.moves]
    split <;> trivial
  | importGraph root =>
    rw [Operation.moves]
    split
    · trivial
    · refine ⟨fun p => Heap.isDeleted_modify rfl p, Move.leavesMarks_of_mem fun m hm h he => ?_⟩
      obtain ⟨_, _, rfl⟩ := Workspace.mem_importMoves hm
      cases he

private theorem Respects.run (hop : op.Respects s) (hlegal : op.IsLegal s)
    (hbypass : s.1.config.bypass = false) (hs : SoundMarked s) : SoundMarked (op.run s) := by
  have hmoves := moves_legal hlegal ⟨hs.1, .refl s.2⟩
  have hsound := (Move.runAll_sound hmoves ⟨hs.1, .refl s.2⟩).1
  rw [← run_eq_runAll] at hsound
  by_cases hnot : ∀ r, op ≠ .delete r
  · rw [run_eq_runAll]
    exact hmoves.soundMarked (hop.moves hs hnot) hs
  · obtain ⟨r, rfl⟩ : ∃ r, op = .delete r := by simpa using hnot
    exact ⟨hsound, hs.2.delete hs.1 hbypass hop⟩

theorem Respects.eq_delete {r : RecordId} (hop : op.Respects s) (hlegal : op.IsLegal s)
    (hs : SoundMarked s) (hnot : ∀ h, op ≠ .edit h) (hr : (s.2.get r).isDeleted = false)
    (hm : ((op.run s).2.get r).isDeleted) : op = .delete r := by
  by_cases hdelete : ∀ q, op ≠ .delete q
  · have hall := ((moves_legal hlegal ⟨hs.1, .refl s.2⟩).and (hop.moves hs hdelete)).and
      (hop.moves_leaveMarks hs hnot hdelete)
    rw [run_eq_runAll] at hm
    have hnone := (hall.invariant (I := fun s => SoundMarked s ∧ (s.2.get r).isDeleted = false)
      (fun s m hm hs => ⟨hm.1.2.run hm.1.1 hs.1, Bool.eq_false_iff.mpr fun hp =>
        Bool.noConfusion (hs.2.symm.trans (hm.1.2.isDeleted_of hm.2 hs.1 hp))⟩) ⟨hs, hr⟩).2
    exact Bool.noConfusion (hnone.symm.trans hm)
  · obtain ⟨q, rfl⟩ : ∃ q, op = .delete q := by simpa using hdelete
    by_cases hq : r = q
    · rw [hq]
    · rw [Operation.run, Workspace.get_delete_of_ne hq] at hm
      exact Bool.noConfusion (hr.symm.trans hm)

/-- Each operation respects the marks where it is done. -/
def AllRespect (s : Workspace × Heap) : List (Operation σ ρ) → Prop
  | [] => True
  | op :: ops => op.Respects s ∧ AllRespect (op.run s) ops

theorem allRespect_append :
    AllRespect s (ops ++ ops') ↔ AllRespect s ops ∧ AllRespect (runAll s ops) ops' := by
  induction ops generalizing s with
  | nil => simp [AllRespect, runAll]
  | cons op ops ih =>
    simp only [List.cons_append, AllRespect, ih, and_assoc]
    rfl

theorem AllRespect.soundMarked (hops : AllRespect s ops) (hlegal : AllLegal s ops)
    (hbypass : s.1.config.bypass = false) (hs : SoundMarked s) : SoundMarked (runAll s ops) := by
  induction ops generalizing s with
  | nil => exact hs
  | cons op ops ih =>
    have hnext : (op.run s).1.config.bypass = false := by
      rw [run_eq_runAll, Move.runAll_config, hbypass]
    exact ih hops.2 hlegal.2 hnext (hops.1.run hlegal.1 hbypass hs)

theorem soundMarked_empty (config : Config) : SoundMarked ({ config }, ∅) :=
  ⟨Workspace.sound_empty config ∅, fun kind name b hb => by
    rw [Workspace.registry_empty] at hb
    cases hb⟩

private theorem runAll_bypass (hb : s.1.config.bypass) : (runAll s ops).1 = s.1 := by
  induction ops generalizing s with
  | nil => rfl
  | cons op ops ih =>
    have hop := run_bypass hb op
    exact (ih (hop ▸ hb)).trans hop

theorem AllRespect.marksAgree {config : Config} (hops : AllRespect ({ config }, ∅) ops)
    (hlegal : AllLegal ({ config }, ∅) ops) :
    Workspace.MarksAgree (runAll ({ config }, ∅) ops) := by
  cases hb : config.bypass with
  | false => exact (hops.soundMarked hlegal hb (soundMarked_empty config)).2
  | true =>
    have hw : (runAll ({ config }, ∅) ops).1 = { config } := runAll_bypass (s := ({ config }, ∅)) hb
    intro kind name b hget
    rw [hw, Workspace.registry_empty] at hget
    cases hget

end Operation

end UnitOfWork
