import UnitOfWork.Proofs.Commit.SqlWriter
import UnitOfWork.Proofs.Tracking.Batches
import UnitOfWork.Proofs.Tracking.Settling

/-!
# The life of a workspace

An application creates records and edits them, has them tracked, deleted and imported, and commits
as often as it likes, whatever becomes of each commit. At every point of such a life the workspace
is sound.
-/

namespace UnitOfWork

namespace Heap

/-- Records that have a row keep what is noted about their changes. -/
structure Spares (h h' : Heap) : Prop where
  evolves : h.Evolves h'
  changed : ∀ r ∈ h.ids, (h.get r).isNew = false → (h'.get r).changed = (h.get r).changed
  hydrated : ∀ r ∈ h.ids, (h.get r).isNew = false → (h'.get r).hydrated = (h.get r).hydrated

namespace Spares

variable {h h' h'' : Heap}

theorem refl (h : Heap) : h.Spares h := ⟨.refl h, fun _ _ _ => rfl, fun _ _ _ => rfl⟩

theorem isNew_eq_false (a : h.Evolves h') {r : RecordId} (hr : r ∈ h.ids)
    (hn : (h.get r).isNew = false) : (h'.get r).isNew = false :=
  Bool.eq_false_iff.mpr fun hc => by simp [a.isNew r hr hc] at hn

theorem trans (a : h.Spares h') (b : h'.Spares h'') : h.Spares h'' where
  evolves := a.evolves.trans b.evolves
  changed r hr hn := (b.changed r (a.evolves.ids r hr) (isNew_eq_false a.evolves hr hn)).trans
    (a.changed r hr hn)
  hydrated r hr hn := (b.hydrated r (a.evolves.ids r hr) (isNew_eq_false a.evolves hr hn)).trans
    (a.hydrated r hr hn)

end Spares

theorem Keeps.evolves {h h' : Heap} (a : h.Keeps h') : h.Evolves h' :=
  ⟨a.ids, fun r _ => a.type r, fun r _ hn => by rwa [a.isNew r] at hn⟩

theorem Stores.spares {t : RecordType} {r : RecordId} {h h' : Heap} (a : h.Stores t r h')
    (hr : (h.get r).isNew) : h.Spares h' := by
  have hne : ∀ q, (h.get q).isNew = false → q ≠ r := by
    intro q hq he
    subst he
    simp [hr] at hq
  refine ⟨a.keeps.evolves, ?_, ?_⟩
  · intro q _ hq
    rw [a.others q (hne q hq)]
  · intro q _ hq
    rw [a.others q (hne q hq)]

/-- What an application may do to records by itself: it creates some, assigns to them and marks
them, but makes none new again and none inserted. -/
structure Edits (h h' : Heap) : Prop where
  evolves : h.Evolves h'
  inserted : ∀ r, (h'.get r).inserted → (h.get r).inserted

theorem Edits.of_fresh {h : Heap} (hm : ∀ x ∈ h.cells.values, x.inserted = false) :
    (∅ : Heap).Edits h where
  evolves := ⟨fun r hr => absurd hr List.not_mem_nil, fun r hr => absurd hr List.not_mem_nil,
    fun r hr => absurd hr List.not_mem_nil⟩
  inserted r hr := by
    have hfresh : (h.get r).inserted = false := forall_get (P := (·.inserted = false)) rfl hm r
    exact Bool.noConfusion (hfresh.symm.trans hr)

theorem Edits.modify {h : Heap} {r : RecordId} {f : Record → Record}
    (ht : (f (h.get r)).type = (h.get r).type) (hn : (f (h.get r)).isNew → (h.get r).isNew)
    (hi : (f (h.get r)).inserted → (h.get r).inserted) : h.Edits (h.modify r f) where
  evolves := .modify ht hn
  inserted q hq := by
    by_cases hqr : q = r
    · subst hqr
      rw [get_modify_self] at hq
      exact hi hq
    · rwa [get_modify_of_ne f hqr] at hq

end Heap

namespace Transaction

variable {σ ρ : Type} {tx : Transaction σ ρ}

/-- The writers leave to the commit what is noted about changes in records that have a row. -/
structure Orderly (tx : Transaction σ ρ) : Prop where
  insert : ∀ (h : Heap) store t rs,
    Preserves (fun s => h.Spares s.heap) ((tx.writer store).insert t rs)
  update : ∀ (h : Heap) store t rs,
    Preserves (fun s => h.Spares s.heap) ((tx.writer store).update t rs)
  delete : ∀ (h : Heap) store t rs,
    Preserves (fun s => h.Spares s.heap) ((tx.writer store).delete t rs)

theorem WritesBy.orderly {conn : String → Connection σ ρ} {deferrable : String → Bool}
    (hw : tx.WritesBy conn deferrable) : tx.Orderly where
  insert h store t rs := by
    rw [hw.writer]
    exact Writer.sql_insert_preserves (fun _ _ _ _ _ hn a hs => hs.trans (a.heap.spares hn)) t rs
  update h store t rs := by
    rw [hw.writer]
    exact Writer.sql_update_preserves (fun _ _ _ _ u hs => by rwa [u.heap]) t rs
  delete h store t rs := by
    rw [hw.writer]
    exact Writer.sql_delete_preserves (fun _ _ hs => hs) t rs

theorem steady_heap {P : Heap → Prop} : tx.Steady fun s => P s.heap :=
  fun s s' q h => by
    change P s'.heap
    rwa [q.heap]

theorem preserves_of_spares {α : Type} {P : Heap → Prop} {x : Working σ ρ α}
    (hP : ∀ h h', P h → h.Spares h' → P h')
    (hx : ∀ h : Heap, Preserves (fun s => h.Spares s.heap) x) :
    Preserves (fun s => P s.heap) x :=
  Triple.of_starting fun s hs => ((hx s.heap).starting (.refl _)).conseq (fun _ h => h)
    (fun _ s' h => hP s.heap s'.heap hs h) fun _ s' h => hP s.heap s'.heap hs h

theorem evolves_resetChanges {h₀ h : Heap} (r : RecordId) (e : h₀.Evolves h) :
    h₀.Evolves (h.modify r .resetChanges) :=
  e.trans (Heap.Settles.modify_resetChanges h r).evolves

theorem Orderly.writeAll (ht : tx.Orderly) (w : Workspace) (h₀ : Heap) :
    Preserves (fun run : Run σ => h₀.Evolves run.session.heap) (tx.writeAll w) := by
  have hP : ∀ h h' : Heap, h₀.Evolves h → h.Spares h' → h₀.Evolves h' := by
    intro _ _ e a
    exact e.trans a.evolves
  have hinsert := insertAll_preserves (P := fun s => h₀.Evolves s.heap) steady_heap
    (fun t rs => preserves_of_spares hP fun h => ht.insert h t.store t rs) {} w.insertBatches
  exact writeAll_triple steady_heap
    (fun t rs => preserves_of_spares hP fun h => ht.update h t.store t rs)
    (fun t rs => preserves_of_spares hP fun h => ht.delete h t.store t rs)
    (fun _ r hs => evolves_resetChanges r hs) hinsert

end Transaction

namespace Workspace

variable {σ ρ : Type} {tx : Transaction σ ρ} {w : Workspace}

/-- Writing is followed by settling only, which does not touch the keys. -/
theorem flush_settles (ht : tx.Orderly) (run : Run σ) (hw : w.Sound run.session.heap) :
    ∃ heap, (endState (tx.writeAll w run)).session.heap.Settles heap ∧
      (w.flush tx run).2.2.session = { (endState (tx.writeAll w run)).session with heap } ∧
        (w.flush tx run).2.1.Sound heap := by
  have hwrite := ht.writeAll w run.session.heap run (.refl _)
  rw [flush]
  cases hres : tx.writeAll w run with
  | error halt run' =>
    rw [hres] at hwrite
    exact ⟨run'.session.heap, .refl _, rfl, hw.evolves hwrite⟩
  | ok summary run' =>
    rw [hres] at hwrite
    have hsettle := settle_sound (hw.evolves hwrite) _ rfl
    dsimp only
    cases hset : settle (w, run'.session.heap) with
    | ok u s =>
      rw [hset] at hsettle
      exact ⟨s.2, hsettle.1.2, rfl, hsettle.1.1⟩
    | error e s =>
      rw [hset] at hsettle
      exact ⟨s.2, hsettle.2, rfl, hsettle.1⟩

private theorem flush_sound (ht : tx.Orderly) {run : Run σ} (hw : w.Sound run.session.heap) :
    (w.flush tx run).2.1.Sound (w.flush tx run).2.2.session.heap := by
  obtain ⟨heap, -, hsession, hsound⟩ := flush_settles ht run hw
  rw [hsession]
  exact hsound

private theorem commit_sound (ht : tx.Orderly) {s : Session σ} (hw : w.Sound s.heap) :
    (w.commit tx s).2.1.Sound (w.commit tx s).2.2.heap := by
  cases hr : w.ready? s.heap with
  | none =>
    obtain ⟨result, w', h', hcommit, hsound, -⟩ := commit_notReady tx hw hr
    rw [hcommit]
    exact hsound
  | some s' =>
    obtain ⟨hwork, hreleases⟩ := commit_ready tx hr
    rw [hwork, hreleases.heap]
    exact flush_sound ht (ready?_sound hw hr).1

end Workspace

/-- The states that a workspace and the records may be in, with the traces of the commits so far.
All transactions of the life are of the kind `W`; the stores may do anything between them. -/
inductive Life {σ ρ : Type} (W : Transaction σ ρ → Prop) :
    List (List Event) → Workspace → Heap → Prop
  | begin (config : Config) : Life W [] { config } ∅
  | edit {past : List (List Event)} {w : Workspace} {h h' : Heap} :
    Life W past w h → h.Edits h' → Life W past w h'
  | track {past : List (List Event)} {w : Workspace} {h : Heap} {r : RecordId} :
    Life W past w h → r ∈ h.ids →
      Life W past (endState (Workspace.track r (w, h))).1 (endState (Workspace.track r (w, h))).2
  | delete {past : List (List Event)} {w : Workspace} {h : Heap} {r : RecordId} :
    Life W past w h → r ∈ h.ids →
      Life W past (endState (Workspace.delete r (w, h))).1 (endState (Workspace.delete r (w, h))).2
  | importGraph {past : List (List Event)} {w : Workspace} {h : Heap} {root : RecordId} :
    Life W past w h → root ∈ h.ids →
      Life W past (endState (Workspace.importGraph root (w, h))).1
        (endState (Workspace.importGraph root (w, h))).2
  /-- The check that precedes the writing, on its own. -/
  | check {past : List (List Event)} {w : Workspace} {h : Heap} : Life W past w h →
    Life W past (endState (Workspace.checkReady (w, h))).1
      (endState (Workspace.checkReady (w, h))).2
  | commit {past : List (List Event)} {w : Workspace} {h : Heap} {tx : Transaction σ ρ}
    (world : σ) : Life W past w h → W tx →
      Life W (past ++ [(w.commit tx { heap := h, world }).2.2.trace])
        (w.commit tx { heap := h, world }).2.1 (w.commit tx { heap := h, world }).2.2.heap

theorem Life.sound {σ ρ : Type} {W : Transaction σ ρ → Prop} (hW : ∀ tx, W tx → tx.Orderly)
    {past : List (List Event)} {w : Workspace} {h : Heap} (life : Life W past w h) :
    w.Sound h := by
  induction life with
  | begin config => exact Workspace.sound_empty config ∅
  | edit _ e ih => exact ih.evolves e.evolves
  | track _ hr ih => exact (preserves_iff.mp (Workspace.track_sound hr) _ ⟨ih, .refl _⟩).1
  | delete _ hr ih => exact (preserves_iff.mp (Workspace.delete_sound hr) _ ⟨ih, .refl _⟩).1
  | importGraph _ hr ih =>
    exact (preserves_iff.mp (Workspace.importGraph_sound hr) _ ⟨ih, .refl _⟩).1
  | check _ ih => exact (preserves_iff.mp Workspace.checkReady_sound _ ⟨ih, .refl _⟩).1
  | commit world _ htx ih => exact Workspace.commit_sound (hW _ htx) ih

end UnitOfWork
