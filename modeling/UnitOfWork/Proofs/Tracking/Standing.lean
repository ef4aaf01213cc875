import UnitOfWork.Proofs.Commit.PartialSettling
import UnitOfWork.Proofs.Tracking.Readiness
import UnitOfWork.Proofs.Tracking.Reconciling

/-!
# Records that stand for themselves

A record that is handed over stands for itself unless another one is told in its place or it is
taken out again. As long as such a record is new it is tracked as one: it waits for its key, or it
is among those that the next commit inserts.
-/

namespace UnitOfWork

namespace Bucket

variable {kind : KeyKind} {name : String} {b b' : Bucket} {h h' : Heap} {r t : RecordId}
  {importing : Bool} {answer : Option RecordId}

private theorem Tracks.listsNew_self (a : Tracks kind b h r importing answer b' h')
    (hs : b.Sound kind name h) (hn : (h.get r).isNew)
    (hself : answer = some r ∨ answer = none ∧ b.ListsNew r) : b'.ListsNew r := by
  have hlisted : (b.listing r).ListsNew r := (listsNew_listing hs).mpr (.inl rfl)
  have htold : ∀ q, answer = some q → q = r := by
    intro q hq
    rcases hself with hself | ⟨hnone, -⟩
    · exact Option.some.inj (hq.symm.trans hself)
    · cases hq.symm.trans hnone
  cases a with
  | waits => exact .inr (hs.pendingCoherent.mem_insert.mpr (.inl rfl))
  | lists | misfiles | files => exact hlisted
  | @joins key q hk hrival => exact absurd (htold q rfl) (rival?_eq_some hrival).1
  | @revives key q hk _ hq =>
    obtain rfl := htold q rfl
    have hrow := (hs.deleted q (FinMap.mem_values_of_get? hq)).2
    exact Bool.noConfusion (hrow.symm.trans hk.isNew)
  | fails hrow => exact Bool.noConfusion (hrow.symm.trans hn)
  | finds hst | merges hst | mergesDeleted hst | enters hst | replacesDeleted hst | restores hst =>
    exact Bool.noConfusion (hst.notNew.symm.trans hn)

/-- Settling makes no record new: a record that is new afterwards is tracked as before. -/
theorem ListsNew.settle {written : List (RowKey × RecordId)} (hl : b.ListsNew t) (h : Heap)
    (purge : Bool) (hnot : t ∉ b.new.toList) : (b.settle h purge written).1.ListsNew t :=
  .inr (hl.resolve_left hnot)

end Bucket

namespace Workspace

variable {α : Type} {w : Workspace} {h : Heap} {kind : KeyKind} {r t : RecordId}

def ListsNew (w : Workspace) (t : RecordId) : Prop :=
  ∃ kind name b, (w.registry kind).buckets.get? name = some b ∧ b.ListsNew t

private theorem ListsNew.mem_newRecords (hl : w.ListsNew t)
    (hpending : ∀ kind, t ∉ (w.registry kind).pending) : t ∈ w.newRecords := by
  obtain ⟨kind, name, b, hb, hnew | hp⟩ := hl
  · exact Workspace.mem_newRecords.mpr ⟨kind, name, b, hb, hnew⟩
  · exact absurd (Registry.mem_pending.mpr ⟨name, b, hb, hp⟩) (hpending kind)

private theorem Sound.listsNew_bucket (hs : w.Sound h) (hl : w.ListsNew t) :
    ((w.registry (h.get t).type.kind).bucket (h.get t).type).ListsNew t := by
  obtain ⟨kind, name, b, hb, hm⟩ := hl
  have hbs := hs kind name b hb
  have ht : h.Belongs kind name t := hm.elim (hbs.new t) (hbs.pending t)
  rw [ht.kind, Registry.bucket, ht.name, hb]
  exact hm

private theorem listsNew_of_bucket {x : Tracking Bucket α} {s : Workspace × Heap}
    (hb : (endState (x ((s.1.registry kind).bucket (s.2.get r).type, s.2))).1.ListsNew t) :
    (endState (onRegistry kind (Registry.onBucket r x) s)).1.ListsNew t :=
  ⟨kind, (s.2.get r).type.name, _, (get?_onBucket ..).trans (if_pos ⟨rfl, rfl⟩), hb⟩

private theorem ListsNew.onBucket {x : Tracking Bucket α} {s : Workspace × Heap}
    (hl : s.1.ListsNew t) (hb : ((s.1.registry kind).bucket (s.2.get r).type).ListsNew t →
      (endState (x ((s.1.registry kind).bucket (s.2.get r).type, s.2))).1.ListsNew t) :
    (endState (onRegistry kind (Registry.onBucket r x) s)).1.ListsNew t := by
  obtain ⟨kind', name, b, hget, hm⟩ := hl
  by_cases hsame : kind' = kind ∧ (s.2.get r).type.name = name
  · obtain ⟨rfl, rfl⟩ := hsame
    refine listsNew_of_bucket (hb ?_)
    rw [Registry.bucket, hget]
    exact hm
  · exact ⟨kind', name, b, ((get?_onBucket ..).trans (if_neg hsame)).trans hget, hm⟩

end Workspace

namespace Move

variable {s : Workspace × Heap} {m : Move} {t : RecordId} {before : Bool}

/-- Whether the record `t` stands for itself after a move, given whether it did before. -/
def stands (t : RecordId) (s : Workspace × Heap) (before : Bool) : Move → Bool
  | track kind r importing =>
    if r = t then
      match returned? (Workspace.onRegistry kind (Registry.track r importing) s) with
      | some answer => answer = t
      | none => before
    else before
  | remove _ r => before && r ≠ t
  | edit _ | settle _ _ => before

/-- Whether the record `t` stands for itself after some moves. -/
def standsAfter (t : RecordId) (s : Workspace × Heap) (before : Bool) : List Move → Bool
  | [] => before
  | m :: ms => standsAfter t (m.run s) (m.stands t s before) ms

/-- The record exists, and is tracked as a new one as long as it is new. -/
def Stands (t : RecordId) (s : Workspace × Heap) : Prop :=
  t ∈ s.2.ids ∧ ((s.2.get t).isNew → s.1.ListsNew t)

private theorem track_stands {kind : KeyKind} {r : RecordId} {importing : Bool}
    (hs : s.1.Sound s.2) (hm : (track kind r importing).IsLegal s) (hb : before → Stands t s)
    (hstands : (track kind r importing).stands t s before) :
    Stands t ((track kind r importing).run s) := by
  have htracks := Bucket.track_tracks kind ((s.1.registry kind).bucket (s.2.get r).type) s.2 r
    importing
  have hx : s.2.Belongs kind (s.2.get r).type.name r := ⟨hm.1, rfl, hm.2⟩
  have hbs := (hs kind).bucket (s.2.get r).type
  have hfolds : s.2.Folds (endState (Bucket.track kind r importing
      ((s.1.registry kind).bucket (s.2.get r).type, s.2))).2 := (Bucket.track_sound hbs hx).2
  have hheap := Workspace.heap_onBucket kind r (Bucket.track kind r importing) s
  have hanswer : returned? (Workspace.onRegistry kind (Registry.track r importing) s) =
      returned? (Bucket.track kind r importing
        ((s.1.registry kind).bucket (s.2.get r).type, s.2)) :=
    (Workspace.returned?_onRegistry s).trans (Registry.onBucket_eq (r := r) _ _ s.2).1
  rw [stands, hanswer] at hstands
  rw [run, Registry.track, Stands, hheap, hfolds.ids, hfolds.isNew]
  by_cases hrt : r = t
  · subst hrt
    rw [if_pos rfl] at hstands
    refine ⟨hm.1, fun hn => Workspace.listsNew_of_bucket ?_⟩
    refine htracks.listsNew_self hbs hn ?_
    cases ha : returned? (Bucket.track kind r importing
        ((s.1.registry kind).bucket (s.2.get r).type, s.2)) with
    | some answer =>
      rw [ha] at hstands
      exact .inl (congrArg some (of_decide_eq_true hstands))
    | none =>
      rw [ha] at hstands
      have hl := hs.listsNew_bucket ((hb hstands).2 hn)
      rw [hm.2] at hl
      exact .inr ⟨rfl, hl⟩
  · rw [if_neg hrt] at hstands
    obtain ⟨hids, hlists⟩ := hb hstands
    refine ⟨hids, fun hn => (hlists hn).onBucket fun hl => ?_⟩
    exact htracks.listsNew_of_ne hbs (Ne.symm hrt) hl

private theorem settle_stands {kind : KeyKind} {purge : Bool} (hb : Stands t s) :
    Stands t ((settle kind purge).run s) := by
  obtain ⟨hids, hlists⟩ := hb
  have hsettle := Registry.settle_isSettled (s.1.registry kind) s.2 purge _ rfl
  rw [run]
  simp only [Workspace.onRegistry, Tracking.within]
  cases hres : Registry.settle purge (s.1.registry kind, s.2) with
  | error e s' =>
    rw [hres] at hsettle
    obtain rfl : s' = (s.1.registry kind, s.2) := hsettle
    change Stands t (s.1.setRegistry kind (s.1.registry kind), s.2)
    rw [Workspace.setRegistry_registry]
    exact ⟨hids, hlists⟩
  | ok u s' =>
    rw [hres] at hsettle
    obtain ⟨hsettles, hsettled⟩ := hsettle
    change Stands t (s.1.setRegistry kind s'.1, s'.2)
    refine ⟨hsettles.ids t hids, fun hn => ?_⟩
    obtain ⟨kind', name, b, hget, hl⟩ := hlists (hsettles.isNew t hn)
    by_cases hsame : kind' = kind
    · subst hsame
      obtain ⟨written, h₀, -, hget'⟩ := hsettled.bucket name b hget
      refine ⟨kind', name, _, (by rw [Workspace.registry_setRegistry]; exact hget'),
        hl.settle h₀ purge fun hm => ?_⟩
      have hold := hsettled.committed t (Registry.mem_newRecords.mpr ⟨name, b, hget, hm⟩)
      exact Bool.noConfusion (hold.symm.trans hn)
    · exact ⟨kind', name, b, (by rwa [Workspace.registry_setRegistry_of_ne hsame]), hl⟩

/-- A record that stands for itself is tracked as long as it is new. -/
theorem run_stands (hs : s.1.Sound s.2) (hm : m.IsLegal s) (hb : before → Stands t s)
    (hstands : m.stands t s before) : Stands t (m.run s) := by
  cases m with
  | edit h =>
    obtain ⟨hids, hlists⟩ := hb hstands
    exact ⟨hm.ids t hids, fun hn => hlists (hm.isNew t hids hn)⟩
  | track kind r importing => exact track_stands hs hm hb hstands
  | remove kind r =>
    obtain ⟨hbefore, hne⟩ : before ∧ r ≠ t := by simpa [stands] using hstands
    obtain ⟨hids, hlists⟩ := hb hbefore
    obtain ⟨hheap, hremoves⟩ := Bucket.remove_removes kind
      ((s.1.registry kind).bucket (s.2.get r).type) s.2 r
    rw [← Workspace.heap_onBucket] at hheap
    rw [run, Registry.remove, Stands, hheap]
    exact ⟨hids, fun hn => (hlists hn).onBucket fun hl =>
      hremoves.listsNew_of_ne ((hs kind).bucket _) (Ne.symm hne) hl⟩
  | settle kind purge => exact settle_stands (hb hstands)

private theorem runAll_stands {ms : List Move} (hs : s.1.Sound s.2)
    (hms : Along (fun s m => m.IsLegal s) s ms) (hb : before → Stands t s)
    (hstands : standsAfter t s before ms) : Stands t (runAll s ms) := by
  induction ms generalizing s before with
  | nil => exact hb hstands
  | cons m ms ih =>
    obtain ⟨hm, hms⟩ := hms
    exact ih (run_sound hm ⟨hs, .refl s.2⟩).1 hms (run_stands hs hm hb) hstands

end Move

/-- What stands for itself after a history and the check of a commit is among the records that the
commit is to insert, if it is new. -/
theorem Operation.mem_newRecords_of_standsAfter {σ ρ : Type} {config : Config}
    {ops : List (Operation σ ρ)} {w₁ : Workspace} {h₁ : Heap} {t : RecordId}
    (hlegal : AllLegal ({ config }, ∅) ops)
    (hcheck : Workspace.checkReady (runAll ({ config }, ∅) ops) = .ok () (w₁, h₁))
    (hstands : Move.standsAfter t ({ config }, ∅) false
      (allMoves ({ config }, ∅) ops ++ Workspace.checkMoves (runAll ({ config }, ∅) ops)))
    (hn : (h₁.get t).isNew) : t ∈ w₁.newRecords := by
  have hbegin := soundFrom_empty config
  have hsound := hlegal.soundFrom hbegin
  have hend := Workspace.endState_checkReady (runAll ({ config }, ∅) ops)
  rw [hcheck] at hend
  have hmoves : Move.Along Move.IsLegal ({ config }, ∅)
      (allMoves ({ config }, ∅) ops ++ Workspace.checkMoves (runAll ({ config }, ∅) ops)) := by
    refine Move.along_append.mpr ⟨hlegal.moves_legal hbegin, ?_⟩
    rw [← runAll_eq]
    exact Workspace.checkMoves_legal hsound
  have hlists := Move.runAll_stands hbegin.1 hmoves (fun h => Bool.noConfusion h) hstands
  rw [Move.runAll_append, ← runAll_eq, ← hend] at hlists
  obtain ⟨-, -, hpending⟩ := (Workspace.checkReady_pending hsound.1).ok rfl hcheck
  refine (hlists.2 hn).mem_newRecords fun kind hm => ?_
  exact Bool.noConfusion ((hpending kind t hm).2.symm.trans hn)

end UnitOfWork
