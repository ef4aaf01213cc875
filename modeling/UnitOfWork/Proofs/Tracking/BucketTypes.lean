import UnitOfWork.Proofs.Commit.SettledRegistry
import UnitOfWork.Proofs.Tracking.Routing

/-!
# The types of buckets

A bucket is of the type of a record, the first one under its name that was handed to the workspace.
So where records whose types have the same name are of one type, every record that a commit inserts
is written as a row of its own type.
-/

namespace UnitOfWork

namespace Bucket

variable {kind : KeyKind} {b b' : Bucket} {h h' : Heap} {r : RecordId} {importing : Bool}
  {answer : Option RecordId}

private theorem Tracks.type (a : Tracks kind b h r importing answer b' h') : b'.type = b.type := by
  cases a <;> rfl

private theorem Removes.type (a : Removes kind b h r b') : b'.type = b.type := by
  cases a <;> rfl

end Bucket

namespace Registry

variable {kind : KeyKind} {g : Registry kind} {h h' : Heap} {r : RecordId}

/-- Every bucket is of the type of a record. -/
def Typed (g : Registry kind) (h : Heap) : Prop :=
  ∀ name b, g.buckets.get? name = some b → ∃ q ∈ h.ids, (h.get q).type = b.type

private theorem Typed.evolves (hg : g.Typed h) (a : h.Evolves h') : g.Typed h' := by
  intro name b hb
  obtain ⟨q, hq, ht⟩ := hg name b hb
  exact ⟨q, a.ids q hq, (a.type q hq).trans ht⟩

private theorem Typed.onBucket {α : Type} {x : Tracking Bucket α} (hg : g.Typed h) (hr : r ∈ h.ids)
    (hx : ∀ b, (endState (x (b, h))).1.type = b.type) :
    (endState (onBucket r x (g, h))).1.Typed h := by
  rw [(onBucket_eq x g h).2]
  intro name b' hb'
  rcases of_get?_setBucket hb' with ⟨-, rfl⟩ | ⟨-, hb⟩
  · rw [hx]
    rcases g.bucket_cases (h.get r).type with hb | hempty
    · exact hg _ _ hb
    · exact ⟨r, hr, by rw [hempty]⟩
  · exact hg name b' hb

private theorem Typed.track (hg : g.Typed h) (hr : r ∈ h.ids) (importing : Bool) :
    (endState (track r importing (g, h))).1.Typed h :=
  hg.onBucket hr fun b => (Bucket.track_tracks kind b h r importing).type

private theorem Typed.remove (hg : g.Typed h) (hr : r ∈ h.ids) :
    (endState (remove r (g, h))).1.Typed h :=
  hg.onBucket hr fun b => (Bucket.remove_removes kind b h r).2.type

private theorem Typed.settle (hg : g.Typed h) (purge : Bool) :
    (endState (settle purge (g, h))).1.Typed h := by
  rcases settle_cases g h purge with hsame | hsettled
  · rwa [hsame]
  · intro name b' hb'
    obtain ⟨b, hb, has⟩ := hsettled.exists_bucket hb'
    rw [has.type]
    exact hg name b hb

end Registry

namespace Workspace

variable {w w₁ : Workspace} {h h₁ h' : Heap}

/-- Every bucket is of the type of a record. -/
def Typed (w : Workspace) (h : Heap) : Prop := ∀ kind, (w.registry kind).Typed h

private theorem typed_empty (config : Config) (h : Heap) : ({ config } : Workspace).Typed h := by
  intro kind name b hb
  rw [registry_empty] at hb
  cases hb

private theorem Typed.evolves (hw : w.Typed h) (a : h.Evolves h') : w.Typed h' :=
  fun kind => (hw kind).evolves a

private theorem Typed.setRegistry (hw : w.Typed h) {kind : KeyKind} {g : Registry kind}
    (hg : g.Typed h) :
    (w.setRegistry kind g).Typed h := by
  intro kind'
  by_cases he : kind' = kind
  · subst he
    rwa [registry_setRegistry]
  · rw [registry_setRegistry_of_ne he]
    exact hw kind'

end Workspace

private theorem Move.run_typed {s : Workspace × Heap} {m : Move} (hm : m.IsLegal s)
    (hs : s.1.Sound s.2) (ht : s.1.Typed s.2) : (m.run s).1.Typed (m.run s).2 := by
  have he : s.2.Evolves (m.run s).2 := (run_sound hm ⟨hs, .refl _⟩).2
  cases m with
  | edit h => exact ht.evolves he
  | track kind r importing =>
    rw [run, Workspace.endState_onRegistry] at he ⊢
    exact (ht.evolves he).setRegistry (((ht kind).track hm.1 importing).evolves he)
  | remove kind r =>
    rw [run, Workspace.endState_onRegistry] at he ⊢
    exact (ht.evolves he).setRegistry (((ht kind).remove hm.1).evolves he)
  | settle kind purge =>
    rw [run, Workspace.endState_onRegistry] at he ⊢
    exact (ht.evolves he).setRegistry (((ht kind).settle purge).evolves he)

private theorem Move.Along.typed {s : Workspace × Heap} {ms : List Move} (hms : Along IsLegal s ms)
    (hs : s.1.Sound s.2) (ht : s.1.Typed s.2) : (runAll s ms).1.Typed (runAll s ms).2 := by
  have hall := hms.invariant (I := fun s => s.1.Sound s.2 ∧ s.1.Typed s.2)
    (fun s m hm hs => ⟨(run_sound hm ⟨hs.1, .refl _⟩).1, run_typed hm hs.1 hs.2⟩) ⟨hs, ht⟩
  exact hall.2

theorem Operation.AllLegal.typed {σ ρ : Type} {config : Config} {ops : List (Operation σ ρ)}
    (hops : AllLegal ({ config }, ∅) ops) :
    (runAll ({ config }, ∅) ops).1.Typed (runAll ({ config }, ∅) ops).2 := by
  rw [runAll_eq]
  exact (hops.moves_legal (soundFrom_empty config)).typed (Workspace.sound_empty config ∅)
    (Workspace.typed_empty config ∅)

namespace Workspace

variable {w w₁ : Workspace} {h h₁ : Heap}

theorem Typed.ready? (ht : w.Typed h) (hw : w.Sound h) (hr : w.ready? h = some (w₁, h₁)) :
    w₁.Typed h₁ := by
  have hend := endState_checkReady (w, h)
  rw [(ready?_eq_some.mp hr).2] at hend
  have hmoves := (checkMoves_legal (s := (w, h)) ⟨hw, .refl h⟩).typed hw ht
  rwa [← hend] at hmoves

theorem Typed.bucket_type (ht : w.Typed h) (hw : w.Sound h) (hshares : h.SharesTypes)
    {kind : KeyKind} {name : String} {b : Bucket} {r : RecordId}
    (hb : (w.registry kind).buckets.get? name = some b) (hr : h.Belongs kind name r) :
    (h.get r).type = b.type := by
  obtain ⟨q, hq, hqt⟩ := ht kind name b hb
  rw [← hqt]
  refine hshares r hr.mem q hq ?_
  rw [hr.name, hqt, (hw kind name b hb).ofType]

theorem Typed.type_eq (ht : w.Typed h) (hw : w.Sound h) (hshares : h.SharesTypes)
    {e : RecordType × RecordId} (he : e ∈ entriesOf w.insertBatches) : (h.get e.2).type = e.1 := by
  obtain ⟨t, r⟩ := e
  obtain ⟨batch, hb, rfl, hr⟩ := mem_entriesOf.mp he
  obtain ⟨kind, hb⟩ := mem_insertBatches.mp hb
  obtain ⟨-, name, b, hget, htype, hrec⟩ := Registry.mem_batches.mp hb
  rw [hrec] at hr
  rw [htype]
  exact ht.bucket_type hw hshares hget ((hw kind name b hget).new r hr)

end Workspace

end UnitOfWork
