import UnitOfWork.Proofs.Tracking.Outcomes

/-!
# The check that precedes the writing

Once the check has succeeded no new record is pending any more: each of those that were has been
tracked as ready.
-/

namespace UnitOfWork

namespace Bucket

variable {kind : KeyKind} {b b' : Bucket} {h h' : Heap} {r : RecordId} {importing : Bool}
  {answer : Option RecordId}

private theorem Tracks.mem_pending (a : Tracks kind b h r importing answer b' h')
    (hb : b.pending.Coherent) (hready : (h.get r).isCommitReady) {q : RecordId}
    (hq : q ∈ b'.pending.toList) :
    q ∈ b.pending.toList ∧ (q = r → (h.get r).isNew = false) := by
  have herase : ∀ q ∈ (b.pending.erase r).toList,
      q ∈ b.pending.toList ∧ (q = r → (h.get r).isNew = false) := by
    intro q hq
    obtain ⟨hne, hq⟩ := hb.mem_erase.mp hq
    exact ⟨hq, fun he => absurd he hne⟩
  cases a with
  | waits _ hnot => rw [hready] at hnot; cases hnot
  | lists | misfiles | joins | revives | files => exact herase q hq
  | fails hn => exact ⟨hq, fun _ => hn⟩
  | finds hs | merges hs | mergesDeleted hs | enters hs | replacesDeleted hs | restores hs =>
    exact ⟨hq, fun _ => hs.notNew⟩

end Bucket

namespace Registry

variable {kind : KeyKind} {h₀ : Heap}

private theorem mem_pending_track {g : Registry kind} {h : Heap} {r q : RecordId} (hs : g.Sound h)
    (hready : (h.get r).isCommitReady)
    (hq : q ∈ (endState (onBucket r (Bucket.track kind r false) (g, h))).1.pending) :
    q ∈ g.pending ∧ (q = r → (h.get r).isNew = false) := by
  obtain ⟨name, b, hb, hq⟩ := mem_pending.mp hq
  rw [(onBucket_eq (r := r) (Bucket.track kind r false) g h).2] at hb
  rcases of_get?_setBucket hb with ⟨-, rfl⟩ | ⟨hname, hb⟩
  · obtain ⟨hold, hne⟩ := (Bucket.track_tracks kind (g.bucket (h.get r).type) h r false).mem_pending
      (hs.bucket _).pendingCoherent hready hq
    rcases g.bucket_cases (h.get r).type with hget | hempty
    · exact ⟨mem_pending.mpr ⟨_, _, hget, hold⟩, hne⟩
    · rw [hempty] at hold
      exact absurd hold List.not_mem_nil
  · refine ⟨mem_pending.mpr ⟨name, b, hb, hq⟩, fun he => ?_⟩
    have hbelongs := ((hs name b hb).pending q hq).name
    rw [he] at hbelongs
    exact absurd hbelongs hname

/-- Of the records in the list the new ones are pending at most. -/
private def Pends (h₀ : Heap) (old rest : List RecordId) (s : Registry kind × Heap) : Prop :=
  SoundSince h₀ s ∧ ∀ q ∈ s.1.pending, q ∈ old ∧ ((s.2.get q).isNew → q ∈ rest)

private theorem track_pends {old rest : List RecordId} {r : RecordId} (hr : r ∈ h₀.ids)
    (hk : (h₀.get r).type.kind = kind) :
    Triple (fun s => Pends h₀ old (r :: rest) s ∧ (s.2.get r).isCommitReady)
      (track r false : Tracking (Registry kind) RecordId) (fun _ => Pends h₀ old rest)
      fun _ _ => True := by
  rintro ⟨g, h⟩ ⟨⟨hs, hpends⟩, hready⟩
  have htrack {h' : Heap} (hr : r ∈ h'.ids) (hk : (h'.get r).type.kind = kind) :
      Preserves (SoundSince h') (track r false : Tracking (Registry kind) RecordId) :=
    track_sound hr hk
  have hsound := preserves_iff.mp (htrack hr hk) (g, h) hs
  have hfolds := (preserves_iff.mp (htrack ((hs.2.ids r).mpr hr) (by rw [hs.2.type r, hk])) (g, h)
    ⟨hs.1, .refl h⟩).2
  have hgoal : Pends h₀ old rest
      (endState (track r false (g, h) : EStateM.Result Error (Registry kind × Heap) RecordId)) := by
    refine ⟨hsound, fun q hq => ?_⟩
    obtain ⟨hpending, hne⟩ := mem_pending_track hs.1 hready hq
    obtain ⟨hold, hrest⟩ := hpends q hpending
    rw [hfolds.isNew q]
    refine ⟨hold, fun hn => (List.mem_cons.mp (hrest hn)).resolve_left fun he => ?_⟩
    exact Bool.noConfusion ((hne he).symm.trans (he ▸ hn))
  cases hres : (track r false (g, h) : EStateM.Result Error (Registry kind × Heap) RecordId) with
  | error e s => trivial
  | ok a s =>
    rw [hres] at hgoal
    exact hgoal

private theorem promote_pends {old rs : List RecordId}
    (hrs : ∀ r ∈ rs, r ∈ h₀.ids ∧ (h₀.get r).type.kind = kind) :
    Triple (Pends h₀ old rs) (promote rs : Tracking (Registry kind) (Option RecordId))
      (fun found s => found = none → Pends h₀ old [] s) fun _ _ => True := by
  induction rs with
  | nil => exact Triple.pure fun s hs _ => hs
  | cons r rs ih =>
    obtain ⟨hr, hk⟩ := hrs r List.mem_cons_self
    rw [promote]
    refine Triple.get_bind fun s hs => ?_
    dsimp only
    split
    · next hready =>
      exact ((track_pends hr hk).starting ⟨hs, hready⟩).bind fun _ =>
        ih fun q hq => hrs q (List.mem_cons_of_mem r hq)
    · -- The record that is not ready is told, whatever becomes of the others.
      have htrue : Triple (· = s) (promote rs : Tracking (Registry kind) (Option RecordId))
          (fun _ _ => True) fun _ _ => True := by
        intro s' _
        cases promote rs s' <;> trivial
      exact htrue.bind fun _ => Triple.pure fun _ _ hnone => by cases hnone

theorem checkReady_pending {g : Registry kind} {h : Heap} (hg : g.Sound h) :
    Triple (· = (g, h)) (checkReady : Tracking (Registry kind) Unit)
      (fun _ s => h.Folds s.2 ∧ ∀ r ∈ s.1.pending, r ∈ g.pending ∧ (s.2.get r).isNew = false)
      fun _ _ => True := by
  have hcheck : Preserves (SoundSince h) (checkReady : Tracking (Registry kind) Unit) :=
    checkReady_sound
  have hsound := hcheck.starting (s := (g, h)) ⟨hg, .refl h⟩
  have hpends : Triple (· = (g, h)) (checkReady : Tracking (Registry kind) Unit)
      (fun _ s => ∀ r ∈ s.1.pending, r ∈ g.pending ∧ (s.2.get r).isNew = false)
      fun _ _ => True := by
    rw [checkReady]
    refine Triple.get_bind fun s hs => ?_
    subst hs
    have hs : SoundSince h (g, h) := ⟨hg, .refl h⟩
    have hstart : Pends h g.pending g.pending (g, h) := ⟨hs, fun q hq => ⟨hq, fun _ => hq⟩⟩
    apply ((promote_pends fun r hr => hs.pending hr).starting hstart).bind
    intro found
    cases found with
    | none =>
      refine Triple.pure fun s hs r hr => ?_
      obtain ⟨hold, hrest⟩ := (hs rfl).2 r hr
      exact ⟨hold, Bool.eq_false_iff.mpr fun hn => List.not_mem_nil (hrest hn)⟩
    | some r => exact Triple.get_bind fun s _ => Triple.throw fun _ _ => trivial
  refine (hsound.and hpends).conseq (fun _ hs => ⟨hs, hs⟩) ?_ fun _ _ _ => trivial
  rintro _ s ⟨⟨-, hfolds⟩, hpending⟩
  exact ⟨hfolds, hpending⟩

end Registry

namespace Workspace

variable {w : Workspace} {h : Heap}

/-- After the check none of the pending records is new. -/
theorem checkReady_pending (hw : w.Sound h) : Triple (· = (w, h)) checkReady
    (fun _ s => s.1.config = w.config ∧ h.Folds s.2 ∧ ∀ kind, ∀ r ∈ (s.1.registry kind).pending,
      r ∈ (w.registry kind).pending ∧ (s.2.get r).isNew = false) fun _ _ => True := by
  apply forM_registries (H := Heap.Folds) (.refl h) (fun _ _ a b => a.trans b)
    (Q := fun kind g h' => ∀ r ∈ g.pending,
      r ∈ (w.registry kind).pending ∧ (h'.get r).isNew = false)
  · intro kind h' hf
    exact Registry.checkReady_pending ((hw kind).evolves hf.evolves)
  · intro kind g h' h'' hf hpending r hr
    obtain ⟨hold, hn⟩ := hpending r hr
    exact ⟨hold, (hf.isNew r).trans hn⟩

end Workspace

end UnitOfWork
