import UnitOfWork.Proofs.Commit.History

/-!
# Moves

Whatever an application has a workspace do comes down to a few moves, made one after the other: the
records are edited, one of them is tracked or taken out, or a registry is settled. What is to be
shown of all histories is shown of one move.
-/

namespace UnitOfWork

/-- One change to a workspace and the records. -/
inductive Move where
  /-- The records are edited by the application, or by the writers of a commit. -/
  | edit (h : Heap)
  | track (kind : KeyKind) (r : RecordId) (importing : Bool)
  | remove (kind : KeyKind) (r : RecordId)
  | settle (kind : KeyKind) (purge : Bool)

namespace Move

/-- What a move comes to, also one that fails. -/
def run (s : Workspace × Heap) : Move → Workspace × Heap
  | edit h => (s.1, h)
  | track kind r importing => endState (Workspace.onRegistry kind (Registry.track r importing) s)
  | remove kind r => endState (Workspace.onRegistry kind (Registry.remove r) s)
  | settle kind purge => endState (Workspace.onRegistry kind (Registry.settle purge) s)

def runAll (s : Workspace × Heap) (ms : List Move) : Workspace × Heap := ms.foldl run s

@[simp]
theorem runAll_nil (s : Workspace × Heap) : runAll s [] = s := rfl

@[simp]
theorem runAll_cons (s : Workspace × Heap) (m : Move) (ms : List Move) :
    runAll s (m :: ms) = runAll (m.run s) ms := rfl

@[simp]
theorem runAll_append (s : Workspace × Heap) (ms ms' : List Move) :
    runAll s (ms ++ ms') = runAll (runAll s ms) ms' := List.foldl_append

/-- `P` holds of each move in the state in which it is made. -/
def Along (P : Workspace × Heap → Move → Prop) : Workspace × Heap → List Move → Prop
  | _, [] => True
  | s, m :: ms => P s m ∧ Along P (m.run s) ms

def decideAlong {P : Workspace × Heap → Move → Prop} [∀ s m, Decidable (P s m)] :
    ∀ s ms, Decidable (Along P s ms)
  | _, [] => .isTrue trivial
  | s, m :: ms =>
    have := decideAlong (P := P) (m.run s) ms
    inferInstanceAs (Decidable (P s m ∧ Along P (m.run s) ms))

instance {P : Workspace × Heap → Move → Prop} [∀ s m, Decidable (P s m)]
    (s : Workspace × Heap) (ms : List Move) : Decidable (Along P s ms) := decideAlong s ms

variable {P Q : Workspace × Heap → Move → Prop} {s : Workspace × Heap} {ms ms' : List Move}

theorem along_append :
    Along P s (ms ++ ms') ↔ Along P s ms ∧ Along P (runAll s ms) ms' := by
  induction ms generalizing s with
  | nil => simp [Along]
  | cons m ms ih => simp only [List.cons_append, Along, ih, and_assoc, runAll_cons]

theorem Along.and (hp : Along P s ms) (hq : Along Q s ms) :
    Along (fun s m => P s m ∧ Q s m) s ms := by
  induction ms generalizing s with
  | nil => trivial
  | cons m ms ih => exact ⟨⟨hp.1, hq.1⟩, ih hp.2 hq.2⟩

theorem Along.imp (hp : Along P s ms) (hpq : ∀ s m, P s m → Q s m) : Along Q s ms := by
  induction ms generalizing s with
  | nil => trivial
  | cons m ms ih => exact ⟨hpq s m hp.1, ih hp.2⟩

theorem along_of_mem {R : Move → Prop} (hms : ∀ m ∈ ms, R m) : Along (fun _ m => R m) s ms := by
  induction ms generalizing s with
  | nil => trivial
  | cons m ms ih =>
    obtain ⟨hm, hms⟩ := List.forall_mem_cons.mp hms
    exact ⟨hm, ih hms⟩

/-- What each move preserves is preserved by all of them. -/
theorem Along.invariant {I : Workspace × Heap → Prop} (hp : Along P s ms)
    (hstep : ∀ s m, P s m → I s → I (m.run s)) (hs : I s) : I (runAll s ms) := by
  induction ms generalizing s with
  | nil => exact hs
  | cons m ms ih => exact ih hp.2 (hstep s m hp.1 hs)

end Move

namespace Workspace

variable {α β : Type} {kind : KeyKind}

@[simp]
theorem setRegistry_registry (w : Workspace) (kind : KeyKind) :
    w.setRegistry kind (w.registry kind) = w := by cases kind <;> rfl

@[simp]
theorem setRegistry_setRegistry (w : Workspace) (kind : KeyKind) (g g' : Registry kind) :
    (w.setRegistry kind g).setRegistry kind g' = w.setRegistry kind g' := by cases kind <;> rfl

theorem delete_apply (r : RecordId) (s : Workspace × Heap) : delete r s =
    if (s.2.get r).isDeleted then .ok () s
    else if s.1.config.bypass then .ok () (s.1, s.2.modify r .markDeleted)
    else onRegistry (s.2.get r).type.kind (Registry.remove r) (s.1, s.2.modify r .markDeleted) := by
  change (if (s.2.get r).isDeleted then pure () else do
      set (s.1, s.2.modify r .markDeleted)
      if s.1.config.bypass then return
      onRegistry (s.2.get r).type.kind (Registry.remove r) : Tracking Workspace Unit) s = _
  split
  · rfl
  · split <;> rfl

private theorem onRegistry_bind (x : Tracking (Registry kind) β)
    (f : β → Tracking (Registry kind) α) :
    onRegistry kind (x >>= f) = onRegistry kind x >>= fun b => onRegistry kind (f b) := by
  funext ⟨w, h⟩
  change onRegistry kind (EStateM.bind x f) (w, h) = EStateM.bind _ _ (w, h)
  simp only [onRegistry, Tracking.within, EStateM.bind]
  cases x (w.registry kind, h) with
  | error e s => rfl
  | ok b s =>
    simp only [registry_setRegistry]
    cases f b s <;> simp only [setRegistry_setRegistry]

private theorem onRegistry_get_bind (f : Registry kind × Heap → Tracking (Registry kind) α)
    (s : Workspace × Heap) :
    onRegistry kind (get >>= f) s = onRegistry kind (f (s.1.registry kind, s.2)) s := rfl

/-- The moves of a walk through a list, which ends with the first failure. -/
def walkMoves (f : β → Tracking Workspace PUnit) (moves : β → Workspace × Heap → List Move) :
    List β → Workspace × Heap → List Move
  | [], _ => []
  | b :: bs, s =>
    moves b s ++ match f b s with
      | .ok _ s' => walkMoves f moves bs s'
      | .error _ _ => []

private theorem endState_bind (x : Tracking Workspace β) (f : β → Tracking Workspace α)
    (s : Workspace × Heap) : endState ((x >>= f) s) = match x s with
      | .ok b s' => endState (f b s')
      | .error _ s' => s' := by
  change endState (EStateM.bind x f s) = _
  rw [EStateM.bind]
  cases x s <;> rfl

private theorem endState_forM {f : β → Tracking Workspace PUnit}
    {moves : β → Workspace × Heap → List Move}
    (hf : ∀ b s, endState (f b s) = Move.runAll s (moves b s)) (bs : List β)
    (s : Workspace × Heap) : endState (bs.forM f s) = Move.runAll s (walkMoves f moves bs s) := by
  induction bs generalizing s with
  | nil => rfl
  | cons b bs ih =>
    have hb := hf b s
    rw [walkMoves, Move.runAll_append, ← hb]
    change endState ((f b >>= fun _ => bs.forM f) s) = _
    rw [endState_bind]
    cases f b s with
    | ok u s' => exact ih s'
    | error e s' => rfl

private theorem mem_walkMoves {f : β → Tracking Workspace PUnit}
    {moves : β → Workspace × Heap → List Move} {m : Move} {bs : List β} {s : Workspace × Heap}
    (hm : m ∈ walkMoves f moves bs s) : ∃ b s', m ∈ moves b s' := by
  induction bs generalizing s with
  | nil => cases hm
  | cons b bs ih =>
    rw [walkMoves, List.mem_append] at hm
    rcases hm with hm | hm
    · exact ⟨b, s, hm⟩
    · split at hm
      · exact ih hm
      · cases hm

/-- The moves of promoting some records, which ends with the first failure. -/
def promoteMoves (kind : KeyKind) : List RecordId → Workspace × Heap → List Move
  | [], _ => []
  | r :: rs, s =>
    if (s.2.get r).isCommitReady then
      .track kind r false :: match onRegistry kind (Registry.track r false) s with
        | .ok _ s' => promoteMoves kind rs s'
        | .error _ _ => []
    else promoteMoves kind rs s

private theorem endState_promote (rs : List RecordId) (s : Workspace × Heap) :
    endState (onRegistry kind (Registry.promote rs) s) =
      Move.runAll s (promoteMoves kind rs s) := by
  induction rs generalizing s with
  | nil => simp [Registry.promote, promoteMoves, onRegistry, Tracking.within, endState, pure,
      EStateM.pure]
  | cons r rs ih =>
    rw [Registry.promote, onRegistry_get_bind, promoteMoves]
    dsimp only
    split
    · rw [onRegistry_bind, endState_bind, Move.runAll_cons, Move.run]
      cases onRegistry kind (Registry.track r false) s with
      | ok _ s' => exact ih s'
      | error _ s' => rfl
    · rw [← ih s, onRegistry_bind, endState_bind]
      cases hres : onRegistry kind (Registry.promote rs) s with
      | ok _ s' =>
        obtain ⟨w, h⟩ := s'
        simp [onRegistry, Tracking.within, endState, pure, EStateM.pure]
      | error _ s' => rfl

private theorem mem_promoteMoves {m : Move} {rs : List RecordId} {s : Workspace × Heap}
    (hm : m ∈ promoteMoves kind rs s) : ∃ r, m = .track kind r false := by
  induction rs generalizing s with
  | nil => cases hm
  | cons r rs ih =>
    rw [promoteMoves] at hm
    split at hm
    · rcases List.mem_cons.mp hm with rfl | hm
      · exact ⟨r, rfl⟩
      · split at hm
        · exact ih hm
        · cases hm
    · exact ih hm

/-- The moves of the check that precedes the writing. -/
def checkMoves : Workspace × Heap → List Move :=
  walkMoves (fun kind => onRegistry kind Registry.checkReady)
    (fun kind s => promoteMoves kind (s.1.registry kind).pending s) KeyKind.all

private theorem endState_onRegistry_checkReady (kind : KeyKind) (s : Workspace × Heap) :
    endState (onRegistry kind Registry.checkReady s) =
      Move.runAll s (promoteMoves kind (s.1.registry kind).pending s) := by
  rw [Registry.checkReady, onRegistry_get_bind, ← endState_promote]
  dsimp only
  rw [onRegistry_bind, endState_bind]
  cases onRegistry kind (Registry.promote (s.1.registry kind).pending) s with
  | error _ s' => rfl
  | ok found s' =>
    obtain ⟨w, h⟩ := s'
    cases found with
    | none => simp [onRegistry, Tracking.within, endState, pure, EStateM.pure]
    | some r =>
      dsimp only
      rw [onRegistry_get_bind]
      change (w.setRegistry kind (w.registry kind), h) = (w, h)
      rw [setRegistry_registry]

theorem mem_checkMoves {m : Move} {s : Workspace × Heap} (hm : m ∈ checkMoves s) :
    ∃ kind r, m = .track kind r false := by
  obtain ⟨kind, s', hm⟩ := mem_walkMoves hm
  exact ⟨kind, mem_promoteMoves hm⟩

theorem endState_checkReady (s : Workspace × Heap) :
    endState (checkReady s) = Move.runAll s (checkMoves s) :=
  endState_forM endState_onRegistry_checkReady _ s

/-- The moves of settling the workspace. -/
def settleMoves (s : Workspace × Heap) : List Move :=
  walkMoves (fun kind => onRegistry kind (Registry.settle s.1.config.purgeDeleted))
    (fun kind _ => [.settle kind s.1.config.purgeDeleted]) KeyKind.all s

theorem endState_settle (s : Workspace × Heap) :
    endState (settle s) = Move.runAll s (settleMoves s) :=
  endState_forM (fun _ _ => rfl) _ s

theorem mem_settleMoves {m : Move} {s : Workspace × Heap} (hm : m ∈ settleMoves s) :
    ∃ kind purge, m = .settle kind purge := by
  obtain ⟨kind, s', hm⟩ := mem_walkMoves hm
  exact ⟨kind, _, List.mem_singleton.mp hm⟩

theorem config_onRegistry (x : Tracking (Registry kind) α) (s : Workspace × Heap) :
    (endState (onRegistry kind x s)).1.config = s.1.config := by
  rw [endState_onRegistry]
  exact config_setRegistry ..

/-- The moves of importing the records on a stack and all that is reached from them. -/
def importMoves (unmet : List RecordId) : List RecordId → Workspace × Heap → List Move
  | [], _ => []
  | r :: stack, s =>
    let rest := discover (s.2.targets r) unmet stack
    .track (s.2.get r).type.kind r true :: match enroll r true s with
      | .ok _ s' => importMoves rest.1 rest.2 s'
      | .error _ _ => []
termination_by stack => unmet.length + stack.length
decreasing_by
  have := length_discover (s.2.targets r) unmet stack
  simp only [List.length_cons]
  omega

theorem mem_importMoves {m : Move} {unmet stack : List RecordId} {s : Workspace × Heap}
    (hm : m ∈ importMoves unmet stack s) : ∃ kind r, m = .track kind r true := by
  induction unmet, stack, s using importMoves.induct with
  | case1 unmet s =>
    rw [importMoves] at hm
    cases hm
  | case2 unmet r stack s rest ih =>
    rw [importMoves] at hm
    rcases List.mem_cons.mp hm with rfl | hm
    · exact ⟨_, r, rfl⟩
    · cases hres : enroll r true s with
      | ok _ s' =>
        rw [hres] at hm
        exact ih s' hm
      | error _ s' =>
        rw [hres] at hm
        cases hm

private theorem endState_importAll (unmet stack : List RecordId) (s : Workspace × Heap) :
    endState (importAll unmet stack s) = Move.runAll s (importMoves unmet stack s) := by
  induction unmet, stack, s using importMoves.induct with
  | case1 unmet s =>
    rw [importAll, importMoves]
    rfl
  | case2 unmet r stack s rest ih =>
    rw [importMoves, Move.runAll_cons, importAll]
    change endState ((enroll r true >>= fun _ => importAll rest.1 rest.2) s) = _
    rw [endState_bind]
    change _ = Move.runAll (endState (enroll r true s)) _
    cases enroll r true s with
    | ok _ s' => exact ih s'
    | error _ s' => rfl

end Workspace

namespace Move

/-- The records that are moved exist, and all that exist stay of their types. -/
def IsLegal (s : Workspace × Heap) : Move → Prop
  | edit h => s.2.Evolves h
  | track kind r _ => r ∈ s.2.ids ∧ (s.2.get r).type.kind = kind
  | remove kind r => r ∈ s.2.ids ∧ (s.2.get r).type.kind = kind
  | settle _ _ => True

private theorem run_config (s : Workspace × Heap) (m : Move) : (m.run s).1.config = s.1.config := by
  cases m with
  | edit h => rfl
  | track | remove | settle => exact Workspace.config_onRegistry ..

theorem runAll_config (s : Workspace × Heap) (ms : List Move) :
    (runAll s ms).1.config = s.1.config := by
  induction ms generalizing s with
  | nil => rfl
  | cons m ms ih => exact (ih (m.run s)).trans (m.run_config s)

/-- A sound workspace with records that have evolved from `h₀`. -/
def SoundFrom (h₀ : Heap) (s : Workspace × Heap) : Prop := s.1.Sound s.2 ∧ h₀.Evolves s.2

private theorem of_folds {h₀ : Heap} {s : Workspace × Heap} {α : Type} {x : Tracking Workspace α}
    (hx : Preserves (Workspace.SoundSince s.2) x) (hs : SoundFrom h₀ s) :
    SoundFrom h₀ (endState (x s)) := by
  obtain ⟨hsound, hfolds⟩ := preserves_iff.mp hx s ⟨hs.1, .refl _⟩
  exact ⟨hsound, hs.2.trans hfolds.evolves⟩

theorem run_sound {h₀ : Heap} {s : Workspace × Heap} {m : Move} (hm : m.IsLegal s)
    (hs : SoundFrom h₀ s) : SoundFrom h₀ (m.run s) := by
  cases m with
  | edit h => exact ⟨hs.1.evolves hm, hs.2.trans hm⟩
  | track kind r importing =>
    exact of_folds (Workspace.onRegistry_sound fun h' hf =>
      Registry.track_sound ((hf.ids r).mpr hm.1) (by rw [hf.type r, hm.2])) hs
  | remove kind r =>
    exact of_folds (Workspace.onRegistry_sound fun h' hf =>
      Registry.remove_sound ((hf.ids r).mpr hm.1) (by rw [hf.type r, hm.2])) hs
  | settle kind purge =>
    have hsettled : Registry.SettledSince s.2 (endState (Registry.settle purge _)) :=
      ((Registry.settle_sound (hs.1 kind) purge).conseq (fun _ h => h) (fun _ _ h => h.1)
        fun _ _ h => h).endState rfl
    rw [run, Workspace.endState_onRegistry]
    have he := hsettled.2.evolves
    exact ⟨(hs.1.evolves he).setRegistry hsettled.1, hs.2.trans he⟩

theorem runAll_sound {h₀ : Heap} {s : Workspace × Heap} {ms : List Move}
    (hms : Along (fun s m => m.IsLegal s) s ms) (hs : SoundFrom h₀ s) :
    SoundFrom h₀ (runAll s ms) :=
  hms.invariant (fun _ _ => run_sound) hs

end Move

namespace Workspace

open Move (IsLegal Along SoundFrom)

variable {β : Type} {kind : KeyKind} {h₀ : Heap} {s : Workspace × Heap}

section

variable {P : Workspace × Heap → Move → Prop} {I : Workspace × Heap → Prop}

private theorem walkMoves_along (hstep : ∀ s m, P s m → I s → I (m.run s))
    {f : β → Tracking Workspace PUnit} {moves : β → Workspace × Heap → List Move}
    (hf : ∀ b s, endState (f b s) = Move.runAll s (moves b s))
    (hmoves : ∀ b s, I s → Along P s (moves b s)) (bs : List β) (hs : I s) :
    Along P s (walkMoves f moves bs s) := by
  induction bs generalizing s with
  | nil => trivial
  | cons b bs ih =>
    have hb := hmoves b s hs
    refine Move.along_append.mpr ⟨hb, ?_⟩
    have hnext := hb.invariant hstep hs
    rw [← hf b s] at hnext ⊢
    cases hres : f b s with
    | ok u s' =>
      rw [hres] at hnext
      exact ih hnext
    | error e s' => trivial

variable {Q : KeyKind → RecordId → Workspace × Heap → Prop}

private theorem promoteMoves_along (hstep : ∀ s m, P s m → I s → I (m.run s))
    (hkeeps : ∀ s m kind r, P s m → I s → Q kind r s → Q kind r (m.run s))
    (hmove : ∀ s kind r, I s → Q kind r s → P s (.track kind r false)) {rs : List RecordId}
    (hrs : ∀ r ∈ rs, Q kind r s) (hs : I s) : Along P s (promoteMoves kind rs s) := by
  induction rs generalizing s with
  | nil => trivial
  | cons r rs ih =>
    obtain ⟨hr, hrs⟩ := List.forall_mem_cons.mp hrs
    have hm := hmove s kind r hs hr
    rw [promoteMoves]
    split
    · refine ⟨hm, ?_⟩
      have hnext := hstep _ _ hm hs
      have hkept : ∀ q ∈ rs, Q kind q _ := fun q hq => hkeeps _ _ _ _ hm hs (hrs q hq)
      rw [Move.run] at hnext hkept ⊢
      cases hres : onRegistry kind (Registry.track r false) s with
      | ok _ s' =>
        rw [hres] at hnext hkept
        exact ih hkept hnext
      | error _ s' => trivial
    · exact ih hrs hs

/-- The check tracks records that are pending, one after the other. -/
theorem checkMoves_along (hstep : ∀ s m, P s m → I s → I (m.run s))
    (hkeeps : ∀ s m kind r, P s m → I s → Q kind r s → Q kind r (m.run s))
    (hmove : ∀ s kind r, I s → Q kind r s → P s (.track kind r false))
    (hpending : ∀ s kind r, I s → r ∈ (s.1.registry kind).pending → Q kind r s) (hs : I s) :
    Along P s (checkMoves s) :=
  walkMoves_along hstep (fun _ _ => endState_onRegistry_checkReady ..)
    (fun kind s hs => promoteMoves_along hstep hkeeps hmove (fun r => hpending s kind r hs) hs) _ hs

end

theorem Sound.of_mem_pending (hs : s.1.Sound s.2) {r : RecordId}
    (hr : r ∈ (s.1.registry kind).pending) : r ∈ s.2.ids ∧ (s.2.get r).type.kind = kind := by
  obtain ⟨name, b, hb, hr⟩ := Registry.mem_pending.mp hr
  have hm := (hs kind name b hb).pending r hr
  exact ⟨hm.mem, hm.kind⟩

theorem checkMoves_legal (hs : SoundFrom h₀ s) : Along IsLegal s (checkMoves s) := by
  refine checkMoves_along (Q := fun kind r s => r ∈ s.2.ids ∧ (s.2.get r).type.kind = kind)
    (fun _ _ => Move.run_sound) (fun s m kind r hm hs hr => ?_) (fun _ _ _ _ hr => hr)
    (fun s kind r hs => hs.1.of_mem_pending) hs
  have he := (Move.run_sound hm ⟨hs.1, .refl s.2⟩).2
  exact ⟨he.ids r hr.1, by rw [he.type r hr.1, hr.2]⟩

private theorem settleMoves_legal (hs : SoundFrom h₀ s) : Along IsLegal s (settleMoves s) := by
  have hone : ∀ (kind : KeyKind) s', SoundFrom h₀ s' →
      Along IsLegal s' [.settle kind s.1.config.purgeDeleted] := fun _ _ _ => ⟨trivial, trivial⟩
  exact walkMoves_along (fun _ _ => Move.run_sound) (fun _ _ => rfl) hone _ hs

private theorem importMoves_legal {unmet stack : List RecordId} (hu : ∀ r ∈ unmet, r ∈ h₀.ids)
    (hstack : ∀ r ∈ stack, r ∈ h₀.ids) (hs : SoundFrom h₀ s) :
    Along IsLegal s (importMoves unmet stack s) := by
  induction unmet, stack, s using importMoves.induct with
  | case1 unmet s =>
    rw [importMoves]
    trivial
  | case2 unmet r stack s rest ih =>
    have hr := hs.2.ids r (hstack r List.mem_cons_self)
    have hm : Move.IsLegal s (.track (s.2.get r).type.kind r true) := ⟨hr, rfl⟩
    have hnext := Move.run_sound hm hs
    rw [importMoves]
    refine ⟨hm, ?_⟩
    change SoundFrom h₀ (endState (enroll r true s)) at hnext
    change Along IsLegal (endState (enroll r true s)) _
    have hmem : ∀ q, q ∈ rest.1 ∨ q ∈ rest.2 → q ∈ h₀.ids := by
      intro q hq
      exact (mem_discover hq).elim (hu q) fun hq => hstack q (List.mem_cons_of_mem r hq)
    cases hres : enroll r true s with
    | ok _ s' =>
      rw [hres] at hnext
      exact ih s' (fun q hq => hmem q (.inl hq)) (fun q hq => hmem q (.inr hq)) hnext
    | error _ s' => trivial

end Workspace

/-- What an application does with a workspace. -/
inductive Operation (σ : Type) (ρ : Type := CancelReason) where
  | edit (h : Heap)
  | track (r : RecordId)
  | delete (r : RecordId)
  | importGraph (root : RecordId)
  | commit (tx : Transaction σ ρ) (world : σ)

namespace Operation

open Workspace

variable {σ ρ : Type}

/-- What an operation comes to, also one that fails. -/
def run (s : Workspace × Heap) : Operation σ ρ → Workspace × Heap
  | edit h => (s.1, h)
  | track r => endState (Workspace.track r s)
  | delete r => endState (Workspace.delete r s)
  | importGraph root => endState (Workspace.importGraph root s)
  | commit tx world =>
    let c := s.1.commit tx { heap := s.2, world }
    (c.2.1, c.2.2.heap)

/-- The moves of writing all that is tracked and settling the workspace. -/
def flushMoves (tx : Transaction σ ρ) (world : σ) (s : Workspace × Heap) : List Move :=
  match tx.writeAll s.1 { session := { heap := s.2, world } } with
  | .ok _ run => .edit run.session.heap :: settleMoves (s.1, run.session.heap)
  | .error _ run => [.edit run.session.heap]

/-- The moves that an operation comes to. -/
def moves (s : Workspace × Heap) : Operation σ ρ → List Move
  | edit h => [.edit h]
  | track r => if s.1.config.bypass then [] else [.track (s.2.get r).type.kind r false]
  | delete r =>
    if (s.2.get r).isDeleted then []
    else
      .edit (s.2.modify r .markDeleted) ::
        if s.1.config.bypass then [] else [.remove (s.2.get r).type.kind r]
  | importGraph root =>
    if s.1.config.bypass then []
    else
      let h := s.2.modify root (·.setTransient false)
      .edit h :: importMoves (h.ids.erase root) [root] (s.1, h)
  | commit tx world =>
    if s.1.config.bypass then []
    else
      checkMoves s ++ match checkReady s with
        | .ok () s' => flushMoves tx world s'
        | .error _ _ => []

theorem of_remove_mem_moves {op : Operation σ ρ} {s : Workspace × Heap} {kind : KeyKind}
    {r : RecordId} (hm : .remove kind r ∈ op.moves s) :
    op = .delete r ∧ (s.2.get r).isDeleted = false := by
  cases op with
  | edit h => simp [moves] at hm
  | track q =>
    rw [moves] at hm
    split at hm <;> simp at hm
  | delete q =>
    rw [moves] at hm
    split at hm
    · cases hm
    · next hq =>
      split at hm
      · simp at hm
      · obtain ⟨-, rfl⟩ : kind = (s.2.get q).type.kind ∧ r = q := by simpa using hm
        exact ⟨rfl, by simpa using hq⟩
  | importGraph root =>
    rw [moves] at hm
    split at hm
    · cases hm
    · rcases List.mem_cons.mp hm with hm | hm
      · cases hm
      · obtain ⟨_, _, hm⟩ := mem_importMoves hm
        cases hm
  | commit tx world =>
    rw [moves] at hm
    split at hm
    · cases hm
    · rcases List.mem_append.mp hm with hm | hm
      · obtain ⟨_, _, hm⟩ := mem_checkMoves hm
        cases hm
      · split at hm
        · rw [flushMoves] at hm
          split at hm
          · rcases List.mem_cons.mp hm with hm | hm
            · cases hm
            · obtain ⟨_, _, hm⟩ := mem_settleMoves hm
              cases hm
          · simp at hm
        · cases hm

private theorem run_flush (tx : Transaction σ ρ) (world : σ) (w : Workspace) (h : Heap) :
    ((w.flush tx { session := { heap := h, world } }).2.1,
      (w.flush tx { session := { heap := h, world } }).2.2.session.heap) =
        Move.runAll (w, h) (flushMoves tx world (w, h)) := by
  rw [flush, flushMoves]
  cases tx.writeAll w { session := { heap := h, world } } with
  | error _ run => rfl
  | ok _ run =>
    dsimp only
    rw [Move.runAll_cons, Move.run, ← endState_settle]
    dsimp only
    split <;> next hs => rw [hs]; rfl

theorem run_commit (tx : Transaction σ ρ) (world : σ) (s : Workspace × Heap) :
    run s (.commit tx world) = Move.runAll s (moves s (.commit tx world)) := by
  obtain ⟨w, h⟩ := s
  rw [run, moves]
  dsimp only
  split
  · next hb => rw [Workspace.commit, if_pos hb]; rfl
  · next hb =>
    rw [Bool.not_eq_true] at hb
    rw [Move.runAll_append, ← endState_checkReady]
    cases hc : checkReady (w, h) with
    | error e s' =>
      rw [Workspace.commit, if_neg (by simp [hb]), hc]
      rfl
    | ok u s' =>
      obtain ⟨w₁, h₁⟩ := s'
      obtain ⟨hwork, hheap⟩ := commit_ready (s := { heap := h, world }) tx
        (ready?_eq_some.mpr ⟨hb, hc⟩)
      rw [hwork, hheap.heap, run_flush]
      rfl

/-- An operation does what its moves do, one after the other. -/
theorem run_eq_runAll (s : Workspace × Heap) (op : Operation σ ρ) :
    op.run s = Move.runAll s (op.moves s) := by
  cases op with
  | edit h => rfl
  | track r =>
    change endState ((if s.1.config.bypass then pure r else enroll r false :
      Tracking Workspace RecordId) s) = Move.runAll s (if _ then _ else _)
    split <;> rfl
  | delete r =>
    rw [run, delete_apply, moves]
    split
    · rfl
    · split <;> rfl
  | importGraph root =>
    change endState ((if s.1.config.bypass then pure () else do
      let h := s.2.modify root (·.setTransient false)
      set (s.1, h)
      importAll (h.ids.erase root) [root] : Tracking Workspace Unit) s) =
        Move.runAll s (if _ then _ else _)
    split
    · rfl
    · exact endState_importAll ..
  | commit tx world => exact run_commit tx world s

theorem run_bypass {s : Workspace × Heap} (hb : s.1.config.bypass) (op : Operation σ ρ) :
    (op.run s).1 = s.1 := by
  rw [run_eq_runAll]
  cases op with
  | edit h => rfl
  | track r => rw [moves, if_pos hb, Move.runAll_nil]
  | delete r =>
    rw [moves, if_pos hb]
    split <;> rfl
  | importGraph root => rw [moves, if_pos hb, Move.runAll_nil]
  | commit tx world => rw [moves, if_pos hb, Move.runAll_nil]

/-- The operation is given records that exist, the application makes no record new again, and the
writers leave to a commit what is noted about changes. -/
def IsLegal (s : Workspace × Heap) : Operation σ ρ → Prop
  | edit h => s.2.Edits h
  | track r => r ∈ s.2.ids
  | delete r => r ∈ s.2.ids
  | importGraph root => root ∈ s.2.ids
  | commit tx _ => tx.Orderly

variable {h₀ : Heap} {s : Workspace × Heap} {op : Operation σ ρ}

private theorem flushMoves_legal {tx : Transaction σ ρ} (htx : tx.Orderly) (world : σ)
    (hs : Move.SoundFrom h₀ s) : Move.Along Move.IsLegal s (flushMoves tx world s) := by
  have hwrite := htx.writeAll s.1 s.2 { session := { heap := s.2, world } } (.refl _)
  rw [flushMoves]
  cases hres : tx.writeAll s.1 { session := { heap := s.2, world } } with
  | error _ run =>
    rw [hres] at hwrite
    exact ⟨hwrite, trivial⟩
  | ok _ run =>
    rw [hres] at hwrite
    exact ⟨hwrite, settleMoves_legal (Move.run_sound (m := .edit run.session.heap) hwrite hs)⟩

theorem moves_legal (hop : op.IsLegal s) (hs : Move.SoundFrom h₀ s) :
    Move.Along Move.IsLegal s (op.moves s) := by
  cases op with
  | edit h => exact ⟨hop.evolves, trivial⟩
  | track r =>
    rw [moves]
    split
    · trivial
    · exact ⟨⟨hop, rfl⟩, trivial⟩
  | delete r =>
    have hf : s.2.Folds (s.2.modify r .markDeleted) :=
      .modify hop rfl ((Record.takes_refl _ _).withDeleted true)
    rw [moves]
    split
    · trivial
    · refine ⟨hf.evolves, ?_⟩
      split
      · trivial
      · exact ⟨⟨(hf.ids r).mpr hop, by rw [Move.run, hf.type r]⟩, trivial⟩
  | importGraph root =>
    have hf : s.2.Folds (s.2.modify root (·.setTransient false)) :=
      .modify hop rfl (Record.takes_setTransient _ _ false)
    rw [moves]
    split
    · trivial
    · have hnext := Move.run_sound (m := .edit _) hf.evolves hs
      have hroot : ∀ q ∈ [root], q ∈ (s.2.modify root (·.setTransient false)).ids := by
        intro q hq
        obtain rfl := List.mem_singleton.mp hq
        exact (hf.ids _).mpr hop
      refine ⟨hf.evolves, importMoves_legal (fun q hq => ?_) hroot ⟨hnext.1, .refl _⟩⟩
      exact List.mem_of_mem_erase hq
  | commit tx world =>
    rw [moves]
    split
    · trivial
    · have hcheck := checkMoves_legal hs
      refine Move.along_append.mpr ⟨hcheck, ?_⟩
      have hnext := Move.runAll_sound hcheck hs
      rw [← endState_checkReady] at hnext ⊢
      cases hres : checkReady s with
      | error e s' => trivial
      | ok u s' =>
        rw [hres] at hnext
        exact flushMoves_legal hop world hnext

/-- What some operations come to, one after the other. -/
def runAll (s : Workspace × Heap) (ops : List (Operation σ ρ)) : Workspace × Heap := ops.foldl run s

/-- The moves that some operations come to. -/
def allMoves (s : Workspace × Heap) : List (Operation σ ρ) → List Move
  | [] => []
  | op :: ops => op.moves s ++ allMoves (op.run s) ops

/-- Each operation is legal where it is done. -/
def AllLegal (s : Workspace × Heap) : List (Operation σ ρ) → Prop
  | [] => True
  | op :: ops => op.IsLegal s ∧ AllLegal (op.run s) ops

variable {ops ops' : List (Operation σ ρ)}

theorem runAll_append : runAll s (ops ++ ops') = runAll (runAll s ops) ops' := List.foldl_append

theorem allMoves_append :
    allMoves s (ops ++ ops') = allMoves s ops ++ allMoves (runAll s ops) ops' := by
  induction ops generalizing s with
  | nil => rfl
  | cons op ops ih =>
    rw [List.cons_append, allMoves, allMoves, ih, List.append_assoc]
    rfl

theorem runAll_eq : runAll s ops = Move.runAll s (allMoves s ops) := by
  induction ops generalizing s with
  | nil => rfl
  | cons op ops ih =>
    rw [allMoves, Move.runAll_append, ← run_eq_runAll, ← ih]
    rfl

theorem config_runAll : (runAll s ops).1.config = s.1.config := by
  rw [runAll_eq, Move.runAll_config]

theorem allLegal_append :
    AllLegal s (ops ++ ops') ↔ AllLegal s ops ∧ AllLegal (runAll s ops) ops' := by
  induction ops generalizing s with
  | nil => simp [AllLegal, runAll]
  | cons op ops ih =>
    simp only [List.cons_append, AllLegal, ih, and_assoc]
    rfl

theorem AllLegal.moves_legal (hops : AllLegal s ops) (hs : Move.SoundFrom h₀ s) :
    Move.Along Move.IsLegal s (allMoves s ops) := by
  induction ops generalizing s with
  | nil => trivial
  | cons op ops ih =>
    have hop := Operation.moves_legal hops.1 hs
    refine Move.along_append.mpr ⟨hop, ?_⟩
    have hnext := Move.runAll_sound hop hs
    rw [← run_eq_runAll] at hnext ⊢
    exact ih hops.2 hnext

theorem AllLegal.soundFrom (hops : AllLegal s ops) (hs : Move.SoundFrom h₀ s) :
    Move.SoundFrom h₀ (runAll s ops) := by
  rw [runAll_eq]
  exact Move.runAll_sound (hops.moves_legal hs) hs

theorem soundFrom_empty (config : Config) : Move.SoundFrom ∅ ({ config }, ∅) :=
  ⟨Workspace.sound_empty config ∅, .refl ∅⟩

theorem AllLegal.sound {config : Config} (hops : AllLegal ({ config }, ∅) ops) :
    (runAll ({ config }, ∅) ops).1.Sound (runAll ({ config }, ∅) ops).2 :=
  (hops.soundFrom (soundFrom_empty config)).1

end Operation

end UnitOfWork
