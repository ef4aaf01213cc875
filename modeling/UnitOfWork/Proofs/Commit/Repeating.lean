import UnitOfWork.Proofs.Commit.PartialSettling
import UnitOfWork.Proofs.Commit.WrittenOnce
import UnitOfWork.Proofs.Tracking.Readiness

/-!
# Repeated commits

A workspace is at rest when nothing that it tracks is left to be written. A commit that succeeds
leaves the workspace at rest, whatever the stores have done, and a commit of a workspace at rest
asks nothing of the world and changes nothing.
-/

namespace UnitOfWork

theorem Record.IsSaved.resetChanges {x : Record} (hx : x.IsSaved) : x.resetChanges = x := by
  obtain ⟨hc, hh⟩ := hx
  rw [Record.resetChanges, ← hc, ← hh]

private theorem Heap.get_modifyAll_isSaved {h : Heap} {rs : List RecordId}
    (hrs : ∀ r ∈ rs, (h.get r).IsSaved) (r : RecordId) :
    (h.modifyAll rs .resetChanges).get r = h.get r := by
  induction rs generalizing h with
  | nil => rfl
  | cons q rs ih =>
    have hsame : ∀ r, (h.modify q .resetChanges).get r = h.get r := by
      intro r
      rw [get_modify]
      split
      · next he => exact (hrs r (he ▸ List.mem_cons_self)).resetChanges
      · rfl
    refine (ih fun r hr => ?_).trans (hsame r)
    rw [hsame]
    exact hrs r (List.mem_cons_of_mem q hr)

namespace Bucket

/-- Nothing of the bucket is left to be written. -/
structure AtRest (b : Bucket) (h : Heap) : Prop where
  new : b.new = ∅
  newByKey : b.newByKey = ∅
  pending : b.pending.toList = []
  deleted : b.deleted = ∅
  saved : ∀ r ∈ b.live.values, (h.get r).IsSaved

variable {b : Bucket} {h h' : Heap}

theorem AtRest.congr (hb : b.AtRest h) (hsame : ∀ r, h'.get r = h.get r) : b.AtRest h' :=
  { hb with saved := fun r hr => hsame r ▸ hb.saved r hr }

private theorem AtRest.writtenKeys (hb : b.AtRest h) (kind : KeyKind) :
    b.writtenKeys kind h = .ok [] := by
  rw [Bucket.writtenKeys, hb.new]
  rfl

private theorem AtRest.settle (hb : b.AtRest h) (purge : Bool) :
    (b.settle h purge []).1 = b ∧ ∀ r, (b.settle h purge []).2.get r = h.get r := by
  refine ⟨?_, Heap.get_modifyAll_isSaved hb.saved⟩
  obtain ⟨type, new, newByKey, pending, live, deleted⟩ := b
  obtain ⟨rfl, rfl, -, rfl, -⟩ := hb
  simp only [Bucket.settle, List.foldl_nil, ite_self]

private theorem AtRest.dirty (hb : b.AtRest h) : b.dirty h = [] := by
  have hnone : b.live.values.filter (fun r => (h.get r).hasChanges || (h.get r).hydrated) = [] :=
    List.filter_eq_nil_iff.mpr fun r hr => by
      obtain ⟨hc, hh⟩ := hb.saved r hr
      rw [Record.hasChanges, hc, hh]
      decide
  rw [Bucket.dirty, hnone, inCreationOrder, List.mergeSort_nil]

end Bucket

namespace Registry

variable {kind : KeyKind} {g g' : Registry kind} {h h' : Heap}

def AtRest (g : Registry kind) (h : Heap) : Prop :=
  ∀ name b, g.buckets.get? name = some b → b.AtRest h

theorem AtRest.congr (hg : g.AtRest h) (hsame : ∀ r, h'.get r = h.get r) : g.AtRest h' :=
  fun name b hb => (hg name b hb).congr hsame

private theorem AtRest.batches (hg : g.AtRest h) {select : Bucket → List RecordId}
    (hselect : ∀ b : Bucket, b.AtRest h → select b = []) : g.batches select = [] := by
  refine List.eq_nil_iff_forall_not_mem.mpr fun batch hbatch => ?_
  obtain ⟨hne, name, b, hb, -, hrecords⟩ := mem_batches.mp hbatch
  exact hne (hrecords.trans (hselect b (hg name b hb)))

private theorem AtRest.pending (hg : g.AtRest h) : g.pending = [] := by
  refine List.eq_nil_iff_forall_not_mem.mpr fun r hr => ?_
  obtain ⟨name, b, hb, hr⟩ := mem_pending.mp hr
  rw [(hg name b hb).pending] at hr
  exact List.not_mem_nil hr

private theorem AtRest.checkReady (hg : g.AtRest h) :
    (Registry.checkReady : Tracking (Registry kind) Unit) (g, h) = .ok () (g, h) := by
  change EStateM.bind (promote g.pending) _ (g, h) = _
  rw [hg.pending]
  rfl

private theorem settleAll_atRest (purge : Bool)
    {all : List (String × Bucket × List (RowKey × RecordId))}
    (hall : ∀ x ∈ all, g.buckets.get? x.1 = some x.2.1 ∧ x.2.2 = []) (hg : g.AtRest h) :
    (settleAll purge (g, h) all).1 = g ∧
      ∀ r, (settleAll purge (g, h) all).2.get r = h.get r := by
  induction all generalizing h with
  | nil => exact ⟨rfl, fun _ => rfl⟩
  | cons x all ih =>
    obtain ⟨name, b, written⟩ := x
    obtain ⟨hb, hwritten⟩ := hall _ List.mem_cons_self
    dsimp only at hb hwritten
    obtain ⟨hbucket, hsame⟩ := (hg name b hb).settle purge
    have hset : g.setBucket name (b.settle h purge []).1 = g := by
      rw [setBucket, hbucket, NameMap.insert_of_get? hb]
    have hstep : settleAll purge (g, h) ((name, b, written) :: all) =
        settleAll purge (g, (b.settle h purge []).2) all := by
      subst hwritten
      change settleAll purge (g.setBucket name (b.settle h purge []).1, _) all = _
      rw [hset]
      rfl
    obtain ⟨hregistry, hrecords⟩ := ih (fun y hy => hall y (List.mem_cons_of_mem _ hy))
      (hg.congr hsame)
    rw [hstep]
    exact ⟨hregistry, fun r => (hrecords r).trans (hsame r)⟩

private theorem AtRest.settle (hg : g.AtRest h) (purge : Bool) :
    ∃ h', Registry.settle purge (g, h) = .ok () (g, h') ∧ ∀ r, h'.get r = h.get r := by
  rw [Registry.settle]
  generalize hall : (g.buckets.entries.mapM _ : Except Error _) = result
  cases result with
  | error e =>
    obtain ⟨⟨name, b⟩, hb, he⟩ := mapM_error hall
    have hwritten := (hg name b (NameMap.mem_entries.mp hb)).writtenKeys kind
    dsimp only at he
    rw [hwritten] at he
    cases he
  | ok all =>
    have hwritten : ∀ x ∈ all, g.buckets.get? x.1 = some x.2.1 ∧ x.2.2 = [] := by
      intro x hx
      obtain ⟨hb, hw⟩ := (mem_writtenBuckets hall).mp hx
      rw [(hg x.1 x.2.1 hb).writtenKeys] at hw
      exact ⟨hb, (Except.ok.inj hw).symm⟩
    obtain ⟨hregistry, hrecords⟩ := settleAll_atRest purge hwritten hg
    exact ⟨(settleAll purge (g, h) all).2, congrArg (EStateM.Result.ok ()) (Prod.ext hregistry rfl),
      hrecords⟩

private theorem IsSettled.atRest (hs : g.IsSettled true h g' h') (hpending : g.pending = []) :
    g'.AtRest h' := by
  intro name b' hb'
  obtain ⟨b, written, h₀, hb, rfl⟩ := hs.exists_bucket hb'
  refine ⟨rfl, rfl, List.eq_nil_iff_forall_not_mem.mpr fun r hr => ?_, rfl, fun r hr => ?_⟩
  · have hmem : r ∈ g.pending := mem_pending.mpr ⟨name, b, hb, hr⟩
    rw [hpending] at hmem
    exact List.not_mem_nil hmem
  · exact hs.saved r (mem_liveRecords.mpr ⟨name, _, hb', hr⟩)

end Registry

namespace Workspace

variable {w w' : Workspace} {h h' : Heap}

def AtRest (w : Workspace) (h : Heap) : Prop := ∀ kind, (w.registry kind).AtRest h

theorem AtRest.congr (hw : w.AtRest h) (hsame : ∀ r, h'.get r = h.get r) : w.AtRest h' :=
  fun kind => (hw kind).congr hsame

private theorem forM_atRest {x : (kind : KeyKind) → Tracking (Registry kind) Unit}
    (hx : ∀ kind h, (w.registry kind).AtRest h →
      ∃ h', x kind (w.registry kind, h) = .ok () (w.registry kind, h') ∧ ∀ r, h'.get r = h.get r)
    (hw : w.AtRest h) (kinds : List KeyKind) :
    ∃ h', (kinds.forM fun kind => onRegistry kind (x kind)) (w, h) = .ok () (w, h') ∧
      ∀ r, h'.get r = h.get r := by
  induction kinds generalizing h with
  | nil => exact ⟨h, rfl, fun _ => rfl⟩
  | cons kind kinds ih =>
    obtain ⟨h₁, hone, hsame₁⟩ := hx kind h (hw kind)
    obtain ⟨h', hrest, hsame⟩ := ih (hw.congr hsame₁)
    have hstep : onRegistry kind (x kind) (w, h) = .ok () (w, h₁) := by
      simp only [onRegistry, Tracking.within, hone, setRegistry_registry]
    refine ⟨h', ?_, fun r => (hsame r).trans (hsame₁ r)⟩
    change EStateM.bind (onRegistry kind (x kind)) (fun _ => kinds.forM _) (w, h) = _
    rw [EStateM.bind, hstep]
    exact hrest

private theorem AtRest.checkReady (hw : w.AtRest h) :
    ∃ h', Workspace.checkReady (w, h) = .ok () (w, h') ∧ ∀ r, h'.get r = h.get r :=
  forM_atRest (fun _ h hg => ⟨h, hg.checkReady, fun _ => rfl⟩) hw KeyKind.all

private theorem AtRest.settle (hw : w.AtRest h) :
    ∃ h', Workspace.settle (w, h) = .ok () (w, h') ∧ ∀ r, h'.get r = h.get r :=
  forM_atRest (fun _ _ hg => hg.settle w.config.purgeDeleted) hw KeyKind.all

private theorem AtRest.insertBatches (hw : w.AtRest h) : w.insertBatches = [] :=
  List.flatMap_eq_nil_iff.mpr fun kind _ => (hw kind).batches fun b hb => by rw [hb.new]; rfl

private theorem AtRest.updateBatches (hw : w.AtRest h) : w.updateBatches h = [] :=
  List.flatMap_eq_nil_iff.mpr fun kind _ => (hw kind).batches fun _ hb => hb.dirty

private theorem AtRest.deleteBatches (hw : w.AtRest h) : w.deleteBatches = [] :=
  List.flatMap_eq_nil_iff.mpr fun kind _ => (hw kind).batches fun b hb => by
    rw [hb.deleted, FinMap.values_empty, inCreationOrder, List.mergeSort_nil]

variable {σ ρ : Type}

private theorem AtRest.writeAll (hw : w.AtRest h) (tx : Transaction σ ρ) (world : σ) :
    tx.writeAll w { session := { heap := h, world } } =
      .ok {} { session := { heap := h, world } } := by
  have hinsert : tx.insertAll {} [] { session := { heap := h, world } } =
      .ok ({}, []) { session := { heap := h, world } } := by
    rw [Transaction.insertAll]
    rfl
  rw [Transaction.writeAll, hw.insertBatches, hw.deleteBatches]
  change EStateM.bind (tx.insertAll {} []) _ _ = _
  rw [EStateM.bind, hinsert]
  change EStateM.bind ((w.updateBatches h).mapM tx.updateBatch) _ _ = _
  rw [hw.updateBatches]
  rfl

/-- A commit of a workspace at rest asks nothing of the world and changes nothing. -/
theorem AtRest.commit (hw : w.AtRest h) (tx : Transaction σ ρ) (world : σ) :
    ∃ h', w.commit tx { heap := h, world } = (.ok {}, w, { heap := h', world }) ∧
      ∀ r, h'.get r = h.get r := by
  rw [Workspace.commit]
  split
  · exact ⟨h, rfl, fun _ => rfl⟩
  · obtain ⟨h₁, hcheck, hsame₁⟩ := hw.checkReady
    have hw₁ := hw.congr hsame₁
    obtain ⟨h₂, hsettle, hsame₂⟩ := hw₁.settle
    refine ⟨h₂, ?_, fun r => (hsame₂ r).trans (hsame₁ r)⟩
    simp only [hcheck, flush, hw₁.writeAll tx world, hsettle]
    rfl

private theorem settle_isSettled (w : Workspace) (h : Heap) :
    Triple (· = (w, h)) settle (fun _ s => s.1.config = w.config ∧ h.Settles s.2 ∧
      ∀ kind, (w.registry kind).IsSettled w.config.purgeDeleted h (s.1.registry kind) s.2)
      fun _ _ => True := by
  rw [settle]
  refine Triple.get_bind fun s hs => ?_
  subst hs
  apply forM_registries (H := Heap.Settles) (.refl h) (fun _ _ a b => a.trans b)
    (Q := fun kind g h' => (w.registry kind).IsSettled w.config.purgeDeleted h g h')
  · intro kind h' a
    refine (Registry.settle_isSettled (w.registry kind) h' w.config.purgeDeleted).conseq
      (fun _ h => h) ?_ fun _ _ _ => trivial
    exact fun _ s hs => ⟨hs.1, hs.2.since a⟩
  · intro kind g h' h'' a hs
    exact hs.settles a

variable {tx : Transaction σ ρ} {summary : Summary}

theorem commit_settled {world : σ} (hbypass : w.config.bypass = false)
    (hok : (w.commit tx { heap := h, world }).1 = .ok summary) :
    ∃ w₁ h₁ h₂, checkReady (w, h) = .ok () (w₁, h₁) ∧
      ∀ kind, (w₁.registry kind).IsSettled w₁.config.purgeDeleted h₂
        ((w.commit tx { heap := h, world }).2.1.registry kind)
        (w.commit tx { heap := h, world }).2.2.heap := by
  obtain ⟨w₁, h₁, hready⟩ := ready_of_commit_isOk (s := { heap := h, world }) hbypass
    (by rw [hok]; rfl)
  have hflush := commit_ok (s := { heap := h, world }) hready hok
  obtain ⟨hwork, hreleases⟩ := commit_ready (s := { heap := h, world }) tx hready
  obtain ⟨run, w', h', hwrite, hsettle, -, -⟩ := flush_ok hflush
  have hend := (settle_isSettled w₁ run.session.heap).ok rfl hsettle
  refine ⟨w₁, h₁, run.session.heap, (ready?_eq_some.mp hready).2, fun kind => ?_⟩
  rw [hwork, hreleases.heap, flush, hwrite]
  simp only [hsettle]
  exact hend.2.2 kind

/-- A commit that succeeds leaves the workspace at rest, if only new records were pending and rows
that were deleted are forgotten. -/
theorem commit_atRest {world : σ} (hw : w.Sound h) (hbypass : w.config.bypass = false)
    (hpurge : w.config.purgeDeleted)
    (hpending : ∀ kind, ∀ r ∈ (w.registry kind).pending, (h.get r).isNew)
    (hok : (w.commit tx { heap := h, world }).1 = .ok summary) :
    (w.commit tx { heap := h, world }).2.1.AtRest (w.commit tx { heap := h, world }).2.2.heap := by
  obtain ⟨w₁, h₁, h₂, hcheck, hsettled⟩ := commit_settled hbypass hok
  obtain ⟨hconfig, hfolds, hnone⟩ := (checkReady_pending hw).ok rfl hcheck
  intro kind
  have hsettled := hsettled kind
  rw [hconfig, hpurge] at hsettled
  refine hsettled.atRest (List.eq_nil_iff_forall_not_mem.mpr fun r hr => ?_)
  obtain ⟨hold, hn⟩ := hnone kind r hr
  have hnew := hpending kind r hold
  rw [← hfolds.isNew r, hn] at hnew
  exact Bool.noConfusion hnew

/-- A commit that follows a successful one with nothing done in between asks nothing of the world,
has written nothing and leaves everything as it is. -/
theorem commit_again {σ' ρ' : Type} (hw : w.Sound h) (hpurge : w.config.purgeDeleted)
    (hpending : ∀ kind, ∀ r ∈ (w.registry kind).pending, (h.get r).isNew) (world : σ)
    (hok : (w.commit tx { heap := h, world }).1 = .ok summary) (tx' : Transaction σ' ρ')
    (world' : σ') :
    let c := w.commit tx { heap := h, world }
    let c' := c.2.1.commit tx' { heap := c.2.2.heap, world := world' }
    c'.1 = .ok {} ∧ c'.2.2.trace = [] ∧ c'.2.2.world = world' ∧
      c'.2.1.stats = c.2.1.stats ∧ c'.2.1 = c.2.1 ∧
      ∀ r, c'.2.2.heap.get r = c.2.2.heap.get r := by
  intro c c'
  have hagain : ∃ h', c' = (.ok {}, c.2.1, { heap := h', world := world' }) ∧
      ∀ r, h'.get r = c.2.2.heap.get r := by
    cases hbypass : w.config.bypass with
    | true =>
      have hc : c = (.ok {}, w, { heap := h, world }) := by
        simp only [c, Workspace.commit, hbypass, if_true]
      refine ⟨h, ?_, fun r => by rw [hc]⟩
      simp only [c', hc, Workspace.commit, hbypass, if_true]
    | false =>
      exact (commit_atRest hw hbypass hpurge hpending hok).commit tx' world'
  obtain ⟨h', hc', hsame⟩ := hagain
  rw [hc']
  exact ⟨rfl, rfl, rfl, rfl, rfl, hsame⟩

end Workspace

/-! A workspace with something to do in each phase, and with a page that gets its key late. -/

def latePageTracked : Workspace × Heap :=
  let s := ({}, mixed.set ⟨4⟩ (Record.create Workspace.pageType))
  let s := endState (Workspace.track ⟨1⟩ (endState (Workspace.track ⟨0⟩ s)))
  let s := endState (Workspace.track ⟨3⟩ (endState (Workspace.track ⟨2⟩ s)))
  endState (Workspace.delete ⟨3⟩ (endState (Workspace.track ⟨4⟩ s)))

def latePage : Workspace × Heap :=
  (latePageTracked.1, latePageTracked.2.modify ⟨4⟩ (·.setSlot 0 (.int32 1)))

def latePageCommit : Except Halt Summary × Workspace × Session Nat :=
  latePage.1.commit (.sql numbering true) { heap := latePage.2, world := 1 }

/-- No store is leased, and the commit is to stop at once. -/
def unwilling : Transaction Unit where
  acquire _ world := (.error .cancelled, world)
  writer store := .sql (Workspace.silent store) false
  markErrored _ world := world
  release _ world := (.error .cancelled, world)
  cancelReason _ := some .shutdown

private theorem latePage_life :
    Life (σ := Nat) (ρ := CancelReason) Transaction.Orderly [] latePage.1 latePage.2 := by
  have hedits : (∅ : Heap).Edits (mixed.set ⟨4⟩ (Record.create Workspace.pageType)) :=
    .of_fresh (by decide +kernel)
  have hassign : latePageTracked.2.Edits
      (latePageTracked.2.modify ⟨4⟩ (·.setSlot 0 (.int32 1))) := .modify rfl id id
  refine .edit ?_ hassign
  exact .delete (r := ⟨3⟩) (.track (r := ⟨4⟩) (.track (r := ⟨3⟩) (.track (r := ⟨2⟩)
    (.track (r := ⟨1⟩) (.track (r := ⟨0⟩) (.edit (.begin {}) hedits) (by decide +kernel))
    (by decide +kernel)) (by decide +kernel)) (by decide +kernel)) (by decide +kernel))
    (by decide +kernel)

/-- The page is pending before a first commit, which inserts it and two nodes, updates an item and
deletes another one. A second commit could do nothing of this, and has nothing to do. -/
theorem commit_again_latePage :
    let c' := latePageCommit.2.1.commit unwilling { heap := latePageCommit.2.2.heap, world := () }
    (latePage.1.registry .int32).pending = [⟨4⟩] ∧ c'.1 = .ok {} ∧ c'.2.2.trace = [] ∧
      c'.2.1.stats = latePageCommit.2.1.stats := by
  have hpending : ∀ kind, ∀ r ∈ (latePage.1.registry kind).pending, (latePage.2.get r).isNew := by
    intro kind
    cases kind <;> decide +kernel
  have hcommit : latePageCommit.1.isOk := by decide +kernel
  obtain ⟨summary, hok⟩ := exists_ok_of_isOk hcommit
  obtain ⟨hresult, htrace, -, hstats, -, -⟩ := Workspace.commit_again
    (latePage_life.sound fun _ h => h) (by decide +kernel) hpending 1 hok unwilling ()
  exact ⟨by decide +kernel, hresult, htrace, hstats⟩

end UnitOfWork
