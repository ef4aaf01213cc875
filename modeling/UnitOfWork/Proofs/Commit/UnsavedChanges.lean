import UnitOfWork.Proofs.Commit.History

/-!
# Unsaved changes

A commit forgets the changes of a record as soon as its update is confirmed. When the writing stops
later on, everything written is rolled back, and the changes of these records are lost; all other
records keep theirs and are updated by the next commit.
-/

namespace UnitOfWork

namespace Record

/-- What is noted about changes in `x` is still noted in `x'`. -/
structure KeepsChanges (x x' : Record) : Prop where
  changed : ∀ name ∈ x.changed.names, name ∈ x'.changed.names
  hydrated : x.hydrated → x'.hydrated

def IsUnsaved (x : Record) : Prop := x.hasChanges ∨ x.hydrated

private theorem mem_names_of_hasChanges {x : Record} (hx : x.hasChanges) :
    ∃ name, name ∈ x.changed.names := by
  rw [hasChanges, NameSet.isEmpty, Bool.not_eq_true', List.isEmpty_eq_false_iff_exists_mem] at hx
  obtain ⟨e, he⟩ := hx
  exact ⟨e.1, List.mem_map_of_mem he⟩

theorem hasChanges_of_mem {x : Record} {name : String} (hn : name ∈ x.changed.names) :
    x.hasChanges := by
  rw [hasChanges, NameSet.isEmpty, Bool.not_eq_true', List.isEmpty_eq_false_iff_exists_mem]
  obtain ⟨e, he, -⟩ := List.mem_map.mp hn
  exact ⟨e, he⟩

private theorem KeepsChanges.isUnsaved {x x' : Record} (hk : x.KeepsChanges x') (hx : x.IsUnsaved) :
    x'.IsUnsaved := by
  rcases hx with hx | hx
  · obtain ⟨name, hn⟩ := mem_names_of_hasChanges hx
    exact .inl (hasChanges_of_mem (hk.changed name hn))
  · exact .inr (hk.hydrated hx)

/-- Nothing is left to be written. -/
structure IsSaved (x : Record) : Prop where
  changed : x.changed = ∅
  hydrated : x.hydrated = false

private theorem IsSaved.not_keepsChanges {x x' : Record} (hs : x'.IsSaved) (hx : x.IsUnsaved) :
    ¬ x.KeepsChanges x' := by
  intro hk
  rcases hk.isUnsaved hx with hc | hh
  · obtain ⟨name, hn⟩ := mem_names_of_hasChanges hc
    rw [hs.changed] at hn
    exact List.not_mem_nil hn
  · rw [hs.hydrated] at hh
    exact Bool.noConfusion hh

end Record

namespace Transaction

variable {σ ρ : Type} {tx : Transaction σ ρ}

/-- The records before the first one without an affected row. -/
def confirmed : List RecordId → List Nat → List RecordId
  | [], _ => []
  | r :: rs, counts => if counts.headD 0 = 0 then [] else r :: confirmed rs counts.tail

/-- The records of a batch whose update is confirmed. -/
def affirmedBatch (tx : Transaction σ ρ) (b : Batch) (run : Run σ) : List RecordId :=
  match tx.writing b (.update b.type.name b.records) (·.update b.type b.records) run with
  | .ok counts _ => confirmed b.records counts
  | .error _ _ => []

/-- The records of some batches whose update is confirmed before all are done or one stops. -/
def affirmed (tx : Transaction σ ρ) : List Batch → Run σ → List RecordId
  | [], _ => []
  | b :: bs, run =>
    tx.affirmedBatch b run ++
      match tx.updateBatch b run with
      | .ok _ run => affirmed tx bs run
      | .error _ _ => []

theorem confirm_heap (t : RecordType) (rs : List RecordId) (counts : List Nat) (s : Session σ) :
    Triple (· = s) (confirm t rs counts : Working σ ρ Unit)
      (fun _ s' => confirmed rs counts = rs ∧ s'.heap = s.heap.modifyAll rs .resetChanges)
      fun _ s' => s'.heap = s.heap.modifyAll (confirmed rs counts) .resetChanges := by
  induction rs generalizing counts s with
  | nil => exact Triple.pure fun s' hs => ⟨rfl, hs ▸ rfl⟩
  | cons r rs ih =>
    rw [confirm, confirmed]
    split
    · apply Triple.bind (R := fun _ s' => s' = s) (Triple.reading (fun _ _ hs _ => hs)
        fun _ _ hs _ => hs ▸ rfl)
      intro description
      apply Triple.bind (R := fun _ _ => False) (Triple.fail fun s' hs => hs ▸ rfl)
      intro _ _ h
      exact h.elim
    · apply Triple.bind (R := fun _ s' => s' = { s with heap := s.heap.modify r .resetChanges })
        (Triple.updating fun s' hs => hs ▸ rfl)
      intro _
      refine (ih counts.tail _).conseq (fun _ h => h) (fun _ s' h => ⟨?_, h.2⟩) fun _ s' h => h
      rw [h.1]

end Transaction

/-- The records have evolved from `h`, and what is noted about changes in `r` is as it was, or gone
if they are saved. -/
structure Heap.Noted (h : Heap) (r : RecordId) (saved : Prop) (h' : Heap) : Prop where
  evolves : h.Evolves h'
  kept : ¬ saved → (h'.get r).changed = (h.get r).changed ∧ (h'.get r).hydrated = (h.get r).hydrated
  lost : saved → (h'.get r).IsSaved

namespace Heap.Noted

variable {h h' h'' : Heap} {r : RecordId} {saved : Prop}

theorem refl (h : Heap) (r : RecordId) : h.Noted r False h :=
  ⟨.refl h, fun _ => ⟨rfl, rfl⟩, False.elim⟩

theorem congr {saved' : Prop} (hn : h.Noted r saved h') (hs : saved ↔ saved') :
    h.Noted r saved' h' :=
  propext hs ▸ hn

private theorem spares (hr : r ∈ h.ids) (hnew : (h.get r).isNew = false) (hn : h.Noted r saved h')
    (a : h'.Spares h'') : h.Noted r saved h'' := by
  have hr' := hn.evolves.ids r hr
  have hnew' := Spares.isNew_eq_false hn.evolves hr hnew
  refine ⟨hn.evolves.trans a.evolves, ?_, fun hs => ⟨?_, ?_⟩⟩
  · intro hs
    rw [a.changed r hr' hnew', a.hydrated r hr' hnew']
    exact hn.kept hs
  · rw [a.changed r hr' hnew', (hn.lost hs).changed]
  · rw [a.hydrated r hr' hnew', (hn.lost hs).hydrated]

private theorem modify (hn : h.Noted r saved h') (q : RecordId) :
    h.Noted r (saved ∨ r = q) (h'.modify q .resetChanges) := by
  refine ⟨Transaction.evolves_resetChanges q hn.evolves, ?_, ?_⟩
  · intro hs
    rw [not_or] at hs
    rw [get_modify_of_ne _ hs.2]
    exact hn.kept hs.1
  · intro hs
    rw [get_modify]
    split
    · exact ⟨rfl, rfl⟩
    · next hq => exact hn.lost (hs.resolve_right (Ne.symm hq))

private theorem modifyAll (hn : h.Noted r saved h') (rs : List RecordId) :
    h.Noted r (saved ∨ r ∈ rs) (h'.modifyAll rs .resetChanges) := by
  induction rs generalizing saved h' with
  | nil => exact hn.congr (by simp)
  | cons q rs ih => exact (ih (hn.modify q)).congr (by rw [List.mem_cons, or_assoc])

end Heap.Noted

namespace Transaction

variable {σ ρ : Type} {tx : Transaction σ ρ} {h : Heap} {r : RecordId} {saved : Prop}

private theorem updateBatch_noted (ht : tx.Orderly) (hr : r ∈ h.ids)
    (hnew : (h.get r).isNew = false)
    (b : Batch) (run : Run σ) (hn : h.Noted r saved run.session.heap) :
    Triple (· = run) (tx.updateBatch b)
      (fun _ run' => h.Noted r (saved ∨ r ∈ tx.affirmedBatch b run) run'.session.heap ∧
        tx.affirmedBatch b run = b.records)
      fun _ run' => h.Noted r (saved ∨ r ∈ tx.affirmedBatch b run) run'.session.heap := by
  have hwriting : Triple (fun run : Run σ => h.Noted r saved run.session.heap)
      (tx.writing b (.update b.type.name b.records) (·.update b.type b.records))
      (fun _ run => h.Noted r saved run.session.heap)
      fun _ run => h.Noted r saved run.session.heap :=
    writing_triple (P := fun s => h.Noted r saved s.heap) (Q := fun _ s => h.Noted r saved s.heap)
      (E := fun _ s => h.Noted r saved s.heap) steady_heap (fun _ => .update _ _)
      (fun _ _ _ hs => hs)
      (preserves_of_spares (fun _ _ => .spares hr hnew) fun h => ht.update h b.type.store b.type _)
  rw [updateBatch_eq]
  apply Triple.bind_result (hwriting.starting hn)
  · intro _ run' herror hs
    have hnone : tx.affirmedBatch b run = [] := by rw [affirmedBatch, herror]
    exact hs.congr (by simp [hnone])
  · intro counts run₁ hok hs
    have haffirmed : tx.affirmedBatch b run = confirmed b.records counts := by
      rw [affirmedBatch, hok]
    rw [haffirmed]
    have hconfirm : Triple (· = run₁.session)
        (do confirm b.type b.records counts; return b.records.length : Working σ ρ Nat)
        (fun _ s => h.Noted r (saved ∨ r ∈ confirmed b.records counts) s.heap ∧
          confirmed b.records counts = b.records)
        fun _ s => h.Noted r (saved ∨ r ∈ confirmed b.records counts) s.heap := by
      refine Triple.bind ((confirm_heap b.type b.records counts run₁.session).conseq
        (fun _ h => h) (fun _ _ h => h) ?_) fun _ => Triple.pure ?_
      · intro _ s h'
        rw [h']
        exact hs.modifyAll _
      · intro s h'
        rw [h'.2, h'.1]
        exact ⟨hs.modifyAll _, rfl⟩
    exact (Triple.during hconfirm).starting rfl

private theorem updates_noted (ht : tx.Orderly) (hr : r ∈ h.ids) (hnew : (h.get r).isNew = false)
    (bs : List Batch) (run : Run σ) (hn : h.Noted r saved run.session.heap) :
    Triple (· = run) (bs.mapM tx.updateBatch)
      (fun _ run' => h.Noted r (saved ∨ r ∈ tx.affirmed bs run) run'.session.heap ∧
        tx.affirmed bs run = bs.flatMap (·.records))
      fun _ run' => h.Noted r (saved ∨ r ∈ tx.affirmed bs run) run'.session.heap := by
  induction bs generalizing saved run with
  | nil =>
    refine Triple.pure fun run' hs => ⟨?_, rfl⟩
    subst hs
    exact hn.congr (by simp [affirmed])
  | cons b bs ih =>
    rw [List.mapM_cons]
    apply Triple.bind_result (updateBatch_noted ht hr hnew b run hn)
    · intro _ run' herror hs
      have haffirmed : tx.affirmed (b :: bs) run = tx.affirmedBatch b run := by
        rw [affirmed, herror, List.append_nil]
      rwa [haffirmed]
    · intro n run₁ hok hs
      have haffirmed : tx.affirmed (b :: bs) run =
          tx.affirmedBatch b run ++ tx.affirmed bs run₁ := by rw [affirmed, hok]
      rw [haffirmed]
      refine Triple.bind ((ih run₁ hs.1).conseq (fun _ h => h) (fun _ _ h => h)
        fun _ run' h' => h'.congr (by rw [List.mem_append, or_assoc])) fun ns =>
        Triple.pure fun run' h' => ⟨h'.1.congr (by rw [List.mem_append, or_assoc]), ?_⟩
      rw [hs.2, h'.2, List.flatMap_cons]

end Transaction

namespace Workspace

variable {σ ρ : Type} {tx : Transaction σ ρ} {w : Workspace} {h : Heap} {r : RecordId}

/-- The records whose update is confirmed before the writing is done or stops. -/
def affirmed (tx : Transaction σ ρ) (w : Workspace) (run : Run σ) : List RecordId :=
  match tx.insertAll {} w.insertBatches run with
  | .error _ _ => []
  | .ok (_, fixUps) run =>
    tx.affirmed fixUps run ++
      match fixUps.mapM tx.updateBatch run with
      | .error _ _ => []
      | .ok _ run => tx.affirmed (w.updateBatches run.session.heap) run

private theorem writeAll_noted (ht : tx.Orderly) (hr : r ∈ h.ids) (hnew : (h.get r).isNew = false)
    (run : Run σ) (hrun : run.session.heap = h) :
    Triple (· = run) (tx.writeAll w)
      (fun _ run' => h.Noted r (r ∈ w.affirmed tx run) run'.session.heap ∧
        (r ∈ w.liveRecords → (h.get r).IsUnsaved → r ∈ w.affirmed tx run))
      fun _ run' => h.Noted r (r ∈ w.affirmed tx run) run'.session.heap := by
  have hspares : ∀ {saved : Prop} (h' h'' : Heap), h.Noted r saved h' → h'.Spares h'' →
      h.Noted r saved h'' := fun _ _ => .spares hr hnew
  have hinserts := Transaction.insertAll_preserves (P := fun s => h.Noted r False s.heap)
    Transaction.steady_heap
    (fun t rs => Transaction.preserves_of_spares hspares fun h => ht.insert h t.store t rs)
    {} w.insertBatches
  have hdeletes : ∀ (saved : Prop) b, Preserves (fun run => h.Noted r saved run.session.heap)
      (tx.deleteBatch b) := by
    intro saved
    apply Transaction.deleteBatch_preserves (P := fun s => h.Noted r saved s.heap)
      Transaction.steady_heap
    intro t rs
    exact Transaction.preserves_of_spares hspares fun h => ht.delete h t.store t rs
  rw [Transaction.writeAll]
  apply Triple.bind_result (hinserts.starting (hrun ▸ .refl h r))
  · intro _ run' herror hs
    have hnone : w.affirmed tx run = [] := by rw [affirmed, herror]
    exact hs.congr (by simp [hnone])
  rintro ⟨summary, fixUps⟩ run₁ hok₁ hs₁
  apply Triple.bind_result (Transaction.updates_noted ht hr hnew fixUps run₁ hs₁)
  · intro _ run' herror hs
    have hfixed : w.affirmed tx run = tx.affirmed fixUps run₁ := by
      rw [affirmed, hok₁]
      simp only [herror, List.append_nil]
    exact hs.congr (by simp [hfixed])
  intro fixed run₂ hok₂ hs₂
  have hall : w.affirmed tx run =
      tx.affirmed fixUps run₁ ++ tx.affirmed (w.updateBatches run₂.session.heap) run₂ := by
    rw [affirmed, hok₁]
    simp only [hok₂]
  have hmem : (False ∨ r ∈ tx.affirmed fixUps run₁) ∨
      r ∈ tx.affirmed (w.updateBatches run₂.session.heap) run₂ ↔ r ∈ w.affirmed tx run := by
    rw [hall, List.mem_append, false_or]
  refine Triple.bind (R := fun heap run' => heap = run₂.session.heap ∧ run' = run₂)
    (fun run' hs => ⟨hs ▸ rfl, hs⟩) fun heap => ?_
  refine Triple.conseq (P := fun run' => run' = run₂ ∧ heap = run₂.session.heap)
    (Triple.assuming fun hheap => ?_) (fun _ h => ⟨h.2, h.1⟩) (fun _ _ h => h) fun _ _ h => h
  rw [hheap]
  apply Triple.bind_result (Transaction.updates_noted ht hr hnew _ run₂ hs₂.1)
  · intro _ run' _ hs
    exact hs.congr hmem
  intro updated run₃ _ hs₃
  have hn := hs₃.1.congr hmem
  refine Triple.bind ((Preserves.mapM w.deleteBatches (hdeletes _)).starting hn) fun deleted =>
    Triple.pure fun run' hs => ⟨hs, fun hlive hunsaved => ?_⟩
  rw [hall, List.mem_append]
  by_cases hfixed : r ∈ tx.affirmed fixUps run₁
  · exact .inl hfixed
  · -- The changes of `r` are still noted when the updates are collected.
    refine .inr ?_
    obtain ⟨hc, hh⟩ := hs₂.1.kept (by simpa using hfixed)
    rw [hs₃.2, mem_updateBatches]
    refine ⟨hlive, ?_⟩
    rw [Record.hasChanges, hc, hh]
    exact hunsaved

end Workspace

section

variable {σ ρ : Type} {W : Transaction σ ρ → Prop} {past : List (List Event)} {w w₁ : Workspace}
  {h h₁ : Heap} {tx : Transaction σ ρ} {r : RecordId}

private theorem flush_noted (hw : w.Sound h) (ht : tx.Orderly) (world : σ)
    (hstop : (w.flush tx { session := { heap := h, world } }).1.isOk = false)
    (hlive : r ∈ w.liveRecords) (hunsaved : (h.get r).IsUnsaved) :
    let c := w.flush tx { session := { heap := h, world } }
    let lost := r ∈ w.affirmed tx { session := { heap := h, world } }
    (lost → (c.2.2.session.heap.get r).IsSaved) ∧
      (¬ lost → c.2.1 = w ∧ (c.2.2.session.heap.get r).changed = (h.get r).changed ∧
        (c.2.2.session.heap.get r).hydrated = (h.get r).hydrated) := by
  obtain ⟨hr, hnew⟩ := hw.liveRecord hlive
  have hwrite := Workspace.writeAll_noted (w := w) ht hr hnew
    { session := { heap := h, world } } rfl _ rfl
  rw [Workspace.flush] at hstop ⊢
  cases hres : tx.writeAll w { session := { heap := h, world } } with
  | error halt run =>
    rw [hres] at hwrite
    exact ⟨hwrite.lost, fun hl => ⟨rfl, hwrite.kept hl⟩⟩
  | ok summary run =>
    -- All updates are done, so that only the settling can have failed.
    rw [hres] at hwrite hstop
    obtain ⟨hn, hall⟩ := hwrite
    have hlost := hall hlive hunsaved
    have hsettle := Workspace.settle_sound (hw.evolves hn.evolves) _ rfl
    dsimp only at hstop ⊢
    cases hset : Workspace.settle (w, run.session.heap) with
    | ok u s =>
      rw [hset] at hstop
      cases hstop
    | error e s =>
      rw [hset] at hsettle
      have hsaved := hsettle.2.saved r (hn.lost hlost).changed (hn.lost hlost).hydrated
      exact ⟨fun _ => ⟨hsaved.1, hsaved.2⟩, fun hl => absurd hlost hl⟩

/-- When the writing of a commit stops, or its settling does, a live record with unsaved changes
still has them unless its update was confirmed before, and then the next commit updates it. -/
theorem keepsChanges_iff_not_affirmed (hW : ∀ tx, W tx → tx.Orderly) (life : Life W past w h)
    (ht : tx.Orderly) (world : σ) (hready : w.ready? h = some (w₁, h₁))
    (hstop : (w₁.flush tx { session := { heap := h₁, world } }).1.isOk = false)
    (hlive : r ∈ w.liveRecords) (hunsaved : (h.get r).IsUnsaved) :
    let c := w.commit tx { heap := h, world }
    ((h.get r).KeepsChanges (c.2.2.heap.get r) ↔
        r ∉ w₁.affirmed tx { session := { heap := h₁, world } }) ∧
      ((h.get r).KeepsChanges (c.2.2.heap.get r) →
        r ∈ (c.2.1.updateBatches c.2.2.heap).flatMap (·.records)) := by
  have hsound := life.sound hW
  obtain ⟨hsound₁, hfolds⟩ := Workspace.ready?_sound hsound hready
  have hlive₁ : r ∈ w₁.liveRecords := by
    have hcheck := Workspace.checkReady_live hsound hlive
    rwa [(Workspace.ready?_eq_some.mp hready).2] at hcheck
  have hfolded : (h.get r).KeepsChanges (h₁.get r) :=
    ⟨hfolds.changed r, fun hh => by rwa [hfolds.hydrated r]⟩
  obtain ⟨hlost, hkept⟩ := flush_noted hsound₁ ht world hstop hlive₁ (hfolded.isUnsaved hunsaved)
  obtain ⟨hwork, hreleases⟩ := Workspace.commit_ready (s := { heap := h, world }) tx hready
  have hiff : (h.get r).KeepsChanges ((w.commit tx { heap := h, world }).2.2.heap.get r) ↔
      r ∉ w₁.affirmed tx { session := { heap := h₁, world } } := by
    rw [hreleases.heap]
    constructor
    · exact fun hk haffirmed => (hlost haffirmed).not_keepsChanges hunsaved hk
    · intro hnot
      obtain ⟨-, hc, hh⟩ := hkept hnot
      exact ⟨by rw [hc]; exact hfolded.changed, by rw [hh]; exact hfolded.hydrated⟩
  refine ⟨hiff, fun hk => ?_⟩
  rw [Workspace.mem_updateBatches, hwork, (hkept (hiff.mp hk)).1]
  exact ⟨hlive₁, hk.isUnsaved hunsaved⟩

end

/-! An update that is confirmed, and one in another store that fails after it. -/

/-- A type with a supplied key and one data column. -/
def itemType (name : String) : RecordType where
  name
  table := name
  store := name
  key := [.bigInt "id" .supplied]
  columns := ["title"]
  references := []
  key_ne_nil := by simp
  sources_declared := by simp [KeyColumn.undeclared?, KeyColumn.bigInt]

/-- Every update affects one row, save that the store `b` refuses all. -/
def refusingB (store : String) : Connection Nat where
  store
  query _ _ n := (.ok none, n + 1)
  execute _ _ n :=
    (if store = "b" then .error (.failed (.custom "read-only")) else .ok 1, n + 1)

/-- A record with a row and a change. -/
def changedItem (name : String) : Record :=
  { Record.persisted (itemType name) with
    slots := [some (.int64 1)]
    values := (∅ : NameMap Value).insert "title" (.text "new")
    changed := (∅ : NameSet).add "title"
    slots_length := rfl }

def changedItems : Heap :=
  ((∅ : Heap).set ⟨0⟩ (changedItem "a")).set ⟨1⟩ (changedItem "b")

def trackedItems : Workspace × Heap :=
  endState (Workspace.track ⟨1⟩ (endState (Workspace.track ⟨0⟩ ({}, changedItems))))

private theorem trackedItems_life :
    Life (σ := Nat) (ρ := CancelReason) Transaction.Orderly [] trackedItems.1 trackedItems.2 := by
  have hedits : (∅ : Heap).Edits changedItems := .of_fresh (by decide +kernel)
  exact .track (r := ⟨1⟩) (.track (r := ⟨0⟩) (.edit (.begin {}) hedits) (by decide +kernel))
    (by decide +kernel)

theorem refusingB_orderly : (Transaction.sql refusingB false).Orderly :=
  Transaction.WritesBy.orderly (Transaction.sql_writesBy fun _ => rfl)

/-- The record of the store that refuses keeps its change, and the next commit updates it. -/
theorem keepsChanges_refused : (trackedItems.2.get ⟨1⟩).KeepsChanges
      ((trackedItems.1.commit (.sql refusingB false)
        { heap := trackedItems.2, world := 0 }).2.2.heap.get ⟨1⟩) := by
  have hready : trackedItems.1.ready? trackedItems.2 = some (trackedItems.1, trackedItems.2) := by
    decide +kernel
  have hiff := (keepsChanges_iff_not_affirmed (r := ⟨1⟩) (fun _ h => h) trackedItems_life
    refusingB_orderly 0 hready (by decide +kernel) (by decide +kernel) (.inl (by decide +kernel))).1
  exact hiff.mpr (by decide +kernel)

/-- Some record loses its changes in some commit whose writing stops. -/
theorem not_keepsChanges :
    ¬ ∀ (past : List (List Event)) (w w₁ : Workspace) (h h₁ : Heap) (tx : Transaction Nat)
        (world : Nat) (r : RecordId),
      Life (σ := Nat) (ρ := CancelReason) Transaction.Orderly past w h → tx.Orderly →
        w.ready? h = some (w₁, h₁) →
        (w₁.flush tx { session := { heap := h₁, world } }).1.isOk = false → r ∈ w.liveRecords →
          (h.get r).IsUnsaved →
            (h.get r).KeepsChanges ((w.commit tx { heap := h, world }).2.2.heap.get r) := by
  intro hall
  have hkept := (hall _ _ trackedItems.1 _ trackedItems.2 _ 0 ⟨0⟩ trackedItems_life
    refusingB_orderly (by decide +kernel) (by decide +kernel) (by decide +kernel)
    (.inl (by decide +kernel))).changed "title" (by decide +kernel)
  revert hkept
  decide +kernel

end UnitOfWork
