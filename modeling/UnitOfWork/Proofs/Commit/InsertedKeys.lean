import UnitOfWork.Proofs.Commit.FixedKeys
import UnitOfWork.Proofs.Commit.SqlInserts

/-!
# Keys while records are inserted

An insert fills generated slots of its record and of no other one, and marks it when it succeeds. A
key that is fixed at some point of the inserts stays as it is until they end, and every record that
the key of an inserted one is taken from has such a key.
-/

namespace UnitOfWork

namespace Heap

/-- No record is marked as written, and no new one holds a generated value. -/
structure Unwritten (h : Heap) : Prop where
  unmarked : ∀ r, (h.get r).inserted = false
  blank : ∀ r, (h.get r).isNew → (h.get r).Blank

/-- The records that the key of `r` is taken from have known keys if they have a row. -/
def KnownSources (h : Heap) (r : RecordId) : Prop :=
  ∀ u ∈ h.keyTargets r, (h.get u).isNew = false → (h.primaryKey? u).isSome

theorem Keeps.keyTargets {h h' : Heap} (a : h.Keeps h') (r : RecordId) :
    h'.keyTargets r = h.keyTargets r := by
  rw [Heap.keyTargets, Heap.keyTargets, a.type, a.references]

end Heap

/-- What the inserts have made of the records, since these were `h`. -/
structure Fixing {σ : Type} (h : Heap) (s : Session σ) : Prop where
  keeps : h.Keeps s.heap
  same : ∀ q, q ∉ insertedIn s.trace → s.heap.get q = h.get q
  marks : ∀ q, (s.heap.get q).inserted ↔ q ∈ insertedIn s.trace
  isNew : ∀ q ∈ insertedIn s.trace, (h.get q).isNew
  slot : ∀ (q : RecordId) (i : Nat) (c : KeyColumn), (h.get q).type.key[i]? = some c →
    c.isGenerated = false → (s.heap.get q).slots[i]? = (h.get q).slots[i]?
  closed : s.heap.KeysClosed

namespace Fixing

variable {σ ρ : Type} {h : Heap} {s₀ s s' : Session σ} {r u : RecordId}

theorem start (hp : h.Unwritten) (world : σ) : Fixing h { heap := h, world } where
  keeps := .refl h
  same _ _ := rfl
  marks q := by simp [hp.unmarked q, insertedIn]
  isNew _ hq := absurd hq List.not_mem_nil
  slot _ _ _ _ _ := rfl
  closed u hu := by simp [hp.unmarked u] at hu

theorem quiet {tx : Transaction σ ρ} (q : tx.Quiet s s') (hs : Fixing h s) : Fixing h s' := by
  obtain ⟨e, he, ht⟩ := q.trace
  have hinserted : insertedIn s'.trace = insertedIn s.trace := by
    rw [ht, insertedIn_snoc_other (Event.inserted?_of_statement? he)]
  refine ⟨?_, ?_, ?_, ?_, ?_, ?_⟩
  all_goals
    try rw [q.heap]
    try rw [hinserted]
  · exact hs.keeps
  · exact hs.same
  · exact hs.marks
  · exact hs.isNew
  · exact hs.slot
  · exact hs.closed

private theorem blank (hp : h.Unwritten) (hs : Fixing h s) (q : RecordId)
    (hn : (s.heap.get q).isNew) (hi : (s.heap.get q).inserted = false) : (s.heap.get q).Blank := by
  have hnot : q ∉ insertedIn s.trace := fun hq => by simp [(hs.marks q).mpr hq] at hi
  rw [hs.same q hnot] at hn ⊢
  exact hp.blank q hn

private theorem fills (hs₀ : Fixing h s₀) (hs : Fixing h s) (hprog : s₀.Progress s) :
    s₀.heap.Fills s.heap where
  type := hprog.heap.type
  references := hprog.heap.references
  inserted := hprog.heap.inserted
  slot q i c hc hg := by
    rw [hs₀.keeps.type] at hc
    rw [hs.slot q i c hc hg, hs₀.slot q i c hc hg]
  slots q hq := by
    rcases hq with hq | hq
    · rw [hprog.same q (.inl ((hs₀.marks q).mp hq))]
    · refine congrArg _ (hprog.same q (.inr fun hm => ?_))
      rw [hs₀.keeps.isNew, hs.isNew q hm] at hq
      exact Bool.noConfusion hq

theorem isFixed (hp : h.Unwritten) (hs₀ : Fixing h s₀) (hs : Fixing h s)
    (hprog : s₀.Progress s) (hu : s₀.heap.IsFixed u) : s.heap.IsFixed u :=
  (hs₀.fills hs hprog).isFixed hs₀.closed (hs₀.blank hp) hu

theorem known (hp : h.Unwritten) (hs : Fixing h s) (hu : (h.primaryKey? u).isSome) :
    (s.heap.primaryKey? u).isSome := by
  have hstart : Fixing h { heap := h, world := s.world } := .start hp s.world
  have hprog : Session.Progress { heap := h, world := s.world } s :=
    ⟨⟨s.trace, rfl⟩, hs.keeps, fun q hq => hs.same q (hq.resolve_left List.not_mem_nil)⟩
  rwa [(hstart.fills hs hprog).primaryKey? hstart.closed (hstart.blank hp) (.inr hu)]

/-- What a record does not wait for is fixed, if it is new or its key was known at the beginning. -/
theorem isFixed_of_not_awaitsKey (hp : h.Unwritten) (hs : Fixing h s)
    (hu : (h.get u).isNew = false → (h.primaryKey? u).isSome) (hawait : ¬ s.heap.awaitsKey u) :
    s.heap.IsFixed u := by
  by_cases hn : (h.get u).isNew = false
  · exact .inr (hs.known hp (hu hn))
  · rw [Bool.not_eq_false, ← hs.keeps.isNew] at hn
    by_cases hi : (s.heap.get u).inserted
    · exact .inl hi
    · refine .inr ?_
      rw [Heap.awaitsKey, Heap.isPending, Record.isPending, hn, Bool.eq_false_iff.mpr hi] at hawait
      simpa [Option.isSome_iff_ne_none] using hawait

/-- When a record is inserted, what its key is taken from is fixed, unless it is taken from the
record itself. -/
theorem isFixed_keyTargets (hp : h.Unwritten) (hs₀ : Fixing h s₀) (hs : Fixing h s)
    (hprog : s₀.Progress s) {deferrable : Bool} {p : PlannedInsert}
    (hplan : s₀.heap.Plans deferrable p) (hknown : h.KnownSources p.record) :
    ∀ v ∈ s.heap.keyTargets p.record, v ≠ p.record → s.heap.IsFixed v := by
  intro v hv hne
  rw [hprog.heap.keyTargets] at hv
  have hcan := hplan.canInsert
  rw [Heap.canInsert, Bool.and_eq_true, Bool.not_eq_true', Heap.keyAwaits,
    List.any_eq_false] at hcan
  have hawait : ¬ s₀.heap.awaitsKey v := fun hawait => hcan.1 v hv (by simpa using ⟨hne, hawait⟩)
  refine hs₀.isFixed hp hs hprog (hs₀.isFixed_of_not_awaitsKey hp (fun hn => ?_) hawait)
  exact hknown v (by rwa [← hs₀.keeps.keyTargets]) hn

variable {c : Connection σ ρ} {t : RecordType} {st : Statement}

private theorem fills_insert (hs : Fixing h s) (hn : (h.get r).isNew)
    (hfresh : r ∉ insertedIn s.trace) (a : c.Inserts t r st s s') : s.heap.Fills s'.heap where
  type := a.heap.keeps.type
  references := a.heap.keeps.references
  inserted := a.heap.keeps.inserted
  slot q := (a.heap.stored q).slot
  slots q hq := by
    refine congrArg _ (a.heap.others q ?_)
    intro he
    subst he
    rcases hq with hq | hq
    · exact hfresh ((hs.marks q).mp hq)
    · rw [hs.keeps.isNew, hn] at hq
      exact Bool.noConfusion hq

/-- An insert changes neither that a record is fixed nor the foreign key that it then gives. -/
theorem isFixed_insert (hp : h.Unwritten) (hs : Fixing h s) (hn : (h.get r).isNew)
    (hfresh : r ∉ insertedIn s.trace) (a : c.Inserts t r st s s') (hu : s.heap.IsFixed u) :
    s'.heap.IsFixed u ∧ s'.heap.foreignKey u = s.heap.foreignKey u := by
  have hfills := hs.fills_insert hn hfresh a
  constructor
  · exact hfills.isFixed hs.closed (hs.blank hp) hu
  · exact hfills.foreignKey hs.closed (hs.blank hp) hu

private theorem closed_insert (hp : h.Unwritten) (hs : Fixing h s) (hn : (h.get r).isNew)
    (hfresh : r ∉ insertedIn s.trace) (a : c.Inserts t r st s s')
    (hkey : ∀ v ∈ s.heap.keyTargets r, v ≠ r → s.heap.IsFixed v) : s'.heap.KeysClosed := by
  intro u hu v hv hne
  rw [a.heap.keeps.keyTargets] at hv
  apply (hs.isFixed_insert hp hn hfresh a ?_).1
  by_cases hur : u = r
  · subst hur
    exact hkey v hv hne
  · rw [a.heap.others u hur] at hu
    exact hs.closed u hu v hv hne

theorem insert (hp : h.Unwritten) (hs : Fixing h s) (hn : (h.get r).isNew)
    (hfresh : r ∉ insertedIn s.trace) (a : c.Inserts t r st s s') (g : c.Gives r st s s')
    (hkey : ∀ v ∈ s.heap.keyTargets r, v ≠ r → s.heap.IsFixed v) : Fixing h s' := by
  have hinserted : ∀ q, q ∈ insertedIn s'.trace ↔ q ∈ insertedIn s.trace ∨ q = r := by
    intro q
    rw [a.insertedIn, List.mem_append, List.mem_singleton]
  refine ⟨hs.keeps.trans a.heap.keeps, ?_, ?_, ?_, ?_, hs.closed_insert hp hn hfresh a hkey⟩
  · intro q hq
    rw [hinserted, not_or] at hq
    exact (a.heap.others q hq.2).trans (hs.same q hq.1)
  · intro q
    rw [hinserted]
    by_cases hqr : q = r
    · subst hqr
      simp [g.inserted]
    · rw [a.heap.others q hqr, hs.marks]
      simp [hqr]
  · intro q hq
    rcases (hinserted q).mp hq with hq | rfl
    · exact hs.isNew q hq
    · exact hn
  · intro q i c' hc hg
    rw [← hs.slot q i c' hc hg]
    exact (hs.fills_insert hn hfresh a).slot q i c' (by rwa [hs.keeps.type]) hg

end Fixing

end UnitOfWork
