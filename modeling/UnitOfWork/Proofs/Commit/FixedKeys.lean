import UnitOfWork.Proofs.Record.Resolution

/-!
# Keys that are fixed

A commit fills generated slots of the records that it inserts, and changes no other part of a key.
The key of a record is fixed once it is known or the record is inserted, provided that an inserted
record takes its own key from such records only: what a statement binds for it then is its key at
the end.
-/

namespace UnitOfWork

namespace Record

/-- No generated key column has a value. -/
def Blank (x : Record) : Prop := ∀ e ∈ x.keySlots, e.1.isGenerated → e.2 = none

end Record

namespace Heap

variable {h h' : Heap} {u v : RecordId}

/-- The key of the record does not change any more in this commit. -/
def IsFixed (h : Heap) (u : RecordId) : Prop :=
  (h.get u).inserted ∨ (h.primaryKey? u).isSome

/-- The keys of inserted records are taken from records with fixed keys. -/
def KeysClosed (h : Heap) : Prop :=
  ∀ u, (h.get u).inserted → ∀ v ∈ h.keyTargets u, v ≠ u → h.IsFixed v

/-- Of the parts of keys only generated slots have been filled, those of new records that were not
inserted. -/
structure Fills (h h' : Heap) : Prop where
  type : ∀ q, (h'.get q).type = (h.get q).type
  references : ∀ q, (h'.get q).references = (h.get q).references
  inserted : ∀ q, (h.get q).inserted → (h'.get q).inserted
  slot : ∀ (q : RecordId) (i : Nat) (c : KeyColumn), (h.get q).type.key[i]? = some c →
    c.isGenerated = false → (h'.get q).slots[i]? = (h.get q).slots[i]?
  slots : ∀ q, (h.get q).inserted ∨ (h.get q).isNew = false → (h'.get q).slots = (h.get q).slots

private theorem not_isGenerated_of_blank (hu : (h.primaryKey? u).isSome) (hb : (h.get u).Blank)
    {c : KeyColumn} {slot : Option Key} (he : (c, slot) ∈ (h.get u).keySlots) :
    c.isGenerated = false := by
  apply Bool.eq_false_iff.mpr
  intro hg
  have hsome := component?_isSome_of_primaryKey? hu he
  obtain rfl : slot = none := hb (c, slot) he hg
  rw [component?_generated hg] at hsome
  exact Bool.noConfusion hsome

namespace Fills

private theorem keySlots (a : h.Fills h') (hb : (h.get u).isNew → (h.get u).inserted = false →
    (h.get u).Blank) (hu : h.IsFixed u) : (h'.get u).keySlots = (h.get u).keySlots := by
  rw [Record.keySlots, Record.keySlots, a.type]
  congr 1
  by_cases hkept : (h.get u).inserted ∨ (h.get u).isNew = false
  · exact a.slots u hkept
  · rw [not_or, Bool.not_eq_true, Bool.not_eq_false] at hkept
    have hknown : (h.primaryKey? u).isSome := hu.resolve_left (by simp [hkept.1])
    apply List.ext_getElem?
    intro i
    cases hc : (h.get u).type.key[i]? with
    | none =>
      have hlen := List.getElem?_eq_none_iff.mp hc
      rw [List.getElem?_eq_none_iff.mpr, List.getElem?_eq_none_iff.mpr]
      · rwa [(h.get u).slots_length]
      · rwa [(h'.get u).slots_length, a.type]
    | some c =>
      apply a.slot u i c hc
      obtain ⟨hlt, -⟩ := List.getElem?_eq_some_iff.mp hc
      have hlt' : i < (h.get u).slots.length := by rwa [(h.get u).slots_length]
      have hslot : (c, (h.get u).slots[i]) ∈ (h.get u).keySlots := by
        apply List.mem_of_getElem? (i := i)
        rw [Record.keySlots, List.getElem?_zip_eq_some]
        exact ⟨hc, List.getElem?_eq_getElem hlt'⟩
      exact not_isGenerated_of_blank hknown (hb hkept.2 hkept.1) hslot

private theorem resolve? (a : h.Fills h') (hclosed : h.KeysClosed)
    (hb : ∀ q, (h.get q).isNew → (h.get q).inserted = false → (h.get q).Blank)
    (hu : h.IsFixed u) (depth : Nat) : h'.resolve? depth u = h.resolve? depth u := by
  induction depth generalizing u with
  | zero => rfl
  | succ depth ih =>
    rw [Heap.resolve?, Heap.resolve?, a.keySlots (hb u) hu]
    congr 1
    apply mapM_congr
    intro e he
    obtain ⟨c, slot⟩ := e
    by_cases hc : ∀ field, c.source ≠ .reference field
    · rw [component?_own hc, component?_own hc]
    · obtain ⟨field, hs⟩ : ∃ field, c.source = .reference field := by simpa using hc
      rw [component?_reference hs, component?_reference hs, a.references]
      cases hv : (h.get u).references.get? field with
      | none => rfl
      | some v =>
        rw [Option.bind_some, Option.bind_some]
        by_cases hne : v = u
        · rw [if_pos hne, if_pos hne]
        · have hfixed : h.IsFixed v := by
            rcases hu with hi | hk
            · exact hclosed u hi v (mem_keyTargets (List.of_mem_zip he).1 hs hv) hne
            · exact .inr (primaryKey?_isSome_of_reference hk he hs hv)
          rw [if_neg hne, if_neg hne, ih hfixed]

variable (a : h.Fills h') (hclosed : h.KeysClosed)
  (hb : ∀ q, (h.get q).isNew → (h.get q).inserted = false → (h.get q).Blank) (hu : h.IsFixed u)

include a hclosed hb hu

theorem primaryKey? : h'.primaryKey? u = h.primaryKey? u := a.resolve? hclosed hb hu _

theorem foreignKey : h'.foreignKey u = h.foreignKey u := by
  rw [Heap.foreignKey, Heap.foreignKey, a.primaryKey? hclosed hb hu]

theorem isFixed : h'.IsFixed u :=
  hu.imp (a.inserted u) fun hk => by rwa [a.primaryKey? hclosed hb hu]

end Fills

end Heap

end UnitOfWork
