import UnitOfWork.Proofs.Data.Containers
import UnitOfWork.Record.Basic

/-!
# Setters

What can be done to a single record, one setter at a time. No setter takes back a slot of the key
or a reference, so that a record that is ready for a commit stays ready, and none makes a record
new again.
-/

namespace UnitOfWork

namespace NameMap

variable {α : Type}

private theorem contains_insert {m : NameMap α} {name : String} (a : α) {other : String}
    (h : m.contains other) : (m.insert name a).contains other := by
  rw [contains, get?_insert]
  split
  · rfl
  · exact h

private theorem contains_insertAll {m : NameMap α} (l : List (String × α)) {name : String}
    (h : m.contains name) : (m.insertAll l).contains name := by
  induction l generalizing m with
  | nil => exact h
  | cons e l ih => exact ih (contains_insert e.2 h)

end NameMap

namespace Record

/-- One way to change a record. A setter that fails changes nothing. -/
inductive Setter where
  | setValue (column : String) (v : Value)
  | setKey (column : String) (k : Key)
  | setReference (field : String) (target : RecordId)
  | applyGenerated (column : String) (v : Value)
  | merge (fetched : Record)
  | absorb (other : Record)
  | markDeleted
  | undelete
  | markInserted
  | setTransient (b : Bool)
  | resetChanges
  | markCommitted

def Setter.apply (x : Record) : Setter → Record
  | setValue column v => x.setValue column v
  | setKey column k => (x.setKey column k).toOption.getD x
  | setReference field target => (x.setReference field target).toOption.getD x
  | applyGenerated column v => (x.applyGenerated column v).toOption.getD x
  | merge fetched => x.merge fetched
  | absorb other => x.absorb other
  | markDeleted => x.markDeleted
  | undelete => x.undelete
  | markInserted => x.markInserted
  | setTransient b => x.setTransient b
  | resetChanges => x.resetChanges
  | markCommitted => x.markCommitted

theorem mem_keySlots {x : Record} {c : KeyColumn} {slot : Option Key} :
    (c, slot) ∈ x.keySlots ↔ ∃ i : Nat, x.type.key[i]? = some c ∧ x.slots[i]? = some slot := by
  simp only [keySlots, List.mem_iff_getElem?, List.getElem?_zip_eq_some]

private theorem isCommitReady_iff {x : Record} :
    x.isCommitReady ↔ ∀ (i : Nat) (c : KeyColumn), x.type.key[i]? = some c →
      match c.source with
      | .supplied => (x.slot? i).isSome
      | .generated => True
      | .reference field => x.references.contains field := by
  rw [isCommitReady, List.all_eq_true]
  constructor
  · intro hall i c hc
    have hi : i < x.slots.length := by
      rw [x.slots_length]
      exact (List.getElem?_eq_some_iff.mp hc).1
    have hslot := List.getElem?_eq_getElem hi
    have hone := hall (c, x.slots[i]) (mem_keySlots.mpr ⟨i, hc, hslot⟩)
    rw [slot?, hslot]
    dsimp only at hone
    split at hone <;> simp_all
  · rintro hall ⟨c, slot⟩ hmem
    obtain ⟨i, hc, hslot⟩ := mem_keySlots.mp hmem
    have hone := hall i c hc
    rw [slot?, hslot] at hone
    dsimp only
    split <;> simp_all

/-- Nothing is taken back from `x` in `y`: no slot of the key, no reference, and not that it has a
row. -/
structure Grows (x y : Record) : Prop where
  type : y.type = x.type
  slot : ∀ i, (x.slot? i).isSome → (y.slot? i).isSome
  reference : ∀ field, x.references.contains field → y.references.contains field
  isNew : y.isNew → x.isNew

namespace Grows

variable {x y z : Record}

theorem refl (x : Record) : x.Grows x := ⟨rfl, fun _ hs => hs, fun _ hr => hr, fun hn => hn⟩

theorem trans (a : x.Grows y) (b : y.Grows z) : x.Grows z where
  type := b.type.trans a.type
  slot i hs := b.slot i (a.slot i hs)
  reference field hr := b.reference field (a.reference field hr)
  isNew hn := a.isNew (b.isNew hn)

theorem isCommitReady (a : x.Grows y) (hx : x.isCommitReady) : y.isCommitReady := by
  rw [isCommitReady_iff] at hx ⊢
  intro i c hc
  rw [a.type] at hc
  cases hs : c.source with
  | supplied =>
    have hslot := hx i c hc
    simp only [hs] at hslot ⊢
    exact a.slot i hslot
  | generated => trivial
  | reference field =>
    have hassigned := hx i c hc
    simp only [hs] at hassigned ⊢
    exact a.reference field hassigned

end Grows

theorem fill_isSome (ss os : List (Option Key)) (i : Nat) (h : (ss[i]?.join).isSome) :
    ((fill ss os)[i]?.join).isSome := by
  induction ss generalizing os i with
  | nil => simp at h
  | cons s ss ih =>
    cases os with
    | nil => exact h
    | cons o os =>
      cases i with
      | zero => cases s <;> simp_all [fill]
      | succ i => simpa [fill] using ih os i (by simpa using h)

private theorem grows_setSlot (x : Record) (i : Nat) (k : Key) : x.Grows (x.setSlot i k) := by
  refine { Grows.refl x with type := rfl, slot := fun j hj => ?_ }
  rw [slot?, setSlot, List.getElem?_set]
  split
  · split
    · rfl
    · next hij hi => simp_all [slot?]
  · exact hj

private theorem grows_of_toOption {ε : Type} {x : Record} {result : Except ε Record}
    (h : ∀ y, result = .ok y → x.Grows y) : x.Grows (result.toOption.getD x) := by
  cases result with
  | error e => exact .refl x
  | ok y => exact h y rfl

theorem map_ok {f : Record → Record} {result : Except Error Record} {y : Record}
    (h : result.map f = .ok y) : ∃ z, result = .ok z ∧ f z = y := by
  cases result with
  | error e => cases h
  | ok z => exact ⟨z, rfl, Except.ok.inj h⟩

private theorem grows_noteChange (x : Record) (name : String) : x.Grows (x.noteChange name) :=
  ⟨rfl, fun _ hs => hs, fun _ hr => hr, fun hn => hn⟩

private theorem grows_assignKey {x y : Record} {column : String} {k : Key}
    (h : x.assignKey column k = .ok y) : x.Grows y := by
  rw [assignKey] at h
  repeat' split at h
  all_goals cases h
  all_goals exact grows_setSlot ..

private theorem grows_assignReference {x y : Record} {field : String} {target : RecordId}
    (h : x.assignReference field target = .ok y) : x.Grows y := by
  rw [assignReference] at h
  split at h
  · cases h
    exact ⟨rfl, fun _ hs => hs, fun _ => NameMap.contains_insert target, fun hn => hn⟩
  · cases h

private theorem grows_applyGenerated {x y : Record} {column : String} {v : Value}
    (h : x.applyGenerated column v = .ok y) : x.Grows y := by
  rw [applyGenerated] at h
  split at h
  · cases h
    exact ⟨rfl, fun _ hs => hs, fun _ hr => hr, fun hn => hn⟩
  · next c i hc =>
    split at h
    · next k hk =>
      cases h
      have hslot := grows_setSlot x i k
      exact ⟨rfl, hslot.slot, hslot.reference, fun hn => hn⟩
    · cases h

theorem Setter.grows (x : Record) (s : Setter) : x.Grows (s.apply x) := by
  cases s with
  | setValue column v => exact ⟨rfl, fun _ hs => hs, fun _ hr => hr, fun hn => hn⟩
  | setKey column k =>
    refine grows_of_toOption fun y hy => ?_
    obtain ⟨z, hz, rfl⟩ := map_ok hy
    exact (grows_assignKey hz).trans (grows_noteChange z column)
  | setReference field target =>
    refine grows_of_toOption fun y hy => ?_
    obtain ⟨z, hz, rfl⟩ := map_ok hy
    exact (grows_assignReference hz).trans (grows_noteChange z field)
  | applyGenerated column v => exact grows_of_toOption fun y hy => grows_applyGenerated hy
  | merge fetched =>
    exact ⟨rfl, fun i => fill_isSome _ _ i, fun _ => NameMap.contains_insertAll _, fun hn => hn⟩
  | absorb other =>
    exact ⟨rfl, fun i => fill_isSome _ _ i, fun _ => NameMap.contains_insertAll _, fun hn => hn⟩
  | markDeleted | undelete | markInserted | setTransient | resetChanges =>
    exact ⟨rfl, fun _ hs => hs, fun _ hr => hr, fun hn => hn⟩
  | markCommitted => exact ⟨rfl, fun _ hs => hs, fun _ hr => hr, fun hn => Bool.noConfusion hn⟩

end Record

end UnitOfWork
