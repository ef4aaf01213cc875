/-!
# Finite maps

Finite maps from keys with decidable equality. A replaced entry keeps its place and a new one
comes last, so that a walk through the map meets the keys in the order of their first entry.
-/

namespace UnitOfWork

/-- A finite map, by its entries; no key occurs twice. -/
structure FinMap (κ α : Type) where
  entries : List (κ × α)
  nodup : (entries.map Prod.fst).Nodup
  deriving DecidableEq, Repr

namespace FinMap

variable {κ α : Type}

def empty : FinMap κ α := ⟨[], .nil⟩

instance : EmptyCollection (FinMap κ α) := ⟨empty⟩

instance : Inhabited (FinMap κ α) := ⟨empty⟩

def keys (m : FinMap κ α) : List κ := m.entries.map Prod.fst

def values (m : FinMap κ α) : List α := m.entries.map Prod.snd

def size (m : FinMap κ α) : Nat := m.entries.length

variable [DecidableEq κ]

def lookup (k : κ) : List (κ × α) → Option α
  | [] => none
  | (l, a) :: rest => if l = k then some a else lookup k rest

def get? (m : FinMap κ α) (k : κ) : Option α := lookup k m.entries

def contains (m : FinMap κ α) (k : κ) : Bool := (m.get? k).isSome

/-- Replaces the entry of a key, or adds one at the end. -/
def enter (k : κ) (a : α) : List (κ × α) → List (κ × α)
  | [] => [(k, a)]
  | (l, b) :: rest => if l = k then (k, a) :: rest else (l, b) :: enter k a rest

/-- Leaves out the entry of a key. -/
def leave (k : κ) : List (κ × α) → List (κ × α)
  | [] => []
  | (l, b) :: rest => if l = k then rest else (l, b) :: leave k rest

theorem mem_keys_enter {k x : κ} {a : α} {l : List (κ × α)} :
    x ∈ (enter k a l).map Prod.fst ↔ x = k ∨ x ∈ l.map Prod.fst := by
  induction l with
  | nil => simp [enter]
  | cons e rest ih =>
    obtain ⟨l, b⟩ := e
    by_cases h : l = k
    · subst h; simp [enter]
    · simp only [enter, h, if_false, List.map_cons, List.mem_cons, ih]
      exact or_left_comm

theorem nodup_enter {k : κ} {a : α} {l : List (κ × α)} (h : (l.map Prod.fst).Nodup) :
    ((enter k a l).map Prod.fst).Nodup := by
  induction l with
  | nil => simp [enter]
  | cons e rest ih =>
    obtain ⟨l, b⟩ := e
    have hcons := List.nodup_cons.mp h
    by_cases hk : l = k
    · subst hk; simpa [enter] using h
    · simp only [enter, hk, if_false, List.map_cons]
      refine List.nodup_cons.mpr ⟨fun hm => ?_, ih hcons.2⟩
      rcases mem_keys_enter.mp hm with h' | h'
      · exact hk h'
      · exact hcons.1 h'

theorem leave_sublist (k : κ) (l : List (κ × α)) : (leave k l).Sublist l := by
  induction l with
  | nil => exact .slnil
  | cons e rest ih =>
    obtain ⟨l, b⟩ := e
    by_cases h : l = k
    · simp only [leave, h, if_true]; exact List.sublist_cons_self ..
    · simp only [leave, h, if_false]; exact ih.cons_cons _

theorem lookup_enter (k j : κ) (a : α) (l : List (κ × α)) :
    lookup j (enter k a l) = if k = j then some a else lookup j l := by
  induction l with
  | nil => simp [enter, lookup]
  | cons e rest ih =>
    obtain ⟨l, b⟩ := e
    by_cases hk : l = k
    · subst hk
      by_cases hj : l = j <;> simp [enter, lookup, hj]
    · by_cases hj : l = j
      · subst hj
        simp [enter, lookup, hk, Ne.symm hk]
      · simp [enter, lookup, hk, hj, ih]

theorem lookup_eq_none {k : κ} {l : List (κ × α)} (h : k ∉ l.map Prod.fst) :
    lookup k l = none := by
  induction l with
  | nil => rfl
  | cons e rest ih =>
    obtain ⟨l, b⟩ := e
    simp only [List.map_cons, List.mem_cons, not_or] at h
    simp [lookup, Ne.symm h.1, ih h.2]

theorem lookup_leave (k j : κ) (l : List (κ × α)) (h : (l.map Prod.fst).Nodup) :
    lookup j (leave k l) = if k = j then none else lookup j l := by
  induction l with
  | nil => simp [leave, lookup]
  | cons e rest ih =>
    obtain ⟨l, b⟩ := e
    have hcons := List.nodup_cons.mp h
    by_cases hk : l = k
    · subst hk
      by_cases hj : l = j
      · subst hj
        simpa [leave] using lookup_eq_none hcons.1
      · simp [leave, lookup, hj]
    · by_cases hj : l = j
      · subst hj
        simp [leave, lookup, hk, Ne.symm hk]
      · simp [leave, lookup, hk, hj, ih hcons.2]

/-- The map with one entry more, or with that entry replaced. -/
def insert (m : FinMap κ α) (k : κ) (a : α) : FinMap κ α :=
  ⟨enter k a m.entries, nodup_enter m.nodup⟩

def erase (m : FinMap κ α) (k : κ) : FinMap κ α :=
  ⟨leave k m.entries, m.nodup.sublist ((leave_sublist k m.entries).map _)⟩

@[simp]
theorem get?_empty (k : κ) : (∅ : FinMap κ α).get? k = none := rfl

theorem get?_insert (m : FinMap κ α) (k j : κ) (a : α) :
    (m.insert k a).get? j = if k = j then some a else m.get? j :=
  lookup_enter k j a m.entries

theorem get?_erase (m : FinMap κ α) (k j : κ) :
    (m.erase k).get? j = if k = j then none else m.get? j :=
  lookup_leave k j m.entries m.nodup

end FinMap

end UnitOfWork
