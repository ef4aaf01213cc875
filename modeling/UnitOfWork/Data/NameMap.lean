import UnitOfWork.Data.FinMap

/-!
# Maps from names

Finite maps from names, in the order of the names. `get?_insert` is all that a reader of such a
map has to know; `NameSet` is the special case of a set of names.
-/

namespace UnitOfWork

/-- A finite map from names, by its entries in increasing order of their names. -/
structure NameMap (α : Type) where
  entries : List (String × α)
  sorted : (entries.map Prod.fst).Pairwise (· < ·)
  deriving DecidableEq, Repr

namespace NameMap

variable {α : Type}

def empty : NameMap α := ⟨[], .nil⟩

instance : EmptyCollection (NameMap α) := ⟨empty⟩

instance : Inhabited (NameMap α) := ⟨empty⟩

/-- The names, in increasing order. -/
def names (m : NameMap α) : List String := m.entries.map Prod.fst

/-- The values, in the order of their names. -/
def values (m : NameMap α) : List α := m.entries.map Prod.snd

def size (m : NameMap α) : Nat := m.entries.length

def get? (m : NameMap α) (name : String) : Option α := FinMap.lookup name m.entries

def contains (m : NameMap α) (name : String) : Bool := (m.get? name).isSome

/-- Enters a value where its name belongs, in place of the one that has the name. -/
def enter (name : String) (a : α) : List (String × α) → List (String × α)
  | [] => [(name, a)]
  | (n, b) :: rest =>
    if n = name then (name, a) :: rest
    else if name < n then (name, a) :: (n, b) :: rest
    else (n, b) :: enter name a rest

open FinMap (lookup) in
theorem lookup_enter (name other : String) (a : α) (l : List (String × α)) :
    lookup other (enter name a l) = if name = other then some a else lookup other l := by
  induction l with
  | nil => simp [enter, lookup]
  | cons e rest ih =>
    obtain ⟨n, b⟩ := e
    by_cases hn : n = name
    · subst hn
      by_cases ho : n = other <;> simp [enter, lookup, ho]
    · by_cases hlt : name < n
      · simp [enter, lookup, hn, hlt]
      · by_cases ho : n = other
        · subst ho
          simp [enter, lookup, hn, hlt, Ne.symm hn]
        · simp [enter, lookup, hn, hlt, ho, ih]

theorem mem_names_enter {name x : String} {a : α} {l : List (String × α)} :
    x ∈ (enter name a l).map Prod.fst ↔ x = name ∨ x ∈ l.map Prod.fst := by
  induction l with
  | nil => simp [enter]
  | cons e rest ih =>
    obtain ⟨n, b⟩ := e
    by_cases hn : n = name
    · subst hn; simp [enter]
    · by_cases hlt : name < n
      · simp [enter, hn, hlt]
      · simp only [enter, hn, hlt, if_false, List.map_cons, List.mem_cons, ih]
        exact or_left_comm

theorem sorted_enter {name : String} {a : α} {l : List (String × α)}
    (h : (l.map Prod.fst).Pairwise (· < ·)) :
    ((enter name a l).map Prod.fst).Pairwise (· < ·) := by
  induction l with
  | nil => simp [enter]
  | cons e rest ih =>
    obtain ⟨n, b⟩ := e
    have hcons := List.pairwise_cons.mp h
    by_cases hn : n = name
    · subst hn; simpa [enter] using h
    · by_cases hlt : name < n
      · simp only [enter, hn, hlt, if_true, if_false, List.map_cons]
        refine List.pairwise_cons.mpr ⟨fun x hx => ?_, h⟩
        rcases List.mem_cons.mp hx with rfl | hx
        · exact hlt
        · exact String.lt_trans hlt (hcons.1 x hx)
      · simp only [enter, hn, hlt, if_false, List.map_cons]
        refine List.pairwise_cons.mpr ⟨fun x hx => ?_, ih hcons.2⟩
        rcases mem_names_enter.mp hx with rfl | hx
        · exact Std.lt_of_le_of_ne (String.not_lt.mp hlt) hn
        · exact hcons.1 x hx

/-- The map with one entry more, or with that entry replaced. -/
def insert (m : NameMap α) (name : String) (a : α) : NameMap α :=
  ⟨enter name a m.entries, sorted_enter m.sorted⟩

@[simp]
theorem get?_empty (name : String) : (∅ : NameMap α).get? name = none := rfl

theorem get?_insert (m : NameMap α) (name other : String) (a : α) :
    (m.insert name a).get? other = if name = other then some a else m.get? other :=
  lookup_enter name other a m.entries

def insertAll (m : NameMap α) (l : List (String × α)) : NameMap α :=
  l.foldl (fun m e => m.insert e.1 e.2) m

def map {β : Type} (f : α → β) (m : NameMap α) : NameMap β :=
  ⟨m.entries.map fun e => (e.1, f e.2), by simpa [List.map_map, Function.comp_def] using m.sorted⟩

end NameMap

/-- A finite set of names. -/
abbrev NameSet := NameMap Unit

namespace NameSet

def add (s : NameSet) (name : String) : NameSet := s.insert name ()

def addAll (s : NameSet) (l : List String) : NameSet := l.foldl add s

def isEmpty (s : NameSet) : Bool := s.entries.isEmpty

end NameSet

end UnitOfWork
