import Mathlib.Data.List.Pairwise
import UnitOfWork.Proofs.Sql.Alignment

/-!
# The columns that an update sets

An update writes under the names of columns what has changed under the names of columns and of
reference fields. It sets a column twice if a changed reference has the column of a changed value,
and it sets a key column if a changed reference has that one. Nothing else goes wrong.
-/

namespace UnitOfWork.Heap

variable {h : Heap} {t : RecordType} {r : RecordId} {st : Statement} {name column : String}

/-- The column that an update writes for a changed name. -/
def assignedColumn? (h : Heap) (t : RecordType) (r : RecordId) (name : String) : Option String :=
  (h.assignment? t r name).map Prod.fst

/-- The record stores a value under the name, as data and not as a part of the key. -/
def StoresData (h : Heap) (t : RecordType) (r : RecordId) (name : String) : Prop :=
  t.hasKeyColumn name = false ∧ t.reference? name = none ∧ ((h.get r).values.get? name).isSome

/-- The name is that of a reference with the column. -/
def RefersBy (t : RecordType) (name column : String) : Prop :=
  t.hasKeyColumn name = false ∧ ∃ ref, t.reference? name = some ref ∧ ref.column = column

private theorem assignedColumn?_eq_some :
    h.assignedColumn? t r name = some column ↔
      (h.StoresData t r name ∧ name = column) ∨ RefersBy t name column := by
  rw [assignedColumn?, assignment?, StoresData, RefersBy]
  cases hkey : t.hasKeyColumn name with
  | true => simp
  | false =>
    cases href : t.reference? name with
    | some ref => simp
    | none => cases (h.get r).values.get? name <;> simp

private theorem map_fst_updates :
    (h.updates t r).map Prod.fst = (dirtyNames (h.get r)).filterMap (h.assignedColumn? t r) := by
  rw [updates, List.map_filterMap]
  rfl

private theorem nodup_dirtyNames (x : Record) : (dirtyNames x).Nodup := by
  rw [dirtyNames]
  exact NameMap.nodup_names _

/-- The columns of an update are apart exactly when no two changed names are written to one. -/
theorem nodup_updates : ((h.updates t r).map Prod.fst).Nodup ↔
    ∀ a ∈ dirtyNames (h.get r), ∀ b ∈ dirtyNames (h.get r), ∀ c,
      h.assignedColumn? t r a = some c → h.assignedColumn? t r b = some c → a = b := by
  have hnames := nodup_dirtyNames (h.get r)
  rw [map_fst_updates, List.Nodup, List.pairwise_filterMap]
  constructor
  · intro hapart a ha b hb c hac hbc
    by_contra hne
    have hsymm : Std.Symm fun a b => ∀ c, h.assignedColumn? t r a = some c →
        ∀ d, h.assignedColumn? t r b = some d → c ≠ d :=
      ⟨fun a b hab d hd c hc hdc => hab c hc d hd hdc.symm⟩
    exact hapart.forall ha hb hne c hac c hbc rfl
  · intro hone
    apply hnames.pairwise_of_forall_ne
    intro a ha b hb hne c hac d hbd hcd
    exact hne (hone a ha b hb c hac (hcd ▸ hbd))

private theorem RefersBy.eq (hcolumns : (t.references.map (·.column)).Nodup) {a b : String}
    (ha : RefersBy t a column) (hb : RefersBy t b column) : a = b := by
  obtain ⟨-, ref, href, hcol⟩ := ha
  obtain ⟨-, ref', href', hcol'⟩ := hb
  obtain ⟨hmem, rfl⟩ := RecordType.reference?_some href
  obtain ⟨hmem', rfl⟩ := RecordType.reference?_some href'
  rw [List.inj_on_of_nodup_map hcolumns hmem hmem' (hcol.trans hcol'.symm)]

/-- An update sets no column twice and none of the key if and only if no changed reference has a
column of the key or one that a changed value is stored under. -/
theorem updateStatement?_sets_once (hcolumns : (t.references.map (·.column)).Nodup)
    (hst : h.updateStatement? t r = .ok (some st)) :
    ((st.assigned.map Prod.fst).Nodup ∧
        ∀ c ∈ st.assigned.map Prod.fst, t.hasKeyColumn c = false) ↔
      ∀ field ∈ dirtyNames (h.get r), ∀ ref, t.reference? field = some ref →
        t.hasKeyColumn field = false → t.hasKeyColumn ref.column = false ∧
          ¬ (ref.column ∈ dirtyNames (h.get r) ∧ h.StoresData t r ref.column) := by
  obtain ⟨key, -, rfl⟩ := updateStatement?_ok hst
  rw [Statement.assigned, nodup_updates, map_fst_updates]
  constructor
  · rintro ⟨hone, hkey⟩ field hfield ref href hown
    have hcolumn : h.assignedColumn? t r field = some ref.column :=
      assignedColumn?_eq_some.mpr (.inr ⟨hown, ref, href, rfl⟩)
    constructor
    · exact hkey _ (List.mem_filterMap.mpr ⟨field, hfield, hcolumn⟩)
    · rintro ⟨hdirty, hstores⟩
      have hdata : h.assignedColumn? t r ref.column = some ref.column :=
        assignedColumn?_eq_some.mpr (.inl ⟨hstores, rfl⟩)
      have hname := hone _ hfield _ hdirty _ hcolumn hdata
      rw [← hname] at hstores
      exact absurd (hstores.2.1.symm.trans href) (by simp)
  · intro hapart
    constructor
    · intro a ha b hb c hac hbc
      rcases assignedColumn?_eq_some.mp hac with ⟨hsa, rfl⟩ | hra
      · rcases assignedColumn?_eq_some.mp hbc with ⟨-, rfl⟩ | ⟨hown, ref, href, rfl⟩
        · rfl
        · exact absurd ⟨ha, hsa⟩ (hapart b hb ref href hown).2
      · rcases assignedColumn?_eq_some.mp hbc with ⟨hsb, rfl⟩ | hrb
        · obtain ⟨hown, ref, href, rfl⟩ := hra
          exact absurd ⟨hb, hsb⟩ (hapart a ha ref href hown).2
        · exact hra.eq hcolumns hrb
    · intro c hc
      obtain ⟨name, hname, hcolumn⟩ := List.mem_filterMap.mp hc
      rcases assignedColumn?_eq_some.mp hcolumn with ⟨hstores, rfl⟩ | ⟨hown, ref, href, rfl⟩
      · exact hstores.1
      · exact (hapart name hname ref href hown).1

/-! A branch gets a label and a parent. -/

def branchType : RecordType where
  name := "branch"
  table := "branch"
  store := "main"
  key := [.bigInt "code" .supplied]
  columns := ["label", "parent_id"]
  references := [{ name := "parent", column := "parent_id", target := "branch" }]
  key_ne_nil := by simp
  sources_declared := by simp [KeyColumn.undeclared?, KeyColumn.bigInt]

def branch (code : Int64) : Record := (Record.persisted branchType).setSlot 0 (.int64 code)

/-- The second of two branches comes to grow from the first one, and has another value too. -/
def grown (column : String) (v : Value) : Heap :=
  ((∅ : Heap).set ⟨0⟩ (branch 1)).set ⟨1⟩
    (({ branch 2 with
      references := (∅ : NameMap RecordId).insert "parent" ⟨0⟩ }.noteChange "parent").setValue
        column v)

/-- The update sets the column of the reference beside that of the value. -/
theorem updateStatement?_sets_once_branch :
    ∃ st, (grown "label" (.text "twig")).updateStatement? branchType ⟨1⟩ = .ok (some st) ∧
      st.assigned.map Prod.fst = ["label", "parent_id"] ∧
      (st.assigned.map Prod.fst).Nodup ∧
      ∀ c ∈ st.assigned.map Prod.fst, branchType.hasKeyColumn c = false := by
  have hnames : dirtyNames ((grown "label" (.text "twig")).get ⟨1⟩) = ["label", "parent"] := by
    decide +kernel
  have hapart : ∀ field ∈ ["label", "parent"], ∀ ref, branchType.reference? field = some ref →
      branchType.hasKeyColumn ref.column = false ∧ ref.column ∉ ["label", "parent"] := by
    decide +kernel
  refine ⟨_, rfl, by decide +kernel, (updateStatement?_sets_once
    (h := grown "label" (.text "twig")) (t := branchType) (r := ⟨1⟩) (by decide) rfl).mpr ?_⟩
  rw [hnames]
  intro field hfield ref href _
  obtain ⟨hkey, hdata⟩ := hapart field hfield ref href
  exact ⟨hkey, fun h => hdata h.1⟩

/-! A line is moved to another order: the update sets the key column. And a branch that stores a
value under the column of its reference has changed both: the update sets the column twice. -/

def rerouted : Heap :=
  orderLine.modify ⟨1⟩ fun x => { x with isNew := false }.noteChange "order"

theorem not_updateStatement?_sets_once :
    (¬ ∀ (h : Heap) (t : RecordType) (r : RecordId) (st : Statement), (h.get r).type = t →
      (t.key.map (·.name)).Nodup → (t.references.map (·.name)).Nodup →
      (t.references.map (·.column)).Nodup → h.updateStatement? t r = .ok (some st) →
        ∀ c ∈ st.assigned.map Prod.fst, t.hasKeyColumn c = false) ∧
      ¬ ∀ (h : Heap) (t : RecordType) (r : RecordId) (st : Statement), (h.get r).type = t →
        (t.key.map (·.name)).Nodup → (t.references.map (·.name)).Nodup →
        (t.references.map (·.column)).Nodup → h.updateStatement? t r = .ok (some st) →
          (st.assigned.map Prod.fst).Nodup := by
  constructor
  · intro hall
    have hkey := hall rerouted lineType ⟨1⟩ _ rfl (by decide) (by decide) (by decide) rfl
      "order_id" (by decide +kernel)
    exact absurd hkey (by decide)
  · intro hall
    have honce := hall (grown "parent_id" (.bigInt 3)) branchType ⟨1⟩ _ rfl (by decide) (by decide)
      (by decide) rfl
    revert honce
    decide +kernel

end UnitOfWork.Heap
