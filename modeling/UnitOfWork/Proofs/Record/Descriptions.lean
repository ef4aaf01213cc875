import UnitOfWork.Proofs.Data.KeyText
import UnitOfWork.Proofs.Record.Building

/-!
# What descriptions tell apart

Messages name a record by its type and its key. Of two records of one type, whose keys are known,
the descriptions are equal only if the keys are, whatever the texts in them look like; and the
question mark that stands for an unknown key is never taken for a known one. So a description
tells which row is meant.
-/

namespace UnitOfWork

/-- The key has one component for each key column of the type, of the kind of the column. -/
def RowKey.HasKinds (key : RowKey) (t : RecordType) : Prop :=
  key.components.map Key.kind = t.key.map (·.kind)

instance (key : RowKey) (t : RecordType) : Decidable (key.HasKinds t) :=
  inferInstanceAs (Decidable (key.components.map Key.kind = t.key.map (·.kind)))

namespace Heap

variable {h h' : Heap} {r s : RecordId} {key : RowKey}

/-- What stands for the key in a description. -/
def keyText (h : Heap) (r : RecordId) : String :=
  match h.primaryKey? r with
  | some key => key.list
  | none => "?"

private theorem keyText_of_some (hr : h.primaryKey? r = some key) : h.keyText r = key.list := by
  rw [keyText, hr]

private theorem keyText_of_none (hr : h.primaryKey? r = none) : h.keyText r = "?" := by
  rw [keyText, hr]

theorem describe_eq_keyText (h : Heap) (r : RecordId) :
    h.describe r = (h.get r).type.name ++ "(" ++ h.keyText r ++ ")" := rfl

private theorem describe_eq_iff_keyText (htype : (h.get r).type = (h'.get s).type) :
    h.describe r = h'.describe s ↔ h.keyText r = h'.keyText s := by
  simp [describe_eq_keyText, htype]

/-- Descriptions of records of one type are equal if both keys are unknown or both are the same, and
in no other case. -/
theorem describe_eq_iff_primaryKey? (htype : (h.get r).type = (h'.get s).type)
    (hkinds : ∀ key ∈ h.primaryKey? r, ∀ key' ∈ h'.primaryKey? s,
      key.components.map Key.kind = key'.components.map Key.kind) :
    h.describe r = h'.describe s ↔ h.primaryKey? r = h'.primaryKey? s := by
  rw [describe_eq_iff_keyText htype]
  cases hr : h.primaryKey? r with
  | none =>
    rw [keyText_of_none hr]
    cases hs : h'.primaryKey? s with
    | none => simp [keyText_of_none hs]
    | some key' => simp [keyText_of_some hs, key'.list_ne_unknown.symm]
  | some key =>
    rw [keyText_of_some hr]
    cases hs : h'.primaryKey? s with
    | none => simp [keyText_of_none hs, key.list_ne_unknown]
    | some key' =>
      rw [keyText_of_some hs, RowKey.list_inj (hkinds key hr key' hs), Option.some.injEq]

/-- Known keys of two records of one type are shown alike only if they are equal, and no known key
is shown like an unknown one. The components have to be of the kinds of the key columns, which
`kinds_primaryKey?` finds in every record that was built by its setters. -/
theorem describe_identifies (htype : (h.get r).type = (h'.get s).type) :
    (∀ key key', h.primaryKey? r = some key → h'.primaryKey? s = some key' →
        key.HasKinds (h.get r).type → key'.HasKinds (h'.get s).type →
        (h.describe r = h'.describe s ↔ key = key')) ∧
      (∀ key, h.primaryKey? r = some key → h'.primaryKey? s = none →
        h.describe r ≠ h'.describe s) := by
  refine ⟨fun key key' hr hs hkey hkey' => ?_, fun key hr hs hsame => ?_⟩
  · have hkinds : key.components.map Key.kind = key'.components.map Key.kind :=
      hkey.trans (htype ▸ hkey'.symm)
    rw [describe_eq_iff_primaryKey? htype (by simpa [hr, hs] using hkinds), hr, hs,
      Option.some.injEq]
  · rw [describe_eq_iff_primaryKey? htype (by simp [hs]), hr, hs] at hsame
    cases hsame

/-! Two keys that would both be shown as `"x", "y", "z"` if quotes were not escaped, and one that is
not complete. -/

def textColumn (name : String) : KeyColumn where
  name
  sqlType := .text
  source := .supplied
  kind := .text
  kind_eq := rfl

def pairType : RecordType where
  name := "pair"
  table := "pair"
  store := "main"
  key := [textColumn "first", textColumn "second"]
  columns := []
  references := []
  key_ne_nil := by simp
  sources_declared := by simp [KeyColumn.undeclared?, textColumn]

def pair (first second : String) : Record :=
  ((Record.create pairType).setSlot 0 (.text first)).setSlot 1 (.text second)

def pairs : Heap :=
  (((∅ : Heap).set ⟨0⟩ (pair "x\", \"y" "z")).set ⟨1⟩ (pair "x" "y\", \"z")).set ⟨2⟩
    (Record.create pairType)

theorem describe_identifies_pairs :
    pairs.primaryKey? ⟨0⟩ = some ⟨[.text "x\", \"y", .text "z"]⟩ ∧
      pairs.primaryKey? ⟨1⟩ = some ⟨[.text "x", .text "y\", \"z"]⟩ ∧
      RowKey.HasKinds ⟨[.text "x\", \"y", .text "z"]⟩ pairType ∧
      RowKey.HasKinds ⟨[.text "x", .text "y\", \"z"]⟩ pairType ∧
      pairs.primaryKey? ⟨2⟩ = none ∧
      pairs.describe ⟨0⟩ ≠ pairs.describe ⟨1⟩ ∧ pairs.describe ⟨0⟩ ≠ pairs.describe ⟨2⟩ := by
  have hkey₀ : pairs.primaryKey? ⟨0⟩ = some ⟨[.text "x\", \"y", .text "z"]⟩ := by decide +kernel
  have hkey₁ : pairs.primaryKey? ⟨1⟩ = some ⟨[.text "x", .text "y\", \"z"]⟩ := by decide +kernel
  have hkey₂ : pairs.primaryKey? ⟨2⟩ = none := by decide +kernel
  have htype₁ : (pairs.get ⟨0⟩).type = (pairs.get ⟨1⟩).type := rfl
  have htype₂ : (pairs.get ⟨0⟩).type = (pairs.get ⟨2⟩).type := rfl
  have hkinds₀ : RowKey.HasKinds ⟨[.text "x\", \"y", .text "z"]⟩ pairType := by decide
  have hkinds₁ : RowKey.HasKinds ⟨[.text "x", .text "y\", \"z"]⟩ pairType := by decide
  have hiff := (describe_identifies htype₁).1 _ _ hkey₀ hkey₁ hkinds₀ hkinds₁
  refine ⟨hkey₀, hkey₁, hkinds₀, hkinds₁, hkey₂, mt hiff.mp (by decide), ?_⟩
  exact (describe_identifies htype₂).2 _ hkey₀ hkey₂

example : pairs.describe ⟨0⟩ = "pair(\"x\\\", \\\"y\", \"z\")" := by decide +kernel

end Heap

end UnitOfWork
