import UnitOfWork.Proofs.Record.Building

/-!
# The chains that keys are taken through

A key column that is taken from a reference refers to a record with a single key column, so each
component of a key is taken through one chain of key columns that ends in a slot. The key of a
record is known exactly when, for each of its key columns, the chain ends in a slot that is filled,
after at most sixteen references, and every column on the way can hold what is in it. Records may
refer to each other in cycles: a chain around one has no end.

A number stays the same number on the way, or else the key is not known.
-/

namespace UnitOfWork

namespace Key

/-- The number that a component stands for. -/
def int? : Key → Option Int
  | int32 n => some n.toInt
  | int64 n => some n.toInt
  | uuid _ | text _ => none

end Key

namespace KeyKind

/-- Components of the kind are numbers. -/
def IsInteger (kind : KeyKind) : Prop := kind = .int32 ∨ kind = .int64

/-- A column of the kind has room for a number that some component stands for, which has 64 bits at
most. -/
def HasRoom (kind : KeyKind) (n : Int) : Prop :=
  kind = .int32 → Int32.minValue.toInt ≤ n ∧ n ≤ Int32.maxValue.toInt

end KeyKind

namespace Heap

/-- The component that is taken for the key column in the entry is found in a slot, through the key
columns listed. The first of these is the column itself, the last one is not taken from a
reference. -/
inductive Chain (h : Heap) : RecordId → KeyColumn × Option Key → List KeyColumn → Key → Prop
  | slot {r : RecordId} {c : KeyColumn} {k : Key} :
    (∀ field, c.source ≠ .reference field) → Chain h r (c, some k) [c] k
  | reference {r target : RecordId} {c : KeyColumn} {own : Option Key} {field : String}
      {e : KeyColumn × Option Key} {columns : List KeyColumn} {k : Key} :
    c.source = .reference field → (h.get r).references.get? field = some target → target ≠ r →
    (h.get target).keySlots = [e] → Chain h target e columns k →
    Chain h r (c, own) (c :: columns) k

/-- What is left of the component in a slot after each of the columns, from the last one on, has
taken it over. -/
def carry? (columns : List KeyColumn) (k : Key) : Option Key :=
  columns.foldr (fun c k => k.bind (Key.convert? c.kind)) (some k)

/-- For every key column of the record there is a chain of at most so many references, which leaves
the component that the key has in this place. -/
def Derives (h : Heap) (hops : Nat) (r : RecordId) (key : RowKey) : Prop :=
  (h.get r).keySlots.Forall₂ (fun e k => ∃ columns slot,
    h.Chain r e columns slot ∧ columns.length ≤ hops + 1 ∧ carry? columns slot = some k)
    key.components

variable {h : Heap} {r : RecordId} {e : KeyColumn × Option Key} {columns : List KeyColumn}
  {slot k : Key} {key : RowKey} {n : Int}

/-! ## Derivations -/

private theorem Chain.unique {columns' : List KeyColumn} {slot' : Key}
    (hc : h.Chain r e columns slot)
    (hc' : h.Chain r e columns' slot') : columns = columns' ∧ slot = slot' := by
  induction hc generalizing columns' slot' with
  | slot hown =>
    cases hc' with
    | slot => exact ⟨rfl, rfl⟩
    | reference hsource => exact absurd hsource (hown _)
  | reference hsource htarget _ hkey _ ih =>
    cases hc' with
    | slot hown => exact absurd hsource (hown _)
    | reference hsource' htarget' _ hkey' hchain' =>
      cases hsource.symm.trans hsource'
      cases htarget.symm.trans htarget'
      cases hkey.symm.trans hkey'
      obtain ⟨rfl, rfl⟩ := ih hchain'
      exact ⟨rfl, rfl⟩

private theorem carry?_eq_some_cons {c : KeyColumn} : carry? (c :: columns) slot = some k ↔
    ∃ k', carry? columns slot = some k' ∧ k'.convert? c.kind = some k :=
  Option.bind_eq_some_iff

private theorem component?_eq_some {follow : RecordId → Option RowKey} {hops : Nat}
    (hr : (h.get r).HasKinds) (he : e ∈ (h.get r).keySlots)
    (hfollow : ∀ target k, follow target = some ⟨[k]⟩ ↔ ∃ e columns slot,
      (h.get target).keySlots = [e] ∧ h.Chain target e columns slot ∧ columns.length ≤ hops ∧
        carry? columns slot = some k) :
    h.component? follow r e = some k ↔ ∃ columns slot, h.Chain r e columns slot ∧
      columns.length ≤ hops + 1 ∧ carry? columns slot = some k := by
  obtain ⟨c, own⟩ := e
  by_cases hown : ∀ field, c.source ≠ .reference field
  · rw [component?_own hown]
    constructor
    · rintro rfl
      have hkind : k.kind = c.kind := hr _ he k rfl
      exact ⟨[c], k, .slot hown, Nat.le_add_left 1 hops, if_pos hkind⟩
    · rintro ⟨columns, slot, hchain, -, hcarry⟩
      cases hchain with
      | slot =>
        have hkind : slot.kind = c.kind := hr _ he slot rfl
        exact (if_pos hkind).symm.trans hcarry
      | reference hsource => exact absurd hsource (hown _)
  · obtain ⟨field, hsource⟩ : ∃ field, c.source = .reference field := by simpa using hown
    rw [component?_reference hsource, Option.bind_eq_some_iff]
    constructor
    · rintro ⟨target, htarget, hk⟩
      split at hk
      · cases hk
      · next hne =>
        obtain ⟨k', hk', hconverted⟩ := Option.bind_eq_some_iff.mp hk
        obtain ⟨key, hkey, hsingle⟩ := Option.bind_eq_some_iff.mp hk'
        obtain rfl := RowKey.single?_eq_some.mp hsingle
        obtain ⟨e, columns, slot, hslots, hchain, hlength, hcarry⟩ := (hfollow target k').mp hkey
        exact ⟨c :: columns, slot, .reference hsource htarget hne hslots hchain,
          Nat.succ_le_succ hlength, carry?_eq_some_cons.mpr ⟨k', hcarry, hconverted⟩⟩
    · rintro ⟨columns, slot, hchain, hlength, hcarry⟩
      cases hchain with
      | slot hown' => exact absurd hsource (hown' field)
      | @reference _ target _ _ _ e columns _ hsource' htarget hne hslots hchain =>
        cases hsource.symm.trans hsource'
        obtain ⟨k', hcarried, hconverted⟩ := carry?_eq_some_cons.mp hcarry
        refine ⟨target, htarget, ?_⟩
        have hkey : follow target = some ⟨[k']⟩ := (hfollow target k').mpr
          ⟨e, columns, slot, hslots, hchain, Nat.le_of_succ_le_succ hlength, hcarried⟩
        rw [if_neg hne, hkey]
        exact hconverted

private theorem resolve?_eq_some_of_follow {hops : Nat} (hr : (h.get r).HasKinds)
    (hfollow : ∀ target k, h.resolve? hops target = some ⟨[k]⟩ ↔ ∃ e columns slot,
      (h.get target).keySlots = [e] ∧ h.Chain target e columns slot ∧ columns.length ≤ hops ∧
        carry? columns slot = some k) :
    h.resolve? (hops + 1) r = some key ↔ h.Derives hops r key := by
  obtain ⟨ks⟩ := key
  rw [resolve?, Option.map_eq_some_iff, Derives]
  simp only [RowKey.mk.injEq, exists_eq_right, mapM_eq_some, List.forall₂_iff_zip]
  refine and_congr_right fun _ => ⟨fun hks e k hek => ?_, fun hks e k hek => ?_⟩
  · exact (component?_eq_some hr (List.of_mem_zip hek).1 hfollow).mp (hks hek)
  · exact (component?_eq_some hr (List.of_mem_zip hek).1 hfollow).mpr (hks hek)

/-- A key of one component is found through `hops` records exactly when a chain leads to it. -/
theorem resolve?_single (hkinds : ∀ r, (h.get r).HasKinds) (hops : Nat) (r : RecordId) (k : Key) :
    h.resolve? hops r = some ⟨[k]⟩ ↔ ∃ e columns slot, (h.get r).keySlots = [e] ∧
      h.Chain r e columns slot ∧ columns.length ≤ hops ∧ carry? columns slot = some k := by
  induction hops generalizing r k with
  | zero =>
    refine ⟨nofun, ?_⟩
    rintro ⟨e, columns, slot, -, hchain, hlength, -⟩
    cases hchain <;> cases hlength
  | succ hops ih =>
    rw [resolve?_eq_some_of_follow (hkinds r) ih, Derives, List.forall₂_cons_right_iff]
    simp only [List.forall₂_nil_right_iff]
    constructor
    · rintro ⟨e, es, ⟨columns, slot, hchain⟩, rfl, hslots⟩
      exact ⟨e, columns, slot, hslots, hchain⟩
    · rintro ⟨e, columns, slot, hslots, hchain⟩
      exact ⟨e, [], ⟨columns, slot, hchain⟩, rfl, hslots⟩

private theorem resolve?_eq_some (hkinds : ∀ r, (h.get r).HasKinds) {hops : Nat} :
    h.resolve? (hops + 1) r = some key ↔ h.Derives hops r key :=
  resolve?_eq_some_of_follow (hkinds r) (resolve?_single hkinds hops)

/-! ## Numbers along a chain -/

private theorem int?_convert? {kind : KeyKind} {k' : Key} (hkind : kind.IsInteger)
    (hn : k.int? = some n) (hk : k.convert? kind = some k') : k'.int? = some n := by
  rw [Key.convert?] at hk
  split at hk
  · exact Option.some.inj hk ▸ hn
  · cases k with
    | uuid | text => cases hn
    | int32 m =>
      rcases hkind with rfl | rfl
      · contradiction
      · obtain rfl : Key.int64 m.toInt64 = k' := Option.some.inj hk
        rw [Key.int?, Int32.toInt_toInt64]
        exact hn
    | int64 m =>
      rcases hkind with rfl | rfl
      · simp only [Key.ofValue?, Key.toValue, Value.toInt64?, Option.bind_some] at hk
        split at hk
        · next hroom =>
          obtain rfl := Option.some.inj hk
          have hmod : m.toInt.bmod (2 ^ 32) = m.toInt :=
            Int.bmod_eq_of_le hroom.1 (Int.lt_of_le_of_lt hroom.2 (by decide))
          rw [Key.int?, Int64.toInt_toInt32, hmod]
          exact hn
        · cases hk
      · contradiction

private theorem hasRoom_of_int? (hn : k.int? = some n) : k.kind.HasRoom n := by
  intro hkind
  cases k with
  | int32 m =>
    obtain rfl := Option.some.inj hn
    exact ⟨Int32.minValue_le_toInt m, Int32.toInt_le m⟩
  | int64 | uuid | text => cases hkind

private theorem int?_carry? (hcolumns : ∀ c ∈ columns, c.kind.IsInteger) (hn : slot.int? = some n)
    (hk : carry? columns slot = some k) : k.int? = some n ∧ ∀ c ∈ columns, c.kind.HasRoom n := by
  induction columns generalizing k with
  | nil =>
    obtain rfl := Option.some.inj hk
    exact ⟨hn, fun c hc => absurd hc List.not_mem_nil⟩
  | cons c columns ih =>
    obtain ⟨hc, hcolumns⟩ := List.forall_mem_cons.mp hcolumns
    obtain ⟨k', hk', hconverted⟩ := carry?_eq_some_cons.mp hk
    obtain ⟨hn', hroom⟩ := ih hcolumns hk'
    have hint : k.int? = some n := int?_convert? hc hn' hconverted
    refine ⟨hint, List.forall_mem_cons.mpr ⟨?_, hroom⟩⟩
    exact Key.kind_convert? hconverted ▸ hasRoom_of_int? hint

private theorem Chain.int?_isSome (hkinds : ∀ r, (h.get r).HasKinds) (he : e ∈ (h.get r).keySlots)
    (hc : h.Chain r e columns slot) (hcolumns : ∀ c ∈ columns, c.kind.IsInteger) :
    ∃ n, slot.int? = some n := by
  induction hc with
  | @slot r c k =>
    have hkind : k.kind = c.kind := hkinds r _ he k rfl
    have hc : k.kind.IsInteger := hkind ▸ hcolumns c List.mem_cons_self
    cases k with
    | int32 m | int64 m => exact ⟨_, rfl⟩
    | uuid | text => rcases hc with hc | hc <;> cases hc
  | reference _ _ _ hkey _ ih =>
    exact ih (hkey ▸ List.mem_cons_self) fun c hc => hcolumns c (List.mem_cons_of_mem _ hc)

/-! ## The key of a record -/

private theorem Derives.exists_component {hops i : Nat} (hd : h.Derives hops r key)
    (he : (h.get r).keySlots[i]? = some e) (hc : h.Chain r e columns slot) :
    ∃ k, key.components[i]? = some k ∧ carry? columns slot = some k := by
  have hzip : ∀ {e k}, (e, k) ∈ (h.get r).keySlots.zip key.components → _ :=
    (List.forall₂_iff_zip.mp hd).2
  have hi : i < key.components.length :=
    hd.length_eq ▸ (List.getElem?_eq_some_iff.mp he).1
  refine ⟨key.components[i], List.getElem?_eq_getElem hi, ?_⟩
  have hmem : (e, key.components[i]) ∈ (h.get r).keySlots.zip key.components :=
    List.mem_of_getElem? (List.getElem?_zip_eq_some.mpr ⟨he, List.getElem?_eq_getElem hi⟩)
  obtain ⟨columns', slot', hc', -, hcarry⟩ := hzip hmem
  obtain ⟨rfl, rfl⟩ := hc.unique hc'
  exact hcarry

/-- The key of a record is known exactly when it can be derived through at most sixteen references
for each of its columns. It then has a component of the declared kind for each of them, in order. A
component that is taken through columns of numbers only is the number in the slot at the end of the
chain, and there is no key where a column on the way has no room for it. -/
theorem primaryKey?_chains (hkinds : ∀ r, (h.get r).HasKinds) (r : RecordId) :
    (∀ key, h.primaryKey? r = some key ↔ h.Derives maxReferenceDepth r key) ∧
    (∀ key, h.primaryKey? r = some key →
      key.components.map Key.kind = (h.get r).type.key.map (·.kind)) ∧
    ∀ (i : Nat) e columns slot, (h.get r).keySlots[i]? = some e → h.Chain r e columns slot →
      (∀ c ∈ columns, c.kind.IsInteger) → ∃ n, slot.int? = some n ∧
        (∀ key, h.primaryKey? r = some key →
          ∃ k, key.components[i]? = some k ∧ k.int? = some n) ∧
        ((∃ c ∈ columns, ¬ c.kind.HasRoom n) → h.primaryKey? r = none) := by
  refine ⟨fun key => resolve?_eq_some hkinds, fun key => kinds_primaryKey? (hkinds r), ?_⟩
  intro i e columns slot he hc hcolumns
  obtain ⟨n, hn⟩ := hc.int?_isSome hkinds (List.mem_of_getElem? he) hcolumns
  have hcomponent : ∀ key, h.primaryKey? r = some key → ∃ k, key.components[i]? = some k ∧
      k.int? = some n ∧ ∀ c ∈ columns, c.kind.HasRoom n := by
    intro key hkey
    have hd : h.Derives maxReferenceDepth r key := (resolve?_eq_some hkinds).mp hkey
    obtain ⟨k, hk, hcarry⟩ := hd.exists_component he hc
    exact ⟨k, hk, int?_carry? hcolumns hn hcarry⟩
  refine ⟨n, hn, fun key hkey => ?_, ?_⟩
  · obtain ⟨k, hk, hint, -⟩ := hcomponent key hkey
    exact ⟨k, hk, hint⟩
  · rintro ⟨c, hc, hroom⟩
    rw [Option.eq_none_iff_forall_ne_some]
    intro key hkey
    obtain ⟨-, -, -, hrooms⟩ := hcomponent key hkey
    exact hroom (hrooms c hc)

/-! A badge has its key from a card, as a number of 32 bits, and a stamp has its key from a badge
and from itself. -/

def cardType : RecordType where
  name := "card"
  table := "card"
  store := "main"
  key := [.bigInt "serial" .generated]
  columns := []
  references := []
  key_ne_nil := by simp
  sources_declared := by simp [KeyColumn.undeclared?, KeyColumn.bigInt]

private theorem ofSqlType?_integer : KeyKind.ofSqlType? .integer = some .int32 := rfl

def badgeColumn : KeyColumn :=
  { name := "card_id", sqlType := .integer, source := .reference "card", kind := .int32,
    kind_eq := ofSqlType?_integer }

def badgeType : RecordType where
  name := "badge"
  table := "badge"
  store := "main"
  key := [badgeColumn]
  columns := []
  references := [{ name := "card", column := "card_id", target := "card" }]
  key_ne_nil := by simp
  sources_declared := by decide

def stampColumn : KeyColumn := .bigInt "badge_id" (.reference "badge")

def stampType : RecordType where
  name := "stamp"
  table := "stamp"
  store := "main"
  key := [stampColumn, .bigInt "number" .supplied]
  columns := []
  references := [{ name := "badge", column := "badge_id", target := "badge" }]
  key_ne_nil := by simp
  sources_declared := by decide

def card (n : Int64) : Record := (Record.persisted cardType).setSlot 0 (.int64 n)

def badge : Record :=
  { Record.create badgeType with references := (∅ : NameMap RecordId).insert "card" ⟨0⟩ }

def stamp : Record :=
  { (Record.create stampType).setSlot 1 (.int64 5) with
    references := (∅ : NameMap RecordId).insert "badge" ⟨1⟩ }

def stamped (n : Int64) : Heap :=
  (((∅ : Heap).set ⟨0⟩ (card n)).set ⟨1⟩ badge).set ⟨2⟩ stamp

private theorem card_hasKinds (n : Int64) : (card n).HasKinds := by
  intro e he k hk
  obtain rfl : e = (.bigInt "serial" .generated, some (.int64 n)) := List.mem_singleton.mp he
  obtain rfl : Key.int64 n = k := Option.some.inj hk
  rfl

private theorem stamped_hasKinds (n : Int64) (r : RecordId) : ((stamped n).get r).HasKinds := by
  simp only [stamped, get_set]
  split
  · exact (by decide : stamp.HasKinds)
  split
  · exact (by decide : badge.HasKinds)
  split
  · exact card_hasKinds n
  · exact (by decide : (Record.persisted default).HasKinds)

private theorem stamped_chain (n : Int64) : (stamped n).Chain ⟨2⟩ (stampColumn, none)
    [stampColumn, badgeColumn, .bigInt "serial" .generated] (.int64 n) := by
  have hcard : (stamped n).Chain ⟨0⟩ (.bigInt "serial" .generated, some (.int64 n))
      [.bigInt "serial" .generated] (.int64 n) := .slot nofun
  have hbadge : (stamped n).Chain ⟨1⟩ (badgeColumn, none)
      [badgeColumn, .bigInt "serial" .generated] (.int64 n) :=
    .reference rfl rfl (by decide) rfl hcard
  exact .reference rfl rfl (by decide) rfl hbadge

/-- A small number is carried through both references, one of more than 32 bits through none. -/
theorem primaryKey?_chains_stamped :
    (∀ n r, ((stamped n).get r).HasKinds) ∧
      (stamped 7).primaryKey? ⟨2⟩ = some ⟨[.int64 7, .int64 5]⟩ ∧
      (stamped 3000000000).primaryKey? ⟨2⟩ = none := by
  refine ⟨stamped_hasKinds, ?_, ?_⟩
  · have hown : (stamped 7).Chain ⟨2⟩ (.bigInt "number" .supplied, some (.int64 5))
        [.bigInt "number" .supplied] (.int64 5) := .slot nofun
    refine ((primaryKey?_chains (stamped_hasKinds 7) ⟨2⟩).1 _).mpr ?_
    exact .cons ⟨_, _, stamped_chain 7, by decide, rfl⟩
      (.cons ⟨_, _, hown, by decide, rfl⟩ .nil)
  · obtain ⟨n, hn, -, hnone⟩ := (primaryKey?_chains (stamped_hasKinds 3000000000) ⟨2⟩).2.2 0 _ _ _
      rfl (stamped_chain 3000000000) (by simp [KeyKind.IsInteger, stampColumn, badgeColumn,
        KeyColumn.bigInt])
    obtain rfl : 3000000000 = n := Option.some.inj hn
    refine hnone ⟨badgeColumn, by simp, fun hroom => ?_⟩
    exact absurd (hroom rfl).2 (by decide)

end Heap

end UnitOfWork
