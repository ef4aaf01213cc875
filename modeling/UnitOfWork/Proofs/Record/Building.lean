import UnitOfWork.Proofs.Commit.Inserting
import UnitOfWork.Proofs.Record.Resolution
import UnitOfWork.Proofs.Record.Setters

/-!
# How records are built

A record is built by assigning to a blank one, and by its setters from then on. Whatever the order,
a slot of its key that is filled belongs to a column that is not taken from a reference, and has the
kind of that column. So the components of a known key have the kinds of the key columns, also of
those that are taken through references.
-/

namespace UnitOfWork

private theorem map_mapM_some {α β γ : Type} {f : α → Option β} {g : β → γ} {k : α → γ} {l : List α}
    {l' : List β} (h : l.mapM f = some l') (hg : ∀ a ∈ l, ∀ b, f a = some b → g b = k a) :
    l'.map g = l.map k := by
  induction l generalizing l' with
  | nil =>
    obtain rfl : [] = l' := Option.some.inj h
    rfl
  | cons a l ih =>
    rw [List.mapM_cons] at h
    obtain ⟨b, hb, h⟩ := Option.bind_eq_some_iff.mp h
    obtain ⟨bs, hbs, h⟩ := Option.bind_eq_some_iff.mp h
    obtain rfl : b :: bs = l' := Option.some.inj h
    rw [List.map_cons, List.map_cons, hg a List.mem_cons_self b hb,
      ih hbs fun c hc => hg c (List.mem_cons_of_mem a hc)]

private theorem Key.kind_ofValue? {kind : KeyKind} {v : Value} {k : Key}
    (hk : Key.ofValue? kind v = some k) : k.kind = kind := by
  cases kind with
  | int32 =>
    obtain ⟨n, -, hn⟩ := Option.bind_eq_some_iff.mp hk
    split at hn
    · obtain rfl := Option.some.inj hn
      rfl
    · cases hn
  | int64 | uuid | text =>
    obtain ⟨x, -, rfl⟩ := Option.map_eq_some_iff.mp hk
    rfl

theorem Key.kind_convert? {kind : KeyKind} {k k' : Key} (hk : k.convert? kind = some k') :
    k'.kind = kind := by
  rw [convert?] at hk
  split at hk
  · next hkind => exact Option.some.inj hk ▸ hkind
  · exact kind_ofValue? hk

namespace Record

variable {x y other : Record} {i : Nat} {c : KeyColumn} {k : Key} {column : String} {v : Value}

/-- The record that a setter takes something from. -/
def Setter.other? : Setter → Option Record
  | merge fetched => some fetched
  | absorb other => some other
  | setValue _ _ | setKey _ _ | setReference _ _ | applyGenerated _ _ | markDeleted | undelete
  | markInserted | setTransient _ | resetChanges | markCommitted => none

/-- What the operations on records make of blank ones. A record takes something only from another
one of its type, since both are copies of one row. -/
inductive Built : Record → Prop
  | create (t : RecordType) : Built (create t)
  | createTransient (t : RecordType) : Built (createTransient t)
  | persisted (t : RecordType) : Built (persisted t)
  | assignValue {x : Record} (column : String) (v : Value) : Built x →
    Built (x.assignValue column v)
  | assignKey {x y : Record} {column : String} {k : Key} : Built x →
    x.assignKey column k = .ok y → Built y
  | assignReference {x y : Record} {field : String} {target : RecordId} : Built x →
    x.assignReference field target = .ok y → Built y
  | set {x : Record} (s : Setter) : Built x → (∀ other ∈ s.other?, Built other) →
    (∀ other ∈ s.other?, other.type = x.type) → Built (s.apply x)

/-- A slot that is filled has the kind of its column, which is not taken from a reference. -/
def Fits (x : Record) : Prop :=
  ∀ (i : Nat) c k, x.type.key[i]? = some c → x.slot? i = some k →
    k.kind = c.kind ∧ ∀ field, c.source ≠ .reference field

/-- A slot that is filled has the kind of its column. -/
def HasKinds (x : Record) : Prop := ∀ e ∈ x.keySlots, ∀ k ∈ e.2, k.kind = e.1.kind

instance (x : Record) : Decidable x.HasKinds :=
  inferInstanceAs (Decidable (∀ e ∈ x.keySlots, ∀ k ∈ e.2, k.kind = e.1.kind))

theorem Fits.hasKinds (hx : x.Fits) : x.HasKinds := by
  rintro ⟨c, slot⟩ he k rfl
  obtain ⟨i, hc, hslot⟩ := mem_keySlots.mp he
  exact (hx i c k hc (by rw [slot?, hslot]; rfl)).1

private theorem Fits.of_slots (hx : x.Fits) (ht : y.type = x.type) (hs : y.slots = x.slots) :
    y.Fits := by
  intro i c k hc hk
  rw [slot?, hs] at hk
  exact hx i c k (ht ▸ hc) hk

private theorem Fits.setSlot (hx : x.Fits) (hc : x.type.key[i]? = some c) (hkind : k.kind = c.kind)
    (hown : ∀ field, c.source ≠ .reference field) : (x.setSlot i k).Fits := by
  intro j d k' hd hk'
  change ((x.slots.set i (some k))[j]?).join = some k' at hk'
  rw [List.getElem?_set] at hk'
  split at hk'
  · next hij =>
    obtain rfl : c = d := Option.some.inj (hc.symm.trans (hij ▸ hd))
    split at hk'
    · obtain rfl : k = k' := Option.some.inj hk'
      exact ⟨hkind, hown⟩
    · cases hk'
  · exact hx j d k' hd hk'

private theorem fill_cases {ss os : List (Option Key)} (hk : ((fill ss os)[i]?).join = some k) :
    (ss[i]?).join = some k ∨ (os[i]?).join = some k := by
  induction ss generalizing os i with
  | nil => exact .inl hk
  | cons s ss ih =>
    cases os with
    | nil => exact .inl hk
    | cons o os =>
      cases i with
      | zero => cases s <;> simp_all [fill]
      | succ i =>
        have hrest : ((fill ss os)[i]?).join = some k := by simpa [fill] using hk
        simpa using ih hrest

private theorem Fits.fillKey (hx : x.Fits) (ho : other.Fits) (ht : other.type = x.type) :
    (x.fillKey other).Fits := by
  intro i c k hc hk
  rcases fill_cases hk with hk | hk
  · exact hx i c k hc hk
  · exact ho i c k (ht ▸ hc) hk

private theorem assignKey_ok (h : x.assignKey column k = .ok y) : ∃ c i, x.type.key[i]? = some c ∧
    k.kind = c.kind ∧ (∀ field, c.source ≠ .reference field) ∧ y = x.setSlot i k := by
  rw [assignKey] at h
  split at h
  · cases h
  · next c i hfound =>
    have hc := (RecordType.keyColumn?_some hfound).1
    split at h
    · cases h
    all_goals
      next hsource =>
      split at h
      · next hkind =>
        refine ⟨c, i, hc, hkind, fun field hf => ?_, (Except.ok.inj h).symm⟩
        rw [hsource] at hf
        cases hf
      · cases h

private theorem Fits.assignKey (hx : x.Fits) (h : x.assignKey column k = .ok y) : y.Fits := by
  obtain ⟨c, i, hc, hkind, hown, rfl⟩ := assignKey_ok h
  exact hx.setSlot hc hkind hown

private theorem Fits.assignReference {field : String} {target : RecordId} (hx : x.Fits)
    (h : x.assignReference field target = .ok y) : y.Fits := by
  rw [Record.assignReference] at h
  split at h
  · obtain rfl := Except.ok.inj h
    exact hx
  · cases h

private theorem Fits.applyGenerated (hx : x.Fits) (h : x.applyGenerated column v = .ok y) :
    y.Fits := by
  rw [Record.applyGenerated] at h
  split at h
  · obtain rfl := Except.ok.inj h
    exact hx
  · next c i hfound =>
    obtain ⟨hc, hp⟩ := RecordType.keyColumn?_some hfound
    split at h
    · next k hk =>
      obtain rfl := Except.ok.inj h
      have hslot : (x.setSlot i k).Fits := by
        refine hx.setSlot hc (Key.kind_ofValue? hk) fun field hf => ?_
        simp [KeyColumn.isGenerated, hf] at hp
      exact hslot
    · cases h

private theorem Fits.toOption {ε : Type} {result : Except ε Record} (hx : x.Fits)
    (h : ∀ y, result = .ok y → y.Fits) : (result.toOption.getD x).Fits := by
  cases result with
  | error e => exact hx
  | ok y => exact h y rfl

private theorem Fits.set (hx : x.Fits) (s : Setter) (ho : ∀ other ∈ s.other?, other.Fits)
    (ht : ∀ other ∈ s.other?, other.type = x.type) : (s.apply x).Fits := by
  cases s with
  | setValue => exact hx
  | setKey column k =>
    refine hx.toOption fun y hy => ?_
    obtain ⟨z, hz, rfl⟩ := map_ok hy
    exact Fits.of_slots (hx.assignKey hz) rfl rfl
  | setReference field target =>
    refine hx.toOption fun y hy => ?_
    obtain ⟨z, hz, rfl⟩ := map_ok hy
    exact Fits.of_slots (hx.assignReference hz) rfl rfl
  | applyGenerated => exact hx.toOption fun y hy => hx.applyGenerated hy
  | merge fetched | absorb fetched => exact hx.fillKey (ho fetched rfl) (ht fetched rfl)
  | markDeleted | undelete | markInserted | setTransient | resetChanges | markCommitted => exact hx

theorem Built.fits (hx : x.Built) : x.Fits := by
  induction hx with
  | create t | createTransient t | persisted t =>
    intro i c k _ hk
    change ((List.replicate t.key.length none)[i]?).join = some k at hk
    rw [List.getElem?_replicate] at hk
    split at hk <;> cases hk
  | assignValue _ _ _ ih => exact ih
  | assignKey _ h ih => exact ih.assignKey h
  | assignReference _ h ih => exact ih.assignReference h
  | set s _ _ ht ih iho => exact ih.set s iho ht

end Record

namespace Heap

variable {h : Heap} {r : RecordId} {key : RowKey}

private theorem kind_component? {follow : RecordId → Option RowKey} {c : KeyColumn}
    {slot : Option Key} {k : Key} (hr : (h.get r).HasKinds) (he : (c, slot) ∈ (h.get r).keySlots)
    (hk : h.component? follow r (c, slot) = some k) : k.kind = c.kind := by
  by_cases hown : ∀ field, c.source ≠ .reference field
  · rw [component?_own hown] at hk
    exact hr _ he k hk
  · obtain ⟨field, hsource⟩ : ∃ field, c.source = .reference field := by simpa using hown
    rw [component?_reference hsource] at hk
    obtain ⟨target, -, hk⟩ := Option.bind_eq_some_iff.mp hk
    split at hk
    · cases hk
    · obtain ⟨own, -, hconverted⟩ := Option.bind_eq_some_iff.mp hk
      exact Key.kind_convert? hconverted

theorem kinds_primaryKey? (hr : (h.get r).HasKinds) (hk : h.primaryKey? r = some key) :
    key.components.map Key.kind = (h.get r).type.key.map (·.kind) := by
  rw [primaryKey?, resolve?] at hk
  obtain ⟨ks, hks, rfl⟩ := Option.map_eq_some_iff.mp hk
  rw [map_mapM_some (k := fun e => e.1.kind) hks fun e he c hk => kind_component? hr he hk,
    ← Record.map_fst_keySlots, List.map_map]
  rfl

end Heap

end UnitOfWork
