import Mathlib.Data.List.Nodup
import Mathlib.Data.List.ReduceOption
import UnitOfWork.Data.NameMap
import UnitOfWork.Tracking.IdentitySet

/-!
# What the containers hold

Membership after each operation on finite maps, maps from names and sets of records. A set of
records keeps the place of each member; while places and slots agree, a walk meets every member
once.
-/

namespace UnitOfWork

section Walks

variable {ε α β : Type} {l : List α} {l' : List β}

theorem exists_of_mem_forall₂ {R : α → β → Prop} (h : l.Forall₂ R l') {b : β} (hb : b ∈ l') :
    ∃ a ∈ l, R a b := by
  induction h with
  | nil => cases hb
  | @cons a b' l l' hab _ ih =>
    rcases List.mem_cons.mp hb with rfl | hb
    · exact ⟨a, List.mem_cons_self, hab⟩
    · obtain ⟨a', ha', hr⟩ := ih hb
      exact ⟨a', List.mem_cons_of_mem a ha', hr⟩

theorem mapM_eq_ok {f : α → Except ε β} :
    l.mapM f = .ok l' ↔ l.Forall₂ (fun a b => f a = .ok b) l' := by
  induction l generalizing l' with
  | nil =>
    rw [List.forall₂_nil_left_iff]
    exact ⟨fun h => (Except.ok.inj h).symm, fun h => h ▸ rfl⟩
  | cons a l ih =>
    rw [List.mapM_cons, List.forall₂_cons_left_iff]
    constructor
    · intro h
      cases ha : f a with
      | error e => rw [ha] at h; cases h
      | ok b =>
        cases hl : l.mapM f with
        | error e => rw [ha, hl] at h; cases h
        | ok bs =>
          rw [ha, hl] at h
          exact ⟨b, bs, rfl, ih.mp hl, (Except.ok.inj h).symm⟩
    · rintro ⟨b, bs, hb, hbs, rfl⟩
      rw [hb, ih.mpr hbs]
      rfl

theorem mapM_ok {f : α → Except ε β} (h : l.mapM f = .ok l') :
    (∀ a ∈ l, ∃ b ∈ l', f a = .ok b) ∧ ∀ b ∈ l', ∃ a ∈ l, f a = .ok b := by
  have hsteps := mapM_eq_ok.mp h
  exact ⟨fun a ha => exists_of_mem_forall₂ hsteps.flip ha,
    fun b hb => exists_of_mem_forall₂ hsteps hb⟩

theorem mapM_error {f : α → Except ε β} {e : ε} (h : l.mapM f = .error e) :
    ∃ a ∈ l, f a = .error e := by
  induction l with
  | nil => cases h
  | cons a l ih =>
    rw [List.mapM_cons] at h
    cases ha : f a with
    | error e' =>
      rw [ha] at h
      cases h
      exact ⟨a, List.mem_cons_self, ha⟩
    | ok b =>
      cases hl : l.mapM f with
      | error e' =>
        rw [ha, hl] at h
        cases h
        obtain ⟨a', ha', he⟩ := ih hl
        exact ⟨a', List.mem_cons_of_mem a ha', he⟩
      | ok bs =>
        rw [ha, hl] at h
        cases h

theorem exists_forall₂ {R : α → β → Prop} (h : ∀ a ∈ l, ∃ b, R a b) : ∃ l', l.Forall₂ R l' := by
  induction l with
  | nil => exact ⟨[], .nil⟩
  | cons a l ih =>
    obtain ⟨b, hb⟩ := h a List.mem_cons_self
    obtain ⟨bs, hbs⟩ := ih fun a' ha' => h a' (List.mem_cons_of_mem _ ha')
    exact ⟨b :: bs, .cons hb hbs⟩

theorem exists_mapM_ok {f : α → Except ε β} (h : ∀ a ∈ l, ∃ b, f a = .ok b) :
    ∃ l', l.mapM f = .ok l' := by
  obtain ⟨l', hl'⟩ := exists_forall₂ h
  exact ⟨l', mapM_eq_ok.mpr hl'⟩

theorem mapM_eq_some {f : α → Option β} :
    l.mapM f = some l' ↔ l.Forall₂ (fun a b => f a = some b) l' := by
  induction l generalizing l' with
  | nil => simp [eq_comm]
  | cons a l ih =>
    rw [List.mapM_cons, List.forall₂_cons_left_iff]
    constructor
    · intro h
      obtain ⟨b, hb, h⟩ := Option.bind_eq_some_iff.mp h
      obtain ⟨bs, hbs, h⟩ := Option.bind_eq_some_iff.mp h
      exact ⟨b, bs, hb, ih.mp hbs, (Option.some.inj h).symm⟩
    · rintro ⟨b, bs, hb, hbs, rfl⟩
      rw [hb, ih.mpr hbs]
      rfl

theorem mapM_some {f : α → Option β} (h : l.mapM f = some l') : ∀ a ∈ l, (f a).isSome := by
  intro a ha
  obtain ⟨b, -, hb⟩ := exists_of_mem_forall₂ (mapM_eq_some.mp h).flip ha
  simp [hb]

theorem isSome_mapM {f : α → Option β} (h : ∀ a ∈ l, (f a).isSome) : (l.mapM f).isSome := by
  obtain ⟨l', hl'⟩ := exists_forall₂ fun a ha => Option.isSome_iff_exists.mp (h a ha)
  exact Option.isSome_iff_exists.mpr ⟨l', mapM_eq_some.mpr hl'⟩

theorem length_mapM_some {f : α → Option β} (h : l.mapM f = some l') : l'.length = l.length :=
  (mapM_eq_some.mp h).length_eq.symm

theorem mapM_some_of_forall {f g : α → Option β} (hfg : ∀ a b, f a = some b → g a = some b)
    (h : l.mapM f = some l') : l.mapM g = some l' :=
  mapM_eq_some.mpr ((mapM_eq_some.mp h).imp hfg)

theorem mapM_some_of_forall₂ {γ : Type} {m : List γ} {f : α → Option β} {g : γ → Option β}
    (hfg : l.Forall₂ (fun a c => ∀ b, f a = some b → g c = some b) m)
    (h : l.mapM f = some l') : m.mapM g = some l' := by
  rw [mapM_eq_some] at h ⊢
  induction hfg generalizing l' with
  | nil =>
    cases h
    exact .nil
  | cons hac _ ih =>
    cases h with
    | cons hb hbs => exact .cons (hac _ hb) (ih hbs)

theorem mapM_congr {f g : α → Option β} (h : ∀ a ∈ l, f a = g a) : l.mapM f = l.mapM g := by
  induction l with
  | nil => rfl
  | cons a l ih =>
    rw [List.mapM_cons, List.mapM_cons, h a List.mem_cons_self,
      ih fun a' ha' => h a' (List.mem_cons_of_mem _ ha')]

end Walks

namespace FinMap

variable {κ α : Type}

theorem mem_values {m : FinMap κ α} {a : α} : a ∈ m.values ↔ ∃ k, (k, a) ∈ m.entries := by
  simp [values]

@[simp]
theorem values_empty : (∅ : FinMap κ α).values = [] := rfl

theorem map_values {m : FinMap κ α} {f : α → Option κ}
    (hf : ∀ e ∈ m.entries, f e.2 = some e.1) : m.values.map f = m.keys.map some := by
  rw [values, keys, List.map_map, List.map_map]
  exact List.map_congr_left hf

theorem nodup_map_values {m : FinMap κ α} {f : α → Option κ}
    (hf : ∀ e ∈ m.entries, f e.2 = some e.1) : (m.values.map f).Nodup := by
  rw [map_values hf]
  exact m.nodup.map fun _ _ => Option.some.inj

variable [DecidableEq κ]

theorem mem_of_lookup {k : κ} {a : α} {l : List (κ × α)} (h : lookup k l = some a) :
    (k, a) ∈ l := by
  induction l with
  | nil => simp [lookup] at h
  | cons e rest ih =>
    obtain ⟨l, b⟩ := e
    by_cases hk : l = k
    · simp only [lookup, hk, if_true, Option.some.injEq] at h
      simp [hk, h]
    · simp only [lookup, hk, if_false] at h
      exact List.mem_cons_of_mem _ (ih h)

theorem mem_values_of_get? {m : FinMap κ α} {k : κ} {a : α} (h : m.get? k = some a) :
    a ∈ m.values :=
  mem_values.mpr ⟨k, mem_of_lookup h⟩

theorem lookup_of_mem {k : κ} {a : α} {l : List (κ × α)} (hn : (l.map Prod.fst).Nodup)
    (h : (k, a) ∈ l) : lookup k l = some a := by
  induction l with
  | nil => simp at h
  | cons e rest ih =>
    obtain ⟨l, b⟩ := e
    have hc := List.nodup_cons.mp hn
    rcases List.mem_cons.mp h with he | hm
    · simp only [Prod.mk.injEq] at he
      simp [lookup, he.1, he.2]
    · have hk : l ≠ k := by
        intro hlk
        exact hc.1 (List.mem_map.mpr ⟨(k, a), hm, hlk.symm⟩)
      simp [lookup, hk, ih hc.2 hm]

theorem exists_get?_of_mem_values {m : FinMap κ α} {a : α} (h : a ∈ m.values) :
    ∃ k, m.get? k = some a := by
  obtain ⟨k, hk⟩ := mem_values.mp h
  exact ⟨k, lookup_of_mem m.nodup hk⟩

theorem mem_keys {m : FinMap κ α} {k : κ} : k ∈ m.keys ↔ m.contains k := by
  rw [contains, Option.isSome_iff_exists]
  constructor
  · intro hk
    obtain ⟨⟨l, a⟩, he, rfl⟩ := List.mem_map.mp hk
    exact ⟨a, lookup_of_mem m.nodup he⟩
  · intro hk
    obtain ⟨a, ha⟩ := hk
    exact List.mem_map.mpr ⟨(k, a), mem_of_lookup ha, rfl⟩

theorem get?_insert_of_ne {m : FinMap κ α} {k j : κ} {a : α} (h : k ≠ j) :
    (m.insert k a).get? j = m.get? j := by rw [get?_insert, if_neg h]

theorem get?_erase_of_ne {m : FinMap κ α} {k j : κ} (h : k ≠ j) :
    (m.erase k).get? j = m.get? j := by rw [get?_erase, if_neg h]

theorem of_get?_insert {m : FinMap κ α} {k j : κ} {a x : α} (h : (m.insert k a).get? j = some x) :
    k = j ∧ a = x ∨ m.get? j = some x := by
  rw [get?_insert] at h
  split at h
  · next hkey => exact .inl ⟨hkey, Option.some.inj h⟩
  · exact .inr h

theorem of_get?_erase {m : FinMap κ α} {k j : κ} {x : α} (h : (m.erase k).get? j = some x) :
    m.get? j = some x := by
  rw [get?_erase] at h
  split at h
  · cases h
  · exact h

theorem mem_enter {k : κ} {a : α} {e : κ × α} {l : List (κ × α)} (h : e ∈ enter k a l) :
    e = (k, a) ∨ e ∈ l := by
  induction l with
  | nil => exact .inl (by simpa [enter] using h)
  | cons d rest ih =>
    obtain ⟨l, b⟩ := d
    by_cases hk : l = k
    · simp only [enter, hk, if_true, List.mem_cons] at h
      exact h.imp_right (List.mem_cons_of_mem _)
    · simp only [enter, hk, if_false] at h
      rcases List.mem_cons.mp h with he | hm
      · exact .inr (by simp [he])
      · exact (ih hm).imp_right (List.mem_cons_of_mem _)

theorem mem_values_insert {m : FinMap κ α} {k : κ} {a x : α} (h : x ∈ (m.insert k a).values) :
    x = a ∨ x ∈ m.values := by
  obtain ⟨l, hl⟩ := mem_values.mp h
  rcases mem_enter hl with he | hm
  · exact .inl (Prod.mk.inj he).2
  · exact .inr (mem_values.mpr ⟨l, hm⟩)

theorem mem_values_erase {m : FinMap κ α} {k : κ} {x : α} (h : x ∈ (m.erase k).values) :
    x ∈ m.values := by
  obtain ⟨l, hl⟩ := mem_values.mp h
  exact mem_values.mpr ⟨l, (leave_sublist k m.entries).subset hl⟩

theorem mem_keys_insert {m : FinMap κ α} {k j : κ} {a : α} :
    j ∈ (m.insert k a).keys ↔ j = k ∨ j ∈ m.keys :=
  mem_keys_enter

theorem insert_of_get? {m : FinMap κ α} {k : κ} {a : α} (ha : m.get? k = some a) :
    m.insert k a = m := by
  obtain ⟨entries, nodup⟩ := m
  suffices henter : enter k a entries = entries by simp only [insert, henter]
  change lookup k entries = some a at ha
  clear nodup
  induction entries with
  | nil => cases ha
  | cons e rest ih =>
    obtain ⟨l, b⟩ := e
    rw [lookup] at ha
    rw [enter]
    split at ha
    · next hl => rw [if_pos hl, ← hl, Option.some.inj ha]
    · next hl => rw [if_neg hl, ih ha]

theorem count_values_insert [DecidableEq α] {m : FinMap κ α} (k : κ) {a : α} (ha : a ∉ m.values) :
    (m.insert k a).values.count a = 1 := by
  obtain ⟨entries, nodup⟩ := m
  change a ∉ entries.map Prod.snd at ha
  change ((enter k a entries).map Prod.snd).count a = 1
  clear nodup
  induction entries with
  | nil => simp [enter]
  | cons e rest ih =>
    obtain ⟨l, x⟩ := e
    obtain ⟨hx, hrest⟩ := not_or.mp (mt List.mem_cons.mpr ha)
    rw [enter]
    split
    · rw [List.map_cons, List.count_cons_self, List.count_eq_zero_of_not_mem hrest]
    · rw [List.map_cons, List.count_cons_of_ne (Ne.symm hx), ih hrest]

end FinMap

namespace NameMap

variable {α : Type}

theorem nodup_names (m : NameMap α) : m.names.Nodup :=
  m.sorted.imp fun h => String.ne_of_lt h

theorem mem_entries {m : NameMap α} {name : String} {a : α} :
    (name, a) ∈ m.entries ↔ m.get? name = some a :=
  ⟨FinMap.lookup_of_mem m.nodup_names, FinMap.mem_of_lookup⟩

theorem mem_names {m : NameMap α} {name : String} :
    name ∈ m.names ↔ (m.get? name).isSome := by
  constructor
  · intro h
    obtain ⟨⟨n, a⟩, he, rfl⟩ := List.mem_map.mp h
    simp [mem_entries.mp he]
  · intro h
    obtain ⟨a, ha⟩ := Option.isSome_iff_exists.mp h
    exact List.mem_map.mpr ⟨(name, a), mem_entries.mpr ha, rfl⟩

theorem ext_get? {m m' : NameMap α} (h : ∀ name, m.get? name = m'.get? name) : m = m' := by
  have hmem : ∀ e, e ∈ m.entries ↔ e ∈ m'.entries := by
    rintro ⟨name, a⟩
    rw [mem_entries, mem_entries, h name]
  have hperm : m.entries.Perm m'.entries :=
    (List.perm_ext_iff_of_nodup m.nodup_names.of_map m'.nodup_names.of_map).mpr hmem
  have hentries : m.entries = m'.entries := by
    refine hperm.eq_of_pairwise (fun e e' _ _ hlt hlt' => ?_) (List.pairwise_map.mp m.sorted)
      (List.pairwise_map.mp m'.sorted)
    exact absurd (String.lt_trans hlt hlt') (String.lt_irrefl _)
  cases m
  cases m'
  cases hentries
  rfl

theorem insert_of_get? {m : NameMap α} {name : String} {a : α} (ha : m.get? name = some a) :
    m.insert name a = m := by
  refine ext_get? fun other => ?_
  rw [get?_insert]
  split
  · next he => rw [← he, ha]
  · rfl

theorem mem_values {m : NameMap α} {a : α} : a ∈ m.values ↔ ∃ name, m.get? name = some a := by
  simp only [values, List.mem_map, Prod.exists, exists_eq_right, mem_entries]

theorem get?_insertAll (m : NameMap α) (l : List (String × α)) (name : String) {a : α}
    (h : (m.insertAll l).get? name = some a) : m.get? name = some a ∨ (name, a) ∈ l := by
  induction l generalizing m with
  | nil => exact .inl h
  | cons e rest ih =>
    rcases ih (m.insert e.1 e.2) h with hi | hm
    · rw [get?_insert] at hi
      by_cases he : e.1 = name
      · rw [if_pos he, Option.some.injEq] at hi
        exact .inr (List.mem_cons.mpr (.inl (Prod.ext he.symm hi.symm)))
      · exact .inl (by rwa [if_neg he] at hi)
    · exact .inr (List.mem_cons_of_mem _ hm)

theorem get?_insertAll_of_nodup (m : NameMap α) {l : List (String × α)}
    (hn : (l.map Prod.fst).Nodup) (name : String) :
    (m.insertAll l).get? name = (FinMap.lookup name l).or (m.get? name) := by
  induction l generalizing m with
  | nil => rfl
  | cons e rest ih =>
    obtain ⟨hnot, hrest⟩ := List.nodup_cons.mp hn
    change ((m.insert e.1 e.2).insertAll rest).get? name = _
    rw [ih _ hrest, get?_insert, FinMap.lookup]
    split
    · next he =>
      rw [FinMap.lookup_eq_none (he ▸ hnot)]
      rfl
    · rfl

theorem get?_insertAll_entries (m m' : NameMap α) (name : String) :
    (m.insertAll m'.entries).get? name = (m'.get? name).or (m.get? name) :=
  get?_insertAll_of_nodup m m'.nodup_names name

end NameMap

namespace NameSet

theorem mem_add {s : NameSet} {name other : String} :
    other ∈ (s.add name).names ↔ other = name ∨ other ∈ s.names := by
  simp only [NameMap.mem_names, add, NameMap.get?_insert]
  by_cases h : name = other
  · simp [h]
  · simp [h, Ne.symm h]

theorem mem_addAll {s : NameSet} {l : List String} {name : String} :
    name ∈ (s.addAll l).names ↔ name ∈ s.names ∨ name ∈ l := by
  induction l generalizing s with
  | nil => simp [addAll]
  | cons n l ih =>
    rw [show s.addAll (n :: l) = (s.add n).addAll l from rfl, ih, mem_add, List.mem_cons]
    tauto

end NameSet

namespace IdentitySet

/-- Every slot knows its record and every place its slot. -/
def Coherent (s : IdentitySet) : Prop :=
  ∀ r i, s.slots[i]? = some (some r) ↔ s.places.get? r = some i

theorem coherent_empty : (∅ : IdentitySet).Coherent := by
  intro r i
  change ([] : List (Option RecordId))[i]? = _ ↔ (none : Option Nat) = _
  simp

theorem mem_toList_iff_slot {s : IdentitySet} {r : RecordId} :
    r ∈ s.toList ↔ ∃ i : Nat, s.slots[i]? = some (some r) := by
  rw [toList, List.reduceOption_mem_iff, List.mem_iff_getElem?]

theorem Coherent.mem_toList {s : IdentitySet} (h : s.Coherent) {r : RecordId} :
    r ∈ s.toList ↔ s.contains r := by
  rw [mem_toList_iff_slot, contains, FinMap.contains, Option.isSome_iff_exists]
  exact exists_congr fun i => h r i

theorem Coherent.nodup {s : IdentitySet} (h : s.Coherent) : s.toList.Nodup := by
  rw [toList, List.reduceOption, List.Nodup, List.pairwise_filterMap, List.pairwise_iff_getElem]
  intro i j hi hj hij r hr q hq hrq
  have hir : s.slots[i]? = some (some r) := by simpa [List.getElem?_eq_getElem hi] using hr
  have hjr : s.slots[j]? = some (some r) := by
    simpa [List.getElem?_eq_getElem hj, hrq] using hq
  have he : some i = some j := ((h r i).mp hir).symm.trans ((h r j).mp hjr)
  exact Nat.ne_of_lt hij (Option.some.inj he)

theorem Coherent.insert {s : IdentitySet} (h : s.Coherent) (r : RecordId) :
    (s.insert r).Coherent := by
  rw [IdentitySet.insert, add]
  split
  · exact h
  · next hc =>
    have hr : s.places.get? r = none := by
      simpa [contains, FinMap.contains] using hc
    intro q i
    simp only [FinMap.get?_insert]
    by_cases hq : r = q
    · subst hq
      simp only [if_true, Option.some.injEq]
      constructor
      · intro hs
        rcases Nat.lt_trichotomy i s.slots.length with hi | hi | hi
        · rw [List.getElem?_append_left hi, h r i, hr] at hs
          exact absurd hs (by simp)
        · exact hi.symm
        · rw [List.getElem?_append_right (Nat.le_of_lt hi),
            List.getElem?_eq_none (by simp; omega)] at hs
          exact absurd hs (by simp)
      · intro he
        subst he
        simp
    · rw [if_neg hq, ← h q i]
      rcases Nat.lt_trichotomy i s.slots.length with hi | hi | hi
      · rw [List.getElem?_append_left hi]
      · subst hi
        simp [hq]
      · rw [List.getElem?_eq_none (by simp; omega), List.getElem?_eq_none (by omega)]

theorem Coherent.erase {s : IdentitySet} (h : s.Coherent) (r : RecordId) :
    (s.erase r).Coherent := by
  rw [IdentitySet.erase, remove]
  split
  · exact h
  · next i hi =>
    dsimp only
    split
    · exact coherent_empty
    · intro q j
      simp only [FinMap.get?_erase, List.getElem?_set]
      have hslot := (h r i).mpr hi
      by_cases hq : r = q
      · subst hq
        simp only [if_true, reduceCtorEq, iff_false]
        by_cases hij : i = j
        · simp only [hij, if_true]
          split <;> simp
        · rw [if_neg hij, h r j, hi, Option.some.injEq]
          exact hij
      · rw [if_neg hq]
        by_cases hij : i = j
        · subst hij
          have hne : s.places.get? q ≠ some i := by
            intro hc
            have := (h q i).mpr hc
            rw [hslot] at this
            exact hq (Option.some.inj (Option.some.inj this))
          simp only [if_true]
          split <;> simp [hne]
        · rw [if_neg hij, h q j]

theorem Coherent.mem_insert {s : IdentitySet} (h : s.Coherent) {r q : RecordId} :
    q ∈ (s.insert r).toList ↔ q = r ∨ q ∈ s.toList := by
  rw [(h.insert r).mem_toList, h.mem_toList, IdentitySet.insert, add]
  split
  · next hc =>
    constructor
    · exact .inr
    · rintro (rfl | hq)
      · exact hc
      · exact hq
  · simp only [contains, FinMap.contains, FinMap.get?_insert]
    by_cases hq : r = q
    · simp [hq]
    · simp [hq, Ne.symm hq]

theorem Coherent.mem_erase {s : IdentitySet} (h : s.Coherent) {r q : RecordId} :
    q ∈ (s.erase r).toList ↔ q ≠ r ∧ q ∈ s.toList := by
  rw [mem_toList_iff_slot, mem_toList_iff_slot, IdentitySet.erase, remove]
  split
  · next hn =>
    constructor
    · rintro ⟨i, hi⟩
      refine ⟨?_, i, hi⟩
      intro he
      subst he
      rw [(h q i).mp hi] at hn
      exact absurd hn (by simp)
    · exact And.right
  · next i hi =>
    dsimp only
    split
    · next hz =>
      -- Nothing is left, so that `r` was the only member.
      have honly : ∀ x j, s.places.get? x = some j → x = r := by
        intro x j hx
        by_contra hne
        have hx' : (s.places.erase r).get? x = some j := by
          rw [FinMap.get?_erase_of_ne (Ne.symm hne), hx]
        have hm := FinMap.mem_of_lookup hx'
        rw [List.length_eq_zero_iff.mp hz] at hm
        simp at hm
      constructor
      · rintro ⟨j, hj⟩
        change ([] : List (Option RecordId))[j]? = _ at hj
        simp at hj
      · rintro ⟨hne, j, hj⟩
        have hslot := (h q j).mp hj
        exact absurd (honly q j hslot) hne
    · have hslot := (h r i).mpr hi
      constructor
      · rintro ⟨j, hj⟩
        rw [List.getElem?_set] at hj
        by_cases hij : i = j
        · rw [if_pos hij] at hj
          split at hj <;> simp at hj
        · rw [if_neg hij] at hj
          refine ⟨?_, j, hj⟩
          intro he
          subst he
          have := (h q j).mp hj
          rw [hi, Option.some.injEq] at this
          exact hij this
      · rintro ⟨hne, j, hj⟩
        refine ⟨j, ?_⟩
        rw [List.getElem?_set, if_neg, hj]
        intro he
        subst he
        rw [hslot] at hj
        exact hne (Option.some.inj (Option.some.inj hj)).symm

theorem Coherent.toList_erase {s : IdentitySet} (h : s.Coherent) (r : RecordId) :
    (s.erase r).toList = s.toList.filter (· ≠ r) := by
  cases hplace : s.places.get? r with
  | none =>
    have hr : r ∉ s.toList := by
      rw [h.mem_toList, contains, FinMap.contains, hplace]
      exact Bool.false_ne_true
    rw [IdentitySet.erase, remove, hplace]
    refine (List.filter_eq_self.mpr fun q hq => ?_).symm
    exact decide_eq_true fun he => hr (he ▸ hq)
  | some i =>
    obtain ⟨front, back, hslots, hi⟩ : ∃ front back, s.slots = front ++ some r :: back ∧
        front.length = i := by
      obtain ⟨hlt, hslot⟩ := List.getElem?_eq_some_iff.mp ((h r i).mpr hplace)
      exact ⟨s.slots.take i, s.slots.drop (i + 1), by
        rw [← hslot, ← List.drop_eq_getElem_cons, List.take_append_drop],
        List.length_take_of_le (Nat.le_of_lt hlt)⟩
    have hlist : s.toList = front.reduceOption ++ r :: back.reduceOption := by
      rw [toList, hslots, List.reduceOption_append, List.reduceOption_cons_of_some]
    have hother : ∀ q ∈ front.reduceOption ++ back.reduceOption, q ≠ r := by
      have hnodup := h.nodup
      rw [hlist, List.nodup_middle] at hnodup
      rintro q hq rfl
      exact (List.nodup_cons.mp hnodup).1 hq
    have hfilter : s.toList.filter (· ≠ r) = front.reduceOption ++ back.reduceOption := by
      rw [hlist, List.filter_append, List.filter_cons_of_neg (by simp), ← List.filter_append]
      exact List.filter_eq_self.mpr fun q hq => decide_eq_true (hother q hq)
    rw [hfilter, IdentitySet.erase, remove, hplace]
    dsimp only
    split
    · next hempty =>
      have hnil : (s.erase r).toList = [] := by
        rw [IdentitySet.erase, remove, hplace]
        simp only [hempty, if_true]
        rfl
      refine (List.eq_nil_iff_forall_not_mem.mpr fun q hq => ?_).symm
      have hmem : q ∈ s.toList := by
        rw [hlist]
        exact List.mem_append.mpr ((List.mem_append.mp hq).imp_right (List.mem_cons_of_mem r))
      have hleft := h.mem_erase.mpr ⟨hother q hq, hmem⟩
      rw [hnil] at hleft
      cases hleft
    · rw [toList, hslots, ← hi]
      simp [List.set_append_right, List.reduceOption_append]

@[simp]
theorem toList_empty : (∅ : IdentitySet).toList = [] := rfl

end IdentitySet

end UnitOfWork
