import Mathlib
import UnitOfWork.Data.Key
import UnitOfWork.Proofs.Text.Quoted

/-!
# How keys are shown

The components of a key are shown one after the other, with a comma and a blank between them. A
number or a UUID is shown without a comma, and a quoted text can be told from what stands after
it, so the commas inside texts do no harm: two keys whose components have the same kinds are
shown alike only if they are equal. No key is shown as a question mark.
-/

namespace UnitOfWork

variable {x y : List Char}

/-- Either nothing is left or the next component comes, after a comma. -/
def EndsComponent (x : List Char) : Prop := ∀ c ∈ x.head?, c = ','

theorem EndsComponent.nil : EndsComponent [] := by
  intro c hc
  cases hc

theorem EndsComponent.cons : EndsComponent (',' :: x) := fun _ hc => (Option.some.inj hc).symm

private theorem takeWhile_append_of_endsComponent {shown : List Char} (hshown : ',' ∉ shown)
    (hx : EndsComponent x) : (shown ++ x).takeWhile (· != ',') = shown := by
  have hne : ∀ c ∈ shown, (c != ',') = true := fun c hc => bne_iff_ne.mpr fun h => hshown (h ▸ hc)
  have hstop : x.takeWhile (· != ',') = [] := by
    cases x with
    | nil => rfl
    | cons c x =>
      obtain rfl : c = ',' := hx c rfl
      rfl
  rw [List.takeWhile_append_of_pos hne, hstop, List.append_nil]

/-- What is shown without a comma is over at the next one. -/
theorem append_inj_of_endsComponent {s t : List Char} (hs : ',' ∉ s) (ht : ',' ∉ t)
    (hx : EndsComponent x) (hy : EndsComponent y) (h : s ++ x = t ++ y) : s = t ∧ x = y := by
  have hst := congrArg (List.takeWhile (· != ',')) h
  rw [takeWhile_append_of_endsComponent hs hx, takeWhile_append_of_endsComponent ht hy] at hst
  subst hst
  exact ⟨rfl, List.append_cancel_left h⟩

/-! ## Numbers -/

private theorem mem_toList_toString {n : Int} {c : Char} (hc : c ∈ (toString n).toList) :
    c.isDigit ∨ c = '-' := by
  have hdigits : ∀ m : Nat, c ∈ m.repr.toList → c.isDigit := fun m hm =>
    Nat.isDigit_of_mem_toDigits (by decide) (by decide) (Nat.toList_repr ▸ hm)
  rw [Int.toString_eq_repr, Int.repr_eq_if] at hc
  split at hc
  · exact .inl (hdigits _ hc)
  · rw [String.toList_append, List.mem_append] at hc
    rcases hc with hc | hc
    · exact .inr (List.mem_singleton.mp hc)
    · exact .inl (hdigits _ hc)

private theorem toList_toString_ne_nil (n : Int) : (toString n).toList ≠ [] := by
  rw [Int.toString_eq_repr, Int.repr_eq_if]
  split
  · rw [Nat.toList_repr]
    exact Nat.toDigits_ne_nil
  · simp

private theorem comma_not_mem_toString (n : Int) : ',' ∉ (toString n).toList := fun h =>
  absurd (mem_toList_toString h) (by decide)

private theorem toString_append_inj {m n : Int} (hx : EndsComponent x) (hy : EndsComponent y)
    (h : (toString m).toList ++ x = (toString n).toList ++ y) : m = n ∧ x = y := by
  obtain ⟨hmn, hxy⟩ := append_inj_of_endsComponent (comma_not_mem_toString m)
    (comma_not_mem_toString n) hx hy h
  rw [String.toList_inj, Int.toString_eq_repr, Int.toString_eq_repr] at hmn
  exact ⟨Int.repr_inj.mp hmn, hxy⟩

/-! ## UUIDs -/

namespace Uuid

variable {u v : Uuid} {ds : List Char} {c : Char}

private theorem mem_hyphenate (hc : c ∈ hyphenate ds) : c ∈ ds ∨ c = '-' := by
  simp only [hyphenate, List.mem_append, List.mem_cons] at hc
  grind [List.mem_of_mem_take, List.mem_of_mem_drop]

private theorem filter_hyphenate (hds : '-' ∉ ds) : (hyphenate ds).filter (· != '-') = ds := by
  have hkept : ∀ part, part ⊆ ds → part.filter (· != '-') = part := fun part hpart =>
    List.filter_eq_self.mpr fun c hc => bne_iff_ne.mpr fun h => hds (h ▸ hpart hc)
  have hgroup : ∀ i n, ((ds.drop i).take n).filter (· != '-') = (ds.drop i).take n := fun i n =>
    hkept _ (List.Subset.trans (List.take_subset n _) (List.drop_subset i ds))
  have hjoin : ∀ i, (ds.drop i).take 4 ++ ds.drop (i + 4) = ds.drop i := fun i => by
    rw [← List.drop_drop, List.take_append_drop]
  simp [hyphenate, hgroup, hkept _ (List.take_subset 8 ds), hkept _ (List.drop_subset 20 ds),
    hjoin 16, hjoin 12, hjoin 8]

private theorem exists_digitChar_of_mem_digits (hc : c ∈ u.digits) :
    ∃ n : Nat, c = n.digitChar := by
  obtain ⟨i, -, rfl⟩ := List.mem_map.mp hc
  exact ⟨_, rfl⟩

private theorem mem_toText (hc : c ∈ u.toText.toList) : (∃ n : Nat, c = n.digitChar) ∨ c = '-' := by
  rw [toText, String.toList_ofList] at hc
  exact (mem_hyphenate hc).imp_left exists_digitChar_of_mem_digits

private theorem comma_not_mem_toText (u : Uuid) : ',' ∉ u.toText.toList := by
  intro h
  obtain ⟨n, hn⟩ | h := mem_toText h
  · exact Nat.digitChar_ne ',' rfl hn.symm
  · cases h

private theorem digits_injective (h : u.digits = v.digits) : u = v := by
  have hdigit : ∀ i < 32, u.bits.toNat >>> (4 * (31 - i)) % 16 =
      v.bits.toNat >>> (4 * (31 - i)) % 16 := by
    intro i hi
    have hchar : u.digit i = v.digit i := List.map_inj_left.mp h i (List.mem_range.mpr hi)
    have hvalue := congrArg hexValue? hchar
    rw [digit, digit, hexValue?_digitChar (Nat.mod_lt _ (by decide)),
      hexValue?_digitChar (Nat.mod_lt _ (by decide))] at hvalue
    exact Option.some.inj hvalue
  have hbits : u.bits = v.bits := by
    apply BitVec.eq_of_getLsbD_eq
    intro j hj
    -- The bit stands in the digit number `31 - j / 4`, at place `j % 4`.
    have hbit := congrArg (·.testBit (j % 4)) (hdigit (31 - j / 4) (by omega))
    have hplace : 4 * (31 - (31 - j / 4)) + j % 4 = j := by omega
    simp only [show 16 = 2 ^ 4 from rfl, Nat.testBit_mod_two_pow, Nat.testBit_shiftRight, hplace,
      BitVec.testBit_toNat] at hbit
    simpa [Nat.mod_lt] using hbit
  cases u
  cases v
  rw [mk.injEq]
  exact hbits

private theorem toText_injective (h : u.toText = v.toText) : u = v := by
  have hplain : ∀ w : Uuid, '-' ∉ w.digits := fun w hw => by
    obtain ⟨n, hn⟩ := exists_digitChar_of_mem_digits hw
    exact Nat.digitChar_ne '-' rfl hn.symm
  have hfilter := congrArg (·.toList.filter (· != '-')) h
  simp only [toText, String.toList_ofList, filter_hyphenate (hplain _)] at hfilter
  exact digits_injective hfilter

end Uuid

/-! ## Components -/

namespace Key

variable {k k' : Key}

/-- A component can be told from what is shown after it, by a reader who knows its kind. -/
theorem display_append_inj (hkind : k.kind = k'.kind) (hx : EndsComponent x)
    (hy : EndsComponent y) (h : k.display.toList ++ x = k'.display.toList ++ y) :
    k = k' ∧ x = y := by
  cases k <;> cases k' <;> cases hkind
  case int32 m n =>
    obtain ⟨hmn, hxy⟩ := toString_append_inj hx hy h
    exact ⟨congrArg int32 (Int32.toInt_inj.mp hmn), hxy⟩
  case int64 m n =>
    obtain ⟨hmn, hxy⟩ := toString_append_inj hx hy h
    exact ⟨congrArg int64 (Int64.toInt_inj.mp hmn), hxy⟩
  case uuid u v =>
    obtain ⟨huv, hxy⟩ := append_inj_of_endsComponent u.comma_not_mem_toText v.comma_not_mem_toText
      hx hy h
    exact ⟨congrArg uuid (Uuid.toText_injective (String.toList_inj.mp huv)), hxy⟩
  case text s t =>
    obtain ⟨rfl, hxy⟩ := Text.quoted_append_inj h
    exact ⟨rfl, hxy⟩

private theorem exists_cons_display (k : Key) : ∃ c cs, k.display.toList = c :: cs ∧ c ≠ '?' := by
  have hnumber : ∀ n : Int, ∃ c cs, (toString n).toList = c :: cs ∧ c ≠ '?' := by
    intro n
    obtain ⟨c, cs, hn⟩ := List.exists_cons_of_ne_nil (toList_toString_ne_nil n)
    refine ⟨c, cs, hn, ?_⟩
    rintro rfl
    exact absurd (mem_toList_toString (hn ▸ List.mem_cons_self)) (by decide)
  cases k with
  | int32 n | int64 n => exact hnumber n.toInt
  | uuid u =>
    refine ⟨u.digit 0, _, by rw [display, Uuid.toText, String.toList_ofList]; rfl, ?_⟩
    exact Nat.digitChar_ne '?' rfl
  | text s => exact ⟨'"', _, by rw [display, Text.quoted, String.toList_ofList]; rfl, by decide⟩

end Key

/-! ## Keys -/

namespace RowKey

variable {key key' : RowKey}

private theorem toList_list (key : RowKey) :
    key.list.toList = [',', ' '].intercalate (key.components.map (·.display.toList)) := by
  rw [list, String.toList_intercalate, List.map_map]
  rfl

private theorem intercalate_display_inj {ks ks' : List Key}
    (hkinds : ks.map Key.kind = ks'.map Key.kind)
    (h : [',', ' '].intercalate (ks.map (·.display.toList)) =
      [',', ' '].intercalate (ks'.map (·.display.toList))) : ks = ks' := by
  induction ks generalizing ks' with
  | nil => exact (List.map_eq_nil_iff.mp hkinds.symm).symm
  | cons k ks ih =>
    obtain ⟨k', ks', rfl, hkind, htail⟩ := List.map_eq_cons_iff.mp hkinds.symm
    -- A component ends with the text if it is the last one, and before a comma if it is not.
    cases ks with
    | nil =>
      obtain rfl : ks' = [] := List.map_eq_nil_iff.mp htail
      have hlast : k.display.toList ++ [] = k'.display.toList ++ [] := by simpa using h
      rw [(Key.display_append_inj hkind.symm .nil .nil hlast).1]
    | cons l ks =>
      obtain ⟨l', ks', rfl, -, -⟩ := List.map_eq_cons_iff.mp htail
      simp only [List.map_cons, List.intercalate_cons_cons, List.append_assoc] at h
      obtain ⟨rfl, hrest⟩ := Key.display_append_inj hkind.symm .cons .cons h
      rw [ih htail.symm (List.cons.inj (List.cons.inj hrest).2).2]

/-- Keys with components of the same kinds are shown alike only if they are equal. Of other kinds
they may be shown alike, as a number of 32 bits is shown like the same number of 64 bits. -/
theorem list_inj (hkinds : key.components.map Key.kind = key'.components.map Key.kind) :
    key.list = key'.list ↔ key = key' := by
  refine ⟨fun h => ?_, congrArg list⟩
  have hlist := congrArg String.toList h
  rw [toList_list, toList_list] at hlist
  cases key
  cases key'
  rw [mk.injEq]
  exact intercalate_display_inj hkinds hlist

theorem list_ne_unknown (key : RowKey) : key.list ≠ "?" := by
  intro h
  have hlist := congrArg String.toList h
  rw [toList_list] at hlist
  cases hks : key.components with
  | nil =>
    rw [hks] at hlist
    cases hlist
  | cons k ks =>
    obtain ⟨c, cs, hk, hc⟩ := k.exists_cons_display
    rw [hks, List.map_cons, hk, List.intercalate_cons_cons_left] at hlist
    exact hc (List.cons.inj hlist).1

end RowKey

end UnitOfWork
