import UnitOfWork.Data.Uuid
import UnitOfWork.Text.Quoted

/-!
# Reading quoted text

Every character of a quoted text can be read back from the way it is written, whatever stands after
it, and none is written as a bare quote. So a quoted text is over at the first bare quote, and no
other text is written in the same way. Nothing here depends on which characters are printable.
-/

namespace UnitOfWork

theorem Uuid.hexValue?_digitChar {n : Nat} (hn : n < 16) : hexValue? n.digitChar = some n := by
  revert n
  decide

namespace Text

variable {c d : Char} {cs rest rest' : List Char}

/-- The number that hexadecimal digits stand for. -/
def hexNumber (ds : List Char) : Nat :=
  ds.foldl (fun n d => 16 * n + (Uuid.hexValue? d).getD 0) 0

private theorem hexNumber_toDigits (n : Nat) : hexNumber (Nat.toDigits 16 n) = n := by
  induction n using Nat.strongRecOn with
  | ind n ih =>
    rw [Nat.toDigits_eq_if (by decide)]
    split
    · next hn => simp [hexNumber, Uuid.hexValue?_digitChar hn]
    · have hlow : n % 16 < 16 := Nat.mod_lt n (by decide)
      rw [hexNumber, List.foldl_append, ← hexNumber, ih (n / 16) (by omega)]
      simp only [List.foldl_cons, List.foldl_nil, Uuid.hexValue?_digitChar hlow,
        Option.getD_some]
      exact Nat.div_add_mod n 16

private theorem exists_digitChar_of_mem_toDigits {n : Nat} (hd : d ∈ Nat.toDigits 16 n) :
    ∃ m : Nat, d = m.digitChar := by
  induction n using Nat.strongRecOn with
  | ind n ih =>
    rw [Nat.toDigits_eq_if (by decide)] at hd
    split at hd
    · exact ⟨n, List.mem_singleton.mp hd⟩
    · rcases List.mem_append.mp hd with hd | hd
      · exact ih (n / 16) (by omega) hd
      · exact ⟨n % 16, List.mem_singleton.mp hd⟩

/-- The character that a letter after a backslash stands for. -/
def unescapeLetter? : Char → Option Char
  | '"' => some '"'
  | '\\' => some '\\'
  | 'n' => some '\n'
  | 'r' => some '\r'
  | 't' => some '\t'
  | '0' => some '\x00'
  | _ => none

/-- Reads one character of a quoted text. A bare quote is none, it ends the text. -/
def unescape? : List Char → Option (Char × List Char)
  | '\\' :: 'u' :: '\x7b' :: cs =>
    some (Char.ofNat (hexNumber (cs.takeWhile (· != '\x7d'))), (cs.dropWhile (· != '\x7d')).tail)
  | '\\' :: letter :: cs => (unescapeLetter? letter).map (·, cs)
  | '"' :: _ | [] => none
  | c :: cs => some (c, cs)

private theorem unescape?_codePoint (c : Char) (rest : List Char) :
    unescape? (codePoint c ++ rest) = some (c, rest) := by
  have hdigits : ∀ d ∈ Nat.toDigits 16 c.toNat, (d != '\x7d') = true := by
    intro d hd
    obtain ⟨m, rfl⟩ := exists_digitChar_of_mem_toDigits hd
    simp
  simp only [codePoint, List.cons_append, List.nil_append, List.append_assoc, unescape?]
  rw [List.takeWhile_append_of_pos hdigits, List.dropWhile_append_of_pos hdigits]
  simp [hexNumber_toDigits]

private theorem unescape?_escape (c : Char) (rest : List Char) :
    unescape? (escape c ++ rest) = some (c, rest) := by
  unfold escape
  split
  · next h => rw [h]; rfl
  split
  · next h => rw [h]; rfl
  split
  · next h => rw [h]; rfl
  split
  · next h => rw [h]; rfl
  split
  · next h => rw [h]; rfl
  split
  · next h => rw [h]; rfl
  split
  · -- A printable character stands for itself. By now it is neither a quote nor a backslash.
    simp [unescape?, *]
  · exact unescape?_codePoint c rest

private theorem escape_append_inj (h : escape c ++ rest = escape d ++ rest') :
    c = d ∧ rest = rest' := by
  have hread := congrArg unescape? h
  rw [unescape?_escape, unescape?_escape] at hread
  simpa using hread

private theorem escape_append_ne (c : Char) : escape c ++ rest ≠ '"' :: rest' := by
  intro h
  have hread := congrArg unescape? h
  rw [unescape?_escape] at hread
  cases hread

private theorem flatMap_escape_append_inj {ds : List Char}
    (h : cs.flatMap escape ++ '"' :: rest = ds.flatMap escape ++ '"' :: rest') :
    cs = ds ∧ rest = rest' := by
  induction cs generalizing ds with
  | nil =>
    cases ds with
    | nil => simpa using h
    | cons d ds =>
      rw [List.flatMap_cons, List.append_assoc] at h
      exact absurd h.symm (escape_append_ne d)
  | cons c cs ih =>
    rw [List.flatMap_cons, List.append_assoc] at h
    cases ds with
    | nil => exact absurd h (escape_append_ne c)
    | cons d ds =>
      rw [List.flatMap_cons, List.append_assoc] at h
      obtain ⟨rfl, htail⟩ := escape_append_inj h
      obtain ⟨rfl, rfl⟩ := ih htail
      exact ⟨rfl, rfl⟩

/-- A quoted text shows one text only, and where it is over can be seen from itself. -/
theorem quoted_append_inj {s t : String}
    (h : (quoted s).toList ++ rest = (quoted t).toList ++ rest') : s = t ∧ rest = rest' := by
  simp only [quoted, String.toList_ofList, List.cons_append, List.append_assoc, List.nil_append,
    List.cons.injEq, true_and] at h
  obtain ⟨hst, rfl⟩ := flatMap_escape_append_inj h
  exact ⟨String.toList_inj.mp hst, rfl⟩

end Text

end UnitOfWork
