import UnitOfWork.Sql.Statement

/-!
# Reading the text of statements

A reader that knows nothing of how a text was made finds names in double quotes, placeholders,
words and single marks in it. In the text of a statement it finds the pieces that the statement was
written from, as long as no name holds a double quote.
-/

namespace UnitOfWork

/-- What a reader finds in the text of a statement. -/
inductive Token where
  | word (s : String)
  | name (s : String)
  | placeholder (number : Nat)
  | mark (c : Char)
  deriving DecidableEq, Repr

/-- What a reader is in the middle of. What has been read of a word or a name is in reverse. -/
inductive Reading where
  | nothing
  | word (read : List Char)
  | name (read : List Char)
  | placeholder (number : Nat)

namespace Reading

/-- A new token begins, which is complete if it is a mark. -/
def start (c : Char) : List Token × Reading :=
  if c = '"' then ([], .name [])
  else if c = '$' then ([], .placeholder 0)
  else if c.isAlphanum then ([], .word [c])
  else if c = ' ' then ([], .nothing)
  else ([.mark c], .nothing)

/-- The token that is complete where another one begins or the text ends. -/
def ended : Reading → List Token
  | .word read => [.word (String.ofList read.reverse)]
  | .placeholder number => [.placeholder number]
  | .nothing | .name _ => []

/-- Reads one character, which may complete a token. -/
def next : Reading → Char → List Token × Reading
  | .name read, c =>
    if c = '"' then ([.name (String.ofList read.reverse)], .nothing) else ([], .name (c :: read))
  | .word read, c =>
    if c.isAlphanum then ([], .word (c :: read))
    else ((Reading.word read).ended ++ (start c).1, (start c).2)
  | .placeholder number, c =>
    if c.isDigit then ([], .placeholder (10 * number + (c.toNat - '0'.toNat)))
    else ((Reading.placeholder number).ended ++ (start c).1, (start c).2)
  | .nothing, c => start c

/-- Reads the rest of a text. -/
def tokens : Reading → List Char → List Token
  | reading, [] => reading.ended
  | reading, c :: cs => (reading.next c).1 ++ (reading.next c).2.tokens cs

/-- No name has been begun. -/
def IsOutside : Reading → Prop
  | .name _ => False
  | _ => True

end Reading

/-- The text neither goes on with a word nor with a number. -/
def Breaks (cs : List Char) : Prop := ∀ c ∈ cs.head?, c.isAlphanum = false

instance (cs : List Char) : Decidable (Breaks cs) :=
  match cs with
  | [] => isTrue nofun
  | c :: _ => decidable_of_iff (c.isAlphanum = false) (by simp [Breaks])

theorem Breaks.append {cs rest : List Char} (hcs : Breaks cs) (hrest : Breaks rest) :
    Breaks (cs ++ rest) := by
  cases cs with
  | nil => exact hrest
  | cons c cs => exact hcs

private theorem breaks_flatMap {α : Type} {f : α → List Char} {l : List α}
    (hl : ∀ a ∈ l, Breaks (f a)) :
    Breaks (l.flatMap f) := by
  induction l with
  | nil => simp [Breaks]
  | cons a l ih =>
    obtain ⟨ha, hl⟩ := List.forall_mem_cons.mp hl
    exact ha.append (ih hl)

namespace Reading

variable {reading : Reading} {cs rest : List Char}

private theorem isOutside_next (hout : reading.IsOutside) {c : Char} (hc : c ≠ '"') :
    (reading.next c).2.IsOutside := by
  have hstart : (start c).2.IsOutside := by
    simp only [start, hc, if_false]
    split
    · trivial
    · split
      · trivial
      · split <;> trivial
  cases reading with
  | nothing => exact hstart
  | name read => exact hout.elim
  | word read =>
    simp only [next]
    split
    · trivial
    · exact hstart
  | placeholder number =>
    simp only [next]
    split
    · trivial
    · exact hstart

private theorem tokens_of_breaks (hout : reading.IsOutside) (hcs : Breaks cs) :
    reading.tokens cs = reading.ended ++ nothing.tokens cs := by
  cases cs with
  | nil => simp [tokens, ended]
  | cons c cs =>
    have hword : c.isAlphanum = false := hcs c rfl
    have hdigit : c.isDigit = false := by
      simp only [Char.isAlphanum, Bool.or_eq_false_iff] at hword
      exact hword.2
    cases reading with
    | nothing => simp [ended]
    | name read => exact hout.elim
    | word read => simp [tokens, next, hword]
    | placeholder number => simp [tokens, next, hdigit]

private theorem tokens_append (hout : reading.IsOutside) (hcs : '"' ∉ cs) (hrest : Breaks rest) :
    reading.tokens (cs ++ rest) = reading.tokens cs ++ nothing.tokens rest := by
  induction cs generalizing reading with
  | nil => exact tokens_of_breaks hout hrest
  | cons c cs ih =>
    simp only [List.mem_cons, not_or] at hcs
    have hnext := isOutside_next hout (Ne.symm hcs.1)
    simp only [List.cons_append, tokens, ih hnext hcs.2, List.append_assoc]

private theorem tokens_name (read : List Char) (hcs : '"' ∉ cs) :
    (name read).tokens (cs ++ '"' :: rest) =
      .name (String.ofList (read.reverse ++ cs)) :: nothing.tokens rest := by
  induction cs generalizing read with
  | nil => simp [tokens, next]
  | cons c cs ih =>
    simp only [List.mem_cons, not_or] at hcs
    have hc : ¬ c = '"' := Ne.symm hcs.1
    simp [tokens, next, hc, ih _ hcs.2]

private theorem tokens_digits (number : Nat) (hcs : ∀ c ∈ cs, c.isDigit) :
    (placeholder number).tokens cs = [.placeholder (Nat.ofDigitChars 10 cs number)] := by
  induction cs generalizing number with
  | nil => simp [tokens, ended]
  | cons c cs ih =>
    obtain ⟨hc, hcs⟩ := List.forall_mem_cons.mp hcs
    simp only [tokens, next, hc, if_true, List.nil_append, ih _ hcs, Nat.ofDigitChars_cons]

end Reading

namespace Piece

/-- What a reader finds in a piece. -/
def tokens : Piece → List Token
  | word s => Reading.nothing.tokens s.toList
  | name s => [.name s]
  | placeholder number => [.placeholder number]

/-- No double quote stands in the piece but those around a name. -/
def IsPlain : Piece → Prop
  | word s | name s => '"' ∉ s.toList
  | placeholder _ => True

private theorem not_mem_digits (number : Nat) : '"' ∉ '$' :: (toString number).toList := by
  intro hm
  simp only [List.mem_cons, Nat.toString_eq_repr, Nat.toList_repr] at hm
  rcases hm with h | h
  · exact absurd h (by decide)
  · exact absurd (Nat.isDigit_of_mem_toDigits (by decide) (by decide) h) (by decide)

private theorem tokens_placeholder (number : Nat) :
    Reading.nothing.tokens ('$' :: (toString number).toList) = [.placeholder number] := by
  have hdigits : ∀ c ∈ Nat.toDigits 10 number, c.isDigit := by
    intro c hc
    exact Nat.isDigit_of_mem_toDigits (by decide) (by decide) hc
  simp [Reading.tokens, Reading.next, Reading.start, Reading.tokens_digits 0 hdigits]

private theorem tokens_chars_append {p : Piece} {rest : List Char} (hp : p.IsPlain)
    (hrest : Breaks rest) :
    Reading.nothing.tokens (p.chars ++ rest) = p.tokens ++ Reading.nothing.tokens rest := by
  cases p with
  | word s => exact Reading.tokens_append trivial hp hrest
  | name s =>
    have hname : (Reading.name []).tokens (s.toList ++ '"' :: rest) =
        .name s :: Reading.nothing.tokens rest := by simpa using Reading.tokens_name [] hp
    simpa [chars, tokens, Reading.tokens, Reading.next, Reading.start] using hname
  | placeholder number =>
    have hout : Reading.nothing.IsOutside := trivial
    rw [chars, Reading.tokens_append hout (not_mem_digits number) hrest, tokens_placeholder]
    rfl

/-- The pieces are read one after the other, unless one of them could go on with the word before. -/
theorem tokens_flatMap_chars {ps : List Piece} (hps : ∀ p ∈ ps, p.IsPlain)
    (hbreaks : ∀ p ∈ ps.tail, Breaks p.chars) :
    Reading.nothing.tokens (ps.flatMap chars) = ps.flatMap tokens := by
  induction ps with
  | nil => rfl
  | cons p ps ih =>
    obtain ⟨hp, hps⟩ := List.forall_mem_cons.mp hps
    have hrest : Breaks (ps.flatMap chars) := breaks_flatMap hbreaks
    rw [List.flatMap_cons, List.flatMap_cons, tokens_chars_append hp hrest,
      ih hps fun q hq => hbreaks q (List.mem_of_mem_tail hq)]

variable {β : Type} {f : Piece → List β} {separator : String}

theorem flatMap_separated (hf : f (word separator) = []) (groups : List (List Piece)) :
    (separated separator groups).flatMap f = groups.flatMap (·.flatMap f) := by
  induction groups with
  | nil => rfl
  | cons g gs ih =>
    cases gs with
    | nil => simp [separated]
    | cons g' gs =>
      simp only [separated, List.intercalate_cons_cons, List.flatMap_append,
        List.flatMap_cons] at ih ⊢
      simp [ih, hf]

theorem mem_separated {groups : List (List Piece)} {p : Piece}
    (hp : p ∈ separated separator groups) :
    p = word separator ∨ ∃ g ∈ groups, p ∈ g := by
  induction groups with
  | nil => simp [separated] at hp
  | cons g gs ih =>
    cases gs with
    | nil => exact .inr ⟨g, by simp, by simpa [separated] using hp⟩
    | cons g' gs =>
      simp only [separated, List.intercalate_cons_cons, List.mem_append,
        List.mem_singleton] at hp ih
      grind

end Piece

end UnitOfWork
