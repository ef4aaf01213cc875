import Mathlib.Data.List.TakeWhile
import UnitOfWork.Proofs.Sql.Tokens

/-!
# Placeholders and columns in the text of statements

In the text of a statement a placeholder stands for a column: in the list of an insert for the one
at its place, elsewhere for the one that is named last before it. The placeholders are numbered
without a gap, and the number of a placeholder is the place of its value among the parameters.
-/

namespace UnitOfWork

namespace Token

@[simp]
def number? : Token → Option Nat
  | placeholder number => some number
  | _ => none

@[simp]
def name? : Token → Option String
  | name s => some s
  | _ => none

@[simp]
def word? : Token → Option String
  | word s => some s
  | _ => none

end Token

/-- The numbers of the placeholders, in the order of the text. -/
def numbersIn (ts : List Token) : List Nat := ts.filterMap Token.number?

def namesIn (ts : List Token) : List String := ts.filterMap Token.name?

def wordsIn (ts : List Token) : List String := ts.filterMap Token.word?

/-- The text up to a word. -/
def textBefore (word : String) (ts : List Token) : List Token := ts.takeWhile (·.word? ≠ some word)

/-- The text from a word on. -/
def textFrom (word : String) (ts : List Token) : List Token := ts.dropWhile (·.word? ≠ some word)

/-- Each placeholder with the column that is named last before it, `column` to begin with. -/
def namedLast (column : String) : List Token → List (String × Nat)
  | [] => []
  | .name c :: ts => namedLast c ts
  | .placeholder number :: ts => (column, number) :: namedLast column ts
  | .word _ :: ts | .mark _ :: ts => namedLast column ts

/-- The columns that an insert lists after its table, each with the placeholder at its place. -/
def listedIn (ts : List Token) : List (String × Nat) :=
  (namesIn (textBefore "VALUES" ts)).tail.zip (numbersIn ts)

/-- The columns that are set, each with its placeholder. -/
def setIn (ts : List Token) : List (String × Nat) := namedLast "" (textBefore "WHERE" ts)

/-- The columns that find the row, each with its placeholder. -/
def soughtIn (ts : List Token) : List (String × Nat) := namedLast "" (textFrom "WHERE" ts)

/-- The columns that are asked back. -/
def returnedIn (ts : List Token) : List String := namesIn (textFrom "RETURNING" ts)

section Readers

variable {word : String} {ts rest : List Token}

@[simp]
theorem numbersIn_nil : numbersIn [] = [] := rfl

@[simp]
theorem numbersIn_cons (t : Token) (ts : List Token) :
    numbersIn (t :: ts) = t.number?.toList ++ numbersIn ts := by
  cases t <;> rfl

@[simp]
theorem numbersIn_append (ts rest : List Token) :
    numbersIn (ts ++ rest) = numbersIn ts ++ numbersIn rest :=
  List.filterMap_append

@[simp]
theorem namesIn_nil : namesIn [] = [] := rfl

@[simp]
theorem namesIn_cons (t : Token) (ts : List Token) :
    namesIn (t :: ts) = t.name?.toList ++ namesIn ts := by
  cases t <;> rfl

@[simp]
theorem namesIn_append (ts rest : List Token) :
    namesIn (ts ++ rest) = namesIn ts ++ namesIn rest :=
  List.filterMap_append

@[simp]
theorem wordsIn_nil : wordsIn [] = [] := rfl

@[simp]
theorem wordsIn_cons (t : Token) (ts : List Token) :
    wordsIn (t :: ts) = t.word?.toList ++ wordsIn ts := by
  cases t <;> rfl

@[simp]
theorem wordsIn_append (ts rest : List Token) :
    wordsIn (ts ++ rest) = wordsIn ts ++ wordsIn rest :=
  List.filterMap_append

private theorem ne_of_notMem_wordsIn (hw : word ∉ wordsIn ts) :
    ∀ t ∈ ts, decide (t.word? ≠ some word) = true := by
  intro t ht
  simp only [ne_eq, decide_not, Bool.not_eq_true', decide_eq_false_iff_not]
  exact fun he => hw (List.mem_filterMap.mpr ⟨t, ht, he⟩)

theorem textBefore_word (hw : word ∉ wordsIn ts) :
    textBefore word (ts ++ .word word :: rest) = ts := by
  rw [textBefore, List.takeWhile_append_of_pos (ne_of_notMem_wordsIn hw)]
  simp [Token.word?]

theorem textFrom_word (hw : word ∉ wordsIn ts) :
    textFrom word (ts ++ .word word :: rest) = .word word :: rest := by
  rw [textFrom, List.dropWhile_append_of_pos (ne_of_notMem_wordsIn hw)]
  simp [Token.word?]

theorem textFrom_absent (hw : word ∉ wordsIn ts) : textFrom word ts = [] := by
  rw [textFrom, List.dropWhile_eq_nil_iff]
  exact ne_of_notMem_wordsIn hw

end Readers

/-- The tokens of pieces. -/
def tokensOf (ps : List Piece) : List Token := ps.flatMap Piece.tokens

@[simp]
theorem tokensOf_append (ps qs : List Piece) : tokensOf (ps ++ qs) = tokensOf ps ++ tokensOf qs :=
  List.flatMap_append

@[simp]
theorem tokensOf_cons (p : Piece) (ps : List Piece) :
    tokensOf (p :: ps) = p.tokens ++ tokensOf ps :=
  List.flatMap_cons

@[simp]
theorem tokensOf_nil : tokensOf [] = [] := rfl

namespace Piece

@[simp]
theorem tokens_name (s : String) : (name s).tokens = [.name s] := rfl

@[simp]
theorem tokens_number (number : Nat) : (placeholder number).tokens = [.placeholder number] := rfl

theorem tokens_comma : (word ", ").tokens = [.mark ','] := by decide

theorem tokens_and : (word " AND ").tokens = [.word "AND"] := by decide

private theorem tokens_equals : (word " = ").tokens = [.mark '='] := by decide

theorem numbersIn_comma : numbersIn (word ", ").tokens = [] := by decide

theorem numbersIn_and : numbersIn (word " AND ").tokens = [] := by decide

variable {β : Type} {f : Token → Option β}

private theorem filterMap_separated {separator : String}
    (hf : (word separator).tokens.filterMap f = []) (groups : List (List Piece)) :
    (tokensOf (separated separator groups)).filterMap f =
      groups.flatMap fun g => (tokensOf g).filterMap f := by
  have hread : ∀ ps : List Piece,
      (tokensOf ps).filterMap f = ps.flatMap fun p => p.tokens.filterMap f := by
    intro ps
    rw [tokensOf, List.filterMap_flatMap]
  simp only [hread]
  exact flatMap_separated (f := fun p => p.tokens.filterMap f) hf groups

private theorem filterMap_names (hf : f (.mark ',') = none) (columns : List String) :
    (tokensOf (names columns)).filterMap f = columns.filterMap fun c => f (.name c) := by
  rw [names, filterMap_separated (by simp [tokens_comma, hf])]
  induction columns with
  | nil => rfl
  | cons c columns ih =>
    cases hc : f (.name c) <;> simp_all

private theorem filterMap_placeholders (hf : f (.mark ',') = none) (count : Nat) :
    (tokensOf (placeholders count)).filterMap f =
      (List.range' 1 count).filterMap fun number => f (.placeholder number) := by
  rw [placeholders, filterMap_separated (by simp [tokens_comma, hf])]
  induction List.range' 1 count with
  | nil => rfl
  | cons number numbers ih =>
    cases hc : f (.placeholder number) <;> simp_all

@[simp]
theorem numbersIn_names (columns : List String) : numbersIn (tokensOf (names columns)) = [] := by
  rw [numbersIn, filterMap_names rfl]
  simp

@[simp]
theorem namesIn_names (columns : List String) : namesIn (tokensOf (names columns)) = columns := by
  rw [namesIn, filterMap_names rfl]
  simp

@[simp]
theorem wordsIn_names (columns : List String) : wordsIn (tokensOf (names columns)) = [] := by
  rw [wordsIn, filterMap_names rfl]
  simp

@[simp]
theorem numbersIn_placeholders (count : Nat) :
    numbersIn (tokensOf (placeholders count)) = List.range' 1 count := by
  rw [numbersIn, filterMap_placeholders rfl]
  simp

@[simp]
theorem wordsIn_placeholders (count : Nat) : wordsIn (tokensOf (placeholders count)) = [] := by
  rw [wordsIn, filterMap_placeholders rfl]
  simp

private theorem filterMap_equations {separator : String}
    (hs : (word separator).tokens.filterMap f = []) (first : Nat) (columns : List String) :
    (tokensOf (equations separator first columns)).filterMap f =
      (columns.zipIdx first).flatMap fun e =>
        [.name e.1, .mark '=', .placeholder e.2].filterMap f := by
  rw [equations, filterMap_separated hs, List.flatMap_map]
  simp only [tokensOf_cons, tokensOf_nil, tokens_name, tokens_equals, tokens_number,
    List.cons_append, List.nil_append]

theorem numbersIn_equations {separator : String}
    (hs : numbersIn (word separator).tokens = []) (first : Nat) (columns : List String) :
    numbersIn (tokensOf (equations separator first columns)) =
      List.range' first columns.length := by
  rw [numbersIn, filterMap_equations hs]
  simp [List.filterMap_cons, ← List.map_eq_flatMap, List.zipIdx_map_snd]

@[simp]
theorem wordsIn_equations_comma (first : Nat) (columns : List String) :
    wordsIn (tokensOf (equations ", " first columns)) = [] := by
  rw [wordsIn, filterMap_equations (by rw [tokens_comma]; rfl)]
  simp [List.filterMap_cons]

theorem namedLast_equations {separator : String}
    (hs : ∀ column ts, namedLast column ((word separator).tokens ++ ts) = namedLast column ts)
    (column : String) (first : Nat) (columns : List String) :
    namedLast column (tokensOf (equations separator first columns)) = columns.zipIdx first := by
  induction columns generalizing column first with
  | nil => rfl
  | cons c columns ih =>
    cases columns with
    | nil => simp [equations, separated, tokens_equals, namedLast]
    | cons c' columns =>
      simpa [equations, separated, tokens_equals, namedLast, hs] using ih c (first + 1)

theorem namedLast_placeholders (column : String) (count : Nat) (rest : List Token) :
    namedLast column (tokensOf (placeholders count) ++ rest) =
      (List.range' 1 count).map (column, ·) ++ namedLast column rest := by
  rw [placeholders]
  induction List.range' 1 count with
  | nil => rfl
  | cons number numbers ih =>
    cases numbers with
    | nil => simp [separated, namedLast]
    | cons number' numbers =>
      simpa [separated, tokens_comma, namedLast] using ih

end Piece

end UnitOfWork
