import UnitOfWork.Proofs.Sql.Placeholders

/-!
# What the text of a statement says

For each kind of statement: the placeholders of its text, and the column that each of them stands
for. All of it is read off the text alone; names in it must not hold a double quote.
-/

namespace UnitOfWork

namespace Piece

/-- The words between the names and placeholders of a statement. -/
def joints : List String :=
  [" DEFAULT VALUES", " (", ") VALUES (", ")", " RETURNING ", " SET ", " WHERE ", " IN (", ", ",
    " = ", " AND "]

/-- The piece may stand behind the first word of a statement with these names. -/
def Follows (cs : List String) : Piece → Prop
  | word w => w ∈ joints
  | name c => c ∈ cs
  | placeholder _ => True

section Follows

variable {separator : String} {cs columns : List String}

@[simp]
theorem follows_word {w : String} : (word w).Follows cs ↔ w ∈ joints := .rfl

@[simp]
theorem follows_name {c : String} : (name c).Follows cs ↔ c ∈ cs := .rfl

@[simp]
theorem follows_placeholder (number : Nat) : (placeholder number).Follows cs := trivial

private theorem follows_separated (hs : separator ∈ joints) {groups : List (List Piece)}
    (hgroups : ∀ g ∈ groups, ∀ p ∈ g, p.Follows cs) :
    ∀ p ∈ separated separator groups, p.Follows cs := by
  intro p hp
  rcases mem_separated hp with rfl | ⟨g, hg, hp⟩
  · exact hs
  · exact hgroups g hg p hp

private theorem follows_names (hcolumns : ∀ c ∈ columns, c ∈ cs) :
    ∀ p ∈ names columns, p.Follows cs := by
  apply follows_separated (by simp [joints])
  simpa using hcolumns

private theorem follows_placeholders (count : Nat) : ∀ p ∈ placeholders count, p.Follows cs := by
  apply follows_separated (by simp [joints])
  intro g hg
  obtain ⟨number, -, rfl⟩ := List.mem_map.mp hg
  simp

private theorem follows_equations (hs : separator ∈ joints) (first : Nat)
    (hcolumns : ∀ c ∈ columns, c ∈ cs) :
    ∀ p ∈ equations separator first columns, p.Follows cs := by
  apply follows_separated hs
  intro g hg
  obtain ⟨⟨c, number⟩, he, rfl⟩ := List.mem_map.mp hg
  simp [joints, hcolumns c (List.fst_mem_of_mem_zipIdx he)]

end Follows

end Piece

namespace Statement

open Piece

/-- What a reader finds in the text of the statement. -/
def tokens (s : Statement) : List Token := Reading.nothing.tokens s.sql.toList

/-- The names that a statement mentions: of its table and of its columns. -/
def mentioned : Statement → List String
  | insert table assigned columns => table :: assigned.map Prod.fst ++ columns
  | update table assigned key => table :: assigned.map Prod.fst ++ key.columns
  | probe table key | delete table key => table :: key.columns
  | deleteAny table column _ => [table, column]

/-- The words that statements begin with. -/
def openings : List String := ["INSERT INTO ", "UPDATE ", "SELECT 1 FROM ", "DELETE FROM "]

private theorem pieces_eq (s : Statement) : ∃ opening ∈ openings, ∃ ps,
    s.pieces = word opening :: ps ∧ ∀ p ∈ ps, p.Follows s.mentioned := by
  cases s with
  | insert table assigned columns =>
    refine ⟨"INSERT INTO ", by simp [openings], _, rfl, ?_⟩
    have hassigned : ∀ p ∈ names (assigned.map Prod.fst),
        p.Follows (insert table assigned columns).mentioned :=
      follows_names (by simp +contextual [mentioned])
    have hback : ∀ p ∈ names columns, p.Follows (insert table assigned columns).mentioned :=
      follows_names (by simp +contextual [mentioned])
    have hvalues : ∀ p ∈ placeholders assigned.length,
        p.Follows (insert table assigned columns).mentioned := follows_placeholders assigned.length
    cases assigned <;> cases columns <;> simp_all [mentioned, joints, or_imp]
  | update table assigned key =>
    refine ⟨"UPDATE ", by simp [openings], _, rfl, ?_⟩
    have hset : ∀ p ∈ equations ", " 1 (assigned.map Prod.fst),
        p.Follows (update table assigned key).mentioned :=
      follows_equations (by simp [joints]) 1 (by simp +contextual [mentioned])
    have hsought : ∀ p ∈ equations " AND " (assigned.length + 1) key.columns,
        p.Follows (update table assigned key).mentioned :=
      follows_equations (by simp [joints]) _ (by simp +contextual [mentioned])
    simp_all [mentioned, joints, or_imp]
  | probe table key =>
    refine ⟨"SELECT 1 FROM ", by simp [openings], _, rfl, ?_⟩
    have hsought : ∀ p ∈ equations " AND " 1 key.columns, p.Follows (table :: key.columns) :=
      follows_equations (by simp [joints]) 1 (by simp +contextual)
    simp_all [mentioned, joints]
  | delete table key =>
    refine ⟨"DELETE FROM ", by simp [openings], _, rfl, ?_⟩
    have hsought : ∀ p ∈ equations " AND " 1 key.columns, p.Follows (table :: key.columns) :=
      follows_equations (by simp [joints]) 1 (by simp +contextual)
    simp_all [mentioned, joints]
  | deleteAny table column keys =>
    refine ⟨"DELETE FROM ", by simp [openings], _, rfl, ?_⟩
    have hkeys : ∀ p ∈ placeholders keys.length, p.Follows [table, column] :=
      follows_placeholders keys.length
    simp_all [mentioned, joints, or_imp]

theorem tokens_eq {s : Statement} (hs : ∀ c ∈ s.mentioned, '"' ∉ c.toList) :
    s.tokens = tokensOf s.pieces := by
  have hopening : ∀ w ∈ openings, '"' ∉ w.toList := by decide
  have hjoint : ∀ w ∈ joints, '"' ∉ w.toList ∧ Breaks w.toList := by decide
  obtain ⟨opening, ho, ps, hps, hall⟩ := s.pieces_eq
  have hplain : ∀ p ∈ ps, p.IsPlain ∧ Breaks p.chars := by
    intro p hp
    have hfollows := hall p hp
    cases p with
    | word w => exact hjoint w hfollows
    | name c => exact ⟨hs c hfollows, by simp [chars, Breaks]⟩
    | placeholder number => exact ⟨trivial, by simp [chars, Breaks]⟩
  rw [tokens, sql, String.toList_ofList, hps]
  apply tokens_flatMap_chars
  · exact List.forall_mem_cons.mpr ⟨hopening opening ho, fun p hp => (hplain p hp).1⟩
  · exact fun p hp => (hplain p hp).2

private theorem tokensOf_insert (table : String) (assigned : List (String × Value))
    (columns : List String) :
    tokensOf (insert table assigned columns).pieces =
      [.word "INSERT", .word "INTO", .name table] ++
        (if assigned.isEmpty then [.word "DEFAULT", .word "VALUES"] else
          .mark '(' :: tokensOf (names (assigned.map Prod.fst)) ++
            [.mark ')', .word "VALUES", .mark '('] ++ tokensOf (placeholders assigned.length) ++
            [.mark ')']) ++
        (if columns.isEmpty then [] else .word "RETURNING" :: tokensOf (names columns)) := by
  have hopening : (word "INSERT INTO ").tokens = [.word "INSERT", .word "INTO"] := by decide
  have hdefault : (word " DEFAULT VALUES").tokens = [.word "DEFAULT", .word "VALUES"] := by decide
  have hopen : (word " (").tokens = [.mark '('] := by decide
  have hvalues : (word ") VALUES (").tokens = [.mark ')', .word "VALUES", .mark '('] := by decide
  have hclose : (word ")").tokens = [.mark ')'] := by decide
  have hback : (word " RETURNING ").tokens = [.word "RETURNING"] := by decide
  cases assigned <;> cases columns <;> simp [pieces, *]

private theorem tokensOf_update (table : String) (assigned : List (String × Value))
    (key : KeyMatch) :
    tokensOf (update table assigned key).pieces =
      .word "UPDATE" :: .name table :: .word "SET" ::
        tokensOf (equations ", " 1 (assigned.map Prod.fst)) ++
        .word "WHERE" :: tokensOf (equations " AND " (assigned.length + 1) key.columns) := by
  have hopening : (word "UPDATE ").tokens = [.word "UPDATE"] := by decide
  have hset : (word " SET ").tokens = [.word "SET"] := by decide
  have hwhere : (word " WHERE ").tokens = [.word "WHERE"] := by decide
  simp [pieces, *]

private theorem tokensOf_probe (table : String) (key : KeyMatch) :
    tokensOf (probe table key).pieces =
      [.word "SELECT", .word "1", .word "FROM", .name table] ++
        .word "WHERE" :: tokensOf (equations " AND " 1 key.columns) := by
  have hopening : (word "SELECT 1 FROM ").tokens = [.word "SELECT", .word "1", .word "FROM"] := by
    decide
  have hwhere : (word " WHERE ").tokens = [.word "WHERE"] := by decide
  simp [pieces, *]

private theorem tokensOf_delete (table : String) (key : KeyMatch) :
    tokensOf (delete table key).pieces =
      [.word "DELETE", .word "FROM", .name table] ++
        .word "WHERE" :: tokensOf (equations " AND " 1 key.columns) := by
  have hopening : (word "DELETE FROM ").tokens = [.word "DELETE", .word "FROM"] := by decide
  have hwhere : (word " WHERE ").tokens = [.word "WHERE"] := by decide
  simp [pieces, *]

private theorem tokensOf_deleteAny (table column : String) (keys : List Value) :
    tokensOf (deleteAny table column keys).pieces =
      [.word "DELETE", .word "FROM", .name table] ++
        .word "WHERE" :: .name column :: .word "IN" :: .mark '(' ::
          (tokensOf (placeholders keys.length) ++ [.mark ')']) := by
  have hopening : (word "DELETE FROM ").tokens = [.word "DELETE", .word "FROM"] := by decide
  have hwhere : (word " WHERE ").tokens = [.word "WHERE"] := by decide
  have hin : (word " IN (").tokens = [.word "IN", .mark '('] := by decide
  have hclose : (word ")").tokens = [.mark ')'] := by decide
  simp [pieces, *]

section Insert

variable (table : String) (assigned : List (String × Value)) (columns : List String)

theorem numbersIn_insert :
    numbersIn (tokensOf (insert table assigned columns).pieces) =
      List.range' 1 assigned.length := by
  rw [tokensOf_insert]
  cases assigned <;> cases columns <;> simp

private theorem textBefore_values (e : String × Value) :
    textBefore "VALUES" (tokensOf (insert table (e :: assigned) columns).pieces) =
      [.word "INSERT", .word "INTO", .name table, .mark '('] ++
        tokensOf (names ((e :: assigned).map Prod.fst)) ++ [.mark ')'] := by
  have hw : "VALUES" ∉ wordsIn ([.word "INSERT", .word "INTO", .name table, .mark '('] ++
      tokensOf (names ((e :: assigned).map Prod.fst)) ++ [.mark ')']) := by
    simp
  rw [← textBefore_word hw, tokensOf_insert]
  simp only [List.isEmpty_cons, Bool.false_eq_true, if_false, List.append_assoc, List.cons_append,
    List.nil_append]
  rfl

theorem listedIn_insert :
    listedIn (tokensOf (insert table assigned columns).pieces) =
      (assigned.map Prod.fst).zipIdx 1 := by
  cases assigned with
  | nil => simp [listedIn, numbersIn_insert]
  | cons e assigned =>
    rw [listedIn, textBefore_values, numbersIn_insert, List.zipIdx_eq_zip_range']
    simp

private theorem returning_notMem_wordsIn :
    "RETURNING" ∉ wordsIn (tokensOf (insert table assigned []).pieces) := by
  rw [tokensOf_insert]
  cases assigned <;> simp

private theorem textFrom_returning (c : String) :
    textFrom "RETURNING" (tokensOf (insert table assigned (c :: columns)).pieces) =
      .word "RETURNING" :: tokensOf (names (c :: columns)) := by
  rw [← textFrom_word (returning_notMem_wordsIn table assigned), tokensOf_insert, tokensOf_insert]
  simp

theorem returnedIn_insert :
    returnedIn (tokensOf (insert table assigned columns).pieces) = columns := by
  cases columns with
  | nil => rw [returnedIn, textFrom_absent (returning_notMem_wordsIn table assigned)]; rfl
  | cons c columns => simp [returnedIn, textFrom_returning]

theorem returning_mem_wordsIn :
    "RETURNING" ∈ wordsIn (tokensOf (insert table assigned columns).pieces) ↔ columns ≠ [] := by
  cases columns with
  | nil => simp [returning_notMem_wordsIn table assigned]
  | cons c columns => simp [tokensOf_insert]

end Insert

section Sought

variable (table column : String) (assigned : List (String × Value)) (key : KeyMatch)
  (keys : List Value)

theorem numbersIn_update :
    numbersIn (tokensOf (update table assigned key).pieces) =
      List.range' 1 (assigned.length + key.columns.length) := by
  rw [tokensOf_update]
  simp [numbersIn_equations numbersIn_comma, numbersIn_equations numbersIn_and,
    ← List.range'_append_1, Nat.add_comm 1]

theorem setIn_update :
    setIn (tokensOf (update table assigned key).pieces) = (assigned.map Prod.fst).zipIdx 1 := by
  have hcomma : ∀ column ts, namedLast column ((word ", ").tokens ++ ts) = namedLast column ts := by
    intro column ts
    rw [tokens_comma]
    rfl
  have hw : "WHERE" ∉ wordsIn (.word "UPDATE" :: .name table :: .word "SET" ::
      tokensOf (equations ", " 1 (assigned.map Prod.fst))) := by
    simp
  rw [setIn, tokensOf_update, textBefore_word hw]
  exact namedLast_equations hcomma table 1 _

private theorem soughtIn_where {ts : List Token} (hw : "WHERE" ∉ wordsIn ts) (first : Nat)
    (columns : List String) :
    soughtIn (ts ++ .word "WHERE" :: tokensOf (equations " AND " first columns)) =
      columns.zipIdx first := by
  have hand : ∀ column ts,
      namedLast column ((word " AND ").tokens ++ ts) = namedLast column ts := by
    intro column ts
    rw [tokens_and]
    rfl
  rw [soughtIn, textFrom_word hw]
  exact namedLast_equations hand "" first columns

theorem soughtIn_update :
    soughtIn (tokensOf (update table assigned key).pieces) =
      key.columns.zipIdx (assigned.length + 1) := by
  have hw : "WHERE" ∉ wordsIn (.word "UPDATE" :: .name table :: .word "SET" ::
      tokensOf (equations ", " 1 (assigned.map Prod.fst))) := by
    simp
  rw [tokensOf_update]
  exact soughtIn_where hw _ _

theorem numbersIn_probe :
    numbersIn (tokensOf (probe table key).pieces) = List.range' 1 key.columns.length := by
  rw [tokensOf_probe]
  simp [numbersIn_equations numbersIn_and]

theorem soughtIn_probe :
    soughtIn (tokensOf (probe table key).pieces) = key.columns.zipIdx 1 := by
  rw [tokensOf_probe]
  exact soughtIn_where (by simp) 1 _

theorem numbersIn_delete :
    numbersIn (tokensOf (delete table key).pieces) = List.range' 1 key.columns.length := by
  rw [tokensOf_delete]
  simp [numbersIn_equations numbersIn_and]

theorem soughtIn_delete :
    soughtIn (tokensOf (delete table key).pieces) = key.columns.zipIdx 1 := by
  rw [tokensOf_delete]
  exact soughtIn_where (by simp) 1 _

theorem numbersIn_deleteAny :
    numbersIn (tokensOf (deleteAny table column keys).pieces) = List.range' 1 keys.length := by
  rw [tokensOf_deleteAny]
  simp

theorem soughtIn_deleteAny :
    soughtIn (tokensOf (deleteAny table column keys).pieces) =
      (List.range' 1 keys.length).map (column, ·) := by
  have hw : "WHERE" ∉ wordsIn [.word "DELETE", .word "FROM", .name table] := by simp
  rw [soughtIn, tokensOf_deleteAny, textFrom_word hw]
  exact (namedLast_placeholders column keys.length _).trans (List.append_nil _)

end Sought

section Bound

/-- The parameter that a placeholder stands for. -/
def param? (s : Statement) : Nat → Option Value
  | 0 => none
  | number + 1 => s.params[number]?

/-- Columns with what their placeholders stand for. -/
def bound (s : Statement) (pairs : List (String × Nat)) : List (String × Option Value) :=
  pairs.map fun e => (e.1, s.param? e.2)

theorem bound_zipIdx {s : Statement} {columns : List String} {before values after : List Value}
    (hp : s.params = before ++ values ++ after) (hl : columns.length = values.length) :
    s.bound (columns.zipIdx (before.length + 1)) = columns.zip (values.map some) := by
  induction columns generalizing before values with
  | nil => rfl
  | cons c columns ih =>
    cases values with
    | nil => cases hl
    | cons v values =>
      have hv : s.param? (before.length + 1) = some v := by simp [param?, hp]
      have hp' : s.params = (before ++ [v]) ++ values ++ after := by simp [hp]
      have hrest := ih hp' (by simpa using hl)
      simp only [List.length_append, List.length_singleton] at hrest
      simp only [List.zipIdx_cons, List.map_cons, List.zip_cons_cons, ← hrest, bound, hv]

theorem bound_zipIdx_one {s : Statement} {columns : List String} {values after : List Value}
    (hp : s.params = values ++ after) (hl : columns.length = values.length) :
    s.bound (columns.zipIdx 1) = columns.zip (values.map some) :=
  @bound_zipIdx s columns [] values after hp hl

theorem bound_assigned {s : Statement} {assigned : List (String × Value)} {after : List Value}
    (hp : s.params = assigned.map Prod.snd ++ after) :
    s.bound ((assigned.map Prod.fst).zipIdx 1) = assigned.map fun e => (e.1, some e.2) := by
  have hl : (assigned.map Prod.fst).length = (assigned.map Prod.snd).length := by simp
  calc s.bound ((assigned.map Prod.fst).zipIdx 1)
    _ = (assigned.map Prod.fst).zip ((assigned.map Prod.snd).map some) :=
      bound_zipIdx_one hp hl
    _ = assigned.map fun e => (e.1, some e.2) := by rw [List.map_map, List.zip_map']; rfl

theorem bound_range' {s : Statement} {values : List Value} (hp : s.params = values)
    (column : String) :
    s.bound ((List.range' 1 values.length).map (column, ·)) =
      values.map fun v => (column, some v) := by
  apply List.ext_getElem
  · simp [bound]
  · intro i hi hi'
    simp only [List.length_map] at hi'
    simp [bound, param?, hp, Nat.add_comm 1 i, hi']

end Bound

end Statement

end UnitOfWork
