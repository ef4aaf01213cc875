import UnitOfWork.Proofs.Commit.Actions
import UnitOfWork.Proofs.Tracking.Folding

/-!
# Inserting one record

The statement that inserts a record is the only event of its insert, and the record is the only one
that changes: it takes over what the store gives back, which fills slots of generated key columns
and never empties one. If the key is one generated column, it is the key that the store gave.
-/

namespace UnitOfWork

namespace RecordType

theorem keyColumn?_some {t : RecordType} {p : KeyColumn → Bool} {c : KeyColumn} {i : Nat}
    (h : t.keyColumn? p = some (c, i)) : t.key[i]? = some c ∧ p c := by
  rw [keyColumn?] at h
  have hm := List.mem_of_find?_eq_some h
  have hp := List.find?_some h
  exact ⟨List.mk_mem_zipIdx_iff_getElem?.mp hm, hp⟩

/-- The key that a row gives a record of the type, when that is one column which the store
generates and which is read back. -/
def givenKey? (t : RecordType) (columns : List String) (row : Row) : Option Key :=
  match t.key with
  | [c] =>
    if c.isGenerated ∧ c.name ∈ columns then (row.find? c.name).bind (Key.ofValue? c.kind) else none
  | _ => none

theorem givenKey?_nil (t : RecordType) (row : Row) : t.givenKey? [] row = none := by
  rw [givenKey?]
  split
  · exact if_neg fun h => List.not_mem_nil h.2
  · rfl

end RecordType

namespace Record

/-- `x'` is `x` after it was written as a row of the type `t`. -/
structure Stored (t : RecordType) (x x' : Record) : Prop where
  type : x'.type = x.type
  references : x'.references = x.references
  isNew : x'.isNew = x.isNew
  isDeleted : x'.isDeleted = x.isDeleted
  inserted : x.inserted → x'.inserted
  slot : ∀ (i : Nat) (c : KeyColumn), x.type.key[i]? = some c →
    c.isGenerated = false → x'.slots[i]? = x.slots[i]?
  filled : ∀ (i : Nat) (k : Key), x.slots[i]? = some (some k) →
    ∃ k', x'.slots[i]? = some (some k')
  value : ∀ name, (x'.values.get? name).isSome →
    (x.values.get? name).isSome ∨ t.hasKeyColumn name

namespace Stored

variable {t : RecordType} {x x' x'' : Record}

theorem refl (t : RecordType) (x : Record) : Stored t x x :=
  ⟨rfl, rfl, rfl, rfl, id, fun _ _ _ _ => rfl, fun _ k hk => ⟨k, hk⟩, fun _ hv => .inl hv⟩

theorem trans (a : Stored t x x') (b : Stored t x' x'') : Stored t x x'' where
  type := b.type.trans a.type
  references := b.references.trans a.references
  isNew := b.isNew.trans a.isNew
  isDeleted := b.isDeleted.trans a.isDeleted
  inserted hi := b.inserted (a.inserted hi)
  slot i c hc hg := (b.slot i c (by rw [a.type, hc]) hg).trans (a.slot i c hc hg)
  filled i k hk := by
    obtain ⟨k', hk'⟩ := a.filled i k hk
    exact b.filled i k' hk'
  value name hv := (b.value name hv).elim (a.value name) .inr

private theorem markInserted (t : RecordType) (x : Record) : Stored t x x.markInserted :=
  { refl t x with inserted := fun _ => rfl }

private theorem markInserted_resetChanges (t : RecordType) (x : Record) :
    Stored t x x.markInserted.resetChanges :=
  { refl t x with inserted := fun _ => rfl }

private theorem applyGenerated {column : String} {v : Value} (hc : t.hasKeyColumn column)
    (h : x.applyGenerated column v = .ok x') : Stored t x x' := by
  rw [Record.applyGenerated] at h
  split at h
  · obtain rfl := Except.ok.inj h
    refine { refl t x with value := fun name hv => ?_ }
    change ((x.values.insert column v).get? name).isSome at hv
    rw [NameMap.get?_insert] at hv
    split at hv
    · next he => exact .inr (he ▸ hc)
    · exact .inl hv
  · next c i hfound =>
    obtain ⟨hci, hp⟩ := RecordType.keyColumn?_some hfound
    split at h
    · next k hk =>
      obtain rfl := Except.ok.inj h
      refine { refl t x with slot := ?_, filled := ?_ }
      · intro j d hd hg
        have hji : i ≠ j := by
          intro he
          subst he
          obtain rfl : c = d := Option.some.inj (hci.symm.trans hd)
          simp [hg] at hp
        exact List.getElem?_set_ne hji
      · intro j k' hk'
        change ∃ k', (x.slots.set i (some k))[j]? = some (some k')
        by_cases hji : i = j
        · subst hji
          obtain ⟨hlt, -⟩ := List.getElem?_eq_some_iff.mp hk'
          exact ⟨k, List.getElem?_set_self hlt⟩
        · exact ⟨k', by rw [List.getElem?_set_ne hji, hk']⟩
    · cases h

end Stored

variable {x x' : Record} {d : KeyColumn}

private theorem keyColumn?_single (hd : x.type.key = [d]) (p : KeyColumn → Bool) :
    x.type.keyColumn? p = if p d then some (d, 0) else none := by
  cases hp : p d <;> simp [RecordType.keyColumn?, hd, hp]

theorem applyGenerated_keeps {column : String} {v : Value}
    (h : x.applyGenerated column v = .ok x') :
    x'.type = x.type ∧ x'.references = x.references ∧ x'.isNew = x.isNew ∧
      x'.isDeleted = x.isDeleted ∧ x'.inserted = x.inserted := by
  rw [applyGenerated] at h
  split at h
  · obtain rfl := Except.ok.inj h
    exact ⟨rfl, rfl, rfl, rfl, rfl⟩
  · split at h
    · obtain rfl := Except.ok.inj h
      exact ⟨rfl, rfl, rfl, rfl, rfl⟩
    · cases h

private theorem applyGenerated_key {v : Value} {k : Key} (hd : x.type.key = [d])
    (hg : d.isGenerated)
    (hk : Key.ofValue? d.kind v = some k) (h : x.applyGenerated d.name v = .ok x') :
    x'.slots = [some k] := by
  have hp : (d.name == d.name && d.isGenerated) = true := by simp [hg]
  rw [applyGenerated, keyColumn?_single hd, if_pos hp] at h
  dsimp only at h
  rw [hk] at h
  obtain rfl := Except.ok.inj h
  have hl : x.slots.length = 1 := by rw [x.slots_length, hd, List.length_singleton]
  obtain ⟨slot, hslot⟩ := List.length_eq_one_iff.mp hl
  change x.slots.set 0 (some k) = [some k]
  rw [hslot, List.set_cons_zero]

private theorem applyGenerated_other {column : String} {v : Value} (hd : x.type.key = [d])
    (hc : column ≠ d.name) (h : x.applyGenerated column v = .ok x') : x'.slots = x.slots := by
  have hp : ¬ (d.name == column && d.isGenerated) = true := by simp [Ne.symm hc]
  rw [applyGenerated, keyColumn?_single hd, if_neg hp] at h
  obtain rfl := Except.ok.inj h
  rfl

end Record

namespace Heap

/-- Only the record `r` has changed, by being written as a row of the type `t`. -/
structure Stores (t : RecordType) (r : RecordId) (h h' : Heap) : Prop where
  ids : ∀ q ∈ h.ids, q ∈ h'.ids
  others : ∀ q, q ≠ r → h'.get q = h.get q
  record : (h.get r).Stored t (h'.get r)

namespace Stores

variable {t : RecordType} {r : RecordId} {h h' h'' : Heap}

theorem refl (t : RecordType) (r : RecordId) (h : Heap) : h.Stores t r h :=
  ⟨fun _ hq => hq, fun _ _ => rfl, .refl t _⟩

theorem trans (a : h.Stores t r h') (b : h'.Stores t r h'') : h.Stores t r h'' where
  ids q hq := b.ids q (a.ids q hq)
  others q hq := (b.others q hq).trans (a.others q hq)
  record := a.record.trans b.record

private theorem set {x : Record} (hx : (h.get r).Stored t x) : h.Stores t r (h.set r x) where
  ids q hq := mem_ids_modify (f := fun _ => x) |>.mpr (.inr hq)
  others q hq := by rw [get_set, if_neg (Ne.symm hq)]
  record := by rwa [get_set, if_pos rfl]

private theorem completeInsert (t : RecordType) (h : Heap) (p : PlannedInsert) :
    h.Stores t p.record (h.completeInsert p) := by
  rw [Heap.completeInsert, modify]
  apply set
  split
  · exact .markInserted t _
  · exact .markInserted_resetChanges t _

/-- Each record but `r` is as it was; about `r` the content of `Record.Stored` is known. -/
theorem stored (a : h.Stores t r h') (q : RecordId) : (h.get q).Stored t (h'.get q) := by
  by_cases hq : q = r
  · exact hq ▸ a.record
  · rw [a.others q hq]
    exact .refl t _

end Stores

private theorem completeInsert_slots (h : Heap) (p : PlannedInsert) :
    ((h.completeInsert p).get p.record).slots = (h.get p.record).slots := by
  rw [completeInsert, get_modify_self]
  split <;> rfl

private theorem completeInsert_inserted (h : Heap) (p : PlannedInsert) :
    ((h.completeInsert p).get p.record).inserted := by
  rw [completeInsert, get_modify_self]
  split <;> rfl

theorem insertStatement_ok {h : Heap} {t : RecordType} {r : RecordId} {st : Statement}
    (hst : h.insertStatement t r = .ok st) : ∃ keyed,
      (h.slotsAs t r).mapM (h.keyAssignment r) = .ok keyed ∧
        st = .insert t.table (addMissing (addMissing keyed.reduceOption
          (h.get r).values.entries) (h.foreignKeys t r))
          ((h.slotsAs t r).filterMap fun (c, _) =>
            if c.isGenerated then some c.name else none) := by
  rw [insertStatement] at hst
  dsimp only at hst
  cases hk : (h.slotsAs t r).mapM (h.keyAssignment r) with
  | error e => rw [hk] at hst; cases hst
  | ok keyed =>
    rw [hk] at hst
    exact ⟨keyed, rfl, (Except.ok.inj hst).symm⟩

private theorem hasKeyColumn_of_mem_returning {h : Heap} {t : RecordType} {r : RecordId}
    {st : Statement}
    (hst : h.insertStatement t r = .ok st) {column : String} (hc : column ∈ st.returning) :
    t.hasKeyColumn column := by
  obtain ⟨keyed, -, rfl⟩ := insertStatement_ok hst
  obtain ⟨⟨c, slot⟩, hm, hname⟩ := List.mem_filterMap.mp hc
  have hkey : c ∈ t.key := (List.of_mem_zip hm).1
  have hcolumn : c.isGenerated ∧ c.name = column := by simpa using hname
  exact List.any_eq_true.mpr ⟨c, hkey, by simpa using hcolumn.2⟩

end Heap

namespace Connection

variable {σ ρ : Type} (c : Connection σ ρ)

/-- How the insert of a record shows in a trace. -/
def insertEvent (r : RecordId) (st : Statement) : Event :=
  if st.returning.isEmpty then .execute c.store r st else .query c.store r st

theorem statement?_insertEvent (r : RecordId) (st : Statement) :
    (c.insertEvent r st).statement? = some (some r, st) := by
  rw [insertEvent]
  split <;> rfl

/-- The statement that inserts `r` as a row of the type `t` has been run, and nothing else. -/
structure Inserts (t : RecordType) (r : RecordId) (st : Statement) (s s' : Session σ) : Prop where
  statement : s.heap.insertStatement t r = .ok st
  trace : s'.trace = s.trace ++ [c.insertEvent r st]
  world : s'.world = if st.returning.isEmpty then (c.execute st.sql st.params s.world).2
    else (c.query st.sql st.params s.world).2
  heap : s.heap.Stores t r s'.heap

/-- The session after a statement for at most one row. -/
def queried (r : Option RecordId) (st : Statement) (s : Session σ) : Session σ :=
  { s.note (.query c.store r st) with world := (c.query st.sql st.params s.world).2 }

/-- The session after a statement for a number of rows. -/
def executed (r : Option RecordId) (st : Statement) (s : Session σ) : Session σ :=
  { s.note (.execute c.store r st) with world := (c.execute st.sql st.params s.world).2 }

theorem perform_triple (t : RecordType) (r : Option RecordId) (st : Statement) (s : Session σ) :
    Triple (· = s) (c.perform t r st)
      (fun n s' => (c.execute st.sql st.params s.world).1 = .ok n ∧ s' = c.executed r st s)
      fun _ s' => (∀ n, (c.execute st.sql st.params s.world).1 ≠ .ok n) ∧
        s' = c.executed r st s := by
  refine Triple.diagnosed (Triple.ask (?_) ?_)
  · intro s' n hs hn
    subst hs
    exact ⟨hn, rfl⟩
  · intro s' halt hs hhalt
    subst hs
    exact ⟨fun n hn => by simp [hn] at hhalt, rfl⟩

theorem fetch_triple (t : RecordType) (r : RecordId) (st : Statement) (s : Session σ) :
    Triple (· = s) (c.fetch t r st)
      (fun row s' => (c.query st.sql st.params s.world).1 = .ok row ∧ s' = c.queried r st s)
      fun _ s' => (∀ row, (c.query st.sql st.params s.world).1 ≠ .ok row) ∧
        s' = c.queried r st s := by
  refine Triple.diagnosed (Triple.ask (?_) ?_)
  · intro s' n hs hn
    subst hs
    exact ⟨hn, rfl⟩
  · intro s' halt hs hhalt
    subst hs
    exact ⟨fun n hn => by simp [hn] at hhalt, rfl⟩

theorem fetchRow_triple (t : RecordType) (r : RecordId) (st : Statement) (s : Session σ) :
    Triple (· = s) (c.fetchRow t r st)
      (fun row s' => (c.query st.sql st.params s.world).1 = .ok (some row) ∧ s' = c.queried r st s)
      fun _ s' => (∀ row, (c.query st.sql st.params s.world).1 ≠ .ok (some row)) ∧
        s' = c.queried r st s := by
  rw [fetchRow]
  apply Triple.bind ((c.fetch_triple t r st s).conseq (fun _ h => h) (fun _ _ h => h)
    fun _ _ h => ⟨fun row => h.1 (some row), h.2⟩)
  intro found
  cases found with
  | some row => exact Triple.pure fun s' h => h
  | none =>
    refine Triple.diagnosed (Triple.fail fun s' h => ⟨fun row hrow => ?_, h.2⟩)
    rw [h.1] at hrow
    cases hrow

variable {c}

private theorem takeGenerated_stores {t : RecordType} {r : RecordId} (row : Row)
    {columns : List String} (hc : ∀ column ∈ columns, t.hasKeyColumn column) (s₀ : Session σ) :
    Preserves (fun s => s.trace = s₀.trace ∧ s.world = s₀.world ∧ s₀.heap.Stores t r s.heap)
      (takeGenerated r row columns : Working σ ρ Unit) := by
  induction columns with
  | nil => exact Preserves.pure ()
  | cons column columns ih =>
    have hrest := ih fun q hq => hc q (List.mem_cons_of_mem _ hq)
    rw [takeGenerated]
    cases row.find? column with
    | none => exact hrest
    | some v =>
      refine Triple.bind (R := fun content s =>
        (s.heap.get r).applyGenerated column v = .ok content ∧
        s.trace = s₀.trace ∧ s.world = s₀.world ∧ s₀.heap.Stores t r s.heap)
        (Triple.reading (fun s a hs ha => ⟨ha, hs⟩) fun s e hs _ => hs) fun content => ?_
      refine Triple.bind (Triple.updating fun s hs => ?_) fun _ => hrest
      have hstored := Record.Stored.applyGenerated (hc column List.mem_cons_self) hs.1
      exact ⟨hs.2.1, hs.2.2.1, hs.2.2.2.trans (.set hstored)⟩

private theorem takeGenerated_given {t : RecordType} {r : RecordId} {row : Row} {d : KeyColumn}
    {k : Key} (ht : t.key = [d]) (hd : d.isGenerated)
    (hk : (row.find? d.name).bind (Key.ofValue? d.kind) = some k) (columns : List String) :
    Triple (fun s => (s.heap.get r).type = t ∧ (d.name ∈ columns ∨ (s.heap.get r).slots = [some k]))
      (takeGenerated r row columns : Working σ ρ Unit) (fun _ s => (s.heap.get r).slots = [some k])
      fun _ _ => True := by
  induction columns with
  | nil => exact Triple.pure fun s hs => hs.2.resolve_left List.not_mem_nil
  | cons column columns ih =>
    rw [takeGenerated]
    cases hv : row.find? column with
    | none =>
      refine ih.conseq (fun s hs => ⟨hs.1, hs.2.imp_left fun hm => ?_⟩) (fun _ _ h => h)
        fun _ _ h => h
      apply (List.mem_cons.mp hm).resolve_left
      intro he
      rw [he, hv] at hk
      cases hk
    | some v =>
      refine Triple.bind (R := fun content s =>
        (s.heap.get r).applyGenerated column v = .ok content ∧
        (s.heap.get r).type = t ∧ (d.name ∈ column :: columns ∨ (s.heap.get r).slots = [some k]))
        (Triple.reading (fun s a hs ha => ⟨ha, hs⟩) fun _ _ _ _ => trivial) fun content => ?_
      refine Triple.bind (Triple.updating fun s hs => ?_) fun _ => ih
      obtain ⟨hcontent, htype, hs⟩ := hs
      subst htype
      dsimp only
      rw [Heap.get_set, if_pos rfl]
      refine ⟨(Record.applyGenerated_keeps hcontent).1, ?_⟩
      by_cases he : column = d.name
      · subst he
        rw [hv] at hk
        exact .inr (Record.applyGenerated_key ht hd hk hcontent)
      · rw [Record.applyGenerated_other ht he hcontent]
        apply hs.imp_left
        intro hm
        exact (List.mem_cons.mp hm).resolve_left (Ne.symm he)

private theorem takeGenerated_triple {t : RecordType} {r : RecordId} {row : Row}
    {columns : List String} (hc : ∀ column ∈ columns, t.hasKeyColumn column) (s₀ : Session σ) :
    Triple (· = s₀) (takeGenerated r row columns : Working σ ρ Unit)
      (fun _ s => (s.trace = s₀.trace ∧ s.world = s₀.world ∧ s₀.heap.Stores t r s.heap) ∧
        ∀ k, (s₀.heap.get r).type.givenKey? columns row = some k → (s.heap.get r).slots = [some k])
      fun _ s => s.trace = s₀.trace ∧ s.world = s₀.world ∧ s₀.heap.Stores t r s.heap := by
  have hstores := (takeGenerated_stores (ρ := ρ) row hc s₀).starting ⟨rfl, rfl, .refl t r _⟩
  rcases hgiven : (s₀.heap.get r).type.givenKey? columns row with _ | k
  · apply hstores.conseq (fun _ h => h) (fun _ _ h => ⟨h, fun k hk => by cases hk⟩)
    intro _ _ h
    exact h
  · rw [RecordType.givenKey?] at hgiven
    split at hgiven
    · next d hd =>
      split at hgiven
      · next hcond =>
        have hslots := (takeGenerated_given (ρ := ρ) hd hcond.1 hgiven columns).starting
          (s := s₀) ⟨rfl, .inl hcond.2⟩
        refine (hstores.and hslots).conseq (fun _ h => ⟨h, h⟩) (fun _ _ h => ⟨h.1, ?_⟩)
          fun _ _ h => h.1
        intro k' hk'
        obtain rfl := Option.some.inj hk'
        exact h.2
      · cases hgiven
    · cases hgiven

/-- The answer to the insert of a record has been taken over. -/
structure Gives (r : RecordId) (st : Statement) (s s' : Session σ) : Prop where
  inserted : (s'.heap.get r).inserted
  slots : ∀ row k, (c.query st.sql st.params s.world).1 = .ok (some row) →
    (s.heap.get r).type.givenKey? st.returning row = some k → (s'.heap.get r).slots = [some k]

/-- What the insert of a record does, when it succeeds and when it does not. -/
theorem insertOne_spec (t : RecordType) (p : PlannedInsert) (s : Session σ) :
    Triple (· = s) (c.insertOne t p)
      (fun _ s' => ∃ st, c.Inserts t p.record st s s' ∧ c.Gives p.record st s s')
      fun _ s' => s' = s ∨ ∃ st, c.Inserts t p.record st s s' := by
  rw [insertOne]
  apply Triple.bind (R := fun st s' => s' = s ∧ s.heap.insertStatement t p.record = .ok st)
    (Triple.reading (fun s' st hs hst => ⟨hs, hs ▸ hst⟩) fun s' e hs _ => .inl hs)
  intro st
  apply Triple.assuming
  intro hst
  have hcolumns : ∀ column ∈ st.returning, t.hasKeyColumn column := by
    intro _
    exact Heap.hasKeyColumn_of_mem_returning hst
  split
  · next hret =>
    have hevent : c.insertEvent p.record st = .execute c.store p.record st := if_pos hret
    have hran : ∀ h, s.heap.Stores t p.record h →
        c.Inserts t p.record st s { c.executed p.record st s with heap := h } := by
      intro h hh
      exact ⟨hst, by rw [hevent]; rfl, (if_pos hret).symm, hh⟩
    refine Triple.bind ((c.perform_triple t p.record st s).conseq (fun _ h => h) (fun _ _ h => h)
      ?_) fun n => Triple.updating ?_
    · intro _ s' h
      rw [h.2]
      exact .inr ⟨st, hran s.heap (.refl t _ _)⟩
    · intro s' h
      rw [h.2]
      refine ⟨st, hran _ (.completeInsert t s.heap p), Heap.completeInsert_inserted s.heap p, ?_⟩
      intro row k _ hk
      rw [List.isEmpty_iff.mp hret, RecordType.givenKey?_nil] at hk
      cases hk
  · next hret =>
    have hevent : c.insertEvent p.record st = .query c.store p.record st := if_neg hret
    have hran : ∀ s', s'.trace = (c.queried p.record st s).trace →
        s'.world = (c.queried p.record st s).world → s.heap.Stores t p.record s'.heap →
        c.Inserts t p.record st s s' := by
      intro s' ht hw hh
      exact ⟨hst, by rw [hevent, ht]; rfl, by rw [hw, if_neg hret]; rfl, hh⟩
    refine Triple.bind ((c.fetchRow_triple t p.record st s).conseq (fun _ h => h) (fun _ _ h => h)
      fun _ s' h => ?_) fun row => ?_
    · rw [h.2]
      exact .inr ⟨st, hran _ rfl rfl (.refl t _ _)⟩
    refine Triple.conseq (P := fun s' => s' = c.queried p.record st s ∧
      (c.query st.sql st.params s.world).1 = .ok (some row)) (Triple.assuming fun hrow => ?_)
      (fun _ h => ⟨h.2, h.1⟩) (fun _ _ h => h) fun _ _ h => h
    refine Triple.bind ((takeGenerated_triple hcolumns _).conseq (fun _ h => h) (fun _ _ h => h)
      ?_) fun _ => Triple.updating ?_
    · intro _ s' h
      exact .inr ⟨st, hran s' h.1 h.2.1 h.2.2⟩
    · intro s' h
      obtain ⟨⟨ht, hw, hh⟩, hk⟩ := h
      refine ⟨st, hran _ ht hw (hh.trans (.completeInsert t _ p)),
        Heap.completeInsert_inserted _ p, fun row' k hrow' hk' => ?_⟩
      obtain rfl : row = row' := by simpa [hrow] using hrow'
      rw [Heap.completeInsert_slots]
      exact hk k hk'

end Connection

end UnitOfWork
