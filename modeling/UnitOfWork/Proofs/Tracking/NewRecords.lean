import UnitOfWork.Proofs.Commit.UnsavedChanges
import UnitOfWork.Proofs.Tracking.Outcomes

/-!
# New records and their keys

The new records of a bucket are found by their keys in an index, so that two records for the same
row become one. The index is to hold records only that a commit writes. There are two ways for an
entry to be left behind when its record is no longer tracked as new: the record was handed to the
registry again and folded into another one, or it was deleted while its key was not known. A record
that is folded into an entry that was left behind is not written by any commit.
-/

namespace UnitOfWork

namespace Bucket

/-- A commit writes the record if it stays as it is. -/
def Holds (b : Bucket) (r : RecordId) : Prop :=
  r ∈ b.new.toList ∨ r ∈ b.pending.toList ∨ r ∈ b.live.values

/-- Each record that is found by its key is tracked as a new one, unless `E` excuses it. -/
def IndexesNew (E : RecordId → Prop) (b : Bucket) : Prop :=
  ∀ key q, b.newByKey.get? key = some q → b.ListsNew q ∨ E q

/-- A new record that is found by its key has no other one. -/
def KeepsKeys (b : Bucket) (h : Heap) : Prop :=
  ∀ e ∈ b.newByKey.entries, h.primaryKey? e.2 = none ∨ h.primaryKey? e.2 = some e.1

variable {kind : KeyKind} {name : String} {b b' : Bucket} {h h' : Heap} {r q : RecordId}
  {importing : Bool} {answer : Option RecordId} {E E' : RecordId → Prop}

private theorem KeepsKeys.eq (hk : b.KeepsKeys h) {key key' : RowKey}
    (hget : b.newByKey.get? key = some q)
    (hf : h.fileKey? kind q = .ok (some key')) : key = key' := by
  have hp := (Heap.primaryKey?_of_fileKey? hf).1
  rcases hk (key, q) (FinMap.mem_of_lookup hget) with hnone | hsome
  · rw [hnone] at hp
    cases hp
  · exact Option.some.inj (hsome.symm.trans hp)

theorem IndexesNew.imp (hb : b.IndexesNew E) (hindex : b'.newByKey = b.newByKey)
    (hE : ∀ q, b.ListsNew q ∨ E q → b'.ListsNew q ∨ E' q) : b'.IndexesNew E' := by
  intro key q hq
  rw [hindex] at hq
  exact hE q (hb key q hq)

/-- What excuses the entries of an index after `r` was handed over: if it is new, `P` does. -/
def Excused (E : RecordId → Prop) (h : Heap) (r : RecordId) (P : Prop) (q : RecordId) : Prop :=
  if r = q ∧ (h.get r).isNew then P else E q

private theorem Excused.of_row {P : Prop} (hn : (h.get r).isNew = false) :
    b.ListsNew q ∨ E q → b.ListsNew q ∨ Excused E h r P q :=
  Or.imp_right fun he => by rwa [Excused, if_neg (by simp [hn])]

private theorem Excused.of_ne {P : Prop} (hqr : q ≠ r) (he : E q) : Excused E h r P q := by
  rwa [Excused, if_neg fun hc => hqr hc.1.symm]

private theorem Excused.of_new {P : Prop} (hn : (h.get r).isNew) (hP : P) : Excused E h r P r := by
  rwa [Excused, if_pos ⟨rfl, hn⟩]

/-- A new record that is tracked is no longer indexed without being listed, unless it is folded
into another one. -/
theorem Tracks.indexesNew (a : Tracks kind b h r importing answer b' h') (hs : b.Sound kind name h)
    (hb : b.IndexesNew E) :
    b'.IndexesNew (Excused E h r (∃ c, answer = some c ∧ c ≠ r)) := by
  have hlisted : ∀ {P}, ∀ q, b.ListsNew q ∨ E q → (b.listing r).ListsNew q ∨ Excused E h r P q := by
    intro P q hq
    by_cases hqr : q = r
    · exact .inl ((listsNew_listing hs).mpr (.inl hqr))
    · exact hq.imp (fun ha => (listsNew_listing hs).mpr (.inr ha)) (.of_ne hqr)
  have hfolded : ∀ {P}, (h.get r).isNew → P → ∀ q, b.ListsNew q ∨ E q →
      (b.folding r).ListsNew q ∨ Excused E h r P q := by
    intro P hn hP q hq
    by_cases hqr : q = r
    · subst hqr
      exact .inr (.of_new hn hP)
    · exact hq.imp (fun ha => (listsNew_folding hs).mpr ⟨hqr, ha⟩) (.of_ne hqr)
  cases a with
  | waits =>
    refine hb.imp rfl fun q hq => ?_
    by_cases hqr : q = r
    · exact .inl (.inr (hs.pendingCoherent.mem_insert.mpr (.inl hqr)))
    · exact hq.imp (.imp_right fun hm => hs.pendingCoherent.mem_insert.mpr (.inr hm)) (.of_ne hqr)
  | lists => exact hb.imp rfl hlisted
  | misfiles => exact hb.imp rfl hlisted
  | joins hk hq => exact hb.imp rfl (hfolded hk.isNew ⟨_, rfl, (rival?_eq_some hq).1⟩)
  | @revives key q hk _ hq =>
    refine hb.imp rfl (hfolded hk.isNew ⟨q, rfl, ?_⟩)
    rintro rfl
    have hnot := (hs.deleted q (FinMap.mem_values_of_get? hq)).2
    exact Bool.noConfusion (hnot.symm.trans hk.isNew)
  | @files key hk _ _ =>
    intro key' q hq
    change (b.newByKey.insert key r).get? key' = some q at hq
    rw [FinMap.get?_insert] at hq
    split at hq
    · exact .inl ((listsNew_listing hs).mpr (.inl (Option.some.inj hq).symm))
    · exact hlisted q (hb key' q hq)
  | fails hn => exact hb.imp rfl fun _ => Excused.of_row hn
  | finds hst => exact hb.imp rfl fun _ => Excused.of_row hst.notNew
  | merges hst => exact hb.imp rfl fun _ => Excused.of_row hst.notNew
  | mergesDeleted hst => exact hb.imp rfl fun _ => Excused.of_row hst.notNew
  | enters hst => exact hb.imp rfl fun _ => Excused.of_row hst.notNew
  | replacesDeleted hst => exact hb.imp rfl fun _ => Excused.of_row hst.notNew
  | restores hst => exact hb.imp rfl fun _ => Excused.of_row hst.notNew

private theorem Removes.indexesNew (a : Removes kind b h r b') (hs : b.Sound kind name h)
    (hkeys : b.KeepsKeys h) (hb : b.IndexesNew E) :
    b'.IndexesNew (Excused E h r (∀ key, h.fileKey? kind r ≠ .ok (some key))) := by
  have hothers : ∀ {P q}, q ≠ r → b.ListsNew q ∨ E q →
      ({ b with new := b.new.erase r, pending := b.pending.erase r } : Bucket).ListsNew q ∨
        Excused E h r P q := by
    intro P q hqr hq
    exact hq.imp (.imp (fun hm => hs.newCoherent.mem_erase.mpr ⟨hqr, hm⟩)
      fun hm => hs.pendingCoherent.mem_erase.mpr ⟨hqr, hm⟩) (.of_ne hqr)
  cases a with
  | forgets hn hnot =>
    intro key q hq
    by_cases hqr : q = r
    · subst hqr
      refine .inr (.of_new hn fun key' hk => ?_)
      obtain rfl := hkeys.eq hq hk
      exact hnot key hk hq
    · exact hothers hqr (hb key q hq)
  | @unfiles key hn hk hget =>
    intro key' q hq
    change (b.newByKey.erase key).get? key' = some q at hq
    rw [FinMap.get?_erase] at hq
    split at hq
    · cases hq
    · next hne =>
      refine hothers ?_ (hb key' q hq)
      rintro rfl
      exact hne (hkeys.eq hq hk).symm
  | fails hn => exact hb.imp rfl fun _ => Excused.of_row hn
  | deletes hst => exact hb.imp rfl fun _ => Excused.of_row hst.notNew

/-- The record that stands for a new one is held by the bucket, unless it was found by its key and
is excused. -/
theorem Tracks.holds (a : Tracks kind b h r importing (some q) b' h') (hs : b.Sound kind name h)
    (hn : (h.get r).isNew) (hb : b.IndexesNew E) : b'.Holds q ∨ q ≠ r ∧ E q := by
  have hrow : ¬ (h.get r).isNew = false := by simp [hn]
  have hlisted : r ∈ (b.listing r).new.toList := hs.newCoherent.mem_insert.mpr (.inl rfl)
  cases a with
  | waits => exact .inl (.inr (.inl (hs.pendingCoherent.mem_insert.mpr (.inl rfl))))
  | lists => exact .inl (.inl hlisted)
  | @joins key _ hk hq =>
    obtain ⟨hne, hnew | ⟨hlive, -⟩⟩ := rival?_eq_some hq
    · rcases hb key q hnew with ha | he
      · rcases (listsNew_folding hs).mpr ⟨hne, ha⟩ with hm | hm
        · exact .inl (.inl hm)
        · exact .inl (.inr (.inl hm))
      · exact .inr ⟨hne, he⟩
    · exact .inl (.inr (.inr (FinMap.mem_values_of_get? hlive)))
  | @revives key _ hk _ hq =>
    refine .inl (.inr (.inr (FinMap.mem_values_of_get? (k := key) ?_)))
    exact (FinMap.get?_insert _ _ _ _).trans (if_pos rfl)
  | files => exact .inl (.inl hlisted)
  | finds hst => exact absurd hst.notNew hrow
  | merges hst => exact absurd hst.notNew hrow
  | mergesDeleted hst => exact absurd hst.notNew hrow
  | enters hst => exact absurd hst.notNew hrow
  | replacesDeleted hst => exact absurd hst.notNew hrow
  | restores hst => exact absurd hst.notNew hrow

end Bucket

namespace Registry

variable {kind : KeyKind}

/-- A call that was made of a registry. -/
inductive Call where
  /-- A record was to be tracked; `answer` stands for its row, unless that failed. -/
  | tracked (record : RecordId) (wasNew : Bool) (answer : Option RecordId)
  /-- A record was deleted; `key` is what it was filed under, if that could be told. -/
  | removed (record : RecordId) (wasNew : Bool) (key : Option RowKey)

/-- The call was handed the record as a new one. -/
def Call.isOf (q : RecordId) : Call → Bool
  | tracked r wasNew _ => r = q && wasNew
  | removed r wasNew _ => r = q && wasNew

/-- The last call that was handed `q` as a new record told another one to stand for its row, or
deleted it while its key was not known. The last call comes first. -/
def LeftBehind (past : List Call) (q : RecordId) : Prop :=
  (∃ c, c ≠ q ∧ past.find? (·.isOf q) = some (.tracked q true (some c))) ∨
    past.find? (·.isOf q) = some (.removed q true none)

/-- New records that are found by their keys have no other ones. -/
def KeepsKeys (g : Registry kind) (h : Heap) : Prop := ∀ b ∈ g.buckets.values, b.KeepsKeys h

/-- What an application may have had a registry do, beginning with an empty one: records are
tracked and deleted, and edited in between, and their keys are not reassigned. The last call comes
first. -/
inductive Calls (kind : KeyKind) : List Call → Registry kind → Heap → Prop
  | begin (h : Heap) : Calls kind [] {} h
  | edit {past : List Call} {g : Registry kind} {h h' : Heap} : Calls kind past g h → h.Edits h' →
    Calls kind past g h'
  | track {past : List Call} {g : Registry kind} {h : Heap} {r : RecordId} (importing : Bool) :
    Calls kind past g h → g.KeepsKeys h → r ∈ h.ids → (h.get r).type.kind = kind →
    Calls kind (.tracked r (h.get r).isNew (returned? (track r importing (g, h))) :: past)
      (endState (track r importing (g, h))).1 (endState (track r importing (g, h))).2
  | remove {past : List Call} {g : Registry kind} {h : Heap} {r : RecordId} :
    Calls kind past g h → g.KeepsKeys h → r ∈ h.ids → (h.get r).type.kind = kind →
    Calls kind (.removed r (h.get r).isNew (h.fileKey? kind r).toOption.join :: past)
      (endState (remove r (g, h))).1 (endState (remove r (g, h))).2

variable {past : List Call} {g : Registry kind} {h : Heap} {r : RecordId}

private theorem Calls.sound (calls : Calls kind past g h) : g.Sound h := by
  induction calls with
  | begin h => exact fun name b hb => by cases hb
  | edit _ e ih => exact ih.evolves e.evolves
  | track importing _ _ hr hk ih =>
    exact (preserves_iff.mp (track_sound hr hk) _ ⟨ih, .refl _⟩).1
  | remove _ _ hr hk ih => exact (preserves_iff.mp (remove_sound hr hk) _ ⟨ih, .refl _⟩).1

private theorem KeepsKeys.bucket (hg : g.KeepsKeys h) (t : RecordType) :
    (g.bucket t).KeepsKeys h := by
  rcases g.bucket_cases t with hb | hb
  · exact hg _ (NameMap.mem_values.mpr ⟨t.name, hb⟩)
  · rw [hb]
    exact fun e he => absurd he List.not_mem_nil

/-- Each bucket indexes its new records. -/
def IndexesNew (g : Registry kind) (E : RecordId → Prop) : Prop :=
  ∀ name b, g.buckets.get? name = some b → b.IndexesNew E

variable {E E' : RecordId → Prop}

private theorem IndexesNew.bucket (hg : g.IndexesNew E) (t : RecordType) :
    (g.bucket t).IndexesNew E := by
  rcases g.bucket_cases t with hb | hb
  · exact hg _ _ hb
  · rw [hb]
    exact fun key q hq => by cases hq

private theorem IndexesNew.setBucket (hs : g.Sound h) (hg : g.IndexesNew E) {b : Bucket}
    (hb : b.IndexesNew E')
    (hE : ∀ q, (h.get q).type.name ≠ (h.get r).type.name → E q → E' q) :
    (g.setBucket (h.get r).type.name b).IndexesNew E' := by
  intro name b' hb'
  rcases of_get?_setBucket hb' with ⟨-, rfl⟩ | ⟨hne, hb'⟩
  · exact hb
  · intro key q hq
    refine (hg name b' hb' key q hq).imp_right (hE q ?_)
    rw [((hs name b' hb').newByKey q (FinMap.mem_values_of_get? hq)).1.name]
    exact Ne.symm hne

theorem LeftBehind.cons {q : RecordId} {call : Call} (hcall : call.isOf q = false)
    (hq : LeftBehind past q) : LeftBehind (call :: past) q := by
  rwa [LeftBehind, List.find?_cons_of_neg (by simp [hcall])]

/-- Whatever the history, a record that an index finds is tracked as a new one or was left
behind. -/
theorem Calls.indexesNew (calls : Calls kind past g h) : g.IndexesNew (LeftBehind past) := by
  induction calls with
  | begin h => exact fun name b hb => by cases hb
  | edit _ _ ih => exact ih
  | @track past g h r importing calls _ hr hk ih =>
    have hstep := (Bucket.track_tracks kind (g.bucket (h.get r).type) h r importing).indexesNew
      (calls.sound.bucket _) (ih.bucket _)
    rw [Registry.track, (onBucket_eq _ g h).1, (onBucket_eq _ g h).2]
    refine ih.setBucket calls.sound (fun key q hq => (hstep key q hq).imp_right fun he => ?_)
      fun q hne he => he.cons ?_
    · rw [Bucket.Excused] at he
      split at he
      · next hq =>
        obtain ⟨rfl, hn⟩ := hq
        obtain ⟨c, hc, hne⟩ := he
        refine .inl ⟨c, hne, ?_⟩
        rw [List.find?_cons_of_pos (by simp [Call.isOf, hn]), hn, hc]
      · next hq => exact he.cons (by simpa [Call.isOf] using hq)
    · have hqr : r ≠ q := fun h => hne (by rw [h])
      simp [Call.isOf, hqr]
  | @remove past g h r calls hkeys hr hk ih =>
    have hstep := (Bucket.remove_removes kind (g.bucket (h.get r).type) h r).2.indexesNew
      (calls.sound.bucket _) (hkeys.bucket _) (ih.bucket _)
    rw [Registry.remove, (onBucket_eq _ g h).2]
    refine ih.setBucket calls.sound (fun key q hq => (hstep key q hq).imp_right fun he => ?_)
      fun q hne he => he.cons ?_
    · rw [Bucket.Excused] at he
      split at he
      · next hq =>
        obtain ⟨rfl, hn⟩ := hq
        have hkey : (h.fileKey? kind r).toOption.join = none := by
          cases hf : h.fileKey? kind r with
          | error e => rfl
          | ok key =>
            cases key with
            | none => rfl
            | some key => exact absurd hf (he key)
        refine .inr ?_
        rw [List.find?_cons_of_pos (by simp [Call.isOf, hn]), hn, hkey]
      · next hq => exact he.cons (by simpa [Call.isOf] using hq)
    · have hqr : r ≠ q := fun h => hne (by rw [h])
      simp [Call.isOf, hqr]

/-- A new record that is handed to a registry is not lost: what stands for it is a new or a pending
record or a live one that has a row, unless it is another record that was left behind. -/
theorem Calls.track_holds (calls : Calls kind past g h) (importing : Bool) {c : RecordId}
    (hr : (h.get r).isNew) (hc : returned? (Registry.track r importing (g, h)) = some c) :
    ((endState (Registry.track r importing (g, h))).1.bucket (h.get r).type).Holds c ∨
      c ≠ r ∧ LeftBehind past c := by
  obtain ⟨hanswer, hend⟩ := onBucket_eq (r := r) (Bucket.track kind r importing) g h
  have htracks := Bucket.track_tracks kind (g.bucket (h.get r).type) h r importing
  rw [← Registry.track] at hanswer hend
  rw [hend, bucket_setBucket]
  rw [← hanswer, hc] at htracks
  exact htracks.holds (calls.sound.bucket _) hr (calls.indexesNew.bucket _)

/-! A new record that is folded into one with a row, which is then deleted; the next new record for
the row is folded into the first one. -/

/-- A new item with the key 1. -/
def newItem : Record := (Record.create (itemType "a")).setSlot 0 (.int64 1)

/-- The same item as it was read from its row. -/
def readItem : Record := (Record.persisted (itemType "a")).setSlot 0 (.int64 1)

def oneItem : Heap := (((∅ : Heap).set ⟨0⟩ newItem).set ⟨1⟩ readItem).set ⟨2⟩ newItem

def created : Registry .int64 × Heap := endState (Registry.track ⟨0⟩ false ({}, oneItem))

def read : Registry .int64 × Heap := endState (Registry.track ⟨1⟩ false created)

def folded : Registry .int64 × Heap := endState (Registry.track ⟨0⟩ false read)

def deleted : Registry .int64 × Heap := endState (Registry.remove ⟨1⟩ folded)

def deletedCalls : List Call :=
  [.removed ⟨1⟩ false (some ⟨[.int64 1]⟩), .tracked ⟨0⟩ true (some ⟨1⟩),
    .tracked ⟨1⟩ false (some ⟨1⟩), .tracked ⟨0⟩ true (some ⟨0⟩)]

instance (b : Bucket) (h : Heap) : Decidable (b.KeepsKeys h) :=
  inferInstanceAs (Decidable (∀ e ∈ b.newByKey.entries, _))

instance (g : Registry kind) (h : Heap) : Decidable (g.KeepsKeys h) :=
  inferInstanceAs (Decidable (∀ b ∈ g.buckets.values, _))

instance (b : Bucket) (r : RecordId) : Decidable (b.Holds r) :=
  inferInstanceAs (Decidable (_ ∨ _ ∨ _))

private theorem deleted_calls : Calls .int64 deletedCalls deleted.1 deleted.2 :=
  .remove (r := ⟨1⟩) (.track (r := ⟨0⟩) false (.track (r := ⟨1⟩) false
    (.track (r := ⟨0⟩) false (.begin oneItem) (by decide +kernel) (by decide +kernel)
      (by decide +kernel))
    (by decide +kernel) (by decide +kernel) (by decide +kernel))
    (by decide +kernel) (by decide +kernel) (by decide +kernel))
    (by decide +kernel) (by decide +kernel) (by decide +kernel)

/-- The record that stands for the second new one was left behind. -/
theorem leftBehind_deleted : LeftBehind deletedCalls ⟨0⟩ := by
  have hholds := deleted_calls.track_holds false (r := ⟨2⟩) (c := ⟨0⟩) (by decide +kernel)
    (by decide +kernel)
  exact (hholds.resolve_left (by decide +kernel)).2

/-- Some new record is lost when it is handed to a registry. -/
theorem not_track_holds :
    ¬ ∀ (past : List Call) (g : Registry .int64) (h : Heap) (r c : RecordId) (importing : Bool),
      Calls .int64 past g h → g.KeepsKeys h → r ∈ h.ids → (h.get r).type.kind = .int64 →
        (h.get r).isNew → (h.get r).isDeleted = false →
          returned? (Registry.track r importing (g, h)) = some c →
            ((endState (Registry.track r importing (g, h))).1.bucket (h.get r).type).Holds c := by
  intro hall
  have hholds := hall deletedCalls deleted.1 deleted.2 ⟨2⟩ ⟨0⟩ false deleted_calls
    (by decide +kernel) (by decide +kernel) (by decide +kernel) (by decide +kernel)
    (by decide +kernel) (by decide +kernel)
  revert hholds
  decide +kernel

end Registry

end UnitOfWork
