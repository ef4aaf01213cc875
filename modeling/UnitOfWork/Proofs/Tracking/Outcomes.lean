import UnitOfWork.Proofs.Tracking.SoundWorkspace

/-!
# What tracking comes to

All that may come of tracking one record or of no longer tracking it, case by case: which record
stands for the row afterwards, and what has changed in the bucket and in the records. Whatever is to
be shown of all histories is shown of these cases.
-/

namespace UnitOfWork

/-- What an operation has returned, unless it failed. -/
def returned? {ε ρ α : Type} : EStateM.Result ε ρ α → Option α
  | .ok a _ => some a
  | .error _ _ => none

theorem exists_of_returned? {ε ρ α : Type} {x : EStateM.Result ε ρ α} (hx : returned? x = none) :
    ∃ e, x = .error e (endState x) := by
  cases x with
  | ok a s => cases hx
  | error e s => exact ⟨e, rfl⟩

namespace Heap

variable {h : Heap} {kind : KeyKind} {r : RecordId} {key : RowKey}

theorem fileKey?_congr {h' : Heap} (hk : h'.primaryKey? r = h.primaryKey? r) :
    h'.fileKey? kind r = h.fileKey? kind r := by
  rw [fileKey?, fileKey?, hk]

theorem fileKey_congr {h' : Heap} (hk : h'.primaryKey? r = h.primaryKey? r)
    (ht : (h'.get r).type = (h.get r).type) : h'.fileKey kind r = h.fileKey kind r := by
  rw [fileKey, fileKey, fileKey?_congr hk, describe, describe, hk, ht]

theorem primaryKey?_of_fileKey? (hk : h.fileKey? kind r = .ok (some key)) :
    h.primaryKey? r = some key ∧ key.isFiledUnder kind := by
  rw [fileKey?] at hk
  cases hp : h.primaryKey? r with
  | none => rw [hp] at hk; cases hk
  | some key' =>
    rw [hp] at hk
    dsimp only at hk
    split at hk
    · next hfiled =>
      obtain rfl : key' = key := Option.some.inj (Except.ok.inj hk)
      exact ⟨rfl, hfiled⟩
    · cases hk

theorem fileKey?_of_fileKey (hk : h.fileKey kind r = .ok key) :
    h.fileKey? kind r = .ok (some key) := by
  rw [fileKey] at hk
  cases hf : h.fileKey? kind r with
  | error e => rw [hf] at hk; cases hk
  | ok found =>
    rw [hf] at hk
    cases found with
    | none => cases hk
    | some key' =>
      obtain rfl : key' = key := Except.ok.inj hk
      rfl

theorem fileKey_of_fileKey? (hk : h.fileKey? kind r = .ok (some key)) :
    h.fileKey kind r = .ok key := by
  rw [fileKey, hk]
  rfl

private theorem fileKey_eq_error {e : Error} (hk : h.fileKey? kind r = .error e) :
    h.fileKey kind r = .error e := by
  rw [fileKey, hk]
  rfl

end Heap

namespace Bucket

/-- The bucket after a new record has been found to be ready for a commit. -/
def listing (b : Bucket) (r : RecordId) : Bucket :=
  { b with pending := b.pending.erase r, new := b.new.insert r }

/-- The bucket after a new record has been folded into another one. -/
def folding (b : Bucket) (r : RecordId) : Bucket :=
  { b with pending := b.pending.erase r, new := (b.new.insert r).erase r }

/-- A new record that is ready and has a key to be filed under. -/
structure Keyed (h : Heap) (kind : KeyKind) (r : RecordId) (key : RowKey) : Prop where
  isNew : (h.get r).isNew
  ready : (h.get r).isCommitReady
  notGenerated : (h.get r).type.generatedCount = 0
  fileKey : h.fileKey? kind r = .ok (some key)

/-- A record that has a row, with the key that it is filed under. -/
structure Stored (h : Heap) (kind : KeyKind) (r : RecordId) (key : RowKey) : Prop where
  notNew : (h.get r).isNew = false
  fileKey : h.fileKey kind r = .ok key

/-- What may come of tracking `r`: the record that stands for its row from now on, if it can be
told, and the bucket and the records afterwards. -/
inductive Tracks (kind : KeyKind) (b : Bucket) (h : Heap) (r : RecordId) (importing : Bool) :
    Option RecordId → Bucket → Heap → Prop
  /-- A part of the key is still owed. -/
  | waits : (h.get r).isNew → (h.get r).isCommitReady = false →
    Tracks kind b h r importing (some r) { b with pending := b.pending.insert r } h
  /-- The key is not known yet. -/
  | lists : (h.get r).isNew → (h.get r).isCommitReady →
    (h.get r).type.generatedCount ≠ 0 ∨ h.fileKey? kind r = .ok none →
    Tracks kind b h r importing (some r) (b.listing r) h
  /-- The key cannot be filed. -/
  | misfiles : (h.get r).isNew → (h.get r).isCommitReady →
    (∀ key, h.fileKey? kind r ≠ .ok key) → Tracks kind b h r importing none (b.listing r) h
  | joins {key : RowKey} {q : RecordId} : Keyed h kind r key → b.rival? key r = some q →
    Tracks kind b h r importing (some q) (b.folding r) (h.modify q (·.absorb (h.get r)))
  | revives {key : RowKey} {q : RecordId} : Keyed h kind r key → b.rival? key r = none →
    b.deleted.get? key = some q →
    Tracks kind b h r importing (some q)
      { b.folding r with deleted := b.deleted.erase key, live := b.live.insert key q }
      (h.modify q (·.undelete.absorb (h.get r)))
  | files {key : RowKey} : Keyed h kind r key → b.rival? key r = none →
    b.deleted.get? key = none →
    Tracks kind b h r importing (some r)
      { b.listing r with newByKey := b.newByKey.insert key r } h
  /-- A record that has a row has no key to be filed under. -/
  | fails : (h.get r).isNew = false → (∀ key, h.fileKey kind r ≠ .ok key) →
    Tracks kind b h r importing none b h
  | finds {key : RowKey} : Stored h kind r key → importing = false → b.live.get? key = some r →
    Tracks kind b h r importing (some r) b h
  | merges {key : RowKey} {q : RecordId} : Stored h kind r key → importing = false →
    b.live.get? key = some q → q ≠ r →
    Tracks kind b h r importing (some q) b (h.modify q fun k =>
      if (h.get q).isDeleted || (h.get r).isDeleted then (k.merge (h.get r)).markDeleted
      else k.merge (h.get r))
  | mergesDeleted {key : RowKey} {q : RecordId} : Stored h kind r key → importing = false →
    b.live.get? key = none → b.deleted.get? key = some q →
    Tracks kind b h r importing (some q) b (h.modify q fun k =>
      (if q = r then k else k.merge (h.get r)).markDeleted)
  | enters {key : RowKey} : Stored h kind r key → (importing = false → b.live.get? key = none) →
    b.deleted.get? key = none →
    Tracks kind b h r importing (some r) { b with live := b.live.insert key r } h
  | replacesDeleted {key : RowKey} : Stored h kind r key → importing → (h.get r).isDeleted →
    b.deleted.contains key →
    Tracks kind b h r importing (some r) { b with deleted := b.deleted.insert key r } h
  | restores {key : RowKey} : Stored h kind r key → importing → (h.get r).isDeleted = false →
    b.deleted.contains key →
    Tracks kind b h r importing (some r)
      { b with deleted := b.deleted.erase key, live := b.live.insert key r } h

variable {kind : KeyKind} {b : Bucket} {h : Heap} {r : RecordId} {importing : Bool}

private theorem placeNew_tracks {key : RowKey} (hk : Keyed h kind r key) :
    Tracks kind b h r importing (returned? (placeNew r key (b.listing r, h)))
      (endState (placeNew r key (b.listing r, h))).1
      (endState (placeNew r key (b.listing r, h))).2 := by
  rw [placeNew]
  split
  · next q hq => exact .joins hk hq
  · next hq =>
    split
    · next q hd => exact .revives hk hq hd
    · next hd => exact .files hk hq hd

private theorem trackNew_tracks (hn : (h.get r).isNew) :
    Tracks kind b h r importing (returned? (trackNew kind r (b, h)))
      (endState (trackNew kind r (b, h))).1 (endState (trackNew kind r (b, h))).2 := by
  rw [trackNew]
  split
  · next hready =>
    dsimp only
    split
    · next hg => exact .lists hn hready (.inl (by omega))
    · next hg =>
      split
      · next e he => exact .misfiles hn hready fun key hk => by rw [he] at hk; cases hk
      · next he => exact .lists hn hready (.inr he)
      · next key he => exact placeNew_tracks ⟨hn, hready, by omega, he⟩
  · next hready => exact .waits hn (by simpa using hready)

private theorem trackFetched_tracks {key : RowKey} (hs : Stored h kind r key) :
    Tracks kind b h r false (returned? (trackFetched r key (b, h)))
      (endState (trackFetched r key (b, h))).1 (endState (trackFetched r key (b, h))).2 := by
  rw [trackFetched]
  split
  · next q hq =>
    split
    · next he => exact .finds hs rfl (he ▸ hq)
    · next hne => exact .merges hs rfl hq hne
  · next hl =>
    split
    · next q hq => exact .mergesDeleted hs rfl hl hq
    · next hd => exact .enters hs (fun _ => hl) hd

private theorem trackImported_tracks {key : RowKey} (hs : Stored h kind r key) :
    Tracks kind b h r true (returned? (trackImported r key (b, h)))
      (endState (trackImported r key (b, h))).1 (endState (trackImported r key (b, h))).2 := by
  rw [trackImported]
  split
  · next hc =>
    split
    · next hd => exact .replacesDeleted hs rfl hd hc
    · next hd => exact .restores hs rfl (Bool.not_eq_true _ ▸ hd) hc
  · next hc =>
    refine .enters hs (fun h => Bool.noConfusion h) ?_
    rwa [FinMap.contains, Bool.not_eq_true, Option.isSome_eq_false_iff,
      Option.isNone_iff_eq_none] at hc

theorem track_tracks (kind : KeyKind) (b : Bucket) (h : Heap) (r : RecordId) (importing : Bool) :
    Tracks kind b h r importing (returned? (track kind r importing (b, h)))
      (endState (track kind r importing (b, h))).1
      (endState (track kind r importing (b, h))).2 := by
  rw [track]
  split
  · next hn => exact trackNew_tracks hn
  · next hn =>
    rw [Bool.not_eq_true] at hn
    split
    · next e he => exact .fails hn fun key hk => by rw [he] at hk; cases hk
    · next key hk =>
      cases importing with
      | true => exact trackImported_tracks ⟨hn, hk⟩
      | false => exact trackFetched_tracks ⟨hn, hk⟩

theorem track_error {e : Error} {s : Bucket × Heap}
    (he : track kind r importing (b, h) = .error e s) : h.fileKey kind r = .error e := by
  rw [track] at he
  split at he
  · rw [trackNew] at he
    split at he
    · dsimp only at he
      split at he
      · cases he
      · split at he
        · next hfile =>
          cases he
          exact Heap.fileKey_eq_error hfile
        · cases he
        · rw [placeNew] at he
          split at he
          · cases he
          · split at he <;> cases he
    · cases he
  · split at he
    · next hfile =>
      cases he
      exact hfile
    · split at he
      · rw [trackImported] at he
        split at he
        · split at he <;> cases he
        · cases he
      · rw [trackFetched] at he
        split at he
        · split at he <;> cases he
        · split at he <;> cases he

theorem remove_error {e : Error} {s : Bucket × Heap} (he : remove kind r (b, h) = .error e s) :
    h.fileKey kind r = .error e := by
  rw [remove] at he
  split at he
  · dsimp only at he
    split at he
    · next hfile =>
      cases he
      exact Heap.fileKey_eq_error hfile
    · cases he
    · split at he <;> cases he
  · split at he
    · next hfile =>
      cases he
      exact hfile
    · cases he

/-- What may come of no longer tracking `r`, which changes the bucket only. -/
inductive Removes (kind : KeyKind) (b : Bucket) (h : Heap) (r : RecordId) : Bucket → Prop
  /-- A new record that is not found by its key, or whose key is not known. -/
  | forgets : (h.get r).isNew →
    (∀ key, h.fileKey? kind r = .ok (some key) → b.newByKey.get? key ≠ some r) →
    Removes kind b h r { b with new := b.new.erase r, pending := b.pending.erase r }
  | unfiles {key : RowKey} : (h.get r).isNew → h.fileKey? kind r = .ok (some key) →
    b.newByKey.get? key = some r →
    Removes kind b h r
      { b with
        new := b.new.erase r, pending := b.pending.erase r, newByKey := b.newByKey.erase key }
  /-- A record that has a row has no key to be filed under. -/
  | fails : (h.get r).isNew = false → (∀ key, h.fileKey kind r ≠ .ok key) → Removes kind b h r b
  | deletes {key : RowKey} : Stored h kind r key →
    Removes kind b h r
      { b with live := b.live.erase key, deleted := b.deleted.insert key r }

theorem remove_removes (kind : KeyKind) (b : Bucket) (h : Heap) (r : RecordId) :
    (endState (remove kind r (b, h))).2 = h ∧
      Removes kind b h r (endState (remove kind r (b, h))).1 := by
  rw [remove]
  split
  · next hn =>
    dsimp only
    split
    · next e he => exact ⟨rfl, .forgets hn fun key hk => by rw [he] at hk; cases hk⟩
    · next he => exact ⟨rfl, .forgets hn fun key hk => by rw [he] at hk; cases hk⟩
    · next key he =>
      split
      · next hk => exact ⟨rfl, .unfiles hn he hk⟩
      · next hk =>
        refine ⟨rfl, .forgets hn fun key' hk' => ?_⟩
        obtain rfl : key = key' := Option.some.inj (Except.ok.inj (he.symm.trans hk'))
        exact hk
  · next hn =>
    rw [Bool.not_eq_true] at hn
    split
    · next e he => exact ⟨rfl, .fails hn fun key hk => by rw [he] at hk; cases hk⟩
    · next key hk => exact ⟨rfl, .deletes ⟨hn, hk⟩⟩

theorem rival?_eq_some {key : RowKey} {q : RecordId} (hq : b.rival? key r = some q) :
    q ≠ r ∧ (b.newByKey.get? key = some q ∨
      b.live.get? key = some q ∧ ∀ n, b.newByKey.get? key = some n → n = r) := by
  rw [rival?] at hq
  cases hn : (b.newByKey.get? key).filter fun x => decide (x ≠ r) with
  | some n =>
    rw [hn] at hq
    obtain rfl : n = q := Option.some.inj hq
    obtain ⟨hget, hne⟩ := Option.filter_eq_some_iff.mp hn
    exact ⟨by simpa using hne, .inl hget⟩
  | none =>
    rw [hn] at hq
    obtain ⟨hget, hne⟩ := Option.filter_eq_some_iff.mp hq
    refine ⟨by simpa using hne, .inr ⟨hget, fun n hget' => ?_⟩⟩
    simpa using Option.filter_eq_none_iff.mp hn n hget'

theorem rival?_eq_none {key : RowKey} (hq : b.rival? key r = none) :
    (∀ n, b.newByKey.get? key = some n → n = r) ∧ ∀ n, b.live.get? key = some n → n = r := by
  rw [rival?, Option.orElse_eq_orElse, Option.orElse_eq_or, Option.or_eq_none_iff] at hq
  exact ⟨fun n hget => by simpa using Option.filter_eq_none_iff.mp hq.1 n hget,
    fun n hget => by simpa using Option.filter_eq_none_iff.mp hq.2 n hget⟩

/-- The record is tracked as a new one. -/
def ListsNew (b : Bucket) (q : RecordId) : Prop := q ∈ b.new.toList ∨ q ∈ b.pending.toList

variable {name : String} {b' : Bucket} {h' : Heap} {q : RecordId} {answer : Option RecordId}

theorem listsNew_listing (hs : b.Sound kind name h) :
    (b.listing r).ListsNew q ↔ q = r ∨ b.ListsNew q := by
  simp only [ListsNew, listing, hs.newCoherent.mem_insert, hs.pendingCoherent.mem_erase]
  tauto

theorem listsNew_folding (hs : b.Sound kind name h) :
    (b.folding r).ListsNew q ↔ q ≠ r ∧ b.ListsNew q := by
  simp only [ListsNew, folding, (hs.newCoherent.insert r).mem_erase, hs.newCoherent.mem_insert,
    hs.pendingCoherent.mem_erase]
  tauto

theorem Tracks.listsNew_of_ne (a : Tracks kind b h r importing answer b' h')
    (hs : b.Sound kind name h) (hne : q ≠ r) (hq : b.ListsNew q) : b'.ListsNew q := by
  have hlisted : (b.listing r).ListsNew q := (listsNew_listing hs).mpr (.inr hq)
  have hfolded : (b.folding r).ListsNew q := (listsNew_folding hs).mpr ⟨hne, hq⟩
  cases a with
  | waits => exact hq.imp_right fun hq => hs.pendingCoherent.mem_insert.mpr (.inr hq)
  | lists | misfiles => exact hlisted
  | joins => exact hfolded
  | revives => exact hfolded
  | files => exact hlisted
  | fails | finds | merges | mergesDeleted | enters | replacesDeleted | restores => exact hq

theorem Removes.listsNew_of_ne (a : Removes kind b h r b') (hs : b.Sound kind name h)
    (hne : q ≠ r) (hq : b.ListsNew q) : b'.ListsNew q := by
  cases a with
  | forgets | unfiles =>
    exact hq.imp (fun hm => hs.newCoherent.mem_erase.mpr ⟨hne, hm⟩)
      fun hm => hs.pendingCoherent.mem_erase.mpr ⟨hne, hm⟩
  | fails | deletes => exact hq

end Bucket

namespace Registry

variable {kind : KeyKind} {r : RecordId}

theorem onBucket_eq {α : Type} (x : Tracking Bucket α) (g : Registry kind) (h : Heap) :
    returned? (onBucket r x (g, h)) = returned? (x (g.bucket (h.get r).type, h)) ∧
      endState (onBucket r x (g, h)) =
        (g.setBucket (h.get r).type.name (endState (x (g.bucket (h.get r).type, h))).1,
          (endState (x (g.bucket (h.get r).type, h))).2) := by
  simp only [onBucket, Tracking.within]
  cases x (g.bucket (h.get r).type, h) <;> exact ⟨rfl, rfl⟩

theorem bucket_cases (g : Registry kind) (t : RecordType) :
    g.buckets.get? t.name = some (g.bucket t) ∨ g.bucket t = { type := t } := by
  rw [bucket]
  cases g.buckets.get? t.name with
  | none => exact .inr rfl
  | some b => exact .inl rfl

theorem bucket_setBucket (g : Registry kind) (t : RecordType) (b : Bucket) :
    (g.setBucket t.name b).bucket t = b := by
  rw [bucket, setBucket, NameMap.get?_insert, if_pos rfl, Option.getD_some]

end Registry

end UnitOfWork
