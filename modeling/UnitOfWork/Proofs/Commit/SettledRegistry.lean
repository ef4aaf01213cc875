import UnitOfWork.Proofs.Commit.Repeating
import UnitOfWork.Proofs.Tracking.Lookup

/-!
# Settling one registry

What settling does to a registry, whatever that holds. It fails just if some new record has no key
that the registry can file, and then nothing is touched. Otherwise the new records of each type are
filed under their keys as live ones, one after the other, and of every record it is known whether it
was committed, reset or left alone; settling once more finds nothing to do.
-/

namespace UnitOfWork

/-- The record after settling, by whether it was new and whether it is live now. -/
def Record.settled (x : Record) (committed live : Bool) : Record :=
  if committed then x.markCommitted else if live then x.resetChanges else x

@[simp]
theorem Record.settled_settled (x : Record) (c l c' l' : Bool) :
    (x.settled c l).settled c' l' = x.settled (c || c') (l || l') := by
  cases c <;> cases l <;> cases c' <;> cases l' <;> rfl

namespace Heap

variable {h : Heap} {r : RecordId} {f : Record → Record}

/-- An update that changes nothing when it is made again is made once for each of the records. -/
theorem get_modifyAll (hf : ∀ x, f (f x) = f x) (h : Heap) (rs : List RecordId) (r : RecordId) :
    (h.modifyAll rs f).get r = if r ∈ rs then f (h.get r) else h.get r := by
  induction rs generalizing h with
  | nil => rfl
  | cons q rs ih =>
    refine (ih (h.modify q f)).trans ?_
    rw [get_modify]
    by_cases hq : q = r
    · subst hq
      simp [hf]
    · simp [hq, Ne.symm hq]

theorem modify_eq_self (hr : r ∈ h.ids) (hf : f (h.get r) = h.get r) : h.modify r f = h := by
  obtain ⟨⟨q, x⟩, hmem, rfl⟩ := List.mem_map.mp hr
  have hx : h.cells.get? q = some x := FinMap.lookup_of_mem h.cells.nodup hmem
  have hget : h.cells.get? q = some (h.get q) := by rw [get, hx, Option.getD_some]
  rw [modify, set, hf, FinMap.insert_of_get? hget]

private theorem modifyAll_eq_self {rs : List RecordId}
    (hrs : ∀ r ∈ rs, r ∈ h.ids ∧ f (h.get r) = h.get r) :
    h.modifyAll rs f = h := by
  induction rs with
  | nil => rfl
  | cons r rs ih =>
    obtain ⟨hr, hf⟩ := hrs r List.mem_cons_self
    change (h.modify r f).modifyAll rs f = h
    rw [modify_eq_self hr hf]
    exact ih fun q hq => hrs q (List.mem_cons_of_mem r hq)

private theorem mem_ids_modifyAll {rs : List RecordId} (f : Record → Record) (hr : r ∈ rs) :
    r ∈ (h.modifyAll rs f).ids := by
  have hkept : ∀ (h : Heap) (qs : List RecordId), r ∈ h.ids → r ∈ (h.modifyAll qs f).ids := by
    intro h qs
    induction qs generalizing h with
    | nil => exact id
    | cons q qs ih => exact fun hr => ih (h.modify q f) (mem_ids_modify.mpr (.inr hr))
  induction rs generalizing h with
  | nil => cases hr
  | cons q rs ih =>
    rcases List.mem_cons.mp hr with rfl | hr
    · exact hkept (h.modify r f) rs (mem_ids_modify.mpr (.inl rfl))
    · exact ih hr

/-- The record has a key that a registry of the kind can file. -/
def IsFilable (h : Heap) (kind : KeyKind) (r : RecordId) : Prop :=
  ∃ key, h.primaryKey? r = some key ∧ key.isFiledUnder kind

private theorem fileKey_eq_ok {kind : KeyKind} {key : RowKey} :
    h.fileKey kind r = .ok key ↔ h.primaryKey? r = some key ∧ key.isFiledUnder kind :=
  ⟨fun hk => primaryKey?_of_fileKey? (fileKey?_of_fileKey hk),
    fun ⟨hk, hfiled⟩ => fileKey_of_primaryKey? hk hfiled⟩

end Heap

namespace Bucket

variable {kind : KeyKind} {b : Bucket} {h : Heap} {written : List (RowKey × RecordId)}

/-- The last of the new records that has the key. -/
def lastNew? (b : Bucket) (h : Heap) (key : RowKey) : Option RecordId :=
  b.new.toList.reverse.find? fun r => h.primaryKey? r = some key

private theorem lastNew?_eq_some_of_distinct {r : RecordId} {key : RowKey} (hr : r ∈ b.new.toList)
    (hk : h.primaryKey? r = some key)
    (hdistinct : ∀ q ∈ b.new.toList, h.primaryKey? q = h.primaryKey? r → q = r) :
    b.lastNew? h key = some r := by
  cases hlast : b.lastNew? h key with
  | none =>
    have hno := List.find?_eq_none.mp hlast r (List.mem_reverse.mpr hr)
    simp [hk] at hno
  | some q =>
    have hq : h.primaryKey? q = some key := by simpa using List.find?_some hlast
    have hmem : q ∈ b.new.toList := List.mem_reverse.mp (List.mem_of_find?_eq_some hlast)
    rw [hdistinct q hmem (hq.trans hk.symm)]

private theorem get?_fileWritten {rs : List RecordId}
    (hw : (rs.mapM fun r => return (← h.fileKey kind r, r)) = Except.ok (ε := Error) written)
    (live : KeyIndex) (key : RowKey) :
    (written.foldl (fun live e => live.insert e.1 e.2) live).get? key =
      (rs.reverse.find? fun r => h.primaryKey? r = some key).or (live.get? key) := by
  induction rs generalizing live written with
  | nil =>
    obtain rfl : [] = written := Except.ok.inj hw
    rfl
  | cons r rs ih =>
    rw [List.mapM_cons] at hw
    cases hr : h.fileKey kind r with
    | error e => rw [hr] at hw; cases hw
    | ok own =>
      rw [hr] at hw
      cases hrest : rs.mapM fun r => return (← h.fileKey kind r, r) with
      | error e => rw [hrest] at hw; cases hw
      | ok rest =>
        rw [hrest] at hw
        obtain rfl : (own, r) :: rest = written := Except.ok.inj hw
        have hown : h.primaryKey? r = some own := (Heap.fileKey_eq_ok.mp hr).1
        rw [List.foldl_cons, ih hrest, FinMap.get?_insert, List.reverse_cons, List.find?_append,
          Option.or_assoc]
        congr 1
        by_cases hkey : own = key <;> simp [hown, hkey]

/-- The bucket `b'` is `b` after settling: its new records have been filed as live ones, and
nothing else of it has changed. -/
structure IsSettledAs (purge : Bool) (b : Bucket) (h : Heap) (b' : Bucket) : Prop where
  type : b'.type = b.type
  new : b'.new = ∅
  newByKey : b'.newByKey = ∅
  pending : b'.pending = b.pending
  deleted : b'.deleted = if purge then ∅ else b.deleted
  live : ∀ key, b'.live.get? key = (b.lastNew? h key).or (b.live.get? key)

private theorem settle_isSettledAs (hw : b.writtenKeys kind h = .ok written) (h' : Heap)
    (purge : Bool) :
    b.IsSettledAs purge h (b.settle h' purge written).1 where
  type := rfl
  new := rfl
  newByKey := rfl
  pending := rfl
  deleted := rfl
  live key := get?_fileWritten hw b.live key

private theorem get_settle (b : Bucket) (h : Heap) (purge : Bool)
    (written : List (RowKey × RecordId))
    (r : RecordId) : (b.settle h purge written).2.get r = (h.get r).settled
      (decide (r ∈ written.map Prod.snd))
      (decide (r ∈ (b.settle h purge written).1.live.values)) := by
  have hcommit := Heap.get_modifyAll (f := .markCommitted) (fun _ => rfl) h
    (written.map Prod.snd) r
  have hreset := Heap.get_modifyAll (f := .resetChanges) (fun _ => rfl)
    (h.modifyAll (written.map Prod.snd) .markCommitted) (b.settle h purge written).1.live.values r
  refine hreset.trans ?_
  rw [hcommit, Record.settled]
  by_cases hr : r ∈ written.map Prod.snd <;>
    by_cases hl : r ∈ (b.settle h purge written).1.live.values <;>
      simp only [hr, hl, if_true, if_false, decide_true, decide_false] <;> rfl

/-- Settling the bucket changes nothing. -/
structure IsFixed (purge : Bool) (b : Bucket) (h : Heap) : Prop where
  new : b.new = ∅
  newByKey : b.newByKey = ∅
  deleted : purge → b.deleted = ∅
  live : ∀ r ∈ b.live.values, r ∈ h.ids ∧ (h.get r).IsSaved

private theorem IsFixed.writtenKeys {purge : Bool} (hb : b.IsFixed purge h) (kind : KeyKind) :
    b.writtenKeys kind h = .ok [] := by
  rw [Bucket.writtenKeys, hb.new]
  rfl

private theorem IsFixed.settle {purge : Bool} (hb : b.IsFixed purge h) :
    b.settle h purge [] = (b, h) := by
  obtain ⟨type, new, newByKey, pending, live, deleted⟩ := b
  obtain ⟨rfl, rfl, hdeleted, hlive⟩ := hb
  have hheap : h.modifyAll live.values .resetChanges = h :=
    Heap.modifyAll_eq_self fun r hr => ⟨(hlive r hr).1, (hlive r hr).2.resetChanges⟩
  have hkept : (if purge then ∅ else deleted) = deleted := by
    split
    · next hp => exact (hdeleted hp).symm
    · rfl
  simp only [Bucket.settle, List.foldl_nil, List.map_nil, hkept]
  exact congrArg _ hheap

end Bucket

namespace Registry

variable {kind : KeyKind} {g g' : Registry kind} {h h' : Heap} {purge : Bool} {r : RecordId}
  {all : List (String × Bucket × List (RowKey × RecordId))}

/-- Every record is committed or reset or neither, in whatever order the buckets are settled. -/
theorem get_settleAll (purge : Bool) (s : Registry kind × Heap)
    (all : List (String × Bucket × List (RowKey × RecordId))) (r : RecordId) (h₀ : Heap) :
    (settleAll purge s all).2.get r = (s.2.get r).settled
      (all.any fun x => r ∈ x.2.2.map Prod.snd)
      (all.any fun x => r ∈ (x.2.1.settle h₀ purge x.2.2).1.live.values) := by
  induction all generalizing s with
  | nil => rfl
  | cons x all ih =>
    have hstep : (settleBucket purge s x).2.get r = _ := Bucket.get_settle x.2.1 s.2 purge x.2.2 r
    refine (ih (settleBucket purge s x)).trans ?_
    rw [hstep, Record.settled_settled]
    rfl

private theorem mem_ids_settleAll {x : String × Bucket × List (RowKey × RecordId)} (hx : x ∈ all)
    (h₀ : Heap) (hr : r ∈ (x.2.1.settle h₀ purge x.2.2).1.live.values) (s : Registry kind × Heap) :
    r ∈ (settleAll purge s all).2.ids := by
  induction all generalizing s with
  | nil => cases hx
  | cons y all ih =>
    rcases List.mem_cons.mp hx with rfl | hx
    · have hreset : r ∈ (settleBucket purge s x).2.ids := Heap.mem_ids_modifyAll _ hr
      exact (settleAll_settles purge (settleBucket purge s x) all).ids r hreset
    · exact ih hx (settleBucket purge s y)

private theorem settle_of_isFixed
    (hg : ∀ name b, g.buckets.get? name = some b → b.IsFixed purge h) :
    settle purge (g, h) = .ok () (g, h) := by
  have hsame : ∀ all : List (String × Bucket × List (RowKey × RecordId)),
      (∀ x ∈ all, g.buckets.get? x.1 = some x.2.1 ∧ x.2.2 = []) →
        settleAll purge (g, h) all = (g, h) := by
    intro all hall
    induction all with
    | nil => rfl
    | cons x all ih =>
      obtain ⟨name, b, written⟩ := x
      obtain ⟨hb, rfl⟩ : g.buckets.get? name = some b ∧ written = [] := hall _ List.mem_cons_self
      have hset : g.setBucket name b = g := by rw [setBucket, NameMap.insert_of_get? hb]
      have hstep : settleBucket purge (g, h) (name, b, []) = (g, h) := by
        simp only [settleBucket, (hg name b hb).settle, hset]
      change settleAll purge (settleBucket purge (g, h) (name, b, [])) all = _
      rw [hstep]
      exact ih fun x hx => hall x (List.mem_cons_of_mem _ hx)
  rw [settle]
  generalize hall : (g.buckets.entries.mapM _ : Except Error _) = result
  cases result with
  | error e =>
    obtain ⟨⟨name, b⟩, hb, he⟩ := mapM_error hall
    have hwritten := (hg name b (NameMap.mem_entries.mp hb)).writtenKeys kind
    dsimp only at he
    rw [hwritten] at he
    cases he
  | ok all =>
    refine congrArg (EStateM.Result.ok ()) (hsame all fun x hx => ?_)
    obtain ⟨hb, hw⟩ := (mem_writtenBuckets hall).mp hx
    rw [(hg x.1 x.2.1 hb).writtenKeys] at hw
    exact ⟨hb, (Except.ok.inj hw).symm⟩

/-- The registry `g`, with the records `h`, has been settled: in each bucket the new records have
been filed, and every record is as settling leaves it. -/
structure IsSettledAs (purge : Bool) (g : Registry kind) (h : Heap) (g' : Registry kind)
    (h' : Heap) : Prop where
  bucket : ∀ name b, g.buckets.get? name = some b →
    ∃ b', g'.buckets.get? name = some b' ∧ b.IsSettledAs purge h b'
  noBucket : ∀ name, g.buckets.get? name = none → g'.buckets.get? name = none
  record : ∀ r, h'.get r =
    (h.get r).settled (decide (r ∈ g.newRecords)) (decide (r ∈ g'.liveRecords))

theorem IsSettledAs.exists_bucket (hs : g.IsSettledAs purge h g' h') {name : String} {b' : Bucket}
    (hb' : g'.buckets.get? name = some b') :
    ∃ b, g.buckets.get? name = some b ∧ b.IsSettledAs purge h b' := by
  cases hb : g.buckets.get? name with
  | none => cases (hs.noBucket name hb).symm.trans hb'
  | some b =>
    obtain ⟨b₁, hb₁, has⟩ := hs.bucket name b hb
    obtain rfl := Option.some.inj (hb₁.symm.trans hb')
    exact ⟨b, rfl, has⟩

theorem IsSettledAs.committed (hs : g.IsSettledAs purge h g' h') (hr : r ∈ g.newRecords) :
    (h'.get r).isNew = false ∧ (h'.get r).inserted = false ∧ (h'.get r).changed = ∅ := by
  rw [hs.record, Record.settled, decide_eq_true hr, if_pos rfl]
  exact ⟨rfl, rfl, rfl⟩

private theorem IsSettledAs.saved (hs : g.IsSettledAs purge h g' h') (hr : r ∈ g'.liveRecords) :
    (h'.get r).IsSaved := by
  rw [hs.record, Record.settled, decide_eq_true hr, if_pos rfl]
  split <;> exact ⟨rfl, rfl⟩

private theorem IsSettledAs.find? (hs : g.IsSettledAs purge h g' h') {name : String} {b : Bucket}
    {key : RowKey} (hb : g.buckets.get? name = some b) (hr : r ∈ b.new.toList)
    (hk : h.primaryKey? r = some key) (hfiled : key.isFiledUnder kind)
    (hdistinct : ∀ q ∈ b.new.toList, h.primaryKey? q = h.primaryKey? r → q = r) :
    g'.find? name key = some r := by
  obtain ⟨b', hb', hsettled⟩ := hs.bucket name b hb
  have hlive : b'.live.get? key = some r := by
    rw [hsettled.live, Bucket.lastNew?_eq_some_of_distinct hr hk hdistinct, Option.some_or]
  rw [Registry.find?, hb', Option.bind_eq_bind, Option.bind_some, if_pos hfiled]
  exact Bucket.find?_eq_some.mpr (.inl hlive)

section

variable (hall : (g.buckets.entries.mapM fun e => do
  return (e.1, e.2, ← e.2.writtenKeys kind h)) = Except.ok (ε := Error) all)

include hall

private theorem exists_written {name : String} {b' : Bucket}
    (hb' : (settleAll purge (g, h) all).1.buckets.get? name = some b') :
    ∃ x ∈ all, ∃ h₀, b' = (x.2.1.settle h₀ purge x.2.2).1 := by
  have hsettled : g.IsSettled purge h _ _ := settleAll_isSettled hall
  obtain ⟨b, -, -, hb, -⟩ := hsettled.exists_bucket hb'
  obtain ⟨written, h₀, hw, hget⟩ := hsettled.bucket name b hb
  exact ⟨(name, b, written), (mem_writtenBuckets hall).mpr ⟨hb, hw⟩, h₀,
    Option.some.inj (hb'.symm.trans hget)⟩

private theorem exists_written_iff (r : RecordId) :
    (∃ x ∈ all, r ∈ x.2.2.map Prod.snd) ↔ r ∈ g.newRecords := by
  rw [mem_newRecords]
  constructor
  · rintro ⟨x, hx, hr⟩
    obtain ⟨hb, hw⟩ := (mem_writtenBuckets hall).mp hx
    exact ⟨x.1, x.2.1, hb, (Bucket.mem_map_writtenKeys hw).mp hr⟩
  · rintro ⟨name, b, hb, hr⟩
    obtain ⟨written, hw⟩ := (writtenBuckets_ok hall).2 name b hb
    exact ⟨(name, b, written), (mem_writtenBuckets hall).mpr ⟨hb, hw⟩,
      (Bucket.mem_map_writtenKeys hw).mpr hr⟩

private theorem exists_live_iff (h₀ : Heap) (r : RecordId) :
    (∃ x ∈ all, r ∈ (x.2.1.settle h₀ purge x.2.2).1.live.values) ↔
      r ∈ (settleAll purge (g, h) all).1.liveRecords := by
  rw [mem_liveRecords]
  constructor
  · rintro ⟨x, hx, hr⟩
    obtain ⟨hb, hw⟩ := (mem_writtenBuckets hall).mp hx
    have hsettled : g.IsSettled purge h _ _ := settleAll_isSettled hall
    obtain ⟨written, h₁, hw', hget⟩ := hsettled.bucket _ _ hb
    obtain rfl : written = x.2.2 := Except.ok.inj (hw'.symm.trans hw)
    exact ⟨x.1, _, hget, hr⟩
  · rintro ⟨name, b', hb', hr⟩
    obtain ⟨x, hx, h₁, rfl⟩ := exists_written hall hb'
    exact ⟨x, hx, hr⟩

private theorem settleAll_isSettledAs :
    g.IsSettledAs purge h (settleAll purge (g, h) all).1 (settleAll purge (g, h) all).2 := by
  have hsettled : g.IsSettled purge h _ _ := settleAll_isSettled hall
  refine ⟨fun name b hb => ?_, hsettled.noBucket, fun r => ?_⟩
  · obtain ⟨written, h₀, hw, hget⟩ := hsettled.bucket name b hb
    exact ⟨_, hget, Bucket.settle_isSettledAs hw h₀ purge⟩
  · rw [get_settleAll purge (g, h) all r h]
    congr 1
    · rw [Bool.eq_iff_iff, List.any_eq_true, decide_eq_true_iff, ← exists_written_iff hall]
      simp only [decide_eq_true_iff]
    · rw [Bool.eq_iff_iff, List.any_eq_true, decide_eq_true_iff, ← exists_live_iff hall h]
      simp only [decide_eq_true_iff]

private theorem settleAll_isFixed {name : String} {b : Bucket}
    (hb : (settleAll purge (g, h) all).1.buckets.get? name = some b) :
    b.IsFixed purge (settleAll purge (g, h) all).2 := by
  obtain ⟨x, hx, h₀, rfl⟩ := exists_written hall hb
  refine ⟨rfl, rfl, fun hp => ?_, fun r hr => ⟨mem_ids_settleAll hx h₀ hr (g, h), ?_⟩⟩
  · simp only [Bucket.settle, hp, if_true]
  · exact settleAll_isSaved hx h₀ hr

end

/-- Whether settling succeeds or not, it leaves everything as it is or settles the registry. -/
theorem settle_cases (g : Registry kind) (h : Heap) (purge : Bool) :
    endState (settle purge (g, h)) = (g, h) ∨
      g.IsSettledAs purge h (endState (settle purge (g, h))).1
        (endState (settle purge (g, h))).2 := by
  rw [settle]
  generalize hall : (g.buckets.entries.mapM _ : Except Error _) = result
  cases result with
  | error e => exact .inl rfl
  | ok all => exact .inr (settleAll_isSettledAs hall)

/-- Settling a registry fails just if some new record has no key that the registry can file, and
then it has changed nothing. Otherwise all new records are committed and filed, each the only one
that is found by its key if no other of its type has the same, all live ones are saved, and
settling once more changes nothing. -/
theorem settle_outcome (g : Registry kind) (h : Heap) (purge : Bool) :
    ((∃ e s, settle purge (g, h) = .error e s) ↔ ∃ r ∈ g.newRecords, ¬ h.IsFilable kind r) ∧
    match settle purge (g, h) with
    | .error _ s => s = (g, h)
    | .ok _ (g', h') =>
      g.IsSettledAs purge h g' h' ∧
      (∀ r ∈ g.newRecords,
        (h'.get r).isNew = false ∧ (h'.get r).inserted = false ∧ (h'.get r).changed = ∅) ∧
      (∀ r ∈ g'.liveRecords, (h'.get r).IsSaved) ∧
      (∀ name b, g.buckets.get? name = some b →
        (∀ r ∈ b.new.toList, ∀ q ∈ b.new.toList, h.primaryKey? q = h.primaryKey? r → q = r) →
          ∀ r ∈ b.new.toList, ∃ key, h'.primaryKey? r = some key ∧ g'.find? name key = some r) ∧
      settle purge (g', h') = .ok () (g', h') := by
  have hfilable : ∀ r, h.IsFilable kind r ↔ ∃ key, h.fileKey kind r = .ok key :=
    fun r => exists_congr fun key => Heap.fileKey_eq_ok.symm
  rw [settle]
  generalize hall : (g.buckets.entries.mapM _ : Except Error _) = result
  cases result with
  | error e =>
    obtain ⟨r, hr, hnot⟩ := exists_unfiled hall
    refine ⟨⟨fun _ => ⟨r, hr, fun hfiled => ?_⟩, fun _ => ⟨e, (g, h), rfl⟩⟩, rfl⟩
    obtain ⟨key, hkey⟩ := (hfilable r).mp hfiled
    exact hnot key hkey
  | ok all =>
    have hsettled : g.IsSettledAs purge h _ _ := settleAll_isSettledAs hall
    have hfiled : ∀ r ∈ g.newRecords, h.IsFilable kind r := by
      intro r hr
      obtain ⟨name, b, hb, hr⟩ := mem_newRecords.mp hr
      obtain ⟨written, hw⟩ := (writtenBuckets_ok hall).2 name b hb
      obtain ⟨e, he, rfl⟩ := List.mem_map.mp ((Bucket.mem_map_writtenKeys hw).mpr hr)
      exact (hfilable e.2).mpr ⟨e.1, ((Bucket.mem_writtenKeys hw).mp he).2⟩
    refine ⟨⟨?_, ?_⟩, hsettled, fun r hr => hsettled.committed hr, fun r hr => hsettled.saved hr,
      fun name b hb hdistinct r hr => ?_, settle_of_isFixed fun _ _ hb => settleAll_isFixed hall hb⟩
    · rintro ⟨e, s, hes⟩
      cases hes
    · rintro ⟨r, hr, hnot⟩
      exact absurd (hfiled r hr) hnot
    · obtain ⟨key, hkey, hkind⟩ := hfiled r (mem_newRecords.mpr ⟨name, b, hb, hr⟩)
      refine ⟨key, ?_, hsettled.find? hb hr hkey hkind (hdistinct r hr)⟩
      exact ((settleAll_settles purge (g, h) all).primaryKey? r).trans hkey

end Registry

open Workspace in
/-- A new page is found by its number once its registry has been settled. That of the node that
lacks its key is not settled. -/
theorem settle_outcome_page :
    (∃ g' h', Registry.settle true ((trackedPage true).1.registry .int32, (trackedPage true).2) =
        .ok () (g', h') ∧
      g'.find? "page" ⟨[.int32 1]⟩ = some ⟨0⟩ ∧ Registry.settle true (g', h') = .ok () (g', h')) ∧
    ∃ e s, Registry.settle true ((trackedPage true).1.registry .int64, (trackedPage true).2) =
      .error e s := by
  constructor
  · have hout := (Registry.settle_outcome ((trackedPage true).1.registry .int32)
      (trackedPage true).2 true).2
    have hok : (returned? (Registry.settle true
        ((trackedPage true).1.registry .int32, (trackedPage true).2))).isSome := by decide +kernel
    have hpage : (endState (Registry.settle true ((trackedPage true).1.registry .int32,
        (trackedPage true).2))).2.primaryKey? ⟨0⟩ = some ⟨[.int32 1]⟩ := by decide +kernel
    have hbucket : ∃ b, ((trackedPage true).1.registry .int32).buckets.get? "page" = some b ∧
        b.new.toList = [⟨0⟩] := ⟨_, rfl, by decide +kernel⟩
    obtain ⟨b, hb, hnew⟩ := hbucket
    cases hs : Registry.settle true
        ((trackedPage true).1.registry .int32, (trackedPage true).2) with
    | error e s => rw [hs] at hok; cases hok
    | ok u s =>
      rw [hs] at hout hpage
      obtain ⟨-, -, -, hfind, hagain⟩ := hout
      obtain ⟨key, hkey, hfound⟩ := hfind "page" b hb (by simp [hnew]) ⟨0⟩ (by simp [hnew])
      obtain rfl : ⟨[.int32 1]⟩ = key := Option.some.inj (hpage.symm.trans hkey)
      exact ⟨s.1, s.2, rfl, hfound, hagain⟩
  · refine (Registry.settle_outcome ((trackedPage true).1.registry .int64)
      (trackedPage true).2 true).1.mpr ⟨⟨1⟩, by decide +kernel, ?_⟩
    rintro ⟨key, hkey, -⟩
    have hnone : (trackedPage true).2.primaryKey? ⟨1⟩ = none := by decide +kernel
    rw [hnone] at hkey
    cases hkey

end UnitOfWork
