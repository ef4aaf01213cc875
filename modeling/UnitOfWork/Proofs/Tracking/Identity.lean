import UnitOfWork.Proofs.Tracking.Lookup
import UnitOfWork.Proofs.Tracking.Moves
import UnitOfWork.Proofs.Tracking.NewRecords

/-!
# One record for each row

The record that is found by a key stands for the row with that key from then on: it is found again,
and whatever else is tracked for the row is folded into it. It gives way to a record that is
imported in its place, and to one that is written under its key although that was not known when the
record was tracked; and it is found no longer when its row is deleted.
-/

namespace UnitOfWork

namespace Registry

variable {kind : KeyKind} {g : Registry kind} {h : Heap} {purge : Bool} {name : String}

/-- The bucket of the name is as it is in `g`, or it has been settled with what was written of it
when the records were `h`. -/
def Settled (g : Registry kind) (h : Heap) (purge : Bool) (name : String) (g' : Registry kind) :
    Prop :=
  g'.buckets.get? name = g.buckets.get? name ∨
    ∃ b written h', g.buckets.get? name = some b ∧ b.writtenKeys kind h = .ok written ∧
      g'.buckets.get? name = some (b.settle h' purge written).1

private theorem Settled.settleAll (all : List (String × Bucket × List (RowKey × RecordId)))
    (hall : ∀ x ∈ all, g.buckets.get? x.1 = some x.2.1 ∧ x.2.1.writtenKeys kind h = .ok x.2.2)
    (s : Registry kind × Heap) (hs : g.Settled h purge name s.1) :
    g.Settled h purge name (all.foldl (fun (g, h) (name, b, written) =>
      let (b, h) := b.settle h purge written
      (g.setBucket name b, h)) s).1 := by
  induction all generalizing s with
  | nil => exact hs
  | cons x all ih =>
    obtain ⟨hb, hw⟩ := hall x List.mem_cons_self
    apply ih fun y hy => hall y (List.mem_cons_of_mem _ hy)
    have hget : (s.1.setBucket x.1 (x.2.1.settle s.2 purge x.2.2).1).buckets.get? name =
        if x.1 = name then some (x.2.1.settle s.2 purge x.2.2).1 else s.1.buckets.get? name := by
      rw [setBucket, NameMap.get?_insert]
    split at hget
    · next hname => exact .inr ⟨x.2.1, x.2.2, s.2, hname ▸ hb, hw, hget⟩
    · rcases hs with hs | ⟨b, written, h', hb, hw, hs⟩
      · exact .inl (hget.trans hs)
      · exact .inr ⟨b, written, h', hb, hw, hget.trans hs⟩

theorem settle_settled (g : Registry kind) (h : Heap) (purge : Bool) (name : String) :
    g.Settled h purge name (endState (settle purge (g, h))).1 := by
  rw [settle]
  generalize hall : (g.buckets.entries.mapM _ : Except Error _) = result
  cases result with
  | error e => exact .inl rfl
  | ok all => exact Settled.settleAll all (writtenBuckets_ok hall).1 (g, h) (.inl rfl)

end Registry

/-- The kind of the first component, which tells the registry of a record with the key. -/
def RowKey.kind? (key : RowKey) : Option KeyKind := key.components.head?.map Key.kind

theorem RowKey.isFiledUnder_of_kind? {key : RowKey} {kind : KeyKind} (hk : key.kind? = some kind) :
    key.isFiledUnder kind := by
  obtain ⟨_ | ⟨c, cs⟩⟩ := key
  · cases hk
  · obtain rfl := Option.some.inj hk
    cases cs <;> simp [isFiledUnder, single?]

private theorem RowKey.exists_of_kind (kind : KeyKind) : ∃ key : RowKey, key.kind? = some kind := by
  cases kind with
  | int32 => exact ⟨⟨[.int32 0]⟩, rfl⟩
  | int64 => exact ⟨⟨[.int64 0]⟩, rfl⟩
  | uuid => exact ⟨⟨[.uuid ⟨0⟩]⟩, rfl⟩
  | text => exact ⟨⟨[.text ""]⟩, rfl⟩

namespace Workspace

variable {α : Type} {kind : KeyKind} {w : Workspace} {h : Heap} {name : String} {key : RowKey}
  {a : RecordId}

/-- The bucket in which a record of the type is found by the key. -/
def bucket? (w : Workspace) (name : String) (key : RowKey) : Option Bucket :=
  key.kind?.bind fun kind => (w.registry kind).buckets.get? name

theorem find?_eq (w : Workspace) (name : String) (key : RowKey) : w.find? name key =
    if w.config.bypass then none else (w.bucket? name key).bind (·.find? key) := by
  rw [find?]
  split
  · rfl
  · obtain ⟨_ | ⟨c, cs⟩⟩ := key
    · rfl
    · have hk : (RowKey.mk (c :: cs)).kind? = some c.kind := rfl
      have hfiled := RowKey.isFiledUnder_of_kind? hk
      rw [bucket?, hk]
      simp [Registry.find?, hfiled]

theorem bucket?_of_kind? (hk : key.kind? = some kind) :
    w.bucket? name key = (w.registry kind).buckets.get? name := by rw [bucket?, hk]; rfl

theorem get?_onBucket (r : RecordId) (x : Tracking Bucket α) (s : Workspace × Heap)
    (kind' : KeyKind) (name : String) :
    ((endState (onRegistry kind (Registry.onBucket r x) s)).1.registry kind').buckets.get? name =
      if kind' = kind ∧ (s.2.get r).type.name = name then
        some (endState (x ((s.1.registry kind).bucket (s.2.get r).type, s.2))).1
      else (s.1.registry kind').buckets.get? name := by
  have hend := (Registry.onBucket_eq (r := r) x (s.1.registry kind) s.2).2
  rw [endState_onRegistry, hend]
  dsimp only
  by_cases hsame : kind' = kind
  · subst hsame
    rw [registry_setRegistry, Registry.setBucket, NameMap.get?_insert]
    simp
  · rw [registry_setRegistry_of_ne hsame, if_neg fun hc => hsame hc.1]

theorem bucket?_onBucket (r : RecordId) (x : Tracking Bucket α) (s : Workspace × Heap) :
    (endState (onRegistry kind (Registry.onBucket r x) s)).1.bucket? name key =
      if key.kind? = some kind ∧ (s.2.get r).type.name = name then
        some (endState (x ((s.1.registry kind).bucket (s.2.get r).type, s.2))).1
      else s.1.bucket? name key := by
  cases hk : key.kind? with
  | none => simp [bucket?, hk]
  | some kind' =>
    rw [bucket?_of_kind? hk, bucket?_of_kind? hk, get?_onBucket]
    simp only [Option.some.injEq]

theorem heap_onBucket (kind : KeyKind) (r : RecordId) (x : Tracking Bucket α)
    (s : Workspace × Heap) :
    (endState (onRegistry kind (Registry.onBucket r x) s)).2 =
      (endState (x ((s.1.registry kind).bucket (s.2.get r).type, s.2))).2 := by
  have hend := (Registry.onBucket_eq (r := r) x (s.1.registry kind) s.2).2
  rw [endState_onRegistry, hend]

theorem returned?_onRegistry {x : Tracking (Registry kind) α} (s : Workspace × Heap) :
    returned? (onRegistry kind x s) = returned? (x (s.1.registry kind, s.2)) := by
  simp only [onRegistry, Tracking.within]
  cases x (s.1.registry kind, s.2) <;> rfl

/-- Which record is told to stand for the row of another one is decided in the bucket of its
type. -/
theorem returned?_track {s : Workspace × Heap} (hbypass : s.1.config.bypass = false)
    (r : RecordId) : returned? (track r s) =
      returned? (Bucket.track (s.2.get r).type.kind r false
        ((s.1.registry (s.2.get r).type.kind).bucket (s.2.get r).type, s.2)) := by
  rw [← (Registry.onBucket_eq (r := r) (Bucket.track _ r false) (s.1.registry _) s.2).1]
  change returned? ((if s.1.config.bypass then pure r else enroll r false :
    Tracking Workspace RecordId) s) = _
  rw [hbypass]
  exact returned?_onRegistry s

private theorem bucket?_settle (kind : KeyKind) (name : String) (key : RowKey)
    (s : Workspace × Heap) (purge : Bool) :
    (endState (onRegistry kind (Registry.settle purge) s)).1.bucket? name key =
        s.1.bucket? name key ∨
      ∃ b written h', key.kind? = some kind ∧ s.1.bucket? name key = some b ∧
        b.writtenKeys kind s.2 = .ok written ∧
          (endState (onRegistry kind (Registry.settle purge) s)).1.bucket? name key =
            some (b.settle h' purge written).1 := by
  rw [endState_onRegistry]
  dsimp only
  cases hk : key.kind? with
  | none => exact .inl (by simp [bucket?, hk])
  | some kind' =>
    rw [bucket?_of_kind? hk, bucket?_of_kind? hk]
    by_cases hsame : kind' = kind
    · subst hsame
      rw [registry_setRegistry]
      rcases (s.1.registry kind').settle_settled s.2 purge name with hs | hs
      · exact .inl hs
      · obtain ⟨b, written, h', hb, hw, hs⟩ := hs
        exact .inr ⟨b, written, h', rfl, hb, hw, hs⟩
    · exact .inl (by rw [registry_setRegistry_of_ne hsame])

theorem forall_bucket {P : Bucket → Prop} {t : RecordType} (hk : key.kind? = some kind)
    (ht : t.name = name) (hP : ∀ b ∈ w.bucket? name key, P b) (hempty : P { type := t }) :
    P ((w.registry kind).bucket t) := by
  rw [bucket?_of_kind? hk, ← ht] at hP
  rcases (w.registry kind).bucket_cases t with hb | hb
  · exact hP _ hb
  · rwa [hb]

private theorem bucket_eq {b : Bucket} {t : RecordType} (hk : key.kind? = some kind)
    (ht : t.name = name) (hb : w.bucket? name key = some b) : (w.registry kind).bucket t = b := by
  rw [bucket?_of_kind? hk, ← ht] at hb
  rw [Registry.bucket, hb, Option.getD_some]

/-- A new record that is found by the key is tracked as a new one, and no other record is tracked
under that key. -/
def Exclusive (w : Workspace) (name : String) (key : RowKey) : Prop :=
  ∀ b ∈ w.bucket? name key, b.Exclusive key

end Workspace

namespace Move

variable {s : Workspace × Heap} {m : Move} {name : String} {key : RowKey} {a : RecordId}

/-- The record that is tracked or taken out. -/
def record? : Move → Option RecordId
  | track _ r _ => some r
  | remove _ r => some r
  | edit _ | settle _ _ => none

/-- The key of a new record that is found by it has not been reassigned. -/
def KeepsKey (name : String) (key : RowKey) (s : Workspace × Heap) (_ : Move) : Prop :=
  ∀ b ∈ s.1.bucket? name key, b.KeepsKey s.2 key

/-- No record that has its row and the key is handed over beside a new one. -/
def KeepsApart (name : String) (key : RowKey) (s : Workspace × Heap) (m : Move) : Prop :=
  ∀ b ∈ s.1.bucket? name key, ∀ r ∈ m.record?, (s.2.get r).type.name = name →
    b.KeepsApart s.2 key r

/-- No record that has the key is taken out. -/
def KeepsRow (name : String) (key : RowKey) (s : Workspace × Heap) : Move → Prop
  | remove _ r => (s.2.get r).type.name = name → s.2.primaryKey? r ≠ some key
  | edit _ | track _ _ _ | settle _ _ => True

/-- No record but `a` is imported for the row with the key or has been written under the key. -/
def Spares (name : String) (key : RowKey) (a : RecordId) (s : Workspace × Heap) : Move → Prop
  | track _ r importing => importing → (s.2.get r).type.name = name → (s.2.get r).isNew = false →
      s.2.primaryKey? r = some key → r = a
  | settle kind _ => ∀ b ∈ (s.1.registry kind).buckets.get? name, ∀ r ∈ b.new.toList,
      s.2.primaryKey? r = some key → r = a
  | edit _ | remove _ _ => True

/-- What has to hold of every move of a history, so that a new record has its key for itself. -/
structure IsFair (name : String) (key : RowKey) (s : Workspace × Heap) (m : Move) : Prop where
  legal : m.IsLegal s
  keepsKey : m.KeepsKey name key s
  keepsApart : m.KeepsApart name key s

private theorem IsFair.bucket {kind : KeyKind} {r : RecordId} (hfair : m.IsFair name key s)
    (hr : r ∈ m.record?) (hk : key.kind? = some kind) (hname : (s.2.get r).type.name = name) :
    ((s.1.registry kind).bucket (s.2.get r).type).KeepsKey s.2 key ∧
      ((s.1.registry kind).bucket (s.2.get r).type).KeepsApart s.2 key r :=
  Workspace.forall_bucket (P := fun b => b.KeepsKey s.2 key ∧ b.KeepsApart s.2 key r) hk hname
    (fun b hb => ⟨hfair.keepsKey b hb, hfair.keepsApart b hb r hr hname⟩)
    ⟨fun q hq => absurd hq (Option.not_mem_none q), fun _ _ => rfl⟩

/-- All that may have become of the bucket for a key in a move, case by case. -/
inductive Alters (name : String) (key : RowKey) (s : Workspace × Heap) (m : Move) (b : Bucket) :
    Prop
  | leaves : s.1.bucket? name key = some b → Alters name key s m b
  | tracks {kind : KeyKind} {r : RecordId} {importing : Bool} {answer : Option RecordId} :
    m = .track kind r importing → key.kind? = some kind → (s.2.get r).type.name = name →
    ((s.1.registry kind).bucket (s.2.get r).type).Tracks kind s.2 r importing answer b (m.run s).2 →
    Alters name key s m b
  | removes {kind : KeyKind} {r : RecordId} :
    m = .remove kind r → key.kind? = some kind → (s.2.get r).type.name = name →
    ((s.1.registry kind).bucket (s.2.get r).type).Removes kind s.2 r b → (m.run s).2 = s.2 →
    Alters name key s m b
  | settles {kind : KeyKind} {purge : Bool} {b' : Bucket} {h : Heap}
    {written : List (RowKey × RecordId)} : m = .settle kind purge → key.kind? = some kind →
    s.1.bucket? name key = some b' → b'.writtenKeys kind s.2 = .ok written →
    b = (b'.settle h purge written).1 → Alters name key s m b

theorem run_alters {b : Bucket} (hb : b ∈ (m.run s).1.bucket? name key) :
    Alters name key s m b := by
  cases m with
  | edit h => exact .leaves hb
  | track kind r importing =>
    rw [run, Registry.track, Workspace.bucket?_onBucket] at hb
    split at hb
    · next hsame =>
      obtain rfl := Option.some.inj hb
      have htracks := Bucket.track_tracks kind ((s.1.registry kind).bucket (s.2.get r).type) s.2 r
        importing
      rw [← Workspace.heap_onBucket kind r (Bucket.track kind r importing) s] at htracks
      exact .tracks rfl hsame.1 hsame.2 htracks
    · exact .leaves hb
  | remove kind r =>
    rw [run, Registry.remove, Workspace.bucket?_onBucket] at hb
    split at hb
    · next hsame =>
      obtain rfl := Option.some.inj hb
      obtain ⟨hheap, hremoves⟩ := Bucket.remove_removes kind
        ((s.1.registry kind).bucket (s.2.get r).type) s.2 r
      refine .removes rfl hsame.1 hsame.2 hremoves ?_
      rw [run, Registry.remove, Workspace.heap_onBucket, hheap]
    · exact .leaves hb
  | settle kind purge =>
    rw [run] at hb
    rcases Workspace.bucket?_settle kind name key s purge with hsame | hsettled
    · exact .leaves (hsame ▸ hb)
    · obtain ⟨b', written, h, hk, hb', hw, hsettled⟩ := hsettled
      exact .settles rfl hk hb' hw (Option.some.inj (hb.symm.trans hsettled))

theorem exists_alters {kind : KeyKind} {b : Bucket}
    (hb : ((m.run s).1.registry kind).buckets.get? name = some b) :
    ∃ key : RowKey, key.kind? = some kind ∧ Alters name key s m b := by
  obtain ⟨key, hk⟩ := RowKey.exists_of_kind kind
  exact ⟨key, hk, run_alters ((Workspace.bucket?_of_kind? hk).trans hb)⟩

private theorem run_exclusive (hs : s.1.Sound s.2) (hfair : m.IsFair name key s)
    (he : s.1.Exclusive name key) : (m.run s).1.Exclusive name key := by
  have hbucket : ∀ {kind : KeyKind} {t : RecordType}, key.kind? = some kind → t.name = name →
      ((s.1.registry kind).bucket t).Exclusive key :=
    fun hk ht => Workspace.forall_bucket hk ht he (Bucket.exclusive_empty _)
  intro b hb
  cases run_alters hb with
  | leaves hb => exact he b hb
  | tracks hm hk hname a =>
    subst hm
    obtain ⟨hkept, happart⟩ := hfair.bucket rfl hk hname
    exact a.exclusive ((hs _).bucket _) hkept happart (hbucket hk hname)
  | removes hm hk hname a _ =>
    subst hm
    obtain ⟨hkept, happart⟩ := hfair.bucket rfl hk hname
    exact a.exclusive ((hs _).bucket _) (RowKey.isFiledUnder_of_kind? hk) hkept happart
      (hbucket hk hname)
  | settles _ _ _ _ hsettled =>
    subst hsettled
    exact Bucket.exclusive_of_none rfl

private theorem run_finds (hs : s.1.Sound s.2) (hfair : m.IsFair name key s)
    (he : s.1.Exclusive name key) (hrow : m.KeepsRow name key s) (hspares : m.Spares name key a s)
    (hfind : (s.1.bucket? name key).bind (·.find? key) = some a) :
    ((m.run s).1.bucket? name key).bind (·.find? key) = some a := by
  obtain ⟨b, hb, hfound⟩ := Option.bind_eq_some_iff.mp hfind
  cases m with
  | edit h => exact hfind
  | track kind r importing =>
    rw [run, Registry.track, Workspace.bucket?_onBucket]
    split
    · next hsame =>
      obtain ⟨-, happart⟩ := hfair.bucket rfl hsame.1 hsame.2
      have hbs := (hs kind).bucket (s.2.get r).type
      rw [Workspace.bucket_eq hsame.1 hsame.2 hb] at happart hbs ⊢
      exact (Bucket.track_tracks kind b s.2 r importing).find?_eq hbs happart (he b hb)
        (fun himporting hn hkey => hspares himporting hsame.2 hn hkey) hfound
    · exact hfind
  | remove kind r =>
    rw [run, Registry.remove, Workspace.bucket?_onBucket]
    split
    · next hsame =>
      rw [Workspace.bucket_eq hsame.1 hsame.2 hb]
      exact (Bucket.remove_removes kind b s.2 r).2.find?_eq (hrow hsame.2) hfound
    · exact hfind
  | settle kind purge =>
    rw [run]
    rcases Workspace.bucket?_settle kind name key s purge with hsame | hsettled
    · rw [hsame]
      exact hfind
    · obtain ⟨b', written, h', hk, hb', hw, hsettled⟩ := hsettled
      obtain rfl := Option.some.inj (hb.symm.trans hb')
      rw [hsettled]
      rw [Workspace.bucket?_of_kind? hk] at hb
      exact Bucket.settle_find? h' purge hw (RowKey.isFiledUnder_of_kind? hk) (hfair.keepsKey b hb')
        (he b hb') (hspares b hb) hfound

/-- The workspace is sound, and a new record is alone under the key. -/
def SoundAlone (name : String) (key : RowKey) (s : Workspace × Heap) : Prop :=
  s.1.Sound s.2 ∧ s.1.Exclusive name key

private theorem IsFair.run (hfair : m.IsFair name key s) (hs : SoundAlone name key s) :
    SoundAlone name key (m.run s) :=
  ⟨(run_sound hfair.legal ⟨hs.1, .refl _⟩).1, run_exclusive hs.1 hfair hs.2⟩

private theorem Along.soundAlone {ms : List Move} (hfair : Along (IsFair name key) s ms)
    (hs : SoundAlone name key s) : SoundAlone name key (runAll s ms) :=
  hfair.invariant (fun _ _ => IsFair.run) hs

private theorem Along.finds {ms : List Move} (hfair : Along (IsFair name key) s ms)
    (hrow : Along (KeepsRow name key) s ms) (hspares : Along (Spares name key a) s ms)
    (hs : SoundAlone name key s) (hfind : (s.1.bucket? name key).bind (·.find? key) = some a) :
    ((runAll s ms).1.bucket? name key).bind (·.find? key) = some a := by
  have hall := (hfair.and hrow).and hspares
  refine (hall.invariant (I := fun s => SoundAlone name key s ∧
    (s.1.bucket? name key).bind (·.find? key) = some a) ?_ ⟨hs, hfind⟩).2
  rintro s m ⟨⟨hfair, hrow⟩, hspares⟩ ⟨hs, hfind⟩
  exact ⟨hfair.run hs, run_finds hs.1 hfair hs.2 hrow hspares hfind⟩

end Move

namespace Workspace

variable {s : Workspace × Heap} {name : String} {key : RowKey} {a r : RecordId}

private theorem Sound.found (hs : s.1.Sound s.2) {b : Bucket} (hb : s.1.bucket? name key = some b)
    (hfound : b.find? key = some a) : ∃ kind, key.kind? = some kind ∧ s.2.Belongs kind name a := by
  obtain ⟨kind, hk, hget⟩ := Option.bind_eq_some_iff.mp hb
  have hbs := hs kind name b hget
  refine ⟨kind, hk, ?_⟩
  rcases Bucket.find?_eq_some.mp hfound with hl | ⟨-, hn⟩
  · exact (hbs.live a (FinMap.mem_values_of_get? hl)).1
  · exact (hbs.newByKey a (FinMap.mem_values_of_get? hn)).1

private theorem track_eq (hs : s.1.Sound s.2) (he : s.1.Exclusive name key)
    (hfind : s.1.find? name key = some a) (ht : (s.2.get r).type = (s.2.get a).type)
    (hkey : s.2.primaryKey? r = some key)
    (hgenerated : (s.2.get r).isNew → (s.2.get r).type.generatedCount = 0)
    (happart : ∀ b ∈ s.1.bucket? name key, b.KeepsApart s.2 key r) :
    returned? (track r s) = some a := by
  rw [find?_eq] at hfind
  split at hfind
  · cases hfind
  · next hbypass =>
    obtain ⟨b, hb, hfound⟩ := Option.bind_eq_some_iff.mp hfind
    obtain ⟨kind, hk, ha⟩ := hs.found hb hfound
    have hname : (s.2.get r).type.name = name := by rw [ht, ha.name]
    have hkind : (s.2.get r).type.kind = kind := by rw [ht, ha.kind]
    have hbs := (hs kind).bucket (s.2.get r).type
    have htracks :=
      Bucket.track_tracks kind ((s.1.registry kind).bucket (s.2.get r).type) s.2 r false
    rw [returned?_track (Bool.eq_false_iff.mpr hbypass), hkind]
    rw [bucket_eq hk hname hb] at htracks hbs ⊢
    exact htracks.answer_eq hbs (RowKey.isFiledUnder_of_kind? hk) hkey hgenerated (happart b hb)
      (he b hb) hfound

/-- Once a record has been found by a key it is found by it from then on, and every record that is
tracked for the row is folded into it: whatever is tracked, imported, deleted and committed, as long
as nothing takes its place under the key. A new record whose key is generated by the store is not
told by its key. -/
theorem find?_stays {σ ρ : Type} {config : Config} {before after : List (Operation σ ρ)}
    (hlegal : Operation.AllLegal ({ config }, ∅) (before ++ after))
    (hkeys : Move.Along (Move.KeepsKey name key) ({ config }, ∅)
      (Operation.allMoves ({ config }, ∅) (before ++ after)))
    (hfound : (Operation.runAll ({ config }, ∅) before).1.find? name key = some a)
    (hrow : Move.Along (Move.KeepsRow name key) (Operation.runAll ({ config }, ∅) before)
      (Operation.allMoves (Operation.runAll ({ config }, ∅) before) after))
    (happart : Move.Along (Move.KeepsApart name key) ({ config }, ∅)
      (Operation.allMoves ({ config }, ∅) (before ++ after)))
    (hspares : Move.Along (Move.Spares name key a) (Operation.runAll ({ config }, ∅) before)
      (Operation.allMoves (Operation.runAll ({ config }, ∅) before) after)) :
    let s := Operation.runAll ({ config }, ∅) (before ++ after)
    s.1.find? name key = some a ∧
      ∀ r, (s.2.get r).type = (s.2.get a).type → s.2.primaryKey? r = some key →
        ((s.2.get r).isNew → (s.2.get r).type.generatedCount = 0) →
          (∀ b ∈ s.1.bucket? name key, b.KeepsApart s.2 key r) →
            returned? (track r s) = some a := by
  have hsound : ({ config } : Workspace).Sound ∅ := sound_empty config ∅
  have hempty : ({ config } : Workspace).Exclusive name key := by
    intro b hb
    obtain ⟨kind, -, hget⟩ := Option.bind_eq_some_iff.mp hb
    cases kind <;> cases hget
  have hfair : Move.Along (Move.IsFair name key) ({ config }, ∅)
      (Operation.allMoves ({ config }, ∅) (before ++ after)) :=
    (((hlegal.moves_legal ⟨hsound, .refl ∅⟩).and hkeys).and happart).imp
      fun _ _ h => ⟨h.1.1, h.1.2, h.2⟩
  rw [Operation.allMoves_append, Move.along_append, ← Operation.runAll_eq] at hfair
  have hs := hfair.1.soundAlone ⟨hsound, hempty⟩
  rw [← Operation.runAll_eq] at hs
  rw [find?_eq] at hfound
  split at hfound
  · cases hfound
  · next hbypass =>
    have hs' := hfair.2.soundAlone hs
    have hfound' := hfair.2.finds hrow hspares hs hfound
    have hconfig := Move.runAll_config (Operation.runAll ({ config }, ∅) before)
      (Operation.allMoves (Operation.runAll ({ config }, ∅) before) after)
    rw [← Operation.runAll_eq, ← Operation.runAll_append] at hs' hfound' hconfig
    have hfind :
        (Operation.runAll ({ config }, ∅) (before ++ after)).1.find? name key = some a := by
      rw [find?_eq, hconfig, if_neg hbypass, hfound']
    exact ⟨hfind, fun r => track_eq hs'.1 hs'.2 hfind⟩

end Workspace

section

variable {s : Workspace × Heap} {m : Move} {name : String} {key : RowKey} {a : RecordId}

instance (b : Bucket) (h : Heap) : Decidable (b.KeepsKey h key) :=
  inferInstanceAs (Decidable (∀ q ∈ b.newByKey.get? key, h.primaryKey? q = some key))

instance (b : Bucket) (h : Heap) (r : RecordId) : Decidable (b.KeepsApart h key r) :=
  inferInstanceAs (Decidable (_ → _ → _))

instance : Decidable (m.KeepsKey name key s) :=
  inferInstanceAs (Decidable (∀ b ∈ s.1.bucket? name key, b.KeepsKey s.2 key))

instance : Decidable (m.KeepsApart name key s) :=
  inferInstanceAs (Decidable (∀ b ∈ s.1.bucket? name key, ∀ r ∈ m.record?,
    (s.2.get r).type.name = name → b.KeepsApart s.2 key r))

instance : Decidable (m.KeepsRow name key s) :=
  match m with
  | .remove _ _ => inferInstanceAs (Decidable (_ → _))
  | .edit _ | .track _ _ _ | .settle _ _ => .isTrue trivial

instance : Decidable (m.Spares name key a s) :=
  match m with
  | .track _ _ _ => inferInstanceAs (Decidable (_ → _ → _ → _ → _))
  | .settle kind _ => inferInstanceAs (Decidable (∀ b ∈ (s.1.registry kind).buckets.get? name,
      ∀ r ∈ b.new.toList, s.2.primaryKey? r = some key → r = a))
  | .edit _ | .remove _ _ => .isTrue trivial

instance (r : RecordId) :
    Decidable (Operation.IsLegal (σ := Nat) (ρ := CancelReason) s (.track r)) :=
  inferInstanceAs (Decidable (r ∈ s.2.ids))

instance (r : RecordId) :
    Decidable (Operation.IsLegal (σ := Nat) (ρ := CancelReason) s (.delete r)) :=
  inferInstanceAs (Decidable (r ∈ s.2.ids))

instance (root : RecordId) :
    Decidable (Operation.IsLegal (σ := Nat) (ρ := CancelReason) s (.importGraph root)) :=
  inferInstanceAs (Decidable (root ∈ s.2.ids))

end

/-! A new item is written, and its row is read again; then the item is created once more. -/

def createItem : List (Operation Nat) := [.edit Registry.oneItem, .track ⟨0⟩]

def writeAndReadItem : List (Operation Nat) :=
  [.commit (.sql refusingB false) 0, .track ⟨1⟩]

def itemKey : RowKey := ⟨[.int64 1]⟩

private theorem createItem_legal :
    Operation.AllLegal ({}, ∅) (createItem ++ writeAndReadItem) :=
  ⟨.of_fresh (by decide +kernel), by decide +kernel, refusingB_orderly, by decide +kernel, trivial⟩

theorem find?_stays_item :
    (Operation.runAll ({}, ∅) (createItem ++ writeAndReadItem)).1.find? "a" itemKey = some ⟨0⟩ ∧
      returned? (Workspace.track ⟨2⟩
        (Operation.runAll ({}, ∅) (createItem ++ writeAndReadItem))) = some ⟨0⟩ := by
  have hfound : (Operation.runAll ({}, ∅) createItem).1.find? "a" itemKey = some ⟨0⟩ := by
    decide +kernel
  have hstays := Workspace.find?_stays createItem_legal (by decide +kernel) hfound
    (by decide +kernel) (by decide +kernel) (by decide +kernel)
  exact ⟨hstays.1, hstays.2 ⟨2⟩ (by decide +kernel) (by decide +kernel) (by decide +kernel)
    (by decide +kernel)⟩

/-! A record that was read from its row, and another one that is imported in its place. -/

def readTwice : Heap := ((∅ : Heap).set ⟨0⟩ Registry.readItem).set ⟨1⟩ Registry.readItem

/-- Some record is found no longer although its row is not deleted. -/
theorem not_find?_stays :
    ¬ ∀ (before after : List (Operation Nat)) (name : String) (key : RowKey) (a : RecordId),
      Operation.AllLegal ({}, ∅) (before ++ after) →
        Move.Along (Move.KeepsKey name key) ({}, ∅)
            (Operation.allMoves ({}, ∅) (before ++ after)) →
          (Operation.runAll ({}, ∅) before).1.find? name key = some a →
            Move.Along (Move.KeepsRow name key) (Operation.runAll ({}, ∅) before)
                (Operation.allMoves (Operation.runAll ({}, ∅) before) after) →
              (Operation.runAll ({}, ∅) (before ++ after)).1.find? name key = some a := by
  intro hall
  have hfind := hall [.edit readTwice, .track ⟨0⟩] [.importGraph ⟨1⟩] "a" itemKey ⟨0⟩
    ⟨.of_fresh (by decide +kernel), by decide +kernel, by decide +kernel, trivial⟩
    (by decide +kernel) (by decide +kernel) (by decide +kernel)
  revert hfind
  decide +kernel

end UnitOfWork
