import UnitOfWork.Proofs.Tracking.SoundWorkspace

/-!
# The batches of a workspace

The new records of a sound workspace come in batches that share no record, one for each type, and
so do the live records with something to write and those that are to be deleted. The batches are in
the order of the kinds of their keys, and then in that of the names of their types. The check that
precedes the writing never takes a record out of the live ones.
-/

namespace UnitOfWork

/-- Batches of the type come before those of the other one. -/
def RecordType.Precedes (t t' : RecordType) : Prop :=
  compare t.kind t'.kind = .lt ∨ t.kind = t'.kind ∧ t.name < t'.name

instance (t t' : RecordType) : Decidable (t.Precedes t') :=
  inferInstanceAs (Decidable (_ ∨ _))

private theorem KeyKind.compare_swap (kind kind' : KeyKind) :
    (compare kind kind').swap = compare kind' kind := by
  cases kind <;> cases kind' <;> rfl

theorem RecordType.Precedes.asymm {t t' : RecordType} (ht : t.Precedes t') : ¬ t'.Precedes t := by
  rcases ht with hlt | ⟨hkind, hlt⟩ <;> rintro (hlt' | ⟨hkind', hlt'⟩)
  · rw [← KeyKind.compare_swap, hlt] at hlt'
    cases hlt'
  · rw [hkind', ← KeyKind.compare_swap] at hlt
    revert hlt
    cases t.kind <;> decide
  · rw [hkind] at hlt'
    revert hlt'
    cases t'.kind <;> decide
  · exact String.lt_asymm hlt hlt'

theorem RecordType.Precedes.ne {t t' : RecordType} (ht : t.Precedes t') : t ≠ t' := by
  rintro rfl
  exact ht.asymm ht

namespace Registry

variable {kind : KeyKind} {g : Registry kind} {h h₀ : Heap}

/-- The records that have a row. -/
def liveRecords (g : Registry kind) : List RecordId := g.buckets.values.flatMap (·.live.values)

theorem mem_liveRecords {r : RecordId} :
    r ∈ g.liveRecords ↔ ∃ name b, g.buckets.get? name = some b ∧ r ∈ b.live.values := by
  simp only [liveRecords, List.mem_flatMap, NameMap.mem_values]
  exact ⟨fun ⟨b, ⟨name, hb⟩, hr⟩ => ⟨name, b, hb, hr⟩, fun ⟨name, b, hb, hr⟩ => ⟨b, ⟨name, hb⟩, hr⟩⟩

theorem mem_batches {select : Bucket → List RecordId} {b : Batch} :
    b ∈ g.batches select ↔ b.records ≠ [] ∧
      ∃ name bucket, g.buckets.get? name = some bucket ∧ b.type = bucket.type ∧
        b.records = select bucket := by
  simp only [batches, List.mem_filterMap, NameMap.mem_values]
  constructor
  · rintro ⟨bucket, ⟨name, hb⟩, hsome⟩
    split at hsome
    · cases hsome
    · next hne =>
      obtain rfl := Option.some.inj hsome
      exact ⟨hne, name, bucket, hb, rfl, rfl⟩
  · rintro ⟨hne, name, bucket, hb, ht, hr⟩
    refine ⟨bucket, ⟨name, hb⟩, ?_⟩
    split
    · next he => exact absurd (hr.trans he) hne
    · rw [← hr, ← ht]

private theorem pairwise_batches {select : Bucket → List RecordId}
    (hm : ∀ name b, g.buckets.get? name = some b → ∀ r ∈ select b, (h.get r).type.name = name) :
    (g.batches select).Pairwise fun b b' =>
      ∀ r ∈ b.records, ∀ r' ∈ b'.records, (h.get r).type.name < (h.get r').type.name := by
  have hnames := List.pairwise_map.mp g.buckets.sorted
  rw [batches, NameMap.values, List.pairwise_filterMap, List.pairwise_map]
  refine hnames.imp_of_mem fun {e e'} he he' hlt b hb b' hb' r hr r' hr' => ?_
  split at hb
  · cases hb
  split at hb'
  · cases hb'
  obtain rfl := Option.some.inj hb
  obtain rfl := Option.some.inj hb'
  rwa [hm e.1 e.2 (NameMap.mem_entries.mp he) r hr,
    hm e'.1 e'.2 (NameMap.mem_entries.mp he') r' hr']

end Registry

namespace Bucket

variable {kind : KeyKind} {name : String} {b : Bucket} {h : Heap} {r : RecordId}

private theorem mem_live_insert {m : KeyIndex} {key : RowKey} {r q : RecordId} (hr : r ∈ m.values)
    (hne : m.get? key ≠ some r) : r ∈ (m.insert key q).values := by
  obtain ⟨k, hk⟩ := FinMap.exists_get?_of_mem_values hr
  have hkey : key ≠ k := fun he => hne (he ▸ hk)
  exact FinMap.mem_values_of_get? (by rw [FinMap.get?_insert_of_ne hkey, hk])

private theorem placeNew_live {key : RowKey} (hb : ∀ x ∈ b.live.values, (h.get x).isNew = false)
    (hn : (h.get r).isNew) {x : RecordId} (hx : x ∈ b.live.values) :
    x ∈ (endState (placeNew r key (b, h))).1.live.values := by
  rw [placeNew]
  split
  · exact hx
  · next hrival =>
    split
    · -- No other record holds the key, and `r` is not live since it is new.
      apply mem_live_insert hx
      intro hkey
      have hfilter : (b.live.get? key).filter (· ≠ r) = none := by
        rw [rival?] at hrival
        exact (Option.or_eq_none_iff.mp (Option.orElse_eq_or.symm.trans hrival)).2
      have hxr : x = r := by simpa [hkey] using hfilter
      have hlive := hb x hx
      rw [hxr, hn] at hlive
      exact Bool.noConfusion hlive
    · exact hx

private theorem track_live (hb : b.Sound kind name h) {x : RecordId} (hx : x ∈ b.live.values) :
    x ∈ (endState (track kind r false (b, h))).1.live.values := by
  rw [track]
  split
  · next hn =>
    rw [trackNew]
    split
    · dsimp only
      split
      · exact hx
      · split
        · exact hx
        · exact hx
        · exact placeNew_live (b := { b with pending := b.pending.erase r, new := b.new.insert r })
            (fun y hy => (hb.live y hy).2) hn hx
    · exact hx
  · split
    · exact hx
    · simp only [Bool.false_eq_true, if_false]
      rw [trackFetched]
      split
      · split <;> exact hx
      · split
        · exact hx
        · next hnone _ _ => exact mem_live_insert hx (by simp [hnone])

end Bucket

namespace Registry

variable {kind : KeyKind} {h₀ : Heap}

/-- The registry is sound, and the records of the list are live. -/
private def Keeps (h₀ : Heap) (live : List RecordId) (s : Registry kind × Heap) : Prop :=
  SoundSince h₀ s ∧ ∀ x ∈ live, x ∈ s.1.liveRecords

private theorem track_keeps {live : List RecordId} {r : RecordId} (hr : r ∈ h₀.ids)
    (hk : (h₀.get r).type.kind = kind) :
    Preserves (Keeps h₀ live) (track r false : Tracking (Registry kind) RecordId) := by
  rw [preserves_iff]
  rintro ⟨g, h⟩ ⟨hs, hlive⟩
  refine ⟨preserves_iff.mp (track_sound hr hk) _ hs, fun x hx => ?_⟩
  have hb := hs.1.bucket (h.get r).type
  -- A live record of another bucket stays where it is.
  obtain ⟨name, b, hname, hxb⟩ := mem_liveRecords.mp (hlive x hx)
  have hgoal : ∀ b', (∀ y ∈ (g.bucket (h.get r).type).live.values, y ∈ b'.live.values) →
      x ∈ (g.setBucket (h.get r).type.name b').liveRecords := by
    intro b' hb'
    rw [mem_liveRecords]
    by_cases hne : (h.get r).type.name = name
    · refine ⟨name, b', by rw [setBucket, NameMap.get?_insert, if_pos hne], hb' x ?_⟩
      rwa [bucket, hne, hname]
    · exact ⟨name, b, by rw [setBucket, NameMap.get?_insert, if_neg hne, hname], hxb⟩
  have hkeep : ∀ y ∈ (g.bucket (h.get r).type).live.values, y ∈ (endState
      (Bucket.track kind r false (g.bucket (h.get r).type, h))).1.live.values :=
    fun y hy => Bucket.track_live hb hy
  simp only [track, onBucket, Tracking.within]
  cases hres : Bucket.track kind r false (g.bucket (h.get r).type, h) with
  | ok a s => rw [hres] at hkeep; exact hgoal s.1 hkeep
  | error e s => rw [hres] at hkeep; exact hgoal s.1 hkeep

theorem checkReady_live {g : Registry kind} {h : Heap} (hg : g.Sound h) {x : RecordId}
    (hx : x ∈ g.liveRecords) :
    x ∈ (endState (checkReady (g, h) : EStateM.Result Error _ Unit)).1.liveRecords := by
  have hkeeps : Preserves (Keeps h [x]) (checkReady : Tracking (Registry kind) Unit) :=
    checkReady_preserves fun _ hs _ hr => track_keeps (hs.1.pending hr).1 (hs.1.pending hr).2
  have hend := preserves_iff.mp hkeeps (g, h) ⟨⟨hg, .refl h⟩, by simpa using hx⟩
  exact hend.2 x List.mem_cons_self

end Registry

namespace Workspace

variable {w : Workspace} {h : Heap}

/-- The records that have a row. -/
def liveRecords (w : Workspace) : List RecordId :=
  KeyKind.all.flatMap fun kind => (w.registry kind).liveRecords

/-- The new records that a commit inserts. -/
def newRecords (w : Workspace) : List RecordId := w.insertBatches.flatMap (·.records)

theorem mem_liveRecords {r : RecordId} :
    r ∈ w.liveRecords ↔ ∃ kind, r ∈ (w.registry kind).liveRecords := by
  simp [liveRecords, mem_all]

theorem mem_insertBatches {b : Batch} :
    b ∈ w.insertBatches ↔ ∃ kind, b ∈ (w.registry kind).insertBatches := by
  simp [insertBatches, mem_all]

private theorem mem_flatMap_batches {select : KeyKind → Bucket → List RecordId} {r : RecordId} :
    r ∈ (KeyKind.all.flatMap fun kind => (w.registry kind).batches (select kind)).flatMap
        (·.records) ↔
      ∃ kind name b, (w.registry kind).buckets.get? name = some b ∧ r ∈ select kind b := by
  simp only [List.mem_flatMap, Registry.mem_batches, mem_all, true_and]
  constructor
  · rintro ⟨b, ⟨kind, hne, name, bucket, hb, -, hrec⟩, hr⟩
    exact ⟨kind, name, bucket, hb, hrec ▸ hr⟩
  · rintro ⟨kind, name, b, hb, hr⟩
    exact ⟨⟨b.type, select kind b⟩, ⟨kind, List.ne_nil_of_mem hr, name, b, hb, rfl, rfl⟩, hr⟩

theorem mem_newRecords {r : RecordId} : r ∈ w.newRecords ↔
    ∃ kind name b, (w.registry kind).buckets.get? name = some b ∧ r ∈ b.new.toList :=
  mem_flatMap_batches

theorem mem_deleteBatches {r : RecordId} : r ∈ w.deleteBatches.flatMap (·.records) ↔
    ∃ kind name b, (w.registry kind).buckets.get? name = some b ∧ r ∈ b.deleted.values := by
  rw [deleteBatches]
  simp only [Registry.deleteBatches, mem_flatMap_batches, inCreationOrder, List.mem_mergeSort]

theorem mem_updateBatches {r : RecordId} : r ∈ (w.updateBatches h).flatMap (·.records) ↔
    r ∈ w.liveRecords ∧ ((h.get r).hasChanges ∨ (h.get r).hydrated) := by
  rw [updateBatches]
  simp only [Registry.updateBatches, mem_flatMap_batches, Bucket.dirty, inCreationOrder,
    List.mem_mergeSort, List.mem_filter, Bool.or_eq_true, mem_liveRecords,
    Registry.mem_liveRecords]
  constructor
  · rintro ⟨kind, name, b, hb, hr, hdirty⟩
    exact ⟨⟨kind, name, b, hb, hr⟩, hdirty⟩
  · rintro ⟨⟨kind, name, b, hb, hr⟩, hdirty⟩
    exact ⟨kind, name, b, hb, hr, hdirty⟩

theorem Sound.liveRecord (hw : w.Sound h) {r : RecordId} (hr : r ∈ w.liveRecords) :
    r ∈ h.ids ∧ (h.get r).isNew = false := by
  obtain ⟨kind, hr⟩ := mem_liveRecords.mp hr
  obtain ⟨name, b, hb, hr⟩ := Registry.mem_liveRecords.mp hr
  have hlive := (hw kind name b hb).live r hr
  exact ⟨hlive.1.mem, hlive.2⟩

theorem Sound.insertBatch (hw : w.Sound h) {b : Batch} (hb : b ∈ w.insertBatches) :
    b.records ≠ [] ∧ b.records.Nodup ∧ ∀ r ∈ b.records, (h.get r).type.name = b.type.name := by
  obtain ⟨kind, hb⟩ := mem_insertBatches.mp hb
  obtain ⟨hne, name, bucket, hget, ht, hrec⟩ := Registry.mem_batches.mp hb
  have hs := hw kind name bucket hget
  rw [hrec, ht, hs.ofType]
  exact ⟨hrec ▸ hne, hs.newCoherent.nodup, fun r hr => (hs.new r hr).name⟩

private theorem pairwise_batches {select : Bucket → List RecordId}
    (hm : ∀ kind name b, (w.registry kind).buckets.get? name = some b → ∀ r ∈ select b,
      h.Belongs kind name r) :
    (KeyKind.all.flatMap fun kind => (w.registry kind).batches select).Pairwise fun b b' =>
      ∀ r ∈ b.records, ∀ r' ∈ b'.records, (h.get r).type.Precedes (h.get r').type := by
  have hkind : ∀ kind, ∀ b ∈ (w.registry kind).batches select, ∀ r ∈ b.records,
      (h.get r).type.kind = kind := by
    intro kind b hb r hr
    obtain ⟨-, name, bucket, hget, -, hrec⟩ := Registry.mem_batches.mp hb
    exact (hm kind name bucket hget r (hrec ▸ hr)).kind
  rw [List.pairwise_flatMap]
  constructor
  · intro kind _
    refine (Registry.pairwise_batches fun name b hb r hr =>
      (hm kind name b hb r hr).name).imp_of_mem
      fun {b b'} hb hb' hlt r hr r' hr' => .inr ⟨?_, hlt r hr r' hr'⟩
    rw [hkind kind b hb r hr, hkind kind b' hb' r' hr']
  · have hkinds : KeyKind.all.Pairwise fun kind kind' => compare kind kind' = .lt := by decide
    refine hkinds.imp fun {kind kind'} hlt b hb b' hb' r hr r' hr' => .inl ?_
    rwa [hkind kind b hb r hr, hkind kind' b' hb' r' hr']

theorem Sound.pairwise_insertBatches (hw : w.Sound h) : w.insertBatches.Pairwise fun b b' =>
    ∀ r ∈ b.records, ∀ r' ∈ b'.records, (h.get r).type.Precedes (h.get r').type :=
  pairwise_batches fun kind name b hb => (hw kind name b hb).new

theorem Sound.pairwise_updateBatches (hw : w.Sound h) : (w.updateBatches h).Pairwise fun b b' =>
    ∀ r ∈ b.records, ∀ r' ∈ b'.records, (h.get r).type.Precedes (h.get r').type := by
  refine pairwise_batches fun kind name b hb r hr => ((hw kind name b hb).live r ?_).1
  rw [Bucket.dirty, inCreationOrder, List.mem_mergeSort] at hr
  exact List.mem_of_mem_filter hr

theorem Sound.pairwise_deleteBatches (hw : w.Sound h) : w.deleteBatches.Pairwise fun b b' =>
    ∀ r ∈ b.records, ∀ r' ∈ b'.records, (h.get r).type.Precedes (h.get r').type := by
  refine pairwise_batches fun kind name b hb r hr => ((hw kind name b hb).deleted r ?_).1
  rwa [inCreationOrder, List.mem_mergeSort] at hr

theorem Sound.nodup_newRecords (hw : w.Sound h) : w.newRecords.Nodup := by
  rw [newRecords, List.nodup_flatMap]
  refine ⟨fun b hb => (hw.insertBatch hb).2.1, hw.pairwise_insertBatches.imp fun hprec => ?_⟩
  exact List.disjoint_left.mpr fun r hr hr' => (hprec r hr r hr').ne rfl

theorem Sound.length_insertBatches (hw : w.Sound h) {t : RecordType}
    (ht : ∀ r ∈ w.newRecords, (h.get r).type = t) : w.insertBatches.length ≤ 1 := by
  have hnone : w.insertBatches.Pairwise fun _ _ => False := by
    refine hw.pairwise_insertBatches.imp_of_mem fun {b b'} hb hb' hprec => ?_
    obtain ⟨r, hr⟩ := List.exists_mem_of_ne_nil _ (hw.insertBatch hb).1
    obtain ⟨r', hr'⟩ := List.exists_mem_of_ne_nil _ (hw.insertBatch hb').1
    have hmem : ∀ b ∈ w.insertBatches, ∀ r ∈ b.records, (h.get r).type = t := by
      intro b hb r hr
      exact ht r (List.mem_flatMap.mpr ⟨b, hb, hr⟩)
    have hsame : (h.get r).type = (h.get r').type :=
      (hmem b hb r hr).trans (hmem b' hb' r' hr').symm
    exact (hprec r hr r' hr').ne hsame
  match hl : w.insertBatches with
  | [] => simp
  | [_] => simp
  | b :: b' :: _ =>
    rw [hl] at hnone
    exact ((List.pairwise_cons.mp hnone).1 b' List.mem_cons_self).elim

theorem checkReady_live (hw : w.Sound h) {x : RecordId} (hx : x ∈ w.liveRecords) :
    x ∈ (endState (checkReady (w, h))).1.liveRecords := by
  let I (s : Workspace × Heap) : Prop := s.1.Sound s.2 ∧ x ∈ s.1.liveRecords
  have hstep : ∀ kind, Preserves I (onRegistry kind Registry.checkReady) := by
    intro kind
    rw [preserves_iff]
    rintro ⟨w, h⟩ ⟨hw, hx⟩
    have hcheck : Preserves (SoundSince h) (onRegistry kind Registry.checkReady) :=
      onRegistry_sound fun _ _ => Registry.checkReady_sound
    refine ⟨(preserves_iff.mp hcheck (w, h) ⟨hw, .refl h⟩).1, ?_⟩
    obtain ⟨k, hk⟩ := mem_liveRecords.mp hx
    have hlive : k = kind →
        x ∈ (endState (Registry.checkReady (w.registry kind, h))).1.liveRecords :=
      fun he => Registry.checkReady_live (hw kind) (he ▸ hk)
    have hset : ∀ g : Registry kind, (k = kind → x ∈ g.liveRecords) →
        x ∈ (w.setRegistry kind g).liveRecords := by
      intro g hg
      refine mem_liveRecords.mpr ⟨k, ?_⟩
      by_cases he : k = kind
      · subst he
        rw [registry_setRegistry]
        exact hg rfl
      · rwa [registry_setRegistry_of_ne he]
    rw [endState_onRegistry]
    exact hset _ hlive
  have hwalk := preserves_iff.mp (Preserves.forM KeyKind.all hstep)
  exact (hwalk (w, h) ⟨hw, hx⟩).2

end Workspace

end UnitOfWork
