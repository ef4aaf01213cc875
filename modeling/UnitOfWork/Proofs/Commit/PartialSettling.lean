import UnitOfWork.Proofs.Commit.InsertOrder
import UnitOfWork.Proofs.Commit.UnsavedChanges
import UnitOfWork.Proofs.Tracking.Moves
import UnitOfWork.Proofs.Tracking.Outcomes

/-!
# Partial settling

A registry finds the keys of all its new records before it settles any of them, so that one that is
not known leaves the registry as it is. A workspace settles its registries one after the other, in
the order of the kinds of keys: when one of them cannot be settled, those before it have been, and
stay so, although the commit has failed. Nothing has been settled just if they had nothing to
settle.
-/

namespace UnitOfWork

namespace Heap

variable {h : Heap} {r : RecordId}

private theorem get_modifyAll_of_notMem (h : Heap) (f : Record → Record) {rs : List RecordId}
    (hr : r ∉ rs) : (h.modifyAll rs f).get r = h.get r := by
  induction rs generalizing h with
  | nil => rfl
  | cons q rs ih =>
    have hq : r ≠ q := fun he => hr (List.mem_cons.mpr (.inl he))
    have hrs : r ∉ rs := fun hm => hr (List.mem_cons_of_mem q hm)
    exact (ih (h.modify q f) hrs).trans (get_modify_of_ne f hq)

private theorem isSaved_modifyAll_resetChanges (h : Heap) {rs : List RecordId} (hr : r ∈ rs) :
    ((h.modifyAll rs .resetChanges).get r).IsSaved := by
  induction rs generalizing h with
  | nil => simp at hr
  | cons q rs ih =>
    by_cases hrs : r ∈ rs
    · exact ih (h.modify q .resetChanges) hrs
    · obtain rfl : r = q := (List.mem_cons.mp hr).resolve_right hrs
      have hget := (get_modifyAll_of_notMem (h.modify r .resetChanges) .resetChanges hrs).trans
        (get_modify_self h r .resetChanges)
      change (((h.modify r .resetChanges).modifyAll rs .resetChanges).get r).IsSaved
      rw [hget]
      exact ⟨rfl, rfl⟩

private theorem Settles.isSaved {h' : Heap} (a : h.Settles h') (hr : (h.get r).IsSaved) :
    (h'.get r).IsSaved := by
  obtain ⟨hc, hh⟩ := a.saved r hr.changed hr.hydrated
  exact ⟨hc, hh⟩

private theorem Settles.not_isNew {h' : Heap} (a : h.Settles h') (hr : (h.get r).isNew = false) :
    (h'.get r).isNew = false :=
  Bool.eq_false_iff.mpr fun hn => Bool.noConfusion (hr.symm.trans (a.isNew r hn))

private theorem Settles.fileKey {h' : Heap} (a : h.Settles h') (kind : KeyKind) (r : RecordId) :
    h'.fileKey kind r = h.fileKey kind r :=
  fileKey_congr (a.primaryKey? r) (a.type r)

end Heap

namespace Bucket

variable {kind : KeyKind} {name : String} {b : Bucket} {h : Heap}
  {written : List (RowKey × RecordId)}

private theorem mem_live_settle {r : RecordId} (h : Heap) (purge : Bool)
    (hr : r ∈ (b.settle h purge written).1.live.values) :
    r ∈ written.map Prod.snd ∨ r ∈ b.live.values :=
  mem_values_fileAll hr

end Bucket

namespace Registry

variable {kind : KeyKind} {g : Registry kind} {h : Heap} {purge : Bool}

def newRecords (g : Registry kind) : List RecordId := g.buckets.values.flatMap (·.new.toList)

theorem mem_newRecords {r : RecordId} :
    r ∈ g.newRecords ↔ ∃ name b, g.buckets.get? name = some b ∧ r ∈ b.new.toList := by
  simp only [newRecords, List.mem_flatMap, NameMap.mem_values]
  exact ⟨fun ⟨b, ⟨name, hb⟩, hr⟩ => ⟨name, b, hb, hr⟩, fun ⟨name, b, hb, hr⟩ => ⟨b, ⟨name, hb⟩, hr⟩⟩

/-- The registry `g`, with the records `h`, has been settled. -/
structure IsSettled (purge : Bool) (g : Registry kind) (h : Heap) (g' : Registry kind)
    (h' : Heap) : Prop where
  bucket : ∀ name b, g.buckets.get? name = some b → ∃ written h₀,
    b.writtenKeys kind h = .ok written ∧
      g'.buckets.get? name = some (b.settle h₀ purge written).1
  noBucket : ∀ name, g.buckets.get? name = none → g'.buckets.get? name = none
  committed : ∀ r ∈ g.newRecords, (h'.get r).isNew = false
  saved : ∀ r ∈ g'.liveRecords, (h'.get r).IsSaved

theorem IsSettled.exists_bucket {g' : Registry kind} {h' : Heap} {name : String} {b' : Bucket}
    (hs : g.IsSettled purge h g' h') (hb' : g'.buckets.get? name = some b') :
    ∃ b written h₀, g.buckets.get? name = some b ∧ b' = (b.settle h₀ purge written).1 := by
  cases hb : g.buckets.get? name with
  | none => cases (hs.noBucket name hb).symm.trans hb'
  | some b =>
    obtain ⟨written, h₀, -, hget⟩ := hs.bucket name b hb
    exact ⟨b, written, h₀, rfl, Option.some.inj (hb'.symm.trans hget)⟩

/-- The registry and its records are as they were. -/
structure IsLeft (g : Registry kind) (h : Heap) (g' : Registry kind) (h' : Heap) : Prop where
  registry : g' = g
  records : ∀ r, (h.get r).type.kind = kind → h'.get r = h.get r

/-- Settling the registry has nothing to do. -/
def IsIdle (purge : Bool) (g : Registry kind) (h : Heap) : Prop :=
  ∀ b ∈ g.buckets.values, b.new.toList = [] ∧ (∀ r ∈ b.live.values, (h.get r).IsSaved) ∧
    (purge → b.deleted = ∅)

variable {all : List (String × Bucket × List (RowKey × RecordId))} {s : Registry kind × Heap}

/-- The registry and the records after one bucket has been settled with what was written of it. -/
def settleBucket (purge : Bool) (s : Registry kind × Heap)
    (x : String × Bucket × List (RowKey × RecordId)) : Registry kind × Heap :=
  let (b, h) := x.2.1.settle s.2 purge x.2.2
  (s.1.setBucket x.1 b, h)

private theorem settleBucket_get? (purge : Bool) (s : Registry kind × Heap)
    (x : String × Bucket × List (RowKey × RecordId)) (name : String) :
    (settleBucket purge s x).1.buckets.get? name =
      if x.1 = name then some (x.2.1.settle s.2 purge x.2.2).1 else s.1.buckets.get? name :=
  NameMap.get?_insert ..

/-- Settles one bucket after the other. -/
def settleAll (purge : Bool) (s : Registry kind × Heap)
    (all : List (String × Bucket × List (RowKey × RecordId))) : Registry kind × Heap :=
  all.foldl (settleBucket purge) s

private theorem settleAll_heap {R : Heap → Heap → Prop} (hrefl : ∀ h, R h h)
    (htrans : ∀ h h' h'', R h h' → R h' h'' → R h h'')
    (hbucket : ∀ (b : Bucket) h written, R h (b.settle h purge written).2) :
    R s.2 (settleAll purge s all).2 := by
  induction all generalizing s with
  | nil => exact hrefl s.2
  | cons x all ih => exact htrans _ _ _ (hbucket x.2.1 s.2 x.2.2) (ih (s := settleBucket purge s x))

theorem settle_heap {R : Heap → Heap → Prop} (hrefl : ∀ h, R h h)
    (htrans : ∀ h h' h'', R h h' → R h' h'' → R h h'')
    (hbucket : ∀ (b : Bucket) h written, R h (b.settle h purge written).2) :
    R s.2 (endState (settle purge s)).2 := by
  obtain ⟨g, h⟩ := s
  rw [settle]
  generalize (g.buckets.entries.mapM _ : Except Error _) = result
  cases result with
  | error e => exact hrefl h
  | ok all => exact settleAll_heap (s := (g, h)) hrefl htrans hbucket

theorem settleAll_settles (purge : Bool) (s : Registry kind × Heap)
    (all : List (String × Bucket × List (RowKey × RecordId))) :
    s.2.Settles (settleAll purge s all).2 :=
  settleAll_heap (fun h => .refl h) (fun _ _ _ a b => a.trans b) fun b h written =>
    Bucket.settle_settles b h purge written

private theorem settleAll_get?_of_ne {name : String} (hne : ∀ x ∈ all, x.1 ≠ name) :
    (settleAll purge s all).1.buckets.get? name = s.1.buckets.get? name := by
  induction all generalizing s with
  | nil => rfl
  | cons x all ih =>
    have hx : x.1 ≠ name := hne x List.mem_cons_self
    refine (ih fun y hy => hne y (List.mem_cons_of_mem x hy)).trans ?_
    rw [settleBucket_get?, if_neg hx]

private theorem exists_settleAll_get? (hsame : ∀ x ∈ all, ∀ y ∈ all, x.1 = y.1 → x.2 = y.2)
    {x : String × Bucket × List (RowKey × RecordId)} (hx : x ∈ all) :
    ∃ h₀, (settleAll purge s all).1.buckets.get? x.1 =
      some (x.2.1.settle h₀ purge x.2.2).1 := by
  induction all generalizing s with
  | nil => simp at hx
  | cons y all ih =>
    -- A bucket that comes again is settled in the same way again.
    have hrest : ∀ z ∈ all, ∀ z' ∈ all, z.1 = z'.1 → z.2 = z'.2 := fun z hz z' hz' =>
      hsame z (List.mem_cons_of_mem y hz) z' (List.mem_cons_of_mem y hz')
    by_cases hagain : ∃ z ∈ all, z.1 = x.1
    · obtain ⟨z, hz, hzx⟩ := hagain
      obtain rfl : z = x := Prod.ext hzx (hsame z (List.mem_cons_of_mem y hz) x hx hzx)
      exact ih hrest hz
    · have hne : ∀ z ∈ all, z.1 ≠ x.1 := fun z hz he => hagain ⟨z, hz, he⟩
      obtain rfl : x = y := (List.mem_cons.mp hx).resolve_right fun hm => hne x hm rfl
      refine ⟨s.2, (settleAll_get?_of_ne hne).trans ?_⟩
      rw [settleBucket_get?, if_pos rfl]

private theorem settleAll_not_isNew {x : String × Bucket × List (RowKey × RecordId)} (hx : x ∈ all)
    {r : RecordId} (hr : r ∈ x.2.2.map Prod.snd) :
    ((settleAll purge s all).2.get r).isNew = false := by
  induction all generalizing s with
  | nil => simp at hx
  | cons y all ih =>
    rcases List.mem_cons.mp hx with rfl | hx
    · have hcommitted := Heap.Settles.not_isNew_of_mem s.2 hr
      have hreset := Heap.Settles.modifyAll Heap.Settles.modify_resetChanges
        (s.2.modifyAll (x.2.2.map Prod.snd) .markCommitted)
        (x.2.1.settle s.2 purge x.2.2).1.live.values
      exact (settleAll_settles purge (settleBucket purge s x) all).not_isNew
        (hreset.not_isNew hcommitted)
    · exact ih hx

theorem settleAll_isSaved {x : String × Bucket × List (RowKey × RecordId)} (hx : x ∈ all)
    (h₀ : Heap) {r : RecordId} (hr : r ∈ (x.2.1.settle h₀ purge x.2.2).1.live.values) :
    ((settleAll purge s all).2.get r).IsSaved := by
  induction all generalizing s with
  | nil => simp at hx
  | cons y all ih =>
    rcases List.mem_cons.mp hx with rfl | hx
    · have hreset : ((settleBucket purge s x).2.get r).IsSaved :=
        Heap.isSaved_modifyAll_resetChanges _ hr
      exact (settleAll_settles purge (settleBucket purge s x) all).isSaved hreset
    · exact ih hx

private theorem settleAll_get {r : RecordId}
    (hr : ∀ x ∈ all, r ∉ x.2.2.map Prod.snd ∧ r ∉ x.2.1.live.values) :
    (settleAll purge s all).2.get r = s.2.get r := by
  induction all generalizing s with
  | nil => rfl
  | cons x all ih =>
    obtain ⟨hwritten, hlive⟩ := hr x List.mem_cons_self
    have hsettled : r ∉ (x.2.1.settle s.2 purge x.2.2).1.live.values := fun hm =>
      (Bucket.mem_live_settle s.2 purge hm).elim hwritten hlive
    refine (ih fun y hy => hr y (List.mem_cons_of_mem x hy)).trans ?_
    exact (Heap.get_modifyAll_of_notMem _ _ hsettled).trans
      (Heap.get_modifyAll_of_notMem _ _ hwritten)

theorem settleAll_isSettled (hall : (g.buckets.entries.mapM fun e => do
      return (e.1, e.2, ← e.2.writtenKeys kind h)) = Except.ok (ε := Error) all) :
    g.IsSettled purge h (settleAll purge (g, h) all).1 (settleAll purge (g, h) all).2 := by
  obtain ⟨hwritten, hkeys⟩ := writtenBuckets_ok hall
  have hsame : ∀ x ∈ all, ∀ y ∈ all, x.1 = y.1 → x.2 = y.2 := by
    intro x hx y hy he
    obtain ⟨hbx, hwx⟩ := hwritten x hx
    obtain ⟨hby, hwy⟩ := hwritten y hy
    have hb : x.2.1 = y.2.1 := Option.some.inj (hbx.symm.trans (he ▸ hby))
    exact Prod.ext hb (Except.ok.inj (hwx.symm.trans (hb ▸ hwy)))
  have hmem : ∀ name b, g.buckets.get? name = some b → ∃ written,
      b.writtenKeys kind h = .ok written ∧ (name, b, written) ∈ all := by
    intro name b hb
    obtain ⟨written, hw⟩ := hkeys name b hb
    exact ⟨written, hw, (mem_writtenBuckets hall).mpr ⟨hb, hw⟩⟩
  refine ⟨fun name b hb => ?_, fun name hnone => ?_, fun r hr => ?_, fun r hr => ?_⟩
  · obtain ⟨written, hw, hx⟩ := hmem name b hb
    obtain ⟨h₀, hget⟩ := exists_settleAll_get? (s := (g, h)) hsame hx
    exact ⟨written, h₀, hw, hget⟩
  · refine (settleAll_get?_of_ne fun x hx he => ?_).trans hnone
    rw [← he, (hwritten x hx).1] at hnone
    cases hnone
  · obtain ⟨name, b, hb, hr⟩ := mem_newRecords.mp hr
    obtain ⟨written, hw, hx⟩ := hmem name b hb
    exact settleAll_not_isNew hx ((Bucket.mem_map_writtenKeys hw).mpr hr)
  · obtain ⟨name, b', hb', hr⟩ := mem_liveRecords.mp hr
    -- Every bucket there is has been settled.
    by_cases hx : ∃ x ∈ all, x.1 = name
    · obtain ⟨x, hx, rfl⟩ := hx
      obtain ⟨h₀, hget⟩ := exists_settleAll_get? (s := (g, h)) hsame hx
      obtain rfl : (x.2.1.settle h₀ purge x.2.2).1 = b' := Option.some.inj (hget.symm.trans hb')
      exact settleAll_isSaved hx h₀ hr
    · have hne : ∀ x ∈ all, x.1 ≠ name := fun x hxm he => hx ⟨x, hxm, he⟩
      rw [settleAll_get?_of_ne hne] at hb'
      obtain ⟨written, -, hm⟩ := hmem name b' hb'
      exact absurd rfl (hne _ hm)

private theorem settleAll_others (hg : g.Sound h) (hall : (g.buckets.entries.mapM fun e => do
      return (e.1, e.2, ← e.2.writtenKeys kind h)) = Except.ok (ε := Error) all) {r : RecordId}
    (hr : (h.get r).type.kind ≠ kind) : (settleAll purge (g, h) all).2.get r = h.get r := by
  refine settleAll_get fun x hx => ?_
  obtain ⟨hget, hw⟩ := (writtenBuckets_ok hall).1 x hx
  have hb := hg x.1 x.2.1 hget
  refine ⟨fun hm => hr ?_, fun hm => hr (hb.live r hm).1.kind⟩
  exact (hb.new r ((Bucket.mem_map_writtenKeys hw).mp hm)).kind

theorem settle_isSettled (g : Registry kind) (h : Heap) (purge : Bool) :
    Triple (· = (g, h)) (settle purge)
      (fun _ s => h.Settles s.2 ∧ g.IsSettled purge h s.1 s.2) fun _ s => s = (g, h) := by
  intro s hs
  subst hs
  rw [settle]
  generalize hall : (g.buckets.entries.mapM _ : Except Error _) = result
  cases result with
  | error e => rfl
  | ok all => exact ⟨settleAll_settles purge (g, h) all, settleAll_isSettled hall⟩

theorem exists_unfiled {e : Error} (hall : (g.buckets.entries.mapM fun e => do
      return (e.1, e.2, ← e.2.writtenKeys kind h)) =
        Except.error (α := List (String × Bucket × List (RowKey × RecordId))) e) :
    ∃ r ∈ g.newRecords, ∀ key, h.fileKey kind r ≠ .ok key := by
  obtain ⟨name, b, hb, hw⟩ := writtenBuckets_error hall
  obtain ⟨r, hr, hfile⟩ := Bucket.writtenKeys_error hw
  refine ⟨r, mem_newRecords.mpr ⟨name, b, hb, hr⟩, fun key hkey => ?_⟩
  rw [hkey] at hfile
  cases hfile

/-- A registry is settled as a whole, and leaves the records of other kinds alone; or some new
record has no key to be filed under, and nothing is settled. -/
theorem settle_all_or_none (hg : g.Sound h) (purge : Bool) :
    Triple (· = (g, h)) (settle purge)
      (fun _ s => g.IsSettled purge h s.1 s.2 ∧
        ∀ r, (h.get r).type.kind ≠ kind → s.2.get r = h.get r)
      fun _ s => s = (g, h) ∧ ∃ r ∈ g.newRecords, ∀ key, h.fileKey kind r ≠ .ok key := by
  intro s hs
  subst hs
  rw [settle]
  generalize hall : (g.buckets.entries.mapM _ : Except Error _) = result
  cases result with
  | error e => exact ⟨rfl, exists_unfiled hall⟩
  | ok all => exact ⟨settleAll_isSettled hall, fun _ hr => settleAll_others hg hall hr⟩

theorem IsSettled.settles {g' : Registry kind} {h' h'' : Heap}
    (hg : g.IsSettled purge h g' h') (a : h'.Settles h'') : g.IsSettled purge h g' h'' where
  bucket := hg.bucket
  noBucket := hg.noBucket
  committed r hr := a.not_isNew (hg.committed r hr)
  saved r hr := a.isSaved (hg.saved r hr)

theorem IsSettled.since {g' : Registry kind} {h₀ h' : Heap} (a : h₀.Settles h)
    (hg : g.IsSettled purge h g' h') : g.IsSettled purge h₀ g' h' where
  bucket name b hb := by
    obtain ⟨written, h₁, hw, hget⟩ := hg.bucket name b hb
    refine ⟨written, h₁, ?_, hget⟩
    rw [← hw, Bucket.writtenKeys, Bucket.writtenKeys]
    simp only [a.fileKey]
  noBucket := hg.noBucket
  committed := hg.committed
  saved := hg.saved

private theorem IsSettled.of_isIdle {g' : Registry kind} {h' : Heap}
    (hg : g.IsSettled purge h g' h')
    (hidle : g.IsIdle purge h) {name : String} {b : Bucket} (hb : g.buckets.get? name = some b) :
    ∃ b', g'.buckets.get? name = some b' ∧ b'.live = b.live ∧ b'.deleted = b.deleted := by
  obtain ⟨hnew, -, hdeleted⟩ := hidle b (NameMap.mem_values.mpr ⟨name, hb⟩)
  obtain ⟨written, h₀, hw, hget⟩ := hg.bucket name b hb
  rw [Bucket.writtenKeys, hnew] at hw
  obtain rfl : [] = written := Except.ok.inj hw
  refine ⟨_, hget, rfl, ?_⟩
  cases purge with
  | false => rfl
  | true => exact (hdeleted rfl).symm

end Registry

namespace Workspace

variable {w : Workspace} {h : Heap} {purge : Bool} {s₀ s : Workspace × Heap}
  {done rest : List KeyKind}

/-- The registries for some kinds of keys have been settled since `s₀`, others are as they were. -/
structure PartlySettled (purge : Bool) (s₀ : Workspace × Heap) (done rest : List KeyKind)
    (s : Workspace × Heap) : Prop where
  settles : s₀.2.Settles s.2
  settled : ∀ kind ∈ done,
    (s₀.1.registry kind).IsSettled purge s₀.2 (s.1.registry kind) s.2
  left : ∀ kind ∈ rest, (s₀.1.registry kind).IsLeft s₀.2 (s.1.registry kind) s.2

private theorem partlySettled_next {kind : KeyKind} (hw : s₀.1.Sound s₀.2)
    (hnodup : (kind :: rest).Nodup) (hdone : kind ∉ done) :
    Triple (PartlySettled purge s₀ done (kind :: rest))
      (onRegistry kind (Registry.settle purge))
      (fun _ => PartlySettled purge s₀ (done ++ [kind]) rest)
      fun _ s => PartlySettled purge s₀ done (kind :: rest) s ∧
        ∃ r ∈ (s₀.1.registry kind).newRecords, ∀ key, s₀.2.fileKey kind r ≠ .ok key := by
  rintro ⟨w, h⟩ hs
  obtain ⟨hkind, -⟩ := List.nodup_cons.mp hnodup
  have hreg : w.registry kind = s₀.1.registry kind := (hs.left kind List.mem_cons_self).registry
  have hsettle := Registry.settle_all_or_none ((hw kind).evolves hs.settles.evolves) purge _ rfl
  have hsettles := Registry.settle_sound ((hw kind).evolves hs.settles.evolves) purge _ rfl
  simp only [onRegistry, Tracking.within, hreg]
  cases hres : Registry.settle purge (s₀.1.registry kind, h) with
  | error e s =>
    rw [hres] at hsettle
    obtain ⟨rfl, r, hr, hnot⟩ := hsettle
    have hsame : w.setRegistry kind (s₀.1.registry kind) = w := by rw [← hreg, setRegistry_registry]
    dsimp only
    rw [hsame]
    exact ⟨hs, r, hr, fun key => by rw [← hs.settles.fileKey]; exact hnot key⟩
  | ok u s =>
    rw [hres] at hsettle hsettles
    obtain ⟨hsettled, hothers⟩ := hsettle
    have hlater := hsettles.1.2
    refine ⟨hs.settles.trans hlater, fun k hk => ?_, fun k hk => ?_⟩
    · rcases List.mem_append.mp hk with hk | hk
      · have hne : k ≠ kind := fun he => hdone (he ▸ hk)
        rw [registry_setRegistry_of_ne hne]
        exact (hs.settled k hk).settles hlater
      · obtain rfl := List.mem_singleton.mp hk
        rw [registry_setRegistry]
        exact hsettled.since hs.settles
    · have hne : k ≠ kind := fun he => hkind (he ▸ hk)
      obtain ⟨hregistry, hrecords⟩ := hs.left k (List.mem_cons_of_mem kind hk)
      rw [registry_setRegistry_of_ne hne]
      refine ⟨hregistry, fun r hr => ?_⟩
      have hkind' : (h.get r).type.kind ≠ kind := by rw [hs.settles.type r, hr]; exact hne
      rw [hothers r hkind', hrecords r hr]

/-- The registries are settled in the order of their kinds, up to one with a new record that has no
key to be filed under. -/
theorem settle_partly (hw : w.Sound h) :
    Triple (· = (w, h)) settle (fun _ => PartlySettled w.config.purgeDeleted (w, h) KeyKind.all [])
      fun _ s => ∃ done kind rest, KeyKind.all = done ++ kind :: rest ∧
        PartlySettled w.config.purgeDeleted (w, h) done (kind :: rest) s ∧
          ∃ r ∈ (w.registry kind).newRecords, ∀ key, h.fileKey kind r ≠ .ok key := by
  rw [settle]
  apply Triple.get_bind
  rintro _ rfl
  let I (rest : List KeyKind) (s : Workspace × Heap) : Prop :=
    ∃ done, KeyKind.all = done ++ rest ∧ PartlySettled w.config.purgeDeleted (w, h) done rest s
  have hwalk : Triple (I KeyKind.all) (KeyKind.all.forM fun kind =>
      onRegistry kind (Registry.settle w.config.purgeDeleted)) (fun _ => I [])
      fun _ s => ∃ done kind rest, KeyKind.all = done ++ kind :: rest ∧
        PartlySettled w.config.purgeDeleted (w, h) done (kind :: rest) s ∧
          ∃ r ∈ (w.registry kind).newRecords, ∀ key, h.fileKey kind r ≠ .ok key := by
    apply Triple.forM _
    rintro kind rest s ⟨done, hall, hs⟩
    have hnodup : (done ++ kind :: rest).Nodup := by rw [← hall]; decide
    obtain ⟨-, hrest, hdisjoint⟩ := List.nodup_append'.mp hnodup
    have hdone : kind ∉ done := fun hk => hdisjoint hk List.mem_cons_self
    refine ((partlySettled_next hw hrest hdone).starting hs).conseq (fun _ h => h)
      (fun _ s' hs' => ?_) (fun _ s' hs' => ?_) s rfl
    · exact ⟨done ++ [kind], by rw [hall, List.append_assoc]; rfl, hs'⟩
    · exact ⟨done, kind, rest, hall, hs'⟩
  have hstart : I KeyKind.all (w, h) :=
    ⟨[], rfl, .refl h, fun _ hk => absurd hk List.not_mem_nil, fun _ _ => ⟨rfl, fun _ _ => rfl⟩⟩
  apply (hwalk.starting hstart).conseq (fun _ h => h) _ fun _ _ h => h
  rintro _ s ⟨done, hall, hs⟩
  rw [List.append_nil] at hall
  exact hall ▸ hs

/-- Nothing of `s` has been settled: the new records are new still, none of them has become live,
what is noted about changes in live records is noted still, and what was to be deleted is. -/
structure Unsettled (s s' : Workspace × Heap) : Prop where
  bucket : ∀ kind name b, (s.1.registry kind).buckets.get? name = some b → ∃ b',
    (s'.1.registry kind).buckets.get? name = some b' ∧
      (∀ r ∈ b.new.toList, r ∈ b'.new.toList) ∧ b'.deleted = b.deleted
  isNew : ∀ r ∈ s.1.newRecords, (s'.2.get r).isNew = (s.2.get r).isNew
  notLive : ∀ r ∈ s.1.newRecords, r ∈ s'.1.liveRecords → r ∈ s.1.liveRecords
  changed : ∀ r ∈ s.1.liveRecords, (s'.2.get r).changed = (s.2.get r).changed
  hydrated : ∀ r ∈ s.1.liveRecords, (s'.2.get r).hydrated = (s.2.get r).hydrated

namespace PartlySettled

private theorem isIdle (hs : PartlySettled purge s₀ done rest s) (hu : Unsettled s₀ s)
    {kind : KeyKind} (hk : kind ∈ done) : (s₀.1.registry kind).IsIdle purge s₀.2 := by
  intro b hb
  obtain ⟨name, hb⟩ := NameMap.mem_values.mp hb
  have hsettled := hs.settled kind hk
  obtain ⟨written, h₀, hw, hget⟩ := hsettled.bucket name b hb
  obtain ⟨b', hb', hnew, hdeleted⟩ := hu.bucket kind name b hb
  obtain rfl : (b.settle h₀ purge written).1 = b' := Option.some.inj (hget.symm.trans hb')
  have hnone : b.new.toList = [] :=
    List.eq_nil_iff_forall_not_mem.mpr fun r hr => List.not_mem_nil (hnew r hr)
  refine ⟨hnone, fun r hr => ?_, fun hp => ?_⟩
  · rw [Bucket.writtenKeys, hnone] at hw
    obtain rfl : [] = written := Except.ok.inj hw
    have hlive : r ∈ s₀.1.liveRecords :=
      mem_liveRecords.mpr ⟨kind, Registry.mem_liveRecords.mpr ⟨name, b, hb, hr⟩⟩
    obtain ⟨hc, hh⟩ := hsettled.saved r (Registry.mem_liveRecords.mpr ⟨name, _, hget, hr⟩)
    exact ⟨(hu.changed r hlive).symm.trans hc, (hu.hydrated r hlive).symm.trans hh⟩
  · subst hp
    exact hdeleted.symm

private theorem unsettled (hs : PartlySettled purge s₀ done rest s)
    (hall : ∀ kind, kind ∈ done ++ rest)
    (hidle : ∀ kind ∈ done, (s₀.1.registry kind).IsIdle purge s₀.2) (hw : s₀.1.Sound s₀.2) :
    Unsettled s₀ s := by
  have hnew : ∀ kind ∈ done, ∀ name b, (s₀.1.registry kind).buckets.get? name = some b →
      b.new.toList = [] := fun kind hk name b hb =>
    (hidle kind hk b (NameMap.mem_values.mpr ⟨name, hb⟩)).1
  have hlive : ∀ r ∈ s₀.1.liveRecords, (s.2.get r).changed = (s₀.2.get r).changed ∧
      (s.2.get r).hydrated = (s₀.2.get r).hydrated := by
    intro r hr
    obtain ⟨kind, hr⟩ := mem_liveRecords.mp hr
    obtain ⟨name, b, hb, hr⟩ := Registry.mem_liveRecords.mp hr
    rcases List.mem_append.mp (hall kind) with hk | hk
    · have hsaved := (hidle kind hk b (NameMap.mem_values.mpr ⟨name, hb⟩)).2.1 r hr
      obtain ⟨hc, hh⟩ := hs.settles.isSaved hsaved
      exact ⟨hc.trans hsaved.changed.symm, hh.trans hsaved.hydrated.symm⟩
    · have hsame := (hs.left kind hk).records r ((hw kind name b hb).live r hr).1.kind
      exact ⟨by rw [hsame], by rw [hsame]⟩
  refine ⟨fun kind name b hb => ?_, fun r hr => ?_, fun r _ hr => ?_,
    fun r hr => (hlive r hr).1, fun r hr => (hlive r hr).2⟩
  · rcases List.mem_append.mp (hall kind) with hk | hk
    · obtain ⟨b', hb', -, hdeleted⟩ := (hs.settled kind hk).of_isIdle (hidle kind hk) hb
      refine ⟨b', hb', fun r hr => ?_, hdeleted⟩
      rw [hnew kind hk name b hb] at hr
      exact absurd hr List.not_mem_nil
    · exact ⟨b, by rw [(hs.left kind hk).registry, hb], fun _ hr => hr, rfl⟩
  · obtain ⟨kind, name, b, hb, hr⟩ := mem_newRecords.mp hr
    rcases List.mem_append.mp (hall kind) with hk | hk
    · rw [hnew kind hk name b hb] at hr
      exact absurd hr List.not_mem_nil
    · rw [(hs.left kind hk).records r ((hw kind name b hb).new r hr).kind]
  · obtain ⟨kind, hr⟩ := mem_liveRecords.mp hr
    refine mem_liveRecords.mpr ⟨kind, ?_⟩
    rcases List.mem_append.mp (hall kind) with hk | hk
    · obtain ⟨name, b', hb', hr⟩ := Registry.mem_liveRecords.mp hr
      obtain ⟨b, -, -, hb, -⟩ := (hs.settled kind hk).exists_bucket hb'
      obtain ⟨b'', hb'', hsame, -⟩ := (hs.settled kind hk).of_isIdle (hidle kind hk) hb
      obtain rfl : b' = b'' := Option.some.inj (hb'.symm.trans hb'')
      exact Registry.mem_liveRecords.mpr ⟨name, b, hb, hsame ▸ hr⟩
    · rwa [(hs.left kind hk).registry] at hr

/-- Nothing has been settled just if there was nothing to settle. -/
theorem unsettled_iff (hs : PartlySettled purge s₀ done rest s)
    (hall : KeyKind.all = done ++ rest) (hw : s₀.1.Sound s₀.2) :
    Unsettled s₀ s ↔ ∀ kind ∈ done, (s₀.1.registry kind).IsIdle purge s₀.2 :=
  ⟨fun hu _ hk => hs.isIdle hu hk,
    fun hidle => hs.unsettled (fun kind => hall ▸ mem_all kind) hidle hw⟩

end PartlySettled

section

variable {σ ρ : Type} {W : Transaction σ ρ → Prop} {past : List (List Event)} {w₁ w₂ : Workspace}
  {h₁ h₂ : Heap} {tx : Transaction σ ρ}

/-- When a commit has written everything and settling fails, the registries before the first one
with a new record that has no key to be filed under have been settled, and all others are as they
were. Nothing has been settled just if those before had nothing to settle. -/
theorem commit_settles_partly (hW : ∀ tx, W tx → tx.Orderly) (life : Life W past w h)
    (ht : tx.Orderly) (world : σ) (hready : w.ready? h = some (w₁, h₁)) {summary : Summary}
    {run : Run σ} (hwrite : tx.writeAll w₁ { session := { heap := h₁, world } } = .ok summary run)
    {e : Error} (hsettle : settle (w₁, run.session.heap) = .error e (w₂, h₂)) :
    let c := w.commit tx { heap := h, world }
    c.1.isOk = false ∧ ∃ done kind rest, KeyKind.all = done ++ kind :: rest ∧
      (∃ r ∈ (w₁.registry kind).newRecords, ∀ key, run.session.heap.fileKey kind r ≠ .ok key) ∧
      PartlySettled w₁.config.purgeDeleted (w₁, run.session.heap) done (kind :: rest)
        (c.2.1, c.2.2.heap) ∧
      (Unsettled (w₁, run.session.heap) (c.2.1, c.2.2.heap) ↔ ∀ k ∈ done,
        (w₁.registry k).IsIdle w₁.config.purgeDeleted run.session.heap) := by
  have hw₁ : w₁.Sound run.session.heap := by
    have hevolves := ht.writeAll w₁ h₁ { session := { heap := h₁, world } } (.refl _)
    rw [hwrite] at hevolves
    exact (ready?_sound (life.sound hW) hready).1.evolves hevolves
  have hflush : w₁.flush tx { session := { heap := h₁, world } } =
      (.error (.failed e), w₂, { run with session.heap := h₂ }) := by
    rw [flush, hwrite]
    simp only [hsettle]
  obtain ⟨hwork, hreleases⟩ := commit_ready (s := { heap := h, world }) tx hready
  have hheap := hreleases.heap
  rw [hflush] at hwork hheap
  have hpartly := settle_partly hw₁ _ rfl
  rw [hsettle] at hpartly
  obtain ⟨done, kind, rest, hall, hs, hunfiled⟩ := hpartly
  refine ⟨?_, done, kind, rest, hall, hunfiled, ?_⟩
  · cases hres : (w.commit tx { heap := h, world }).1 with
    | error halt => rfl
    | ok summary' =>
      have hok := commit_ok (s := { heap := h, world }) hready hres
      rw [hflush] at hok
      cases hok
  · rw [hwork, hheap]
    exact ⟨hs, hs.unsettled_iff hall hw₁⟩

end

/-! A store that gives no key back, after a record whose key was supplied. -/

/-- A type with a supplied key of another kind than that of `nodeType`. -/
def pageType : RecordType where
  name := "page"
  table := "page"
  store := "main"
  key := [{ name := "number", sqlType := .integer, source := .supplied, kind := .int32,
            kind_eq := rfl }]
  columns := []
  references := []
  key_ne_nil := by simp
  sources_declared := by simp [KeyColumn.undeclared?]

/-- Every statement affects one row, and no column is given back. -/
def silent (store : String) : Connection Unit where
  store
  query _ _ world := (.ok (some { columns := [], values := [] }), world)
  execute _ _ world := (.ok 1, world)

/-- A page, new or not, and a new node. -/
def pageAndNode (isNew : Bool) : Heap :=
  ((∅ : Heap).set ⟨0⟩ { (Record.create pageType).setSlot 0 (.int32 1) with isNew }).set ⟨1⟩
    (Record.create nodeType)

def trackedPage (isNew : Bool) : Workspace × Heap :=
  endState (track ⟨1⟩ (endState (track ⟨0⟩ ({}, pageAndNode isNew))))

def writtenPage (isNew : Bool) : EStateM.Result Halt (Run Unit) Summary :=
  (Transaction.sql silent false).writeAll (trackedPage isNew).1
    { session := { heap := (trackedPage isNew).2, world := () } }

def committedPage (isNew : Bool) : Except Halt Summary × Workspace × Session Unit :=
  (trackedPage isNew).1.commit (.sql silent false) { heap := (trackedPage isNew).2, world := () }

theorem silent_orderly : (Transaction.sql silent false).Orderly :=
  Transaction.WritesBy.orderly (Transaction.sql_writesBy fun _ => rfl)

private theorem trackedPage_life (isNew : Bool) :
    Life (σ := Unit) (ρ := CancelReason) Transaction.Orderly [] (trackedPage isNew).1
      (trackedPage isNew).2 := by
  have hedits : (∅ : Heap).Edits (pageAndNode isNew) :=
    .of_fresh (by cases isNew <;> decide +kernel)
  exact .track (r := ⟨1⟩) (.track (r := ⟨0⟩) (.edit (.begin {}) hedits)
    (by cases isNew <;> decide +kernel)) (by cases isNew <;> decide +kernel)

instance (x : Record) : Decidable x.IsSaved :=
  decidable_of_iff (x.changed = ∅ ∧ x.hydrated = false) ⟨fun h => ⟨h.1, h.2⟩, fun h => ⟨h.1, h.2⟩⟩

instance {kind : KeyKind} (purge : Bool) (g : Registry kind) (h : Heap) :
    Decidable (g.IsIdle purge h) :=
  inferInstanceAs (Decidable (∀ b ∈ g.buckets.values, _))

private theorem writtenPage_ok (isNew : Bool) : ∃ summary run, writtenPage isNew = .ok summary run ∧
    ∃ e s, settle ((trackedPage isNew).1, run.session.heap) = .error e s := by
  have hwrite : (returned? (writtenPage isNew)).isSome := by cases isNew <;> decide +kernel
  have hsettle : (returned? (settle ((trackedPage isNew).1,
      (endState (writtenPage isNew)).session.heap))).isSome = false := by
    cases isNew <;> decide +kernel
  cases hres : writtenPage isNew with
  | error halt run =>
    rw [hres] at hwrite
    cases hwrite
  | ok summary run =>
    rw [hres] at hsettle
    cases hset : settle ((trackedPage isNew).1, run.session.heap) with
    | ok u s =>
      change
        (returned? (settle ((trackedPage isNew).1, run.session.heap))).isSome = false at hsettle
      rw [hset] at hsettle
      cases hsettle
    | error e s => exact ⟨summary, run, rfl, e, s, hset⟩

private theorem trackedPage_ready (isNew : Bool) :
    (trackedPage isNew).1.ready? (trackedPage isNew).2 =
      some ((trackedPage isNew).1, (trackedPage isNew).2) := by
  cases isNew <;> decide +kernel

/-- Next to a page that has a row already nothing is settled when the node cannot be. -/
theorem commit_settles_partly_node :
    Unsettled ((trackedPage false).1, (endState (writtenPage false)).session.heap)
      ((committedPage false).2.1, (committedPage false).2.2.heap) := by
  obtain ⟨summary, run, hwrite, e, s, hsettle⟩ := writtenPage_ok false
  obtain ⟨-, done, kind, rest, hall, ⟨r, hr, -⟩, -, hiff⟩ := commit_settles_partly
    (fun _ h => h) (trackedPage_life false) silent_orderly () (trackedPage_ready false)
    hwrite hsettle
  have hidle : ∀ k ∈ KeyKind.all, k = .int64 ∨ ((trackedPage false).1.registry k).IsIdle true
      (endState (writtenPage false)).session.heap := by decide +kernel
  have hkind : ∀ k ∈ KeyKind.all,
      k = .int64 ∨ ((trackedPage false).1.registry k).newRecords = [] := by
    decide +kernel
  rw [hwrite] at hidle ⊢
  refine hiff.mpr fun k hk => (hidle k (mem_all k)).resolve_left ?_
  rintro rfl
  obtain rfl : kind = .int64 := (hkind kind (mem_all kind)).resolve_right (List.ne_nil_of_mem hr)
  have hnodup : (done ++ KeyKind.int64 :: rest).Nodup := by rw [← hall]; decide
  exact (List.nodup_append'.mp hnodup).2.2 hk List.mem_cons_self

/-- Some page is settled by a commit that fails. -/
theorem not_unsettled :
    ¬ ∀ (past : List (List Event)) (w w₁ w₂ : Workspace) (h h₁ h₂ : Heap) (tx : Transaction Unit)
        (summary : Summary) (run : Run Unit) (e : Error),
      Life (σ := Unit) (ρ := CancelReason) Transaction.Orderly past w h → tx.Orderly →
        w.ready? h = some (w₁, h₁) →
        tx.writeAll w₁ { session := { heap := h₁, world := () } } = .ok summary run →
          settle (w₁, run.session.heap) = .error e (w₂, h₂) →
            Unsettled (w₁, run.session.heap)
              ((w.commit tx { heap := h, world := () }).2.1,
                (w.commit tx { heap := h, world := () }).2.2.heap) := by
  intro hall
  obtain ⟨summary, run, hwrite, e, s, hsettle⟩ := writtenPage_ok true
  have hnew : ⟨0⟩ ∈ (trackedPage true).1.newRecords := by decide +kernel
  have hisNew := (hall _ _ _ _ _ _ _ _ _ _ _ (trackedPage_life true) silent_orderly
    (trackedPage_ready true) hwrite hsettle).isNew ⟨0⟩ hnew
  have hrun : run = endState (writtenPage true) := by rw [hwrite]; rfl
  rw [hrun] at hisNew
  revert hisNew
  decide +kernel

end Workspace

end UnitOfWork
