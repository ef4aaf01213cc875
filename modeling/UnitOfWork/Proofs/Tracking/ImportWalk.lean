import Mathlib.Logic.Relation
import UnitOfWork.Proofs.Commit.UnresolvedInserts
import UnitOfWork.Proofs.Tracking.Identity

/-!
# The import walk

An import hands over the records that it reaches one after the other, none of them twice. Handing a
record over may fold its references into a record that has been handed over before, but these lead
to records that have been met already; so nothing that can be reached in the end has been left out.
-/

namespace UnitOfWork

section

variable {ε ρ β : Type} {f : β → EStateM ε ρ PUnit} {done rest : List β} {r : β} {s s' : ρ}

private theorem forM_cons_ok (hok : (r :: rest).forM f s = .ok ⟨⟩ s') :
    ∃ s₁, f r s = .ok ⟨⟩ s₁ ∧ rest.forM f s₁ = .ok ⟨⟩ s' := by
  change EStateM.bind (f r) (fun _ => rest.forM f) s = _ at hok
  rw [EStateM.bind] at hok
  cases hr : f r s with
  | error e s₁ =>
    rw [hr] at hok
    cases hok
  | ok _ s₁ =>
    rw [hr] at hok
    exact ⟨s₁, rfl, hok⟩

private theorem forM_append_ok (hok : (done ++ r :: rest).forM f s = .ok ⟨⟩ s') : ∃ s₁ s₂,
    done.forM f s = .ok ⟨⟩ s₁ ∧ f r s₁ = .ok ⟨⟩ s₂ ∧ rest.forM f s₂ = .ok ⟨⟩ s' := by
  induction done generalizing s with
  | nil =>
    obtain ⟨s₁, hr, hrest⟩ := forM_cons_ok hok
    exact ⟨s, s₁, rfl, hr, hrest⟩
  | cons d done ih =>
    obtain ⟨s₁, hd, htail⟩ := forM_cons_ok hok
    obtain ⟨s₂, s₃, hdone, hr, hrest⟩ := ih htail
    refine ⟨s₂, s₃, ?_, hr, hrest⟩
    change EStateM.bind (f d) (fun _ => done.forM f) s = _
    rw [EStateM.bind, hd]
    exact hdone

end

namespace Heap

/-- `t` is reached from `r` along references. -/
def Reaches (h : Heap) : RecordId → RecordId → Prop :=
  Relation.ReflTransGen fun r t => t ∈ h.targets r

private theorem mem_ids_of_mem_targets {h : Heap} {r t : RecordId} (ht : t ∈ h.targets r) :
    r ∈ h.ids := by
  obtain ⟨field, hfield⟩ := mem_targets.mp ht
  refine mem_ids_of_get_ne fun hblank => ?_
  rw [hblank] at hfield
  cases hfield

private theorem Reaches.notMem {h : Heap} {root r : RecordId} {left : List RecordId}
    (hreach : h.Reaches root r) (hroot : root ∉ left)
    (hclosed : ∀ v ∈ h.ids, v ∉ left → ∀ t ∈ h.targets v, t ∉ left) : r ∉ left := by
  induction hreach with
  | refl => exact hroot
  | tail _ ht ih => exact hclosed _ (mem_ids_of_mem_targets ht) ih _ ht

/-- `q`, which may have been deleted before, has absorbed another record. -/
def Absorbs (h : Heap) (q r : RecordId) (h' : Heap) : Prop :=
  q ≠ r ∧ (h' = h.modify q (·.absorb (h.get r)) ∨ h' = h.modify q (·.undelete.absorb (h.get r)))

end Heap

namespace Bucket

variable {kind : KeyKind} {name : String} {b b' : Bucket} {h h' : Heap} {r q : RecordId}
  {importing : Bool} {answer : Option RecordId}

private theorem Tracks.of_mem_targets (a : Tracks kind b h r true answer b' h') {v t : RecordId}
    (ht : t ∈ h'.targets v) : t ∈ h.targets v ∨ t ∈ h.targets r := by
  have habsorb : ∀ (q : RecordId) (f : Record → Record),
      (∀ x : Record, (f x).references = (x.absorb (h.get r)).references) →
        t ∈ (h.modify q f).targets v → t ∈ h.targets v ∨ t ∈ h.targets r := by
    intro q f hf hv
    by_cases hvq : v = q
    · subst hvq
      obtain ⟨field, hfield⟩ := Heap.mem_targets.mp hv
      rw [Heap.get_modify_self, hf] at hfield
      rcases NameMap.get?_insertAll _ _ field hfield with hown | hother
      · exact .inl (Heap.mem_targets.mpr ⟨field, hown⟩)
      · exact .inr (Heap.mem_targets.mpr ⟨field, NameMap.mem_entries.mp hother⟩)
    · rw [Heap.targets, Heap.get_modify_of_ne f hvq] at hv
      exact .inl hv
  cases a with
  | joins => exact habsorb _ (·.absorb (h.get r)) (fun _ => rfl) ht
  | revives => exact habsorb _ (·.undelete.absorb (h.get r)) (fun _ => rfl) ht
  | finds _ himporting => cases himporting
  | merges _ himporting => cases himporting
  | mergesDeleted _ himporting => cases himporting
  | waits | lists | misfiles | files | fails | enters | replacesDeleted | restores =>
    exact .inl ht

/-- The key is that of a live record or of a deleted one. -/
def HasKey (b : Bucket) (key : RowKey) : Prop :=
  (b.live.get? key).isSome ∨ (b.deleted.get? key).isSome

/-- A new record that is accepted waits to be written, or another one has absorbed it. -/
theorem Tracks.listsNew_or_absorbs (a : Tracks kind b h r true (some q) b' h')
    (hs : b.Sound kind name h) (hn : (h.get r).isNew) : b'.ListsNew r ∨ h.Absorbs q r h' := by
  cases a with
  | waits => exact .inl (.inr (hs.pendingCoherent.mem_insert.mpr (.inl rfl)))
  | lists => exact .inl ((listsNew_listing hs).mpr (.inl rfl))
  | joins _ hrival => exact .inr ⟨(rival?_eq_some hrival).1, .inl rfl⟩
  | revives _ _ hdeleted =>
    refine .inr ⟨?_, .inr rfl⟩
    rintro rfl
    have hrow := (hs.deleted q (FinMap.mem_values_of_get? hdeleted)).2
    exact Bool.noConfusion (hrow.symm.trans hn)
  | files =>
    have hlisted : (b.listing r).ListsNew r := (listsNew_listing hs).mpr (.inl rfl)
    exact .inl hlisted
  | finds hst | merges hst | mergesDeleted hst | enters hst | replacesDeleted hst | restores hst =>
    exact Bool.noConfusion (hst.notNew.symm.trans hn)

private theorem Tracks.hasKey (a : Tracks kind b h r true (some q) b' h')
    (hn : (h.get r).isNew = false) :
    ∃ key, h.primaryKey? r = some key ∧ b'.HasKey key := by
  have hinsert : ∀ (m : KeyIndex) (key : RowKey), ((m.insert key r).get? key).isSome := by
    intro m key
    rw [FinMap.get?_insert, if_pos rfl]
    rfl
  cases a with
  | waits hnew | lists hnew => exact Bool.noConfusion (hn.symm.trans hnew)
  | joins hk | revives hk | files hk => exact Bool.noConfusion (hn.symm.trans hk.isNew)
  | finds _ himporting => cases himporting
  | merges _ himporting => cases himporting
  | mergesDeleted _ himporting => cases himporting
  | @enters key hst => exact ⟨key, hst.primaryKey?, .inl (hinsert _ key)⟩
  | @replacesDeleted key hst => exact ⟨key, hst.primaryKey?, .inr (hinsert _ key)⟩
  | @restores key hst => exact ⟨key, hst.primaryKey?, .inl (hinsert _ key)⟩

private theorem Tracks.keeps_hasKey {key : RowKey} (a : Tracks kind b h r importing answer b' h')
    (hk : b.HasKey key) : b'.HasKey key := by
  have hinsert : ∀ (m : KeyIndex) (key' : RowKey) (q : RecordId), (m.get? key).isSome →
      ((m.insert key' q).get? key).isSome := by
    intro m key' q hm
    rw [FinMap.get?_insert]
    split
    · rfl
    · exact hm
  have henliven : ∀ (key' : RowKey) (q : RecordId), ((b.live.insert key' q).get? key).isSome ∨
      ((b.deleted.erase key').get? key).isSome := by
    intro key' q
    by_cases hsame : key' = key
    · exact .inl (by rw [hsame, FinMap.get?_insert, if_pos rfl]; rfl)
    · rw [FinMap.get?_insert_of_ne hsame, FinMap.get?_erase_of_ne hsame]
      exact hk
  cases a with
  | @revives key' q => exact henliven key' q
  | @restores key' => exact henliven key' r
  | @enters key' => exact hk.imp_left (hinsert _ key' r)
  | @replacesDeleted key' => exact hk.imp_right (hinsert _ key' r)
  | waits | lists | misfiles | joins | files | fails | finds | merges | mergesDeleted => exact hk

end Bucket

namespace Workspace

/-- What handing over a record comes to, in the bucket of its type and nowhere else. -/
theorem enroll_tracks (r : RecordId) (importing : Bool) (s : Workspace × Heap) : ∃ b',
    ((s.1.registry (s.2.get r).type.kind).bucket (s.2.get r).type).Tracks (s.2.get r).type.kind s.2
      r importing (returned? (enroll r importing s)) b' (endState (enroll r importing s)).2 ∧
    ∀ kind name, ((endState (enroll r importing s)).1.registry kind).buckets.get? name =
      if kind = (s.2.get r).type.kind ∧ (s.2.get r).type.name = name then some b'
      else (s.1.registry kind).buckets.get? name := by
  let t := (s.2.get r).type
  let b := (s.1.registry t.kind).bucket t
  have hrun : enroll r importing s =
      onRegistry t.kind (Registry.onBucket r (Bucket.track t.kind r importing)) s := rfl
  refine ⟨(endState (Bucket.track t.kind r importing (b, s.2))).1, ?_, fun kind name => ?_⟩
  · have htracks := Bucket.track_tracks t.kind b s.2 r importing
    rw [hrun, heap_onBucket, returned?_onRegistry, (Registry.onBucket_eq _ _ _).1]
    exact htracks
  · rw [hrun, get?_onBucket]

variable {unmet stack targets : List RecordId} {s s' : Workspace × Heap} {r q : RecordId}

private theorem discover_perm (targets unmet stack : List RecordId) :
    ((discover targets unmet stack).1 ++ (discover targets unmet stack).2).Perm
      (unmet ++ stack) := by
  induction targets generalizing unmet stack with
  | nil => exact .refl _
  | cons t ts ih =>
    by_cases ht : t ∈ unmet
    · simp only [discover, List.foldl_cons, ht, if_true] at ih ⊢
      refine (ih (unmet.erase t) (t :: stack)).trans ?_
      exact List.perm_middle.trans ((List.perm_cons_erase ht).symm.append_right stack)
    · simp only [discover, List.foldl_cons, ht, if_false] at ih ⊢
      exact ih unmet stack

private theorem discover_unmet_sublist (targets unmet stack : List RecordId) :
    (discover targets unmet stack).1.Sublist unmet := by
  induction targets generalizing unmet stack with
  | nil => exact .refl _
  | cons t ts ih =>
    by_cases ht : t ∈ unmet
    · simp only [discover, List.foldl_cons, ht, if_true] at ih ⊢
      exact (ih _ _).trans List.erase_sublist
    · simp only [discover, List.foldl_cons, ht, if_false] at ih ⊢
      exact ih unmet stack

private theorem notMem_discover (hnodup : unmet.Nodup) {t : RecordId} (ht : t ∈ targets) :
    t ∉ (discover targets unmet stack).1 := by
  induction targets generalizing unmet stack with
  | nil => cases ht
  | cons t' ts ih =>
    rcases List.mem_cons.mp ht with rfl | ht
    · by_cases hmem : t ∈ unmet
      · simp only [discover, List.foldl_cons, hmem, if_true]
        intro hin
        have := (discover_unmet_sublist ts (unmet.erase t) (t :: stack)).subset hin
        exact hnodup.not_mem_erase this
      · exact fun hin => hmem ((discover_unmet_sublist (t :: ts) unmet stack).subset hin)
    · by_cases hmem : t' ∈ unmet
      · simp only [discover, List.foldl_cons, hmem, if_true] at ih ⊢
        exact ih (hnodup.erase t') ht
      · simp only [discover, List.foldl_cons, hmem, if_false] at ih ⊢
        exact ih hnodup ht

/-- Hands one record over to be imported. -/
def importOne (r : RecordId) : Tracking Workspace PUnit := do
  let _ ← enroll r true

/-- The records that are handed over by an import of the records on a stack and all that is reached
from them, up to the first that is not accepted. -/
def importOrder (unmet : List RecordId) : List RecordId → Workspace × Heap → List RecordId
  | [], _ => []
  | r :: stack, s =>
    r :: match importOne r s with
      | .ok _ s' => importOrder (discover (s.2.targets r) unmet stack).1
          (discover (s.2.targets r) unmet stack).2 s'
      | .error _ _ => []
termination_by stack => unmet.length + stack.length
decreasing_by
  have := length_discover (s.2.targets r) unmet stack
  simp only [List.length_cons]
  omega

private theorem importAll_eq (unmet stack : List RecordId) (s : Workspace × Heap) :
    importAll unmet stack s = (importOrder unmet stack s).forM importOne s := by
  induction unmet, stack, s using importOrder.induct with
  | case1 unmet s =>
    rw [importAll, importOrder]
    rfl
  | case2 unmet r stack s ih =>
    rw [importAll, importOrder]
    change EStateM.bind (enroll r true) (fun _ => importAll _ _) s =
      EStateM.bind (importOne r) (fun _ => List.forM _ importOne) s
    have hone : importOne r s = EStateM.bind (enroll r true) (fun _ => pure ⟨⟩) s := rfl
    rw [EStateM.bind, EStateM.bind, hone, EStateM.bind]
    cases enroll r true s with
    | error e s' => rfl
    | ok q s' => exact ih s'

private theorem of_mem_importOrder (hq : q ∈ importOrder unmet stack s) : q ∈ unmet ++ stack := by
  induction unmet, stack, s using importOrder.induct with
  | case1 unmet s =>
    rw [importOrder] at hq
    cases hq
  | case2 unmet r stack s ih =>
    rw [importOrder] at hq
    rcases List.mem_cons.mp hq with rfl | hq
    · exact List.mem_append_right unmet List.mem_cons_self
    · cases hone : importOne r s with
      | error e s' =>
        rw [hone] at hq
        cases hq
      | ok _ s' =>
        rw [hone] at hq
        have hmet := (discover_perm (s.2.targets r) unmet stack).subset (ih s' hq)
        exact List.perm_middle.mem_iff.mpr (List.mem_cons_of_mem r hmet)

private theorem importOrder_nodup (hnodup : (unmet ++ stack).Nodup) :
    (importOrder unmet stack s).Nodup := by
  induction unmet, stack, s using importOrder.induct with
  | case1 unmet s =>
    rw [importOrder]
    exact .nil
  | case2 unmet r stack s ih =>
    obtain ⟨hr, hrest⟩ := List.nodup_cons.mp (List.perm_middle.nodup_iff.mp hnodup)
    have hperm := discover_perm (s.2.targets r) unmet stack
    rw [importOrder]
    cases importOne r s with
    | error e s' => exact List.nodup_singleton r
    | ok _ s' =>
      refine List.nodup_cons.mpr ⟨fun hin => hr ?_, ih s' (hperm.nodup_iff.mpr hrest)⟩
      exact hperm.subset (of_mem_importOrder hin)

private theorem importOne_eq_ok (hone : importOne r s = .ok ⟨⟩ s') :
    ∃ q, enroll r true s = .ok q s' := by
  change EStateM.bind (enroll r true) (fun _ => pure PUnit.unit) s = _ at hone
  rw [EStateM.bind] at hone
  cases hr : enroll r true s with
  | error e s₁ =>
    rw [hr] at hone
    cases hone
  | ok q s₁ =>
    rw [hr] at hone
    obtain rfl : s₁ = s' := (EStateM.Result.ok.inj hone).2
    exact ⟨q, rfl⟩

private theorem of_mem_targets_importOne (hone : importOne r s = .ok ⟨⟩ s') {v t : RecordId}
    (ht : t ∈ s'.2.targets v) : t ∈ s.2.targets v ∨ t ∈ s.2.targets r := by
  obtain ⟨q, hr⟩ := importOne_eq_ok hone
  obtain ⟨b', htracks, -⟩ := enroll_tracks r true s
  rw [hr] at htracks
  exact htracks.of_mem_targets ht

/-- When all have been accepted, no reference of those that have been handed over leads to a record
that was left out. -/
theorem importOrder_closed (done : List RecordId) (hnodup : (unmet ++ stack).Nodup)
    (havoid : ∀ v ∈ done, ∀ t ∈ s.2.targets v, t ∉ unmet)
    (hok : (importOrder unmet stack s).forM importOne s = .ok ⟨⟩ s') : ∃ left,
    (∀ x ∈ unmet ++ stack, x ∈ importOrder unmet stack s ∨ x ∈ left) ∧ left ⊆ unmet ∧
      (∀ x ∈ importOrder unmet stack s, x ∉ left) ∧
        ∀ v ∈ done ++ importOrder unmet stack s, ∀ t ∈ s'.2.targets v, t ∉ left := by
  induction unmet, stack, s using importOrder.induct generalizing done with
  | case1 unmet s =>
    rw [importOrder] at hok ⊢
    obtain rfl : s = s' := (EStateM.Result.ok.inj hok).2
    refine ⟨unmet, fun x hx => .inr ?_, List.Subset.refl unmet, fun x hx => ?_, fun v hv => ?_⟩
    · simpa using hx
    · cases hx
    · exact havoid v (by simpa using hv)
  | case2 unmet r stack s ih =>
    rw [importOrder] at hok ⊢
    obtain ⟨s₁, hone, htail⟩ := forM_cons_ok hok
    rw [hone] at htail ⊢
    obtain ⟨hr, hrest⟩ := List.nodup_cons.mp (List.perm_middle.nodup_iff.mp hnodup)
    have hperm := discover_perm (s.2.targets r) unmet stack
    have hleft := (discover_unmet_sublist (s.2.targets r) unmet stack).subset
    have hmet : ∀ t ∈ s.2.targets r, t ∉ (discover (s.2.targets r) unmet stack).1 :=
      fun t ht => notMem_discover (List.nodup_append.mp hrest).1 ht
    -- What the records already handed over refer to now, they referred to before, or `r` did.
    have havoid' : ∀ v ∈ r :: done, ∀ t ∈ s₁.2.targets v,
        t ∉ (discover (s.2.targets r) unmet stack).1 := by
      intro v hv t ht
      rcases of_mem_targets_importOne hone ht with ht | ht
      · rcases List.mem_cons.mp hv with rfl | hv
        · exact hmet t ht
        · exact fun hin => havoid v hv t ht (hleft hin)
      · exact hmet t ht
    obtain ⟨left, hall, hsub, hout, hclosed⟩ := ih s₁ _ (hperm.nodup_iff.mpr hrest) havoid' htail
    refine ⟨left, fun x hx => ?_, List.Subset.trans hsub hleft, fun x hx => ?_, fun v hv => ?_⟩
    · rcases List.mem_cons.mp (List.perm_middle.mem_iff.mp hx) with rfl | hx
      · exact .inl List.mem_cons_self
      · exact (hall x (hperm.mem_iff.mpr hx)).imp_left (List.mem_cons_of_mem r)
    · rcases List.mem_cons.mp hx with rfl | hx
      · exact fun hin => hr (List.mem_append_left stack (hleft (hsub hin)))
      · exact hout x hx
    · exact hclosed v (List.perm_middle.mem_iff.mp hv)

/-- The bucket of a type, if the type has been met. -/
def typeBucket? (w : Workspace) (t : RecordType) : Option Bucket :=
  (w.registry t.kind).buckets.get? t.name

/-- What holds of the bucket of a type, and is kept by tracking in it, holds after a record has been
handed over, of whatever type. -/
theorem enroll_keeps {P : Bucket → Prop} {t : RecordType} (hs : s.1.Sound s.2)
    (hstep : ∀ b b' answer h', b.Sound t.kind t.name s.2 →
      b.Tracks t.kind s.2 r true answer b' h' → P b → P b')
    (hP : ∃ b ∈ s.1.typeBucket? t, P b) :
    ∃ b ∈ (endState (enroll r true s)).1.typeBucket? t, P b := by
  obtain ⟨b, hb, hPb⟩ := hP
  obtain ⟨b', htracks, hget⟩ := enroll_tracks r true s
  have hnext := hget t.kind t.name
  split at hnext
  · next hsame =>
    obtain ⟨hkind, hname⟩ := hsame
    have hbucket : (s.1.registry t.kind).bucket (s.2.get r).type = b := by
      rw [Registry.bucket, hname]
      exact congrArg (Option.getD · _) hb
    rw [← hkind, hbucket] at htracks
    exact ⟨b', hnext, hstep b b' _ _ (hs t.kind t.name b hb) htracks hPb⟩
  · exact ⟨b, hnext.trans hb, hPb⟩

private theorem enroll_places (hs : s.1.Sound s.2) (hr : enroll r true s = .ok q s') :
    ∃ b ∈ s'.1.typeBucket? (s.2.get r).type,
      ((s.2.get r).isNew → b.ListsNew r ∨ s.2.Absorbs q r s'.2) ∧
      ((s.2.get r).isNew = false → ∃ key, s.2.primaryKey? r = some key ∧ b.HasKey key) := by
  obtain ⟨b', htracks, hget⟩ := enroll_tracks r true s
  have hbucket := hget (s.2.get r).type.kind (s.2.get r).type.name
  rw [if_pos ⟨rfl, rfl⟩] at hbucket
  rw [hr] at htracks hbucket
  exact ⟨b', hbucket, fun hn => htracks.listsNew_or_absorbs ((hs _).bucket _) hn, htracks.hasKey⟩

variable {h₀ : Heap} {rs : List RecordId}

private theorem importOne_sound (hs : SoundSince h₀ s) (hr : r ∈ h₀.ids)
    (hone : importOne r s = .ok ⟨⟩ s') : SoundSince h₀ s' := by
  obtain ⟨q, hr'⟩ := importOne_eq_ok hone
  have hsound : Preserves (SoundSince h₀) (enroll r true) := enroll_sound hr
  have hnext := preserves_iff.mp hsound s hs
  rwa [hr'] at hnext

private theorem forM_importOne_sound (hs : SoundSince h₀ s) (hrs : ∀ r ∈ rs, r ∈ h₀.ids)
    (hok : rs.forM importOne s = .ok ⟨⟩ s') : SoundSince h₀ s' := by
  induction rs generalizing s with
  | nil =>
    obtain rfl : s = s' := (EStateM.Result.ok.inj hok).2
    exact hs
  | cons r rs ih =>
    obtain ⟨s₁, hone, hrest⟩ := forM_cons_ok hok
    exact ih (importOne_sound hs (hrs r List.mem_cons_self) hone)
      (fun q hq => hrs q (List.mem_cons_of_mem r hq)) hrest

private theorem forM_importOne_keeps {P : Bucket → Prop} {t : RecordType} (hs : SoundSince h₀ s)
    (hrs : ∀ r ∈ rs, r ∈ h₀.ids) (hok : rs.forM importOne s = .ok ⟨⟩ s')
    (hstep : ∀ r ∈ rs, ∀ h b b' answer h', b.Sound t.kind t.name h →
      b.Tracks t.kind h r true answer b' h' → P b → P b')
    (hP : ∃ b ∈ s.1.typeBucket? t, P b) : ∃ b ∈ s'.1.typeBucket? t, P b := by
  induction rs generalizing s with
  | nil =>
    obtain rfl : s = s' := (EStateM.Result.ok.inj hok).2
    exact hP
  | cons r rs ih =>
    obtain ⟨s₁, hone, hrest⟩ := forM_cons_ok hok
    have hnext := enroll_keeps (r := r) hs.1 (hstep r List.mem_cons_self s.2) hP
    obtain ⟨q, hr⟩ := importOne_eq_ok hone
    rw [hr] at hnext
    exact ih (importOne_sound hs (hrs r List.mem_cons_self) hone)
      (fun q hq => hrs q (List.mem_cons_of_mem r hq)) hrest
      (fun q hq => hstep q (List.mem_cons_of_mem r hq)) hnext

/-- What has become of a record in `s'` that was handed over in `s₁`: a new one waits to be written
or has been absorbed at that time, and the key that a stored one had at that time is known. -/
structure IsPlaced (s₁ s' : Workspace × Heap) (r : RecordId) : Prop where
  new : (s'.2.get r).isNew →
    (∃ b ∈ s'.1.typeBucket? (s'.2.get r).type, b.ListsNew r) ∨
      ∃ q s₂, enroll r true s₁ = .ok q s₂ ∧ s₁.2.Absorbs q r s₂.2
  stored : (s'.2.get r).isNew = false → ∃ key, s₁.2.primaryKey? r = some key ∧
    ∃ b ∈ s'.1.typeBucket? (s'.2.get r).type, b.HasKey key

/-- A record that was handed over among others is placed when all have been. -/
theorem forM_importOne_places {done rest : List RecordId} (hs : SoundSince h₀ s)
    (hrs : ∀ q ∈ done ++ r :: rest, q ∈ h₀.ids) (hr : r ∉ rest)
    (hok : (done ++ r :: rest).forM importOne s = .ok ⟨⟩ s') :
    ∃ s₁, done.forM importOne s = .ok ⟨⟩ s₁ ∧ IsPlaced s₁ s' r := by
  obtain ⟨s₁, s₂, hdone, hone, hrest⟩ := forM_append_ok hok
  have hmem := List.forall_mem_append.mp hrs
  obtain ⟨hhead, hlater⟩ := List.forall_mem_cons.mp hmem.2
  have hs₁ : SoundSince h₀ s₁ := forM_importOne_sound hs hmem.1 hdone
  have hs₂ : SoundSince h₀ s₂ := importOne_sound hs₁ hhead hone
  have hs' : SoundSince h₀ s' := forM_importOne_sound hs₂ hlater hrest
  have htype : (s'.2.get r).type = (s₁.2.get r).type := by rw [hs'.2.type, hs₁.2.type]
  have hnew : (s'.2.get r).isNew = (s₁.2.get r).isNew := by rw [hs'.2.isNew, hs₁.2.isNew]
  obtain ⟨q, henroll⟩ := importOne_eq_ok hone
  obtain ⟨b, hb, hlists, hstored⟩ := enroll_places hs₁.1 henroll
  refine ⟨s₁, hdone, ?_⟩
  constructor <;> rw [hnew, htype] <;> intro hn
  · rcases hlists hn with hlists | habsorbs
    · refine .inl (forM_importOne_keeps (P := (·.ListsNew r)) hs₂ hlater hrest ?_ ⟨b, hb, hlists⟩)
      exact fun x hx _ _ _ _ _ hsound htracks =>
        htracks.listsNew_of_ne hsound fun he => hr (he ▸ hx)
    · exact .inr ⟨q, s₂, henroll, habsorbs⟩
  · obtain ⟨key, hkey, hhas⟩ := hstored hn
    refine ⟨key, hkey, forM_importOne_keeps (P := (·.HasKey key)) hs₂ hlater hrest ?_ ⟨b, hb, hhas⟩⟩
    exact fun _ _ _ _ _ _ _ _ htracks => htracks.keeps_hasKey

private theorem importAll_walks {root : RecordId} (hs : s.1.Sound s.2) (hroot : root ∈ s.2.ids) :
    ∃ rs, rs.Nodup ∧ rs ⊆ s.2.ids ∧
      importAll (s.2.ids.erase root) [root] s = rs.forM importOne s ∧
      ∀ s', importAll (s.2.ids.erase root) [root] s = .ok () s' →
        (∀ r ∈ s.2.ids, s'.2.Reaches root r → r ∈ rs) ∧
        ∀ r ∈ rs, ∃ done rest s₁, rs = done ++ r :: rest ∧
          done.forM importOne s = .ok ⟨⟩ s₁ ∧ IsPlaced s₁ s' r := by
  have hperm : (s.2.ids.erase root ++ [root]).Perm s.2.ids :=
    (List.perm_append_singleton root _).trans (List.perm_cons_erase hroot).symm
  have hnodup : (s.2.ids.erase root ++ [root]).Nodup := hperm.nodup_iff.mpr s.2.cells.nodup
  have hsub : ∀ r ∈ importOrder (s.2.ids.erase root) [root] s, r ∈ s.2.ids :=
    fun r hr => hperm.subset (of_mem_importOrder hr)
  have hsound : SoundSince s.2 s := ⟨hs, .refl s.2⟩
  refine ⟨importOrder (s.2.ids.erase root) [root] s, importOrder_nodup hnodup, hsub,
    importAll_eq .., fun s' hok => ?_⟩
  rw [importAll_eq] at hok
  have hfolds := (forM_importOne_sound hsound hsub hok).2
  refine ⟨fun r hr hreach => ?_, fun r hr => ?_⟩
  · obtain ⟨left, hall, -, hout, hclosed⟩ := importOrder_closed [] hnodup
      (fun _ hv => absurd hv List.not_mem_nil) hok
    have hpassed : ∀ v ∈ s.2.ids, v ∉ left → v ∈ importOrder (s.2.ids.erase root) [root] s :=
      fun v hv hnot => (hall v (hperm.mem_iff.mpr hv)).resolve_right hnot
    have hfirst : root ∈ importOrder (s.2.ids.erase root) [root] s := by
      rw [importOrder]
      exact List.mem_cons_self
    refine hpassed r hr (hreach.notMem (hout root hfirst) fun v hv hnot => ?_)
    exact hclosed v (hpassed v ((hfolds.ids v).mp hv) hnot)
  · obtain ⟨done, rest, horder⟩ := List.append_of_mem hr
    rw [horder] at hok
    have hnotin : r ∉ rest := by
      have hunique := importOrder_nodup (s := s) hnodup
      rw [horder] at hunique
      exact (List.nodup_cons.mp (List.nodup_append.mp hunique).2.1).1
    obtain ⟨s₁, hdone, hplaced⟩ := forM_importOne_places hsound (horder ▸ hsub) hnotin hok
    exact ⟨done, rest, s₁, horder, hdone, hplaced⟩

/-- An import hands over no record twice. If it is accepted, it has handed over whatever can be
reached when it is done, and each record that it has handed over is placed. Where nothing is
tracked, it does nothing. -/
theorem importGraph_walks {σ ρ : Type} {config : Config} {ops : List (Operation σ ρ)}
    (hops : Operation.AllLegal ({ config }, ∅) ops) {root : RecordId}
    (hroot : root ∈ (Operation.runAll ({ config }, ∅) ops).2.ids) :
    let s := Operation.runAll ({ config }, ∅) ops
    let s₀ := (s.1, s.2.modify root (·.setTransient false))
    if config.bypass then importGraph root s = .ok () s
    else ∃ rs, rs.Nodup ∧ rs ⊆ s.2.ids ∧ importGraph root s = rs.forM importOne s₀ ∧
      ∀ s', importGraph root s = .ok () s' →
        (∀ r ∈ s.2.ids, s'.2.Reaches root r → r ∈ rs) ∧
        ∀ r ∈ rs, ∃ done rest s₁, rs = done ++ r :: rest ∧
          done.forM importOne s₀ = .ok ⟨⟩ s₁ ∧ IsPlaced s₁ s' r := by
  intro s s₀
  have hconfig : s.1.config = config := Operation.config_runAll
  have hstart : importGraph root s = if s.1.config.bypass then .ok () s
      else importAll (s₀.2.ids.erase root) [root] s₀ := by
    change (if s.1.config.bypass then pure () else _ : Tracking Workspace Unit) s = _
    split <;> rfl
  rw [hstart, hconfig]
  split
  · rfl
  · have hf : s.2.Folds (s.2.modify root (·.setTransient false)) := .modify hroot rfl
      (Record.takes_setTransient _ _ false)
    have hsound : s₀.1.Sound s₀.2 := hops.sound.evolves hf.evolves
    obtain ⟨rs, hnodup, hsub, heq, hwalk⟩ := importAll_walks hsound ((hf.ids root).mpr hroot)
    refine ⟨rs, hnodup, fun r hr => (hf.ids r).mp (hsub hr), heq, fun s' hok => ?_⟩
    obtain ⟨hreached, hplaced⟩ := hwalk s' hok
    exact ⟨fun r hr => hreached r ((hf.ids r).mpr hr), hplaced⟩

/-! Two new remarks for one row, the first of which refers to the second and that to a third. -/

def linkedRemarks : Heap :=
  (((∅ : Heap).set ⟨0⟩ (remarkOn ⟨1⟩)).set ⟨1⟩ (remarkOn ⟨2⟩)).set ⟨2⟩
    { (remarkOn ⟨0⟩).setSlot 0 (.int64 2) with isNew := false }

def writeRemarks : List (Operation Unit) := [.edit linkedRemarks]

/-- The second remark is folded into the first one after that has been handed over, so that the
first one comes to refer to the third. All three have been handed over, and the key of the third,
which has its row, is known. -/
theorem importGraph_walks_remarks :
    let s' := endState (importGraph ⟨0⟩ (Operation.runAll ({}, ∅) writeRemarks))
    s'.2.targets ⟨0⟩ = [⟨2⟩] ∧ (∃ rs : List RecordId, rs.Nodup ∧ ⟨0⟩ ∈ rs ∧ ⟨2⟩ ∈ rs) ∧
      ∃ key, ∃ b ∈ s'.1.typeBucket? (s'.2.get ⟨2⟩).type, b.HasKey key := by
  intro s'
  have hlegal : Operation.AllLegal ({}, ∅) writeRemarks := ⟨.of_fresh (by decide +kernel), trivial⟩
  have hroot : ⟨0⟩ ∈ (Operation.runAll ({}, ∅) writeRemarks).2.ids := by decide +kernel
  obtain ⟨rs, hnodup, -, -, hdone⟩ := importGraph_walks hlegal hroot
  have htargets : s'.2.targets ⟨0⟩ = [⟨2⟩] := by decide +kernel
  have hreach : s'.2.Reaches ⟨0⟩ ⟨2⟩ := .single (by rw [htargets]; exact List.mem_cons_self)
  have hok : returned? (importGraph ⟨0⟩ (Operation.runAll ({}, ∅) writeRemarks)) = some () := by
    decide +kernel
  have hres : importGraph ⟨0⟩ (Operation.runAll ({}, ∅) writeRemarks) = .ok () s' := by
    cases hr : importGraph ⟨0⟩ (Operation.runAll ({}, ∅) writeRemarks) with
    | ok u s₁ => simp only [s', hr, endState]
    | error e s₁ => rw [hr] at hok; cases hok
  obtain ⟨hreached, hplaced⟩ := hdone s' hres
  have hthird := hreached ⟨2⟩ (by decide +kernel) hreach
  obtain ⟨done, rest, s₁, -, -, hp⟩ := hplaced ⟨2⟩ hthird
  obtain ⟨key, -, hkey⟩ := hp.stored (by decide +kernel)
  exact ⟨htargets, ⟨rs, hnodup, hreached ⟨0⟩ (by decide +kernel) .refl, hthird⟩, key, hkey⟩

/-- Where nothing is tracked, an import is accepted and no key is known. -/
theorem not_importGraph_tracks :
    ¬ ∀ (config : Config) (ops : List (Operation Unit)) (root r : RecordId) (s' : Workspace × Heap),
      Operation.AllLegal ({ config }, ∅) ops →
        root ∈ (Operation.runAll ({ config }, ∅) ops).2.ids →
          importGraph root (Operation.runAll ({ config }, ∅) ops) = .ok () s' → r ∈ s'.2.ids →
            s'.2.Reaches root r → (s'.2.get r).isNew = false →
              ∃ key, ∃ b ∈ s'.1.typeBucket? (s'.2.get r).type, b.HasKey key := by
  intro hall
  obtain ⟨key, b, hb, -⟩ := hall { bypass := true } writeRemarks ⟨2⟩ ⟨2⟩
    ({ config := { bypass := true } }, linkedRemarks) ⟨.of_fresh (by decide +kernel), trivial⟩
    (by decide +kernel) rfl (by decide +kernel) .refl (by decide +kernel)
  cases hb

end Workspace

end UnitOfWork
