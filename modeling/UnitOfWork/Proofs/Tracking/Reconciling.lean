import UnitOfWork.Proofs.Tracking.Identity

/-!
# Rows that are deleted and created again

A new record whose key is known when it is tracked takes the place of a record that is to be deleted
under the key, and that one is to be updated instead. From then on no new record has the key of a
row that is to be deleted, unless keys are reassigned or a record with a row is handed over beside
the new one.
-/

namespace UnitOfWork

namespace Bucket

variable {kind : KeyKind} {name : String} {b b' : Bucket} {h h' : Heap} {r q : RecordId}
  {importing : Bool} {answer : Option RecordId} {key : RowKey}

/-- Whatever is new or to be deleted keeps a key that is known. -/
def LeavesKeys (b : Bucket) (h h' : Heap) : Prop :=
  ∀ q ∈ b.new.toList ++ b.deleted.values, ∀ key ∈ h.primaryKey? q, h'.primaryKey? q = some key

private theorem LeavesKeys.new (hk : b.LeavesKeys h h') (hq : q ∈ b.new.toList)
    (hkey : h.primaryKey? q = some key) : h'.primaryKey? q = some key :=
  hk q (List.mem_append_left _ hq) key hkey

private theorem LeavesKeys.deleted (hk : b.LeavesKeys h h') (hq : q ∈ b.deleted.values)
    (hkey : h.primaryKey? q = some key) : h'.primaryKey? q = some key :=
  hk q (List.mem_append_right _ hq) key hkey

/-- A new record with the key is found by it and is alone under it. Of the new records only `r` is
meant, and only if the store generates no part of its key. -/
structure Reconciled (b : Bucket) (h : Heap) (key : RowKey) (r : RecordId) : Prop where
  exclusive : b.Exclusive key
  keepsKey : b.KeepsKey h key
  found : r ∈ b.new.toList → (h.get r).type.generatedCount = 0 →
    (h.primaryKey? r).isSome ∧ (h.primaryKey? r = some key → b.newByKey.get? key = some r)
  filed : ∀ key' q, b.deleted.get? key' = some q → h.primaryKey? q = some key'

theorem reconciled_empty (t : RecordType) : ({ type := t } : Bucket).Reconciled h key r where
  exclusive := exclusive_empty t
  keepsKey q hq := absurd hq (Option.not_mem_none q)
  found hr := absurd hr List.not_mem_nil
  filed _ _ hq := absurd hq (Option.not_mem_none _)

theorem Reconciled.primaryKey?_ne (hb : b.Reconciled h key r) (hr : r ∈ b.new.toList)
    (hg : (h.get r).type.generatedCount = 0) (hkey : h.primaryKey? r = some key)
    (hq : q ∈ b.deleted.values) : h.primaryKey? q ≠ some key := by
  intro hsame
  obtain ⟨key', hget⟩ := FinMap.exists_get?_of_mem_values hq
  obtain rfl : key' = key := Option.some.inj ((hb.filed key' q hget).symm.trans hsame)
  rw [(hb.exclusive r ((hb.found hr hg).2 hkey)).2.1] at hget
  cases hget

private theorem Reconciled.leavesKeys (hb : b.Reconciled h key r)
    (ht : r ∈ b.new.toList → (h'.get r).type = (h.get r).type) (hk : b.LeavesKeys h h') :
    b.Reconciled h' key r where
  exclusive := hb.exclusive
  keepsKey q hq := hk.new (hb.exclusive q hq).2.2 (hb.keepsKey q hq)
  found hr hg := by
    obtain ⟨hknown, hfound⟩ := hb.found hr (ht hr ▸ hg)
    obtain ⟨key', hkey⟩ := Option.isSome_iff_exists.mp hknown
    rw [hkey] at hfound
    rw [hk.new hr hkey]
    exact ⟨rfl, hfound⟩
  filed key' q hq := hk.deleted (FinMap.mem_values_of_get? hq) (hb.filed key' q hq)

private theorem Sound.mem_folding (hs : b.Sound kind name h) :
    q ∈ (b.folding r).new.toList ↔ q ≠ r ∧ q ∈ b.new.toList := by
  refine (hs.newCoherent.insert r).mem_erase.trans (and_congr_right fun hne => ?_)
  exact hs.newCoherent.mem_insert.trans (or_iff_right hne)

private theorem Tracks.mem_new (a : Tracks kind b h r importing answer b' h')
    (hs : b.Sound kind name h)
    (hq : q ∈ b'.new.toList) : q = r ∧ (h.get r).isNew ∧ (h.get r).isCommitReady ∨
      q ∈ b.new.toList := by
  have hlisting : q ∈ (b.listing r).new.toList → q = r ∨ q ∈ b.new.toList :=
    hs.newCoherent.mem_insert.mp
  cases a with
  | lists hn hready => exact (hlisting hq).imp_left fun he => ⟨he, hn, hready⟩
  | misfiles hn hready => exact (hlisting hq).imp_left fun he => ⟨he, hn, hready⟩
  | files hk => exact (hlisting hq).imp_left fun he => ⟨he, hk.isNew, hk.ready⟩
  | joins => exact .inr (hs.mem_folding.mp hq).2
  | revives => exact .inr (hs.mem_folding.mp hq).2
  | waits | fails | finds | merges | mergesDeleted | enters | replacesDeleted | restores =>
    exact .inr hq

private theorem Tracks.finds_handed (a : Tracks kind b h r importing answer b' h')
    (hs : b.Sound kind name h)
    (hfiled : key.isFiledUnder kind) (hn : (h.get r).isNew)
    (hg : (h.get r).type.generatedCount = 0) (hkey : h.primaryKey? r = some key)
    (hr : r ∈ b'.new.toList) : b'.newByKey.get? key = some r := by
  have hfolded : r ∉ (b.folding r).new.toList := fun hm => (hs.mem_folding.mp hm).1 rfl
  rcases a.of_known hfiled hn hg hkey with ⟨q, -, -, rfl⟩ | ⟨q, -, -, hnew⟩ | ⟨-, -, -, rfl⟩
  · exact absurd hr hfolded
  · rw [hnew] at hr
    exact absurd hr hfolded
  · exact (FinMap.get?_insert ..).trans (if_pos rfl)

private theorem Tracks.finds_still (a : Tracks kind b h r importing answer b' h')
    (hq : b.newByKey.get? key = some q) : b'.newByKey.get? key = some q := by
  cases a with
  | @files key' hk hrival =>
    refine (FinMap.get?_insert ..).trans ?_
    split
    · next hsame => rw [(rival?_eq_none hrival).1 q (hsame ▸ hq)]
    · exact hq
  | waits | lists | misfiles | joins | revives | fails | finds | merges | mergesDeleted | enters
  | replacesDeleted | restores => exact hq

private theorem Tracks.leavesKeys (a : Tracks kind b h r importing answer b' h')
    (hs : b.Sound kind name h) (hk : b.LeavesKeys h h') : b'.LeavesKeys h h' := by
  intro q hq
  have hkept : q ∈ b.new.toList ++ b.deleted.values → ∀ key ∈ h.primaryKey? q,
      h'.primaryKey? q = some key := hk q
  cases a with
  | joins =>
    exact hkept (List.mem_append.mpr ((List.mem_append.mp hq).imp_left fun hm =>
      (hs.mem_folding.mp hm).2))
  | revives =>
    exact hkept (List.mem_append.mpr ((List.mem_append.mp hq).imp
      (fun hm => (hs.mem_folding.mp hm).2) FinMap.mem_values_erase))
  | merges => exact hkept hq
  | mergesDeleted => exact hkept hq
  | waits | lists | misfiles | files | fails | finds | enters | replacesDeleted | restores =>
    exact fun _ hkey => hkey

private theorem Tracks.reconciled (a : Tracks kind b h r importing answer b' h') {x : RecordId}
    (hs : b.Sound kind name h) (hfiled : key.isFiledUnder kind) (happart : b.KeepsApart h key r)
    (hknown : x = r → (h.get x).isNew → (h.get x).isCommitReady →
      (h.get x).type.generatedCount = 0 → (h.primaryKey? x).isSome)
    (ht : x = r ∨ x ∈ b.new.toList → (h'.get x).type = (h.get x).type) (hk : b.LeavesKeys h h')
    (hb : b.Reconciled h key x) : b'.Reconciled h' key x := by
  refine Reconciled.leavesKeys ?_ (fun hx => ht ((a.mem_new hs hx).imp_left (·.1)))
    (a.leavesKeys hs hk)
  refine ⟨a.exclusive hs hb.keepsKey happart hb.exclusive, fun q hq => ?_, fun hx hg => ?_,
    fun key' q hq => ?_⟩
  · cases a with
    | @files key' hkeyed =>
      rcases FinMap.of_get?_insert hq with ⟨rfl, rfl⟩ | hq
      · exact hkeyed.primaryKey?
      · exact hb.keepsKey q hq
    | waits | lists | misfiles | joins | revives | fails | finds | merges | mergesDeleted | enters
    | replacesDeleted | restores => exact hb.keepsKey q hq
  · rcases a.mem_new hs hx with ⟨rfl, hn, hready⟩ | hmem
    · exact ⟨hknown rfl hn hready hg, fun hkey => a.finds_handed hs hfiled hn hg hkey hx⟩
    · exact (hb.found hmem hg).imp_right fun hfound hkey => a.finds_still (hfound hkey)
  · cases a with
    | revives => exact hb.filed key' q (FinMap.of_get?_erase hq)
    | restores => exact hb.filed key' q (FinMap.of_get?_erase hq)
    | replacesDeleted hst =>
      rcases FinMap.of_get?_insert hq with ⟨rfl, rfl⟩ | hq
      · exact hst.primaryKey?
      · exact hb.filed key' q hq
    | waits | lists | misfiles | joins | files | fails | finds | merges | mergesDeleted
    | enters => exact hb.filed key' q hq

private theorem Removes.reconciled (a : Removes kind b h r b') {x : RecordId}
    (hs : b.Sound kind name h) (hfiled : key.isFiledUnder kind) (happart : b.KeepsApart h key r)
    (hb : b.Reconciled h key x) : b'.Reconciled h key x := by
  refine ⟨a.exclusive hs hfiled hb.keepsKey happart hb.exclusive, fun q hq => ?_, fun hx hg => ?_,
    fun key' q hq => ?_⟩
  · cases a with
    | unfiles => exact hb.keepsKey q (FinMap.of_get?_erase hq)
    | forgets | fails | deletes => exact hb.keepsKey q hq
  · cases a with
    | forgets => exact hb.found (hs.newCoherent.mem_erase.mp hx).2 hg
    | @unfiles key' hn hfile hget =>
      obtain ⟨hne, hx⟩ := hs.newCoherent.mem_erase.mp hx
      refine (hb.found hx hg).imp_right fun hfound hkey => ?_
      refine (FinMap.get?_erase_of_ne ?_).trans (hfound hkey)
      rintro rfl
      exact hne (Option.some.inj ((hfound hkey).symm.trans hget))
    | fails | deletes => exact hb.found hx hg
  · cases a with
    | deletes hst =>
      rcases FinMap.of_get?_insert hq with ⟨rfl, rfl⟩ | hq
      · exact hst.primaryKey?
      · exact hb.filed key' q hq
    | forgets | unfiles | fails => exact hb.filed key' q hq

private theorem Reconciled.settle (hb : b.Reconciled h key r) (h₀ : Heap) (purge : Bool)
    (written : List (RowKey × RecordId)) (hk : b.LeavesKeys h h') :
    (b.settle h₀ purge written).1.Reconciled h' key r where
  exclusive := exclusive_of_none rfl
  keepsKey q hq := absurd hq (Option.not_mem_none q)
  found hr := absurd hr List.not_mem_nil
  filed key' q hq := by
    have hget : b.deleted.get? key' = some q := by
      cases purge with
      | true => cases hq
      | false => exact hq
    exact hk.deleted (FinMap.mem_values_of_get? hget) (hb.filed key' q hget)

end Bucket

namespace Move

variable {s : Workspace × Heap} {m : Move} {kind : KeyKind} {name : String} {key : RowKey}
  {r : RecordId}

/-- No known key is reassigned of a record that is new or to be deleted. -/
def LeavesKeys (name : String) (key : RowKey) (s : Workspace × Heap) (m : Move) : Prop :=
  ∀ b ∈ s.1.bucket? name key, b.LeavesKeys s.2 (m.run s).2

/-- If the new record `r` is handed over, then its key is known, unless the application owes a part
of it or the store generates one. -/
def KnowsKey (r : RecordId) (s : Workspace × Heap) : Move → Prop
  | track _ q _ => r = q → (s.2.get r).isNew → (s.2.get r).isCommitReady →
      (s.2.get r).type.generatedCount = 0 → (s.2.primaryKey? r).isSome
  | edit _ | remove _ _ | settle _ _ => True

/-- A sound workspace in which a new record with the key, `r` if any, is found by it and is alone
under it. -/
def Reconciled (name : String) (key : RowKey) (r : RecordId) (s : Workspace × Heap) : Prop :=
  s.1.Sound s.2 ∧ ∀ b ∈ s.1.bucket? name key, b.Reconciled s.2 key r

/-- What has to hold of every move of a history, so that a row is not both inserted and deleted. -/
structure IsApt (name : String) (key : RowKey) (r : RecordId) (s : Workspace × Heap) (m : Move) :
    Prop where
  leavesKeys : m.LeavesKeys name key s
  knowsKey : m.KnowsKey r s
  keepsApart : m.KeepsApart name key s

private theorem IsApt.kept (hm : m.IsApt name key r s) (hlegal : m.IsLegal s)
    (hs : Reconciled name key r s) {b : Bucket} (hb : b ∈ s.1.bucket? name key) :
    b.Reconciled (m.run s).2 key r := by
  have hevolves := (run_sound hlegal ⟨hs.1, .refl s.2⟩).2
  refine (hs.2 b hb).leavesKeys (fun hr => ?_) (hm.leavesKeys b hb)
  obtain ⟨kind, -, hget⟩ := Option.bind_eq_some_iff.mp hb
  exact hevolves.type r ((hs.1 kind name b hget).new r hr).mem

private theorem IsApt.bucket {x : RecordId} (hm : m.IsApt name key r s)
    (hs : Reconciled name key r s)
    (hx : x ∈ m.record?) (hk : key.kind? = some kind) (hname : (s.2.get x).type.name = name) :
    ((s.1.registry kind).bucket (s.2.get x).type).Reconciled s.2 key r ∧
      ((s.1.registry kind).bucket (s.2.get x).type).KeepsApart s.2 key x ∧
      ((s.1.registry kind).bucket (s.2.get x).type).LeavesKeys s.2 (m.run s).2 :=
  Workspace.forall_bucket (P := fun b => b.Reconciled s.2 key r ∧ b.KeepsApart s.2 key x ∧
      b.LeavesKeys s.2 (m.run s).2) hk hname
    (fun b hb => ⟨hs.2 b hb, hm.keepsApart b hb x hx hname, hm.leavesKeys b hb⟩)
    ⟨Bucket.reconciled_empty _, fun _ _ => rfl, fun _ hq => absurd hq List.not_mem_nil⟩

theorem IsApt.run (hm : m.IsApt name key r s) (hlegal : m.IsLegal s)
    (hs : Reconciled name key r s) : Reconciled name key r (m.run s) := by
  refine ⟨(run_sound hlegal ⟨hs.1, .refl s.2⟩).1, fun b hb => ?_⟩
  have hevolves := (run_sound hlegal ⟨hs.1, .refl s.2⟩).2
  cases run_alters hb with
  | leaves hb => exact hm.kept hlegal hs hb
  | @tracks kind x importing answer hmove hk hname a =>
    subst hmove
    obtain ⟨hrec, happart, hleaves⟩ := hm.bucket hs rfl hk hname
    have hbs := (hs.1 kind).bucket (s.2.get x).type
    exact a.reconciled hbs (RowKey.isFiledUnder_of_kind? hk) happart hm.knowsKey
      (fun hr => hevolves.type r (hr.elim (· ▸ hlegal.1) fun hr => (hbs.new r hr).mem)) hleaves hrec
  | removes hmove hk hname a hheap =>
    subst hmove
    obtain ⟨hrec, happart, -⟩ := hm.bucket hs rfl hk hname
    rw [hheap]
    exact a.reconciled ((hs.1 _).bucket _) (RowKey.isFiledUnder_of_kind? hk) happart hrec
  | settles _ _ hb' _ hsettled =>
    subst hsettled
    exact (hs.2 _ hb').settle _ _ _ (hm.leavesKeys _ hb')

theorem Reconciled.primaryKey?_ne {q : RecordId} (hs : Reconciled (s.2.get r).type.name key r s)
    (hkind : key.kind? = some (s.2.get r).type.kind) (hg : (s.2.get r).type.generatedCount = 0)
    (hr : r ∈ s.1.newRecords) (hkey : s.2.primaryKey? r = some key)
    (hq : q ∈ s.1.deleteBatches.flatMap (·.records)) (ht : (s.2.get q).type = (s.2.get r).type) :
    s.2.primaryKey? q ≠ some key := by
  obtain ⟨hsound, hbuckets⟩ := hs
  obtain ⟨kind, name, b, hb, hr⟩ := Workspace.mem_newRecords.mp hr
  obtain ⟨kind', name', b', hb', hq⟩ := Workspace.mem_deleteBatches.mp hq
  have hrb := (hsound kind name b hb).new r hr
  have hqb := ((hsound kind' name' b' hb').deleted q hq).1
  -- Both records are of one type, so that they are in the same bucket.
  obtain rfl : kind' = kind := by rw [← hrb.kind, ← hqb.kind, ht]
  obtain rfl : name' = name := by rw [← hrb.name, ← hqb.name, ht]
  obtain rfl : b' = b := Option.some.inj (hb'.symm.trans hb)
  rw [hrb.kind] at hkind
  rw [hrb.name] at hbuckets
  have hrec := hbuckets b' ((Workspace.bucket?_of_kind? hkind).trans hb)
  exact hrec.primaryKey?_ne hr hg hkey hq

theorem Along.reconciled {ms : List Move} (hlegal : Along IsLegal s ms)
    (hapt : Along (IsApt name key r) s ms) (hs : Reconciled name key r s) :
    Reconciled name key r (runAll s ms) :=
  (hlegal.and hapt).invariant (fun _ _ hm => hm.2.run hm.1) hs

theorem reconciled_empty (config : Config) (h : Heap) : Reconciled name key r ({ config }, h) := by
  refine ⟨Workspace.sound_empty config h, fun b hb => ?_⟩
  obtain ⟨kind, -, hget⟩ := Option.bind_eq_some_iff.mp hb
  cases kind <;> cases hget

end Move

section

variable {s : Workspace × Heap} {m : Move} {name : String} {key : RowKey} {r : RecordId}

instance (b : Bucket) (h h' : Heap) : Decidable (b.LeavesKeys h h') :=
  inferInstanceAs (Decidable (∀ q ∈ b.new.toList ++ b.deleted.values, ∀ key ∈ h.primaryKey? q,
    h'.primaryKey? q = some key))

instance : Decidable (m.LeavesKeys name key s) :=
  inferInstanceAs (Decidable (∀ b ∈ s.1.bucket? name key, b.LeavesKeys s.2 (m.run s).2))

instance : Decidable (m.KnowsKey r s) :=
  match m with
  | .track _ _ _ => inferInstanceAs (Decidable (_ → _ → _ → _ → _))
  | .edit _ | .remove _ _ | .settle _ _ => .isTrue trivial

instance : Decidable (m.IsApt name key r s) :=
  decidable_of_iff (m.LeavesKeys name key s ∧ m.KnowsKey r s ∧ m.KeepsApart name key s)
    ⟨fun h => ⟨h.1, h.2.1, h.2.2⟩, fun h => ⟨h.leavesKeys, h.knowsKey, h.keepsApart⟩⟩

end

end UnitOfWork
