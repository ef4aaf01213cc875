import UnitOfWork.Proofs.Record.Resolution
import UnitOfWork.Proofs.Tracking.SoundWorkspace

/-!
# Settling

Settling a workspace takes marks off the records and leaves their content alone. It succeeds only
when the key of every new record is known, and the keys are the same before and after.
-/

namespace UnitOfWork

namespace Heap

/-- What holds of the records before and after some of them were settled. -/
structure Settles (h h' : Heap) : Prop where
  ids : ∀ r ∈ h.ids, r ∈ h'.ids
  type : ∀ r, (h'.get r).type = (h.get r).type
  slots : ∀ r, (h'.get r).slots = (h.get r).slots
  references : ∀ r, (h'.get r).references = (h.get r).references
  isNew : ∀ r, (h'.get r).isNew → (h.get r).isNew
  inserted : ∀ r, (h'.get r).inserted → (h.get r).inserted
  saved : ∀ r, (h.get r).changed = ∅ → (h.get r).hydrated = false →
    (h'.get r).changed = ∅ ∧ (h'.get r).hydrated = false

namespace Settles

variable {h h' h'' : Heap}

theorem refl (h : Heap) : h.Settles h :=
  ⟨fun _ hr => hr, fun _ => rfl, fun _ => rfl, fun _ => rfl, fun _ hn => hn, fun _ hi => hi,
    fun _ hc hh => ⟨hc, hh⟩⟩

theorem trans (a : h.Settles h') (b : h'.Settles h'') : h.Settles h'' where
  ids r hr := b.ids r (a.ids r hr)
  type r := (b.type r).trans (a.type r)
  slots r := (b.slots r).trans (a.slots r)
  references r := (b.references r).trans (a.references r)
  isNew r hn := a.isNew r (b.isNew r hn)
  inserted r hi := a.inserted r (b.inserted r hi)
  saved r hc hh := b.saved r (a.saved r hc hh).1 (a.saved r hc hh).2

theorem evolves (a : h.Settles h') : h.Evolves h' :=
  ⟨a.ids, fun r _ => a.type r, fun r _ => a.isNew r⟩

private theorem modify_markCommitted (h : Heap) (r : RecordId) :
    h.Settles (h.modify r .markCommitted) := by
  refine ⟨fun q hq => mem_ids_modify.mpr (.inr hq), fun q => ?_, fun q => ?_, fun q => ?_,
    fun q => ?_, fun q => ?_, fun q => ?_⟩
  all_goals
    rw [get_modify]
    split
  any_goals rfl
  any_goals exact id
  any_goals exact Bool.noConfusion
  · exact fun _ _ => ⟨rfl, rfl⟩
  · exact fun hc hh => ⟨hc, hh⟩

theorem modify_resetChanges (h : Heap) (r : RecordId) : h.Settles (h.modify r .resetChanges) := by
  refine ⟨fun q hq => mem_ids_modify.mpr (.inr hq), fun q => ?_, fun q => ?_, fun q => ?_,
    fun q => ?_, fun q => ?_, fun q => ?_⟩
  all_goals
    rw [get_modify]
    split
  any_goals rfl
  any_goals exact id
  · exact fun _ _ => ⟨rfl, rfl⟩
  · exact fun hc hh => ⟨hc, hh⟩

theorem modifyAll {f : Record → Record} (hf : ∀ h r, Settles h (h.modify r f)) (h : Heap)
    (rs : List RecordId) : h.Settles (h.modifyAll rs f) := by
  induction rs generalizing h with
  | nil => exact refl h
  | cons r rs ih => exact (hf h r).trans (ih (h.modify r f))

theorem not_isNew_of_mem (h : Heap) {rs : List RecordId} {r : RecordId} (hr : r ∈ rs) :
    ((h.modifyAll rs .markCommitted).get r).isNew = false := by
  induction rs generalizing h with
  | nil => simp at hr
  | cons q rs ih =>
    by_cases hrs : r ∈ rs
    · exact ih (h.modify q .markCommitted) hrs
    · obtain rfl : r = q := (List.mem_cons.mp hr).resolve_right hrs
      have hself : ((h.modify r .markCommitted).get r).isNew = false := by
        rw [get_modify_self]
        rfl
      have hs := (modifyAll modify_markCommitted (h.modify r .markCommitted) rs).isNew r
      rw [hself] at hs
      exact Bool.eq_false_iff.mpr fun hc => Bool.noConfusion (hs hc)

end Settles

theorem Settles.primaryKey? {h h' : Heap} (a : h.Settles h') (r : RecordId) :
    h'.primaryKey? r = h.primaryKey? r := by
  rw [Heap.primaryKey?, resolve?_congr a.type a.slots a.references]
  rfl

end Heap

namespace Bucket

variable {kind : KeyKind} {name : String} {b : Bucket} {h : Heap}

theorem mem_values_fileAll {written : List (RowKey × RecordId)} {live : KeyIndex}
    {r : RecordId} (hr : r ∈ (written.foldl (fun live e => live.insert e.1 e.2) live).values) :
    r ∈ written.map Prod.snd ∨ r ∈ live.values := by
  induction written generalizing live with
  | nil => exact .inr hr
  | cons e rest ih =>
    rcases ih hr with hm | hm
    · exact .inl (List.mem_cons_of_mem _ hm)
    · rcases FinMap.mem_values_insert hm with rfl | hm
      · exact .inl List.mem_cons_self
      · exact .inr hm

theorem settle_settles (b : Bucket) (h : Heap) (purge : Bool)
    (written : List (RowKey × RecordId)) : h.Settles (b.settle h purge written).2 :=
  (Heap.Settles.modifyAll Heap.Settles.modify_markCommitted _ _).trans
    (Heap.Settles.modifyAll Heap.Settles.modify_resetChanges _ _)

theorem settle_sound (hb : b.Sound kind name h) (purge : Bool)
    {written : List (RowKey × RecordId)} (hw : ∀ e ∈ written, h.Belongs kind name e.2) :
    (b.settle h purge written).1.Sound kind name (b.settle h purge written).2 := by
  have hs := settle_settles b h purge written
  have he := hb.evolves hs.evolves
  refine { he with
    newCoherent := IdentitySet.coherent_empty
    new := fun r hr => by simp [settle] at hr
    newByKey := fun r hr => by simp [settle] at hr
    live := fun r hr => ?_
    deleted := fun r hr => ?_ }
  · rcases mem_values_fileAll hr with hm | hm
    · obtain ⟨e, hmem, rfl⟩ := List.mem_map.mp hm
      refine ⟨(hw e hmem).evolves hs.evolves, ?_⟩
      have hfirst := Heap.Settles.not_isNew_of_mem h hm
      have hrest := (Heap.Settles.modifyAll Heap.Settles.modify_resetChanges
        (h.modifyAll (written.map Prod.snd) .markCommitted)
        (b.settle h purge written).1.live.values).isNew e.2
      rw [hfirst] at hrest
      exact Bool.eq_false_iff.mpr fun hc => Bool.noConfusion (hrest hc)
    · exact he.live r hm
  · have hd : r ∈ b.deleted.values := by
      cases purge
      · exact hr
      · simp [settle] at hr
    exact he.deleted r hd

private theorem fileKey_known {r : RecordId} {key : RowKey} (hr : h.fileKey kind r = .ok key) :
    (h.primaryKey? r).isSome := by
  by_contra hn
  rw [Option.not_isSome_iff_eq_none] at hn
  rw [Heap.fileKey, Heap.fileKey?, hn] at hr
  cases hr

private theorem writtenKey_eq_ok {r : RecordId} {e : RowKey × RecordId} :
    (do return (← h.fileKey kind r, r)) = Except.ok (ε := Error) e ↔
      e.2 = r ∧ h.fileKey kind r = .ok e.1 := by
  obtain ⟨key, r'⟩ := e
  cases h.fileKey kind r with
  | error e' => simp [bind, Except.bind]
  | ok key' => simp [bind, Except.bind, pure, Except.pure, and_comm, eq_comm]

theorem mem_writtenKeys {written : List (RowKey × RecordId)}
    (hw : b.writtenKeys kind h = .ok written) {e : RowKey × RecordId} :
    e ∈ written ↔ e.2 ∈ b.new.toList ∧ h.fileKey kind e.2 = .ok e.1 := by
  obtain ⟨hall, hmem⟩ := mapM_ok hw
  constructor
  · intro he
    obtain ⟨r, hr, hre⟩ := hmem e he
    obtain ⟨rfl, hfile⟩ := writtenKey_eq_ok.mp hre
    exact ⟨hr, hfile⟩
  · rintro ⟨hr, hfile⟩
    obtain ⟨e', he', hre⟩ := hall e.2 hr
    obtain ⟨hrecord, hfile'⟩ := writtenKey_eq_ok.mp hre
    have hkey := Except.ok.inj (hfile.symm.trans hfile')
    rwa [Prod.ext hkey hrecord.symm]

theorem writtenKeys_error {e : Error} (hw : b.writtenKeys kind h = .error e) :
    ∃ r ∈ b.new.toList, h.fileKey kind r = .error e := by
  obtain ⟨r, hr, hfile⟩ := mapM_error hw
  refine ⟨r, hr, ?_⟩
  cases hk : h.fileKey kind r with
  | ok key =>
    rw [hk] at hfile
    cases hfile
  | error e' =>
    rw [hk] at hfile
    cases hfile
    rfl

theorem mem_map_writtenKeys {written : List (RowKey × RecordId)}
    (hw : b.writtenKeys kind h = .ok written) {r : RecordId} :
    r ∈ written.map Prod.snd ↔ r ∈ b.new.toList := by
  constructor
  · intro hr
    obtain ⟨e, he, rfl⟩ := List.mem_map.mp hr
    exact ((mem_writtenKeys hw).mp he).1
  · intro hr
    obtain ⟨e, he, hre⟩ := (mapM_ok hw).1 r hr
    exact List.mem_map.mpr ⟨e, he, (writtenKey_eq_ok.mp hre).1⟩

private theorem known_of_writtenKeys {written : List (RowKey × RecordId)}
    (hw : b.writtenKeys kind h = .ok written) {r : RecordId} (hr : r ∈ b.new.toList) :
    (h.primaryKey? r).isSome := by
  obtain ⟨e, -, hre⟩ := (mapM_ok hw).1 r hr
  exact fileKey_known (writtenKey_eq_ok.mp hre).2

end Bucket

namespace Registry

variable {kind : KeyKind}

/-- A sound registry, with records that have only been settled since they were `h₀`. -/
def SettledSince (h₀ : Heap) (s : Registry kind × Heap) : Prop := s.1.Sound s.2 ∧ h₀.Settles s.2

/-- The key of every new record is known. -/
def Known (g : Registry kind) (h : Heap) : Prop :=
  ∀ name b, g.buckets.get? name = some b → ∀ r ∈ b.new.toList, (h.primaryKey? r).isSome

private theorem settleAll_sound {h₀ : Heap} {purge : Bool}
    (all : List (String × Bucket × List (RowKey × RecordId)))
    (hall : ∀ e ∈ all, e.2.1.Sound kind e.1 h₀ ∧ ∀ p ∈ e.2.2, h₀.Belongs kind e.1 p.2)
    (s : Registry kind × Heap) (hs : SettledSince h₀ s) :
    SettledSince h₀ (all.foldl (fun (g, h) (name, b, written) =>
      let (b, h) := b.settle h purge written
      (g.setBucket name b, h)) s) := by
  induction all generalizing s with
  | nil => exact hs
  | cons e all ih =>
    obtain ⟨name, b, written⟩ := e
    obtain ⟨hb, hw⟩ := hall _ List.mem_cons_self
    apply ih (fun e he => hall e (List.mem_cons_of_mem _ he)) _
    have he := hs.2.evolves
    have hsettle := Bucket.settle_settles b s.2 purge written
    have hnext := Bucket.settle_sound (hb.evolves he) purge fun p hp => (hw p hp).evolves he
    exact ⟨(hs.1.evolves hsettle.evolves).setBucket hnext, hs.2.trans hsettle⟩

theorem mem_writtenBuckets {g : Registry kind} {h : Heap}
    {all : List (String × Bucket × List (RowKey × RecordId))}
    (hall : (g.buckets.entries.mapM fun e => do
      return (e.1, e.2, ← e.2.writtenKeys kind h)) = Except.ok (ε := Error) all)
    {x : String × Bucket × List (RowKey × RecordId)} :
    x ∈ all ↔ g.buckets.get? x.1 = some x.2.1 ∧ x.2.1.writtenKeys kind h = .ok x.2.2 := by
  obtain ⟨hin, hout⟩ := mapM_ok hall
  constructor
  · intro hx
    obtain ⟨e, he, hxe⟩ := hout x hx
    cases hw : e.2.writtenKeys kind h with
    | error e' => rw [hw] at hxe; cases hxe
    | ok written =>
      rw [hw] at hxe
      obtain rfl : (e.1, e.2, written) = x := Except.ok.inj hxe
      exact ⟨NameMap.mem_entries.mp he, hw⟩
  · rintro ⟨hget, hw⟩
    obtain ⟨y, hy, hxy⟩ := hin (x.1, x.2.1) (NameMap.mem_entries.mpr hget)
    rw [hw] at hxy
    obtain rfl : x = y := Except.ok.inj hxy
    exact hy

theorem writtenBuckets_ok {g : Registry kind} {h : Heap}
    {all : List (String × Bucket × List (RowKey × RecordId))}
    (hall : (g.buckets.entries.mapM fun e => do
      return (e.1, e.2, ← e.2.writtenKeys kind h)) = Except.ok (ε := Error) all) :
    (∀ x ∈ all, g.buckets.get? x.1 = some x.2.1 ∧ x.2.1.writtenKeys kind h = .ok x.2.2) ∧
      ∀ name b, g.buckets.get? name = some b → ∃ written, b.writtenKeys kind h = .ok written := by
  refine ⟨fun x hx => (mem_writtenBuckets hall).mp hx, fun name b hb => ?_⟩
  obtain ⟨x, -, hxe⟩ := (mapM_ok hall).1 (name, b) (NameMap.mem_entries.mpr hb)
  cases hw : b.writtenKeys kind h with
  | error e' => rw [hw] at hxe; cases hxe
  | ok written => exact ⟨written, rfl⟩

theorem writtenBuckets_error {g : Registry kind} {h : Heap} {e : Error}
    (hall : (g.buckets.entries.mapM fun e => do return (e.1, e.2, ← e.2.writtenKeys kind h)) =
      Except.error (α := List (String × Bucket × List (RowKey × RecordId))) e) :
    ∃ name b, g.buckets.get? name = some b ∧ b.writtenKeys kind h = .error e := by
  obtain ⟨⟨name, b⟩, hb, he⟩ := mapM_error hall
  refine ⟨name, b, NameMap.mem_entries.mp hb, ?_⟩
  dsimp only at he
  cases hw : b.writtenKeys kind h with
  | ok written =>
    rw [hw] at he
    cases he
  | error e' =>
    rw [hw] at he
    cases he
    rfl

theorem settle_error {g : Registry kind} {h : Heap} {purge : Bool} {e : Error}
    {s : Registry kind × Heap} (he : settle purge (g, h) = .error e s) :
    ∃ name b, g.buckets.get? name = some b ∧ ∃ r ∈ b.new.toList, h.fileKey kind r = .error e := by
  rw [settle] at he
  generalize hall : (g.buckets.entries.mapM _ : Except Error _) = result at he
  cases result with
  | ok all => cases he
  | error e' =>
    cases he
    obtain ⟨name, b, hb, hw⟩ := writtenBuckets_error hall
    exact ⟨name, b, hb, Bucket.writtenKeys_error hw⟩

theorem settle_sound {g : Registry kind} {h : Heap} (hg : g.Sound h) (purge : Bool) :
    Triple (· = (g, h)) (settle purge) (fun _ s => SettledSince h s ∧ g.Known h)
      fun _ s => SettledSince h s := by
  intro s hs
  subst hs
  rw [settle]
  generalize hall : (g.buckets.entries.mapM _ : Except Error _) = result
  cases result with
  | error e => exact ⟨hg, .refl h⟩
  | ok all =>
    obtain ⟨hwritten, hkeys⟩ := writtenBuckets_ok hall
    refine ⟨settleAll_sound all (fun x hx => ?_) (g, h) ⟨hg, .refl h⟩, fun name b hb r hr => ?_⟩
    · obtain ⟨hget, hw⟩ := hwritten x hx
      have hb := hg x.1 x.2.1 hget
      exact ⟨hb, fun p hp => hb.new p.2 ((Bucket.mem_writtenKeys hw).mp hp).1⟩
    · obtain ⟨written, hw⟩ := hkeys name b hb
      exact Bucket.known_of_writtenKeys hw hr

end Registry

namespace Workspace

/-- A sound workspace, with records that have only been settled since they were `h₀`. -/
def SettledSince (h₀ : Heap) (s : Workspace × Heap) : Prop := s.1.Sound s.2 ∧ h₀.Settles s.2

private theorem onRegistry_settled {h₀ : Heap} (kind : KeyKind) (purge : Bool) :
    Preserves (SettledSince h₀) (onRegistry kind (Registry.settle purge)) := by
  rw [preserves_iff]
  rintro ⟨w, h⟩ ⟨hw, a⟩
  rw [endState_onRegistry]
  obtain ⟨hg, a'⟩ := ((Registry.settle_sound (hw kind) purge).conseq (fun _ h => h)
    (fun _ _ hs => hs.1) fun _ _ hs => hs).endState rfl
  exact ⟨(hw.evolves a'.evolves).setRegistry hg, a.trans a'⟩

theorem settle_sound {w : Workspace} {h : Heap} (hw : w.Sound h) :
    Triple (· = (w, h)) settle
      (fun _ s => SettledSince h s ∧ ∀ kind, (w.registry kind).Known h)
      fun _ s => SettledSince h s := by
  rw [settle]
  refine Triple.get_bind fun s hs => ?_
  subst hs
  have hsound : Preserves (SettledSince h) (KeyKind.all.forM fun kind =>
      onRegistry kind (Registry.settle w.config.purgeDeleted)) :=
    Preserves.forM _ fun kind => onRegistry_settled kind _
  -- What is settled before a registry leaves the keys of its records as they were.
  have hstep : ∀ kind h', h.Settles h' → Triple (· = (w.registry kind, h'))
      (Registry.settle w.config.purgeDeleted)
      (fun _ s => h'.Settles s.2 ∧ (w.registry kind).Known h) fun _ _ => True := by
    intro kind h' a
    refine (Registry.settle_sound ((hw kind).evolves a.evolves) _).conseq (fun _ hs => hs) ?_
      fun _ _ _ => trivial
    rintro _ s ⟨hs, hknown⟩
    refine ⟨hs.2, fun name b hb r hr => ?_⟩
    rw [← a.primaryKey? r]
    exact hknown name b hb r hr
  have hwalk := forM_registries (Q := fun kind _ _ => (w.registry kind).Known h) (.refl h)
    (fun _ _ a b => a.trans b) hstep fun _ _ _ _ _ hk => hk
  exact ((hsound.starting ⟨hw, .refl h⟩).and hwalk).conseq (fun _ hs => ⟨hs, hs⟩)
    (fun _ _ hs => ⟨hs.1, hs.2.2.2⟩) fun _ _ hs => hs.1

end Workspace

end UnitOfWork
