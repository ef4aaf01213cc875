import UnitOfWork.Proofs.Tracking.Reachable
import UnitOfWork.Proofs.Tracking.Recreating
import UnitOfWork.Proofs.Tracking.Routing

/-!
# The gate before a commit

The check that precedes a commit walks the pending records in the order of their types and, within a
type, in the order in which they came. One that has become ready is tracked as such: it is listed as
new, or another record that is filed under its key takes over what it had assigned. One that is not
ready stays where it is, and the first of these is the reason for which the commit is refused.

The walk changes records that are ready or have a row, never one that is pending. So no promotion
makes another pending record ready, and the records that stay are the same whatever the order.
-/

namespace UnitOfWork

namespace Record

variable {x y z : Record} {later later' : List Record}

/-- `y` has taken over what `x` had assigned, as changes. Where one of the later records had the
same name assigned, what that one had may stand in its place. -/
structure HasTaken (y x : Record) (later : List Record) : Prop where
  changed : ∀ name, x.Assigned name → name ∈ y.changed.names
  value : ∀ name, (x.values.get? name).isSome → ∃ z ∈ x :: later,
    (z.values.get? name).isSome ∧ y.values.get? name = z.values.get? name
  reference : ∀ field, (x.references.get? field).isSome → ∃ z ∈ x :: later,
    (z.references.get? field).isSome ∧ y.references.get? field = z.references.get? field
  slot : ∀ i < y.slots.length, (x.slot? i).isSome → (y.slot? i).isSome

private theorem hasTaken_absorb (y x : Record) : (y.absorb x).HasTaken x [] where
  changed _ hx := mem_changed_absorb.mpr (.inr hx)
  value name hx := ⟨x, List.mem_cons_self, hx, by
    rw [get?_values_absorb, Option.or_of_isSome hx]⟩
  reference field hx := ⟨x, List.mem_cons_self, hx, by
    rw [get?_references_absorb, Option.or_of_isSome hx]⟩
  slot i hi hx := by
    rw [show (y.absorb x).slots = fill y.slots x.slots from rfl, length_fill] at hi
    exact fill_isSome_of_other hi hx

theorem HasTaken.mono (hy : y.HasTaken x later) (hsub : later ⊆ later') : y.HasTaken x later' where
  changed := hy.changed
  value name hx := by
    obtain ⟨z, hz, hvalue⟩ := hy.value name hx
    exact ⟨z, List.cons_subset_cons x hsub hz, hvalue⟩
  reference field hx := by
    obtain ⟨z, hz, htarget⟩ := hy.reference field hx
    exact ⟨z, List.cons_subset_cons x hsub hz, htarget⟩
  slot := hy.slot

private theorem HasTaken.absorb (hy : y.HasTaken x later) (z : Record) :
    (y.absorb z).HasTaken x (later ++ [z]) where
  changed name hx := mem_changed_absorb.mpr (.inl (hy.changed name hx))
  value name hx := by
    rw [get?_values_absorb]
    cases hz : z.values.get? name with
    | some v => exact ⟨z, by simp, by rw [hz]; rfl, by rw [hz]; rfl⟩
    | none => exact (hy.mono (List.subset_append_left later [z])).value name hx
  reference field hx := by
    rw [get?_references_absorb]
    cases hz : z.references.get? field with
    | some t => exact ⟨z, by simp, by rw [hz]; rfl, by rw [hz]; rfl⟩
    | none => exact (hy.mono (List.subset_append_left later [z])).reference field hx
  slot i hi hx := by
    refine fill_isSome _ _ i (hy.slot i ?_ hx)
    rwa [show (y.absorb z).slots = fill y.slots z.slots from rfl, length_fill] at hi

private theorem HasTaken.undelete (hy : y.HasTaken x later) : y.undelete.HasTaken x later :=
  ⟨hy.changed, hy.value, hy.reference, hy.slot⟩

end Record

namespace Heap

variable {h h' : Heap} {r q p y : RecordId} {x : Record} {later : List Record}

/-- The record is ready for a commit. -/
def isReady (h : Heap) (r : RecordId) : Bool := (h.get r).isCommitReady

private theorem Absorbs.get_of_ne (a : h.Absorbs q r h') (hp : p ≠ q) : h'.get p = h.get p := by
  obtain ⟨-, rfl | rfl⟩ := a <;> exact get_modify_of_ne _ hp

private theorem Absorbs.hasTaken_self (a : h.Absorbs q r h') :
    (h'.get q).HasTaken (h.get r) [] := by
  obtain ⟨-, rfl | rfl⟩ := a <;> rw [get_modify_self] <;> exact Record.hasTaken_absorb _ _

private theorem Absorbs.hasTaken (a : h.Absorbs q r h') (hy : (h.get y).HasTaken x later) :
    (h'.get y).HasTaken x (later ++ [h.get r]) := by
  by_cases hq : y = q
  · subst hq
    obtain ⟨-, rfl | rfl⟩ := a <;> rw [get_modify_self]
    · exact hy.absorb _
    · exact hy.undelete.absorb _
  · rw [a.get_of_ne hq]
    exact hy.mono (List.subset_append_left later _)

private theorem describe_of_not_ready (hr : h.isReady r = false) :
    h.describe r = (h.get r).type.name ++ "(" ++ "?" ++ ")" := by
  have hnone : h.primaryKey? r = none := by
    rw [← Option.not_isSome_iff_eq_none]
    exact fun hsome => Bool.noConfusion (hr.symm.trans (isCommitReady_of_primaryKey? hsome))
  rw [describe, hnone]

end Heap

namespace Bucket

variable {kind : KeyKind} {name : String} {b b' : Bucket} {h h' : Heap} {r q : RecordId}
  {key : RowKey} {importing : Bool} {answer : Option RecordId}

/-- The record is filed under the key, as a new one or as one that has a row. -/
def Files (b : Bucket) (key : RowKey) (q : RecordId) : Prop :=
  b.newByKey.get? key = some q ∨ b.live.get? key = some q

private theorem Steady.notPending_of_files (hb : b.Steady name h) (hq : b.Files key q)
    (hp : q ∈ b.pending.toList) : (h.get q).isNew = false := by
  rcases hq with hq | hq
  · exact absurd hp (hb.newByKey key q hq).2.2.2
  · exact (hb.stored key q (.inl hq)).2

/-- What comes of a pending record that is tracked as ready: it is listed as new, or another one
that is filed under its key takes over what it had assigned. Whatever was listed or filed before
still is. -/
structure Promotes (b : Bucket) (h : Heap) (r : RecordId) (b' : Bucket) (h' : Heap) : Prop where
  pending : b'.pending = b.pending.erase r
  new : ∀ q ∈ b.new.toList, q ≠ r → q ∈ b'.new.toList
  files : ∀ {key q}, b.Files key q → b'.Files key q
  outcome : h' = h ∧ r ∈ b'.new.toList ∨
    ∃ key q, h.primaryKey? r = some key ∧ b'.Files key q ∧ h.Absorbs q r h' ∧
      (b.newByKey.get? key = some q ∨ (h.get q).isNew = false)

private theorem Tracks.promotes (a : Tracks kind b h r importing answer b' h')
    (hb : b.Steady name h)
    (hr : r ∈ b.pending.toList) (hn : (h.get r).isNew) (hready : (h.get r).isCommitReady)
    (hkey : ∀ e, h.fileKey? kind r ≠ .error e) : answer.isSome ∧ b.Promotes h r b' h' := by
  have hlisted : r ∈ (b.listing r).new.toList := hb.newCoherent.mem_insert.mpr (.inl rfl)
  have hlisting : ∀ q ∈ b.new.toList, q ≠ r → q ∈ (b.listing r).new.toList :=
    fun q hq _ => hb.newCoherent.mem_insert.mpr (.inr hq)
  have hfolding : ∀ q ∈ b.new.toList, q ≠ r → q ∈ (b.folding r).new.toList :=
    fun q hq hne => (hb.newCoherent.insert r).mem_erase.mpr ⟨hne, hlisting q hq hne⟩
  -- Nothing is filed as `r`, which is pending.
  have hnot : ∀ {key}, ¬ b.Files key r :=
    fun hf => Bool.noConfusion (hn.symm.trans (hb.notPending_of_files hf hr))
  have hstored : ∀ {key}, ¬ Stored h kind r key :=
    fun hst => Bool.noConfusion (hst.notNew.symm.trans hn)
  cases a with
  | waits _ hwaits => exact Bool.noConfusion (hwaits.symm.trans hready)
  | lists => exact ⟨rfl, rfl, hlisting, id, .inl ⟨rfl, hlisted⟩⟩
  | misfiles _ _ hmisfiles =>
    cases hf : h.fileKey? kind r with
    | error e => exact absurd hf (hkey e)
    | ok key => exact absurd hf (hmisfiles key)
  | @joins key q hk hrival =>
    obtain ⟨hne, hq⟩ := rival?_eq_some hrival
    have hfiles : b.Files key q := hq.imp_right And.left
    exact ⟨rfl, rfl, hfolding, id, .inr ⟨key, q, hk.primaryKey?, hfiles, ⟨hne, .inl rfl⟩,
      hfiles.imp_right fun hlive => (hb.stored key q (.inl hlive)).2⟩⟩
  | @revives key q hk hrival hdeleted =>
    have hrow : (h.get q).isNew = false := (hb.stored key q (.inr hdeleted)).2
    have hne : q ≠ r := by
      rintro rfl
      exact Bool.noConfusion (hn.symm.trans hrow)
    refine ⟨rfl, rfl, hfolding, fun {key' q'} hq' => hq'.imp_right fun hlive => ?_,
      .inr ⟨key, q, hk.primaryKey?, .inr (by rw [FinMap.get?_insert, if_pos rfl]), ⟨hne, .inr rfl⟩,
        .inr hrow⟩⟩
    rw [FinMap.get?_insert_of_ne, hlive]
    rintro rfl
    exact hnot (.inr ((rival?_eq_none hrival).2 q' hlive ▸ hlive))
  | @files key hk hrival hdeleted =>
    refine ⟨rfl, rfl, hlisting, fun {key' q'} hq' => hq'.imp_left fun hnew => ?_,
      .inl ⟨rfl, hlisted⟩⟩
    rw [FinMap.get?_insert_of_ne, hnew]
    rintro rfl
    exact hnot (.inl ((rival?_eq_none hrival).1 q' hnew ▸ hnew))
  | fails hold => exact Bool.noConfusion (hold.symm.trans hn)
  | finds hst | merges hst | mergesDeleted hst | enters hst | replacesDeleted hst | restores hst =>
    exact absurd hst hstored

private theorem Promotes.hasTaken {y : RecordId} {x : Record} {later : List Record}
    (a : b.Promotes h r b' h') (hy : (h.get y).HasTaken x later) :
    (h'.get y).HasTaken x (later ++ [h.get r]) := by
  rcases a.outcome with ⟨rfl, -⟩ | ⟨_, _, -, -, habsorbs, -⟩
  · exact hy.mono (List.subset_append_left later _)
  · exact habsorbs.hasTaken hy

end Bucket

namespace Registry

variable {kind : KeyKind} {s s₁ s₂ s' : Registry kind × Heap} {g : Registry kind} {h h' : Heap}
  {r p q : RecordId} {rs rs' : List RecordId} {later : List Record} {name : String} {b : Bucket}
  {key : RowKey}

/-! What the walk through the pending records does. -/

/-- The pending records of a type, in the order in which they came. -/
def pendingOf (g : Registry kind) (name : String) : Option (List RecordId) :=
  (g.buckets.get? name).map (·.pending.toList)

private theorem mem_pending_iff : r ∈ g.pending ↔ ∃ name l, g.pendingOf name = some l ∧ r ∈ l := by
  rw [mem_pending]
  constructor
  · rintro ⟨name, b, hb, hr⟩
    exact ⟨name, _, by rw [pendingOf, hb]; rfl, hr⟩
  · rintro ⟨name, l, hl, hr⟩
    obtain ⟨b, hb, rfl⟩ := Option.map_eq_some_iff.mp hl
    exact ⟨name, b, hb, hr⟩

/-- The pending records are new, of the kind of the registry, and the slots of their keys hold what
the columns declare. -/
def PendsNew (s : Registry kind × Heap) : Prop :=
  ∀ r ∈ s.1.pending, (s.2.get r).isNew ∧ (s.2.get r).type.kind = kind ∧ (s.2.get r).HasKinds

instance (s : Registry kind × Heap) : Decidable (PendsNew s) :=
  inferInstanceAs (Decidable (∀ r ∈ s.1.pending, _))

/-- The record `r`, as it was in `h`, is tracked: it is listed as new, or another record that is
filed under its key has taken over what it had assigned. -/
def Caches (s : Registry kind × Heap) (h : Heap) (r : RecordId) (later : List Record) : Prop :=
  ∃ b, s.1.buckets.get? (h.get r).type.name = some b ∧
    (r ∈ b.new.toList ∨ ∃ key q, q ≠ r ∧ h.primaryKey? r = some key ∧ b.Files key q ∧
      (s.2.get q).HasTaken (h.get r) later)

/-- From `s` to `s'` the records `rs`, which were pending, have been tracked as ready. -/
structure Promoted (s : Registry kind × Heap) (rs : List RecordId) (s' : Registry kind × Heap) :
    Prop where
  steady : Steady s'
  pendingOf : ∀ name, s'.1.pendingOf name = (s.1.pendingOf name).map (·.filter (· ∉ rs))
  record : ∀ p ∈ s.1.pending, p ∉ rs → s'.2.get p = s.2.get p
  caches : ∀ {h p later}, p ∉ rs → Caches s h p later → Caches s' h p (later ++ rs.map s.2.get)

theorem Promoted.refl (hs : Steady s) : Promoted s [] s where
  steady := hs
  pendingOf name := by
    cases s.1.pendingOf name <;> simp
  record _ _ _ := rfl
  caches _ hp := by simpa using hp

private theorem Promoted.mem_pending (hp : Promoted s rs s') :
    r ∈ s'.1.pending ↔ r ∈ s.1.pending ∧ r ∉ rs := by
  simp only [mem_pending_iff, hp.pendingOf, Option.map_eq_some_iff]
  constructor
  · rintro ⟨name, _, ⟨l, hl, rfl⟩, hr⟩
    obtain ⟨hr, hnot⟩ := List.mem_filter.mp hr
    exact ⟨⟨name, l, hl, hr⟩, by simpa using hnot⟩
  · rintro ⟨⟨name, l, hl, hr⟩, hnot⟩
    exact ⟨name, _, ⟨l, hl, rfl⟩, List.mem_filter.mpr ⟨hr, by simpa using hnot⟩⟩

private theorem Promoted.pendsNew (hp : Promoted s rs s') (hs : PendsNew s) : PendsNew s' := by
  intro r hr
  obtain ⟨hr, hnot⟩ := hp.mem_pending.mp hr
  rw [hp.record r hr hnot]
  exact hs r hr

theorem Promoted.trans (hp : Promoted s rs s₁) (hp' : Promoted s₁ rs' s₂)
    (hrs : ∀ r ∈ rs', r ∈ s.1.pending ∧ r ∉ rs) : Promoted s (rs ++ rs') s₂ where
  steady := hp'.steady
  pendingOf name := by
    rw [hp'.pendingOf, hp.pendingOf, Option.map_map]
    congr 1
    funext l
    simp only [Function.comp_apply, List.filter_filter, List.mem_append, not_or]
    congr 1
    funext q
    rw [Bool.decide_and, Bool.and_comm]
  record p hpend hnot := by
    obtain ⟨hnot, hnot'⟩ := not_or.mp (mt List.mem_append.mpr hnot)
    rw [hp'.record p (hp.mem_pending.mpr ⟨hpend, hnot⟩) hnot', hp.record p hpend hnot]
  caches hnot hc := by
    obtain ⟨hnot, hnot'⟩ := not_or.mp (mt List.mem_append.mpr hnot)
    have hsame : rs'.map s₁.2.get = rs'.map s.2.get :=
      List.map_congr_left fun r hr => hp.record r (hrs r hr).1 (hrs r hr).2
    rw [List.map_append, ← hsame, ← List.append_assoc]
    exact hp'.caches hnot' (hp.caches hnot hc)

private theorem Steady.notMem_pending (hs : Steady s) (hp : PendsNew s)
    (hb : s.1.buckets.get? name = some b)
    (hq : b.newByKey.get? key = some q ∨ (s.2.get q).isNew = false) : q ∉ s.1.pending := by
  intro hpending
  rcases hq with hq | hrow
  · obtain ⟨name', b', hb', hq'⟩ := Registry.mem_pending.mp hpending
    obtain ⟨-, hname, -, hnot⟩ := (hs name b hb).newByKey key q hq
    obtain rfl : name = name' := hname.symm.trans ((hs name' b' hb').pending q hq').2
    obtain rfl : b = b' := Option.some.inj (hb.symm.trans hb')
    exact hnot hq'
  · exact Bool.noConfusion (hrow.symm.trans (hp q hpending).1)

section

variable {b' : Bucket}

private theorem get?_setBucket (g : Registry kind) (name name' : String) (b : Bucket) :
    (g.setBucket name b).buckets.get? name' =
      if name = name' then some b else g.buckets.get? name' :=
  NameMap.get?_insert ..

private theorem caches_setBucket (a : b.Promotes h r b' h') :
    Caches (g.setBucket (h.get r).type.name b', h') h r [] := by
  refine ⟨b', by rw [get?_setBucket, if_pos rfl], ?_⟩
  rcases a.outcome with ⟨-, hnew⟩ | ⟨key, q, hkey, hfiles, habsorbs, -⟩
  · exact .inl hnew
  · exact .inr ⟨key, q, habsorbs.1, hkey, hfiles, habsorbs.hasTaken_self⟩

/-- The others are in their places afterwards, and those that are pending have not been changed. -/
theorem promoted_setBucket (hs : Steady (g, h)) (hp : PendsNew (g, h))
    (hb : g.buckets.get? (h.get r).type.name = some b) (a : b.Promotes h r b' h')
    (hs' : Steady (g.setBucket (h.get r).type.name b', h')) :
    Promoted (g, h) [r] (g.setBucket (h.get r).type.name b', h') where
  steady := hs'
  pendingOf name := by
    rw [pendingOf, pendingOf, get?_setBucket]
    split
    · next hname =>
      subst hname
      rw [hb, Option.map_some, Option.map_some, Option.map_some, a.pending,
        (hs _ b hb).pendingCoherent.toList_erase]
      simp
    · next hname =>
      cases hb₀ : g.buckets.get? name with
      | none => rfl
      | some b₀ =>
        have hkeep : ∀ q ∈ b₀.pending.toList, q ∉ [r] := by
          intro q hq hqr
          obtain rfl := List.mem_singleton.mp hqr
          exact hname ((hs name b₀ hb₀).pending q hq).2
        exact congrArg some (List.filter_eq_self.mpr fun q hq => decide_eq_true (hkeep q hq)).symm
  record p hpend hnot := by
    rcases a.outcome with ⟨rfl, -⟩ | ⟨key, q, -, -, habsorbs, hq⟩
    · rfl
    · exact habsorbs.get_of_ne fun hpq => hs.notMem_pending hp hb hq (hpq ▸ hpend)
  caches {h₀ p later} hnot hc := by
    obtain ⟨b₀, hb₀, hc⟩ := hc
    have hne : p ≠ r := fun he => hnot (List.mem_singleton.mpr he)
    by_cases hname : (h.get r).type.name = (h₀.get p).type.name
    · obtain rfl : b = b₀ := Option.some.inj (hb.symm.trans (hname ▸ hb₀))
      refine ⟨b', by rw [get?_setBucket, if_pos hname], hc.imp (fun hn => a.new p hn hne) ?_⟩
      rintro ⟨key, q, hqp, hkey, hfiles, htaken⟩
      exact ⟨key, q, hqp, hkey, a.files hfiles, a.hasTaken htaken⟩
    · refine ⟨b₀, by rw [get?_setBucket, if_neg hname, hb₀], hc.imp_right ?_⟩
      rintro ⟨key, q, hqp, hkey, hfiles, htaken⟩
      exact ⟨key, q, hqp, hkey, hfiles, a.hasTaken htaken⟩

end

private theorem Steady.promote (hs : Steady s) (hp : PendsNew s) (hr : r ∈ s.1.pending)
    (hready : s.2.isReady r) :
    ∃ a s', Registry.track r false s = .ok a s' ∧ Promoted s [r] s' ∧ Caches s' s.2 r [] := by
  obtain ⟨g, h⟩ := s
  obtain ⟨hn, hkind, hkinds⟩ := hp r hr
  obtain ⟨name, b, hb, hrb⟩ := Registry.mem_pending.mp hr
  obtain ⟨hlt, rfl⟩ := (hs name b hb).pending r hrb
  have hbucket : g.bucket (h.get r).type = b := by rw [Registry.bucket, hb, Option.getD_some]
  have hfile : ∀ e, h.fileKey? kind r ≠ .error e := by
    intro e he
    rw [Heap.fileKey?_of_hasKinds hkinds hkind] at he
    cases he
  obtain ⟨hsome, hpromotes⟩ :=
    (Bucket.track_tracks kind b h r false).promotes (hs _ b hb) hrb hn hready hfile
  obtain ⟨hanswer, hend⟩ := onBucket_eq (r := r) (Bucket.track kind r false) g h
  have hsteady := (hs.track hlt false).1
  rw [hbucket] at hanswer hend
  rw [← hanswer] at hsome
  change (returned? (Registry.track r false (g, h))).isSome at hsome
  change endState (Registry.track r false (g, h)) = _ at hend
  rw [hend] at hsteady
  cases hres : (Registry.track r false (g, h) :
      EStateM.Result Error (Registry kind × Heap) RecordId) with
  | error e s' =>
    rw [hres] at hsome
    cases hsome
  | ok a s' =>
    rw [hres] at hend
    obtain rfl := hend
    exact ⟨a, _, rfl, promoted_setBucket hs hp hb hpromotes hsteady, caches_setBucket hpromotes⟩

private theorem promote_cons (r : RecordId) (rs : List RecordId) (s : Registry kind × Heap) :
    Registry.promote (r :: rs) s =
      if s.2.isReady r then
        match Registry.track r false s with
        | .ok _ s' => Registry.promote rs s'
        | .error e s' => .error e s'
      else
        match Registry.promote rs s with
        | .ok _ s' => .ok (some r) s'
        | .error e s' => .error e s' := by
  rw [Registry.promote]
  change (if s.2.isReady r then _ else _ : Tracking (Registry kind) (Option RecordId)) s = _
  split
  · change EStateM.bind (Registry.track r false) (fun _ => Registry.promote rs) s = _
    rw [EStateM.bind]
    cases Registry.track r false s <;> rfl
  · change EStateM.bind (Registry.promote rs) (fun _ => pure (some r)) s = _
    rw [EStateM.bind]
    cases Registry.promote rs s <;> rfl

/-- Those records of a list of pending ones that are ready are promoted, and the first that is not
is told. -/
theorem Steady.promoteAll (hs : Steady s) (hp : PendsNew s) (hnodup : rs.Nodup)
    (hrs : ∀ r ∈ rs, r ∈ s.1.pending) :
    ∃ s', Registry.promote rs s = .ok (rs.filter fun r => !s.2.isReady r).head? s' ∧
      Promoted s (rs.filter s.2.isReady) s' := by
  induction rs generalizing s with
  | nil => exact ⟨s, rfl, .refl hs⟩
  | cons r rs ih =>
    obtain ⟨hr, hnodup⟩ := List.nodup_cons.mp hnodup
    obtain ⟨hpending, hrest⟩ := List.forall_mem_cons.mp hrs
    rw [promote_cons]
    by_cases hready : s.2.isReady r
    · obtain ⟨a, s₁, htrack, hone, -⟩ := hs.promote hp hpending hready
      have hne : ∀ q ∈ rs, q ∉ [r] := fun q hq he => hr (List.mem_singleton.mp he ▸ hq)
      have hsame : ∀ q ∈ rs, s₁.2.isReady q = s.2.isReady q := fun q hq => by
        rw [Heap.isReady, hone.record q (hrest q hq) (hne q hq), Heap.isReady]
      obtain ⟨s', hall, hothers⟩ := ih hone.steady (hone.pendsNew hp) hnodup fun q hq =>
        hone.mem_pending.mpr ⟨hrest q hq, hne q hq⟩
      have hwaiting : (rs.filter fun q => !s₁.2.isReady q) = rs.filter fun q => !s.2.isReady q :=
        List.filter_congr fun q hq => by rw [hsame q hq]
      rw [hwaiting] at hall
      rw [List.filter_congr hsame] at hothers
      refine ⟨s', ?_, ?_⟩
      · rw [if_pos hready, htrack, List.filter_cons_of_neg (by simpa using hready)]
        exact hall
      · rw [List.filter_cons_of_pos hready]
        exact hone.trans hothers fun q hq =>
          ⟨hrest q (List.mem_of_mem_filter hq), hne q (List.mem_of_mem_filter hq)⟩
    · obtain ⟨s', hall, hothers⟩ := ih hs hp hnodup hrest
      refine ⟨s', ?_, ?_⟩
      · rw [if_neg hready, hall, List.filter_cons_of_pos (by simpa using hready)]
        rfl
      · rw [List.filter_cons_of_neg hready]
        exact hothers

private theorem endState_promote_append {found : Option RecordId}
    (hok : Registry.promote rs s = .ok found s₁) :
    endState (Registry.promote (rs ++ rs') s) = endState (Registry.promote rs' s₁) := by
  induction rs generalizing s found with
  | nil =>
    obtain rfl : s = s₁ := (EStateM.Result.ok.inj hok).2
    rfl
  | cons r rs ih =>
    rw [promote_cons] at hok
    rw [List.cons_append, promote_cons]
    split at hok
    · next hready =>
      rw [if_pos hready]
      cases htrack : Registry.track r false s with
      | error e s₂ => rw [htrack] at hok; cases hok
      | ok a s₂ =>
        rw [htrack] at hok
        exact ih hok
    · next hready =>
      rw [if_neg hready]
      cases hrest : Registry.promote rs s with
      | error e s₂ => rw [hrest] at hok; cases hok
      | ok found' s₂ =>
        rw [hrest] at hok
        obtain rfl : s₂ = s₁ := (EStateM.Result.ok.inj hok).2
        rw [← ih hrest]
        cases Registry.promote (rs ++ rs') s <;> rfl

private theorem Steady.nodup_pending (hs : Steady s) : s.1.pending.Nodup := by
  refine List.nodup_flatMap.mpr ⟨fun b hb => ?_, ?_⟩
  · obtain ⟨name, hb⟩ := NameMap.mem_values.mp hb
    exact (hs name b hb).pendingCoherent.nodup
  · refine List.pairwise_map.mpr ((List.pairwise_map.mp s.1.buckets.nodup_names).imp_of_mem ?_)
    rintro ⟨name, b⟩ ⟨name', b'⟩ hb hb' hne r hr hr'
    have hname := ((hs name b (NameMap.mem_entries.mp hb)).pending r hr).2
    exact hne (hname.symm.trans ((hs name' b' (NameMap.mem_entries.mp hb')).pending r hr').2)

private theorem Promoted.waiting (hp : Promoted s (s.1.pending.filter s.2.isReady) s')
    (name : String) :
    s'.1.pendingOf name = (s.1.pendingOf name).map (·.filter fun r => !s.2.isReady r) := by
  rw [hp.pendingOf]
  refine Option.map_congr fun l hl => List.filter_congr fun r hr => ?_
  have hpending : r ∈ s.1.pending := mem_pending_iff.mpr ⟨name, l, hl, hr⟩
  simp [List.mem_filter, hpending]

/-- What has become of each of the pending records that are ready, by what had become of those
before it. -/
theorem Steady.caches_pending (hs : Steady s) (hp : PendsNew s) {before after : List RecordId}
    (hsplit : s.1.pending = before ++ r :: after) (hready : s.2.isReady r) :
    Caches (endState (Registry.promote s.1.pending s)) (endState (Registry.promote before s)).2 r
      ((after.filter s.2.isReady).map s.2.get) := by
  have hnodup := hs.nodup_pending
  have hmem : ∀ q ∈ before ++ r :: after, q ∈ s.1.pending := fun q hq => hsplit ▸ hq
  rw [hsplit] at hnodup ⊢
  obtain ⟨hbefore, hrest⟩ := List.forall_mem_append.mp hmem
  obtain ⟨hnodupBefore, hnodupRest, hapart⟩ := List.nodup_append.mp hnodup
  obtain ⟨hr, hnodupAfter⟩ := List.nodup_cons.mp hnodupRest
  obtain ⟨s₁, hfirst, hdone⟩ := hs.promoteAll hp hnodupBefore hbefore
  have hleft : ∀ q ∈ r :: after, q ∈ s₁.1.pending := fun q hq => hdone.mem_pending.mpr
    ⟨hrest q hq, fun hq' => hapart q (List.mem_of_mem_filter hq') q hq rfl⟩
  have hsame : ∀ q ∈ r :: after, s₁.2.get q = s.2.get q :=
    fun q hq => hdone.record q (hrest q hq) (hdone.mem_pending.mp (hleft q hq)).2
  have hready₁ : s₁.2.isReady r := by rwa [Heap.isReady, hsame r List.mem_cons_self]
  obtain ⟨a, s₂, htrack, hone, hcaches⟩ := hdone.steady.promote (hdone.pendsNew hp)
    (hleft r List.mem_cons_self) hready₁
  have hafter : ∀ q ∈ after, q ∈ s₂.1.pending := fun q hq => hone.mem_pending.mpr
    ⟨hleft q (List.mem_cons_of_mem r hq), fun he => hr (List.mem_singleton.mp he ▸ hq)⟩
  have hsame₂ : ∀ q ∈ after, s₂.2.get q = s.2.get q := by
    intro q hq
    obtain ⟨hq₁, hne⟩ := hone.mem_pending.mp (hafter q hq)
    rw [hone.record q hq₁ hne, hsame q (List.mem_cons_of_mem r hq)]
  obtain ⟨s₃, hlast, hall⟩ := hone.steady.promoteAll (hone.pendsNew (hdone.pendsNew hp)) hnodupAfter
    hafter
  have hend : endState (Registry.promote (before ++ r :: after) s) = s₃ := by
    rw [endState_promote_append hfirst, promote_cons, if_pos hready₁, htrack]
    exact congrArg endState hlast
  have hlater :
      (after.filter s₂.2.isReady).map s₂.2.get = (after.filter s.2.isReady).map s.2.get := by
    have hfilter : after.filter s₂.2.isReady = after.filter s.2.isReady :=
      List.filter_congr fun q hq => by rw [Heap.isReady, hsame₂ q hq, Heap.isReady]
    rw [hfilter]
    exact List.map_congr_left fun q hq => hsame₂ q (List.mem_of_mem_filter hq)
  have htold := hall.caches (fun hq => hr (List.mem_of_mem_filter hq)) hcaches
  rwa [hend, hfirst, ← hlater]

/-- The commit goes on just if every pending record is ready, and is refused because of the first
one that is not. Either way those that are not ready are left pending, in the order that they had,
and each of the others, when its turn came, was listed as new or taken over by another record that
is filed under its key. -/
theorem Reached.checkReady_gate (hs : Reached s) (hp : PendsNew s) :
    ∃ s', Registry.checkReady s =
        (match s.1.pending.filter fun r => !s.2.isReady r with
        | [] => .ok () s'
        | r :: _ => .error (.missingPrimaryKey (s.2.get r).type.name (s.2.describe r)) s') ∧
      (∀ name, s'.1.pendingOf name =
        (s.1.pendingOf name).map (·.filter fun r => !s.2.isReady r)) ∧
      ∀ before r after, s.1.pending = before ++ r :: after → s.2.isReady r →
        Caches s' (endState (promote before s)).2 r ((after.filter s.2.isReady).map s.2.get) := by
  have hsteady := hs.steady
  obtain ⟨s', hall, hpromoted⟩ := hsteady.promoteAll hp hsteady.nodup_pending fun r hr => hr
  refine ⟨s', ?_, hpromoted.waiting, fun before r after hsplit hready => ?_⟩
  · change EStateM.bind (Registry.promote s.1.pending) _ s = _
    rw [EStateM.bind, hall]
    cases hwaiting : s.1.pending.filter fun r => !s.2.isReady r with
    | nil => rfl
    | cons r rest =>
      obtain ⟨hpending, hready⟩ : r ∈ s.1.pending ∧ s.2.isReady r = false := by
        have hr : r ∈ s.1.pending.filter fun r => !s.2.isReady r := hwaiting ▸ List.mem_cons_self
        simpa using List.mem_filter.mp hr
      -- The record that is told has not been changed by the promotion of the others.
      have hsame : s'.2.get r = s.2.get r := hpromoted.record r hpending fun hr => by
        rw [(List.mem_filter.mp hr).2] at hready
        cases hready
      have hready' : s'.2.isReady r = false := by rwa [Heap.isReady, hsame]
      have hdescribe : s'.2.describe r = s.2.describe r := by
        rw [Heap.describe_of_not_ready hready, Heap.describe_of_not_ready hready', hsame]
      change EStateM.Result.error (Error.missingPrimaryKey (s'.2.get r).type.name
        (s'.2.describe r)) s' = _
      rw [hsame, hdescribe]
  · have hcaches := hsteady.caches_pending hp hsplit hready
    rwa [hall] at hcaches

/-! A record that is folded into another one, one that is listed, and one between them that has no
key yet. -/

/-- An item that has no key yet. -/
def blankItem : Record := Record.create (itemType "a")

/-- A new item with the key 1, and three without a key that wait. -/
def items : Registry .int64 × Heap :=
  [⟨0⟩, ⟨1⟩, ⟨2⟩, ⟨3⟩].foldl (fun s r => endState (Registry.track r false s))
    ({}, [newItem, blankItem, blankItem, blankItem].foldl (fun h x => (h.alloc x).2) ∅)

/-- Two of those that wait have got their keys, the first one the key of the item that is known. -/
def waiting : Registry .int64 × Heap :=
  (items.1, (items.2.modify ⟨1⟩ (Record.Setter.setKey "id" (.int64 1)).apply).modify ⟨3⟩
    (Record.Setter.setKey "id" (.int64 2)).apply)

private theorem items_reached : Reached items := by
  have hall : Reached (({} : Registry .int64),
      [newItem, blankItem, blankItem, blankItem].foldl (fun h x => (h.alloc x).2) ∅) :=
    .create _ (.create _ (.create _ (.create _ .empty)))
  exact .track (r := ⟨3⟩) false (.track (r := ⟨2⟩) false (.track (r := ⟨1⟩) false
    (.track (r := ⟨0⟩) false hall (by decide +kernel)) (by decide +kernel)) (by decide +kernel))
    (by decide +kernel)

private theorem waiting_reached : Reached waiting :=
  .assign ⟨3⟩ (.setKey "id" (.int64 2)) (.assign ⟨1⟩ (.setKey "id" (.int64 1)) items_reached)

theorem checkReady_gate_waiting :
    ∃ s', Registry.checkReady waiting = .error (.missingPrimaryKey "a" "a(?)") s' ∧
      s'.1.pendingOf "a" = some [⟨2⟩] ∧
      Caches s' waiting.2 ⟨1⟩ [waiting.2.get ⟨3⟩] ∧
      Caches s' (endState (promote [⟨1⟩, ⟨2⟩] waiting)).2 ⟨3⟩ [] := by
  obtain ⟨s', hres, hpending, hcaches⟩ :=
    waiting_reached.checkReady_gate (by decide +kernel)
  have hwaiting : (waiting.1.pending.filter fun r => !waiting.2.isReady r) = [⟨2⟩] := by
    decide +kernel
  have hname : (waiting.2.get ⟨2⟩).type.name = "a" := by decide +kernel
  have hdescribe : waiting.2.describe ⟨2⟩ = "a(?)" := by decide +kernel
  have hleft : (waiting.1.pendingOf "a").map (·.filter fun r => !waiting.2.isReady r) =
      some [⟨2⟩] := by decide +kernel
  rw [hwaiting] at hres
  dsimp only at hres
  rw [hname, hdescribe] at hres
  exact ⟨s', hres, (hpending "a").trans hleft,
    hcaches [] ⟨1⟩ [⟨2⟩, ⟨3⟩] (by decide +kernel) (by decide +kernel),
    hcaches [⟨1⟩, ⟨2⟩] ⟨3⟩ [] (by decide +kernel) (by decide +kernel)⟩

/-! A record that has taken over the key of a record of another type, and one that is folded into an
item whose key is another one by now. -/

/-- The first of the items that wait has taken over what is known of a page. -/
def misfit : Registry .int64 × Heap :=
  (items.1, items.2.modify ⟨1⟩
    (Record.Setter.merge ((Record.persisted Workspace.pageType).setSlot 0 (.int32 1))).apply)

/-- The item that is filed under the key 1 has got the key 2, and one that waits has got the key
1. -/
def renumbered : Registry .int64 × Heap :=
  (items.1, (items.2.modify ⟨0⟩ (Record.Setter.setKey "id" (.int64 2)).apply).modify ⟨1⟩
    (Record.Setter.setKey "id" (.int64 1)).apply)

/-- With what the one has in its slot the check ends in another error than that a key is missing.
After it the other one is not listed as new, and no other record has its key. -/
theorem not_checkReady_gate :
    (Reached misfit ∧
      (∀ r ∈ misfit.1.pending, (misfit.2.get r).isNew ∧ (misfit.2.get r).type.kind = .int64) ∧
      (∃ r ∈ misfit.1.pending, misfit.2.isReady r = false) ∧
      ∀ type record s', Registry.checkReady misfit ≠ .error (.missingPrimaryKey type record) s') ∧
    Reached renumbered ∧
      (∀ r ∈ renumbered.1.pending,
        (renumbered.2.get r).isNew ∧ (renumbered.2.get r).type.kind = .int64) ∧
      ∃ r ∈ renumbered.1.pending, renumbered.2.isReady r ∧
        (∀ b ∈ (endState (Registry.checkReady renumbered)).1.buckets.values, r ∉ b.new.toList) ∧
        ∀ q ∈ (endState (Registry.checkReady renumbered)).2.ids, q ≠ r →
          (endState (Registry.checkReady renumbered)).2.primaryKey? q ≠
            (endState (Registry.checkReady renumbered)).2.primaryKey? r := by
  constructor
  · refine ⟨.assign _ _ items_reached, by decide +kernel, ⟨⟨2⟩, by decide +kernel⟩, ?_⟩
    intro type record s' hres
    have hmismatch : (match Registry.checkReady misfit with
        | .error e _ => e.isMismatch
        | .ok _ _ => false) = true := by decide +kernel
    rw [hres] at hmismatch
    cases hmismatch
  · exact ⟨.assign _ _ (.assign _ _ items_reached), by decide +kernel, ⟨1⟩, by decide +kernel,
      by decide +kernel, by decide +kernel, by decide +kernel⟩

end Registry

end UnitOfWork
