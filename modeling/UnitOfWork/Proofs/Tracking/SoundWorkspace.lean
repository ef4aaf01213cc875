import UnitOfWork.Proofs.Tracking.SoundBucket

/-!
# Sound workspaces

A workspace is sound when every bucket is, in the registry and under the name that it belongs to.
Whatever an application has the workspace do keeps it sound, also an operation that fails.

A workspace is checked and settled one registry after the other, each of which is left alone while
the others are dealt with.
-/

namespace UnitOfWork

namespace Registry

variable {kind : KeyKind} {g : Registry kind} {h h₀ : Heap}

def Sound (g : Registry kind) (h : Heap) : Prop :=
  ∀ name b, g.buckets.get? name = some b → b.Sound kind name h

/-- A sound registry, with records that have only been folded since they were `h₀`. -/
def SoundSince (h₀ : Heap) (s : Registry kind × Heap) : Prop := s.1.Sound s.2 ∧ h₀.Folds s.2

theorem Sound.evolves {h' : Heap} (hg : g.Sound h) (e : h.Evolves h') : g.Sound h' :=
  fun name b hb => (hg name b hb).evolves e

theorem Sound.bucket (hg : g.Sound h) (t : RecordType) : (g.bucket t).Sound kind t.name h := by
  rw [Registry.bucket]
  cases hb : g.buckets.get? t.name with
  | none => exact Bucket.sound_empty t
  | some b => exact hg t.name b hb

theorem of_get?_setBucket {name name' : String} {b b' : Bucket}
    (hb : (g.setBucket name b).buckets.get? name' = some b') :
    name = name' ∧ b = b' ∨ name ≠ name' ∧ g.buckets.get? name' = some b' := by
  rw [setBucket, NameMap.get?_insert] at hb
  split at hb
  · next hn => exact .inl ⟨hn, Option.some.inj hb⟩
  · next hn => exact .inr ⟨hn, hb⟩

theorem Sound.setBucket (hg : g.Sound h) {name : String} {b : Bucket} (hb : b.Sound kind name h) :
    (g.setBucket name b).Sound h := by
  intro name' b' hb'
  rcases of_get?_setBucket hb' with ⟨rfl, rfl⟩ | ⟨-, hb'⟩
  · exact hb
  · exact hg name' b' hb'

private theorem onBucket_sound {α : Type} {r : RecordId} {x : Tracking Bucket α} (hr : r ∈ h₀.ids)
    (hk : (h₀.get r).type.kind = kind)
    (hx : ∀ b h name, b.Sound kind name h → h.Belongs kind name r →
      Bucket.SoundAfter kind name h (endState (x (b, h)))) :
    Preserves (SoundSince h₀) (onBucket r x : Tracking (Registry kind) α) := by
  rw [preserves_iff]
  rintro ⟨g, h⟩ ⟨hg, hf⟩
  have hb := hg.bucket (h.get r).type
  have hm : h.Belongs kind (h.get r).type.name r := ⟨(hf.ids r).mpr hr, rfl, by rw [hf.type r, hk]⟩
  have hs := hx _ h _ hb hm
  simp only [onBucket, Tracking.within]
  cases hres : x (g.bucket (h.get r).type, h) with
  | ok a s =>
    rw [hres] at hs
    exact ⟨(hg.evolves hs.2.evolves).setBucket hs.1, hf.trans hs.2⟩
  | error e s =>
    rw [hres] at hs
    exact ⟨(hg.evolves hs.2.evolves).setBucket hs.1, hf.trans hs.2⟩

theorem track_sound {r : RecordId} {importing : Bool} (hr : r ∈ h₀.ids)
    (hk : (h₀.get r).type.kind = kind) :
    Preserves (SoundSince h₀) (track r importing : Tracking (Registry kind) RecordId) :=
  onBucket_sound hr hk fun _ _ _ => Bucket.track_sound

theorem remove_sound {r : RecordId} (hr : r ∈ h₀.ids) (hk : (h₀.get r).type.kind = kind) :
    Preserves (SoundSince h₀) (remove r : Tracking (Registry kind) Unit) :=
  onBucket_sound hr hk fun _ _ _ => Bucket.remove_sound

private theorem promote_triple {I : Registry kind × Heap → Prop}
    {E : Error → Registry kind × Heap → Prop} {rs : List RecordId} (htrack : ∀ r ∈ rs,
      Triple I (track r false : Tracking (Registry kind) RecordId) (fun _ => I) E) :
    Triple I (promote rs : Tracking (Registry kind) (Option RecordId)) (fun _ => I) E := by
  induction rs with
  | nil => exact Triple.pure fun _ h => h
  | cons r rs ih =>
    have hrest := ih fun q hq => htrack q (List.mem_cons_of_mem r hq)
    rw [promote]
    apply Triple.get_bind
    intro s hs
    dsimp only
    split
    · exact (Triple.bind (htrack r List.mem_cons_self) fun _ => hrest).starting hs
    · exact (Triple.bind hrest fun _ => Triple.pure fun _ h => h).starting hs

/-- The check does nothing but track, and tells which key is missing. -/
theorem checkReady_triple {I : Registry kind × Heap → Prop}
    {E : Error → Registry kind × Heap → Prop} (htrack : ∀ s, I s → ∀ r ∈ s.1.pending,
      Triple I (track r false : Tracking (Registry kind) RecordId) (fun _ => I) E)
    (hmissing : ∀ type record s, I s → E (.missingPrimaryKey type record) s) :
    Triple I (checkReady : Tracking (Registry kind) Unit) (fun _ => I) E := by
  rw [checkReady]
  apply Triple.get_bind
  intro s hs
  refine (Triple.bind (promote_triple (htrack s hs)) fun found => ?_).starting hs
  cases found with
  | none => exact Triple.pure fun _ h => h
  | some r =>
    apply Triple.get_bind
    intro s hs
    apply Triple.throw
    rintro _ rfl
    exact hmissing _ _ _ hs

theorem checkReady_preserves {I : Registry kind × Heap → Prop}
    (htrack : ∀ s, I s → ∀ r ∈ s.1.pending,
      Preserves I (track r false : Tracking (Registry kind) RecordId)) :
    Preserves I (checkReady : Tracking (Registry kind) Unit) :=
  checkReady_triple htrack fun _ _ _ hs => hs

theorem mem_pending {r : RecordId} :
    r ∈ g.pending ↔ ∃ name b, g.buckets.get? name = some b ∧ r ∈ b.pending.toList := by
  simp only [pending, List.mem_flatMap, NameMap.mem_values]
  exact ⟨fun ⟨b, ⟨name, hb⟩, hr⟩ => ⟨name, b, hb, hr⟩, fun ⟨name, b, hb, hr⟩ => ⟨b, ⟨name, hb⟩, hr⟩⟩

theorem SoundSince.pending {s : Registry kind × Heap} (hs : SoundSince h₀ s) {r : RecordId}
    (hr : r ∈ s.1.pending) : r ∈ h₀.ids ∧ (h₀.get r).type.kind = kind := by
  obtain ⟨name, b, hb, hr⟩ := mem_pending.mp hr
  have hm := (hs.1 name b hb).pending r hr
  exact ⟨(hs.2.ids r).mp hm.mem, by rw [← hs.2.type r, hm.kind]⟩

theorem checkReady_sound :
    Preserves (SoundSince h₀) (checkReady : Tracking (Registry kind) Unit) :=
  checkReady_preserves fun _ hs _ hr => track_sound (hs.pending hr).1 (hs.pending hr).2

end Registry

namespace Workspace

variable {w : Workspace} {h h₀ : Heap}

def Sound (w : Workspace) (h : Heap) : Prop := ∀ kind, (w.registry kind).Sound h

/-- A sound workspace, with records that have only been folded since they were `h₀`. -/
def SoundSince (h₀ : Heap) (s : Workspace × Heap) : Prop := s.1.Sound s.2 ∧ h₀.Folds s.2

theorem mem_all (kind : KeyKind) : kind ∈ KeyKind.all := by cases kind <;> decide

@[simp]
theorem registry_empty (config : Config) (kind : KeyKind) :
    ({ config } : Workspace).registry kind = {} := by
  cases kind <;> rfl

theorem sound_empty (config : Config) (h : Heap) : ({ config } : Workspace).Sound h := by
  intro kind name b hb
  rw [registry_empty] at hb
  cases hb

theorem Sound.evolves {h' : Heap} (hw : w.Sound h) (e : h.Evolves h') : w.Sound h' :=
  fun kind => (hw kind).evolves e

theorem registry_setRegistry (w : Workspace) (kind : KeyKind) (g : Registry kind) :
    (w.setRegistry kind g).registry kind = g := by
  cases kind <;> rfl

theorem registry_setRegistry_of_ne {kind kind' : KeyKind} {g : Registry kind} (hne : kind' ≠ kind) :
    (w.setRegistry kind g).registry kind' = w.registry kind' := by
  cases kind <;> cases kind' <;> first | rfl | exact absurd rfl hne

@[simp]
theorem config_setRegistry (w : Workspace) (kind : KeyKind) (g : Registry kind) :
    (w.setRegistry kind g).config = w.config := by cases kind <;> rfl

theorem Sound.setRegistry (hw : w.Sound h) {kind : KeyKind} {g : Registry kind} (hg : g.Sound h) :
    (w.setRegistry kind g).Sound h := by
  intro kind'
  by_cases he : kind' = kind
  · subst he
    rwa [registry_setRegistry]
  · rw [registry_setRegistry_of_ne he]
    exact hw kind'

section

variable {α : Type} {kind : KeyKind} {x : Tracking (Registry kind) α}

theorem onRegistry_triple {Q : α → Workspace × Heap → Prop} {E : Error → Workspace × Heap → Prop}
    (hx : Triple (· = (w.registry kind, h)) x (fun a s => Q a (w.setRegistry kind s.1, s.2))
      fun e s => E e (w.setRegistry kind s.1, s.2)) :
    Triple (· = (w, h)) (onRegistry kind x) Q E := by
  rintro _ rfl
  have hs := hx (w.registry kind, h) rfl
  simp only [onRegistry, Tracking.within]
  cases hres : x (w.registry kind, h) with
  | ok a s =>
    rw [hres] at hs
    exact hs
  | error e s =>
    rw [hres] at hs
    exact hs

theorem endState_onRegistry (x : Tracking (Registry kind) α) (s : Workspace × Heap) :
    endState (onRegistry kind x s) =
      (s.1.setRegistry kind (endState (x (s.1.registry kind, s.2))).1,
        (endState (x (s.1.registry kind, s.2))).2) := by
  simp only [onRegistry, Tracking.within]
  cases x (s.1.registry kind, s.2) <;> rfl

theorem onRegistry_sound (hx : ∀ h, h₀.Folds h → Preserves (Registry.SoundSince h) x) :
    Preserves (SoundSince h₀) (onRegistry kind x) := by
  rw [preserves_iff]
  rintro ⟨w, h⟩ ⟨hw, hf⟩
  rw [endState_onRegistry]
  obtain ⟨hg, hf'⟩ := preserves_iff.mp (hx h hf) (w.registry kind, h) ⟨hw kind, .refl h⟩
  exact ⟨(hw.evolves hf'.evolves).setRegistry hg, hf.trans hf'⟩

end

/-- What is done to every registry in turn. `H` relates the records before and after, and `Q` says
what has been reached of a registry, which dealing with the others does not undo. -/
theorem forM_registries {x : (kind : KeyKind) → Tracking (Registry kind) Unit}
    {H : Heap → Heap → Prop} {Q : (kind : KeyKind) → Registry kind → Heap → Prop}
    (hrefl : H h h) (htrans : ∀ h' h'', H h h' → H h' h'' → H h h'')
    (hstep : ∀ kind h', H h h' → Triple (· = (w.registry kind, h')) (x kind)
      (fun _ s => H h' s.2 ∧ Q kind s.1 s.2) fun _ _ => True)
    (hlater : ∀ kind g h' h'', H h' h'' → Q kind g h' → Q kind g h'') :
    Triple (· = (w, h)) (KeyKind.all.forM fun kind => onRegistry kind (x kind))
      (fun _ s => s.1.config = w.config ∧ H h s.2 ∧ ∀ kind, Q kind (s.1.registry kind) s.2)
      fun _ _ => True := by
  -- The registries still to come are as they were.
  let I (kinds : List KeyKind) (s : Workspace × Heap) : Prop :=
    s.1.config = w.config ∧ H h s.2 ∧ kinds.Nodup ∧
      (∀ kind ∈ kinds, s.1.registry kind = w.registry kind) ∧
      ∀ kind, kind ∉ kinds → Q kind (s.1.registry kind) s.2
  have hwalk : Triple (I KeyKind.all) (KeyKind.all.forM fun kind => onRegistry kind (x kind))
      (fun _ => I []) fun _ _ => True := by
    apply Triple.forM _
    rintro kind rest ⟨w', h'⟩ ⟨hconfig, hH, hnodup, hsame, hreached⟩
    obtain ⟨hkind, hnodup⟩ := List.nodup_cons.mp hnodup
    have hreg : w'.registry kind = w.registry kind := hsame kind List.mem_cons_self
    have hs := hstep kind h' hH _ rfl
    simp only [onRegistry, Tracking.within, hreg]
    cases hres : x kind (w.registry kind, h') with
    | error e s => trivial
    | ok u s =>
      rw [hres] at hs
      obtain ⟨hnext, hQ⟩ := hs
      refine ⟨(config_setRegistry w' kind s.1).trans hconfig, htrans h' s.2 hH hnext, hnodup,
        fun k hk => ?_, fun k hk => ?_⟩
      · have hne : k ≠ kind := fun he => hkind (he ▸ hk)
        rw [registry_setRegistry_of_ne hne]
        exact hsame k (List.mem_cons_of_mem kind hk)
      · by_cases he : k = kind
        · subst he
          rw [registry_setRegistry]
          exact hQ
        · rw [registry_setRegistry_of_ne he]
          exact hlater k _ h' s.2 hnext
            (hreached k fun hm => (List.mem_cons.mp hm).elim he hk)
  have hstart : I KeyKind.all (w, h) :=
    ⟨rfl, hrefl, by decide, fun _ _ => rfl, fun kind hk => absurd (mem_all kind) hk⟩
  apply (hwalk.starting hstart).conseq (fun _ h => h) _ fun _ _ h => h
  rintro _ s ⟨hconfig, hH, -, -, hreached⟩
  exact ⟨hconfig, hH, fun kind => hreached kind List.not_mem_nil⟩

theorem enroll_sound {r : RecordId} {importing : Bool} (hr : r ∈ h₀.ids) :
    Preserves (SoundSince h₀) (enroll r importing) := by
  rw [enroll]
  refine Triple.get_bind fun s hs => (onRegistry_sound fun h' hf => ?_).starting hs
  apply Registry.track_sound ((hf.ids r).mpr hr)
  rw [hf.type r, hs.2.type r]

theorem track_sound {r : RecordId} (hr : r ∈ h₀.ids) : Preserves (SoundSince h₀) (track r) := by
  rw [track]
  apply Triple.get_bind
  intro s hs
  dsimp only
  split
  · exact (Preserves.pure r).starting hs
  · exact (enroll_sound hr).starting hs

theorem checkReady_sound : Preserves (SoundSince h₀) checkReady :=
  Preserves.forM _ fun _ => onRegistry_sound fun _ _ => Registry.checkReady_sound

theorem delete_sound {r : RecordId} (hr : r ∈ h₀.ids) : Preserves (SoundSince h₀) (delete r) := by
  rw [delete]
  apply Triple.get_bind
  intro s hs
  obtain ⟨w, h⟩ := s
  dsimp only
  split
  · exact (Preserves.pure ()).starting hs
  · have hf : h.Folds (h.modify r .markDeleted) :=
      .modify ((hs.2.ids r).mpr hr) rfl ((Record.takes_refl _ _).withDeleted true)
    have hs' : SoundSince h₀ (w, h.modify r .markDeleted) :=
      ⟨hs.1.evolves hf.evolves, hs.2.trans hf⟩
    apply Triple.set_bind
    split
    · exact (Preserves.pure ()).starting hs'
    · refine (onRegistry_sound fun h' hf' =>
        Registry.remove_sound ((hf'.ids r).mpr hr) ?_).starting hs'
      rw [hf'.type r, hs.2.type r]

theorem mem_discover {targets unmet stack : List RecordId} {q : RecordId} :
    q ∈ (discover targets unmet stack).1 ∨ q ∈ (discover targets unmet stack).2 →
      q ∈ unmet ∨ q ∈ stack := by
  induction targets generalizing unmet stack with
  | nil => exact id
  | cons t ts ih =>
    intro hq
    by_cases ht : t ∈ unmet
    · simp only [discover, List.foldl_cons, ht, if_true] at ih hq ⊢
      rcases ih hq with hq | hq
      · exact .inl (List.mem_of_mem_erase hq)
      · rcases List.mem_cons.mp hq with rfl | hq
        · exact .inl ht
        · exact .inr hq
    · simp only [discover, List.foldl_cons, ht, if_false] at ih hq ⊢
      exact ih hq

theorem importAll_triple {I : Workspace × Heap → Prop} {E : Error → Workspace × Heap → Prop}
    {unmet stack : List RecordId} (henroll : ∀ r, r ∈ unmet ∨ r ∈ stack →
      Triple I (enroll r true) (fun _ => I) E) :
    Triple I (importAll unmet stack) (fun _ => I) E := by
  -- The measure of the recursion: what is unmet and what is on the stack.
  induction hn : unmet.length + stack.length using Nat.strongRecOn
    generalizing unmet stack with
  | _ n ih =>
    cases stack with
    | nil =>
      rw [importAll]
      exact Triple.pure fun _ h => h
    | cons r stack =>
      rw [importAll]
      apply Triple.get_bind
      intro s hs
      refine (Triple.bind (henroll r (.inr List.mem_cons_self)) fun _ => ?_).starting hs
      refine ih _ ?_ (fun q hq => henroll q ?_) rfl
      · rw [length_discover, ← hn, List.length_cons]
        omega
      · exact (mem_discover hq).imp_right fun hq => List.mem_cons_of_mem r hq

theorem importGraph_sound {root : RecordId} (hr : root ∈ h₀.ids) :
    Preserves (SoundSince h₀) (importGraph root) := by
  rw [importGraph]
  apply Triple.get_bind
  intro s hs
  obtain ⟨w, h⟩ := s
  dsimp only
  split
  · exact (Preserves.pure ()).starting hs
  · have hf : h.Folds (h.modify root (·.setTransient false)) :=
      .modify ((hs.2.ids root).mpr hr) rfl (Record.takes_setTransient _ _ false)
    apply Triple.set_bind
    -- The walk begins with the records as they are now, and may reach each of them.
    have hwalk : Preserves (SoundSince (h.modify root (·.setTransient false)))
        (importAll ((h.modify root (·.setTransient false)).ids.erase root) [root]) :=
      importAll_triple fun q hq => enroll_sound (hq.elim List.mem_of_mem_erase fun hq => by
        obtain rfl := List.mem_singleton.mp hq
        exact (hf.ids _).mpr ((hs.2.ids _).mpr hr))
    have hs' : SoundSince (h.modify root (·.setTransient false))
        (w, h.modify root (·.setTransient false)) := ⟨hs.1.evolves hf.evolves, .refl _⟩
    apply (hwalk.starting hs').conseq (fun _ h => h)
      (fun _ _ h' => ⟨h'.1, (hs.2.trans hf).trans h'.2⟩)
    intro _ _ h'
    exact ⟨h'.1, (hs.2.trans hf).trans h'.2⟩

end Workspace

end UnitOfWork
