import UnitOfWork.Proofs.Commit.BuiltRecords
import UnitOfWork.Proofs.Commit.PartialSettling
import UnitOfWork.Proofs.Tracking.Identity
import UnitOfWork.Proofs.Tracking.ImportWalk

/-!
# Where records are tracked and where they are looked up

A record is tracked in the registry for the kind of its first key column; a key is looked up in the
registry for the kind of its first component. In records that are built the two are the same, and no
registry is ever given a key that it cannot file, however the components have come about. So a
record with a row that has been tracked is found by its key, unless its row is to be deleted.
-/

namespace UnitOfWork

/-- The error says that a value or a key component is of the wrong type. -/
def Error.isMismatch : Error → Bool
  | mismatch .. => true
  | _ => false

namespace Heap

variable {h h' : Heap} {r q : RecordId} {key : RowKey} {kind : KeyKind} {e : Error}

private theorem kind?_primaryKey? (hr : (h.get r).HasKinds) (hk : h.primaryKey? r = some key) :
    key.kind? = some (h.get r).type.kind := by
  have hkinds := kinds_primaryKey? hr hk
  rw [RowKey.kind?, ← List.head?_map, hkinds, List.head?_map,
    List.head?_eq_some_head (h.get r).type.key_ne_nil]
  rfl

/-- A registry never refuses the key of a record of its kind for the kind of a component. -/
theorem fileKey?_of_hasKinds (hr : (h.get r).HasKinds) (hkind : (h.get r).type.kind = kind) :
    h.fileKey? kind r = .ok (h.primaryKey? r) := by
  cases hk : h.primaryKey? r with
  | none =>
    rw [fileKey?, hk]
  | some key =>
    have hfiled := RowKey.isFiledUnder_of_kind? (hkind ▸ kind?_primaryKey? hr hk)
    rw [fileKey?_of_primaryKey? hk hfiled]

private theorem fileKey_isMismatch (hr : (h.get r).HasKinds) (hkind : (h.get r).type.kind = kind)
    (he : h.fileKey kind r = .error e) : e.isMismatch = false := by
  rw [fileKey, fileKey?_of_hasKinds hr hkind] at he
  cases hk : h.primaryKey? r with
  | none =>
    rw [hk] at he
    obtain rfl := Except.error.inj he
    rfl
  | some key =>
    rw [hk] at he
    cases he

/-- Records whose types have the same name are of one type. -/
def SharesTypes (h : Heap) : Prop :=
  ∀ r ∈ h.ids, ∀ q ∈ h.ids, (h.get r).type.name = (h.get q).type.name →
    (h.get r).type = (h.get q).type

instance : Decidable h.SharesTypes :=
  inferInstanceAs (Decidable (∀ r ∈ h.ids, ∀ q ∈ h.ids, _ → _))

theorem SharesTypes.folds (hs : h.SharesTypes) (hf : h.Folds h') : h'.SharesTypes := by
  intro r hr q hq
  rw [hf.type, hf.type]
  exact hs r ((hf.ids r).mp hr) q ((hf.ids q).mp hq)

private theorem SharesTypes.of_evolves (hs : h'.SharesTypes) (a : h.Evolves h') :
    h.SharesTypes := by
  intro r hr q hq
  rw [← a.type r hr, ← a.type q hq]
  exact hs r (a.ids r hr) q (a.ids q hq)

private theorem SharesTypes.type_eq {name : String} (hs : h.SharesTypes)
    (hq : h.Belongs kind name q) (hr : h.Belongs kind name r) : (h.get r).type = (h.get q).type :=
  hs r hr.mem q hq.mem (hr.name.trans hq.name.symm)

end Heap

/-- The action keeps what it has to, and does not stop with a mismatch. -/
def Agrees {ρ α : Type} (I : ρ → Prop) (x : EStateM Error ρ α) : Prop :=
  Triple I x (fun _ => I) fun e s => e.isMismatch = false ∧ I s

private theorem Agrees.preserves {ρ α : Type} {I : ρ → Prop} {x : EStateM Error ρ α}
    (hx : Agrees I x) :
    Preserves I x :=
  hx.conseq (fun _ h => h) (fun _ _ h => h) fun _ _ h => h.2

private theorem Agrees.error {ρ α : Type} {I : ρ → Prop} {x : EStateM Error ρ α} {s s' : ρ}
    {e : Error} (hx : Agrees I x) (hs : I s) (he : x s = .error e s') : e.isMismatch = false := by
  have := hx s hs
  rw [he] at this
  exact this.1

namespace Bucket

variable {kind : KeyKind} {name : String} {b b' : Bucket} {h h' : Heap} {r c : RecordId}
  {importing : Bool} {answer : Option RecordId} {key : RowKey}

private theorem Tracks.built (t : Tracks kind b h r importing answer b' h')
    (hb : b.Sound kind name h)
    (hr : h.Belongs kind name r) (hs : h.SharesTypes) (hh : h.Built) : h'.Built := by
  have hmerge : ∀ {q}, h.Belongs kind name q → ((h.get q).merge (h.get r)).Built := by
    intro q hq
    refine .set (.merge (h.get r)) (hh q) ?_ ?_
    · rintro _ ⟨⟩
      exact hh r
    · rintro _ ⟨⟩
      exact hs.type_eq hq hr
  have habsorb : ∀ {q} {x : Record}, h.Belongs kind name q → x.Built →
      x.type = (h.get q).type → (x.absorb (h.get r)).Built := by
    intro q x hq hx ht
    refine .set (.absorb (h.get r)) hx ?_ ?_
    · rintro _ ⟨⟩
      exact hh r
    · rintro _ ⟨⟩
      exact (hs.type_eq hq hr).trans ht.symm
  cases t with
  | waits | lists | misfiles | files => exact hh
  | fails | finds | enters | replacesDeleted | restores => exact hh
  | joins hk hq =>
    refine hh.modify (habsorb ?_ (hh _) rfl)
    rcases rival?_mem hq with hq | hq
    · exact (hb.newByKey _ hq).1
    · exact (hb.live _ hq).1
  | @revives key q hk hrival hq =>
    have hmem := (hb.deleted q (FinMap.mem_values_of_get? hq)).1
    exact hh.modify (habsorb hmem ((hh q).mark .undelete rfl) rfl)
  | @merges key q hst _ hq =>
    have hmerged := hmerge (hb.live q (FinMap.mem_values_of_get? hq)).1
    refine hh.modify ?_
    split
    · exact hmerged.mark .markDeleted rfl
    · exact hmerged
  | @mergesDeleted key q hst _ _ hq =>
    have hmerged := hmerge (hb.deleted q (FinMap.mem_values_of_get? hq)).1
    refine hh.modify (Record.Built.mark ?_ .markDeleted rfl)
    split
    · exact hh q
    · exact hmerged

/-- What a record with a row is told to stand for is found by its key, or is to be deleted. -/
theorem Tracks.found (t : Tracks kind b h r false (some c) b' h') (hn : (h.get r).isNew = false)
    (hkey : h.primaryKey? r = some key) :
    b'.find? key = some c ∨ b'.deleted.get? key = some c := by
  have hnew : (h.get r).isNew → False := fun hc => Bool.noConfusion (hn.symm.trans hc)
  have hstored : ∀ {key'}, Stored h kind r key' → key' = key :=
    fun hst => Option.some.inj (hst.primaryKey?.symm.trans hkey)
  cases t with
  | waits hc | lists hc => exact (hnew hc).elim
  | joins hk | revives hk | files hk => exact (hnew hk.isNew).elim
  | finds hst _ hl | merges hst _ hl =>
    obtain rfl := hstored hst
    exact .inl (find?_eq_some.mpr (.inl hl))
  | mergesDeleted hst _ _ hd =>
    obtain rfl := hstored hst
    exact .inr hd
  | enters hst =>
    obtain rfl := hstored hst
    exact .inl (find?_eq_some.mpr (.inl ((FinMap.get?_insert ..).trans (if_pos rfl))))
  | replacesDeleted _ himporting | restores _ himporting => cases himporting

end Bucket

namespace Registry

variable {α : Type} {kind : KeyKind} {h₀ : Heap} {r : RecordId}

/-- A sound registry with records that are built, and that have only been folded since they were
`h₀`. -/
def BuiltSince (h₀ : Heap) (s : Registry kind × Heap) : Prop := SoundSince h₀ s ∧ s.2.Built

/-- An operation in the bucket of a record does not fail by a mismatch, if it keeps the records
built and fails only where the key of that record cannot be filed. -/
theorem onBucket_agrees {x : Tracking Bucket α} (hr : r ∈ h₀.ids)
    (hk : (h₀.get r).type.kind = kind) (hs : h₀.SharesTypes)
    (hsound : Preserves (SoundSince h₀) (onBucket r x : Tracking (Registry kind) α))
    (hbuilt : ∀ b h name, b.Sound kind name h → h.Belongs kind name r → h.SharesTypes → h.Built →
      (endState (x (b, h))).2.Built)
    (herror : ∀ b h e s, x (b, h) = .error e s → h.fileKey kind r = .error e) :
    Agrees (BuiltSince h₀) (onBucket r x : Tracking (Registry kind) α) := by
  rintro ⟨g, h⟩ ⟨⟨hg, hf⟩, hh⟩
  have hmem : h.Belongs kind (h.get r).type.name r :=
    ⟨(hf.ids r).mpr hr, rfl, by rw [hf.type r, hk]⟩
  have hnext := hbuilt _ h _ (hg.bucket (h.get r).type) hmem (hs.folds hf) hh
  have hafter := hsound (g, h) ⟨hg, hf⟩
  simp only [onBucket, Tracking.within] at hafter ⊢
  cases hres : x (g.bucket (h.get r).type, h) with
  | ok a s =>
    rw [hres] at hafter hnext
    exact ⟨hafter, hnext⟩
  | error e s =>
    rw [hres] at hafter hnext
    have hfile := herror _ h e s hres
    exact ⟨Heap.fileKey_isMismatch (hh r).fits.hasKinds hmem.kind hfile, hafter, hnext⟩

private theorem track_agrees {importing : Bool} (hr : r ∈ h₀.ids) (hk : (h₀.get r).type.kind = kind)
    (hs : h₀.SharesTypes) :
    Agrees (BuiltSince h₀) (track r importing : Tracking (Registry kind) RecordId) :=
  onBucket_agrees hr hk hs (track_sound hr hk)
    (fun b h _ => (Bucket.track_tracks kind b h r importing).built)
    fun _ _ _ _ => Bucket.track_error

private theorem remove_agrees (hr : r ∈ h₀.ids) (hk : (h₀.get r).type.kind = kind)
    (hs : h₀.SharesTypes) :
    Agrees (BuiltSince h₀) (remove r : Tracking (Registry kind) Unit) := by
  refine onBucket_agrees hr hk hs (remove_sound hr hk) (fun b h name _ _ _ hh => ?_)
    fun _ _ _ _ => Bucket.remove_error
  rw [(Bucket.remove_removes kind b h r).1]
  exact hh

private theorem checkReady_agrees (hs : h₀.SharesTypes) :
    Agrees (BuiltSince h₀) (checkReady : Tracking (Registry kind) Unit) := by
  refine checkReady_triple (fun s hI r hr => ?_) fun _ _ _ hI => ⟨rfl, hI⟩
  obtain ⟨hmem, hkind⟩ := hI.1.pending hr
  exact track_agrees hmem hkind hs

private theorem settleAll_built {purge : Bool}
    (all : List (String × Bucket × List (RowKey × RecordId))) (s : Registry kind × Heap)
    (hs : s.2.Built) : (all.foldl (fun (g, h) (name, b, written) =>
      let (b, h) := b.settle h purge written
      (g.setBucket name b, h)) s).2.Built := by
  induction all generalizing s with
  | nil => exact hs
  | cons x all ih =>
    have hwritten := hs.modifyAll (fun _ hx => hx.mark .markCommitted rfl) (x.2.2.map Prod.snd)
    exact ih _ (hwritten.modifyAll (fun _ hx => hx.mark .resetChanges rfl) _)

private theorem settle_built (purge : Bool) :
    Preserves (fun s : Registry kind × Heap => s.2.Built) (settle purge) := by
  rintro ⟨g, h⟩ hh
  rw [settle]
  generalize (g.buckets.entries.mapM _ : Except Error _) = result
  cases result with
  | error e => exact hh
  | ok all => exact settleAll_built all (g, h) hh

private theorem settle_agrees {g : Registry kind} {h : Heap} (hg : g.Sound h) (hh : h.Built)
    (purge : Bool) :
    Triple (· = (g, h)) (settle purge) (fun _ s => SettledSince h s ∧ s.2.Built)
      fun e s => e.isMismatch = false ∧ SettledSince h s ∧ s.2.Built := by
  rintro _ rfl
  have hsettled := settle_sound hg purge _ rfl
  have hbuilt := settle_built purge (g, h) hh
  cases hres : settle purge (g, h) with
  | ok u s =>
    rw [hres] at hsettled hbuilt
    exact ⟨hsettled.1, hbuilt⟩
  | error e s =>
    rw [hres] at hsettled hbuilt
    obtain ⟨name, b, hb, r, hr, hfile⟩ := settle_error hres
    have hkind := ((hg name b hb).new r hr).kind
    exact ⟨Heap.fileKey_isMismatch (hh r).fits.hasKinds hkind hfile, hsettled, hbuilt⟩

end Registry

namespace Workspace

variable {σ α : Type} {kind : KeyKind} {h₀ : Heap} {s s' : Workspace × Heap} {r c : RecordId}
  {key : RowKey}

/-- A sound workspace with records that are built, and that have only been folded since they were
`h₀`. -/
def BuiltSince (h₀ : Heap) (s : Workspace × Heap) : Prop := SoundSince h₀ s ∧ s.2.Built

private theorem onRegistry_agrees {x : Tracking (Registry kind) α}
    (hx : ∀ h, h₀.Folds h → Agrees (Registry.BuiltSince h) x) :
    Agrees (BuiltSince h₀) (onRegistry kind x) := by
  refine Triple.of_starting fun s hs => ?_
  obtain ⟨w, h⟩ := s
  obtain ⟨⟨hw, hf⟩, hh⟩ := hs
  have hafter : ∀ s : Registry kind × Heap, Registry.BuiltSince h s →
      BuiltSince h₀ (w.setRegistry kind s.1, s.2) := by
    rintro s ⟨⟨hg, hf'⟩, hb⟩
    exact ⟨⟨(hw.evolves hf'.evolves).setRegistry hg, hf.trans hf'⟩, hb⟩
  have hstart : Registry.BuiltSince h (w.registry kind, h) := ⟨⟨hw kind, .refl h⟩, hh⟩
  apply onRegistry_triple
  apply (Triple.starting (hx h hf) hstart).conseq (fun _ h => h) (fun _ => hafter)
  exact fun _ s he => he.imp_right (hafter s)

private theorem enroll_agrees {importing : Bool} (hr : r ∈ h₀.ids) (hshares : h₀.SharesTypes) :
    Agrees (BuiltSince h₀) (enroll r importing) := by
  rw [enroll]
  refine Triple.get_bind fun s hs => Triple.starting (onRegistry_agrees fun h' hf => ?_) hs
  have hkind : (h'.get r).type.kind = (s.2.get r).type.kind := by rw [hf.type r, hs.1.2.type r]
  exact Registry.track_agrees ((hf.ids r).mpr hr) hkind (hshares.folds hf)

private theorem track_agrees (hr : r ∈ h₀.ids) (hshares : h₀.SharesTypes) :
    Agrees (BuiltSince h₀) (track r) := by
  rw [track]
  apply Triple.get_bind
  intro s hs
  dsimp only
  split
  · exact Triple.starting (Triple.pure fun _ h => h) hs
  · exact Triple.starting (enroll_agrees hr hshares) hs

private theorem delete_agrees (hr : r ∈ h₀.ids) (hshares : h₀.SharesTypes) :
    Agrees (BuiltSince h₀) (delete r) := by
  rw [delete]
  apply Triple.get_bind
  intro s hs
  obtain ⟨w, h⟩ := s
  obtain ⟨⟨hw, hf⟩, hh⟩ := hs
  dsimp only
  split
  · exact Triple.starting (Triple.pure fun _ h => h) ⟨⟨hw, hf⟩, hh⟩
  · have hmarked : h.Folds (h.modify r .markDeleted) :=
      .modify ((hf.ids r).mpr hr) rfl ((Record.takes_refl _ _).withDeleted true)
    have hnext : BuiltSince h₀ (w, h.modify r .markDeleted) :=
      ⟨⟨hw.evolves hmarked.evolves, hf.trans hmarked⟩, hh.modify ((hh r).mark .markDeleted rfl)⟩
    apply Triple.set_bind
    split
    · exact Triple.starting (Triple.pure fun _ h => h) hnext
    · refine Triple.starting (onRegistry_agrees fun h' hf' => ?_) hnext
      have hkind : (h'.get r).type.kind = (h.get r).type.kind := by rw [hf'.type r, hf.type r]
      exact Registry.remove_agrees ((hf'.ids r).mpr hr) hkind (hshares.folds hf')

private theorem importGraph_agrees {root : RecordId} (hr : root ∈ h₀.ids)
    (hshares : h₀.SharesTypes) :
    Agrees (BuiltSince h₀) (importGraph root) := by
  rw [importGraph]
  apply Triple.get_bind
  intro s hs
  obtain ⟨w, h⟩ := s
  obtain ⟨⟨hw, hf⟩, hh⟩ := hs
  dsimp only
  split
  · exact Triple.starting (Triple.pure fun _ h => h) ⟨⟨hw, hf⟩, hh⟩
  · have hset : h.Folds (h.modify root (·.setTransient false)) :=
      .modify ((hf.ids root).mpr hr) rfl (Record.takes_setTransient _ _ false)
    have hnext : BuiltSince h₀ (w, h.modify root (·.setTransient false)) :=
      ⟨⟨hw.evolves hset.evolves, hf.trans hset⟩,
        hh.modify ((hh root).mark (.setTransient false) rfl)⟩
    apply Triple.set_bind
    refine Triple.starting (importAll_triple fun q hq => enroll_agrees ?_ hshares) hnext
    rcases hq with hq | hq
    · exact (hf.ids q).mp ((hset.ids q).mp (List.mem_of_mem_erase hq))
    · obtain rfl := List.mem_singleton.mp hq
      exact hr

private theorem checkReady_agrees (hshares : h₀.SharesTypes) : Agrees (BuiltSince h₀) checkReady :=
  Triple.forM (I := fun _ => BuiltSince h₀) _ fun _ _ =>
    onRegistry_agrees fun _ hf => Registry.checkReady_agrees (hshares.folds hf)

private theorem settle_agrees :
    Agrees (fun s : Workspace × Heap => s.1.Sound s.2 ∧ s.2.Built) settle := by
  refine Triple.get_bind fun s hs => Triple.starting (Triple.forM
    (I := fun _ (s : Workspace × Heap) => s.1.Sound s.2 ∧ s.2.Built) _ fun kind rest => ?_) hs
  refine Triple.of_starting fun s' hs' => ?_
  obtain ⟨w, h⟩ := s'
  obtain ⟨hw, hh⟩ := hs'
  have hafter : ∀ s : Registry kind × Heap, Registry.SettledSince h s ∧ s.2.Built →
      (w.setRegistry kind s.1).Sound s.2 ∧ s.2.Built := by
    rintro s ⟨⟨hg, ha⟩, hb⟩
    exact ⟨(hw.evolves ha.evolves).setRegistry hg, hb⟩
  apply onRegistry_triple
  apply (Registry.settle_agrees (hw kind) hh _).conseq (fun _ h => h) (fun _ => hafter)
  exact fun _ s he => he.imp_right (hafter s)

/-- A record with a row that has been tracked is found by the key that it had, unless the row is to
be deleted. -/
theorem find?_of_track (hr : (s.2.get r).Fits) (hbypass : s.1.config.bypass = false)
    (hn : (s.2.get r).isNew = false) (hkey : s.2.primaryKey? r = some key)
    (htrack : track r s = .ok c s') : s'.1.find? (s.2.get r).type.name key = some c ∨
      ∃ b ∈ s'.1.typeBucket? (s.2.get r).type, b.deleted.get? key = some c := by
  have hanswer := returned?_track hbypass r
  rw [htrack] at hanswer
  have htracks := Bucket.track_tracks (s.2.get r).type.kind
    ((s.1.registry (s.2.get r).type.kind).bucket (s.2.get r).type) s.2 r false
  rw [← hanswer] at htracks
  have hend : endState (track r s) =
      endState (onRegistry (s.2.get r).type.kind (Registry.track r false) s) := by
    change endState ((if s.1.config.bypass then pure r else enroll r false :
      Tracking Workspace RecordId) s) = _
    rw [hbypass]
    rfl
  rw [htrack] at hend
  obtain rfl : s' = _ := hend
  have hconfig : (endState (onRegistry (s.2.get r).type.kind (Registry.track r false) s)).1.config =
      s.1.config := config_onRegistry ..
  have hbucket : (endState (onRegistry (s.2.get r).type.kind
      (Registry.track r false) s)).1.typeBucket? (s.2.get r).type =
        some (endState (Bucket.track (s.2.get r).type.kind r false
          ((s.1.registry (s.2.get r).type.kind).bucket (s.2.get r).type, s.2))).1 := by
    rw [typeBucket?, Registry.track, get?_onBucket, if_pos ⟨rfl, rfl⟩]
  rcases htracks.found hn hkey with hfound | hdeleted
  · left
    rw [find?_eq, hconfig, hbypass, if_neg Bool.false_ne_true,
      bucket?_of_kind? (Heap.kind?_primaryKey? hr.hasKinds hkey)]
    exact Option.bind_eq_some_iff.mpr ⟨_, hbucket, hfound⟩
  · exact .inr ⟨_, hbucket, hdeleted⟩

end Workspace

namespace Operation

open Workspace

variable {σ ρ : Type} {s : Workspace × Heap} {op : Operation σ ρ} {ops : List (Operation σ ρ)}

/-- The application and the writers of a commit change records in no other way than records can be
built. -/
def Builds : Operation σ ρ → Prop
  | edit h => h.Built
  | commit tx _ => tx.Builds
  | track _ | delete _ | importGraph _ => True

private theorem flushMoves_built {tx : Transaction σ ρ} (htx : tx.Orderly) (hbuilds : tx.Builds)
    (world : σ) (hs : s.1.Sound s.2) (hh : s.2.Built) :
    (Move.runAll s (flushMoves tx world s)).2.Built := by
  have hwrite := hbuilds.writeAll s.1 { session := { heap := s.2, world } } hh
  have hevolves := htx.writeAll s.1 s.2 { session := { heap := s.2, world } } (.refl _)
  rw [flushMoves]
  cases hres : tx.writeAll s.1 { session := { heap := s.2, world } } with
  | error _ run =>
    rw [hres] at hwrite
    exact hwrite
  | ok _ run =>
    rw [hres] at hwrite hevolves
    dsimp only
    rw [Move.runAll_cons, Move.run, ← endState_settle]
    have hsettle := preserves_iff.mp settle_agrees.preserves (s.1, run.session.heap)
    exact (hsettle ⟨hs.evolves hevolves, hwrite⟩).2

private theorem run_built (hop : op.IsLegal s) (hbuilds : op.Builds) (hs : s.1.Sound s.2)
    (hshares : s.2.SharesTypes) (hh : s.2.Built) : (op.run s).2.Built := by
  have hstart : BuiltSince s.2 s := ⟨⟨hs, .refl _⟩, hh⟩
  cases op with
  | edit h => exact hbuilds
  | track r => exact (preserves_iff.mp (track_agrees hop hshares).preserves s hstart).2
  | delete r => exact (preserves_iff.mp (delete_agrees hop hshares).preserves s hstart).2
  | importGraph root =>
    exact (preserves_iff.mp (importGraph_agrees hop hshares).preserves s hstart).2
  | commit tx world =>
    rw [run_commit, moves]
    split
    · exact hh
    · have hcheck := preserves_iff.mp (checkReady_agrees hshares).preserves s hstart
      rw [Move.runAll_append, ← endState_checkReady]
      cases hres : checkReady s with
      | error e s' =>
        rw [hres] at hcheck
        exact hcheck.2
      | ok u s' =>
        rw [hres] at hcheck
        exact flushMoves_built hop hbuilds world hcheck.1.1 hcheck.2

private theorem AllLegal.built (hops : AllLegal s ops) (hbuilds : ∀ op ∈ ops, op.Builds)
    (hs : s.1.Sound s.2) (hshares : (runAll s ops).2.SharesTypes) (hh : s.2.Built) :
    (runAll s ops).2.Built := by
  induction ops generalizing s with
  | nil => exact hh
  | cons op ops ih =>
    obtain ⟨hop, hrest⟩ := List.forall_mem_cons.mp hbuilds
    -- Records never change their types, so that those of the end tell of all that came before.
    have hnow := hshares.of_evolves (hops.soundFrom ⟨hs, .refl _⟩).2
    have hfirst : AllLegal s [op] := ⟨hops.1, trivial⟩
    have hsound := (hfirst.soundFrom ⟨hs, .refl _⟩).1
    exact ih hops.2 hrest hsound hshares (run_built hops.1 hop hs hnow hh)

end Operation

/-- From the state the action does not stop with a mismatch. -/
def NoMismatch {ρ α : Type} (x : EStateM Error ρ α) (s : ρ) : Prop :=
  ∀ e s', x s = .error e s' → e.isMismatch = false

instance {ρ α : Type} (x : EStateM Error ρ α) (s : ρ) : Decidable (NoMismatch x s) :=
  match h : x s with
  | .ok .. => isTrue fun _ _ he => nomatch h.symm.trans he
  | .error e s' => decidable_of_iff (e.isMismatch = false)
      ⟨fun hm _ _ he => (EStateM.Result.error.inj (h.symm.trans he)).1 ▸ hm, fun hx => hx e s' h⟩

namespace Workspace

/-- Routing and lookup agree, whatever has been done, as long as records take over from others of
their type only: no key is refused for its kind when records are tracked, deleted, imported, checked
and settled, and a record with a row that has been tracked is found by its key unless the row is to
be deleted. -/
theorem routing_agrees {σ ρ : Type} {config : Config} {ops : List (Operation σ ρ)}
    {s : Workspace × Heap} (hops : Operation.AllLegal ({ config }, ∅) ops)
    (hbuilds : ∀ op ∈ ops, op.Builds) (hs : Operation.runAll ({ config }, ∅) ops = s)
    (hshares : s.2.SharesTypes) :
    (∀ r ∈ s.2.ids, NoMismatch (track r) s ∧ NoMismatch (delete r) s ∧
      NoMismatch (importGraph r) s) ∧
    NoMismatch checkReady s ∧
    (∀ (tx : Transaction σ ρ) (world : σ) s' summary run, tx.Orderly → tx.Builds →
      checkReady s = .ok () s' →
        tx.writeAll s'.1 { session := { heap := s'.2, world } } = .ok summary run →
          NoMismatch settle (s'.1, run.session.heap)) ∧
    (s.1.config.bypass = false → ∀ r c key s', (s.2.get r).isNew = false →
      s.2.primaryKey? r = some key → track r s = .ok c s' →
        s'.1.find? (s.2.get r).type.name key = some c ∨
          ∃ b ∈ s'.1.typeBucket? (s.2.get r).type, b.deleted.get? key = some c) := by
  have hsound : s.1.Sound s.2 := hs ▸ hops.sound
  have hbuilt : s.2.Built := by
    subst hs
    exact hops.built hbuilds (sound_empty config ∅) hshares Heap.built_empty
  have hstart : BuiltSince s.2 s := ⟨⟨hsound, .refl _⟩, hbuilt⟩
  refine ⟨fun r hr => ⟨fun _ _ => ?_, fun _ _ => ?_, fun _ _ => ?_⟩, fun _ _ => ?_, ?_, ?_⟩
  · exact (track_agrees hr hshares).error hstart
  · exact (delete_agrees hr hshares).error hstart
  · exact (importGraph_agrees hr hshares).error hstart
  · exact (checkReady_agrees hshares).error hstart
  · intro tx world s' summary run htx hwriters hcheck hwritten e s''
    have hready : BuiltSince s.2 s' := (checkReady_agrees hshares).ok hstart hcheck
    have hevolves := (htx.writeAll s'.1 s'.2).ok (.refl _) hwritten
    have hwrite := (hwriters.writeAll s'.1).ok hready.2 hwritten
    exact settle_agrees.error ⟨hready.1.1.evolves hevolves, hwrite⟩
  · intro hbypass r c key s' hn hkey htrack
    exact find?_of_track (hbuilt r).fits hbypass hn hkey htrack

end Workspace

/-! A footnote that has its key from a page, as a number of another kind, and from itself. It is
read twice. -/

def footnoteType : RecordType where
  name := "footnote"
  table := "footnote"
  store := "main"
  key := [.bigInt "page_number" (.reference "page"), .bigInt "number" .supplied]
  columns := []
  references := [{ name := "page", column := "page_number", target := "page" }]
  key_ne_nil := by simp
  sources_declared := by simp [KeyColumn.undeclared?, KeyColumn.bigInt]

def readPage : Record := (Record.persisted Workspace.pageType).setSlot 0 (.int32 1)

def footnote : Record :=
  { (Record.persisted footnoteType).setSlot 1 (.int64 7) with
    references := (∅ : NameMap RecordId).insert "page" ⟨0⟩ }

def footnoteKey : RowKey := ⟨[.int64 1, .int64 7]⟩

def readFootnotes : Heap :=
  (((∅ : Heap).set ⟨0⟩ readPage).set ⟨1⟩ footnote).set ⟨2⟩ footnote

private theorem readPage_built : readPage.Built := by
  have hkey : (Record.persisted Workspace.pageType).assignKey "number" (.int32 1) =
      .ok readPage := rfl
  exact .assignKey (.persisted _) hkey

private theorem footnote_built : footnote.Built := by
  have hkey : (Record.persisted footnoteType).assignKey "number" (.int64 7) =
      .ok ((Record.persisted footnoteType).setSlot 1 (.int64 7)) := rfl
  have hreference : ((Record.persisted footnoteType).setSlot 1 (.int64 7)).assignReference "page"
      ⟨0⟩ = .ok footnote := rfl
  exact .assignReference (.assignKey (.persisted _) hkey) hreference

def trackFootnote : List (Operation Unit) :=
  [.edit readFootnotes, .track ⟨1⟩, .commit (.sql Workspace.silent false) ()]

open Workspace in
/-- The second copy is merged into the first one, which is found by the key. -/
theorem routing_agrees_footnote :
    NoMismatch (delete ⟨2⟩) (Operation.runAll ({}, ∅) trackFootnote) ∧
      ∃ s', track ⟨2⟩ (Operation.runAll ({}, ∅) trackFootnote) = .ok ⟨1⟩ s' ∧
        s'.1.find? "footnote" footnoteKey = some ⟨1⟩ := by
  have hlegal : Operation.AllLegal ({}, ∅) trackFootnote :=
    ⟨.of_fresh (by decide +kernel), (by decide +kernel : ⟨1⟩ ∈ readFootnotes.ids), silent_orderly,
      trivial⟩
  have hbuilt : readFootnotes.Built :=
    ((Heap.built_empty.set readPage_built).set footnote_built).set footnote_built
  have hbuilds : ∀ op ∈ trackFootnote, op.Builds := by
    simp only [trackFootnote, List.forall_mem_cons]
    exact ⟨hbuilt, trivial, Transaction.WritesBy.builds (Transaction.sql_writesBy fun _ => rfl),
      fun _ hop => absurd hop List.not_mem_nil⟩
  obtain ⟨hcalls, -, -, hfound⟩ := routing_agrees hlegal hbuilds rfl (by decide +kernel)
  refine ⟨(hcalls ⟨2⟩ (by decide +kernel)).2.1, ?_⟩
  have hanswer : returned? (track ⟨2⟩ (Operation.runAll ({}, ∅) trackFootnote)) = some ⟨1⟩ := by
    decide +kernel
  have hkept : ∀ b ∈ (endState (track ⟨2⟩ (Operation.runAll ({}, ∅)
      trackFootnote))).1.typeBucket? footnoteType, b.deleted.get? footnoteKey = none := by
    decide +kernel
  cases htrack : track ⟨2⟩ (Operation.runAll ({}, ∅) trackFootnote) with
  | error e s' =>
    rw [htrack] at hanswer
    cases hanswer
  | ok c s' =>
    rw [htrack] at hanswer hkept
    obtain rfl := Option.some.inj hanswer
    refine ⟨s', rfl, ?_⟩
    have htype : ((Operation.runAll ({}, ∅) trackFootnote).2.get ⟨2⟩).type = footnoteType := by
      decide +kernel
    have hcopy := hfound (by decide +kernel) ⟨2⟩ ⟨1⟩ footnoteKey s' (by decide +kernel)
      (by decide +kernel) htrack
    rw [htype] at hcopy
    rcases hcopy with hfind | ⟨b, hb, hdeleted⟩
    · exact hfind
    · have hnone := hkept b hb
      rw [hdeleted] at hnone
      cases hnone

/-! An item that has taken its key from a page, as if it were the same row. -/

def mixedUp : Heap :=
  ((∅ : Heap).set ⟨0⟩ readPage).set ⟨1⟩ ((Record.persisted (itemType "a")).merge readPage)

open Workspace in
/-- A record that has taken over from one of another type may be refused, and where nothing is
tracked nothing is found. -/
theorem not_routing_agrees :
    (¬ ∀ (config : Config) (ops : List (Operation Unit)), Operation.AllLegal ({ config }, ∅) ops →
      (Operation.runAll ({ config }, ∅) ops).2.SharesTypes →
        ∀ r ∈ (Operation.runAll ({ config }, ∅) ops).2.ids,
          NoMismatch (track r) (Operation.runAll ({ config }, ∅) ops)) ∧
    ¬ ∀ (config : Config) (ops : List (Operation Unit)) (s : Workspace × Heap),
      Operation.AllLegal ({ config }, ∅) ops → Operation.runAll ({ config }, ∅) ops = s →
        s.2.SharesTypes → ∀ r c key s', (s.2.get r).isNew = false → s.2.primaryKey? r = some key →
          track r s = .ok c s' → s'.1.find? (s.2.get r).type.name key = some c ∨
            ∃ b ∈ s'.1.typeBucket? (s.2.get r).type, b.deleted.get? key = some c := by
  constructor
  · intro hall
    have hmatches := hall {} [.edit mixedUp] ⟨.of_fresh (by decide +kernel), trivial⟩
      (by decide +kernel) ⟨1⟩ (by decide +kernel)
    revert hmatches
    decide +kernel
  · intro hall
    have hfound := hall { bypass := true } [.edit readFootnotes]
      ({ config := { bypass := true } }, readFootnotes) ⟨.of_fresh (by decide +kernel), trivial⟩ rfl
      (by decide +kernel) ⟨0⟩ ⟨0⟩ ⟨[.int32 1]⟩ _ (by decide +kernel) (by decide +kernel) rfl
    revert hfound
    decide +kernel

end UnitOfWork
