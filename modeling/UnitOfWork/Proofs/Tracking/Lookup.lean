import UnitOfWork.Proofs.Record.Resolution
import UnitOfWork.Proofs.Tracking.Outcomes
import UnitOfWork.Proofs.Tracking.Settling

/-!
# What is found by a key

A record that is found by a key in a bucket stays the one that is found, and is the one that every
other record for the row is folded into, as long as no other one is imported or written under the
key and none is deleted. A new record has the key for itself, provided that no record with a row is
handed over beside it.
-/

namespace UnitOfWork

theorem Heap.fileKey?_of_primaryKey? {h : Heap} {kind : KeyKind} {r : RecordId} {key : RowKey}
    (hk : h.primaryKey? r = some key) (hfiled : key.isFiledUnder kind) :
    h.fileKey? kind r = .ok (some key) := by
  rw [fileKey?, hk]
  dsimp only
  rw [if_pos hfiled]

theorem Heap.fileKey_of_primaryKey? {h : Heap} {kind : KeyKind} {r : RecordId} {key : RowKey}
    (hk : h.primaryKey? r = some key) (hfiled : key.isFiledUnder kind) :
    h.fileKey kind r = .ok key := by
  rw [fileKey, fileKey?_of_primaryKey? hk hfiled]
  rfl

namespace Bucket

variable {kind : KeyKind} {name : String} {b b' : Bucket} {h h' : Heap} {r q a : RecordId}
  {importing : Bool} {answer : Option RecordId} {key key' : RowKey}

theorem Stored.primaryKey? (hst : Stored h kind r key) : h.primaryKey? r = some key :=
  (Heap.primaryKey?_of_fileKey? (Heap.fileKey?_of_fileKey hst.fileKey)).1

theorem Keyed.primaryKey? (hk : Keyed h kind r key) : h.primaryKey? r = some key :=
  (Heap.primaryKey?_of_fileKey? hk.fileKey).1

theorem find?_eq_some : b.find? key = some a ↔
    b.live.get? key = some a ∨ b.live.get? key = none ∧ b.newByKey.get? key = some a := by
  rw [find?, Option.orElse_eq_orElse, Option.orElse_eq_or]
  cases b.live.get? key <;> simp

/-- A new record that is found by the key has that key. -/
def KeepsKey (b : Bucket) (h : Heap) (key : RowKey) : Prop :=
  ∀ q ∈ b.newByKey.get? key, h.primaryKey? q = some key

/-- No record that has its row and the key is handed over as long as a new one is found by the
key. -/
def KeepsApart (b : Bucket) (h : Heap) (key : RowKey) (r : RecordId) : Prop :=
  (h.get r).isNew = false → h.primaryKey? r = some key → b.newByKey.get? key = none

/-- A new record that is found by the key is tracked as a new one, and no other record is tracked
under that key. -/
def Exclusive (b : Bucket) (key : RowKey) : Prop :=
  ∀ q, b.newByKey.get? key = some q →
    b.live.get? key = none ∧ b.deleted.get? key = none ∧ q ∈ b.new.toList

theorem exclusive_empty (t : RecordType) : ({ type := t } : Bucket).Exclusive key :=
  fun _ hq => by cases hq

theorem exclusive_of_none (hn : b.newByKey.get? key = none) : b.Exclusive key :=
  fun q hq => by rw [hn] at hq; cases hq

private theorem Sound.live_ne (hs : b.Sound kind name h) (hn : (h.get r).isNew)
    (hq : b.live.get? key = some q) : q ≠ r := by
  rintro rfl
  have hrow := (hs.live q (FinMap.mem_values_of_get? hq)).2
  exact Bool.noConfusion (hrow.symm.trans hn)

theorem Exclusive.imp (he : b.Exclusive key)
    (hkept : ∀ q, b'.newByKey.get? key = some q → b.newByKey.get? key = some q ∧
      (b.live.get? key = none → b'.live.get? key = none) ∧
      (b.deleted.get? key = none → b'.deleted.get? key = none) ∧
      (q ∈ b.new.toList → q ∈ b'.new.toList)) : b'.Exclusive key := by
  intro q hq
  obtain ⟨hold, hlive, hdeleted, hnew⟩ := hkept q hq
  obtain ⟨hl, hd, hm⟩ := he q hold
  exact ⟨hlive hl, hdeleted hd, hnew hm⟩

theorem Tracks.exclusive (t : Tracks kind b h r importing answer b' h') (hs : b.Sound kind name h)
    (hk : b.KeepsKey h key) (hrow : b.KeepsApart h key r) (he : b.Exclusive key) :
    b'.Exclusive key := by
  have hown : ∀ {key' q}, Keyed h kind r key' → b.newByKey.get? key = some q → key' ≠ key →
      q ≠ r := by
    rintro key' q hkey hq hne rfl
    exact hne (Option.some.inj (hkey.primaryKey?.symm.trans (hk q hq)))
  have hfolded : ∀ {q}, q ≠ r → q ∈ b.new.toList → q ∈ (b.folding r).new.toList := by
    intro q hne hq
    exact (hs.newCoherent.insert r).mem_erase.mpr ⟨hne, hs.newCoherent.mem_insert.mpr (.inr hq)⟩
  have hlisted : ∀ {q}, q ∈ b.new.toList → q ∈ (b.listing r).new.toList :=
    fun hq => hs.newCoherent.mem_insert.mpr (.inr hq)
  have hstored : ∀ {key' q}, Stored h kind r key' → b.newByKey.get? key = some q → key' ≠ key := by
    rintro key' q hst hq rfl
    rw [hrow hst.notNew hst.primaryKey?] at hq
    cases hq
  cases t with
  | waits => exact he
  | lists => exact he.imp fun q hq => ⟨hq, id, id, hlisted⟩
  | misfiles => exact he.imp fun q hq => ⟨hq, id, id, hlisted⟩
  | @joins key' rival hkey hrival =>
    intro q hq
    obtain ⟨hl, hd, hm⟩ := he q hq
    refine ⟨hl, hd, hfolded ?_ hm⟩
    rintro rfl
    have hsame : key' = key := by
      by_contra hne
      exact hown hkey hq hne rfl
    subst hsame
    obtain ⟨hne, hnew | ⟨hlive, -⟩⟩ := rival?_eq_some hrival
    · exact hne (Option.some.inj (hnew.symm.trans hq))
    · rw [hl] at hlive
      cases hlive
  | @revives key' revived hkey hrival hdeleted =>
    intro q hq
    obtain ⟨hl, hd, hm⟩ := he q hq
    have hne : key' ≠ key := by
      rintro rfl
      rw [hd] at hdeleted
      cases hdeleted
    refine ⟨?_, ?_, hfolded (hown hkey hq hne) hm⟩
    · exact (FinMap.get?_insert_of_ne hne).trans hl
    · exact (FinMap.get?_erase_of_ne hne).trans hd
  | @files key' hkey hrival hdeleted =>
    intro q hq
    change (b.newByKey.insert key' r).get? key = some q at hq
    rw [FinMap.get?_insert] at hq
    split at hq
    · next hsame =>
      subst hsame
      obtain rfl := Option.some.inj hq
      refine ⟨?_, hdeleted, hs.newCoherent.mem_insert.mpr (.inl rfl)⟩
      cases hlive : b.live.get? key' with
      | none => exact hlive
      | some x => exact absurd ((rival?_eq_none hrival).2 x hlive) (hs.live_ne hkey.isNew hlive)
    · obtain ⟨hl, hd, hm⟩ := he q hq
      exact ⟨hl, hd, hlisted hm⟩
  | fails => exact he
  | finds => exact he
  | merges => exact he
  | mergesDeleted => exact he
  | enters hst =>
    exact he.imp fun q hq => ⟨hq, (FinMap.get?_insert_of_ne (hstored hst hq)).trans, id, id⟩
  | replacesDeleted hst =>
    exact he.imp fun q hq => ⟨hq, id, (FinMap.get?_insert_of_ne (hstored hst hq)).trans, id⟩
  | restores hst =>
    exact he.imp fun q hq => ⟨hq, (FinMap.get?_insert_of_ne (hstored hst hq)).trans,
      (FinMap.get?_erase_of_ne (hstored hst hq)).trans, id⟩

theorem Removes.exclusive (t : Removes kind b h r b') (hs : b.Sound kind name h)
    (hfiled : key.isFiledUnder kind) (hk : b.KeepsKey h key) (hrow : b.KeepsApart h key r)
    (he : b.Exclusive key) : b'.Exclusive key := by
  cases t with
  | forgets hn hnot =>
    intro q hq
    obtain ⟨hl, hd, hm⟩ := he q hq
    refine ⟨hl, hd, hs.newCoherent.mem_erase.mpr ⟨?_, hm⟩⟩
    rintro rfl
    exact hnot key (Heap.fileKey?_of_primaryKey? (hk q hq) hfiled) hq
  | @unfiles key' hn hkey hget =>
    intro q hq
    change (b.newByKey.erase key').get? key = some q at hq
    rw [FinMap.get?_erase] at hq
    split at hq
    · cases hq
    · next hne =>
      obtain ⟨hl, hd, hm⟩ := he q hq
      refine ⟨hl, hd, hs.newCoherent.mem_erase.mpr ⟨?_, hm⟩⟩
      rintro rfl
      have hp := (Heap.primaryKey?_of_fileKey? hkey).1
      exact hne (Option.some.inj (hp.symm.trans (hk q hq)))
  | fails => exact he
  | @deletes key' hst =>
    refine he.imp fun q hq => ?_
    have hne : key' ≠ key := by
      rintro rfl
      rw [hrow hst.notNew hst.primaryKey?] at hq
      cases hq
    exact ⟨hq, (FinMap.get?_erase_of_ne hne).trans, (FinMap.get?_insert_of_ne hne).trans, id⟩

theorem Tracks.find?_eq (t : Tracks kind b h r importing answer b' h') (hs : b.Sound kind name h)
    (hrow : b.KeepsApart h key r) (he : b.Exclusive key)
    (himport : importing → (h.get r).isNew = false → h.primaryKey? r = some key → r = a)
    (hfind : b.find? key = some a) : b'.find? key = some a := by
  -- A record that enters under the key is the one that was found, which nothing else replaces.
  have henters : ∀ {key'}, Stored h kind r key' →
      (importing = false → b.live.get? key' = none) →
        (b.live.insert key' r).get? key = some a ∨
          (b.live.insert key' r).get? key = none ∧ b.newByKey.get? key = some a := by
    intro key' hst hlive
    rw [FinMap.get?_insert]
    split
    · next hsame =>
      subst hsame
      cases himporting : importing with
      | true => exact .inl (by rw [himport himporting hst.notNew hst.primaryKey?])
      | false =>
        have hnone := hrow hst.notNew hst.primaryKey?
        rcases find?_eq_some.mp hfind with hl | ⟨-, hn⟩
        · rw [hlive himporting] at hl
          cases hl
        · rw [hnone] at hn
          cases hn
    · exact find?_eq_some.mp hfind
  cases t with
  | waits => exact hfind
  | lists => exact hfind
  | misfiles => exact hfind
  | joins => exact hfind
  | @revives key' revived hkey hrival hdeleted =>
    rcases find?_eq_some.mp hfind with hlive | ⟨hlive, hnew⟩
    · have hne : key' ≠ key := by
        rintro rfl
        exact hs.live_ne hkey.isNew hlive ((rival?_eq_none hrival).2 a hlive)
      exact find?_eq_some.mpr (.inl ((FinMap.get?_insert_of_ne hne).trans hlive))
    · have hne : key' ≠ key := by
        rintro rfl
        rw [(he a hnew).2.1] at hdeleted
        cases hdeleted
      exact find?_eq_some.mpr (.inr ⟨(FinMap.get?_insert_of_ne hne).trans hlive, hnew⟩)
  | @files key' hkey hrival hdeleted =>
    rcases find?_eq_some.mp hfind with hlive | ⟨hlive, hnew⟩
    · exact find?_eq_some.mpr (.inl hlive)
    · refine find?_eq_some.mpr (.inr ⟨hlive, (FinMap.get?_insert _ _ _ _).trans ?_⟩)
      split
      · next hsame =>
        subst hsame
        rw [(rival?_eq_none hrival).1 a hnew]
      · exact hnew
  | fails => exact hfind
  | finds => exact hfind
  | merges => exact hfind
  | mergesDeleted => exact hfind
  | enters hst hlive => exact find?_eq_some.mpr (henters hst hlive)
  | replacesDeleted => exact hfind
  | restores hst himporting =>
    exact find?_eq_some.mpr (henters hst fun hnot => by rw [hnot] at himporting; cases himporting)

theorem Removes.find?_eq (t : Removes kind b h r b') (hr : h.primaryKey? r ≠ some key)
    (hfind : b.find? key = some a) : b'.find? key = some a := by
  cases t with
  | forgets => exact hfind
  | @unfiles key' hn hkey hget =>
    have hne : key' ≠ key := by
      rintro rfl
      exact hr (Heap.primaryKey?_of_fileKey? hkey).1
    refine find?_eq_some.mpr ((find?_eq_some.mp hfind).imp id (.imp_right fun hnew => ?_))
    exact (FinMap.get?_erase_of_ne hne).trans hnew
  | fails => exact hfind
  | @deletes key' hst =>
    have hne : key' ≠ key := by
      rintro rfl
      exact hr hst.primaryKey?
    refine find?_eq_some.mpr ((find?_eq_some.mp hfind).imp ?_ (.imp_left ?_)) <;>
    · intro hl
      exact (FinMap.get?_erase_of_ne hne).trans hl

/-- A new record whose key is known when it is handed over is folded into a rival, or it revives a
record under the key that was deleted, or it is found by the key from then on. -/
theorem Tracks.of_known (t : Tracks kind b h r importing answer b' h')
    (hfiled : key.isFiledUnder kind) (hn : (h.get r).isNew)
    (hg : (h.get r).type.generatedCount = 0) (hkey : h.primaryKey? r = some key) :
    (∃ q, b.rival? key r = some q ∧ answer = some q ∧ b' = b.folding r) ∨
    (∃ q, b.deleted.get? key = some q ∧ answer = some q ∧ b'.new = (b.folding r).new) ∨
    b.rival? key r = none ∧ b.deleted.get? key = none ∧ answer = some r ∧
      b' = { b.listing r with newByKey := b.newByKey.insert key r } := by
  have hfile := Heap.fileKey?_of_primaryKey? hkey hfiled
  have hready : (h.get r).isCommitReady := Heap.isCommitReady_of_primaryKey? (by rw [hkey]; rfl)
  have hkeyed : ∀ {key'}, Keyed h kind r key' → key' = key :=
    fun hk => Option.some.inj (hk.primaryKey?.symm.trans hkey)
  have hstored : ∀ {key'}, ¬ Stored h kind r key' :=
    fun hst => Bool.noConfusion (hst.notNew.symm.trans hn)
  cases t with
  | waits _ hnot => exact Bool.noConfusion (hnot.symm.trans hready)
  | lists _ _ hwhy =>
    rcases hwhy with hne | hnone
    · exact absurd hg hne
    · cases hfile.symm.trans hnone
  | misfiles _ _ hnot => exact absurd hfile (hnot _)
  | @joins key' q hk hrival =>
    obtain rfl := hkeyed hk
    exact .inl ⟨q, hrival, rfl, rfl⟩
  | @revives key' q hk hrival hdeleted =>
    obtain rfl := hkeyed hk
    exact .inr (.inl ⟨q, hdeleted, rfl, rfl⟩)
  | @files key' hk hrival hdeleted =>
    obtain rfl := hkeyed hk
    exact .inr (.inr ⟨hrival, hdeleted, rfl, rfl⟩)
  | fails hnot => exact Bool.noConfusion (hnot.symm.trans hn)
  | finds hst => exact absurd hst hstored
  | merges hst => exact absurd hst hstored
  | mergesDeleted hst => exact absurd hst hstored
  | enters hst => exact absurd hst hstored
  | replacesDeleted hst => exact absurd hst hstored
  | restores hst => exact absurd hst hstored

theorem Tracks.answer_eq (t : Tracks kind b h r false answer b' h') (hs : b.Sound kind name h)
    (hfiled : key.isFiledUnder kind) (hkey : h.primaryKey? r = some key)
    (hgenerated : (h.get r).isNew → (h.get r).type.generatedCount = 0)
    (hrow : b.KeepsApart h key r) (he : b.Exclusive key) (hfind : b.find? key = some a) :
    answer = some a := by
  have hready : (h.get r).isCommitReady := Heap.isCommitReady_of_primaryKey? (by rw [hkey]; rfl)
  have hfile := Heap.fileKey?_of_primaryKey? hkey hfiled
  have hkeyed : ∀ {key'}, Keyed h kind r key' → key' = key :=
    fun hk => Option.some.inj (hk.primaryKey?.symm.trans hkey)
  have hstored : ∀ {key'}, Stored h kind r key' → key' = key :=
    fun hst => Option.some.inj (hst.primaryKey?.symm.trans hkey)
  -- A record without a rival that is found is `r` itself, and new.
  have hnoRival : (h.get r).isNew → b.rival? key r = none →
      b.newByKey.get? key = some a ∧ a = r := by
    intro hn hrival
    obtain ⟨hnew, hlive⟩ := rival?_eq_none hrival
    rcases find?_eq_some.mp hfind with hl | ⟨-, ha⟩
    · exact absurd (hlive a hl) (hs.live_ne hn hl)
    · exact ⟨ha, hnew a ha⟩
  -- A record with a row is not handed over beside a new one.
  have hlive : (h.get r).isNew = false → b.live.get? key = some a := by
    intro hn
    rcases find?_eq_some.mp hfind with hl | ⟨-, ha⟩
    · exact hl
    · rw [hrow hn hkey] at ha
      cases ha
  cases t with
  | waits hn hnot =>
    rw [hready] at hnot
    cases hnot
  | lists hn _ hwhy =>
    rcases hwhy with hg | hf
    · exact absurd (hgenerated hn) hg
    · rw [hfile] at hf
      cases hf
  | misfiles _ _ hnot => exact absurd hfile (hnot _)
  | @joins key' rival hk hrival =>
    obtain rfl := hkeyed hk
    obtain ⟨hne, hnew | ⟨hl, hother⟩⟩ := rival?_eq_some hrival
    · rcases find?_eq_some.mp hfind with ha | ⟨-, ha⟩
      · rw [(he rival hnew).1] at ha
        cases ha
      · exact hnew.symm.trans ha
    · rcases find?_eq_some.mp hfind with ha | ⟨ha, -⟩
      · exact hl.symm.trans ha
      · rw [hl] at ha
        cases ha
  | @revives key' revived hk hrival hdeleted =>
    obtain rfl := hkeyed hk
    obtain ⟨ha, -⟩ := hnoRival hk.isNew hrival
    rw [(he a ha).2.1] at hdeleted
    cases hdeleted
  | files hk hrival =>
    obtain rfl := hkeyed hk
    rw [(hnoRival hk.isNew hrival).2]
  | fails _ hnot => exact absurd (Heap.fileKey_of_primaryKey? hkey hfiled) (hnot key)
  | finds hst _ hl =>
    obtain rfl := hstored hst
    exact hl.symm.trans (hlive hst.notNew)
  | merges hst _ hl =>
    obtain rfl := hstored hst
    exact hl.symm.trans (hlive hst.notNew)
  | mergesDeleted hst _ hl =>
    obtain rfl := hstored hst
    rw [hlive hst.notNew] at hl
    cases hl
  | enters hst hl =>
    obtain rfl := hstored hst
    have hnone := hl rfl
    rw [hlive hst.notNew] at hnone
    cases hnone
  | replacesDeleted _ himporting => cases himporting
  | restores _ himporting => cases himporting

private theorem get?_fileAll {written : List (RowKey × RecordId)} {live : KeyIndex}
    (hother : ∀ e ∈ written, e.1 = key → e.2 = a)
    (hsome : key ∈ written.map Prod.fst ∨ live.get? key = some a) :
    (written.foldl (fun live e => live.insert e.1 e.2) live).get? key = some a := by
  induction written generalizing live with
  | nil => simpa using hsome
  | cons e rest ih =>
    refine ih (fun e he => hother e (List.mem_cons_of_mem _ he)) ?_
    rw [FinMap.get?_insert]
    split
    · next he => exact .inr (by rw [hother e List.mem_cons_self he])
    · next he => simpa [Ne.symm he] using hsome

/-- Whoever is found by the key is found by it after the bucket was settled, unless another new
record was written under the key. -/
theorem settle_find? {written : List (RowKey × RecordId)} (h' : Heap) (purge : Bool)
    (hw : b.writtenKeys kind h = .ok written) (hfiled : key.isFiledUnder kind)
    (hk : b.KeepsKey h key) (he : b.Exclusive key)
    (hother : ∀ r ∈ b.new.toList, h.primaryKey? r = some key → r = a)
    (hfind : b.find? key = some a) : (b.settle h' purge written).1.find? key = some a := by
  refine find?_eq_some.mpr (.inl (get?_fileAll ?_ ?_))
  · rintro ⟨key', r⟩ hmem rfl
    obtain ⟨hnew, hfile⟩ := (mem_writtenKeys hw).mp hmem
    exact hother r hnew (Heap.primaryKey?_of_fileKey? (Heap.fileKey?_of_fileKey hfile)).1
  · rcases find?_eq_some.mp hfind with hl | ⟨-, hn⟩
    · exact .inr hl
    · refine .inl (List.mem_map.mpr ⟨(key, a), (mem_writtenKeys hw).mpr ⟨(he a hn).2.2, ?_⟩, rfl⟩)
      exact Heap.fileKey_of_primaryKey? (hk a hn) hfiled

end Bucket

end UnitOfWork
