import Mathlib.Logic.Relation
import UnitOfWork.Proofs.Commit.InsertCycles
import UnitOfWork.Proofs.Commit.InsertedKeys

/-!
# What a plan of inserts says

A plan sorts the records of a batch: each of them is to be inserted, has to wait, or is passed over,
and there is no plan if the row of one is to be changed, or if one is to be deleted. What is to be
inserted by a plan is so by every later one, as long as the inserts of other records only add to
what is known.
-/

namespace UnitOfWork

namespace Heap

variable {h h' : Heap} {deferrable : Bool} {rs : List RecordId} {plan : InsertPlan} {r : RecordId}

/-- There is no plan exactly if some record spoils it, and the error names the first one. -/
theorem planInserts_eq_error {e : Error} : h.planInserts deferrable rs = .error e ↔
    ∃ r, rs.find? h.spoils = some r ∧
      e = .unsupportedState (.notInsertable (h.get r).state) (some (h.describe r)) := by
  rw [planInserts_eq]
  cases rs.find? h.spoils <;> simp [eq_comm]

end Heap

/-- The plan puts each record of a list where it belongs, in the order of the list. -/
structure InsertPlan.Sorts (plan : InsertPlan) (h : Heap) (rs : List RecordId) : Prop where
  inserts : (plan.inserts.map (·.record)).Sublist rs
  retries : plan.retries.Sublist rs
  disjoint : (plan.inserts.map (·.record)).Disjoint plan.retries
  /-- All others are without changes and only counted. -/
  all : ∃ passed, (∀ r ∈ passed, (h.get r).state = .unchanged) ∧ passed.length = plan.skipped ∧
    (plan.inserts.map (·.record) ++ (plan.retries ++ passed)).Perm rs
  results : plan.results =
    { fixUps := (plan.inserts.filter (·.needsFixUp)).map (·.record), retries := plan.retries }

namespace Heap

variable {h h' : Heap} {deferrable : Bool} {rs : List RecordId} {plan : InsertPlan} {r : RecordId}

/-- Each record of a batch is inserted, has to wait or is passed over. -/
theorem sorted_perm (hrs : ∀ r ∈ rs, h.spoils r = false) :
    ((h.sorted deferrable rs).inserts.map (·.record) ++ ((h.sorted deferrable rs).retries ++
      rs.filter fun r => (h.get r).state = .unchanged)).Perm rs := by
  rw [records_sorted, sorted]
  apply List.Perm.trans _ (List.filter_append_perm
    (fun r => decide ((h.get r).state = .new ∧ h.canInsert deferrable r)) rs)
  apply List.Perm.append_left
  apply List.Perm.trans _ (List.filter_append_perm
    (fun r => decide ((h.get r).state = .new ∧ ¬ h.canInsert deferrable r)) _)
  rw [List.filter_filter, List.filter_filter]
  apply List.Perm.of_eq
  congr 1
  · apply List.filter_congr
    intro r _
    cases h.canInsert deferrable r <;> simp
  · apply List.filter_congr
    intro r hr
    rcases spoils_eq_false.mp (hrs r hr) with hs | hs
    · cases h.canInsert deferrable r <;> simp [hs]
    · simp [hs]

private theorem planInserts_sorts (hp : h.planInserts deferrable rs = .ok plan) :
    plan.Sorts h rs := by
  obtain ⟨hrs, hsorted⟩ := planInserts_eq_ok.mp hp
  refine ⟨inserts_sublist hp, retries_sublist hp, disjoint_planInserts hp,
    ⟨rs.filter fun r => (h.get r).state = .unchanged, ?_, ?_, hsorted ▸ sorted_perm hrs⟩, rfl⟩
  · intro r hr
    simpa using (List.mem_filter.mp hr).2
  · rw [← hsorted, sorted]

private theorem refersToAwaiting_of_canInsert (hstate : (h.get r).state = .new)
    (hc : h.canInsert false r) : h.refersToAwaiting r ↔
      r ∈ h.targets r ∧ (h.get r).inserted = false ∧ h.primaryKey? r = none := by
  rw [canInsert_false, refersToPending] at hc
  have hself : ∀ t ∈ h.targets r, h.isPending t → t = r := by
    intro t ht hp
    by_contra hne
    have hany : ((h.targets r).any fun t => t != r && h.isPending t) = true :=
      List.any_eq_true.mpr ⟨t, ht, by simp [hne, hp]⟩
    simp [hany] at hc
  have hisNew := Record.isNew_of_state hstate
  rw [refersToAwaiting, List.any_eq_true]
  constructor
  · intro hexists
    obtain ⟨t, ht, hawaits⟩ := hexists
    obtain ⟨hpending, hkey⟩ : h.isPending t ∧ h.primaryKey? t = none := by
      simpa [awaitsKey] using hawaits
    obtain rfl := hself t ht hpending
    refine ⟨ht, ?_, hkey⟩
    simpa [isPending, Record.isPending, hisNew] using hpending
  · intro hexists
    obtain ⟨ht, hinserted, hkey⟩ := hexists
    exact ⟨r, ht, by simp [awaitsKey, isPending, Record.isPending, hisNew, hinserted, hkey]⟩

/-- One step by which the insert of another new record than `r` is completed: it takes over a value
from the store, which replaces no known part of its key, or it is marked as written. -/
inductive CompletesOther (r : RecordId) (h : Heap) : Heap → Prop
  | given {q : RecordId} {column : String} {v : Value} {x : Record} : q ≠ r → (h.get q).isNew →
    (h.get q).applyGenerated column v = .ok x →
    (∀ i k, (h.get q).slot? i = some k → x.slot? i = some k) → CompletesOther r h (h.set q x)
  | written {p : PlannedInsert} : p.record ≠ r → (h.get p.record).isNew →
    CompletesOther r h (h.completeInsert p)

/-- Records have been written, and more is known about their keys; `r` is as it was. -/
structure Advances (r : RecordId) (h h' : Heap) : Prop where
  keeps : h.Keeps h'
  same : h'.get r = h.get r
  state : ∀ q, (h'.get q).state = (h.get q).state
  slot : ∀ q i k, (h.get q).slot? i = some k → (h'.get q).slot? i = some k

namespace Advances

variable {h'' : Heap}

theorem refl (r : RecordId) (h : Heap) : h.Advances r h :=
  ⟨.refl h, rfl, fun _ => rfl, fun _ _ _ hk => hk⟩

theorem trans (a : h.Advances r h') (b : h'.Advances r h'') : h.Advances r h'' where
  keeps := a.keeps.trans b.keeps
  same := b.same.trans a.same
  state q := (b.state q).trans (a.state q)
  slot q i k hk := b.slot q i k (a.slot q i k hk)

private theorem forall_set {P : Record → Record → Prop} {q : RecordId} {x : Record}
    (hrefl : ∀ y, P y y) (hx : P (h.get q) x) (p : RecordId) :
    P (h.get p) ((h.set q x).get p) := by
  rw [get_set]
  split
  · next he => exact he ▸ hx
  · exact hrefl _

private theorem set {q : RecordId} {x : Record} (hq : q ≠ r) (hn : (h.get q).isNew)
    (htype : x.type = (h.get q).type) (hreferences : x.references = (h.get q).references)
    (hisNew : x.isNew = (h.get q).isNew) (hisDeleted : x.isDeleted = (h.get q).isDeleted)
    (hinserted : (h.get q).inserted → x.inserted)
    (hslot : ∀ i k, (h.get q).slot? i = some k → x.slot? i = some k) :
    h.Advances r (h.set q x) where
  keeps :=
    { ids := fun p hp => mem_ids_modify (f := fun _ => x) |>.mpr (.inr hp)
      type := forall_set (P := fun y y' => y'.type = y.type) (fun _ => rfl) htype
      references := forall_set (P := fun y y' => y'.references = y.references) (fun _ => rfl)
        hreferences
      isNew := forall_set (P := fun y y' => y'.isNew = y.isNew) (fun _ => rfl) hisNew
      isDeleted := forall_set (P := fun y y' => y'.isDeleted = y.isDeleted) (fun _ => rfl)
        hisDeleted
      inserted := forall_set (P := fun y y' => y.inserted → y'.inserted) (fun _ hi => hi)
        hinserted }
  same := by rw [get_set, if_neg hq]
  state := by
    apply forall_set (P := fun y y' => y'.state = y.state) (fun _ => rfl)
    rw [Record.state_of_isNew (hisNew.trans hn), Record.state_of_isNew hn, hisDeleted]
  slot := forall_set (P := fun y y' => ∀ i k, y.slot? i = some k → y'.slot? i = some k)
    (fun _ _ _ hk => hk) hslot

private theorem step (hstep : CompletesOther r h h') : h.Advances r h' := by
  cases hstep with
  | given hq hn hx hslot =>
    obtain ⟨htype, hreferences, hisNew, hisDeleted, hinserted⟩ := Record.applyGenerated_keeps hx
    apply set hq hn htype hreferences hisNew hisDeleted _ hslot
    intro hi
    rw [hinserted, hi]
  | @written p hp hn =>
    rw [completeInsert, modify]
    apply set hp hn <;> split <;> first | rfl | exact fun _ => rfl | exact fun _ _ hk => hk

private theorem run (hrun : Relation.ReflTransGen (CompletesOther r) h h') : h.Advances r h' := by
  induction hrun with
  | refl => exact .refl r h
  | tail _ hstep ih => exact ih.trans (step hstep)

private theorem keySlots (a : h.Advances r h') (u : RecordId) : (h.get u).keySlots.Forall₂
    (fun e e' => e'.1 = e.1 ∧ ∀ k, e.2 = some k → e'.2 = some k) (h'.get u).keySlots := by
  have htype := a.keeps.type u
  have hlength : (h.get u).keySlots.length = (h'.get u).keySlots.length := by
    rw [← List.length_map Prod.fst, ← List.length_map Prod.fst, Record.map_fst_keySlots,
      Record.map_fst_keySlots, htype]
  apply List.forall₂_iff_get.mpr
  refine ⟨hlength, ?_⟩
  intro i hi hi'
  simp only [List.get_eq_getElem, Record.keySlots, List.getElem_zip]
  constructor
  · simp only [htype]
  · intro k hk
    have hslots : i < (h.get u).slots.length := by
      simp only [Record.keySlots, List.length_zip] at hi
      omega
    have hslots' : i < (h'.get u).slots.length := by
      simp only [Record.keySlots, List.length_zip] at hi'
      omega
    have hold : (h.get u).slot? i = some k := by
      rw [Record.slot?, List.getElem?_eq_getElem hslots, hk]
      rfl
    have hnew := a.slot u i k hold
    rwa [Record.slot?, List.getElem?_eq_getElem hslots'] at hnew

private theorem resolve? (a : h.Advances r h') {depth : Nat} {u : RecordId} {key : RowKey}
    (hk : h.resolve? depth u = some key) : h'.resolve? depth u = some key := by
  induction depth generalizing u key with
  | zero => cases hk
  | succ depth ih =>
    rw [Heap.resolve?] at hk ⊢
    obtain ⟨ks, hks, rfl⟩ := Option.map_eq_some_iff.mp hk
    have hcomponents : (h.get u).keySlots.Forall₂ (fun e e' => ∀ k,
        h.component? (h.resolve? depth) u e = some k →
          h'.component? (h'.resolve? depth) u e' = some k) (h'.get u).keySlots := by
      apply (a.keySlots u).imp
      intro e e' he k hek
      obtain ⟨c, slot⟩ := e
      obtain ⟨c', slot'⟩ := e'
      obtain ⟨rfl, hslot⟩ := he
      exact component?_mono (a.keeps.references u) hslot (fun _ _ hkey => ih hkey) hek
    rw [mapM_some_of_forall₂ hcomponents hks]
    rfl

private theorem isPending (a : h.Advances r h') {t : RecordId} (ht : h'.isPending t) :
    h.isPending t := by
  simp only [Heap.isPending, Record.isPending, Bool.and_eq_true, Bool.not_eq_true'] at ht ⊢
  rw [a.keeps.isNew] at ht
  refine ⟨ht.1, Bool.eq_false_iff.mpr ?_⟩
  intro hi
  simp [a.keeps.inserted t hi] at ht

private theorem awaitsKey (a : h.Advances r h') {t : RecordId} (ht : h'.awaitsKey t) :
    h.awaitsKey t := by
  rw [Heap.awaitsKey, Bool.and_eq_true, Option.isNone_iff_eq_none] at ht ⊢
  refine ⟨a.isPending ht.1, ?_⟩
  cases hkey : h.primaryKey? t with
  | none => rfl
  | some key => simp [primaryKey?, a.resolve? hkey] at ht

private theorem canInsert (a : h.Advances r h') {q : RecordId} (hc : h.canInsert deferrable q) :
    h'.canInsert deferrable q := by
  have hkey : h'.keyAwaits q → h.keyAwaits q := by
    rw [keyAwaits, keyAwaits, a.keeps.keyTargets, List.any_eq_true, List.any_eq_true]
    intro hexists
    obtain ⟨t, ht, hcond⟩ := hexists
    rw [Bool.and_eq_true] at hcond
    exact ⟨t, ht, by rw [hcond.1, a.awaitsKey hcond.2]; rfl⟩
  have hpending : h'.refersToPending q → h.refersToPending q := by
    rw [refersToPending, refersToPending, a.keeps.targets, List.any_eq_true, List.any_eq_true]
    intro hexists
    obtain ⟨t, ht, hcond⟩ := hexists
    rw [Bool.and_eq_true] at hcond
    exact ⟨t, ht, by rw [hcond.1, a.isPending hcond.2]; rfl⟩
  rw [Heap.canInsert, Bool.and_eq_true, Bool.or_eq_true, Bool.not_eq_true', Bool.not_eq_true']
    at hc ⊢
  refine ⟨Bool.eq_false_iff.mpr fun hk => ?_, hc.2.imp_right fun hp => ?_⟩
  · simp [hkey hk] at hc
  · exact Bool.eq_false_iff.mpr fun hp' => by simp [hpending hp'] at hp

/-- A record that is planned is so by the same batch later on, and by no batch left. -/
theorem planned (a : h.Advances r h') {p : PlannedInsert}
    (hp : h.planInserts deferrable rs = .ok plan) (hm : p ∈ plan.inserts) :
    (∃ plan', h'.planInserts deferrable rs = .ok plan' ∧
        p.record ∈ plan'.inserts.map (·.record)) ∧
      ∀ rs' plan', h'.planInserts deferrable rs' = .ok plan' → p.record ∉ plan'.retries := by
  obtain ⟨hplans, hmem⟩ := planInserts_plans hp hm
  have hc := a.canInsert hplans.canInsert
  have hspoils : ∀ q ∈ rs, h'.spoils q = false := by
    intro q hq
    rw [spoils, a.state]
    exact (planInserts_eq_ok.mp hp).1 q hq
  constructor
  · refine ⟨_, planInserts_eq_ok.mpr ⟨hspoils, rfl⟩, ?_⟩
    rw [records_sorted]
    simp [hmem, a.state, hplans.state, hc]
  · intro rs' plan' hplan' hretry
    rw [(planInserts_ok hplan').2] at hretry
    have hcond := (List.mem_filter.mp hretry).2
    simp [hc] at hcond

end Advances

/-- A batch has no plan exactly if a record of it has a row that is to be changed, or is to be
deleted; the error names the first one. A plan sorts the records of its batch; where foreign keys
are checked at once, it has a record fixed up only for a reference to itself. What it inserts is
never left once the inserts of other new records have been completed. -/
theorem planInserts_partitions (h : Heap) (deferrable : Bool) (rs : List RecordId) :
    (∀ e, h.planInserts deferrable rs = .error e ↔ ∃ r, rs.find? h.spoils = some r ∧
        e = .unsupportedState (.notInsertable (h.get r).state) (some (h.describe r))) ∧
      ∀ plan, h.planInserts deferrable rs = .ok plan → plan.Sorts h rs ∧
        ∀ p ∈ plan.inserts,
          (deferrable = false → (p.needsFixUp ↔ p.record ∈ h.targets p.record ∧
            (h.get p.record).inserted = false ∧ h.primaryKey? p.record = none)) ∧
          ∀ h', Relation.ReflTransGen (CompletesOther p.record) h h' →
            (∃ plan', h'.planInserts deferrable rs = .ok plan' ∧
                p.record ∈ plan'.inserts.map (·.record)) ∧
              ∀ rs' plan', h'.planInserts deferrable rs' = .ok plan' →
                p.record ∉ plan'.retries := by
  refine ⟨fun e => planInserts_eq_error, ?_⟩
  intro plan hplan
  refine ⟨planInserts_sorts hplan, ?_⟩
  intro p hp
  constructor
  · intro hdeferrable
    subst hdeferrable
    obtain ⟨hplans, -⟩ := planInserts_plans hplan hp
    rw [hplans.needsFixUp]
    exact refersToAwaiting_of_canInsert hplans.state hplans.canInsert
  · intro h' hrun
    exact (Advances.run hrun).planned hplan hp

/-- A record that refers to itself, and one that refers to none. -/
def ownParent : Heap :=
  ((∅ : Heap).set ⟨0⟩
    { Record.create nodeType with references := (∅ : NameMap RecordId).insert "parent" ⟨0⟩ }).set
    ⟨1⟩ (Record.create nodeType)

/-- The same records after the second one has been inserted. -/
def ownParentLater : Heap :=
  (ownParent.set ⟨1⟩ { (Record.create nodeType).setSlot 0 (.int64 7) with
    hydrated := true }).completeInsert ⟨⟨1⟩, false⟩

/-- The record that refers to itself is planned, to be fixed up, and is so later on. -/
theorem planInserts_partitions_ownParent :
    ownParent.planInserts false [⟨0⟩, ⟨1⟩] = .ok { inserts := [⟨⟨0⟩, true⟩, ⟨⟨1⟩, false⟩] } ∧
      ⟨0⟩ ∈ ownParent.targets ⟨0⟩ ∧
      Relation.ReflTransGen (CompletesOther ⟨0⟩) ownParent ownParentLater ∧
      ∃ plan', ownParentLater.planInserts false [⟨0⟩, ⟨1⟩] = .ok plan' ∧
        ⟨0⟩ ∈ plan'.inserts.map (·.record) := by
  have hplan : ownParent.planInserts false [⟨0⟩, ⟨1⟩] =
      .ok { inserts := [⟨⟨0⟩, true⟩, ⟨⟨1⟩, false⟩] } := by rfl
  have hslots : (ownParent.get ⟨1⟩).slots = [none] := by decide +kernel
  have hgiven : CompletesOther ⟨0⟩ ownParent (ownParent.set ⟨1⟩
      { (Record.create nodeType).setSlot 0 (.int64 7) with hydrated := true }) := by
    have hid : (ownParent.get ⟨1⟩).applyGenerated "id" (.bigInt 7) =
        .ok { (Record.create nodeType).setSlot 0 (.int64 7) with hydrated := true } := by rfl
    apply CompletesOther.given (by decide) (by decide +kernel) hid
    intro i k hk
    rw [Record.slot?, hslots] at hk
    cases i <;> simp at hk
  have hrun := (Relation.ReflTransGen.single hgiven).tail
    (.written (p := ⟨⟨1⟩, false⟩) (by decide) (by decide +kernel))
  obtain ⟨-, hsorted⟩ := planInserts_partitions ownParent false [⟨0⟩, ⟨1⟩]
  obtain ⟨hfixUp, hlater⟩ := (hsorted _ hplan).2 ⟨⟨0⟩, true⟩ List.mem_cons_self
  exact ⟨hplan, ((hfixUp rfl).mp rfl).1, hrun, (hlater _ hrun).1⟩

end Heap

end UnitOfWork
