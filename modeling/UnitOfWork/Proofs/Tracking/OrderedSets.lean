import UnitOfWork.Proofs.Data.Containers

/-!
# Sets of records as ordered lists

A set of records behaves as a list without duplicates to which records are added at the end and
from which they are taken out in place. The holes that a removal leaves behind are never seen, and
each member stays in the slot that its place tells, whatever has been asked of the set before.
-/

namespace UnitOfWork

namespace IdentitySet

variable {s : IdentitySet} {r : RecordId}

private theorem Coherent.length_toList (hs : s.Coherent) : s.toList.length = s.size := by
  have hperm : s.toList.Perm s.places.keys := by
    apply (List.perm_ext_iff_of_nodup hs.nodup s.places.nodup).mpr
    intro r
    rw [hs.mem_toList]
    exact FinMap.mem_keys.symm
  rw [hperm.length_eq]
  simp [FinMap.keys, size, FinMap.size]

private theorem Coherent.contains_eq (hs : s.Coherent) (r : RecordId) :
    s.contains r = decide (r ∈ s.toList) := by
  simp [hs.mem_toList]

private theorem Coherent.add_fst (hs : s.Coherent) (r : RecordId) :
    (s.add r).1 = decide (r ∉ s.toList) := by
  rw [add, decide_not, ← hs.contains_eq]
  cases s.contains r <;> rfl

private theorem Coherent.remove_fst (hs : s.Coherent) (r : RecordId) :
    (s.remove r).1 = decide (r ∈ s.toList) := by
  rw [← hs.contains_eq, remove, contains, FinMap.contains]
  cases s.places.get? r <;> rfl

private theorem Coherent.toList_insert (hs : s.Coherent) (r : RecordId) :
    (s.insert r).toList = if r ∈ s.toList then s.toList else s.toList ++ [r] := by
  have hc := hs.contains_eq r
  rw [IdentitySet.insert, add]
  by_cases hr : r ∈ s.toList
  · simp [hc, hr]
  · have habsent : s.contains r = false := by simp [hc, hr]
    rw [if_neg hr]
    simp [habsent, toList, List.reduceOption_append]

/-- A call of one of the operations on a set. -/
inductive Call where
  | add (r : RecordId)
  | remove (r : RecordId)
  | clear
  deriving DecidableEq, Repr

namespace Call

/-- What the call returns, if it returns anything, and the set after it. -/
def run (s : IdentitySet) : Call → Option Bool × IdentitySet
  | add r => ((s.add r).1, s.insert r)
  | remove r => ((s.remove r).1, s.erase r)
  | clear => (none, ∅)

/-- The same call on a list: a record that is absent is added at the end, and one that is present
is taken out. -/
def onList (l : List RecordId) : Call → Option Bool × List RecordId
  | add r => if r ∈ l then (some false, l) else (some true, l ++ [r])
  | remove r => if r ∈ l then (some true, l.erase r) else (some false, l)
  | clear => (none, [])

/-- Makes calls one after the other, and tells what each of them returned. -/
def makeAll {ρ : Type} (make : ρ → Call → Option Bool × ρ) (s : ρ) :
    List Call → List (Option Bool) × ρ
  | [] => ([], s)
  | call :: calls =>
    let rest := makeAll make (make s call).2 calls
    ((make s call).1 :: rest.1, rest.2)

private theorem makeAll_append {ρ : Type} (make : ρ → Call → Option Bool × ρ) (s : ρ)
    (calls more : List Call) :
    (makeAll make s (calls ++ more)).2 = (makeAll make (makeAll make s calls).2 more).2 := by
  induction calls generalizing s with
  | nil => rfl
  | cons call calls ih => exact ih _

private theorem run_coherent (hs : s.Coherent) (call : Call) : (call.run s).2.Coherent := by
  cases call with
  | add r => exact hs.insert r
  | remove r => exact hs.erase r
  | clear => exact coherent_empty

/-- A call returns the same for the list of the members, and has the same effect on it. -/
theorem run_onList (hs : s.Coherent) (call : Call) :
    (call.run s).1 = (call.onList s.toList).1 ∧
      (call.run s).2.toList = (call.onList s.toList).2 := by
  cases call with
  | add r =>
    simp only [run, onList, hs.add_fst, hs.toList_insert]
    by_cases hr : r ∈ s.toList <;> simp [hr]
  | remove r =>
    simp only [run, onList, hs.remove_fst, hs.toList_erase]
    by_cases hr : r ∈ s.toList
    · simp [hr, hs.nodup.erase_eq_filter, bne, BEq.beq]
    · simp only [hr, decide_false, if_false, true_and]
      apply List.filter_eq_self.mpr
      intro q hq
      exact decide_eq_true fun he => hr (he ▸ hq)
  | clear => exact ⟨rfl, rfl⟩

private theorem makeAll_coherent (hs : s.Coherent) (calls : List Call) :
    (makeAll run s calls).2.Coherent := by
  induction calls generalizing s with
  | nil => exact hs
  | cons call calls ih => exact ih (run_coherent hs call)

private theorem makeAll_onList (hs : s.Coherent) (calls : List Call) :
    (makeAll run s calls).1 = (makeAll onList s.toList calls).1 ∧
      (makeAll run s calls).2.toList = (makeAll onList s.toList calls).2 := by
  induction calls generalizing s with
  | nil => exact ⟨rfl, rfl⟩
  | cons call calls ih =>
    obtain ⟨hanswer, hlist⟩ := run_onList hs call
    obtain ⟨hanswers, hend⟩ := ih (run_coherent hs call)
    simp only [makeAll, hanswer, hanswers, hend, hlist, and_self]

private theorem notMem_makeAll (hs : s.Coherent) (hr : r ∉ s.toList) {calls : List Call}
    (hcalls : add r ∉ calls) : r ∉ (makeAll run s calls).2.toList := by
  induction calls generalizing s with
  | nil => exact hr
  | cons call calls ih =>
    simp only [List.mem_cons, not_or] at hcalls
    apply ih (run_coherent hs call) _ hcalls.2
    cases call with
    | add q =>
      have hne : r ≠ q := fun he => hcalls.1 (by rw [he])
      simp [run, hs.mem_insert, hne, hr]
    | remove q => simp [run, hs.mem_erase, hr]
    | clear => simp [run]

end Call

/-- What can be seen of the set are the members of the list, and each of them is in the slot that
its place tells. -/
structure Shows (s : IdentitySet) (l : List RecordId) : Prop where
  toList : s.toList = l
  size : s.size = l.length
  nodup : l.Nodup
  place : ∀ r, r ∈ l ↔ ∃ i : Nat, s.places.get? r = some i ∧ s.slots[i]? = some (some r)

private theorem Coherent.shows (hs : s.Coherent) : s.Shows s.toList where
  toList := rfl
  size := hs.length_toList.symm
  nodup := hs.nodup
  place r := by
    rw [mem_toList_iff_slot]
    apply exists_congr
    intro i
    rw [← hs r i, and_self]

/-- Whatever is asked of a set that was empty at first, it answers as a list without duplicates
does, and its members are those of the list in the same order. A record that was taken out comes
last when it is added again. -/
theorem calls_as_on_list (calls : List Call) :
    (Call.makeAll Call.run ∅ calls).1 = (Call.makeAll Call.onList [] calls).1 ∧
      (Call.makeAll Call.run ∅ calls).2.Shows (Call.makeAll Call.onList [] calls).2 ∧
      ∀ r others, Call.add r ∉ others →
        (Call.makeAll Call.run ∅ (calls ++ .remove r :: others ++ [.add r])).2.toList =
          (Call.makeAll Call.run ∅ (calls ++ .remove r :: others)).2.toList ++ [r] := by
  have hs := Call.makeAll_coherent coherent_empty calls
  obtain ⟨hanswers, hlist⟩ := Call.makeAll_onList coherent_empty calls
  refine ⟨hanswers, ?_, ?_⟩
  · rw [toList_empty] at hlist
    rw [← hlist]
    exact hs.shows
  · intro r others hothers
    have hcoherent := Call.makeAll_coherent coherent_empty (calls ++ .remove r :: others)
    have hnot : r ∉ (Call.makeAll Call.run ∅ (calls ++ .remove r :: others)).2.toList := by
      rw [Call.makeAll_append]
      apply Call.notMem_makeAll (hs.erase r) _ hothers
      simp [hs.mem_erase]
    rw [Call.makeAll_append]
    show (IdentitySet.insert _ r).toList = _
    rw [hcoherent.toList_insert, if_neg hnot]

/-- A set that was emptied and filled again, and a record that comes last the second time. -/
theorem calls_as_on_list_refilled :
    (Call.makeAll Call.run ∅ [.add ⟨0⟩, .remove ⟨0⟩, .add ⟨1⟩, .add ⟨0⟩, .add ⟨2⟩, .remove ⟨1⟩,
      .remove ⟨1⟩, .add ⟨1⟩]).2.Shows [⟨0⟩, ⟨2⟩, ⟨1⟩] ∧ Call.add ⟨1⟩ ∉ [Call.remove ⟨1⟩] ∧
      (Call.makeAll Call.run ∅ ([.add ⟨0⟩, .remove ⟨0⟩, .add ⟨1⟩, .add ⟨0⟩, .add ⟨2⟩] ++
        .remove ⟨1⟩ :: [.remove ⟨1⟩] ++ [.add ⟨1⟩])).2.toList = [⟨0⟩, ⟨2⟩] ++ [⟨1⟩] := by
  have hothers : Call.add ⟨1⟩ ∉ [Call.remove ⟨1⟩] := by decide
  exact ⟨(calls_as_on_list _).2.1, hothers, (calls_as_on_list _).2.2 ⟨1⟩ _ hothers⟩

end IdentitySet

end UnitOfWork
