import UnitOfWork.Proofs.Commit.Waves

/-!
# The graph of references between new records

Where foreign keys are checked at once, a round inserts of each batch the records that refer to no
other record which is still to be inserted. A record from which a cycle can be reached is never
inserted, and every other one is; where all records are of one type, in as many rounds as there are
records on a longest walk.
-/

namespace UnitOfWork

namespace Heap

variable {h : Heap} {R : List RecordId}

/-- One of the records `R` refers to another one of them. -/
def RefersIn (h : Heap) (R : List RecordId) (r t : RecordId) : Prop :=
  (r ∈ R ∧ t ∈ R) ∧ t ≠ r ∧ t ∈ h.targets r

theorem acyclic_of_index_lt {rs : List RecordId} {R : RecordId → RecordId → Prop}
    (hlt : ∀ r ∈ rs, ∀ t ∈ h.targets r, t.index < r.index)
    (hR : ∀ r t, R r t → r ∈ rs ∧ t ∈ h.targets r) (r : RecordId) : ¬ Relation.TransGen R r r := by
  intro hcycle
  have : IsTrans Nat fun m n => n < m := ⟨fun _ _ _ h h' => Nat.lt_trans h' h⟩
  have hindex : Relation.TransGen (fun m n : Nat => n < m) r.index r.index :=
    hcycle.lift _ fun r t hrt => hlt r (hR r t hrt).1 t (hR r t hrt).2
  rw [Relation.transGen_eq_self] at hindex
  exact Nat.lt_irrefl _ hindex

/-- All that the record refers to has been inserted. -/
def isFree (h : Heap) (R done : List RecordId) (r : RecordId) : Bool :=
  decide (∀ t ∈ h.targets r, t ≠ r → t ∈ R → t ∈ done)

/-- What a round inserts, after the records that have been inserted before, and what it leaves. -/
def planRound (h : Heap) (R : List RecordId) :
    List RecordId → List Batch → List RecordId × List Batch
  | done, [] => (done, [])
  | done, b :: bs =>
    let rest := planRound h R (done ++ b.records.filter (h.isFree R done)) bs
    (rest.1, b.only (b.records.filter fun r => !h.isFree R done r) ++ rest.2)

variable {done : List RecordId} {bs : List Batch}

private theorem length_planRound (h : Heap) (R done : List RecordId) (bs : List Batch) :
    (h.planRound R done bs).2.length ≤ bs.length := by
  induction bs generalizing done with
  | nil => exact Nat.le_refl _
  | cons b bs ih =>
    have hrest := ih (done ++ b.records.filter (h.isFree R done))
    rw [planRound, Batch.only]
    split
    · exact Nat.le_succ_of_le hrest
    · exact Nat.succ_le_succ hrest

/-- Whatever is inserted comes after all that it refers to, and what is left refers to a record that
was not inserted before. -/
theorem planRound_round (hbs : ∀ r ∈ recordsOf bs, r ∈ R) :
    Round (h.RefersIn R) done bs (h.planRound R done bs).1 (h.planRound R done bs).2 := by
  induction bs generalizing done with
  | nil => exact .nil _ done
  | cons b bs ih =>
    have hcons : recordsOf (b :: bs) = b.records ++ recordsOf bs := rfl
    rw [hcons] at hbs
    refine .cons (h.isFree R done) (fun r _ hf t ht => ?_) (fun r hr hf => ?_)
      (ih fun r hr => hbs r (List.mem_append_right _ hr))
    · exact .inl (of_decide_eq_true hf t ht.2.2 ht.2.1 ht.1.2)
    · have hrR := hbs r (List.mem_append_left _ hr)
      simp only [isFree, decide_eq_false_iff_not, not_forall] at hf
      obtain ⟨t, ht, hne, htR, hnot⟩ := hf
      exact ⟨t, ⟨⟨hrR, htR⟩, hne, ht⟩, hnot⟩

/-- A single batch: no record that was inserted in the first `k` rounds begins a longer walk. -/
structure Even (h : Heap) (R : List RecordId) (k : Nat) (done : List RecordId)
    (bs : List Batch) : Prop where
  single : bs.length ≤ 1
  behind : ∀ r ∈ done, ∀ p : List RecordId, (r :: p).IsChain (h.RefersIn R) → p.length < k

variable {k : Nat}

theorem Even.start (hsingle : bs.length ≤ 1) : h.Even R 0 [] bs :=
  ⟨hsingle, fun _ hr => absurd hr List.not_mem_nil⟩

theorem Even.next (he : h.Even R k done bs) :
    h.Even R (k + 1) (h.planRound R done bs).1 (h.planRound R done bs).2 where
  single := (length_planRound h R done bs).trans he.single
  behind r hr p hp := by
    have hfree : r ∈ done ∨ h.isFree R done r := by
      match bs, he.single with
      | [], _ => exact .inl hr
      | [b], _ => exact (List.mem_append.mp hr).imp_right fun hm => (List.mem_filter.mp hm).2
    rcases hfree with hd | hfree
    · exact Nat.lt_succ_of_lt (he.behind r hd p hp)
    · cases p with
      | nil => exact Nat.succ_pos k
      | cons t p =>
        obtain ⟨hrt, hp⟩ := List.isChain_cons_cons.mp hp
        have ht := of_decide_eq_true hfree t hrt.2.2 hrt.2.1 hrt.1.2
        exact Nat.succ_lt_succ (he.behind t ht p hp)

/-- It takes as many rounds as there are records on a longest walk. -/
theorem Even.le_rounds (he : h.Even R k done []) (hs : Waves (h.RefersIn R) R k done [])
    {p : List RecordId} (hp : IsWalk (h.RefersIn R) R p) : p.length ≤ k := by
  cases p with
  | nil => exact Nat.zero_le k
  | cons r p =>
    have hr := hs.perm.mem_iff.mpr (hp.mem r List.mem_cons_self)
    rw [recordsOf, List.flatMap_nil, List.append_nil] at hr
    exact he.behind r hr p hp.chain

end Heap

end UnitOfWork
