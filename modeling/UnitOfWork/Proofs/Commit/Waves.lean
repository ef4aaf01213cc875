import Mathlib.Data.Fintype.Pigeonhole
import Mathlib.Data.List.Chain
import Mathlib.Data.Set.Finite.Basic
import Mathlib.Logic.Relation
import Mathlib.Order.WellFounded
import UnitOfWork.Proofs.Commit.InsertRounds

/-!
# Waves

Records that wait for each other are inserted in waves: a round inserts records that wait for
nothing any more, and each record that it leaves waits for one which was not inserted before the
round. A record from which a cycle of waiting can be reached is never inserted, and every other one
is, within as many rounds as there are records on a longest walk.
-/

namespace UnitOfWork

section

variable {α : Type} {E : α → α → Prop}

/-- A cycle can be reached along the edges. -/
def ReachesCycle (E : α → α → Prop) (r : α) : Prop :=
  ∃ c, Relation.ReflTransGen E r c ∧ Relation.TransGen E c c

private theorem ReachesCycle.of_cycle {c : α} (hc : Relation.TransGen E c c) : ReachesCycle E c :=
  ⟨c, .refl, hc⟩

private theorem ReachesCycle.exists_successor {r : α} (hr : ReachesCycle E r) :
    ∃ t, E r t ∧ ReachesCycle E t := by
  obtain ⟨c, hrc, hc⟩ := hr
  rcases Relation.ReflTransGen.cases_head hrc with rfl | ⟨t, hrt, htc⟩
  · obtain ⟨t, hrt, htr⟩ := Relation.TransGen.head'_iff.mp hc
    exact ⟨t, hrt, _, htr, hc⟩
  · exact ⟨t, hrt, c, htc, hc⟩

private theorem not_reachesCycle_of_acc {r : α} (hr : Acc (fun t r => E r t) r) :
    ¬ ReachesCycle E r := by
  induction hr with
  | intro r _ ih =>
    intro hcycle
    obtain ⟨t, hrt, ht⟩ := hcycle.exists_successor
    exact ih t hrt ht

/-- Among finitely many members that all have a successor among them, each walk runs into a
cycle. -/
theorem reachesCycle_of_successors {S : List α} (hS : ∀ r ∈ S, ∃ t ∈ S, E r t) {r : α}
    (hr : r ∈ S) : ReachesCycle E r := by
  choose f hf using fun x : {x // x ∈ S} => hS x.1 x.2
  let next (x : {x // x ∈ S}) : {x // x ∈ S} := ⟨f x, (hf x).1⟩
  let walk (n : Nat) : {x // x ∈ S} := next^[n] ⟨r, hr⟩
  have hstep : ∀ n, E (walk n) (walk (n + 1)) := by
    intro n
    have hnext : walk (n + 1) = next (walk n) := Function.iterate_succ_apply' next n _
    rw [hnext]
    exact (hf (walk n)).2
  have hreach : ∀ i n, Relation.ReflTransGen E (walk i) (walk (i + n)) := by
    intro i n
    induction n with
    | zero => exact .refl
    | succ n ih => exact ih.tail (hstep (i + n))
  have hcycle : ∀ i j, i < j → walk i = walk j → ReachesCycle E r := by
    intro i j hij hsame
    have hloop : Relation.TransGen E (walk i) (walk i) := by
      have hback := hreach (i + 1) (j - (i + 1))
      rw [Nat.add_sub_cancel' hij, ← hsame] at hback
      exact Relation.TransGen.head' (hstep i) hback
    have hstart := hreach 0 i
    rw [Nat.zero_add] at hstart
    exact ⟨walk i, hstart, hloop⟩
  have : Finite {x // x ∈ S} := List.finite_toSet S
  obtain ⟨i, j, hne, hsame⟩ := Finite.exists_ne_map_eq_of_infinite walk
  rcases Nat.lt_or_gt_of_ne hne with hij | hij
  · exact hcycle i j hij hsame
  · exact hcycle j i hij hsame.symm

private theorem nodup_of_isChain (hE : ∀ r, ¬ Relation.TransGen E r r) {p : List α}
    (hp : p.IsChain E) :
    p.Nodup := by
  have hpair : p.Pairwise (Relation.TransGen E) :=
    List.isChain_iff_pairwise.mp (hp.imp fun _ _ => Relation.TransGen.single)
  apply hpair.imp
  intro a b hab he
  subst he
  exact hE a hab

end

/-- The records of batches, in their order. -/
def recordsOf (batches : List Batch) : List RecordId := batches.flatMap (·.records)

theorem recordsOf_append (bs bs' : List Batch) :
    recordsOf (bs ++ bs') = recordsOf bs ++ recordsOf bs' := List.flatMap_append

theorem recordsOf_only (b : Batch) (records : List RecordId) :
    recordsOf (b.only records) = records := by
  cases records <;> simp [recordsOf, Batch.only]

theorem recordCount_eq (batches : List Batch) :
    recordCount batches = (recordsOf batches).length := by
  rfl

theorem Batch.mem_only {b b' : Batch} {records : List RecordId} :
    b' ∈ b.only records ↔ records ≠ [] ∧ b' = { b with records } := by
  cases records <;> simp [Batch.only]

/-- A round that began with the records `done` inserted and the batches `bs` to be written: what is
inserted after it, and what it has left. An edge of `E` leads to a record that is waited for. -/
structure Round (E : RecordId → RecordId → Prop) (done : List RecordId) (bs : List Batch)
    (done' : List RecordId) (left : List Batch) : Prop where
  perm : (done' ++ recordsOf left).Perm (done ++ recordsOf bs)
  before : ∃ new, done' = done ++ new
  acc : (∀ r ∈ done, Acc (fun t r => E r t) r) → ∀ r ∈ done', Acc (fun t r => E r t) r
  waits : ∀ r ∈ recordsOf left, ∃ t, E r t ∧ t ∉ done
  full : ∀ b ∈ left, b.records ≠ []
  batch : ∀ b ∈ left, ∃ b' ∈ bs, b'.type = b.type ∧ ∀ r ∈ b.records, r ∈ b'.records

section

variable {E : RecordId → RecordId → Prop} {R done done' : List RecordId} {bs left : List Batch}

theorem Round.nil (E : RecordId → RecordId → Prop) (done : List RecordId) :
    Round E done [] done [] where
  perm := .refl _
  before := ⟨[], (List.append_nil _).symm⟩
  acc hacc := hacc
  waits _ hr := absurd hr List.not_mem_nil
  full _ hb := absurd hb List.not_mem_nil
  batch _ hb := absurd hb List.not_mem_nil

theorem Round.cons {b : Batch} (free : RecordId → Bool)
    (hfree : ∀ r ∈ b.records, free r → ∀ t, E r t → t ∈ done ∨ Acc (fun t r => E r t) t)
    (hwaits : ∀ r ∈ b.records, free r = false → ∃ t, E r t ∧ t ∉ done)
    (hrest : Round E (done ++ b.records.filter free) bs done' left) :
    Round E done (b :: bs) done' (b.only (b.records.filter fun r => !free r) ++ left) where
  perm := by
    have hsplit : (b.records.filter free ++ b.records.filter fun r => !free r).Perm b.records :=
      List.filter_append_perm ..
    have hcons : recordsOf (b :: bs) = b.records ++ recordsOf bs := rfl
    apply List.perm_iff_count.mpr
    intro r
    have hcount := hrest.perm.count_eq r
    have hb := hsplit.count_eq r
    simp only [hcons, recordsOf_append, recordsOf_only, List.count_append] at hcount hb ⊢
    omega
  before := by
    obtain ⟨new, hnew⟩ := hrest.before
    exact ⟨b.records.filter free ++ new, by rw [hnew, List.append_assoc]⟩
  acc hacc := by
    apply hrest.acc
    intro r hr
    rcases List.mem_append.mp hr with hr | hr
    · exact hacc r hr
    · obtain ⟨hmem, hf⟩ := List.mem_filter.mp hr
      exact .intro r fun t ht => (hfree r hmem hf t ht).elim (hacc t) id
  waits r hr := by
    rw [recordsOf_append, recordsOf_only, List.mem_append] at hr
    rcases hr with hr | hr
    · obtain ⟨hmem, hf⟩ := List.mem_filter.mp hr
      exact hwaits r hmem (by simpa using hf)
    · obtain ⟨t, ht, hnot⟩ := hrest.waits r hr
      exact ⟨t, ht, fun hd => hnot (List.mem_append_left _ hd)⟩
  full b' hb' := by
    rcases List.mem_append.mp hb' with hb' | hb'
    · obtain ⟨hne, rfl⟩ := Batch.mem_only.mp hb'
      exact hne
    · exact hrest.full b' hb'
  batch b' hb' := by
    rcases List.mem_append.mp hb' with hb' | hb'
    · obtain ⟨-, rfl⟩ := Batch.mem_only.mp hb'
      exact ⟨b, List.mem_cons_self, rfl, fun r hr => (List.mem_filter.mp hr).1⟩
    · obtain ⟨b'', hb'', hsame⟩ := hrest.batch b' hb'
      exact ⟨b'', List.mem_cons_of_mem b hb'', hsame⟩

/-- A walk along the edges among `R` that comes to no record twice. -/
structure IsWalk (E : RecordId → RecordId → Prop) (R p : List RecordId) : Prop where
  chain : p.IsChain E
  nodup : p.Nodup
  mem : ∀ r ∈ p, r ∈ R

def IsLongestWalk (E : RecordId → RecordId → Prop) (R p : List RecordId) : Prop :=
  IsWalk E R p ∧ ∀ q, IsWalk E R q → q.length ≤ p.length

private theorem IsWalk.length_le {p : List RecordId} (hp : IsWalk E R p) : p.length ≤ R.length :=
  (List.subperm_of_subset hp.nodup hp.mem).length_le

theorem IsWalk.length_le_one (hE : ∀ r t, ¬ E r t) {p : List RecordId} (hp : IsWalk E R p) :
    p.length ≤ 1 :=
  match p, hp.chain with
  | [], _ => Nat.zero_le 1
  | [_], _ => Nat.le_refl 1
  | r :: t :: _, hchain => absurd (List.isChain_cons_cons.mp hchain).1 (hE r t)

theorem exists_isLongestWalk (E : RecordId → RecordId → Prop) (R : List RecordId) :
    ∃ p, IsLongestWalk E R p := by
  obtain ⟨p, hp, hmin⟩ := WellFounded.has_min
    (measure fun p : List RecordId => R.length - p.length).wf {p | IsWalk E R p}
    ⟨[], .nil, .nil, fun _ hr => absurd hr List.not_mem_nil⟩
  refine ⟨p, hp, fun q hq => ?_⟩
  have hle := hq.length_le
  have hnot : ¬ R.length - q.length < R.length - p.length := hmin q hq
  omega

private theorem mem_of_isChain (hE : ∀ r t, E r t → t ∈ R) {r : RecordId} {p : List RecordId}
    (hr : r ∈ R) (hp : (r :: p).IsChain E) : ∀ q ∈ r :: p, q ∈ R := by
  induction p generalizing r with
  | nil => exact fun q hq => List.mem_singleton.mp hq ▸ hr
  | cons t p ih =>
    obtain ⟨hrt, hp⟩ := List.isChain_cons_cons.mp hp
    intro q hq
    rcases List.mem_cons.mp hq with rfl | hq
    · exact hr
    · exact ih (hE r t hrt) hp q hq

/-- Where the inserts of the records `R` stand after `k` rounds. -/
structure Waves (E : RecordId → RecordId → Prop) (R : List RecordId) (k : Nat)
    (done : List RecordId) (bs : List Batch) : Prop where
  perm : (done ++ recordsOf bs).Perm R
  full : ∀ b ∈ bs, b.records ≠ []
  acc : ∀ r ∈ done, Acc (fun t r => E r t) r
  /-- Each record that is left begins a walk of more than `k` records. -/
  ahead : ∀ r ∈ recordsOf bs, ∃ p : List RecordId, p.length = k ∧ (r :: p).IsChain E
  walk : ∃ p : List RecordId, p.length = k ∧ p.IsChain E ∧ ∀ r ∈ p, r ∈ R

namespace Waves

variable {k : Nat} {r : RecordId}

theorem start (hfull : ∀ b ∈ bs, b.records ≠ []) : Waves E (recordsOf bs) 0 [] bs where
  perm := .refl _
  full := hfull
  acc _ hr := absurd hr List.not_mem_nil
  ahead r _ := ⟨[], rfl, .singleton r⟩
  walk := ⟨[], rfl, .nil, fun _ hr => absurd hr List.not_mem_nil⟩

private theorem mem (hs : Waves E R k done bs) (hr : r ∈ recordsOf bs) : r ∈ R :=
  hs.perm.mem_iff.mp (List.mem_append_right _ hr)

theorem mem_iff (hs : Waves E R k done bs) : r ∈ R ↔ r ∈ done ∨ r ∈ recordsOf bs := by
  rw [← hs.perm.mem_iff, List.mem_append]

theorem exists_mem (hs : Waves E R k done bs) (hne : bs ≠ []) : ∃ r, r ∈ recordsOf bs := by
  obtain ⟨b, bs, rfl⟩ := List.exists_cons_of_ne_nil hne
  obtain ⟨r, hr⟩ := List.exists_mem_of_ne_nil _ (hs.full b List.mem_cons_self)
  exact ⟨r, List.mem_flatMap.mpr ⟨b, List.mem_cons_self, hr⟩⟩

theorem next (hs : Waves E R k done bs) (hE : ∀ r t, E r t → t ∈ R) (hne : bs ≠ [])
    (hround : Round E done bs done' left) : Waves E R (k + 1) done' left where
  perm := hround.perm.trans hs.perm
  full := hround.full
  acc := hround.acc hs.acc
  ahead r hr := by
    obtain ⟨t, hrt, hnot⟩ := hround.waits r hr
    have ht := (hs.mem_iff.mp (hE r t hrt)).resolve_left hnot
    obtain ⟨p, hlength, hp⟩ := hs.ahead t ht
    exact ⟨t :: p, by rw [List.length_cons, hlength], List.isChain_cons_cons.mpr ⟨hrt, hp⟩⟩
  walk := by
    obtain ⟨r, hmem⟩ := hs.exists_mem hne
    obtain ⟨p, hlength, hp⟩ := hs.ahead r hmem
    exact ⟨r :: p, by rw [List.length_cons, hlength], hp, mem_of_isChain hE (hs.mem hmem) hp⟩

/-- A round that inserts nothing leaves records that all wait for each other. -/
theorem stuck (hs : Waves E R k done bs) (hE : ∀ r t, E r t → t ∈ R) (hne : bs ≠ [])
    (hround : Round E done bs done' left) (hle : recordCount bs ≤ recordCount left) :
    left ≠ [] ∧ ∀ r ∈ recordsOf left, ReachesCycle E r := by
  rw [recordCount_eq, recordCount_eq] at hle
  obtain ⟨new, hnew⟩ := hround.before
  have hdone : done' = done := by
    have hlength := hround.perm.length_eq
    rw [hnew] at hlength ⊢
    simp only [List.length_append] at hlength
    rw [List.length_eq_zero_iff.mp (by omega : new.length = 0), List.append_nil]
  constructor
  · rintro rfl
    obtain ⟨r, hr⟩ := hs.exists_mem hne
    exact Nat.not_lt.mpr hle (List.length_pos_of_mem hr)
  refine fun r hr => reachesCycle_of_successors (fun q hq => ?_) hr
  obtain ⟨t, hqt, hnot⟩ := hround.waits q hq
  have ht := hround.perm.mem_iff.mpr (hs.perm.mem_iff.mpr (hE q t hqt))
  rw [hdone] at ht
  exact ⟨t, (List.mem_append.mp ht).resolve_left hnot, hqt⟩

private theorem not_reachesCycle (hs : Waves E R k done bs) (hr : r ∈ done) : ¬ ReachesCycle E r :=
  not_reachesCycle_of_acc (hs.acc r hr)

/-- When all that is left can reach a cycle, nothing else can. -/
theorem mem_left_iff (hs : Waves E R k done bs)
    (hcycle : ∀ r ∈ recordsOf bs, ReachesCycle E r) :
    r ∈ recordsOf bs ↔ r ∈ R ∧ ReachesCycle E r := by
  rw [hs.mem_iff]
  constructor
  · intro hr
    exact ⟨.inr hr, hcycle r hr⟩
  · intro hr
    exact hr.1.resolve_left fun hd => hs.not_reachesCycle hd hr.2

theorem mem_done_iff (hs : Waves E R k done bs)
    (hcycle : ∀ r ∈ recordsOf bs, ReachesCycle E r) : r ∈ done ↔ r ∈ R ∧ ¬ ReachesCycle E r := by
  rw [hs.mem_iff]
  constructor
  · intro hd
    exact ⟨.inl hd, hs.not_reachesCycle hd⟩
  · intro hr
    exact hr.1.resolve_right fun hm => hr.2 (hcycle r hm)

theorem acyclic (hs : Waves E R k done []) (hE : ∀ r t, E r t → r ∈ R) (r : RecordId) :
    ¬ Relation.TransGen E r r := by
  intro hcycle
  obtain ⟨t, hrt, -⟩ := Relation.TransGen.head'_iff.mp hcycle
  have hr : r ∈ done := by simpa [recordsOf] using hs.perm.mem_iff.mpr (hE r t hrt)
  exact hs.not_reachesCycle hr (.of_cycle hcycle)

/-- It takes no more rounds than there are records on a longest walk. -/
theorem rounds_le (hs : Waves E R k done []) (hE : ∀ r t, E r t → r ∈ R) {p : List RecordId}
    (hp : IsLongestWalk E R p) : k ≤ p.length := by
  obtain ⟨q, hlength, hchain, hmem⟩ := hs.walk
  exact hlength ▸ hp.2 q ⟨hchain, nodup_of_isChain (hs.acyclic hE) hchain, hmem⟩

end Waves

end

end UnitOfWork
