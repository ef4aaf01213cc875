import Mathlib.Data.List.TakeWhile
import UnitOfWork.Proofs.Commit.Checkpoints
import UnitOfWork.Proofs.Commit.LeaseDiscipline

/-!
# Leases that are taken after the marks

Leases can be taken and marked errored at any time before they are given back. One flag for all of
them tells that they have been marked, so what is leased after the first call is never marked, not
even by an abort, which gives it back all the same: its owner keeps the work of a commit that has
failed. Nothing else depends on the order of the calls.
-/

namespace UnitOfWork

/-- What may be asked of the leases before they are given back. -/
inductive LeaseCall where
  | lease (store : String)
  | errorAll
  deriving DecidableEq, Repr

namespace Transaction

variable {σ ρ : Type} (tx : Transaction σ ρ)

/-- A store that cannot be leased leaves the leases as they were. -/
def call (run : Run σ) : LeaseCall → Run σ
  | .lease store => endState (tx.lease store run)
  | .errorAll => tx.errorAll run

/-- The run after some calls. -/
def calls (run : Run σ) (cs : List LeaseCall) : Run σ := cs.foldl tx.call run

/-- The stores that are held when the leases are first marked, by one of the calls or else by what
ends them. -/
def markedBy (run : Run σ) (cs : List LeaseCall) : List String :=
  (tx.calls run (cs.takeWhile (· ≠ .errorAll))).leases.stores

/-- The second run comes from the first by asking for some stores, of which it has got some that it
did not hold, in this order. -/
structure TakesMore (run run' : Run σ) (asked taken : List String) : Prop where
  trace : run'.session.trace = run.session.trace ++ asked.map .acquire
  stores : run'.leases.stores = run.leases.stores ++ taken
  errored : run'.leases.errored = run.leases.errored
  inOrder : taken.Sublist asked
  nodup : run.leases.stores.Nodup → run'.leases.stores.Nodup

variable {tx} {run run' run'' : Run σ} {asked asked' taken taken' : List String}

theorem TakesMore.refl (run : Run σ) : TakesMore run run [] [] :=
  ⟨(List.append_nil _).symm, (List.append_nil _).symm, rfl, .slnil, id⟩

theorem TakesMore.trans (h : TakesMore run run' asked taken)
    (h' : TakesMore run' run'' asked' taken') :
    TakesMore run run'' (asked ++ asked') (taken ++ taken') where
  trace := by rw [h'.trace, h.trace, List.append_assoc, List.map_append]
  stores := by rw [h'.stores, h.stores, List.append_assoc]
  errored := h'.errored.trans h.errored
  inOrder := h.inOrder.append h'.inOrder
  nodup hn := h'.nodup (h.nodup hn)

private theorem lease_takesMore (tx : Transaction σ ρ) (store : String) (run : Run σ) :
    ∃ asked taken, TakesMore run (endState (tx.lease store run)) asked taken := by
  by_cases hm : store ∈ run.leases.stores
  · have hheld : tx.lease store run = .ok (tx.writer store) run := by
      change (if _ then _ else _ : Leasing σ ρ _) run = _
      rw [if_pos hm]
      rfl
    rw [hheld]
    exact ⟨[], [], .refl run⟩
  · rcases tx.lease_cases store run with hl | hl | ⟨e, hl⟩
    all_goals rw [hl]
    · exact ⟨[], [], .refl run⟩
    · refine ⟨[store], [store], rfl, rfl, rfl, .refl _, fun hn => ?_⟩
      exact List.nodup_append'.mpr
        ⟨hn, List.nodup_singleton store, List.disjoint_singleton.mpr hm⟩
    · exact ⟨[store], [], rfl, (List.append_nil _).symm, rfl, List.nil_sublist _, id⟩

private theorem errorAll_errored (h : run.leases.errored = true) : tx.errorAll run = run := by
  rw [errorAll, if_pos h]

private theorem calls_takesMore (tx : Transaction σ ρ) (run : Run σ) (cs : List LeaseCall)
    (h : .errorAll ∉ cs ∨ run.leases.errored = true) :
    ∃ asked taken, TakesMore run (tx.calls run cs) asked taken := by
  induction cs generalizing run with
  | nil => exact ⟨[], [], .refl run⟩
  | cons c cs ih =>
    have hstep : ∃ asked taken, TakesMore run (tx.call run c) asked taken := by
      cases c with
      | lease store => exact tx.lease_takesMore store run
      | errorAll =>
        have herrored : run.leases.errored = true := h.resolve_left fun hn => hn (.head _)
        rw [call, errorAll_errored herrored]
        exact ⟨[], [], .refl run⟩
    obtain ⟨asked, taken, hstep⟩ := hstep
    have hrest : .errorAll ∉ cs ∨ (tx.call run c).leases.errored = true := by
      rw [hstep.errored]
      exact h.imp (fun hn hm => hn (.tail _ hm)) id
    obtain ⟨asked', taken', hrest⟩ := ih _ hrest
    exact ⟨_, _, hstep.trans hrest⟩

private theorem markedBy_of_notMem {cs : List LeaseCall} (h : .errorAll ∉ cs) :
    tx.markedBy run cs = (tx.calls run cs).leases.stores := by
  have hall : ∀ c ∈ cs, decide (c ≠ .errorAll) = true :=
    fun c hc => decide_eq_true fun he => h (he ▸ hc)
  rw [markedBy, List.takeWhile_eq_self_iff.mpr hall]

private theorem markedBy_append {before after : List LeaseCall} (h : .errorAll ∉ before) :
    tx.markedBy run (before ++ .errorAll :: after) = (tx.calls run before).leases.stores := by
  have hall : ∀ c ∈ before, decide (c ≠ .errorAll) = true :=
    fun c hc => decide_eq_true fun he => h (he ▸ hc)
  rw [markedBy, List.takeWhile_append_of_pos hall, List.takeWhile_cons_of_neg (by simp),
    List.append_nil]

/-- What has been asked for and marked by the time that an abort gives the leases back: the marks
are for the stores that were held when they were set, and what was taken later has none. -/
theorem errorAll_calls (tx : Transaction σ ρ) (s : Session σ) (cs : List LeaseCall) :
    let held := (tx.calls { session := s } cs).leases.stores
    let marked := tx.markedBy { session := s } cs
    let stopped := tx.errorAll (tx.calls { session := s } cs)
    stopped.leases.stores = held ∧ held.Nodup ∧
      ∃ asked late taken, held = marked ++ taken ∧ marked.Sublist asked ∧ taken.Sublist late ∧
        stopped.session.trace =
          s.trace ++ (asked.map .acquire ++ marked.map .errored ++ late.map .acquire) := by
  intro held marked stopped
  by_cases hm : LeaseCall.errorAll ∈ cs
  · obtain ⟨before, after, rfl, hbefore⟩ := List.eq_append_cons_of_mem hm
    obtain ⟨asked, taken, hfirst⟩ := tx.calls_takesMore { session := s } before (.inl hbefore)
    obtain ⟨-, htrace, hstores⟩ := tx.errorAll_eq _ hfirst.errored
    have herrored : (tx.errorAll (tx.calls { session := s } before)).leases.errored = true := by
      rw [errorAll, hfirst.errored]
      rfl
    obtain ⟨late, more, hlast⟩ := tx.calls_takesMore _ after (.inr herrored)
    have hcalls : tx.calls { session := s } (before ++ .errorAll :: after) =
        tx.calls (tx.errorAll (tx.calls { session := s } before)) after := List.foldl_append
    -- the abort finds the flag set
    have hstopped : stopped = tx.calls { session := s } (before ++ .errorAll :: after) :=
      errorAll_errored (by rw [hcalls, hlast.errored, herrored])
    have hmarked : marked = taken := (markedBy_append hbefore).trans hfirst.stores
    refine ⟨by rw [hstopped], ?_, asked, late, more, ?_, hmarked ▸ hfirst.inOrder,
      hlast.inOrder, ?_⟩
    · change (tx.calls _ _).leases.stores.Nodup
      rw [hcalls]
      exact hlast.nodup (hstores ▸ hfirst.nodup List.nodup_nil)
    · change (tx.calls _ _).leases.stores = _
      rw [hcalls, hlast.stores, hstores, hfirst.stores, hmarked]
      rfl
    · rw [hstopped, hcalls, hlast.trace, htrace, hfirst.trace, hfirst.stores, hmarked]
      simp
  · obtain ⟨asked, taken, hfirst⟩ := tx.calls_takesMore { session := s } cs (.inl hm)
    obtain ⟨-, htrace, hstores⟩ := tx.errorAll_eq _ hfirst.errored
    have hmarked : marked = held := markedBy_of_notMem hm
    have hheld : held = taken := hfirst.stores
    refine ⟨hstores, hfirst.nodup List.nodup_nil, asked, [], [], ?_, ?_, .slnil, ?_⟩
    · rw [hmarked, List.append_nil]
    · rw [hmarked, hheld]
      exact hfirst.inOrder
    · rw [hmarked, htrace, hfirst.trace]
      simp [held]

end Transaction

/-- How an abort ends, and what has been asked of the stores by then. What goes wrong with the
leases is reported together with the cause, which stays the root of it all. Every lease is given
back once, after all else and in the order in which they were taken; it has been marked before, and
once, if it was held when the leases were first marked, and never otherwise. -/
structure RolledBack {σ ρ : Type} (s : Session σ) (held marked : List String)
    (failures : List Error) (cause : Error) (halt : Halt ρ) (trace : List Event) : Prop where
  nodup : held.Nodup
  kept : marked <+: held
  released : ∃ before, trace = s.trace ++ (before ++ held.map .release) ∧
    (held.map .acquire).Sublist before ∧ (∀ store, .release store ∉ before) ∧
    ∀ store, before.count (.errored store) = if store ∈ marked then 1 else 0
  result : halt = .failed (if failures.isEmpty then cause else .release failures (some cause))
  root : ∀ e, halt = .failed e → e.rootCause = cause.rootCause

private theorem count_errored_acquires (asked : List String) (store : String) :
    (asked.map Event.acquire).count (.errored store) = 0 := by
  refine List.count_eq_zero.mpr fun hm => ?_
  obtain ⟨_, -, he⟩ := List.mem_map.mp hm
  cases he

private theorem count_errored_marks {marked : List String} (hn : marked.Nodup) (store : String) :
    (marked.map Event.errored).count (.errored store) = if store ∈ marked then 1 else 0 := by
  have hinj : Function.Injective Event.errored := fun _ _ => Event.errored.inj
  rw [(hn.map hinj).count]
  exact if_congr (List.mem_map_of_injective hinj) rfl rfl

/-- An abort gives back every lease that the calls before it have got, and marks all of them errored
unless one of these calls has marked some. -/
theorem Transaction.abort_after_calls {σ ρ : Type} (tx : Transaction σ ρ) (s : Session σ)
    (cs : List LeaseCall) (cause : Error) :
    let run := tx.calls { session := s } cs
    let ended := tx.abort (.failed cause) run
    RolledBack s run.leases.stores (tx.markedBy { session := s } cs)
      (errorsOf (tx.releaseAnswers (tx.errorAll run).session.world run.leases.stores)) cause
      ended.1 ended.2.session.trace := by
  intro run ended
  obtain ⟨hstores, hnodup, asked, late, taken, hheld, hasked, hlate, htrace⟩ :=
    tx.errorAll_calls s cs
  obtain ⟨hfailures, hgiven⟩ := tx.giveBack_eq (tx.errorAll run).session
    (tx.errorAll run).leases.stores
  rw [hstores] at hfailures hgiven
  have hended : ended = (Halt.withFailures
      (tx.giveBack (tx.errorAll run).session run.leases.stores).1 (.failed cause),
      { session := (tx.giveBack (tx.errorAll run).session run.leases.stores).2 }) := by
    rw [← hstores]
    rfl
  have hmarked : (tx.markedBy { session := s } cs).Nodup :=
    hnodup.sublist (hheld ▸ List.sublist_append_left _ _)
  have hreport := (reports_error (ρ := ρ) (.failed cause) (errorsOf
    (tx.releaseAnswers (tx.errorAll run).session.world run.leases.stores))).failed cause rfl
  rw [hended]
  dsimp only
  rw [hfailures, hgiven, htrace]
  obtain ⟨e, he, heq, hroot⟩ := hreport
  have he := Except.error.inj he
  refine ⟨hnodup, ⟨taken, hheld.symm⟩, ⟨_, List.append_assoc _ _ _, ?_, ?_, fun store => ?_⟩,
    ?_, ?_⟩
  · rw [hheld, List.map_append]
    exact ((hasked.map _).trans (List.sublist_append_left _ _)).append (hlate.map _)
  · simp
  · rw [List.count_append, List.count_append, count_errored_acquires, count_errored_acquires,
      count_errored_marks hmarked, Nat.zero_add, Nat.add_zero]
  · rw [he, heq]
  · intro e' he'
    rw [he, Halt.failed.injEq] at he'
    rw [← he', hroot]

/-- A store that is leased after the first mark. -/
def lateCalls : List LeaseCall := [.lease "a", .errorAll, .lease "b"]

/-- The lease of `b` is given back without a mark. -/
theorem not_abort_marks_all :
    let tx := Transaction.sql refusingB false
    let run := tx.calls { session := { heap := ∅, world := 0 } } lateCalls
    run.leases.stores = ["a", "b"] ∧
      (tx.abort (.failed (.custom "x")) run).2.session.trace =
        [.acquire "a", .errored "a", .acquire "b", .release "a", .release "b"] ∧
      ¬ ∀ store ∈ run.leases.stores,
        (tx.abort (.failed (.custom "x")) run).2.session.trace.count (.errored store) = 1 := by
  decide

end UnitOfWork
