import UnitOfWork.Proofs.Commit.Checkpoints

/-!
# Cancelled commits

The batch that is being written when a commit is cancelled is written to its end, and no other one
is begun: up to there the commit does what it would have done otherwise, and if no batch was to come
it does so to the end.
-/

namespace UnitOfWork

namespace Workspace

variable {σ ρ : Type} {tx : Transaction σ ρ} {step : σ → Event → σ} {world : σ}

private theorem flush_tracks (hs : tx.Traces step) (w : Workspace) (h : Heap) :
    let run₀ : Run σ := { session := { heap := h, world } }
    let whole := w.flush tx.uncancelled run₀
    (w.flush tx run₀ = whole ∧ tx.Checked step world whole.2.2.session.trace) ∨
    ∃ reason run, w.flush tx run₀ = (.error (.cancelled reason), w, run) ∧
      tx.Intact step world run ∧ tx.cancelReason run.session.world = some reason ∧
      ∃ e rest, e.isRequest ∧ whole.2.2.session.trace = run.session.trace ++ e :: rest := by
  intro run₀ whole
  have hstart : tx.Intact step world run₀ := ⟨rfl, nofun, rfl⟩
  have htrace : whole.2.2.session.trace =
      (endState (tx.uncancelled.writeAll w run₀)).session.trace := by
    obtain ⟨heap, hsession⟩ := flush_session tx.uncancelled w run₀
    rw [hsession]
  rw [htrace]
  rcases (Transaction.Tracks.writeAll hs w).runs run₀ hstart with
    ⟨heq, hleaves⟩ | ⟨reason, run, hstop, hintact, hreason, hrequest⟩
  · refine .inl ⟨?_, ?_⟩
    · simp only [flush, whole, heq]
    · cases hw : tx.uncancelled.writeAll w run₀ with
      | ok summary run =>
        rw [hw] at hleaves
        exact hleaves.checked
      | error halt run =>
        rw [hw] at hleaves
        exact hleaves
  · exact .inr ⟨reason, run, by rw [flush, hstop], hintact, hreason, hrequest⟩

end Workspace

section

variable {σ ρ : Type}

/-- A commit that is found to be cancelled after the events `done` gives back every lease that it
has got by then, and reports the cancellation together with what could not be given back. -/
structure EndsCancelled (tx : Transaction σ ρ) (step : σ → Event → σ) (world : σ)
    (reason : ρ) (done : List Event)
    (c : Except (Halt ρ) Summary × Workspace × Session σ) : Prop where
  trace : c.2.2.trace = done ++ ((leasedIn done).map .errored ++ (leasedIn done).map .release)
  outcome :
    let failures := errorsOf (tx.releaseAnswers
      (tx.erroredWorld (done.foldl step world) (leasedIn done)) (leasedIn done))
    c.1 = .error (if failures.isEmpty then .cancelled reason
      else .failed (.release failures (some .cancelled)))

private theorem take_takeWhile {α : Type} {p : α → Bool} {before after : List α} {a : α} {n : Nat}
    (hn : n ≤ before.length) (hbefore : ∀ b ∈ before.drop n, p b = false) (ha : p a = true) :
    (before ++ a :: after).take n ++ ((before ++ a :: after).drop n).takeWhile (!p ·) = before := by
  rw [List.take_append_of_le_length hn, List.drop_append_of_le_length hn,
    List.takeWhile_append_of_pos fun b hb => by rw [hbefore b hb]; rfl,
    List.takeWhile_cons_of_neg (by rw [ha]; decide), List.append_nil, List.take_append_drop]

variable {tx : Transaction σ ρ} {step : σ → Event → σ}

open Workspace in
/-- A commit does the same as when it is not cancelled, or it is found to be cancelled where that
one goes on to a request. -/
theorem commit_tracks (hs : tx.Traces step) (w : Workspace) (h : Heap) (world : σ) :
    let whole := w.commit tx.uncancelled { heap := h, world }
    let c := w.commit tx { heap := h, world }
    (c = whole ∧ tx.Checked step world whole.2.2.trace) ∨
      ∃ reason done e later, whole.2.2.trace = done ++ e :: later ∧ e.isRequest ∧
        tx.Checked step world done ∧ tx.cancelReason (done.foldl step world) = some reason ∧
        EndsCancelled tx step world reason done c := by
  intro whole c
  cases hr : w.ready? h with
  | none =>
    have hempty : whole.2.2.trace = [] :=
      commit_trace_notReady (s := { heap := h, world }) tx.uncancelled hr
    refine .inl ⟨?_, hempty ▸ nofun⟩
    simp only [c, whole, Workspace.commit]
    split
    · rfl
    · next hb =>
      cases hc : checkReady (w, h) with
      | ok u s' => cases hr.symm.trans (ready?_eq_some.mpr ⟨Bool.eq_false_iff.mpr hb, hc⟩)
      | error e s' => rfl
  | some ready =>
    obtain ⟨w₁, h₁⟩ := ready
    let run₀ : Run σ := { session := { heap := h₁, world } }
    obtain ⟨log, hcourse⟩ := w₁.flush_course hs.confined.uncancelled run₀
    obtain ⟨-, -, hleases⟩ := hcourse.disciplined hs.confined.uncancelled rfl
    obtain ⟨hend, -⟩ := commit_ending tx.uncancelled world hr (obtained log) hleases
    rcases w₁.flush_tracks hs h₁ with
      ⟨hsame, hchecked⟩ | ⟨reason, run, hstop, hintact, hreason, e, later, he, htrace⟩
    · refine .inl ⟨?_, ?_⟩
      · obtain ⟨hb, hc⟩ := ready?_eq_some.mp hr
        simp only [c, whole, Workspace.commit, hb, hc, Bool.false_eq_true, if_false]
        rw [hsame]
        simp only [Transaction.uncancelled_conclude, Transaction.uncancelled_abort]
      · rw [hend]
        refine hchecked.append fun e he => ?_
        rcases List.mem_append.mp he with he | he
        all_goals
          obtain ⟨store, -, rfl⟩ := List.mem_map.mp he
          rfl
    · rw [htrace, List.append_assoc] at hend
      refine .inr ⟨reason, run.session.trace, e, _, hend, he, hintact.checked,
        hintact.replayed ▸ hreason, ?_⟩
      have hheld : (w₁.flush tx run₀).2.2.leases = { stores := leasedIn run.session.trace } := by
        rw [hstop, hintact.leases]
      obtain ⟨hended, hreports⟩ := commit_ending tx world hr _ hheld
      rw [hstop] at hended hreports
      refine ⟨hended, ?_⟩
      rw [← hintact.replayed]
      exact hreports.cancelled reason rfl

/-- A commit that is cancelled while a statement is run, compared with the same commit when it is
not cancelled. If that one requests nothing after the statement, both do the same. Otherwise the
cancelled commit does the same up to the next request, gives back what it holds by then, and reports
the cancellation. -/
theorem commit_cancelled (hs : tx.Traces step) (w : Workspace) (h : Heap) (world : σ) (n : Nat)
    (e : Event) (reason : ρ) :
    let whole := w.commit tx.uncancelled { heap := h, world }
    let c := w.commit tx { heap := h, world }
    let events := whole.2.2.trace
    let reason? := fun i => tx.cancelReason ((events.take i).foldl step world)
    events[n]? = some e → e.statement?.isSome → (∀ i ≤ n, reason? i = none) →
    (∀ i ≤ events.length, n < i → reason? i = some reason) →
    ((∀ e' ∈ events.drop (n + 1), e'.isRequest = false) → c = whole) ∧
    ((∃ e' ∈ events.drop (n + 1), e'.isRequest) →
      EndsCancelled tx step world reason
        (events.take (n + 1) ++ (events.drop (n + 1)).takeWhile (!·.isRequest)) c) := by
  intro whole c events reason? hn he hbefore hafter
  rcases commit_tracks hs w h world with
    ⟨hsame, hchecked⟩ | ⟨reason', done, e', later, hevents, hrequest, hchecked, hset, hends⟩
  · refine ⟨fun _ => hsame, ?_⟩
    rintro ⟨e', hm, hrequest⟩
    have hset : ∀ i, n < i → i ≤ events.length → reason? i ≠ none := fun i hi hle => by
      rw [hafter i hle hi]
      nofun
    rw [hchecked.not_isRequest hn he hset e' hm] at hrequest
    cases hrequest
  · replace hevents : events = done ++ e' :: later := hevents
    have htake : ∀ i ≤ done.length, events.take i = done.take i := fun i hi => by
      rw [← List.take_append_of_le_length hi, ← hevents]
    have hreason : reason? done.length = some reason' := by
      dsimp only [reason?]
      rw [htake _ (Nat.le_refl _), List.take_length, hset]
    have hle : done.length ≤ events.length := by
      have hlength := congrArg List.length hevents
      rw [List.length_append] at hlength
      exact hlength ▸ Nat.le_add_right _ _
    have hpassed : n < done.length := by
      by_contra hge
      rw [hbefore done.length (Nat.le_of_not_lt hge)] at hreason
      cases hreason
    obtain rfl : reason' = reason :=
      Option.some.inj (hreason.symm.trans (hafter done.length hle hpassed))
    have hquiet : ∀ e' ∈ done.drop (n + 1), e'.isRequest = false := by
      refine hchecked.not_isRequest ?_ he fun i hi hi' => ?_
      · rw [← List.getElem?_append_left hpassed, ← hevents]
        exact hn
      · rw [← htake i hi']
        exact fun hnone => by cases hnone.symm.trans (hafter i (Nat.le_trans hi' hle) hi)
    have hkept : events.take (n + 1) ++ (events.drop (n + 1)).takeWhile (!·.isRequest) = done := by
      rw [hevents]
      exact take_takeWhile hpassed hquiet hrequest
    rw [hkept]
    refine ⟨fun hnone => ?_, fun _ => hends⟩
    have hm : e' ∈ events.drop (n + 1) := by
      rw [hevents, List.drop_append_of_le_length hpassed]
      exact List.mem_append_right _ List.mem_cons_self
    rw [hnone e' hm] at hrequest
    cases hrequest

end

/-! Two items in two stores, each with a change. The world counts the statements, and the time is
over after some of them. -/

def affirming (store : String) : Connection Nat where
  store
  query _ _ n := (.ok none, n + 1)
  execute _ _ n := (.ok 1, n + 1)

def timedOut (limit : Nat) : Transaction Nat :=
  { Transaction.sql affirming false with
    cancelReason := fun n => if n < limit then none else some .timeout }

def timedCommit (tx : Transaction Nat) : Except Halt Summary × Workspace × Session Nat :=
  trackedItems.1.commit tx { heap := trackedItems.2, world := 0 }

def retitle (store : String) (r : RecordId) : Event :=
  .execute store (some r)
    (.update store [("title", .text "new")] { columns := ["id"], values := [.bigInt 1] })

private theorem timedOut_traces (limit : Nat) :
    (timedOut limit).Traces ((timedOut limit).replayEvent affirming) := by
  have hw : (timedOut limit).WritesBy affirming fun _ => false := ⟨fun _ => rfl, fun _ => rfl⟩
  exact hw.traces

/-- If the time is over after the first update, there is no second one; if it is over after the
second one, nothing is changed by that. -/
theorem commit_cancelled_items :
    ((timedCommit (timedOut 1)).1 = .error (.cancelled .timeout) ∧
      (timedCommit (timedOut 1)).2.2.trace = [.acquire "a", .update "a" [⟨0⟩], retitle "a" ⟨0⟩,
        .errored "a", .release "a"]) ∧
      timedCommit (timedOut 2) = timedCommit (timedOut 2).uncancelled := by
  have hfirst := commit_cancelled (timedOut_traces 1) trackedItems.1 trackedItems.2 0 2
    (retitle "a" ⟨0⟩) .timeout (by decide +kernel) rfl (by decide +kernel) (by decide +kernel)
  have hsecond := commit_cancelled (timedOut_traces 2) trackedItems.1 trackedItems.2 0 5
    (retitle "b" ⟨1⟩) .timeout (by decide +kernel) rfl (by decide +kernel) (by decide +kernel)
  have hends := hfirst.2 (by decide +kernel)
  refine ⟨⟨hends.outcome.trans ?_, hends.trace.trans ?_⟩, hsecond.1 (by decide +kernel)⟩
  · exact congrArg Except.error (if_pos (by decide +kernel))
  · decide +kernel

end UnitOfWork
