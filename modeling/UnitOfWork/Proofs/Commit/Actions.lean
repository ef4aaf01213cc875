import UnitOfWork.Commit
import UnitOfWork.Proofs.Triple

/-!
# Rules for the actions of a commit

One rule for each basic action. Between two statements a commit only takes leases and notes what it
is about to hand to a writer; such quiet steps change no record, so that a property of the records
and of the statements survives them.
-/

namespace UnitOfWork

namespace Event

/-- The statement that is run, with the record that it is run for. -/
def statement? : Event → Option (Option RecordId × Statement)
  | query _ r s => some (r, s)
  | execute _ r s => some (r, s)
  | _ => none

/-- The record that is inserted. -/
def inserted? (e : Event) : Option RecordId :=
  match e.statement? with
  | some (some r, .insert ..) => some r
  | _ => none

end Event

/-- The records that have been inserted, the first one first. -/
def insertedIn (trace : List Event) : List RecordId := trace.filterMap Event.inserted?

theorem insertedIn_append (trace events : List Event) :
    insertedIn (trace ++ events) = insertedIn trace ++ insertedIn events :=
  List.filterMap_append

theorem insertedIn_snoc_other {trace : List Event} {e : Event} (he : e.inserted? = none) :
    insertedIn (trace ++ [e]) = insertedIn trace := by
  rw [insertedIn_append]
  simp [insertedIn, he]

theorem Event.inserted?_of_statement? {e : Event} (he : e.statement? = none) :
    e.inserted? = none := by
  rw [inserted?, he]

namespace Triple

variable {σ ρ α β : Type} {P : Session σ → Prop} {Q : α → Session σ → Prop}
  {E : Halt ρ → Session σ → Prop}

theorem reading {f : Heap → Except Error α} (hok : ∀ s a, P s → f s.heap = .ok a → Q a s)
    (herror : ∀ s e, P s → f s.heap = .error e → E (.failed e) s) :
    Triple P (Working.reading f) Q E := by
  intro s hs
  rw [Working.reading]
  cases hf : f s.heap with
  | ok a => exact hok s a hs hf
  | error e => exact herror s e hs hf

theorem reading_bind {s : Session σ} {f : Heap → Except Error β} {b : β} {x : β → Working σ ρ α}
    (hf : f s.heap = .ok b) (hx : Triple (· = s) (x b) Q E) :
    Triple (· = s) (Working.reading f >>= x) Q E := by
  apply bind (R := fun b' s' => s' = s ∧ b' = b)
  · apply reading
    · intro s' b' hs hb'
      subst hs
      exact ⟨rfl, Except.ok.inj (hb'.symm.trans hf)⟩
    · intro s' e hs he
      subst hs
      rw [hf] at he
      cases he
  · intro b'
    apply assuming
    intro hb'
    exact hb' ▸ hx

theorem updating {f : Heap → Heap} {Q : Unit → Session σ → Prop}
    (h : ∀ s, P s → Q () { s with heap := f s.heap }) : Triple P (Working.updating f) Q E :=
  h

theorem note {e : Event} {Q : Unit → Session σ → Prop} (h : ∀ s, P s → Q () (s.note e)) :
    Triple P (Working.note e) Q E :=
  h

theorem fail {e : Error} (h : ∀ s, P s → E (.failed e) s) :
    Triple P (Working.fail e : Working σ ρ α) Q E :=
  h

theorem ask {e : Event} {f : σ → Except (Halt ρ) α × σ}
    (hok : ∀ s a, P s → (f s.world).1 = .ok a →
      Q a { s.note e with world := (f s.world).2 })
    (herror : ∀ s halt, P s → (f s.world).1 = .error halt →
      E halt { s.note e with world := (f s.world).2 }) :
    Triple P (Working.ask e f) Q E := by
  intro s hs
  have hok' := hok s
  have herror' := herror s
  revert hok' herror'
  simp only [Working.ask, Session.note]
  generalize f s.world = answer
  obtain ⟨result, world⟩ := answer
  intro hok' herror'
  cases result with
  | ok a => exact hok' a hs rfl
  | error halt => exact herror' halt hs rfl

theorem diagnosed {t : RecordType} {r : Option RecordId} {st : Statement} {x : Working σ ρ α}
    {E : Session σ → Prop} (h : Triple P x Q fun _ => E) :
    Triple P (Connection.diagnosed t r st x) Q fun _ => E := by
  intro s hs
  have hx := h s hs
  rw [Connection.diagnosed]
  cases hres : x s with
  | ok a s' => rw [hres] at hx; exact hx
  | error e s' =>
    rw [hres] at hx
    cases e <;> exact hx

theorem during {x : Working σ ρ α} (h : Triple P x Q E) :
    Triple (fun run => P run.session) (Leasing.during x) (fun a run => Q a run.session)
      fun e run => E e run.session := by
  intro run hrun
  have hx := h run.session hrun
  rw [Leasing.during]
  cases hres : x run.session with
  | ok a s => rw [hres] at hx; exact hx
  | error e s => rw [hres] at hx; exact hx

end Triple

theorem Leasing.during_bind {σ ρ α β : Type} (x : Working σ ρ α) (f : α → Working σ ρ β) :
    during (x >>= f) = during x >>= fun a => during (f a) := by
  funext run
  change during (EStateM.bind x f) run = EStateM.bind _ _ run
  simp only [during, EStateM.bind]
  cases x run.session <;> rfl

namespace Transaction

variable {σ ρ : Type}

/-- One step between statements: something is noted, or a store is leased. -/
inductive Quiet (tx : Transaction σ ρ) (s : Session σ) : Session σ → Prop
  | insert (type : String) (records : List RecordId) : Quiet tx s (s.note (.insert type records))
  | update (type : String) (records : List RecordId) : Quiet tx s (s.note (.update type records))
  | delete (type : String) (records : List RecordId) : Quiet tx s (s.note (.delete type records))
  | acquire (store : String) :
    Quiet tx s { s.note (.acquire store) with world := (tx.acquire store s.world).2 }

/-- A property that survives every quiet step. -/
def Steady (tx : Transaction σ ρ) (P : Session σ → Prop) : Prop :=
  ∀ s s', tx.Quiet s s' → P s → P s'

theorem Quiet.heap {tx : Transaction σ ρ} {s s' : Session σ} (q : tx.Quiet s s') :
    s'.heap = s.heap := by
  cases q <;> rfl

theorem Quiet.trace {tx : Transaction σ ρ} {s s' : Session σ} (q : tx.Quiet s s') :
    ∃ e : Event, e.statement? = none ∧ s'.trace = s.trace ++ [e] := by
  cases q <;> exact ⟨_, rfl, rfl⟩

/-- The transaction is not cancelled and every store can be leased. -/
structure Willing (tx : Transaction σ ρ) : Prop where
  cancelReason : ∀ world, tx.cancelReason world = none
  acquire : ∀ store world, (tx.acquire store world).1 = .ok ()

variable {tx : Transaction σ ρ} {α : Type} {P : Session σ → Prop} {Q : α → Session σ → Prop}
  {E : Halt ρ → Session σ → Prop}

/-- A store is leased unless it already is. If that is refused, it is the last thing asked. -/
theorem lease_spec {store : String}
    (hleased : ∀ s, P s →
      P { s.note (.acquire store) with world := (tx.acquire store s.world).2 })
    (hrefused : ∀ s e, P s → (tx.acquire store s.world).1 = .error e →
      E (.failed e) { s.note (.acquire store) with world := (tx.acquire store s.world).2 }) :
    Triple (fun run => P run.session) (tx.lease store)
      (fun w run => w = tx.writer store ∧ P run.session) fun e run => E e run.session := by
  rw [lease]
  apply Triple.get_bind
  intro run hrun
  split
  · exact Triple.pure fun s hs => ⟨rfl, hs ▸ hrun⟩
  · refine Triple.starting (P := fun run => P run.session) ?_ hrun
    refine (Triple.during (Triple.ask (P := P) (Q := fun _ => P) (E := E) ?_ ?_)).bind ?_
    · intro s a hs _
      have hsteady := hleased s hs
      rcases hacquire : tx.acquire store s.world with ⟨e | ⟨⟩, world⟩
      · rwa [hacquire] at hsteady
      · rwa [hacquire] at hsteady
    · intro s halt hs herror
      have hstop := hrefused s
      rcases hacquire : tx.acquire store s.world with ⟨e | ⟨⟩, world⟩
      · rw [hacquire] at herror hstop
        cases herror
        exact hstop e hs rfl
      · rw [hacquire] at herror
        cases herror
    · intro _ run hrun
      exact ⟨rfl, hrun⟩

/-- A batch is handed to the writer of its store once that is leased and the batch announced; a
commit may stop before because it is cancelled or because the store cannot be leased. -/
theorem writing_spec (P' : Session σ → Prop) {b : Batch} {e : Event}
    {x : Writer σ ρ → Working σ ρ α}
    (hleased : ∀ s, P s →
      P { s.note (.acquire b.type.store) with world := (tx.acquire b.type.store s.world).2 })
    (he : ∀ s, P s → P' (s.note e))
    (hcancelled : ∀ s reason, P s → tx.cancelReason s.world = some reason → E (.cancelled reason) s)
    (hrefused : ∀ s e, P s → (tx.acquire b.type.store s.world).1 = .error e →
      E (.failed e)
        { s.note (.acquire b.type.store) with world := (tx.acquire b.type.store s.world).2 })
    (hx : Triple P' (x (tx.writer b.type.store)) Q E) :
    Triple (fun run => P run.session) (tx.writing b e x) (fun a run => Q a run.session)
      fun e run => E e run.session := by
  rw [writing]
  have hcheck : Triple (fun run : Run σ => P run.session) tx.checkpoint
      (fun _ run => P run.session) fun e run => E e run.session := by
    intro run hrun
    rw [checkpoint]
    cases hc : tx.cancelReason run.session.world with
    | none => exact hrun
    | some reason => exact hcancelled _ reason hrun hc
  refine hcheck.bind fun _ => (lease_spec hleased hrefused).bind fun w => ?_
  refine Triple.conseq (P := fun run => w = tx.writer b.type.store ∧ P run.session) ?_
    (fun _ h => h) (fun _ _ h => h) fun _ _ h => h
  intro run ⟨hw, hrun⟩
  subst hw
  have hnote : Triple P (Working.note e) (fun _ => P') E := Triple.note he
  exact Triple.during (hnote.bind fun _ => hx) run hrun

theorem writing_announced (P' : Session σ → Prop) {b : Batch} {e : Event}
    {x : Writer σ ρ → Working σ ρ α} (hP : tx.Steady P) (he : ∀ s, P s → P' (s.note e))
    (hstop : ¬ tx.Willing → ∀ e s, P s → E e s) (hx : Triple P' (x (tx.writer b.type.store)) Q E) :
    Triple (fun run => P run.session) (tx.writing b e x) (fun a run => Q a run.session)
      fun e run => E e run.session := by
  apply writing_spec P' (fun s hs => hP s _ (.acquire b.type.store) hs) he _ _ hx
  · intro s reason hs hc
    refine hstop (fun hwilling => ?_) _ _ hs
    rw [hwilling.cancelReason] at hc
    cases hc
  · intro s e hs herror
    refine hstop (fun hwilling => ?_) _ _ (hP s _ (.acquire b.type.store) hs)
    rw [hwilling.acquire] at herror
    cases herror

theorem writing_triple {b : Batch} {e : Event} {x : Writer σ ρ → Working σ ρ α} (hP : tx.Steady P)
    (he : ∀ s, tx.Quiet s (s.note e)) (hstop : ¬ tx.Willing → ∀ e s, P s → E e s)
    (hx : Triple P (x (tx.writer b.type.store)) Q E) :
    Triple (fun run => P run.session) (tx.writing b e x) (fun a run => Q a run.session)
      fun e run => E e run.session :=
  writing_announced P hP (fun s hs => hP s _ (he s) hs) hstop hx

end Transaction

end UnitOfWork
