import UnitOfWork.Commit.Lease

/-!
# Triples for actions that may stop

An action ends with a result or stops early, and keeps what it has done either way. A triple says
what holds of the state in both cases; every phase of a commit is described by one.
-/

namespace UnitOfWork

/-- From a state that satisfies `P` the action returns some `a` in a state that satisfies `Q a`,
or it stops with some `e` in a state that satisfies `E e`. -/
def Triple {ε ρ α : Type} (P : ρ → Prop) (x : EStateM ε ρ α) (Q : α → ρ → Prop)
    (E : ε → ρ → Prop) : Prop :=
  ∀ s, P s →
    match x s with
    | .ok a s' => Q a s'
    | .error e s' => E e s'

/-- The state in which an action has ended. -/
def endState {ε ρ α : Type} : EStateM.Result ε ρ α → ρ
  | .ok _ s => s
  | .error _ s => s

/-- The action leaves states with `I` in states with `I`, however it ends. -/
def Preserves {ε ρ α : Type} (I : ρ → Prop) (x : EStateM ε ρ α) : Prop :=
  Triple I x (fun _ => I) fun _ => I

namespace Triple

variable {ε ρ α β : Type} {P P' : ρ → Prop} {Q Q' : α → ρ → Prop} {E E' : ε → ρ → Prop}

theorem ok {x : EStateM ε ρ α} {s s' : ρ} {a : α} (h : Triple P x Q E) (hs : P s)
    (hx : x s = .ok a s') : Q a s' := by
  have := h s hs
  rwa [hx] at this

theorem endState {R : ρ → Prop} {x : EStateM ε ρ α} {s : ρ} (h : Triple P x (fun _ => R) fun _ => R)
    (hs : P s) : R (endState (x s)) := by
  have hx := h s hs
  cases hr : x s <;> rwa [hr] at hx

theorem pure {a : α} (h : ∀ s, P s → Q a s) : Triple P (Pure.pure a : EStateM ε ρ α) Q E := h

theorem throw {e : ε} (h : ∀ s, P s → E e s) :
    Triple P (MonadExcept.throw e : EStateM ε ρ α) Q E := h

theorem conseq {x : EStateM ε ρ α} (h : Triple P x Q E) (hP : ∀ s, P' s → P s)
    (hQ : ∀ a s, Q a s → Q' a s) (hE : ∀ e s, E e s → E' e s) : Triple P' x Q' E' := by
  intro s hs
  have hx := h s (hP s hs)
  cases hr : x s with
  | ok a s' => rw [hr] at hx; exact hQ a s' hx
  | error e s' => rw [hr] at hx; exact hE e s' hx

theorem bind {R : β → ρ → Prop} {x : EStateM ε ρ β} {f : β → EStateM ε ρ α}
    (hx : Triple P x R E) (hf : ∀ b, Triple (R b) (f b) Q E) : Triple P (x >>= f) Q E := by
  intro s hs
  have h := hx s hs
  change match EStateM.bind x f s with
    | .ok a s' => Q a s'
    | .error e s' => E e s'
  rw [EStateM.bind]
  cases hr : x s with
  | ok b s' => rw [hr] at h; exact hf b s' h
  | error e s' => rw [hr] at h; exact h

theorem starting {x : EStateM ε ρ α} {s : ρ} (h : Triple P x Q E) (hs : P s) :
    Triple (· = s) x Q E := by
  intro s hs
  subst hs
  exact h _ hs

theorem of_starting {x : EStateM ε ρ α} (h : ∀ s, P s → Triple (· = s) x Q E) : Triple P x Q E :=
  fun s hs => h s hs s rfl

theorem result (x : EStateM ε ρ α) (s : ρ) :
    Triple (· = s) x (fun a s' => x s = .ok a s') fun e s' => x s = .error e s' := by
  intro s hs
  subst hs
  cases hx : x _ <;> rfl

theorem fixed (x : EStateM ε ρ α) {A : Prop} :
    Triple (fun _ => A) x (fun _ _ => A) fun _ _ => True := by
  intro s hs
  cases x s with
  | ok a s' => exact hs
  | error e s' => trivial

theorem assuming {x : EStateM ε ρ α} {A : Prop} (h : A → Triple P x Q E) :
    Triple (fun s => P s ∧ A) x Q E :=
  fun s hs => h hs.2 s hs.1

theorem get_bind {f : ρ → EStateM ε ρ α} (hf : ∀ s, P s → Triple (· = s) (f s) Q E) :
    Triple P (get >>= f) Q E :=
  fun s hs => hf s hs s rfl

theorem set_bind {s : ρ} {f : PUnit → EStateM ε ρ α} (hf : Triple (· = s) (f ⟨⟩) Q E) :
    Triple P (set s >>= f) Q E :=
  fun _ _ => hf s rfl

theorem and {x : EStateM ε ρ α} (h : Triple P x Q E) (h' : Triple P' x Q' E') :
    Triple (fun s => P s ∧ P' s) x (fun a s => Q a s ∧ Q' a s) fun e s => E e s ∧ E' e s := by
  intro s hs
  have h1 := h s hs.1
  have h2 := h' s hs.2
  cases hr : x s with
  | ok a s' => rw [hr] at h1 h2; exact ⟨h1, h2⟩
  | error e s' => rw [hr] at h1 h2; exact ⟨h1, h2⟩

/-- A first action whose outcome from the state `s` is remembered. -/
theorem bind_result {R : β → ρ → Prop} {E' : ε → ρ → Prop} {x : EStateM ε ρ β}
    {f : β → EStateM ε ρ α} {s : ρ} (hx : Triple (· = s) x R E')
    (herror : ∀ e s', x s = .error e s' → E' e s' → E e s')
    (hok : ∀ b s', x s = .ok b s' → R b s' → Triple (· = s') (f b) Q E) :
    Triple (· = s) (x >>= f) Q E := by
  have hboth := (result x s).and hx
  apply bind (hboth.conseq (fun _ hs => ⟨hs, hs⟩) (fun _ _ h => h) ?_)
  · intro b
    exact of_starting fun s' h => hok b s' h.1 h.2
  · intro e s' h
    exact herror e s' h.1 h.2

/-- A walk through a list: `I l` holds while `l` is still to come. -/
theorem forM_of_mem {I : List β → ρ → Prop} {f : β → EStateM ε ρ PUnit} {l : List β}
    (step : ∀ b ∈ l, ∀ rest, Triple (I (b :: rest)) (f b) (fun _ => I rest) E) :
    Triple (I l) (l.forM f) (fun _ => I []) E := by
  induction l with
  | nil => exact pure fun _ h => h
  | cons b rest ih =>
    obtain ⟨hb, hrest⟩ := List.forall_mem_cons.mp step
    change Triple _ (f b >>= fun _ => rest.forM f) _ _
    exact bind (hb rest) fun _ => ih hrest

theorem forM {I : List β → ρ → Prop} {f : β → EStateM ε ρ PUnit} (l : List β)
    (step : ∀ b rest, Triple (I (b :: rest)) (f b) (fun _ => I rest) E) :
    Triple (I l) (l.forM f) (fun _ => I []) E :=
  forM_of_mem fun b _ => step b

theorem mapM_of_mem {I : List β → ρ → Prop} {f : β → EStateM ε ρ α} {l : List β}
    (step : ∀ b ∈ l, ∀ rest, Triple (I (b :: rest)) (f b) (fun _ => I rest) E) :
    Triple (I l) (l.mapM f) (fun _ => I []) E := by
  induction l with
  | nil => exact pure fun _ h => h
  | cons b rest ih =>
    obtain ⟨hb, hrest⟩ := List.forall_mem_cons.mp step
    rw [List.mapM_cons]
    exact bind (hb rest) fun _ => bind (ih hrest) fun _ => pure fun _ h => h

end Triple

theorem preserves_iff {ε ρ α : Type} {I : ρ → Prop} {x : EStateM ε ρ α} :
    Preserves I x ↔ ∀ s, I s → I (endState (x s)) := by
  apply forall₂_congr
  intro s _
  cases x s <;> rfl

namespace Preserves

variable {ε ρ α β : Type} {I : ρ → Prop}

theorem bind {x : EStateM ε ρ β} {f : β → EStateM ε ρ α} (hx : Preserves I x)
    (hf : ∀ b, Preserves I (f b)) : Preserves I (x >>= f) :=
  Triple.bind hx hf

theorem pure (a : α) : Preserves I (Pure.pure a : EStateM ε ρ α) := Triple.pure fun _ h => h

theorem forM {f : β → EStateM ε ρ PUnit} (l : List β) (step : ∀ b, Preserves I (f b)) :
    Preserves I (l.forM f) :=
  Triple.forM (I := fun _ => I) l fun b _ => step b

theorem mapM_of_mem {f : β → EStateM ε ρ α} {l : List β} (step : ∀ b ∈ l, Preserves I (f b)) :
    Preserves I (l.mapM f) :=
  Triple.mapM_of_mem (I := fun _ => I) fun b hb _ => step b hb

theorem mapM {f : β → EStateM ε ρ α} (l : List β) (step : ∀ b, Preserves I (f b)) :
    Preserves I (l.mapM f) :=
  mapM_of_mem fun b _ => step b

end Preserves

end UnitOfWork
