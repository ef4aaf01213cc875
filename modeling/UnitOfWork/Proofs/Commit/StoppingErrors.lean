import UnitOfWork.Proofs.Commit.SqlWriter
import UnitOfWork.Proofs.Sql.RecordFaults
import UnitOfWork.Proofs.Tracking.Outcomes
import UnitOfWork.Proofs.Tracking.Settling

/-!
# What a commit may stop with

Only the rounds of inserts tell of unresolved dependencies. Over stores that answer every statement
no other step of a commit does: neither the check that precedes the writing, nor a statement that
cannot be built, nor an update that finds no row, nor the settling.
-/

namespace UnitOfWork

/-- The error tells of unresolved dependencies, alone or as what came before failures to give stores
back. -/
def Error.isUnresolved : Error → Bool
  | unresolvedDependencies .. | release _ (some (unresolvedDependencies ..)) => true
  | _ => false

def Halt.isUnresolved {ρ : Type} : Halt ρ → Bool
  | failed e => e.isUnresolved
  | cancelled _ | panicked _ => false

private theorem Error.isUnresolved_decorate (e : Error) (sql : Option String) (type : String)
    (record : Option String) : (e.decorate sql type record).isUnresolved = e.isUnresolved := by
  cases e <;> rfl

theorem Halt.isUnresolved_withFailures {ρ : Type} {halt : Halt ρ} (hh : halt.isUnresolved = false)
    (failures : List Error) : (halt.withFailures failures).isUnresolved = false := by
  simp only [withFailures]
  split
  · exact hh
  · cases halt with
    | failed e => cases e <;> first | rfl | cases hh
    | cancelled _ | panicked _ => rfl

/-- The computation does not fail by unresolved dependencies. -/
def Resolved {α : Type} (x : Except Error α) : Prop := ∀ e, x = .error e → e.isUnresolved = false

namespace Resolved

variable {α β : Type}

private theorem ok (a : α) : Resolved (.ok a) := fun _ h => nomatch h

private theorem error {e : Error} (he : e.isUnresolved = false) :
    Resolved (.error e : Except Error α) := by
  intro e' h
  exact Except.error.inj h ▸ he

theorem bind {x : Except Error α} {f : α → Except Error β} (hx : Resolved x)
    (hf : ∀ a, Resolved (f a)) : Resolved (x >>= f) := by
  cases x with
  | error e => exact error (hx e rfl)
  | ok a => exact hf a

end Resolved

private theorem BlamesRecords.resolved {α : Type} {x : Except Error α} (hx : BlamesRecords x) :
    Resolved x := by
  intro e he
  have hfault := hx e he
  cases e <;> first | rfl | cases hfault

namespace Heap

variable (h : Heap)

private theorem fileKey?_resolved (kind : KeyKind) (r : RecordId) :
    Resolved (h.fileKey? kind r) := by
  rw [fileKey?]
  split
  · exact .ok _
  · split
    · exact .ok _
    · exact .error rfl

private theorem fileKey_resolved (kind : KeyKind) (r : RecordId) : Resolved (h.fileKey kind r) := by
  refine (h.fileKey?_resolved kind r).bind fun found => ?_
  cases found with
  | some key => exact .ok key
  | none => exact .error rfl

end Heap

/-- Whatever stops the action, it is none of the errors that are meant. -/
def Never {ε ρ α : Type} (bad : ε → Bool) (x : EStateM ε ρ α) : Prop :=
  Triple (fun _ => True) x (fun _ _ => True) fun e _ => bad e = false

namespace Never

variable {ε ρ α β : Type} {bad : ε → Bool}

theorem pure (a : α) : Never bad (Pure.pure a : EStateM ε ρ α) := Triple.pure fun _ _ => trivial

theorem throw {e : ε} (he : bad e = false) : Never bad (MonadExcept.throw e : EStateM ε ρ α) :=
  Triple.throw fun _ _ => he

theorem bind {x : EStateM ε ρ β} {f : β → EStateM ε ρ α} (hx : Never bad x)
    (hf : ∀ b, Never bad (f b)) : Never bad (x >>= f) :=
  Triple.bind hx hf

private theorem get_bind {f : ρ → EStateM ε ρ α} (hf : ∀ s, Never bad (f s)) :
    Never bad (get >>= f) :=
  Triple.get_bind fun s _ => (hf s).starting trivial

private theorem forM {f : β → EStateM ε ρ PUnit} (hf : ∀ b, Never bad (f b)) (l : List β) :
    Never bad (l.forM f) :=
  Triple.forM (I := fun _ _ => True) l fun b _ => hf b

theorem mapM {f : β → EStateM ε ρ α} (hf : ∀ b, Never bad (f b)) (l : List β) :
    Never bad (l.mapM f) :=
  Triple.mapM_of_mem (I := fun _ _ => True) fun b _ _ => hf b

end Never

namespace Registry

variable {kind : KeyKind}

private theorem track_never (r : RecordId) (importing : Bool) :
    Never Error.isUnresolved (track r importing : Tracking (Registry kind) RecordId) := by
  rintro ⟨g, h⟩ -
  simp only [track, onBucket, Tracking.within]
  cases hres : Bucket.track kind r importing (g.bucket (h.get r).type, h) with
  | ok a s => trivial
  | error e s => exact h.fileKey_resolved kind r e (Bucket.track_error hres)

theorem checkReady_never :
    Never Error.isUnresolved (checkReady : Tracking (Registry kind) Unit) :=
  checkReady_triple (fun _ _ r _ => track_never r false) fun _ _ _ _ => rfl

theorem settle_never (purge : Bool) :
    Never Error.isUnresolved (settle purge : Tracking (Registry kind) Unit) := by
  rintro ⟨g, h⟩ -
  cases hres : settle purge (g, h) with
  | ok u s => trivial
  | error e s =>
    obtain ⟨name, b, -, r, -, hfile⟩ := settle_error hres
    exact h.fileKey_resolved kind r e hfile

end Registry

namespace Workspace

private theorem onRegistry_never {α : Type} {kind : KeyKind} {x : Tracking (Registry kind) α}
    (hx : Never Error.isUnresolved x) : Never Error.isUnresolved (onRegistry kind x) := by
  refine Triple.of_starting fun s _ => onRegistry_triple ?_
  exact Triple.starting hx trivial

theorem checkReady_never : Never Error.isUnresolved checkReady :=
  .forM (fun _ => onRegistry_never Registry.checkReady_never) _

theorem settle_never : Never Error.isUnresolved settle :=
  .get_bind fun _ => .forM (fun _ => onRegistry_never (Registry.settle_never _)) _

end Workspace

namespace Working

variable {σ ρ α : Type}

private theorem reading_never {f : Heap → Except Error α} (hf : ∀ h, Resolved (f h)) :
    Never Halt.isUnresolved (reading f : Working σ ρ α) :=
  Triple.reading (fun _ _ _ _ => trivial) fun s e _ he => hf s.heap e he

private theorem updating_never (f : Heap → Heap) :
    Never Halt.isUnresolved (updating f : Working σ ρ Unit) :=
  Triple.updating fun _ _ => trivial

private theorem ask_never {e : Event} {f : σ → Except (Halt ρ) α × σ}
    (hf : ∀ world, (f world).1.isOk) :
    Never Halt.isUnresolved (ask e f) := by
  refine Triple.ask (fun _ _ _ _ => trivial) fun s halt _ he => ?_
  have hok := hf s.world
  rw [he] at hok
  cases hok

end Working

namespace Connection

variable {σ ρ α : Type} {c : Connection σ ρ}

/-- The store answers every statement. -/
structure AnswersAll (c : Connection σ ρ) : Prop where
  query : ∀ sql params world, (c.query sql params world).1.isOk
  execute : ∀ sql params world, (c.execute sql params world).1.isOk

private theorem diagnosed_never {t : RecordType} {r : Option RecordId} {st : Statement}
    {x : Working σ ρ α}
    (hx : Never Halt.isUnresolved x) : Never Halt.isUnresolved (diagnosed t r st x) := by
  intro s _
  have hs := hx s trivial
  rw [diagnosed]
  cases hres : x s with
  | ok a s' => trivial
  | error halt s' =>
    rw [hres] at hs
    cases halt with
    | failed e => exact (e.isUnresolved_decorate ..).trans hs
    | cancelled _ | panicked _ => rfl

private theorem AnswersAll.fetch (hc : c.AnswersAll) (t : RecordType) (r : RecordId)
    (st : Statement) :
    Never Halt.isUnresolved (c.fetch t r st) :=
  diagnosed_never (Working.ask_never fun _ => hc.query ..)

private theorem AnswersAll.perform (hc : c.AnswersAll) (t : RecordType) (r : Option RecordId)
    (st : Statement) : Never Halt.isUnresolved (c.perform t r st) :=
  diagnosed_never (Working.ask_never fun _ => hc.execute ..)

private theorem AnswersAll.fetchRow (hc : c.AnswersAll) (t : RecordType) (r : RecordId)
    (st : Statement) :
    Never Halt.isUnresolved (c.fetchRow t r st) := by
  refine (hc.fetch t r st).bind fun found => ?_
  cases found with
  | some row => exact .pure row
  | none => exact diagnosed_never (.throw rfl)

private theorem takeGenerated_never (r : RecordId) (row : Row) (columns : List String) :
    Never Halt.isUnresolved (takeGenerated r row columns : Working σ ρ Unit) := by
  induction columns with
  | nil => exact .pure ()
  | cons column columns ih =>
    rw [takeGenerated]
    split
    · exact ih
    · next v _ =>
      apply (Working.reading_never fun h =>
        ((h.get r).applyGenerated_blames column v).resolved).bind
      exact fun content => (Working.updating_never _).bind fun _ => ih

private theorem AnswersAll.insertOne (hc : c.AnswersAll) (t : RecordType) (p : PlannedInsert) :
    Never Halt.isUnresolved (c.insertOne t p) := by
  refine (Working.reading_never fun h => (h.insertStatement_blames t p.record).resolved).bind
    fun st => ?_
  split
  · exact (hc.perform t p.record st).bind fun _ => Working.updating_never _
  · exact (hc.fetchRow t p.record st).bind fun row =>
      (takeGenerated_never p.record row st.returning).bind fun _ => Working.updating_never _

private theorem AnswersAll.updateOne (hc : c.AnswersAll) (t : RecordType) (r : RecordId) :
    Never Halt.isUnresolved (c.updateOne t r) := by
  refine (Working.reading_never fun h => (h.updateStatement?_blames t r).resolved).bind
    fun found => ?_
  cases found with
  | some st => exact hc.perform t r st
  | none =>
    exact (Working.reading_never fun h => (h.probeStatement_blames t r).resolved).bind fun st =>
      (hc.fetch t r st).bind fun _ => .pure _

end Connection

namespace Transaction

variable {σ ρ α : Type} {tx : Transaction σ ρ} {conn : String → Connection σ ρ}
  {deferrable : String → Bool}

/-- Where a store cannot be leased, this is not put down to unresolved dependencies. -/
def LeasesResolved (tx : Transaction σ ρ) : Prop :=
  ∀ store world, Resolved (tx.acquire store world).1

theorem Willing.leasesResolved (hwilling : tx.Willing) : tx.LeasesResolved := by
  intro store world
  rw [hwilling.acquire]
  exact .ok ()

private theorem LeasesResolved.writing_never (hleases : tx.LeasesResolved) {b : Batch} {e : Event}
    {x : Writer σ ρ → Working σ ρ α} (hx : Never Halt.isUnresolved (x (tx.writer b.type.store))) :
    Never Halt.isUnresolved (tx.writing b e x) := by
  apply writing_spec (P := fun _ => True) (fun _ => True) (fun _ _ => trivial)
    (fun _ _ => trivial) (fun _ _ _ _ => rfl) _ hx
  intro s e _ hrefused
  exact hleases b.type.store s.world e hrefused

private theorem WritesBy.insert_never (hw : tx.WritesBy conn deferrable)
    (hc : ∀ store, (conn store).AnswersAll) (t : RecordType) (rs : List RecordId) :
    Never Halt.isUnresolved ((tx.writer t.store).insert t rs) := by
  rw [hw.writer]
  exact (Working.reading_never fun h => (h.planInserts_blames _ rs).resolved).bind fun plan =>
    (Never.forM ((hc t.store).insertOne t) plan.inserts).bind fun _ => .pure _

theorem WritesBy.insertRound_never (hw : tx.WritesBy conn deferrable) (hleases : tx.LeasesResolved)
    (hc : ∀ store, (conn store).AnswersAll) (bs : List Batch) :
    Never Halt.isUnresolved (tx.insertRound bs) := by
  induction bs with
  | nil => exact .pure _
  | cons b bs ih =>
    exact (hleases.writing_never (hw.insert_never hc b.type b.records)).bind fun _ =>
      ih.bind fun _ => .pure _

private theorem confirm_never (t : RecordType) (rs : List RecordId) (counts : List Nat) :
    Never Halt.isUnresolved (confirm t rs counts : Working σ ρ Unit) :=
  confirm_spec (P := fun _ => True) (fun _ _ _ => trivial) (fun _ _ _ _ => rfl) t rs counts

theorem WritesBy.updateBatch_never (hw : tx.WritesBy conn deferrable) (hleases : tx.LeasesResolved)
    (hc : ∀ store, (conn store).AnswersAll) (b : Batch) :
    Never Halt.isUnresolved (tx.updateBatch b) := by
  apply hleases.writing_never
  rw [hw.writer]
  exact (Never.mapM ((hc b.type.store).updateOne b.type) b.records).bind fun counts =>
    (confirm_never b.type b.records counts).bind fun _ => .pure _

theorem WritesBy.deleteBatch_never (hw : tx.WritesBy conn deferrable) (hleases : tx.LeasesResolved)
    (hc : ∀ store, (conn store).AnswersAll) (b : Batch) :
    Never Halt.isUnresolved (tx.deleteBatch b) := by
  apply hleases.writing_never
  rw [hw.writer]
  exact (Working.reading_never fun h => (h.deleteStatements_blames b.type b.records).resolved).bind
    fun statements => (Never.mapM ((hc b.type.store).perform b.type none) statements).bind
      fun _ => .pure _

end Transaction

end UnitOfWork
