import UnitOfWork.Proofs.Commit.StatementLog

/-!
# Which records are inserted

All rounds of inserts together insert a record at most once, and no other than a new one that was
to be inserted; those that are to be fixed up afterwards are some of them. If all were new and the
inserts succeed, each of them has been inserted.
-/

namespace UnitOfWork

namespace Heap

variable {h : Heap} {deferrable : Bool} {rs : List RecordId} {plan : InsertPlan}

theorem mem_planInserts (hp : h.planInserts deferrable rs = .ok plan) {r : RecordId} (hr : r ∈ rs)
    (hn : (h.get r).isNew) : r ∈ plan.inserts.map (·.record) ∨ r ∈ plan.retries := by
  have hstate : (h.get r).state = .new := by
    refine (state_of_planInserts hp hr).resolve_right fun hu => ?_
    rw [Record.state] at hu
    split at hu <;> cases hu
  obtain ⟨-, rfl⟩ := planInserts_eq_ok.mp hp
  rw [records_sorted, sorted]
  by_cases hc : h.canInsert deferrable r
  · exact .inl (by simp [hr, hstate, hc])
  · exact .inr (by simp [hr, hstate, hc])

end Heap

namespace Transaction

variable {σ ρ : Type} {tx : Transaction σ ρ} {conn : String → Connection σ ρ}
  {deferrable : String → Bool} {world : σ} {log : List (Option RecordId × Statement)}
  {counts : List (Option Nat)} {h : Heap} {s s' : Session σ}

/-- The statement inserts the record. -/
def InsertsRow (e : RecordType × RecordId) (x : Option RecordId × Statement) : Prop :=
  x.1 = some e.2 ∧ ∃ assigned returning, x.2 = .insert e.1.table assigned returning

private theorem Logged.inserts (hs : tx.Logged conn world log counts s)
    (hw : tx.WritesBy conn deferrable)
    {t : RecordType} {r : RecordId} {st : Statement} (a : (conn t.store).Inserts t r st s s') :
    InsertsRow (t, r) (some r, st) ∧ tx.Logged conn world (log ++ [(some r, st)]) counts s' := by
  obtain ⟨keyed, -, hst⟩ := Heap.insertStatement_ok a.statement
  have hworld : s'.world = tx.replayEvent conn s.world ((conn t.store).insertEvent r st) := by
    rw [a.world, Connection.insertEvent, hw.store]
    split <;> rfl
  have hsnoc := hs.snoc a.trace hworld
  have hseeks : ((conn t.store).insertEvent r st).seeksRow = false := by
    rw [Event.seeksRow, Connection.statement?_insertEvent, hst]
  rw [Connection.statement?_insertEvent, hseeks, if_neg Bool.false_ne_true,
    List.append_nil] at hsnoc
  exact ⟨⟨rfl, _, _, hst⟩, hsnoc⟩

/-- What the inserts have come to, for the records `news` of a commit that began with `h`: those
inserted, in this order, those still to be inserted, and those to be fixed up. -/
structure Accounts (tx : Transaction σ ρ) (conn : String → Connection σ ρ) (world : σ) (h : Heap)
    (news todo fixUps inserted : List (RecordType × RecordId)) (s : Session σ) : Prop where
  log : ∃ xs, inserted.Forall₂ InsertsRow xs ∧ tx.Logged conn world xs [] s
  nodup : ((todo ++ inserted).map Prod.snd).Nodup
  mem_news : ∀ e ∈ todo ++ inserted, e ∈ news
  all : ∀ e ∈ news, (h.get e.2).isNew → e ∈ todo ++ inserted
  isNew : ∀ e ∈ inserted, (h.get e.2).isNew
  fixUps_nodup : (fixUps.map Prod.snd).Nodup
  fixUps_inserted : ∀ e ∈ fixUps, e ∈ inserted
  keeps : h.Keeps s.heap
  spares : h.Spares s.heap

variable {news todo todo' fixUps inserted : List (RecordType × RecordId)}

private theorem Accounts.perm (hs : tx.Accounts conn world h news todo fixUps inserted s)
    (hp : todo.Perm todo') : tx.Accounts conn world h news todo' fixUps inserted s :=
  { hs with
    nodup := ((hp.append_right inserted).map _).nodup_iff.mp hs.nodup
    mem_news := fun e he => hs.mem_news e ((hp.append_right inserted).mem_iff.mpr he)
    all := fun e he hn => (hp.append_right inserted).mem_iff.mp (hs.all e he hn) }

private theorem Accounts.quiet (hs : tx.Accounts conn world h news todo fixUps inserted s)
    (q : tx.Quiet s s') : tx.Accounts conn world h news todo fixUps inserted s' := by
  obtain ⟨xs, hxs, hlog⟩ := hs.log
  exact { hs with
    log := ⟨xs, hxs, hlog.quiet q⟩
    keeps := q.heap ▸ hs.keeps
    spares := q.heap ▸ hs.spares }

private theorem Accounts.insert (hw : tx.WritesBy conn deferrable) {t : RecordType} {r : RecordId}
    {st : Statement} (hs : tx.Accounts conn world h news ((t, r) :: todo) fixUps inserted s)
    (hn : (h.get r).isNew) (a : (conn t.store).Inserts t r st s s') :
    tx.Accounts conn world h news todo fixUps (inserted ++ [(t, r)]) s' := by
  obtain ⟨xs, hxs, hlog⟩ := hs.log
  obtain ⟨hrow, hlog'⟩ := hlog.inserts hw a
  have hperm : ((t, r) :: todo ++ inserted).Perm (todo ++ (inserted ++ [(t, r)])) := by
    rw [← List.append_assoc]
    exact (List.perm_append_singleton ..).symm
  have hnew : (s.heap.get r).isNew := by rwa [hs.keeps.isNew]
  exact {
    log := ⟨xs ++ [(some r, st)], List.rel_append hxs (.cons hrow .nil), hlog'⟩
    nodup := (hperm.map _).nodup_iff.mp hs.nodup
    mem_news := fun e he => hs.mem_news e (hperm.mem_iff.mpr he)
    all := fun e he hn => hperm.mem_iff.mp (hs.all e he hn)
    isNew := fun e he => by
      rcases List.mem_append.mp he with he | he
      · exact hs.isNew e he
      · obtain rfl := List.mem_singleton.mp he
        exact hn
    fixUps_nodup := hs.fixUps_nodup
    fixUps_inserted := fun e he => List.mem_append_left _ (hs.fixUps_inserted e he)
    keeps := hs.keeps.trans a.heap.keeps
    spares := hs.spares.trans (a.heap.spares hnew) }

private theorem Accounts.inserts (hw : tx.WritesBy conn deferrable) {t : RecordType}
    (ps : List PlannedInsert) (hps : ∀ p ∈ ps, (h.get p.record).isNew) :
    Triple (tx.Accounts conn world h news (ps.map (t, ·.record) ++ todo) fixUps inserted)
      (ps.forM ((conn t.store).insertOne t))
      (fun _ => tx.Accounts conn world h news todo fixUps (inserted ++ ps.map (t, ·.record)))
      fun _ s => ∃ todo inserted, tx.Accounts conn world h news todo fixUps inserted s := by
  induction ps generalizing inserted with
  | nil => exact Triple.pure fun s hs => by simpa using hs
  | cons p ps ih =>
    change Triple _ ((conn t.store).insertOne t p >>= fun _ => ps.forM _) _ _
    refine Triple.bind (R := fun _ => tx.Accounts conn world h news
      (ps.map (t, ·.record) ++ todo) fixUps (inserted ++ [(t, p.record)]))
      (Triple.of_starting fun s hs => ((conn t.store).insertOne_spec t p s).conseq (fun _ h => h)
        ?_ ?_) fun _ => (ih fun q hq => hps q (List.mem_cons_of_mem _ hq)).conseq (fun _ h => h)
        (fun _ s hs => by rwa [List.append_assoc] at hs) fun _ _ h => h
    · rintro _ s' ⟨st, a, -⟩
      exact hs.insert hw (hps p List.mem_cons_self) a
    · rintro _ s' (rfl | ⟨st, a⟩)
      · exact ⟨_, _, hs⟩
      · exact ⟨_, _, hs.insert hw (hps p List.mem_cons_self) a⟩

private theorem Accounts.plan {t : RecordType} {rs : List RecordId} {deferrable : Bool}
    {plan : InsertPlan}
    (hs : tx.Accounts conn world h news (rs.map (t, ·) ++ todo) fixUps inserted s)
    (hp : s.heap.planInserts deferrable rs = .ok plan) :
    tx.Accounts conn world h news
      (plan.inserts.map (t, ·.record) ++ (plan.retries.map (t, ·) ++ todo)) fixUps inserted s := by
  have hsub : ∀ r, r ∈ plan.inserts.map (·.record) ∨ r ∈ plan.retries → r ∈ rs := by
    rintro r (hr | hr)
    · exact (Heap.inserts_sublist hp).subset hr
    · exact (Heap.retries_sublist hp).subset hr
  refine { hs with nodup := ?_, mem_news := fun e he => hs.mem_news e ?_, all := ?_ }
  · have hnodup := hs.nodup
    simp only [List.map_append, List.map_map, Function.comp_def, List.map_id',
      List.append_assoc] at hnodup ⊢
    exact Heap.nodup_planInserts hp hnodup
  · simp only [List.mem_append, List.mem_map] at he ⊢
    rcases he with (⟨p, hpm, rfl⟩ | ⟨r, hr, rfl⟩ | he) | he
    · exact .inl (.inl ⟨_, hsub _ (.inl (List.mem_map_of_mem hpm)), rfl⟩)
    · exact .inl (.inl ⟨_, hsub _ (.inr hr), rfl⟩)
    · exact .inl (.inr he)
    · exact .inr he
  · intro e he hn
    have hold := hs.all e he hn
    simp only [List.mem_append, List.mem_map] at hold ⊢
    rcases hold with (⟨r, hr, rfl⟩ | he') | he'
    · have hnew : (s.heap.get r).isNew := by
        rw [hs.keeps.isNew]
        exact hn
      rcases Heap.mem_planInserts hp hr hnew with hr' | hr'
      · obtain ⟨p, hpm, rfl⟩ := List.mem_map.mp hr'
        exact .inl (.inl ⟨p, hpm, rfl⟩)
      · exact .inl (.inr (.inl ⟨r, hr', rfl⟩))
    · exact .inl (.inr (.inr he'))
    · exact .inr he'

private theorem Accounts.extend {last fixUps' : List (RecordType × RecordId)}
    (hs : tx.Accounts conn world h news todo fixUps (inserted ++ last) s)
    (hold : ∀ e ∈ fixUps, e ∈ inserted) (hnew : fixUps'.Sublist last) :
    tx.Accounts conn world h news todo (fixUps ++ fixUps') (inserted ++ last) s := by
  have hnodup := hs.nodup
  rw [List.map_append, List.map_append, List.nodup_append', List.nodup_append'] at hnodup
  obtain ⟨-, ⟨-, hlast, hdisjoint⟩, -⟩ := hnodup
  refine { hs with fixUps_nodup := ?_, fixUps_inserted := fun e he => ?_ }
  · rw [List.map_append, List.nodup_append']
    refine ⟨hs.fixUps_nodup, hlast.sublist (hnew.map _), List.disjoint_left.mpr fun r hr hr' => ?_⟩
    obtain ⟨e, he, rfl⟩ := List.mem_map.mp hr
    exact List.disjoint_left.mp hdisjoint (List.mem_map_of_mem (hold e he))
      ((hnew.map _).subset hr')
  · rcases List.mem_append.mp he with he | he
    · exact List.mem_append_left _ (hold e he)
    · exact List.mem_append_right _ (hnew.subset he)

theorem accounts_invariant (hw : tx.WritesBy conn deferrable) (world : σ) (h : Heap)
    (news : List (RecordType × RecordId)) : tx.InsertInvariant
      (fun todo fixUps s => ∃ inserted, tx.Accounts conn world h news todo fixUps inserted s)
      fun _ s => ∃ todo fixUps inserted, tx.Accounts conn world h news todo fixUps inserted s where
  steady todo fixUps s s' q hs := hs.imp fun _ hs => hs.quiet q
  perm todo todo' fixUps s hp hs := hs.imp fun _ hs => hs.perm hp
  stop todo fixUps e s hs := ⟨todo, fixUps, hs⟩
  batch t rs todo fixUps := by
    rw [hw.writer]
    refine Triple.bind (R := fun plan s => s.heap.planInserts (deferrable t.store) rs = .ok plan ∧
      ∃ inserted, tx.Accounts conn world h news (rs.map (t, ·) ++ todo) fixUps inserted s)
      (Triple.reading (fun s plan hs hp => ⟨hp, hs⟩) fun s e hs _ => ⟨_, _, hs⟩)
      fun plan => Triple.of_starting fun s hs => ?_
    obtain ⟨hp, inserted, hs⟩ := hs
    have hps : ∀ p ∈ plan.inserts, (h.get p.record).isNew := by
      intro p hpm
      rw [← hs.keeps.isNew]
      exact Record.isNew_of_state (Heap.planInserts_plans hp hpm).1.state
    have hwalk := (Accounts.inserts hw plan.inserts hps).starting (hs.plan hp)
    refine Triple.bind (hwalk.conseq (fun _ h => h) (fun _ _ h => h) ?_)
      fun _ => Triple.pure fun s' hs' => ⟨inserted ++ plan.inserts.map (t, ·.record), ?_⟩
    · rintro _ s' ⟨todo', inserted', hs'⟩
      exact ⟨todo', fixUps, inserted', hs'⟩
    · refine hs'.extend hs.fixUps_inserted ?_
      rw [InsertPlan.results, List.map_map]
      exact List.filter_sublist.map _

end Transaction

end UnitOfWork
