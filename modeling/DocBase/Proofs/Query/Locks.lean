import DocBase.Proofs.Lock.AtOnce
import DocBase.Proofs.Query.Isolation
/-!
# A query gives back its locks

A query takes a read lock on each of its documents, beside what its thread holds already, and gives
back just these, whatever becomes of it: its documents may not be found, a lock may be denied when
others are taken, and its evaluation may fail. It gives them back by the handles it has kept, so
that a document that was removed from the store in the meantime is no exception. Main statements:

* `Store.finishQuery_of_run` — a query that was given its locks answers with its value;
* `Store.execute_restores_locks` — while no other thread moves, the locks are afterwards as before.
-/

namespace DocBase.Store

open Query Lock

variable {s s' : Store} {q : CompiledQuery} {subject : Subject} {dynamic : DynamicContext}
  {x : Execution} {me : Thread}

/-- A query that has found its documents has kept a handle to the lock of each, and holds none of
the locks yet. -/
theorem beginQuery_ok (h : s.beginQuery q subject dynamic = (.ok x, s')) :
    x.acquisition = { mode := .read, wanted := x.handles } ∧
      s' = { s with registry := s.registry.cloneAll x.handles } := by
  unfold beginQuery at h
  split at h
  · simp at h
  · simp only [Prod.mk.injEq, Except.ok.injEq] at h
    obtain ⟨rfl, rfl⟩ := h
    exact ⟨rfl, rfl⟩

/-- A query that was given its locks gives them back and answers with its value, whatever documents
are in the store by then. -/
theorem finishQuery_of_run {options : Options} {t locks : Table} {guard : Guard}
    (hacquisition : x.acquisition = { mode := .read, wanted := x.handles })
    (counted : ∀ h, (t h).Counted .read)
    (hrun : x.acquisition.run options me t = (.ok guard, locks)) (hlocks : s'.locks = locks) :
    s'.finishQuery x guard me =
      (x.value s', { s' with locks := t, registry := s'.registry.dropAll x.handles }) := by
  rw [hacquisition] at hrun
  have hunlock : guard.unlock me s'.locks = (.ok (), t) := by
    rw [hlocks]
    exact Acquisition.unlock_run counted hrun
  simp only [finishQuery, hunlock]
  cases x.value s' <;> rfl

/-- While no other thread moves, a query leaves all locks as they were, whatever the thread that
runs it and others hold; only that no reader is entered without a hold, as is always so
(`Usage.exclusion_and_balance`). Of the locks of its documents it gets one more hold for reading on
each, or none at all; in the first case it gives back all of them, also on documents that are no
longer in the store. -/
theorem execute_restores_locks (s : Store) (counted : ∀ h, (s.locks h).Counted .read)
    (q : CompiledQuery) (subject : Subject) (dynamic : DynamicContext) (me : Thread) :
    (s.execute q subject dynamic me).2.locks = s.locks ∧
    ∀ x s', s.beginQuery q subject dynamic = (.ok x, s') → s'.locks = s.locks ∧
      (∀ e locks, x.acquisition.run s.options me s.locks = (.error e, locks) → locks = s.locks) ∧
      ∀ guard locks, x.acquisition.run s.options me s.locks = (.ok guard, locks) →
        (∀ h, locks h = (fun l => State.take l me .read)^[x.handles.count h] (s.locks h)) ∧
        ∀ s₂ : Store, s₂.locks = locks → (s₂.finishQuery x guard me).1 = x.value s₂ ∧
          (s₂.finishQuery x guard me).2.locks = s.locks := by
  constructor
  · unfold execute
    split
    · -- no call could be resolved, so no lock was asked for
      next e s' hx =>
      rw [← congrArg (fun r => r.2.locks) hx, beginQuery]
      split <;> rfl
    · next x s' hx =>
      obtain ⟨hacquisition, rfl⟩ := beginQuery_ok hx
      dsimp only
      split
      · next guard locks hrun => rw [finishQuery_of_run hacquisition counted hrun rfl]
      · -- what was taken before one failed was given back
        next e locks hrun =>
        rw [hacquisition] at hrun
        exact Acquisition.locks_of_run_error counted hrun
  · intro x s' hx
    obtain ⟨hacquisition, rfl⟩ := beginQuery_ok hx
    refine ⟨rfl, fun e locks hrun => ?_, fun guard locks hrun => ⟨fun h => ?_, ?_⟩⟩
    · rw [hacquisition] at hrun
      exact Acquisition.locks_of_run_error counted hrun
    · rw [hacquisition] at hrun
      exact Acquisition.locks_of_run_ok hrun h
    · -- the query is evaluated between the locks, which does not touch them
      intro s₂ hlocks
      rw [finishQuery_of_run hacquisition counted hrun hlocks]
      exact ⟨rfl, rfl⟩

/-- Two documents, of which one thread writes the first and may write the second, too. -/
def writtenBy (me other : Thread) : Store :=
  let stored := (((create { timeout := some 50 }).storeDocument "/db/x.xml" .xml rootPermission).2
    |>.storeDocument "/db/y.xml" .xml rootPermission).2
  { stored with
    locks := (Table.free.set ⟨0, 1⟩ (State.take {} me .write)).set ⟨1, 2⟩ (State.take {} other .write) }

theorem counted_writtenBy (me other : Thread) (h : Handle) :
    ((writtenBy me other).locks h).Counted .read := by
  have written (t : Thread) : (State.take {} t .write).Counted .read := State.sound_free.counted .read
  simp only [writtenBy, Table.set, Table.free]
  split
  · exact written other
  · split
    · exact written me
    · exact State.sound_free.counted .read

/-- A writer that asks for both documents waits in vain for the one that another thread writes. If
it writes both it reads them, too, and one that is removed before it is done stays locked no longer
than the other. -/
theorem execute_restores_locks_removed :
    ((writtenBy "q" "w").execute Traffic.wholeCollection Subject.guest {} "q").1 =
      .error (.lock (.timeout 2 .read)) ∧
    ((writtenBy "q" "w").execute Traffic.wholeCollection Subject.guest {} "q").2.locks =
      (writtenBy "q" "w").locks ∧
    ∃ x s' guard locks,
      (writtenBy "q" "q").beginQuery Traffic.wholeCollection Subject.guest {} = (.ok x, s') ∧
      x.acquisition.run { timeout := some 50 } "q" (writtenBy "q" "q").locks = (.ok guard, locks) ∧
      (locks ⟨1, 2⟩).holds "q" .read = true ∧
      ∀ l, ({ s' with locks, documents := l }.finishQuery x guard "q").2.locks =
        (writtenBy "q" "q").locks := by
  refine ⟨rfl, (execute_restores_locks _ (counted_writtenBy "q" "w") ..).1, _, _, _, _, rfl, rfl, rfl,
    fun l => ?_⟩
  have hrestores := (execute_restores_locks (writtenBy "q" "q") (counted_writtenBy "q" "q")
    Traffic.wholeCollection Subject.guest {} "q").2 _ _ rfl
  exact ((hrestores.2.2 _ _ rfl).2 _ rfl).2

end DocBase.Store
