import DocBase.Document.Locking
import Mathlib.Logic.Function.Basic
/-!
# Threads that lock documents

Any number of threads, each of which locks the documents of a set, gives the locks back and goes on
to its next set. A step takes one lock or gives one back, and the threads take steps in any order.
A lock that is refused, or not granted in time where there is a limit on waiting, ends a call: the
locks taken for it are given back. Main statements:

* `System.steps_of_lock` — locking a set in one go is a run of such steps;
* `System.steps_of_unlock` — and so is giving its locks back.
-/

namespace DocBase.Lock

/-- A call that locks the documents of a set. -/
structure Call where
  set : DocumentSet
  mode : Mode
  ascending : Keyed.Ascending Document.id set.documents

/-- Any documents make up a set that can be locked. -/
def Call.ofList (documents : List Document) (mode : Mode) : Call where
  set := DocumentSet.ofList documents
  mode
  ascending := (DocumentSet.ascending_extend DocumentSet.ascending_empty documents).1

/-- A thread with the call it is in and the calls it has yet to make. -/
structure Worker where
  acquisition : Acquisition
  calls : List Call

namespace Worker

/-- The next call that has anything to lock. -/
def takeUp : List Call → Worker
  | [] => ⟨⟨.read, [], []⟩, []⟩
  | c :: cs => if c.set.locks = [] then takeUp cs else ⟨c.set.acquisition c.mode, cs⟩

/-- A call is over when nothing is held or wanted any more. -/
def goOn (w : Worker) : Worker :=
  if w.acquisition.held = [] ∧ w.acquisition.wanted = [] then takeUp w.calls else w

/-- Nothing is held, wanted or left to do. -/
def Finished (w : Worker) : Prop :=
  w.acquisition.held = [] ∧ w.acquisition.wanted = [] ∧ w.calls = []

theorem held_takeUp (cs : List Call) : (takeUp cs).acquisition.held = [] := by
  induction cs with
  | nil => rfl
  | cons c cs ih =>
    rw [takeUp]
    split
    · exact ih
    · rfl

/-- Going on to the next call changes nothing about what is held. -/
theorem held_goOn (w : Worker) : w.goOn.acquisition.held = w.acquisition.held := by
  unfold goOn
  split
  · next hover => rw [held_takeUp, hover.1]
  · rfl

theorem mode_goOn (w : Worker) :
    w.goOn.acquisition.mode = w.acquisition.mode ∨ w.goOn.acquisition.held = [] := by
  unfold goOn
  split
  · exact .inr (held_takeUp _)
  · exact .inl rfl

end Worker

/-- All threads and all locks. -/
structure System where
  workers : Thread → Worker
  locks : Table

namespace System

/-- Before anything is locked. -/
def start (programs : List (Thread × List Call)) : System where
  workers t := Worker.takeUp ((programs.lookup t).getD [])
  locks := Table.free

/-- After a step of a thread. -/
def put (s : System) (t : Thread) (w : Worker) (locks : Table) : System :=
  ⟨Function.update s.workers t w, locks⟩

@[simp] theorem workers_put_self (s : System) (t : Thread) (w : Worker) (locks : Table) :
    (s.put t w locks).workers t = w := by
  simp [put]

@[simp] theorem workers_put_ne {s : System} {t u : Thread} (hu : u ≠ t) (w : Worker)
    (locks : Table) : (s.put t w locks).workers u = s.workers u := by
  simp [put, hu]

@[simp] theorem locks_put (s : System) (t : Thread) (w : Worker) (locks : Table) :
    (s.put t w locks).locks = locks := rfl

@[simp] theorem put_put (s : System) (t : Thread) (w w' : Worker) (locks locks' : Table) :
    (s.put t w locks).put t w' locks' = s.put t w' locks' := by
  simp [put]

end System

/-- A thread takes one lock, gives up a call, or gives one lock back. -/
inductive Step (options : Options) (t : Thread) (s : System) : System → Prop
  | acquire {mode : Mode} {held wanted : List Handle} {h : Handle} {calls : List Call}
      {state : State} :
    s.workers t = ⟨⟨mode, held, h :: wanted⟩, calls⟩ →
    (s.locks h).attempt options t mode = .granted state →
    Step options t s (s.put t ⟨⟨mode, h :: held, wanted⟩, calls⟩ (s.locks.set h state))
  | giveUp {mode : Mode} {held wanted : List Handle} {h : Handle} {calls : List Call} :
    s.workers t = ⟨⟨mode, held, h :: wanted⟩, calls⟩ →
    ((∃ n, (s.locks h).attempt options t mode = .refused n) ∨
      ((s.locks h).attempt options t mode = .blocked ∧ options.timeout.isSome = true)) →
    Step options t s (s.put t (Worker.goOn ⟨⟨mode, held, []⟩, calls⟩) s.locks)
  | release {mode : Mode} {held : List Handle} {h : Handle} {calls : List Call} :
    s.workers t = ⟨⟨mode, h :: held, []⟩, calls⟩ →
    Step options t s
      (s.put t (Worker.goOn ⟨⟨mode, held, []⟩, calls⟩) (s.locks.release t mode h).2)

/-- The states that threads with these calls can come to, in whatever order they take steps. -/
inductive Reachable (options : Options) (programs : List (Thread × List Call)) : System → Prop
  | start : Reachable options programs (System.start programs)
  | step {s s' : System} {t : Thread} :
    Reachable options programs s → Step options t s s' → Reachable options programs s'

/-- Steps of one thread, one after another. -/
inductive Steps (options : Options) (t : Thread) : System → System → Prop
  | refl (s : System) : Steps options t s s
  | step {s s₁ s' : System} : Step options t s s₁ → Steps options t s₁ s' → Steps options t s s'

namespace System

variable {options : Options} {t : Thread}

/-- Taking locks for as long as they are granted is a run of steps. -/
theorem steps_of_take {mode : Mode} {held wanted : List Handle} {calls : List Call} {s : System}
    {g : Guard} {locks : Table} (hw : s.workers t = ⟨⟨mode, held, wanted⟩, calls⟩)
    (h : Acquisition.take options t mode held wanted s.locks = (.complete g, locks)) :
    Steps options t s (s.put t ⟨⟨mode, g.locks, []⟩, calls⟩ locks) := by
  induction wanted generalizing held s with
  | nil =>
    simp only [Acquisition.take, Prod.mk.injEq, Progress.complete.injEq] at h
    rcases h with ⟨rfl, rfl⟩
    have hsame : s.put t ⟨⟨mode, held, []⟩, calls⟩ s.locks = s := by
      rw [← hw, put, Function.update_eq_self]
    rw [hsame]
    exact .refl s
  | cons k ks ih =>
    simp only [Acquisition.take] at h
    -- the run is complete, so this lock was granted
    split at h
    · next state hgranted =>
      refine .step (.acquire hw hgranted) ?_
      have rest := ih (s := s.put t ⟨⟨mode, k :: held, ks⟩, calls⟩ (s.locks.set k state))
        (workers_put_self s t _ _) h
      simpa using rest
    · simp at h
    · simp at h

/-- Giving back the locks of a guard is a run of steps, after which the next call is taken up. -/
theorem steps_of_releaseAll {mode : Mode} {held : List Handle} {calls : List Call} {s : System}
    (hw : s.workers t = Worker.goOn ⟨⟨mode, held, []⟩, calls⟩) :
    Steps options t s
      (s.put t (Worker.takeUp calls) (Guard.releaseAll t mode held s.locks).2) := by
  induction held generalizing s with
  | nil =>
    -- the last release has taken up the next call already
    have hover : Worker.goOn ⟨⟨mode, [], []⟩, calls⟩ = Worker.takeUp calls := by
      simp [Worker.goOn]
    have hsame : s.put t (Worker.takeUp calls) s.locks = s := by
      rw [← hover, ← hw, put, Function.update_eq_self]
    rw [Guard.releaseAll, hsame]
    exact .refl s
  | cons k ks ih =>
    have hw' : s.workers t = ⟨⟨mode, k :: ks, []⟩, calls⟩ := by
      simpa [Worker.goOn] using hw
    refine .step (.release hw') ?_
    have rest := ih (s := s.put t (Worker.goOn ⟨⟨mode, ks, []⟩, calls⟩)
      (s.locks.release t mode k).2) (workers_put_self s t _ _)
    have hlocks : (Guard.releaseAll t mode (k :: ks) s.locks).2 =
        (Guard.releaseAll t mode ks (s.locks.release t mode k).2).2 := by
      simp only [Guard.releaseAll]
      split <;> rfl
    rw [hlocks]
    simpa using rest

/-- Locking the documents of a set is a run of steps that ends with all locks held. -/
theorem steps_of_lock {c : Call} {calls : List Call} {s : System} {g : Guard} {locks : Table}
    (hw : s.workers t = ⟨c.set.acquisition c.mode, calls⟩)
    (h : c.set.lock c.mode options t s.locks = (.ok g, locks)) :
    Steps options t s (s.put t ⟨⟨c.mode, g.locks, []⟩, calls⟩ locks) := by
  -- only a run to the end answers with a guard
  unfold DocumentSet.lock Acquisition.run at h
  split at h
  · next guard locks' htake =>
    simp only [Prod.mk.injEq, Except.ok.injEq] at h
    rcases h with ⟨rfl, rfl⟩
    exact steps_of_take hw htake
  · simp at h
  · next rest locks' htake =>
    have hwanted := Acquisition.wanted_of_take_waiting (congrArg Prod.fst htake)
    unfold Acquisition.giveUp at h
    split at h
    · contradiction
    · simp at h

/-- Giving back what was locked is a run of steps that ends with the next call. -/
theorem steps_of_unlock {g : Guard} {calls : List Call} {s : System}
    (hw : s.workers t = ⟨⟨g.mode, g.locks, []⟩, calls⟩) (hne : g.locks ≠ []) :
    Steps options t s (s.put t (Worker.takeUp calls) (g.unlock t s.locks).2) := by
  refine steps_of_releaseAll ?_
  rw [hw, Worker.goOn, if_neg fun hover => hne hover.1]

end System
end DocBase.Lock
