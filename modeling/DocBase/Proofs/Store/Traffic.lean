import DocBase.Proofs.Query.Found
import DocBase.Proofs.Query.Resources
import DocBase.Store.Removal
import Mathlib.Logic.Function.Basic
import Mathlib.Logic.Relation
/-!
# Threads at work on one store

Any number of threads, each of which runs queries, stores and removes documents and creates
collections, one request after another. A query finds the documents of one call after another, takes
its locks one by one, looks whether any document was removed meanwhile, leaves such documents out of
one call after another, evaluates and gives the locks back one by one; a removal finds its document,
takes its lock, takes the document out and gives the lock back. Between any two of these steps other
threads may move. Main statements:

* `runs_removeDocument` and `runs_execute` — a thread that is left to itself does in a run of steps
  what `Store.removeDocument` and `Store.execute` do at once.
-/

namespace DocBase

open Query

namespace Store

/-- Ends a removal whose lock was given back. -/
def concludeRemoval (s : Store) (r : Removal) (present : Bool) :
    Except Lock.Error Unit → Except StoreError Document × Store
  | .error e => s.failRemoval r e
  | .ok () =>
    let s := if present then s.purgeLocks.2 else s
    let s := { s with registry := s.registry.drop r.document.lock }
    (if present then .ok r.document else .error (.documentNotFound r.path), s)

/-- A removal that holds its lock takes the document out, gives the lock back and ends. -/
theorem finishRemoval_eq (s : Store) (r : Removal) (g : Lock.Guard) (me : Thread) :
    s.finishRemoval r g me =
      { (s.takeOut r.document).2 with
        locks := (g.unlock me (s.takeOut r.document).2.locks).2 }.concludeRemoval r
          (s.takeOut r.document).1 (g.unlock me (s.takeOut r.document).2.locks).1 := by
  rcases htake : s.takeOut r.document with ⟨present, s₁⟩
  rcases hunlock : g.unlock me s₁.locks with ⟨e | _, locks⟩
  all_goals simp only [finishRemoval, concludeRemoval, htake, hunlock]

/-- A removal begins with the document at its path. -/
theorem beginRemoval_eq_ok {s store : Store} {path : String} {r : Removal}
    (h : s.beginRemoval path = (.ok r, store)) :
    s.documentAt? path = some r.document ∧ r.path = path ∧
      r.acquisition = (DocumentSet.ofList [r.document]).acquisition .write ∧
      store = { s with registry := s.registry.clone r.document.lock } := by
  unfold beginRemoval at h
  split at h
  · simp at h
  · next d hd =>
    rcases Prod.mk.inj h with ⟨hr, rfl⟩
    obtain rfl := Except.ok.inj hr
    exact ⟨hd, rfl, rfl, rfl⟩

/-- A removal that finds no document changes nothing. -/
theorem beginRemoval_eq_error {s store : Store} {path : String} {e : StoreError}
    (h : s.beginRemoval path = (.error e, store)) :
    s.documentAt? path = none ∧ e = .documentNotFound path ∧ store = s := by
  unfold beginRemoval at h
  split at h
  · next hd =>
    rcases Prod.mk.inj h with ⟨he, rfl⟩
    exact ⟨hd, (Except.error.inj he).symm, rfl⟩
  · simp at h

/-- Ends a query whose locks were given back. -/
def concludeQuery (s : Store) (x : Execution) (value : Except QueryError Sequence)
    (released : Except Lock.Error Unit) : Except QueryError Sequence × Store :=
  (value.bind fun items => (released.mapError QueryError.lock).map fun _ => items,
    { s with registry := s.registry.dropAll x.handles })

end Store

/-- What a step of a thread found and what it left. -/
structure Change where
  before : Store
  after : Store

/-- How far a thread has come with what it was asked. A query takes no lock before it has found the
documents of all its calls. -/
inductive Task where
  | idle
  /-- A query that has yet to find the documents of some calls. -/
  | finding (q : CompiledQuery) (subject : Subject) (dynamic : DynamicContext)
      (calls : List ExprId) (found : Resources)
  /-- A removal that takes the lock of its document. -/
  | removing (r : Removal)
  /-- A removal that found its document present or gone, and gives the lock back. -/
  | removed (r : Removal) (present : Bool) (released : Except Lock.Error Unit)
  /-- A removal that did not get its lock. -/
  | removalFailed (r : Removal) (e : Lock.Error)
  /-- A query that takes the locks of its documents. -/
  | querying (x : Execution)
  /-- A query that found some document gone and leaves such documents out of the calls to do. -/
  | rechecking (x : Execution) (todo done : Resources)
  /-- A query that is evaluated on the documents that were still there. -/
  | evaluating (x : Execution) (kept : Resources)
  /-- A query that has its value and gives its locks back. -/
  | evaluated (x : Execution) (kept : Resources) (value : Except QueryError Sequence)
      (released : Except Lock.Error Unit)
  /-- A query that did not get its locks. -/
  | queryFailed (x : Execution) (e : Lock.Error)

namespace Task

/-- What becomes of a task that did not get a lock it takes. -/
def fail? (e : Lock.Error) : Task → Option Task
  | removing r => some (removalFailed r e)
  | querying x => some (queryFailed x e)
  | _ => none

/-- What becomes of a task that gives a lock back; the first failure to do so is kept. -/
def giveBack? (result : Except Lock.Error Unit) : Task → Option Task
  | removed r present released => some (removed r present (released.bind fun _ => result))
  | evaluated x kept value released =>
    some (evaluated x kept value (released.bind fun _ => result))
  | removalFailed r e => some (removalFailed r e)
  | queryFailed x e => some (queryFailed x e)
  | _ => none

end Task

/-- A thread with its task, the locks it holds and wants, and what its steps have done to the store
since it took up the task, the last one first. -/
structure Actor where
  task : Task := .idle
  acquisition : Lock.Acquisition := ⟨.read, [], []⟩
  trail : List Change := []

/-- A removal that was answered, with what its steps did to the store. -/
structure RemovalAnswer where
  path : String
  trail : List Change
  answer : Except StoreError Document

/-- The store and all threads, with every document that was ever stored and the answers to removals
and queries, the last one first. -/
structure Traffic where
  store : Store
  actors : Thread → Actor := fun _ => {}
  stored : List Document := []
  removals : List RemovalAnswer := []
  answers : List (Except QueryError Sequence) := []

namespace Traffic

/-- With another actor for a thread and another store. -/
def put (s : Traffic) (t : Thread) (a : Actor) (store : Store) : Traffic :=
  { s with store, actors := Function.update s.actors t a }

/-- A thread goes on with its task. -/
def goOn (s : Traffic) (t : Thread) (task : Task) (acquisition : Lock.Acquisition) (store : Store) :
    Traffic :=
  s.put t ⟨task, acquisition, ⟨s.store, store⟩ :: (s.actors t).trail⟩ store

/-- A thread answers the removal it was about. -/
def answerRemoval (s : Traffic) (t : Thread) (path : String) (answer : Except StoreError Document)
    (store : Store) : Traffic :=
  { s.put t {} store with
    removals := ⟨path, ⟨s.store, store⟩ :: (s.actors t).trail, answer⟩ :: s.removals }

/-- A thread answers the query it was about. -/
def answerQuery (s : Traffic) (t : Thread) (answer : Except QueryError Sequence) (store : Store) :
    Traffic :=
  { s.put t {} store with answers := answer :: s.answers }

/-- One step of a thread. -/
inductive Step (t : Thread) (s : Traffic) : Traffic → Prop
  | createCollection (uri : CollectionUri) (permission : Permission) :
    s.actors t = {} →
    Step t s { s with store := (s.store.createCollection uri permission).2 }
  | storeDocument {path : String} {kind : ResourceKind} {permission : Permission} {d : Document}
      {store : Store} :
    s.actors t = {} → s.store.storeDocument path kind permission = (.ok d, store) →
    Step t s { s with store, stored := d :: s.stored }
  | refuseDocument {path : String} {kind : ResourceKind} {permission : Permission} {e : StoreError}
      {store : Store} :
    s.actors t = {} → s.store.storeDocument path kind permission = (.error e, store) →
    Step t s { s with store }
  -- taking locks
  | acquire {task : Task} {mode : Lock.Mode} {held wanted : List Lock.Handle} {h : Lock.Handle}
      {trail : List Change} {state : Lock.State} :
    s.actors t = ⟨task, ⟨mode, held, h :: wanted⟩, trail⟩ →
    (s.store.locks h).attempt s.store.options t mode = .granted state →
    Step t s (s.goOn t task ⟨mode, h :: held, wanted⟩
      { s.store with locks := s.store.locks.set h state })
  | refuse {task task' : Task} {mode : Lock.Mode} {held wanted : List Lock.Handle} {h : Lock.Handle}
      {trail : List Change} {n : Nat} :
    s.actors t = ⟨task, ⟨mode, held, h :: wanted⟩, trail⟩ →
    (s.store.locks h).attempt s.store.options t mode = .refused n →
    task.fail? (.upgradeRefused h.document n) = some task' →
    Step t s (s.goOn t task' ⟨mode, held, []⟩ s.store)
  | timeOut {task task' : Task} {mode : Lock.Mode} {held wanted : List Lock.Handle}
      {h : Lock.Handle} {trail : List Change} :
    s.actors t = ⟨task, ⟨mode, held, h :: wanted⟩, trail⟩ →
    (s.store.locks h).attempt s.store.options t mode = .blocked →
    s.store.options.timeout.isSome = true →
    task.fail? (.timeout h.document mode) = some task' →
    Step t s (s.goOn t task' ⟨mode, held, []⟩ s.store)
  | release {task task' : Task} {mode : Lock.Mode} {held : List Lock.Handle} {h : Lock.Handle}
      {trail : List Change} {result : Except Lock.Error Unit} {locks : Lock.Table} :
    s.actors t = ⟨task, ⟨mode, h :: held, []⟩, trail⟩ →
    s.store.locks.release t mode h = (result, locks) →
    task.giveBack? result = some task' →
    Step t s (s.goOn t task' ⟨mode, held, []⟩ { s.store with locks })
  -- removing a document
  | beginRemoval {path : String} {r : Removal} {store : Store} :
    s.actors t = {} → s.store.beginRemoval path = (.ok r, store) →
    Step t s (s.goOn t (.removing r) r.acquisition store)
  | missRemoval {path : String} {e : StoreError} {store : Store} :
    s.actors t = {} → s.store.beginRemoval path = (.error e, store) →
    Step t s (s.answerRemoval t path (.error e) store)
  | takeOut {r : Removal} {mode : Lock.Mode} {held : List Lock.Handle} {trail : List Change}
      {present : Bool} {store : Store} :
    s.actors t = ⟨.removing r, ⟨mode, held, []⟩, trail⟩ →
    s.store.takeOut r.document = (present, store) →
    Step t s (s.goOn t (.removed r present (.ok ())) ⟨mode, held, []⟩ store)
  | endRemoval {r : Removal} {present : Bool} {released : Except Lock.Error Unit} {mode : Lock.Mode}
      {trail : List Change} {answer : Except StoreError Document} {store : Store} :
    s.actors t = ⟨.removed r present released, ⟨mode, [], []⟩, trail⟩ →
    s.store.concludeRemoval r present released = (answer, store) →
    Step t s (s.answerRemoval t r.path answer store)
  | failRemoval {r : Removal} {e : Lock.Error} {mode : Lock.Mode} {trail : List Change}
      {answer : Except StoreError Document} {store : Store} :
    s.actors t = ⟨.removalFailed r e, ⟨mode, [], []⟩, trail⟩ →
    s.store.failRemoval r e = (answer, store) →
    Step t s (s.answerRemoval t r.path answer store)
  -- running a query
  | beginQuery (q : CompiledQuery) (subject : Subject) (dynamic : DynamicContext) :
    s.actors t = {} →
    Step t s (s.goOn t (.finding q subject dynamic q.tree.reachable []) ⟨.read, [], []⟩ s.store)
  | find {q : CompiledQuery} {subject : Subject} {dynamic : DynamicContext} {call : ExprId}
      {calls : List ExprId} {found more : Resources} {trail : List Change} :
    s.actors t = ⟨.finding q subject dynamic (call :: calls) found, ⟨.read, [], []⟩, trail⟩ →
    resourcesAmong ⟨s.store, subject, dynamic⟩ q [call] = .ok more →
    Step t s (s.goOn t (.finding q subject dynamic calls (found ++ more)) ⟨.read, [], []⟩
      s.store)
  | miss {q : CompiledQuery} {subject : Subject} {dynamic : DynamicContext} {call : ExprId}
      {calls : List ExprId} {found : Resources} {trail : List Change} {e : QueryError} :
    s.actors t = ⟨.finding q subject dynamic (call :: calls) found, ⟨.read, [], []⟩, trail⟩ →
    resourcesAmong ⟨s.store, subject, dynamic⟩ q [call] = .error e →
    Step t s (s.answerQuery t (.error e) s.store)
  | enter {q : CompiledQuery} {subject : Subject} {dynamic : DynamicContext} {found : Resources}
      {trail : List Change} :
    s.actors t = ⟨.finding q subject dynamic [] found, ⟨.read, [], []⟩, trail⟩ →
    Step t s (s.goOn t (.querying ⟨q, dynamic, found, found.documents.acquisition .read⟩)
      (found.documents.acquisition .read)
      { s.store with registry := s.store.registry.cloneAll found.documents.locks })
  | recheck {x : Execution} {mode : Lock.Mode} {held : List Lock.Handle} {trail : List Change} :
    s.actors t = ⟨.querying x, ⟨mode, held, []⟩, trail⟩ →
    Step t s (s.goOn t
      (if x.resources.gone s.store = 0 then .evaluating x x.resources
        else .rechecking x x.resources [])
      ⟨mode, held, []⟩ s.store)
  | leaveOut {x : Execution} {entry : ExprId × DocumentSet} {todo done : Resources}
      {acquisition : Lock.Acquisition} {trail : List Change} :
    s.actors t = ⟨.rechecking x (entry :: todo) done, acquisition, trail⟩ →
    Step t s (s.goOn t (.rechecking x todo (done ++ Resources.stillIn [entry] s.store)) acquisition
      s.store)
  | rechecked {x : Execution} {kept : Resources} {acquisition : Lock.Acquisition}
      {trail : List Change} :
    s.actors t = ⟨.rechecking x [] kept, acquisition, trail⟩ →
    Step t s (s.goOn t (.evaluating x kept) acquisition s.store)
  | evaluate {x : Execution} {kept : Resources} {acquisition : Lock.Acquisition}
      {trail : List Change} :
    s.actors t = ⟨.evaluating x kept, acquisition, trail⟩ →
    Step t s (s.goOn t
      (.evaluated x kept (Evaluation.run ⟨x.query.tree, x.dynamic, kept⟩) (.ok ())) acquisition
      s.store)
  | endQuery {x : Execution} {kept : Resources} {value answer : Except QueryError Sequence}
      {released : Except Lock.Error Unit} {mode : Lock.Mode} {trail : List Change} {store : Store} :
    s.actors t = ⟨.evaluated x kept value released, ⟨mode, [], []⟩, trail⟩ →
    s.store.concludeQuery x value released = (answer, store) →
    Step t s (s.answerQuery t answer store)
  | failQuery {x : Execution} {e : Lock.Error} {mode : Lock.Mode} {trail : List Change}
      {answer : Except QueryError Sequence} {store : Store} :
    s.actors t = ⟨.queryFailed x e, ⟨mode, [], []⟩, trail⟩ →
    s.store.failQuery x e = (answer, store) →
    Step t s (s.answerQuery t answer store)

/-- What threads may come to, in whatever order they take steps. -/
inductive Reachable (options : Lock.Options) : Traffic → Prop
  | start : Reachable options { store := Store.create options }
  | step {s s' : Traffic} {t : Thread} :
    Reachable options s → Step t s s' → Reachable options s'

/-- Steps of any threads, one after another. -/
def Steps : Traffic → Traffic → Prop := Relation.ReflTransGen fun s s' => ∃ t, Step t s s'

/-- Steps of one thread, one after another. -/
def Runs (t : Thread) : Traffic → Traffic → Prop := Relation.ReflTransGen (Step t)

/-! ## Requests in one go -/

@[simp] theorem put_put (s : Traffic) (t : Thread) (a a' : Actor) (store store' : Store) :
    (s.put t a store).put t a' store' = s.put t a' store' := by
  simp [put]

@[simp] theorem actors_put_self (s : Traffic) (t : Thread) (a : Actor) (store : Store) :
    (s.put t a store).actors t = a := by
  simp [put]

theorem actors_goOn (s : Traffic) (t : Thread) (task : Task) (acquisition : Lock.Acquisition)
    (store : Store) : (s.goOn t task acquisition store).actors t =
      ⟨task, acquisition, ⟨s.store, store⟩ :: (s.actors t).trail⟩ := by
  rw [goOn, actors_put_self]

/-- Whatever a thread has done before, it comes from one place in its work to another. -/
def Leads (s : Traffic) (t : Thread) (task : Task) (acquisition : Lock.Acquisition) (store : Store)
    (task' : Task) (acquisition' : Lock.Acquisition) (store' : Store) : Prop :=
  ∀ trail, ∃ trail', Runs t (s.put t ⟨task, acquisition, trail⟩ store)
    (s.put t ⟨task', acquisition', trail'⟩ store')

section Leads

variable {s : Traffic} {t : Thread} {task task' : Task} {store : Store} {mode : Lock.Mode}
  {held wanted : List Lock.Handle} {locks : Lock.Table}

theorem Leads.refl (acquisition : Lock.Acquisition) :
    s.Leads t task acquisition store task acquisition store :=
  fun trail => ⟨trail, .refl⟩

theorem Leads.trans {acquisition acquisition₁ acquisition' : Lock.Acquisition} {task₁ : Task}
    {store₁ store' : Store} (h : s.Leads t task acquisition store task₁ acquisition₁ store₁)
    (h' : s.Leads t task₁ acquisition₁ store₁ task' acquisition' store') :
    s.Leads t task acquisition store task' acquisition' store' := by
  intro trail
  rcases h trail with ⟨trail₁, hruns⟩
  rcases h' trail₁ with ⟨trail', hruns'⟩
  exact ⟨trail', hruns.trans hruns'⟩

theorem Leads.of_step {acquisition acquisition' : Lock.Acquisition} {store' : Store}
    (h : ∀ trail, Step t (s.put t ⟨task, acquisition, trail⟩ store)
      ((s.put t ⟨task, acquisition, trail⟩ store).goOn t task' acquisition' store')) :
    s.Leads t task acquisition store task' acquisition' store' := by
  intro trail
  have hstep := h trail
  rw [goOn, put_put] at hstep
  exact ⟨_, .single hstep⟩

/-- Locks are given back one by one. -/
theorem leads_of_releaseAll {f : Except Lock.Error Unit → Task}
    (hf : ∀ r r', (f r).giveBack? r' = some (f (r.bind fun _ => r')))
    (released : Except Lock.Error Unit) (held : List Lock.Handle) (store : Store) :
    s.Leads t (f released) ⟨mode, held, []⟩ store
      (f (released.bind fun _ => (Lock.Guard.releaseAll t mode held store.locks).1)) ⟨mode, [], []⟩
      { store with locks := (Lock.Guard.releaseAll t mode held store.locks).2 } := by
  induction held generalizing released store with
  | nil =>
    have hsame : (released.bind fun _ => .ok ()) = released := by cases released <;> rfl
    simp only [Lock.Guard.releaseAll, hsame]
    exact .refl _
  | cons h held ih =>
    rcases hrelease : store.locks.release t mode h with ⟨result, locks⟩
    have first : s.Leads t (f released) ⟨mode, h :: held, []⟩ store
        (f (released.bind fun _ => result)) ⟨mode, held, []⟩ { store with locks } := by
      refine .of_step fun trail => ?_
      exact .release (actors_put_self ..) hrelease (hf _ _)
    have others := ih (released.bind fun _ => result) { store with locks }
    refine first.trans ?_
    simp only [Lock.Guard.releaseAll, hrelease]
    -- the first failure counts, and whatever comes of it the others are given back
    cases released <;> cases result <;> exact others

/-- Locks that are all granted are taken one by one. -/
theorem leads_of_run_ok {g : Lock.Guard}
    (h : Lock.Acquisition.run ⟨mode, held, wanted⟩ store.options t store.locks = (.ok g, locks)) :
    s.Leads t task ⟨mode, held, wanted⟩ store task ⟨mode, g.locks, []⟩ { store with locks } := by
  -- each lock that is granted is a step of its own
  induction wanted generalizing held store with
  | nil =>
    simp only [Lock.Acquisition.run, Lock.Acquisition.advance, Lock.Acquisition.take,
      Prod.mk.injEq, Except.ok.injEq] at h
    rcases h with ⟨rfl, rfl⟩
    exact .refl _
  | cons k ks ih =>
    simp only [Lock.Acquisition.run, Lock.Acquisition.advance, Lock.Acquisition.take] at h ih
    cases hattempt : (store.locks k).attempt store.options t mode with
    | granted state =>
      have first : s.Leads t task ⟨mode, held, k :: ks⟩ store task ⟨mode, k :: held, ks⟩
          { store with locks := store.locks.set k state } := by
        exact .of_step fun trail => .acquire (actors_put_self ..) hattempt
      rw [hattempt] at h
      exact first.trans (ih h)
    -- a run to the end met no lock that is refused or not free
    | refused n =>
      rw [hattempt] at h
      simp at h
    | blocked =>
      rw [hattempt] at h
      simp [Lock.Acquisition.giveUp] at h

/-- When one lock is not granted, those taken are given back one by one. -/
theorem leads_of_run_error {e : Lock.Error} (htimeout : store.options.timeout.isSome = true)
    (hfail : task.fail? e = some task') (hback : ∀ r, task'.giveBack? r = some task')
    (h : Lock.Acquisition.run ⟨mode, held, wanted⟩ store.options t store.locks = (.error e, locks)) :
    s.Leads t task ⟨mode, held, wanted⟩ store task' ⟨mode, [], []⟩ { store with locks } := by
  -- locks are taken one by one until one fails; then all of them are given back
  induction wanted generalizing held store with
  | nil => simp [Lock.Acquisition.run, Lock.Acquisition.advance, Lock.Acquisition.take] at h
  | cons k ks ih =>
    simp only [Lock.Acquisition.run, Lock.Acquisition.advance, Lock.Acquisition.take] at h ih
    have rollback : s.Leads t task' ⟨mode, held, []⟩ store task' ⟨mode, [], []⟩
        { store with locks := (Lock.Guard.releaseAll t mode held store.locks).2 } :=
      leads_of_releaseAll (f := fun _ => task') (fun _ => hback) (.ok ()) held store
    cases hattempt : (store.locks k).attempt store.options t mode with
    | granted state =>
      have first : s.Leads t task ⟨mode, held, k :: ks⟩ store task ⟨mode, k :: held, ks⟩
          { store with locks := store.locks.set k state } := by
        exact .of_step fun trail => .acquire (actors_put_self ..) hattempt
      rw [hattempt] at h
      exact first.trans (ih htimeout h)
    | refused n =>
      rw [hattempt] at h
      simp only [Prod.mk.injEq, Except.error.injEq] at h
      rcases h with ⟨rfl, rfl⟩
      refine Leads.trans (.of_step fun trail => ?_) rollback
      exact .refuse (actors_put_self ..) hattempt hfail
    | blocked =>
      rw [hattempt] at h
      simp only [Lock.Acquisition.giveUp, Prod.mk.injEq, Except.error.injEq] at h
      rcases h with ⟨rfl, rfl⟩
      refine Leads.trans (.of_step fun trail => ?_) rollback
      exact .timeOut (actors_put_self ..) hattempt htimeout hfail

/-- An idle thread that is led from the beginning of a request to its end. -/
theorem exists_runs {s : Traffic} {t : Thread} {task task' : Task}
    {acquisition acquisition' : Lock.Acquisition} {store store' : Store}
    {finish : List Change → Traffic}
    (begins : Step t s (s.goOn t task acquisition store))
    (leads : s.Leads t task acquisition store task' acquisition' store')
    (ends : ∀ trail, Step t (s.put t ⟨task', acquisition', trail⟩ store') (finish trail)) :
    ∃ trail, Runs t s (finish trail) := by
  rcases leads (⟨s.store, store⟩ :: (s.actors t).trail) with ⟨trail, hruns⟩
  exact ⟨trail, (Relation.ReflTransGen.head begins hruns).tail (ends trail)⟩

end Leads

section Requests

variable {s : Traffic} {t : Thread}

theorem put_idle (hidle : s.actors t = {}) (store : Store) :
    s.put t {} store = { s with store } := by
  rw [put, ← hidle, Function.update_eq_self]

/-- A removal that holds its lock takes the document out and gives the lock back. -/
theorem leads_of_removing {r : Removal} {store store' : Store} {present : Bool} {mode : Lock.Mode}
    {held : List Lock.Handle} (htake : store.takeOut r.document = (present, store')) :
    s.Leads t (.removing r) ⟨mode, held, []⟩ store
      (.removed r present (Lock.Guard.releaseAll t mode held store'.locks).1) ⟨mode, [], []⟩
      { store' with locks := (Lock.Guard.releaseAll t mode held store'.locks).2 } := by
  have takesOut : s.Leads t (.removing r) ⟨mode, held, []⟩ store
      (.removed r present (.ok ())) ⟨mode, held, []⟩ store' :=
    .of_step fun trail => .takeOut (actors_put_self ..) htake
  have gives : s.Leads t (.removed r present (.ok ())) ⟨mode, held, []⟩ store' _ ⟨mode, [], []⟩ _ :=
    leads_of_releaseAll (f := .removed r present) (fun _ _ => rfl) (.ok ()) held store'
  exact takesOut.trans gives

/-- Removing a document while no other thread moves is a run of steps. -/
theorem runs_removeDocument (hidle : s.actors t = {})
    (htimeout : s.store.options.timeout.isSome = true) (path : String) :
    ∃ trail, Runs t s { s with
      store := (s.store.removeDocument path t).2
      removals := ⟨path, trail, (s.store.removeDocument path t).1⟩ :: s.removals } := by
  -- where a removal ends, nothing but the store and the answers has changed
  have hends : ∀ (task : Task) (acquisition : Lock.Acquisition) (trail : List Change)
      (store store' : Store) (answer : Except StoreError Document),
      (s.put t ⟨task, acquisition, trail⟩ store).answerRemoval t path answer store' =
        { s with
          store := store'
          removals := ⟨path, ⟨store, store'⟩ :: trail, answer⟩ :: s.removals } := by
    intro task acquisition trail store store' answer
    rw [answerRemoval, put_put, put_idle hidle, actors_put_self]
    rfl
  rcases hbegin : s.store.beginRemoval path with ⟨e | r, store⟩
  · have missed := Step.missRemoval hidle hbegin
    simp only [answerRemoval, put_idle hidle] at missed
    simp only [Store.removeDocument, hbegin]
    exact ⟨_, .single missed⟩
  · have begins := Step.beginRemoval hidle hbegin
    rcases Store.beginRemoval_eq_ok hbegin with ⟨-, hpath, -, hstore⟩
    have hoptions : store.options.timeout.isSome = true := by rwa [hstore]
    simp only [Store.removeDocument, hbegin]
    rcases hrun : r.acquisition.run store.options t store.locks with ⟨e | g, locks⟩
    · have leads : s.Leads t (.removing r) r.acquisition store (.removalFailed r e) _
          { store with locks } := leads_of_run_error hoptions rfl (fun _ => rfl) hrun
      rcases exists_runs begins leads fun trail =>
        .failRemoval (actors_put_self ..) rfl with ⟨trail, hruns⟩
      rw [hpath, hends] at hruns
      exact ⟨_, hruns⟩
    · have takes : s.Leads t (.removing r) r.acquisition store (.removing r)
          ⟨r.acquisition.mode, g.locks, []⟩ { store with locks } := leads_of_run_ok hrun
      have hmode : g.mode = r.acquisition.mode := by
        rw [Lock.Acquisition.run_ok (congrArg Prod.fst hrun)]
      rcases htake : { store with locks }.takeOut r.document with ⟨present, store₁⟩
      rcases hend : { store₁ with
          locks := (Lock.Guard.releaseAll t r.acquisition.mode g.locks store₁.locks).2
        }.concludeRemoval r present
          (Lock.Guard.releaseAll t r.acquisition.mode g.locks store₁.locks).1 with ⟨answer, store₂⟩
      rcases exists_runs begins (takes.trans (leads_of_removing htake)) fun trail =>
        .endRemoval (actors_put_self ..) hend with ⟨trail, hruns⟩
      rw [hpath, hends] at hruns
      simp only [Store.finishRemoval_eq, htake, Lock.Guard.unlock, hmode, hend]
      exact ⟨_, hruns⟩

/-- The documents of several calls are found one call after another. -/
theorem leads_of_resourcesAmong {q : CompiledQuery} {subject : Subject} {dynamic : DynamicContext}
    {store : Store} {calls : List ExprId} {more : Resources}
    (h : resourcesAmong ⟨store, subject, dynamic⟩ q calls = .ok more) (found : Resources) :
    s.Leads t (.finding q subject dynamic calls found) ⟨.read, [], []⟩ store
      (.finding q subject dynamic [] (found ++ more)) ⟨.read, [], []⟩ store := by
  induction calls generalizing found more with
  | nil =>
    obtain rfl : [] = more := Except.ok.inj h
    rw [List.append_nil]
    exact .refl _
  -- a query looks for its documents call by call
  | cons call calls ih =>
    rw [resourcesAmong_cons] at h
    cases hfirst : resourcesAmong ⟨store, subject, dynamic⟩ q [call] with
    | error e =>
      rw [hfirst] at h
      simp [bind, Except.bind] at h
    | ok first =>
      cases hothers : resourcesAmong ⟨store, subject, dynamic⟩ q calls with
      | error e =>
        rw [hfirst, hothers] at h
        simp [bind, Except.bind] at h
      | ok others =>
        rw [hfirst, hothers] at h
        obtain rfl : first ++ others = more := Except.ok.inj h
        rw [← List.append_assoc]
        refine Leads.trans (.of_step fun trail => ?_) (ih hothers (found ++ first))
        exact .find (actors_put_self ..) hfirst

/-- If some call fails, the documents of those before it are found. -/
theorem leads_of_resourcesAmong_error {q : CompiledQuery} {subject : Subject}
    {dynamic : DynamicContext} {store : Store} {calls : List ExprId} {e : QueryError}
    (h : resourcesAmong ⟨store, subject, dynamic⟩ q calls = .error e) (found : Resources) :
    ∃ call later found', resourcesAmong ⟨store, subject, dynamic⟩ q [call] = .error e ∧
      s.Leads t (.finding q subject dynamic calls found) ⟨.read, [], []⟩ store
        (.finding q subject dynamic (call :: later) found') ⟨.read, [], []⟩ store := by
  induction calls generalizing found with
  | nil => simp [resourcesAmong] at h
  | cons call calls ih =>
    rw [resourcesAmong_cons] at h
    cases hfirst : resourcesAmong ⟨store, subject, dynamic⟩ q [call] with
    -- either this call is the first to miss its documents, or a later one is
    | error e' =>
      rw [hfirst] at h
      obtain rfl : e' = e := Except.error.inj h
      exact ⟨call, calls, found, hfirst, .refl _⟩
    | ok first =>
      cases hothers : resourcesAmong ⟨store, subject, dynamic⟩ q calls with
      | error e' =>
        rw [hfirst, hothers] at h
        obtain rfl : e' = e := Except.error.inj h
        rcases ih hothers (found ++ first) with ⟨call', later, found', hcall, leads⟩
        refine ⟨call', later, found', hcall, Leads.trans (.of_step fun trail => ?_) leads⟩
        exact .find (actors_put_self ..) hfirst
      | ok others =>
        rw [hfirst, hothers] at h
        simp [bind, Except.bind, pure, Except.pure] at h

/-- Documents that have gone are left out of one call after another. -/
theorem leads_of_stillIn {x : Execution} {store : Store} {acquisition : Lock.Acquisition}
    (todo done : Resources) :
    s.Leads t (.rechecking x todo done) acquisition store
      (.rechecking x [] (done ++ todo.stillIn store)) acquisition store := by
  induction todo generalizing done with
  | nil =>
    rw [Resources.stillIn, List.map_nil, List.append_nil]
    exact .refl _
  | cons entry todo ih =>
    have hcons : done ++ Resources.stillIn (entry :: todo) store =
        (done ++ Resources.stillIn [entry] store) ++ Resources.stillIn todo store := by
      simp [Resources.stillIn]
    rw [hcons]
    exact Leads.trans (.of_step fun trail => .leaveOut (actors_put_self ..)) (ih _)

/-- A query that holds its locks goes on with the documents that are still there, whether or not it
has to go through its calls for that. -/
theorem leads_of_recheck {x : Execution} {store : Store} {mode : Lock.Mode}
    {held : List Lock.Handle} :
    s.Leads t (.querying x) ⟨mode, held, []⟩ store
      (.evaluating x (x.resources.stillIn store)) ⟨mode, held, []⟩ store := by
  have looks : s.Leads t (.querying x) ⟨mode, held, []⟩ store
      (if x.resources.gone store = 0 then .evaluating x x.resources
        else .rechecking x x.resources []) ⟨mode, held, []⟩ store :=
    .of_step fun trail => .recheck (actors_put_self ..)
  -- if no document is gone the query is evaluated at once, and nothing was to be left out
  by_cases hgone : x.resources.gone store = 0
  · rw [if_pos hgone] at looks
    rw [Resources.stillIn_of_none_gone hgone]
    exact looks
  · rw [if_neg hgone] at looks
    have leaves : s.Leads t (.rechecking x x.resources []) ⟨mode, held, []⟩ store
        (.rechecking x [] (x.resources.stillIn store)) ⟨mode, held, []⟩ store :=
      leads_of_stillIn x.resources []
    exact (looks.trans leaves).trans (.of_step fun trail => .rechecked (actors_put_self ..))

/-- A query that holds its locks is evaluated and gives the locks back. -/
theorem leads_of_querying {x : Execution} {store : Store} {mode : Lock.Mode}
    {held : List Lock.Handle} :
    s.Leads t (.querying x) ⟨mode, held, []⟩ store
      (.evaluated x (x.resources.stillIn store) (x.value store)
        (Lock.Guard.releaseAll t mode held store.locks).1) ⟨mode, [], []⟩
      { store with locks := (Lock.Guard.releaseAll t mode held store.locks).2 } := by
  have evaluates : s.Leads t (.evaluating x (x.resources.stillIn store)) ⟨mode, held, []⟩ store
      (.evaluated x (x.resources.stillIn store) (x.value store) (.ok ())) ⟨mode, held, []⟩ store :=
    .of_step fun trail => .evaluate (actors_put_self ..)
  have gives : s.Leads t (.evaluated x (x.resources.stillIn store) (x.value store) (.ok ()))
      ⟨mode, held, []⟩ store _ ⟨mode, [], []⟩ _ :=
    leads_of_releaseAll (f := .evaluated x _ _) (fun _ _ => rfl) (.ok ()) held store
  exact (leads_of_recheck.trans evaluates).trans gives

/-- Running a query while no other thread moves is a run of steps. -/
theorem runs_execute (hidle : s.actors t = {}) (htimeout : s.store.options.timeout.isSome = true)
    (q : CompiledQuery) (subject : Subject) (dynamic : DynamicContext) :
    Runs t s { s with
      store := (s.store.execute q subject dynamic t).2
      answers := (s.store.execute q subject dynamic t).1 :: s.answers } := by
  -- the steps of the query are put together in the order in which it goes through them
  have begins := Step.beginQuery q subject dynamic hidle
  have hends : ∀ (task : Task) (acquisition : Lock.Acquisition) (trail : List Change)
      (store store' : Store) (answer : Except QueryError Sequence),
      (s.put t ⟨task, acquisition, trail⟩ store).answerQuery t answer store' =
        { s with store := store', answers := answer :: s.answers } := by
    intro task acquisition trail store store' answer
    rw [answerQuery, put_put, put_idle hidle]
    rfl
  cases hfound : resourcesAmong ⟨s.store, subject, dynamic⟩ q q.tree.reachable with
  | error e =>
    rw [Store.execute_of_resources_error hfound]
    rcases leads_of_resourcesAmong_error (s := s) (t := t) hfound [] with
      ⟨call, later, found, hcall, leads⟩
    rcases exists_runs begins leads fun trail =>
      .miss (actors_put_self ..) hcall with ⟨trail, hruns⟩
    rw [hends] at hruns
    exact hruns
  | ok found =>
    have finds : s.Leads t (.finding q subject dynamic q.tree.reachable []) ⟨.read, [], []⟩
        s.store (.finding q subject dynamic [] found) _ s.store := leads_of_resourcesAmong hfound []
    generalize hx : (⟨q, dynamic, found, found.documents.acquisition .read⟩ : Execution) = x
    generalize hstore : { s.store with registry := s.store.registry.cloneAll x.handles } = store
    have hbegin : s.store.beginQuery q subject dynamic = (.ok x, store) := by
      subst hstore hx
      simp [Store.beginQuery, CompiledQuery.resources, hfound]
    have enters : s.Leads t (.finding q subject dynamic [] found) ⟨.read, [], []⟩ s.store
        (.querying x) x.acquisition store := by
      refine .of_step fun trail => ?_
      subst hstore hx
      exact .enter (actors_put_self ..)
    have hoptions : store.options.timeout.isSome = true := by
      subst hstore
      exact htimeout
    -- either a lock fails and ends the query, or all are held and it is evaluated and unlocks
    rcases hrun : x.acquisition.run store.options t store.locks with ⟨e | g, locks⟩
    · have fails : s.Leads t (.querying x) x.acquisition store (.queryFailed x e) _
          { store with locks } := leads_of_run_error hoptions rfl (fun _ => rfl) hrun
      rcases hend : { store with locks }.failQuery x e with ⟨answer, store₁⟩
      rcases exists_runs begins ((finds.trans enters).trans fails) fun trail =>
        .failQuery (actors_put_self ..) hend with ⟨trail, hruns⟩
      have hexecute : s.store.execute q subject dynamic t = (answer, store₁) := by
        simp only [Store.execute, hbegin, hrun, hend]
      rw [hends] at hruns
      rw [hexecute]
      exact hruns
    · have takes : s.Leads t (.querying x) x.acquisition store (.querying x)
          ⟨x.acquisition.mode, g.locks, []⟩ { store with locks } := leads_of_run_ok hrun
      have hmode : g.mode = x.acquisition.mode := by
        rw [Lock.Acquisition.run_ok (congrArg Prod.fst hrun)]
      have whole := ((finds.trans enters).trans takes).trans leads_of_querying
      rcases exists_runs begins whole fun trail =>
        .endQuery (actors_put_self ..) rfl with ⟨trail, hruns⟩
      have hexecute : s.store.execute q subject dynamic t =
          { store with locks }.finishQuery x g t := by
        simp only [Store.execute, hbegin, hrun]
      rw [hends] at hruns
      simp only [hexecute, Store.finishQuery, Lock.Guard.unlock, hmode]
      exact hruns

end Requests

end Traffic
end DocBase
