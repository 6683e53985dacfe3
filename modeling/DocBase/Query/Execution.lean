import DocBase.Query.Resources
/-!
# Running queries

A query finds its documents, takes a read lock on each of them, leaves out those that were removed
while it waited, evaluates and gives the locks back. An `Execution` is a query that has found its
documents and is taking their locks, so that other threads may move before it goes on. Main
statement: `execute_of_resources_error` — a query whose documents are not found leaves the store
alone.
-/

namespace DocBase

namespace Query

/-- A query that has found its documents and is taking their locks. -/
structure Execution where
  query : CompiledQuery
  dynamic : DynamicContext
  resources : Resources
  acquisition : Lock.Acquisition

namespace Execution

/-- The handles a query keeps to the locks of its documents. -/
def handles (x : Execution) : List Lock.Handle := x.resources.documents.locks

/-- The value of the query over a store. -/
def value (x : Execution) (s : Store) : Except QueryError Sequence :=
  Evaluation.run ⟨x.query.tree, x.dynamic, x.resources.stillIn s⟩

end Execution
end Query

open Query

namespace Store

/-- Finds the documents of a query. -/
def beginQuery (s : Store) (q : CompiledQuery) (subject : Subject) (dynamic : DynamicContext) :
    Except QueryError Execution × Store :=
  match q.resources ⟨s, subject, dynamic⟩ with
  | .error e => (.error e, s)
  | .ok resources =>
    let x : Execution := ⟨q, dynamic, resources, resources.documents.acquisition .read⟩
    (.ok x, { s with registry := s.registry.cloneAll x.handles })

/-- Ends a query that did not get its locks. -/
def failQuery (s : Store) (x : Execution) (e : Lock.Error) : Except QueryError Sequence × Store :=
  (.error (.lock e), { s with registry := s.registry.dropAll x.handles })

/-- Evaluates a query that holds its locks and ends it. What is wrong with the evaluation counts
before what is wrong with giving the locks back. -/
def finishQuery (s : Store) (x : Execution) (guard : Lock.Guard) (me : Thread) :
    Except QueryError Sequence × Store :=
  -- evaluated while the locks are held
  let value := x.value s
  let (released, locks) := guard.unlock me s.locks
  let answer := value.bind fun items => (released.mapError QueryError.lock).map fun _ => items
  (answer, { s with locks, registry := s.registry.dropAll x.handles })

/-- Runs a query while no other thread moves. -/
def execute (s : Store) (q : CompiledQuery) (subject : Subject) (dynamic : DynamicContext)
    (me : Thread) : Except QueryError Sequence × Store :=
  match s.beginQuery q subject dynamic with
  | (.error e, s) => (.error e, s)
  | (.ok x, s) =>
    match x.acquisition.run s.options me s.locks with
    | (.ok guard, locks) => { s with locks }.finishQuery x guard me
    | (.error e, locks) => { s with locks }.failQuery x e

/-- Compiles a query and runs it. -/
def evaluateQuery (s : Store) (source : String) (static : StaticContext) (subject : Subject)
    (dynamic : DynamicContext) (me : Thread) : Except QueryError Sequence × Store :=
  match compile source static with
  | .error e => (.error e, s)
  | .ok q => s.execute q subject dynamic me

/-- A query whose documents are not found leaves the store alone. -/
theorem execute_of_resources_error {s : Store} {q : CompiledQuery} {subject : Subject}
    {dynamic : DynamicContext} {e : QueryError}
    (h : q.resources ⟨s, subject, dynamic⟩ = .error e) (me : Thread) :
    s.execute q subject dynamic me = (.error e, s) := by
  simp [execute, beginQuery, h]

end Store
end DocBase
