import DocBase.Query.Execution
import DocBase.Store.Removal
/-!
# Requests of threads

Several threads work on one store. Each thread keeps guards by name; handles to locks are kept by
name for all threads. A request is answered at once, or it has to wait for locks and is continued
when they are taken or when waiting ends without them.
-/

namespace DocBase

structure Session where
  store : Store
  guards : List ((Thread × String) × Lock.Guard) := []
  handles : List (String × Lock.Handle) := []

namespace Session

/-- The store with other locks. -/
def withLocks (s : Session) (locks : Lock.Table) : Session :=
  { s with store := { s.store with locks } }

/-- The store with another registry. -/
def withRegistry (s : Session) (registry : Lock.Registry) : Session :=
  { s with store := { s.store with registry } }

/-! ## Guards -/

def keptGuard? (s : Session) (me : Thread) (name : String) : Option Lock.Guard :=
  s.guards.lookup (me, name)

/-- Gives back the locks of a guard that is no longer kept. -/
def closeGuard (s : Session) (me : Thread) (name : String) :
    Option (Except Lock.Error Unit) × Session :=
  match s.keptGuard? me name with
  | none => (none, s)
  | some g =>
    let (released, locks) := g.unlock me s.store.locks
    let s := (s.withLocks locks).withRegistry (s.store.registry.dropAll g.locks)
    (some released, { s with guards := s.guards.filter (·.1 != (me, name)) })

/-- Keeps a guard under a name; one of that name is closed. -/
def keepGuard (s : Session) (me : Thread) (name : String) (g : Lock.Guard) : Session :=
  -- the new locks are held by now, so a lock that both guards hold is never free in between
  let s := (s.closeGuard me name).2
  { s with guards := ((me, name), g) :: s.guards }

/-! ## Handles -/

/-- Lets a handle go, if there is one of that name. -/
def dropHandle (s : Session) (name : String) : Bool × Session :=
  match s.handles.lookup name with
  | none => (false, s)
  | some h =>
    let s := s.withRegistry (s.store.registry.drop h)
    (true, { s with handles := s.handles.filter (·.1 != name) })

/-- Keeps a handle to the lock of an id; says which one, and how many handles to it were kept. -/
def keepHandle (s : Session) (document : DocId) (name : String) : (Lock.Handle × Nat) × Session :=
  let (h, registry) := s.store.registry.obtain document
  let same := (s.handles.filter (·.2 == h)).length
  let s := ((s.withRegistry registry).dropHandle name).2
  ((h, same), { s with handles := (name, h) :: s.handles })

end Session

/-! ## Requests -/

/-- A request that is taking locks: what remains to be taken, and how it ends with and without
them. -/
structure Wait (α : Type) where
  acquisition : Lock.Acquisition
  granted : Lock.Guard → Session → α × Session
  failed : Lock.Error → Session → α × Session

/-- What a request has come to. -/
inductive Outcome (α : Type) where
  | answered (answer : α) (s : Session)
  | waiting (w : Wait α) (s : Session)

/-- Something a thread asks for. -/
abbrev Request (α : Type) : Type := Thread → Session → Outcome α

namespace Wait

variable {α β : Type}

/-- Takes the locks that can be taken now. -/
def advance (w : Wait α) : Request α := fun me s =>
  match w.acquisition.advance s.store.options me s.store.locks with
  | (.complete g, locks) =>
    let (answer, s) := w.granted g (s.withLocks locks)
    .answered answer s
  | (.failed e, locks) =>
    let (answer, s) := w.failed e (s.withLocks locks)
    .answered answer s
  | (.waiting acquisition, locks) => .waiting { w with acquisition } (s.withLocks locks)

/-- Ends the wait: time is up. -/
def expire (w : Wait α) (me : Thread) (s : Session) : α × Session :=
  match w.acquisition.giveUp me s.store.locks with
  | (.ok g, locks) => w.granted g (s.withLocks locks)
  | (.error e, locks) => w.failed e (s.withLocks locks)

def map (f : α → β) (w : Wait α) : Wait β where
  acquisition := w.acquisition
  granted g s := (w.granted g s).map f id
  failed e s := (w.failed e s).map f id

end Wait

namespace Request

variable {α β : Type}

def map (f : α → β) (r : Request α) : Request β := fun me s =>
  match r me s with
  | .answered a s => .answered (f a) s
  | .waiting w s => .waiting (w.map f) s

/-- Takes one hold on a lock and answers its state then. -/
def acquire (h : Lock.Handle) (mode : Lock.Mode) : Request (Except Lock.Error Lock.State) :=
  fun me s =>
    let wait : Wait (Except Lock.Error Lock.State) := {
      acquisition := { mode, wanted := [h] }
      granted := fun _ s => (.ok (s.store.locks h), s.withRegistry (s.store.registry.drop h))
      failed := fun e s => (.error e, s.withRegistry (s.store.registry.drop h)) }
    wait.advance me (s.withRegistry (s.store.registry.clone h))

/-- Locks a set of documents and keeps the guard under a name. -/
def lockSet (d : DocumentSet) (mode : Lock.Mode) (name : String) :
    Request (Except Lock.Error Lock.Guard) := fun me s =>
  let wait : Wait (Except Lock.Error Lock.Guard) := {
    acquisition := d.acquisition mode
    granted := fun g s => (.ok g, s.keepGuard me name g)
    failed := fun e s => (.error e, s.withRegistry (s.store.registry.dropAll d.locks)) }
  wait.advance me (s.withRegistry (s.store.registry.cloneAll d.locks))

/-- Removes the document at a path. -/
def remove (path : String) : Request (Except StoreError Document) := fun me s =>
  match s.store.beginRemoval path with
  | (.error e, store) => .answered (.error e) { s with store }
  | (.ok r, store) =>
    let wait : Wait (Except StoreError Document) := {
      acquisition := r.acquisition
      granted := fun g s =>
        let (answer, store) := s.store.finishRemoval r g me
        (answer, { s with store })
      failed := fun e s =>
        let (answer, store) := s.store.failRemoval r e
        (answer, { s with store }) }
    wait.advance me { s with store }

/-- Runs a query for a subject. -/
def query (source : String) (static : Query.StaticContext) (subject : Subject)
    (dynamic : Query.DynamicContext) : Request (Except Query.QueryError Query.Sequence) :=
  fun me s =>
    match (Query.compile source static).map fun q => s.store.beginQuery q subject dynamic with
    | .error e => .answered (.error e) s
    | .ok (.error e, store) => .answered (.error e) { s with store }
    | .ok (.ok x, store) =>
      let wait : Wait (Except Query.QueryError Query.Sequence) := {
        acquisition := x.acquisition
        granted := fun g s =>
          let (answer, store) := s.store.finishQuery x g me
          (answer, { s with store })
        failed := fun e s =>
          let (answer, store) := s.store.failQuery x e
          (answer, { s with store }) }
      wait.advance me { s with store }

end Request
end DocBase
