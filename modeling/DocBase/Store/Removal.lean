import DocBase.Store.Basic
/-!
# Removing documents

A removal finds the document at its path, waits for the document's write lock, so that running
queries finish first, and then takes the document out in one step. By then another removal may have
taken it out already, and its path may name a newer document, which is left alone. The locks without
a living handle are forgotten at the end, when the removal itself still has one.
-/

namespace DocBase

/-- A removal that has found its document and is taking its lock. -/
structure Removal where
  path : String
  document : Document
  acquisition : Lock.Acquisition

namespace Store

/-- Finds the document to remove. -/
def beginRemoval (s : Store) (path : String) : Except StoreError Removal × Store :=
  match s.documentAt? path with
  | none => (.error (.documentNotFound path), s)
  | some d =>
    (.ok ⟨path, d, (DocumentSet.ofList [d]).acquisition .write⟩,
      { s with registry := s.registry.clone d.lock })

/-- Takes a document out of the store, and its path if that still names it. Says whether the
document was there. -/
def takeOut (s : Store) (d : Document) : Bool × Store :=
  match s.document? d.id with
  | none => (false, s)
  | some stored =>
    -- a newer document at the same path stays filed
    let paths := if s.filed? d.uri = some d.id then Keyed.erase Prod.fst d.uri s.paths else s.paths
    (true, { s with
      documents := Keyed.erase Document.id d.id s.documents
      paths
      registry := s.registry.drop stored.lock })

/-- Forgets the locks without a living handle and says how many there were. -/
def purgeLocks (s : Store) : Nat × Store :=
  let (n, registry) := s.registry.purge
  (n, { s with registry })

/-- Ends a removal that did not get its lock. -/
def failRemoval (s : Store) (r : Removal) (e : Lock.Error) : Except StoreError Document × Store :=
  (.error (.lock e), { s with registry := s.registry.drop r.document.lock })

/-- Ends a removal that holds its lock. -/
def finishRemoval (s : Store) (r : Removal) (guard : Lock.Guard) (me : Thread) :
    Except StoreError Document × Store :=
  let (removed, s) := s.takeOut r.document
  let (released, locks) := guard.unlock me s.locks
  let s := { s with locks }
  match released with
  | .error e => s.failRemoval r e
  | .ok () =>
    -- the removal's own handle is dropped after the purge, which therefore keeps its lock
    let s := if removed then s.purgeLocks.2 else s
    let s := { s with registry := s.registry.drop r.document.lock }
    (if removed then .ok r.document else .error (.documentNotFound r.path), s)

/-- Removes the document at a path while no other thread moves. -/
def removeDocument (s : Store) (path : String) (me : Thread) :
    Except StoreError Document × Store :=
  match s.beginRemoval path with
  | (.error e, s) => (.error e, s)
  | (.ok r, s) =>
    match r.acquisition.run s.options me s.locks with
    | (.ok guard, locks) => { s with locks }.finishRemoval r guard me
    | (.error e, locks) => { s with locks }.failRemoval r e

end Store
end DocBase
