import DocBase.Document.Set
import DocBase.Lock.Acquisition
/-!
# Locking the documents of a set

The locks of a set are taken in ascending order of document ids.
-/

namespace DocBase.DocumentSet

/-- The locks of the documents, in the order they are taken. -/
def locks (s : DocumentSet) : List Lock.Handle := s.documents.map Document.lock

/-- Before any lock of the set is taken. -/
def acquisition (s : DocumentSet) (mode : Lock.Mode) : Lock.Acquisition :=
  { mode, wanted := s.locks }

/-- Locks all documents of the set while no other thread moves. -/
def lock (s : DocumentSet) (mode : Lock.Mode) (options : Lock.Options) (me : Thread)
    (t : Lock.Table) : Except Lock.Error Lock.Guard × Lock.Table :=
  (s.acquisition mode).run options me t

end DocBase.DocumentSet
