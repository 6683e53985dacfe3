import DocBase.Keyed
import DocBase.Lock.State
/-!
# The registry of locks

Locks are handed out by document id. A handle names one lock; the registry keeps at most one lock
per id, and forgets it in a purge once no handle to it is alive. Handles are counted: a lock is
alive while its handle occurs in `live`. Main statement: `obtain_of_live` — while any handle to an
id's lock is alive, asking again gives the same lock.
-/

namespace DocBase.Lock

/-- Names a lock: a serial number that is never used twice, and the document it guards. -/
structure Handle where
  serial : Nat
  document : DocId
deriving DecidableEq, Repr

structure Registry where
  /-- The lock each id is given, in ascending order of ids. -/
  entries : List Handle := []
  /-- Every handle once per place that keeps it. -/
  live : List Handle := []
  nextSerial : Nat := 0
deriving DecidableEq, Repr

namespace Registry

/-- A lock that nobody has seen yet, in place of an earlier one for the same id. -/
def fresh (r : Registry) (document : DocId) : Handle × Registry :=
  let h : Handle := ⟨r.nextSerial, document⟩
  (h, { entries := Keyed.insert Handle.document h r.entries
        live := h :: r.live
        nextSerial := r.nextSerial + 1 })

/-- A further handle to a lock. -/
def clone (r : Registry) (h : Handle) : Registry := { r with live := h :: r.live }

/-- One handle less. -/
def drop (r : Registry) (h : Handle) : Registry := { r with live := r.live.erase h }

def cloneAll (r : Registry) (hs : List Handle) : Registry := hs.foldl clone r

def dropAll (r : Registry) (hs : List Handle) : Registry := hs.foldl drop r

/-- A handle to the lock of an id; the lock is made if there is none or only a dead one. -/
def obtain (r : Registry) (document : DocId) : Handle × Registry :=
  match Keyed.find? Handle.document document r.entries with
  | some h => if h ∈ r.live then (h, r.clone h) else r.fresh document
  | none => r.fresh document

/-- Forgets the locks without a living handle and says how many there were. -/
def purge (r : Registry) : Nat × Registry :=
  let kept := r.entries.filter (· ∈ r.live)
  (r.entries.length - kept.length, { r with entries := kept })

/-- While a handle to an id's lock is alive, asking again gives the same lock. -/
theorem obtain_of_live {r : Registry} {document : DocId} {h : Handle}
    (he : Keyed.find? Handle.document document r.entries = some h) (hl : h ∈ r.live) :
    r.obtain document = (h, r.clone h) := by
  simp [obtain, he, hl]

theorem drop_clone (r : Registry) (h : Handle) : (r.clone h).drop h = r := by
  simp [clone, drop]

end Registry
end DocBase.Lock
