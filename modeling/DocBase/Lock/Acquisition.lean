import DocBase.Lock.Table
/-!
# Taking several locks

Locks are taken one after another in the order they are wanted, and they are all taken or none: when
one is refused or not granted in time, those taken before are given back in reverse order. An
`Acquisition` is a list of locks part-way taken, so that another thread may move between two of its
steps; a `Guard` is a list of locks that are held. Main statement: an acquisition that completes
holds every lock it wanted (`take_complete`).
-/

namespace DocBase.Lock

/-- The holds one thread has on some locks, the last one taken first. -/
structure Guard where
  mode : Mode
  locks : List Handle
deriving DecidableEq, Repr

/-- Locks being taken: those held, the last one taken first, and those still wanted. -/
structure Acquisition where
  mode : Mode
  held : List Handle := []
  wanted : List Handle
deriving DecidableEq, Repr

/-- How far an acquisition has come. -/
inductive Progress where
  | complete (guard : Guard)
  | waiting (rest : Acquisition)
  | failed (error : Error)
deriving DecidableEq, Repr

namespace Guard

/-- Gives back one hold per lock, in order; the first failure is reported and does not keep the
other holds from being given back. -/
def releaseAll (me : Thread) (mode : Mode) : List Handle → Table → Except Error Unit × Table
  | [], t => (.ok (), t)
  | h :: hs, t =>
    let (first, t) := t.release me mode h
    -- the others are given back in any case
    let (others, t) := releaseAll me mode hs t
    match first with
    | .ok () => (others, t)
    | .error e => (.error e, t)

def unlock (g : Guard) (me : Thread) (t : Table) : Except Error Unit × Table :=
  releaseAll me g.mode g.locks t

def size (g : Guard) : Nat := g.locks.length

end Guard

namespace Acquisition

/-- All locks concerned, in the order they are taken. -/
def locks (a : Acquisition) : List Handle := a.held.reverse ++ a.wanted

/-- Takes the locks that are wanted for as long as they are granted. A refusal gives back those
taken. -/
def take (options : Options) (me : Thread) (mode : Mode) :
    List Handle → List Handle → Table → Progress × Table
  | held, [], t => (.complete ⟨mode, held⟩, t)
  | held, h :: hs, t =>
    match (t h).attempt options me mode with
    | .granted s => take options me mode (h :: held) hs (t.set h s)
    | .refused readers =>
      (.failed (.upgradeRefused h.document readers), (Guard.releaseAll me mode held t).2)
    | .blocked => (.waiting ⟨mode, held, h :: hs⟩, t)

def advance (a : Acquisition) (options : Options) (me : Thread) (t : Table) : Progress × Table :=
  take options me a.mode a.held a.wanted t

/-- Ends the wait for the first lock that is wanted: the locks taken are given back. -/
def giveUp (a : Acquisition) (me : Thread) (t : Table) : Except Error Guard × Table :=
  match a.wanted with
  | [] => (.ok ⟨a.mode, a.held⟩, t)
  | h :: _ => (.error (.timeout h.document a.mode), (Guard.releaseAll me a.mode a.held t).2)

/-- Takes all locks while no other thread moves, so that what is not granted at once never is. -/
def run (a : Acquisition) (options : Options) (me : Thread) (t : Table) :
    Except Error Guard × Table :=
  match a.advance options me t with
  | (.complete guard, t) => (.ok guard, t)
  | (.failed e, t) => (.error e, t)
  | (.waiting rest, t) => rest.giveUp me t

/-- A completed acquisition holds every lock that was wanted, and those held before. -/
theorem take_complete {options : Options} {me : Thread} {mode : Mode} {held wanted : List Handle}
    {t : Table} {g : Guard} (h : (take options me mode held wanted t).1 = .complete g) :
    g = ⟨mode, wanted.reverse ++ held⟩ := by
  induction wanted generalizing held t with
  | nil =>
    simp only [take, Progress.complete.injEq] at h
    simp [← h]
  | cons k ks ih =>
    simp only [take] at h
    split at h
    · rw [ih h]
      simp
    · simp at h
    · simp at h

/-- An acquisition that waits, waits for a lock. -/
theorem wanted_of_take_waiting {options : Options} {me : Thread} {mode : Mode}
    {held wanted : List Handle} {t : Table} {rest : Acquisition}
    (h : (take options me mode held wanted t).1 = .waiting rest) : rest.wanted ≠ [] := by
  induction wanted generalizing held t with
  | nil => simp [take] at h
  | cons k ks ih =>
    simp only [take] at h
    split at h
    · exact ih h
    · simp at h
    · simp only [Progress.waiting.injEq] at h
      simp [← h]

/-- Locks that are all taken at once are held in reverse order. -/
theorem run_ok {a : Acquisition} {options : Options} {me : Thread} {t : Table} {g : Guard}
    (h : (a.run options me t).1 = .ok g) : g = ⟨a.mode, a.wanted.reverse ++ a.held⟩ := by
  unfold run at h
  split at h
  · next hc =>
    simp only [Except.ok.injEq] at h
    exact h ▸ take_complete (congrArg Prod.fst hc)
  · simp at h
  · next hw =>
    have hne := wanted_of_take_waiting (congrArg Prod.fst hw)
    unfold giveUp at h
    split at h
    · contradiction
    · simp at h

end Acquisition
end DocBase.Lock
