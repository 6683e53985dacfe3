import DocBase.Lock.Readers
/-!
# Reader/writer locks

A lock admits any number of reading threads or one writing thread. Holds are counted per thread: a
writer may take further holds of either kind, a reader further read holds, and the only reader may
take the write hold too. This module gives the states of one lock, the attempt to take a hold and
the giving back of one. Main statements: giving back a hold that was just taken restores the state
(`release?_take`), and a hold can be given back exactly when there is one (`release?_isSome`).
-/

namespace DocBase

/-- Documents are numbered by 32-bit words. -/
abbrev DocId := UInt32

namespace Lock

inductive Mode where
  | read
  | write
deriving DecidableEq, Repr

def Mode.name : Mode → String
  | .read => "read"
  | .write => "write"

/-- How long to wait and what to do about a reader that wants to write while others read. -/
structure Options where
  /-- Milliseconds to wait for a lock; `none` waits without end. -/
  timeout : Option Nat := some 30000
  /-- Refuse such a reader at once instead of letting it wait. -/
  refuseUpgrade : Bool := false
  /-- Report such a reader when it starts waiting. -/
  reportUpgrade : Bool := false
deriving DecidableEq, Repr

/-- Why a lock was not taken or not given back. There are no clocks here: how long was waited in
vain, which is measured when time is up, is neither part of the error nor of its message. -/
inductive Error where
  | timeout (document : DocId) (mode : Mode)
  | upgradeRefused (document : DocId) (readers : Nat)
  | notHeld (document : DocId) (mode : Mode)
deriving DecidableEq, Repr

namespace Error

def document : Error → DocId
  | timeout d _ | upgradeRefused d _ | notHeld d _ => d

/-- The kind of hold that was asked for. -/
def mode : Error → Mode
  | timeout _ m | notHeld _ m => m
  | upgradeRefused _ _ => .write

def message : Error → String
  | timeout d m => "timed out waiting for " ++ m.name ++ " lock on document " ++ toString d.toNat
  | upgradeRefused d n =>
    "refused to upgrade read lock on document " ++ toString d.toNat ++ ": " ++ toString n ++
      " other reader(s) hold it"
  | notHeld d m =>
    m.name ++ " lock on document " ++ toString d.toNat ++ " is not held by the current thread"

end Error

/-- Who holds a lock: the writing thread with the number of its write holds, and the reading threads
with the numbers of theirs. -/
structure State where
  writer : Option Thread := none
  writeHolds : Nat := 0
  readers : Readers := []
deriving DecidableEq, Repr

/-- What comes of asking for a hold. -/
inductive Attempt where
  | granted (s : State)
  | refused (readers : Nat)
  | blocked
deriving DecidableEq, Repr

namespace State

/-- How many threads other than `me` read. -/
def otherReaders (s : State) (me : Thread) : Nat :=
  (s.readers.threads.filter (· != me)).length

/-- How many threads read. -/
def readerCount (s : State) : Nat := s.readers.length

def canRead (s : State) (me : Thread) : Bool := s.writer.all (· == me)

def canWrite (s : State) (me : Thread) : Bool := s.canRead me && s.otherReaders me == 0

def grants (s : State) (me : Thread) : Mode → Bool
  | .read => s.canRead me
  | .write => s.canWrite me

def holds (s : State) (me : Thread) : Mode → Bool
  | .read => s.readers.threads.contains me
  | .write => s.writer == some me

/-- Adds a hold of `me`. -/
def take (s : State) (me : Thread) : Mode → State
  | .read => { s with readers := s.readers.enter me }
  | .write => { s with writer := some me, writeHolds := s.writeHolds + 1 }

/-- Asks for a hold: it is granted if nobody else stands in the way; otherwise a reader that wants
to write may be refused at once, and every other thread has to wait. -/
def attempt (options : Options) (s : State) (me : Thread) (mode : Mode) : Attempt :=
  if s.grants me mode then .granted (s.take me mode)
  else if mode = .write ∧ me ∈ s.readers.threads ∧ options.refuseUpgrade then
    .refused (s.otherReaders me)
  else .blocked

/-- Gives back one hold of `me`, if there is one. -/
def release? (s : State) (me : Thread) : Mode → Option State
  | .read => (s.readers.strike? me).map fun readers => { s with readers }
  | .write =>
    if s.writer = some me then
      let holds := s.writeHolds - 1
      some { s with writer := if holds = 0 then none else some me, writeHolds := holds }
    else none

/-! ## Laws -/

/-- A hold can be given back exactly when there is one. -/
theorem release?_isSome {s : State} {me : Thread} {mode : Mode} :
    (s.release? me mode).isSome = s.holds me mode := by
  cases mode with
  | read =>
    rw [Bool.eq_iff_iff, release?, Option.isSome_map, Readers.strike?_isSome, holds,
      List.contains_iff_mem]
  | write => by_cases h : s.writer = some me <;> simp [release?, holds, h]

/-- The holds of a kind are counted: those of each reader, or those of the writer, which a lock has
just as long as there are any. -/
def Counted (s : State) : Mode → Prop
  | .read => s.readers.Counted
  | .write => s.writer = none ↔ s.writeHolds = 0

/-- Giving back a hold that was just taken restores the state. -/
theorem release?_take {s : State} {me : Thread} {mode : Mode} (counted : s.Counted mode)
    (h : s.grants me mode = true) : (s.take me mode).release? me mode = some s := by
  cases mode with
  | read => simp [take, release?, Readers.strike?_enter counted.positive]
  | write =>
    simp only [grants, canWrite, canRead, Bool.and_eq_true] at h
    obtain ⟨w, n, r⟩ := s
    cases w with
    | none =>
      -- this is its first hold, and the last one
      have hn : n = 0 := counted.1 rfl
      simp [take, release?, hn]
    | some t =>
      have ht : t = me := by simpa using h.1
      have hn : n ≠ 0 := fun h0 => by simpa using counted.2 h0
      simp [take, release?, ht, hn]

end State
end Lock
end DocBase
