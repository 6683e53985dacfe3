/-!
# The readers of a lock

Each reading thread is entered with the number of its read holds. A hold that is taken is counted in
the entry of its thread, which is made if there is none; one that is given back is taken off, and an
entry that comes to zero is struck out. Main statement: to strike off a hold that was just entered
leaves the entries as they were (`strike?_enter`).
-/

namespace DocBase

/-- Threads are told apart by name. -/
abbrev Thread := String

namespace Lock

/-- The reading threads, each with the number of its read holds. -/
abbrev Readers := List (Thread × Nat)

namespace Readers

/-- The threads that are entered. -/
def threads (r : Readers) : List Thread := r.map Prod.fst

/-- The number of read holds that a thread is entered with. -/
def holds : Readers → Thread → Nat
  | [], _ => 0
  | (u, n) :: r, t => if u = t then n else holds r t

/-- One more hold of a thread. -/
def enter : Readers → Thread → Readers
  | [], t => [(t, 1)]
  | (u, n) :: r, t => if u = t then (u, n + 1) :: r else (u, n) :: enter r t

/-- One hold of a thread less, if it is entered. -/
def strike? : Readers → Thread → Option Readers
  | [], _ => none
  | (u, n) :: r, t =>
    if u = t then
      let left := n - 1
      some (if left = 0 then r else (u, left) :: r)
    else (strike? r t).map ((u, n) :: ·)

/-- No thread is entered twice, and none without a hold. So there is always something to take
off. -/
structure Counted (r : Readers) : Prop where
  once : r.threads.Nodup
  positive : ∀ entry ∈ r, entry.2 ≠ 0

/-! ## Laws -/

/-- A hold can be struck off exactly when its thread is entered. -/
theorem strike?_isSome {r : Readers} {t : Thread} :
    (r.strike? t).isSome = true ↔ t ∈ r.threads := by
  induction r with
  | nil => simp [strike?, threads]
  | cons entry r ih =>
    rw [threads] at ih
    by_cases ht : entry.1 = t
    · simp [strike?, threads, ht]
    · simp [strike?, threads, ht, Ne.symm ht, ih]

/-- To strike off a hold that was just entered leaves the entries as they were. -/
theorem strike?_enter {r : Readers} (positive : ∀ entry ∈ r, entry.2 ≠ 0) (t : Thread) :
    (r.enter t).strike? t = some r := by
  induction r with
  | nil => simp [enter, strike?]
  | cons entry r ih =>
    rcases entry with ⟨u, n⟩
    have hrest := ih fun e he => positive e (List.mem_cons_of_mem _ he)
    by_cases ht : u = t
    · -- the thread had an entry before, so this one does not come to zero
      have hn : n ≠ 0 := positive (u, n) List.mem_cons_self
      simp [enter, strike?, ht, hn]
    · simp [enter, strike?, ht, hrest]

end Readers
end Lock
end DocBase
