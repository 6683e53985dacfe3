import DocBase.Lock.Registry
/-!
# The states of all locks

A table gives every lock's state; a lock that was never taken is free.
-/

namespace DocBase.Lock

def Table : Type := Handle → State

namespace Table

/-- Every lock is free. -/
def free : Table := fun _ => {}

def set (t : Table) (h : Handle) (s : State) : Table := fun k => if k = h then s else t k

/-- Gives back one hold on a lock. -/
def release (t : Table) (me : Thread) (mode : Mode) (h : Handle) : Except Error Unit × Table :=
  match (t h).release? me mode with
  | some s => (.ok (), t.set h s)
  | none => (.error (.notHeld h.document mode), t)

@[simp] theorem set_self (t : Table) (h : Handle) (s : State) : t.set h s h = s := by
  simp [set]

@[simp] theorem set_ne {t : Table} {h k : Handle} {s : State} (hk : k ≠ h) :
    t.set h s k = t k := by
  simp [set, hk]

@[simp] theorem set_set (t : Table) (h : Handle) (s s' : State) :
    (t.set h s).set h s' = t.set h s' := by
  funext k
  by_cases hk : k = h <;> simp [set, hk]

@[simp] theorem set_get (t : Table) (h : Handle) : t.set h (t h) = t := by
  funext k
  by_cases hk : k = h <;> simp [set, hk]

end Table
end DocBase.Lock
