import DocBase.Proofs.Lock.Holds
import Mathlib.Logic.Function.Basic
/-!
# Whose the holds on the locks are

Where threads take locks only by their acquisitions, each lock has exactly the holds that these say.
So a thread can give back what it holds, a lock that is not granted is held by some thread, and what
one thread holds for writing no other thread holds. Main statements:

* `Accounts.acquire` and `Accounts.release` — a lock that changes hands is entered or struck off;
* `Accounts.release_ok` — a lock that is held is given back;
* `Accounts.exists_holder` and `Accounts.not_held` — who stands in the way of whom.
-/

namespace DocBase.Lock

/-- How many holds of a kind an acquisition has on a lock. -/
def Acquisition.holdsOn (a : Acquisition) (h : Handle) (kind : Mode) : Nat :=
  if a.mode = kind then a.held.count h else 0

/-- Every lock is sound, and its holds are those of the threads' acquisitions. -/
structure Accounts (locks : Table) (acquisitions : Thread → Acquisition) : Prop where
  sound : ∀ h, (locks h).Sound
  held : ∀ t h kind, (locks h).holdCount t kind = (acquisitions t).holdsOn h kind

namespace Accounts

variable {locks locks' : Table} {acquisitions : Thread → Acquisition} {t u : Thread}
  {a b : Acquisition} {mode : Mode} {held wanted wanted' : List Handle} {h : Handle} {state : State}

/-- Nobody holds a lock that is free. -/
theorem start (hnone : ∀ t, (acquisitions t).held = []) : Accounts Table.free acquisitions where
  sound _ := State.sound_free
  held t h kind := by
    cases kind <;> simp [Table.free, State.holdCount, Readers.holds, Acquisition.holdsOn, hnone]

/-- A thread may do anything that leaves its holds as they are. -/
theorem update (accounts : Accounts locks acquisitions) (ht : acquisitions t = a)
    (hlocks : locks' = locks) (hheld : b.held = a.held) (hmode : b.mode = a.mode ∨ b.held = []) :
    Accounts locks' (Function.update acquisitions t b) where
  sound := hlocks ▸ accounts.sound
  held u k kind := by
    rw [hlocks, accounts.held u k kind]
    rcases eq_or_ne u t with rfl | hu
    · rw [Function.update_self, ht, Acquisition.holdsOn, Acquisition.holdsOn]
      rcases hmode with hmode | hnil
      · rw [hmode, hheld]
      · rw [← hheld, hnil]
        simp
    · rw [Function.update_of_ne hu]

/-- One lock and one acquisition change. -/
theorem set (accounts : Accounts locks acquisitions) (sound : state.Sound)
    (hself : ∀ kind, state.holdCount t kind = b.holdsOn h kind)
    (hothers : ∀ u, u ≠ t → ∀ kind, state.holdCount u kind = (locks h).holdCount u kind)
    (hrest : ∀ k, k ≠ h → ∀ kind, b.holdsOn k kind = (acquisitions t).holdsOn k kind) :
    Accounts (locks.set h state) (Function.update acquisitions t b) where
  sound := Table.forall_set accounts.sound sound
  held u k kind := by
    rcases eq_or_ne k h with rfl | hk
    · rw [Table.set_self]
      rcases eq_or_ne u t with rfl | hu
      · rw [Function.update_self, hself]
      · rw [Function.update_of_ne hu, hothers u hu, accounts.held]
    · rw [Table.set_ne hk, accounts.held]
      rcases eq_or_ne u t with rfl | hu
      · rw [Function.update_self, hrest k hk]
      · rw [Function.update_of_ne hu]

/-- A lock that is granted is entered. -/
theorem acquire (accounts : Accounts locks acquisitions)
    (ht : acquisitions t = ⟨mode, held, h :: wanted⟩) (hgrants : (locks h).grants t mode = true) :
    Accounts (locks.set h ((locks h).take t mode))
      (Function.update acquisitions t ⟨mode, h :: held, wanted⟩) := by
  -- the hold goes from what is wanted to what is held, of this thread and at this lock only
  have hcount := State.holdCount_take (accounts.sound h) hgrants
  apply accounts.set ((accounts.sound h).take hgrants)
  · intro kind
    rw [hcount, accounts.held, ht]
    by_cases hkind : kind = mode
    · simp [Acquisition.holdsOn, hkind]
    · simp [Acquisition.holdsOn, hkind, Ne.symm hkind]
  · intro u hu kind
    simp [hcount, hu]
  · intro k hk kind
    simp [Acquisition.holdsOn, ht, List.count_cons_of_ne (Ne.symm hk)]

/-- A lock that is held is given back. -/
theorem release_ok (accounts : Accounts locks acquisitions)
    (ht : acquisitions t = ⟨mode, h :: held, wanted⟩) :
    ∃ state, (locks h).release? t mode = some state ∧
      locks.release t mode h = (.ok (), locks.set h state) := by
  rcases Table.release_cases (accounts.sound h) t mode with ⟨-, hrelease⟩ | ⟨hzero, -⟩
  · exact hrelease
  · rw [accounts.held, ht] at hzero
    simp [Acquisition.holdsOn] at hzero

/-- A lock that is given back is struck off. -/
theorem release (accounts : Accounts locks acquisitions)
    (ht : acquisitions t = ⟨mode, h :: held, wanted⟩) (hrelease : (locks h).release? t mode = some state) :
    Accounts (locks.set h state) (Function.update acquisitions t ⟨mode, held, wanted'⟩) := by
  -- what comes off the lock is the first of the locks that are held
  have hcount := State.holdCount_release (accounts.sound h) hrelease
  apply accounts.set ((accounts.sound h).release hrelease)
  · intro kind
    have hself := hcount t kind
    rw [accounts.held, ht] at hself
    by_cases hkind : kind = mode
    · simp only [Acquisition.holdsOn, hkind, and_self, if_true, List.count_cons_self] at hself ⊢
      omega
    · simp only [Acquisition.holdsOn, hkind, Ne.symm hkind, and_false, if_false] at hself ⊢
      omega
  · intro u hu kind
    have hother := hcount u kind
    simpa [hu] using hother
  · intro k hk kind
    simp [Acquisition.holdsOn, ht, List.count_cons_of_ne (Ne.symm hk)]

/-- Who has a hold on a lock has taken it. -/
theorem mem_held (accounts : Accounts locks acquisitions) (hholds : (locks h).holds t mode = true) :
    h ∈ (acquisitions t).held := by
  have hcount := (accounts.sound h).holds_iff.1 hholds
  rw [accounts.held, Acquisition.holdsOn] at hcount
  split at hcount
  · exact List.count_pos_iff.1 (Nat.pos_of_ne_zero hcount)
  · contradiction

/-- Some thread stands in the way of a hold that is not granted. -/
theorem exists_holder (accounts : Accounts locks acquisitions)
    (hgrants : (locks h).grants t mode = false) : ∃ u, h ∈ (acquisitions u).held := by
  rcases State.exists_holder hgrants with ⟨u, -, hwriter | hreader⟩
  · have hholds : (locks h).holds u .write = true := by simp [State.holds, hwriter]
    exact ⟨u, accounts.mem_held hholds⟩
  · have hholds : (locks h).holds u .read = true := by simpa [State.holds] using hreader
    exact ⟨u, accounts.mem_held hholds⟩

/-- What one thread holds for writing no other thread holds. -/
theorem not_held (accounts : Accounts locks acquisitions) (hmode : (acquisitions t).mode = .write)
    (ht : h ∈ (acquisitions t).held) (hu : u ≠ t) : h ∉ (acquisitions u).held := by
  intro hmem
  have hwrites : (locks h).holdCount t .write ≠ 0 := by
    have hpos := List.count_pos_iff.2 ht
    rw [accounts.held, Acquisition.holdsOn, if_pos hmode]
    omega
  have hnone : (locks h).holdCount u (acquisitions u).mode = 0 := (accounts.sound h).alone hwrites hu
  have hpos := List.count_pos_iff.2 hmem
  rw [accounts.held, Acquisition.holdsOn, if_pos rfl] at hnone
  omega

end Accounts
end DocBase.Lock
