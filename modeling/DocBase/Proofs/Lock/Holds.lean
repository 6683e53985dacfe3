import DocBase.Lock.Acquisition
import Mathlib.Data.List.Basic
/-!
# Holds on a lock

What the state of a lock says about each thread: how many holds of either kind it has. Taking a hold
that is granted adds one to the count of one thread and giving one back takes one off; a writer
never shares the lock with another thread, and no entry of a reader outlives its last hold. Main
statements:

* `Readers.Counted.enter` and `Readers.Counted.strike` — entries are made and struck out in time;
* `State.Sound.take` and `State.Sound.release` — exclusion is kept by every change to a lock;
* `State.holdCount_take` and `State.holdCount_release` — what a change does to the counts.
-/

namespace DocBase.Lock

/-! ## Entries of readers -/

namespace Readers

variable {r r' : Readers} {t u : Thread} {n : Nat}

theorem mem_threads_of_mem (h : (t, n) ∈ r) : t ∈ r.threads := List.mem_map_of_mem h

/-- A thread with a hold has an entry that says so. -/
theorem mem_of_holds (h : r.holds t ≠ 0) : (t, r.holds t) ∈ r := by
  induction r with
  | nil => simp [holds] at h
  | cons entry r ih =>
    rcases entry with ⟨u, n⟩
    by_cases hu : u = t
    · simp [holds, hu]
    · simp only [holds, if_neg hu] at h ⊢
      exact List.mem_cons_of_mem _ (ih h)

theorem holds_of_not_mem (h : t ∉ r.threads) : r.holds t = 0 := by
  by_contra hne
  exact h (mem_threads_of_mem (mem_of_holds hne))

/-- No thread is entered twice, so each entry counts. -/
theorem Counted.holds_of_mem (counted : r.Counted) (h : (t, n) ∈ r) : r.holds t = n := by
  have once := counted.once
  -- the induction is on the rest of the entries, of which only `once` is needed
  clear counted
  induction r with
  | nil => simp at h
  | cons entry r ih =>
    rcases entry with ⟨u, m⟩
    rw [threads, List.map_cons, List.nodup_cons] at once
    -- the entry that was asked for is the first one of its thread
    rcases List.mem_cons.1 h with heq | h
    · obtain ⟨rfl, rfl⟩ := Prod.mk.inj heq
      simp [holds]
    · have hne : u ≠ t := by
        intro hu
        exact once.1 (hu ▸ mem_threads_of_mem h)
      rw [holds, if_neg hne]
      exact ih h once.2

/-- The entries are those of the threads that have holds. -/
theorem Counted.mem_iff (counted : r.Counted) : (t, n) ∈ r ↔ n ≠ 0 ∧ r.holds t = n := by
  constructor
  · intro h
    exact ⟨counted.positive _ h, counted.holds_of_mem h⟩
  · rintro ⟨hn, rfl⟩
    exact mem_of_holds hn

theorem Counted.mem_threads_iff (counted : r.Counted) : t ∈ r.threads ↔ r.holds t ≠ 0 := by
  constructor
  · intro h
    rcases List.mem_map.1 h with ⟨⟨u, n⟩, hmem, rfl⟩
    rw [counted.holds_of_mem hmem]
    exact counted.positive _ hmem
  · exact fun h => mem_threads_of_mem (mem_of_holds h)

/-- A thread gets an entry only if it has none. -/
theorem threads_enter : (r.enter t).threads = if t ∈ r.threads then r.threads else r.threads ++ [t] := by
  induction r with
  | nil => simp [enter, threads]
  | cons entry r ih =>
    rw [threads, threads] at ih
    by_cases hu : entry.1 = t
    · simp [enter, threads, hu]
    · simp only [enter, if_neg hu, threads, List.map_cons, ih, List.mem_cons, Ne.symm hu, false_or]
      split <;> rfl

theorem mem_threads_enter : u ∈ (r.enter t).threads ↔ u = t ∨ u ∈ r.threads := by
  rw [threads_enter]
  split
  · next ht => exact ⟨.inr, fun h => h.elim (fun heq => heq ▸ ht) id⟩
  · rw [List.mem_append, List.mem_singleton, or_comm]

theorem holds_enter : (r.enter t).holds u = r.holds u + if u = t then 1 else 0 := by
  induction r with
  | nil => by_cases hu : t = u <;> simp [enter, holds, hu, eq_comm]
  | cons entry r ih =>
    by_cases ht : entry.1 = t
    · by_cases hu : u = t
      · simp [enter, holds, ht, hu]
      · simp [enter, holds, ht, hu, Ne.symm hu]
    · by_cases hu : entry.1 = u
      · have hne : u ≠ t := fun h => ht (hu.trans h)
        simp [enter, holds, hu, hne]
      · simp only [enter, if_neg ht, holds, if_neg hu, ih]

theorem Counted.enter (counted : r.Counted) (t : Thread) : (r.enter t).Counted where
  once := by
    rw [threads_enter]
    -- a thread that had no entry gets one at the end
    split
    · exact counted.once
    · next ht =>
      refine List.nodup_append.2 ⟨counted.once, by simp, fun u hu v hv => ?_⟩
      rintro rfl
      exact ht (List.mem_singleton.1 hv ▸ hu)
  positive := by
    have positive := counted.positive
    clear counted
    induction r with
    | nil => simp [Readers.enter]
    | cons entry r ih =>
      rw [List.forall_mem_cons] at positive
      rw [Readers.enter]
      split
      · rw [List.forall_mem_cons]
        exact ⟨Nat.succ_ne_zero _, positive.2⟩
      · rw [List.forall_mem_cons]
        exact ⟨positive.1, ih positive.2⟩

/-- A hold is taken off the first entry of its thread, which is struck out if it was the last
one. -/
theorem strike?_cons_eq_some {m : Nat} (h : strike? ((u, m) :: r) t = some r') :
    u = t ∧ (m ≤ 1 ∧ r' = r ∨ 1 < m ∧ r' = (u, m - 1) :: r) ∨
      u ≠ t ∧ ∃ rest, r.strike? t = some rest ∧ r' = (u, m) :: rest := by
  rw [strike?] at h
  split at h
  · next hu =>
    obtain rfl := Option.some.inj h
    refine .inl ⟨hu, ?_⟩
    -- an entry goes as soon as it would be empty
    by_cases hm : m ≤ 1
    · have hlast : m - 1 = 0 := by omega
      exact .inl ⟨hm, if_pos hlast⟩
    · have hmore : m - 1 ≠ 0 := by omega
      exact .inr ⟨by omega, if_neg hmore⟩
  · next hu =>
    rcases Option.map_eq_some_iff.1 h with ⟨rest, hrest, rfl⟩
    exact .inr ⟨hu, rest, hrest, rfl⟩

theorem threads_strike (h : r.strike? t = some r') : r'.threads.Sublist r.threads := by
  induction r generalizing r' with
  | nil => simp [strike?] at h
  | cons entry r ih =>
    rcases strike?_cons_eq_some h with ⟨-, ⟨-, rfl⟩ | ⟨-, rfl⟩⟩ | ⟨-, rest, hrest, rfl⟩
    · exact List.sublist_cons_self _ _
    · exact .refl _
    · exact (ih hrest).cons_cons _

theorem Counted.strike (counted : r.Counted) (h : r.strike? t = some r') : r'.Counted where
  once := counted.once.sublist (threads_strike h)
  positive := by
    have positive := counted.positive
    clear counted
    induction r generalizing r' with
    | nil => simp [strike?] at h
    | cons entry r ih =>
      rw [List.forall_mem_cons] at positive
      -- the entry is taken out, counted down, or not that of the thread
      rcases strike?_cons_eq_some h with ⟨-, ⟨-, rfl⟩ | ⟨hm, rfl⟩⟩ | ⟨-, rest, hrest, rfl⟩
      · exact positive.2
      · rw [List.forall_mem_cons]
        exact ⟨Nat.sub_ne_zero_of_lt hm, positive.2⟩
      · rw [List.forall_mem_cons]
        exact ⟨positive.1, ih hrest positive.2⟩

theorem holds_strike (counted : r.Counted) (h : r.strike? t = some r') (u : Thread) :
    r'.holds u + (if u = t then 1 else 0) = r.holds u := by
  induction r generalizing r' with
  | nil => simp [strike?] at h
  | cons entry r ih =>
    rcases entry with ⟨v, m⟩
    have hm : m ≠ 0 := counted.positive _ List.mem_cons_self
    have once := List.nodup_cons.1 counted.once
    have hrest : Counted r := ⟨once.2, fun e he => counted.positive e (List.mem_cons_of_mem _ he)⟩
    -- only the first case shortens the list, only the second changes a number
    rcases strike?_cons_eq_some h with ⟨rfl, ⟨hlast, rfl⟩ | ⟨hmore, rfl⟩⟩ | ⟨hv, rest, hstrike, rfl⟩
    · -- the thread has no other entry
      have hnone : r'.holds v = 0 := holds_of_not_mem once.1
      by_cases hu : u = v
      · simp only [holds, hu, if_true, hnone]
        omega
      · simp [holds, hu, Ne.symm hu]
    · by_cases hu : u = v
      · simp only [holds, hu, if_true]
        omega
      · simp [holds, hu, Ne.symm hu]
    · by_cases hu : v = u
      · have hne : u ≠ t := fun heq => hv (hu.trans heq)
        simp [holds, hu, hne]
      · simp only [holds, if_neg hu]
        exact ih hrest hstrike

/-- Not even where entries are wrong is more than one hold taken off. -/
theorem holds_le_strike (h : r.strike? t = some r') : r.holds t ≤ r'.holds t + 1 := by
  induction r generalizing r' with
  | nil => simp [strike?] at h
  | cons entry r ih =>
    rcases strike?_cons_eq_some h with ⟨hu, ⟨hm, rfl⟩ | ⟨hm, rfl⟩⟩ | ⟨hu, rest, hrest, rfl⟩
    · simp only [holds, if_pos hu]
      omega
    · simp only [holds, if_pos hu]
      omega
    · simp only [holds, if_neg hu]
      exact ih hrest

end Readers

namespace State

variable {s s' : State} {me t u : Thread} {mode : Mode}

/-! ## Granting and refusing -/

/-- A lock that is not granted is held by some other thread. -/
theorem exists_holder (h : s.grants me mode = false) :
    ∃ u, u ≠ me ∧ (s.writer = some u ∨ u ∈ s.readers.threads) := by
  -- a reader is kept out by the writer, and so is a writer if there is one
  have hread : s.canRead me = false → ∃ u, u ≠ me ∧ (s.writer = some u ∨ u ∈ s.readers.threads) := by
    intro h
    cases hw : s.writer with
    | none => simp [canRead, hw] at h
    | some u =>
      refine ⟨u, ?_, .inl rfl⟩
      simpa [canRead, hw] using h
  cases mode with
  | read => exact hread h
  | write =>
    simp only [grants, canWrite, Bool.and_eq_false_iff] at h
    rcases h with h | h
    · exact hread h
    · -- otherwise some other thread reads
      have hne : s.readers.threads.filter (· != me) ≠ [] := by
        intro hnil
        simp [otherReaders, hnil] at h
      rcases List.exists_mem_of_ne_nil _ hne with ⟨u, hu⟩
      have hu := List.mem_filter.1 hu
      exact ⟨u, by simpa using hu.2, .inr hu.1⟩

theorem attempt_granted {options : Options} (h : s.attempt options me mode = .granted s') :
    s.grants me mode = true ∧ s' = s.take me mode := by
  unfold attempt at h
  split at h
  · next hgrants => exact ⟨hgrants, (Attempt.granted.inj h).symm⟩
  · split at h <;> simp at h

/-- Only a reader that wants to write is refused, and it is told how many others read. -/
theorem attempt_refused {options : Options} {n : Nat}
    (h : s.attempt options me mode = .refused n) :
    s.grants me mode = false ∧ mode = .write ∧ me ∈ s.readers.threads ∧ n = s.otherReaders me := by
  unfold attempt at h
  split at h
  · simp at h
  · next hgrants =>
    split at h
    · next hreader => exact ⟨by simpa using hgrants, hreader.1, hreader.2.1, (Attempt.refused.inj h).symm⟩
    · simp at h

/-- Only the thread itself may be writing a lock that is granted to it. -/
theorem writer_of_grants (h : s.grants me mode = true) (hw : s.writer = some t) : t = me := by
  have hread : s.canRead me = true := by
    cases mode with
    | read => exact h
    | write =>
      simp only [grants, canWrite, Bool.and_eq_true] at h
      exact h.1
  simpa [canRead, hw] using hread

/-- Only the thread itself may be reading a lock that is granted to it for writing. -/
theorem reader_of_grants (h : s.grants me .write = true) (hu : u ∈ s.readers.threads) : u = me := by
  simp only [grants, canWrite, Bool.and_eq_true, beq_iff_eq, otherReaders] at h
  by_cases hne : u = me
  · exact hne
  · have hmem : u ∈ s.readers.threads.filter (· != me) := List.mem_filter.2 ⟨hu, by simpa using hne⟩
    rw [List.length_eq_zero_iff.1 h.2] at hmem
    simp at hmem

/-! ## Counting holds -/

/-- How many holds of a kind a thread has. -/
def holdCount (s : State) (t : Thread) : Mode → Nat
  | .read => s.readers.holds t
  | .write => if s.writer = some t then s.writeHolds else 0

/-- A reader that is refused is told the number of entries of others. -/
theorem otherReaders_eq (s : State) (me : Thread) :
    s.otherReaders me = (s.readers.filter fun entry => entry.1 != me).length := by
  rw [otherReaders, Readers.threads, List.filter_map, List.length_map]
  rfl

/-! ## Exclusion -/

/-- All holds are counted, and a writer shares the lock with no other thread. -/
structure Sound (s : State) : Prop where
  counted : ∀ mode, s.Counted mode
  exclusive : ∀ t, s.writer = some t → ∀ u ∈ s.readers.threads, u = t

theorem sound_free : Sound {} where
  counted mode := by
    cases mode with
    | read => exact ⟨List.Pairwise.nil, by simp⟩
    | write => exact ⟨fun _ => rfl, fun _ => rfl⟩
  exclusive t ht := by simp at ht

/-- A thread holds a lock in a mode when it has a hold to give back. -/
theorem Sound.holds_iff (sound : s.Sound) : s.holds t mode = true ↔ s.holdCount t mode ≠ 0 := by
  cases mode with
  | read =>
    rw [holds, List.contains_iff_mem]
    exact (sound.counted .read).mem_threads_iff
  | write =>
    have hcounted := sound.counted .write
    by_cases hw : s.writer = some t
    · have hne : s.writeHolds ≠ 0 := fun h0 => by simp [hcounted.2 h0] at hw
      simp [holds, holdCount, hw, hne]
    · simp [holds, holdCount, hw]

/-- Beside a writing thread no other has a hold. -/
theorem Sound.alone (sound : s.Sound) (hw : s.holdCount t .write ≠ 0) (hu : u ≠ t) :
    s.holdCount u mode = 0 := by
  have hwriter : s.writer = some t := by
    have hholds := sound.holds_iff.2 hw
    simpa [holds] using hholds
  cases mode with
  | read =>
    refine Readers.holds_of_not_mem fun hmem => ?_
    exact hu (sound.exclusive t hwriter u hmem)
  | write =>
    rw [holdCount, hwriter, if_neg]
    intro h
    exact hu (Option.some.inj h).symm

/-- Taking a hold keeps the holds of its kind counted, granted or not. -/
theorem Counted.take (counted : s.Counted mode) (me : Thread) : (s.take me mode).Counted mode := by
  cases mode with
  | read => exact Readers.Counted.enter counted me
  | write => simp [Counted, State.take]

/-- A hold that is granted keeps the lock sound. -/
theorem Sound.take (sound : s.Sound) (h : s.grants me mode = true) : (s.take me mode).Sound := by
  have hsame := (sound.counted mode).take me
  cases mode with
  | read =>
    refine ⟨fun kind => ?_, fun t ht u hu => ?_⟩
    · cases kind with
      | read => exact hsame
      | write => exact sound.counted .write
    · -- a thread that reads now was granted it, so nobody else writes
      rcases Readers.mem_threads_enter.1 hu with rfl | hu
      · exact (writer_of_grants h ht).symm
      · exact sound.exclusive t ht u hu
  | write =>
    refine ⟨fun kind => ?_, fun t ht u hu => ?_⟩
    · cases kind with
      | read => exact sound.counted .read
      | write => exact hsame
    · -- the new writer is alone, or it would have to wait
      obtain rfl : me = t := by simpa [State.take] using ht
      exact reader_of_grants h hu

/-- So does a hold that is given back. -/
theorem Sound.release (sound : s.Sound) (h : s.release? me mode = some s') : s'.Sound := by
  cases mode with
  | read =>
    rcases Option.map_eq_some_iff.1 h with ⟨readers, hstrike, rfl⟩
    refine ⟨fun kind => ?_, fun t ht u hu => ?_⟩
    · cases kind with
      | read => exact Readers.Counted.strike (sound.counted .read) hstrike
      | write => exact sound.counted .write
    · exact sound.exclusive t ht u ((Readers.threads_strike hstrike).subset hu)
  | write =>
    simp only [release?, Option.ite_none_right_eq_some, Option.some.injEq] at h
    rcases h with ⟨hw, rfl⟩
    refine ⟨fun kind => ?_, fun t ht u hu => ?_⟩
    · cases kind with
      -- to give back a write hold leaves the entries of readers alone
      | read => exact sound.counted .read
      | write => by_cases hlast : s.writeHolds - 1 = 0 <;> simp [Counted, hlast]
    · -- with the last hold the writer goes, too
      by_cases hlast : s.writeHolds - 1 = 0
      · simp [hlast] at ht
      · simp only [hlast, if_false, Option.some.injEq] at ht
        subst ht
        exact sound.exclusive me hw u hu

/-! ## What a change does to the counts -/

/-- Taking a hold that is granted adds one to one count. -/
theorem holdCount_take (sound : s.Sound) (h : s.grants me mode = true) (t : Thread) (kind : Mode) :
    (s.take me mode).holdCount t kind =
      s.holdCount t kind + if t = me ∧ kind = mode then 1 else 0 := by
  cases mode with
  | read =>
    cases kind with
    | read => simp only [State.take, holdCount, Readers.holds_enter, and_true]
    | write =>
      simp only [State.take, holdCount, reduceCtorEq, and_false, if_false, Nat.add_zero]
      rfl
  | write =>
    cases kind with
    | read => simp [State.take, holdCount]
    | write =>
      by_cases ht : t = me
      · subst ht
        -- a first write hold makes a writer, any other is counted up
        cases hw : s.writer with
        | none => simp [State.take, holdCount, hw, (sound.counted .write).1 hw]
        | some v =>
          obtain rfl : v = t := writer_of_grants h hw
          simp [State.take, holdCount, hw]
      · -- the thread is not writing, or the hold would not be granted
        have hw : s.writer ≠ some t := fun hw => ht (writer_of_grants h hw)
        simp [State.take, holdCount, ht, hw, Ne.symm ht]

/-- Giving back a hold takes one off the same count. -/
theorem holdCount_release (sound : s.Sound) (h : s.release? me mode = some s') (t : Thread)
    (kind : Mode) :
    s'.holdCount t kind + (if t = me ∧ kind = mode then 1 else 0) = s.holdCount t kind := by
  cases mode with
  | read =>
    rcases Option.map_eq_some_iff.1 h with ⟨readers, hstrike, rfl⟩
    cases kind with
    | read =>
      simp only [holdCount, and_true]
      exact Readers.holds_strike (sound.counted .read) hstrike t
    | write => simp [holdCount]
  | write =>
    simp only [release?, Option.ite_none_right_eq_some, Option.some.injEq] at h
    rcases h with ⟨hw, rfl⟩
    cases kind with
    | read => simp [holdCount]
    | write =>
      -- a writer has holds, so that counting down takes one away
      have hne : s.writeHolds ≠ 0 := fun h0 => by simp [(sound.counted .write).2 h0] at hw
      by_cases ht : t = me
      · subst ht
        by_cases hlast : s.writeHolds - 1 = 0
        · simp only [holdCount, hlast, hw, if_true, and_self]
          simp
          omega
        · simp only [holdCount, hlast, hw, if_true, if_false, and_self]
          omega
      · by_cases hlast : s.writeHolds - 1 = 0 <;>
          simp [holdCount, hlast, hw, ht, Ne.symm ht]

end State

namespace Table

variable {t : Table} {me : Thread} {mode : Mode} {h k : Handle}

/-- What is true of the states of all locks stays true if it is true of one that is changed. -/
theorem forall_set {p : State → Prop} {s : State} (all : ∀ k, p (t k)) (hs : p s) (k : Handle) :
    p (t.set h s k) := by
  rcases eq_or_ne k h with rfl | hne
  · rwa [set_self]
  · rw [set_ne hne]
    exact all k

/-- A hold is given back if there is one, and otherwise nothing changes. -/
theorem release_cases (sound : (t h).Sound) (me : Thread) (mode : Mode) :
    ((t h).holdCount me mode ≠ 0 ∧
      ∃ s, (t h).release? me mode = some s ∧ t.release me mode h = (.ok (), t.set h s)) ∨
    ((t h).holdCount me mode = 0 ∧
      t.release me mode h = (.error (.notHeld h.document mode), t)) := by
  have hsome : ((t h).release? me mode).isSome = (t h).holds me mode := State.release?_isSome
  rw [Bool.eq_iff_iff, sound.holds_iff] at hsome
  unfold Table.release
  cases hrelease : (t h).release? me mode with
  | none =>
    refine .inr ⟨?_, rfl⟩
    simpa [hrelease] using hsome
  | some s =>
    refine .inl ⟨?_, s, rfl, rfl⟩
    simpa [hrelease] using hsome

end Table
end DocBase.Lock
