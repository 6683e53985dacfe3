import DocBase.Proofs.Lock.Holds
import Mathlib.Logic.Function.Iterate
/-!
# Taking several locks while no other thread moves

A thread that takes locks one after another while no other thread moves gets them all, unless one of
them is not granted to it; then it waits for the first such lock in vain, or is refused it. What it
takes itself does not stand in its own way, so it does not matter whether it wants a lock twice or
holds it already. And it leaves nothing behind: giving back what was taken, in whatever order it was
taken, restores every lock. Main statements:

* `Acquisition.run_result` — what comes of taking locks;
* `Acquisition.unlock_run` and `Acquisition.locks_of_run_error` — the locks are restored when they
  are given back, and when they could not all be taken;
* `Guard.releaseAll_ok` and `Guard.holdCount_releaseAll` — as many holds as a thread has can be
  given back, and just these are taken off.
-/

namespace DocBase.Lock

variable {options : Options} {me : Thread} {mode : Mode} {t t' : Table} {h k : Handle}

/-! ## One lock -/

namespace State

/-- What a thread is told that is not granted a hold, at once or when its time is up. -/
def denial (options : Options) (s : State) (me : Thread) (mode : Mode) (document : DocId) : Error :=
  if mode = .write ∧ me ∈ s.readers.threads ∧ options.refuseUpgrade then
    .upgradeRefused document (s.otherReaders me)
  else .timeout document mode

theorem denial_read (options : Options) (s : State) (me : Thread) (document : DocId) :
    s.denial options me .read document = .timeout document .read := by
  simp [denial]

variable {s : State}

/-- What is granted once is granted again. -/
theorem grants_take (h : s.grants me mode = true) : (s.take me mode).grants me mode = true := by
  cases mode with
  | read => exact h
  | write =>
    simp only [grants, canWrite, Bool.and_eq_true] at h
    simp [grants, canWrite, canRead, take, otherReaders] at h ⊢
    exact h.2

/-- Taking a hold adds to the count of the thread, and giving one back takes no more than one off,
whatever else is wrong with the lock. -/
theorem holdCount_lt_take (s : State) (me : Thread) (mode : Mode) :
    s.holdCount me mode < (s.take me mode).holdCount me mode := by
  cases mode with
  | read =>
    simp only [take, holdCount, Readers.holds_enter, if_true]
    exact Nat.lt_succ_self _
  | write =>
    simp only [take, holdCount, if_true]
    split
    · exact Nat.lt_succ_self _
    · exact Nat.succ_pos _

theorem le_holdCount_iterate_take (s : State) (me : Thread) (mode : Mode) (n : Nat) :
    n ≤ ((fun l => take l me mode)^[n] s).holdCount me mode := by
  induction n with
  | zero => exact Nat.zero_le _
  | succ n ih =>
    rw [Function.iterate_succ_apply']
    exact Nat.lt_of_le_of_lt ih (holdCount_lt_take _ me mode)

theorem exists_release (h : s.holdCount me mode ≠ 0) :
    ∃ s', s.release? me mode = some s' ∧ s.holdCount me mode ≤ s'.holdCount me mode + 1 := by
  cases mode with
  | read =>
    have hentered := Readers.strike?_isSome.2 (Readers.mem_threads_of_mem (Readers.mem_of_holds h))
    rcases Option.isSome_iff_exists.1 hentered with ⟨readers, hstrike⟩
    exact ⟨{ s with readers }, by simp [release?, hstrike], Readers.holds_le_strike hstrike⟩
  | write =>
    by_cases hw : s.writer = some me
    · refine ⟨_, by rw [release?, if_pos hw], ?_⟩
      by_cases hlast : s.writeHolds - 1 = 0
      · simp only [holdCount, if_pos hw, if_pos hlast]
        omega
      · simp only [holdCount, if_pos hw, if_neg hlast, if_true]
        omega
    · simp [holdCount, hw] at h

end State

/-- A hold that the thread takes does not change what it is granted. -/
theorem Table.grants_set_take (hgrants : (t h).grants me mode = true) (k : Handle) :
    ((t.set h ((t h).take me mode)) k).grants me mode = (t k).grants me mode := by
  rcases eq_or_ne k h with rfl | hk
  · rw [Table.set_self, hgrants]
    exact State.grants_take hgrants
  · rw [Table.set_ne hk]

/-- A hold that is given back as soon as it was taken leaves no trace. -/
theorem Table.release_set_take (counted : (t h).Counted mode)
    (hgrants : (t h).grants me mode = true) :
    (t.set h ((t h).take me mode)).release me mode h = (.ok (), t) := by
  have hrelease := State.release?_take counted hgrants
  simp [Table.release, hrelease]

/-! ## Several locks -/

namespace Acquisition

theorem take_cons_of_grants {held wanted : List Handle} (hgrants : (t h).grants me mode = true) :
    take options me mode held (h :: wanted) t =
      take options me mode (h :: held) wanted (t.set h ((t h).take me mode)) := by
  simp [take, State.attempt, hgrants]

theorem take_cons_of_not_grants {held wanted : List Handle}
    (hgrants : (t h).grants me mode = false) :
    take options me mode held (h :: wanted) t =
      if mode = .write ∧ me ∈ (t h).readers.threads ∧ options.refuseUpgrade then
        (.failed (.upgradeRefused h.document ((t h).otherReaders me)),
          (Guard.releaseAll me mode held t).2)
      else (.waiting ⟨mode, held, h :: wanted⟩, t) := by
  by_cases hrefused : mode = .write ∧ me ∈ (t h).readers.threads ∧ options.refuseUpgrade
  · simp only [take, State.attempt, hgrants, Bool.false_eq_true, if_false, if_pos hrefused]
  · simp only [take, State.attempt, hgrants, Bool.false_eq_true, if_false, if_neg hrefused]

/-- The first lock that is not granted is denied; if there is none all are taken. -/
theorem run_result (held wanted : List Handle) (t : Table) :
    (run ⟨mode, held, wanted⟩ options me t).1 =
      match wanted.find? fun h => !(t h).grants me mode with
      | some h => .error ((t h).denial options me mode h.document)
      | none => .ok ⟨mode, wanted.reverse ++ held⟩ := by
  -- the table is generalised: the later locks are asked for when the first one is held
  induction wanted generalizing held t with
  | nil => rfl
  | cons k ks ih =>
    simp only [run, advance] at ih ⊢
    cases hgrants : (t k).grants me mode with
    | true =>
      have hrest := ih (k :: held) (t.set k ((t k).take me mode))
      simp only [Table.grants_set_take hgrants] at hrest
      rw [take_cons_of_grants hgrants, hrest, List.find?_cons, hgrants, Bool.not_true]
      dsimp only
      cases hfirst : ks.find? fun h => !(t h).grants me mode with
      | none => simp
      | some h =>
        -- the state it is denied by is the one before, as it is another lock
        have hne : h ≠ k := by
          rintro rfl
          have := List.find?_some hfirst
          simp [hgrants] at this
        simp only [Table.set_ne hne]
    | false =>
      rw [take_cons_of_not_grants hgrants, List.find?_cons, hgrants, Bool.not_false]
      by_cases hrefused : mode = .write ∧ me ∈ (t k).readers.threads ∧ options.refuseUpgrade
      · simp only [if_pos hrefused, State.denial]
      · simp only [if_neg hrefused, State.denial, giveUp]

/-- Each lock is taken once for each time it is wanted, and no other is touched. -/
theorem locks_of_take {held wanted : List Handle} {g : Guard}
    (h : take options me mode held wanted t = (.complete g, t')) (k : Handle) :
    t' k = (fun s => State.take s me mode)^[wanted.count k] (t k) := by
  induction wanted generalizing held t with
  | nil =>
    obtain ⟨-, rfl⟩ := Prod.mk.inj h
    rfl
  -- as often as the lock is wanted, a hold is added; the first time comes before all others
  | cons l ls ih =>
    simp only [take] at h
    split at h
    · next s hattempt =>
      rcases State.attempt_granted hattempt with ⟨-, rfl⟩
      rw [ih h]
      rcases eq_or_ne k l with rfl | hk
      · rw [Table.set_self, List.count_cons_self, Function.iterate_succ_apply]
      · rw [Table.set_ne hk, List.count_cons_of_ne (Ne.symm hk)]
    · simp at h
    · simp at h

/-- However far locks are taken, giving back all that is held comes to what it would have come to
before. -/
theorem releaseAll_take (options : Options) (me : Thread) (held wanted : List Handle)
    (counted : ∀ h, (t h).Counted mode) :
    match take options me mode held wanted t with
    | (.complete g, t') =>
      g.mode = mode ∧ Guard.releaseAll me mode g.locks t' = Guard.releaseAll me mode held t
    | (.waiting rest, t') =>
      rest.mode = mode ∧ Guard.releaseAll me mode rest.held t' = Guard.releaseAll me mode held t
    | (.failed _, t') => t' = (Guard.releaseAll me mode held t).2 := by
  -- what is taken now is given back first, so each step undoes the one before
  induction wanted generalizing held t with
  | nil => exact ⟨rfl, rfl⟩
  | cons k ks ih =>
    cases hgrants : (t k).grants me mode with
    | true =>
      have counted' : ∀ h, (t.set k ((t k).take me mode) h).Counted mode :=
        Table.forall_set (p := (·.Counted mode)) counted ((counted k).take me)
      have hback : Guard.releaseAll me mode (k :: held) (t.set k ((t k).take me mode)) =
          Guard.releaseAll me mode held t := by
        rw [Guard.releaseAll, Table.release_set_take (counted k) hgrants]
      have hrest := ih (k :: held) counted'
      rw [hback] at hrest
      rw [take_cons_of_grants hgrants]
      exact hrest
    | false =>
      rw [take_cons_of_not_grants hgrants]
      split
      · next houtcome => split at houtcome <;> simp at houtcome
      · next houtcome =>
        split at houtcome
        · simp at houtcome
        · obtain ⟨hrest, rfl⟩ := Prod.mk.inj houtcome
          obtain rfl := Progress.waiting.inj hrest
          exact ⟨rfl, rfl⟩
      · next houtcome =>
        split at houtcome
        · exact (Prod.mk.inj houtcome).2.symm
        · simp at houtcome

variable {wanted : List Handle}

/-- Locks that are all taken are restored when they are given back. -/
theorem unlock_run {g : Guard} (counted : ∀ h, (t h).Counted mode)
    (h : run ⟨mode, [], wanted⟩ options me t = (.ok g, t')) : g.unlock me t' = (.ok (), t) := by
  have hback := releaseAll_take options me [] wanted counted
  unfold run advance at h
  split at h
  · next g' t₁ htake =>
    obtain ⟨hg, rfl⟩ := Prod.mk.inj h
    obtain rfl := Except.ok.inj hg
    -- the run was complete; had it waited, it would have given up with an error
    simp only [htake] at hback
    rw [Guard.unlock, hback.1, hback.2]
    rfl
  · simp at h
  · next rest t₁ htake =>
    have hwanted := wanted_of_take_waiting (congrArg Prod.fst htake)
    unfold giveUp at h
    split at h
    · contradiction
    · simp at h

/-- Locks that could not all be taken are as they were. -/
theorem locks_of_run_error {e : Error} (counted : ∀ h, (t h).Counted mode)
    (h : run ⟨mode, [], wanted⟩ options me t = (.error e, t')) : t' = t := by
  have hback := releaseAll_take options me [] wanted counted
  unfold run advance at h
  split at h
  · simp at h
  · -- a lock that is refused has already given the others back
    next e' t₁ htake =>
    obtain ⟨-, rfl⟩ := Prod.mk.inj h
    simp only [htake] at hback
    exact hback
  · -- and so has one that time ran out for
    next rest t₁ htake =>
    have hwanted := wanted_of_take_waiting (congrArg Prod.fst htake)
    simp only [htake] at hback
    unfold giveUp at h
    split at h
    · contradiction
    · obtain ⟨-, rfl⟩ := Prod.mk.inj h
      rw [hback.1, hback.2]
      rfl

/-- What a run that succeeds does to each lock. -/
theorem locks_of_run_ok {g : Guard} (h : run ⟨mode, [], wanted⟩ options me t = (.ok g, t'))
    (k : Handle) : t' k = (fun s => State.take s me mode)^[wanted.count k] (t k) := by
  unfold run advance at h
  split at h
  · next g' t₁ htake =>
    obtain ⟨-, rfl⟩ := Prod.mk.inj h
    exact locks_of_take htake k
  · simp at h
  · next rest t₁ htake =>
    have hwanted := wanted_of_take_waiting (congrArg Prod.fst htake)
    unfold giveUp at h
    split at h
    · contradiction
    · simp at h

end Acquisition

namespace Guard

/-- As many holds as a thread has can be given back, whatever else is wrong with the locks. -/
theorem releaseAll_ok {held : List Handle} (enough : ∀ k, held.count k ≤ (t k).holdCount me mode) :
    (releaseAll me mode held t).1 = .ok () := by
  -- one hold goes with each member of the list, whatever lock it is on
  induction held generalizing t with
  | nil => rfl
  | cons l ls ih =>
    have hl := enough l
    rw [List.count_cons_self] at hl
    rcases State.exists_release (show (t l).holdCount me mode ≠ 0 by omega) with ⟨s, hs, hleft⟩
    have henough : ∀ k, ls.count k ≤ (t.set l s k).holdCount me mode := by
      intro k
      rcases eq_or_ne k l with rfl | hne
      · rw [Table.set_self]
        omega
      · rw [Table.set_ne hne, ← List.count_cons_of_ne (Ne.symm hne)]
        exact enough k
    have hrelease : t.release me mode l = (.ok (), t.set l s) := by simp [Table.release, hs]
    simp only [releaseAll, hrelease]
    exact ih henough

/-- What is given back is taken off the holds of the thread, and nothing else changes. -/
theorem holdCount_releaseAll {held : List Handle} (sound : ∀ h, (t h).Sound)
    (enough : ∀ k, held.count k ≤ (t k).holdCount me mode) (k : Handle) (v : Thread) (kind : Mode) :
    ((releaseAll me mode held t).2 k).holdCount v kind +
      (if v = me ∧ kind = mode then held.count k else 0) = (t k).holdCount v kind := by
  induction held generalizing t with
  | nil => simp [releaseAll]
  | cons l ls ih =>
    have hone := enough l
    rw [List.count_cons_self] at hone
    rcases Table.release_cases (sound l) me mode with ⟨-, s, hs, hrelease⟩ | ⟨hnone, -⟩
    · have hcount := State.holdCount_release (sound l) hs
      have sound' : ∀ h, (t.set l s h).Sound := Table.forall_set sound ((sound l).release hs)
      have enough' : ∀ k, ls.count k ≤ (t.set l s k).holdCount me mode := by
        intro k
        have hk := enough k
        rcases eq_or_ne k l with rfl | hne
        · have := hcount me mode
          rw [List.count_cons_self] at hk
          rw [Table.set_self]
          simp only [and_self, if_true] at this
          omega
        · rwa [Table.set_ne hne, ← List.count_cons_of_ne (Ne.symm hne)]
      have hk := ih sound' enough'
      simp only [releaseAll, hrelease]
      -- the first hold comes off the lock it was on, the others off what was left by then
      rcases eq_or_ne k l with rfl | hne
      · have hlast := hcount v kind
        rw [Table.set_self] at hk
        rw [List.count_cons_self]
        by_cases hmine : v = me ∧ kind = mode
        · simp only [if_pos hmine] at hk hlast ⊢
          omega
        · simp only [if_neg hmine] at hk hlast ⊢
          omega
      · rw [Table.set_ne hne] at hk
        rw [List.count_cons_of_ne (Ne.symm hne)]
        exact hk
    · omega

end Guard

/-- Locks that are all taken can be given back. -/
theorem Acquisition.unlock_result {wanted : List Handle} {g : Guard}
    (h : run ⟨mode, [], wanted⟩ options me t = (.ok g, t')) : (g.unlock me t').1 = .ok () := by
  have hguard : g = ⟨mode, wanted.reverse ++ []⟩ := run_ok (congrArg Prod.fst h)
  rw [hguard, List.append_nil]
  refine Guard.releaseAll_ok fun k => ?_
  rw [List.count_reverse, locks_of_run_ok h k]
  exact State.le_holdCount_iterate_take _ _ _ _

end DocBase.Lock
