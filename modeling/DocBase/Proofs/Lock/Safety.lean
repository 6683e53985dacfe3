import DocBase.Proofs.Lock.Holds
import Mathlib.Logic.Function.Basic
/-!
# Any calls in any order

Threads take holds on locks and give them back, as often as they like and in whatever order; a hold
that is not granted at once is waited for, refused, or given up when time is up. Calls that have
been answered are kept in a list, so that what a lock says can be compared with what its callers
were told. Main statements:

* `Usage.sound_step` and `Usage.balanced_step` — what one step of a thread preserves;
* `Usage.exclusion_and_balance` — who holds a lock after any calls, and how calls fail.
-/

namespace DocBase.Lock

/-- Taking a single hold on a lock. -/
def Acquisition.single (h : Handle) (mode : Mode) : Acquisition := { mode, wanted := [h] }

/-- A call that takes a hold is granted, refused or has to wait; only in the first case does
anything change. -/
theorem Acquisition.advance_single (options : Options) (me : Thread) (h : Handle) (mode : Mode)
    (t : Table) :
    (single h mode).advance options me t =
      match (t h).attempt options me mode with
      | .granted s => (.complete ⟨mode, [h]⟩, t.set h s)
      | .refused n => (.failed (.upgradeRefused h.document n), t)
      | .blocked => (.waiting (single h mode), t) := by
  unfold advance single
  cases hattempt : (t h).attempt options me mode <;> simp [take, Guard.releaseAll, hattempt]

/-- Whether a call takes a hold or gives one back. -/
inductive Request where
  | acquire
  | release
deriving DecidableEq, Repr

/-- A call that was answered. -/
structure Answer where
  request : Request
  thread : Thread
  lock : Handle
  mode : Mode
  result : Except Error Unit
deriving DecidableEq

/-- All locks, the hold that each waiting thread waits for, and the answers given so far, the last
one first. -/
structure Usage where
  locks : Table := Table.free
  waiting : Thread → Option (Handle × Mode) := fun _ => none
  answers : List Answer := []

namespace Usage

/-- After a thread was answered. -/
def answer (u : Usage) (a : Answer) (locks : Table) : Usage where
  locks
  waiting := Function.update u.waiting a.thread none
  answers := a :: u.answers

/-- A thread that waits asks for nothing but the hold it waits for. -/
def MayAcquire (u : Usage) (t : Thread) (h : Handle) (mode : Mode) : Prop :=
  u.waiting t = none ∨ u.waiting t = some (h, mode)

/-- A thread asks for a hold, for the first time or again after it was woken up; its time runs out
while the hold cannot be granted; or it gives a hold back. -/
inductive Step (options : Options) (u : Usage) : Usage → Prop
  | acquired {t : Thread} {h : Handle} {m : Mode} {guard : Guard} {locks : Table} :
    u.MayAcquire t h m →
    (Acquisition.single h m).advance options t u.locks = (.complete guard, locks) →
    Step options u (u.answer ⟨.acquire, t, h, m, .ok ()⟩ locks)
  | refused {t : Thread} {h : Handle} {m : Mode} {e : Error} {locks : Table} :
    u.MayAcquire t h m →
    (Acquisition.single h m).advance options t u.locks = (.failed e, locks) →
    Step options u (u.answer ⟨.acquire, t, h, m, .error e⟩ locks)
  | waits {t : Thread} {h : Handle} {m : Mode} {rest : Acquisition} {locks : Table} :
    u.MayAcquire t h m →
    (Acquisition.single h m).advance options t u.locks = (.waiting rest, locks) →
    Step options u { u with locks, waiting := Function.update u.waiting t (some (h, m)) }
  | timedOut {t : Thread} {h : Handle} {m : Mode} {e : Error} {locks : Table} :
    u.waiting t = some (h, m) → options.timeout.isSome = true →
    (u.locks h).grants t m = false →
    (Acquisition.single h m).giveUp t u.locks = (.error e, locks) →
    Step options u (u.answer ⟨.acquire, t, h, m, .error e⟩ locks)
  | released {t : Thread} {h : Handle} {m : Mode} {result : Except Error Unit} {locks : Table} :
    u.waiting t = none → u.locks.release t m h = (result, locks) →
    Step options u (u.answer ⟨.release, t, h, m, result⟩ locks)

/-- What any calls of any threads, in any order, may come to. -/
inductive Reachable (options : Options) : Usage → Prop
  | start : Reachable options {}
  | step {u u' : Usage} : Reachable options u → Step options u u' → Reachable options u'

/-- Further calls, of any threads and in any order. -/
inductive Steps (options : Options) (u : Usage) : Usage → Prop
  | refl : Steps options u u
  | step {v w : Usage} : Steps options u v → Step options v w → Steps options u w

/-- How many calls of a thread for holds of a kind on a lock were granted. -/
def granted (u : Usage) (t : Thread) (h : Handle) (mode : Mode) : Nat :=
  u.answers.count ⟨.acquire, t, h, mode, .ok ()⟩

/-- How many holds of a kind on a lock a thread has given back. -/
def returned (u : Usage) (t : Thread) (h : Handle) (mode : Mode) : Nat :=
  u.answers.count ⟨.release, t, h, mode, .ok ()⟩

/-! ## What a step does -/

/-- Either one hold is taken, or one is given back, or no lock changes and whatever is answered is
an error. -/
inductive Effect (u u' : Usage) : Prop
  | take {t : Thread} {h : Handle} {mode : Mode} :
    (u.locks h).grants t mode = true →
    u'.locks = u.locks.set h ((u.locks h).take t mode) →
    u'.answers = ⟨.acquire, t, h, mode, .ok ()⟩ :: u.answers → Effect u u'
  | release {t : Thread} {h : Handle} {mode : Mode} {s : State} :
    (u.locks h).release? t mode = some s →
    u'.locks = u.locks.set h s →
    u'.answers = ⟨.release, t, h, mode, .ok ()⟩ :: u.answers → Effect u u'
  | nothing (failed : List Answer) :
    u'.locks = u.locks → u'.answers = failed ++ u.answers →
    (∀ a ∈ failed, a.result ≠ .ok ()) → Effect u u'

variable {options : Options} {u u' : Usage}

theorem Step.effect (step : Step options u u') : Effect u u' := by
  cases step with
  -- only one lock is asked for, so whoever is refused has none to give back
  | @acquired t h mode guard locks _ hadvance =>
    rw [Acquisition.advance_single] at hadvance
    split at hadvance
    · next s hattempt =>
      rcases State.attempt_granted hattempt with ⟨hgrants, rfl⟩
      exact .take hgrants (Prod.mk.inj hadvance).2.symm rfl
    · simp at hadvance
    · simp at hadvance
  | @refused t h mode e locks _ hadvance =>
    rw [Acquisition.advance_single] at hadvance
    split at hadvance
    · simp at hadvance
    · have hlocks : locks = u.locks := (Prod.mk.inj hadvance).2.symm
      exact .nothing [_] hlocks rfl (by simp)
    · simp at hadvance
  | @waits t h mode rest locks _ hadvance =>
    rw [Acquisition.advance_single] at hadvance
    split at hadvance
    · simp at hadvance
    · simp at hadvance
    · have hlocks : locks = u.locks := (Prod.mk.inj hadvance).2.symm
      exact .nothing [] hlocks rfl (by simp)
  | @timedOut t h mode e locks _ _ _ hgiveUp =>
    have hlocks : locks = u.locks := (Prod.mk.inj hgiveUp).2.symm
    exact .nothing [_] hlocks rfl (by simp)
  | @released t h mode result locks _ hrelease =>
    -- a release succeeds or is answered as not held
    unfold Table.release at hrelease
    split at hrelease
    · next s hs =>
      rcases Prod.mk.inj hrelease with ⟨rfl, rfl⟩
      exact .release hs rfl rfl
    · rcases Prod.mk.inj hrelease with ⟨rfl, rfl⟩
      exact .nothing [_] rfl rfl (by simp)

/-- Every step keeps every lock sound. -/
theorem sound_step (step : Step options u u') (sound : ∀ h, (u.locks h).Sound) :
    ∀ h, (u'.locks h).Sound := by
  -- whatever the step answered, at most one lock was touched
  cases step.effect with
  | @take t h mode hgrants hlocks _ =>
    rw [hlocks]
    exact Table.forall_set sound ((sound h).take hgrants)
  | @release t h mode s hs hlocks _ =>
    rw [hlocks]
    exact Table.forall_set sound ((sound h).release hs)
  | nothing failed hlocks _ _ =>
    rw [hlocks]
    exact sound

/-- What a thread has of a lock is what it was granted less what it gave back. -/
def Balanced (u : Usage) : Prop :=
  ∀ h t mode, (u.locks h).holdCount t mode + u.returned t h mode = u.granted t h mode

/-- An answer counts for one thread, lock and mode. -/
theorem count_answer (a b : Answer) (answers : List Answer) :
    (a :: answers).count b = answers.count b + if a = b then 1 else 0 := by
  simp [List.count_cons]

/-- What a step adds to what a thread has of a lock is what the thread is granted by it less what it
gives back. -/
theorem Step.balance (step : Step options u u') (sound : ∀ h, (u.locks h).Sound) (k : Handle)
    (v : Thread) (kind : Mode) :
    (u'.locks k).holdCount v kind + u'.returned v k kind + u.granted v k kind =
      (u.locks k).holdCount v kind + u.returned v k kind + u'.granted v k kind := by
  -- both sides grow by the hold that was taken, or by the one that was given back
  cases step.effect with
  | @take t h mode hgrants hlocks hanswers =>
    have hreturned : u'.returned v k kind = u.returned v k kind := by
      simp [returned, hanswers]
    have hgranted : u'.granted v k kind =
        u.granted v k kind + if v = t ∧ k = h ∧ kind = mode then 1 else 0 := by
      rw [granted, hanswers, count_answer]
      simp only [granted, Answer.mk.injEq, true_and, and_true, eq_comm]
    rw [hlocks, hreturned, hgranted]
    rcases eq_or_ne k h with rfl | hk
    · rw [Table.set_self, State.holdCount_take (sound k) hgrants]
      simp only [true_and]
      omega
    · rw [Table.set_ne hk]
      simp [hk]
  | @release t h mode s hs hlocks hanswers =>
    have hgranted : u'.granted v k kind = u.granted v k kind := by
      simp [granted, hanswers]
    have hreturned : u'.returned v k kind =
        u.returned v k kind + if v = t ∧ k = h ∧ kind = mode then 1 else 0 := by
      rw [returned, hanswers, count_answer]
      simp only [returned, Answer.mk.injEq, true_and, and_true, eq_comm]
    rw [hlocks, hreturned, hgranted]
    rcases eq_or_ne k h with rfl | hk
    · have hcount := State.holdCount_release (sound k) hs v kind
      rw [Table.set_self]
      simp only [true_and]
      omega
    · rw [Table.set_ne hk]
      simp [hk]
  -- what fails is not counted
  | nothing failed hlocks hanswers hfailed =>
    have hnone : ∀ request, u'.answers.count ⟨request, v, k, kind, .ok ()⟩ =
        u.answers.count ⟨request, v, k, kind, .ok ()⟩ := by
      intro request
      rw [hanswers, List.count_append, List.count_eq_zero.2, Nat.zero_add]
      intro hmem
      exact hfailed _ hmem rfl
    simp only [hlocks, returned, granted, hnone]

/-- Every step keeps the balance. -/
theorem balanced_step (step : Step options u u') (sound : ∀ h, (u.locks h).Sound)
    (balanced : u.Balanced) : u'.Balanced := by
  intro k v kind
  have hbefore := balanced k v kind
  have hstep := step.balance sound k v kind
  omega

/-- After any calls every lock is sound and the balance is right. -/
theorem sound_of_reachable (reached : Reachable options u) :
    (∀ h, (u.locks h).Sound) ∧ u.Balanced := by
  induction reached with
  | start =>
    constructor
    · intro h
      exact State.sound_free
    · intro h t mode
      cases mode <;> simp [State.holdCount, Readers.holds, Table.free, returned, granted]
  | step _ hstep ih =>
    rcases ih with ⟨sound, balanced⟩
    exact ⟨sound_step hstep sound, balanced_step hstep sound balanced⟩

/-- Further calls keep the locks sound, and what they add to what a thread has of a lock is what the
thread is granted by them less what it gives back. -/
theorem Steps.balance (steps : Steps options u u') (sound : ∀ h, (u.locks h).Sound) :
    (∀ h, (u'.locks h).Sound) ∧ ∀ h t mode,
      (u'.locks h).holdCount t mode + u'.returned t h mode + u.granted t h mode =
        (u.locks h).holdCount t mode + u.returned t h mode + u'.granted t h mode := by
  induction steps with
  | refl => exact ⟨sound, fun h t mode => rfl⟩
  | step _ hstep ih =>
    rcases ih with ⟨sound', hbalance⟩
    refine ⟨sound_step hstep sound', fun h t mode => ?_⟩
    have hbefore := hbalance h t mode
    have hlast := hstep.balance sound' h t mode
    omega

/-! ## How calls fail -/

/-- A thread that is refused a hold reads the lock, and so do as many others as it is told. -/
theorem refused_reader {h : Handle} {t : Thread} {mode : Mode} {n : Nat}
    (sound : (u.locks h).Sound) (hrefused : (u.locks h).attempt options t mode = .refused n) :
    mode = .write ∧ (u.locks h).holds t .read = true ∧
      n = ((u.locks h).readers.filter fun entry => entry.1 != t).length ∧ n ≠ 0 := by
  rcases State.attempt_refused hrefused with ⟨hgrants, rfl, hreader, rfl⟩
  refine ⟨rfl, by simpa [State.holds] using hreader, State.otherReaders_eq _ t, ?_⟩
  intro hnone
  -- nobody else reads, and nobody else writes beside this reader, so the hold would be granted
  have hread : (u.locks h).canRead t = true := by
    cases hw : (u.locks h).writer with
    | none => simp [State.canRead, hw]
    | some v =>
      obtain rfl : t = v := sound.exclusive v hw t hreader
      simp [State.canRead, hw]
  simp [State.grants, State.canWrite, hread, hnone] at hgrants

/-- Unless a call is answered with success no lock changes. -/
theorem locks_of_no_success (step : Step options u u')
    (hnone : ∀ a, u'.answers = a :: u.answers → a.result ≠ .ok ()) : u'.locks = u.locks := by
  cases step.effect with
  | take _ _ hanswers => exact absurd rfl (hnone _ hanswers)
  | release _ _ hanswers => exact absurd rfl (hnone _ hanswers)
  | nothing failed hlocks _ _ => exact hlocks

/-- A call for a hold that is answered with an error has changed no lock. -/
theorem locks_of_failed {t : Thread} {h : Handle} {mode : Mode} {e : Error}
    (step : Step options u u')
    (hanswer : u'.answers = ⟨.acquire, t, h, mode, .error e⟩ :: u.answers) :
    u'.locks = u.locks := by
  refine locks_of_no_success step fun a ha => ?_
  rw [hanswer] at ha
  rw [← (List.cons.inj ha).1]
  simp

/-- A call that has to wait has changed no lock. -/
theorem locks_of_waiting (step : Step options u u') (hanswers : u'.answers = u.answers) :
    u'.locks = u.locks := by
  refine locks_of_no_success step fun a ha => ?_
  rw [hanswers] at ha
  simp at ha

/-- An upgrade that is refused is one that was attempted and refused. -/
theorem attempt_of_upgradeRefused {t : Thread} {h : Handle} {mode : Mode} {d : DocId} {n : Nat}
    (step : Step options u u')
    (hanswer : u'.answers = ⟨.acquire, t, h, mode, .error (.upgradeRefused d n)⟩ :: u.answers) :
    d = h.document ∧ (u.locks h).attempt options t mode = .refused n := by
  cases step with
  | acquired => simp [answer] at hanswer
  | @refused t' h' mode' e locks _ hadvance =>
    simp only [answer, List.cons.injEq, Answer.mk.injEq, Except.error.injEq, and_true,
      true_and] at hanswer
    rcases hanswer with ⟨rfl, rfl, rfl, rfl⟩
    rw [Acquisition.advance_single] at hadvance
    split at hadvance
    · simp at hadvance
    · next m hattempt =>
      simp only [Prod.mk.injEq, Progress.failed.injEq, Error.upgradeRefused.injEq] at hadvance
      rcases hadvance with ⟨⟨rfl, rfl⟩, -⟩
      exact ⟨rfl, hattempt⟩
    · simp at hadvance
  | waits => simp at hanswer
  | timedOut _ _ _ hgiveUp =>
    -- time that is up is another error
    simp only [answer, List.cons.injEq, Answer.mk.injEq, Except.error.injEq] at hanswer
    rcases hanswer with ⟨⟨-, -, -, -, rfl⟩, -⟩
    simp [Acquisition.single, Acquisition.giveUp] at hgiveUp
  | released => simp [answer] at hanswer

/-- After any calls of any threads in any order, granted, refused or given up: beside a writing
thread no other has a hold; a lock has a writer while it has write holds, no reader is entered
twice, and none with no holds; what a thread has of a lock is what it was granted less what it gave
back; a hold is given back exactly when there is one to be taken off, and otherwise nothing changes;
and a call that fails has changed no lock, a refusal telling a reader how many others read. -/
theorem exclusion_and_balance {options : Options} {u : Usage} (reached : Reachable options u)
    (h : Handle) :
    (∀ t, (u.locks h).holds t .write = true → ∀ v, v ≠ t → ∀ mode, (u.locks h).holds v mode = false) ∧
    (((u.locks h).writer = none ↔ (u.locks h).writeHolds = 0) ∧
      (u.locks h).readers.threads.Nodup ∧ ∀ entry ∈ (u.locks h).readers, entry.2 ≠ 0) ∧
    ((∀ t, (u.locks h).readers.holds t + u.returned t h .read = u.granted t h .read) ∧
      (∀ t n, (t, n) ∈ (u.locks h).readers ↔
        n ≠ 0 ∧ n + u.returned t h .read = u.granted t h .read) ∧
      (∀ t, (u.locks h).writer = some t →
        (u.locks h).writeHolds + u.returned t h .write = u.granted t h .write) ∧
      ∀ t, (u.locks h).writer ≠ some t → u.returned t h .write = u.granted t h .write) ∧
    (∀ t mode,
      ((u.locks.release t mode h).1 = .ok () ↔ (u.locks h).holds t mode = true) ∧
      ((u.locks h).holds t mode = true → (u.locks h).holdCount t mode ≠ 0) ∧
      ((u.locks h).holds t mode = false →
        u.locks.release t mode h = (.error (.notHeld h.document mode), u.locks))) ∧
    ∀ u', Step options u u' →
      (u'.answers = u.answers → u'.locks = u.locks) ∧
      ∀ t mode e, u'.answers = ⟨.acquire, t, h, mode, .error e⟩ :: u.answers →
        u'.locks = u.locks ∧
        ∀ d n, e = .upgradeRefused d n →
          d = h.document ∧ mode = .write ∧ (u.locks h).holds t .read = true ∧
          n = ((u.locks h).readers.filter fun entry => entry.1 != t).length ∧ n ≠ 0 := by
  -- all of it follows from what each lock is like and from the balance of holds
  rcases sound_of_reachable reached with ⟨sound, balanced⟩
  have hsound := sound h
  have hreaders : (u.locks h).readers.Counted := hsound.counted .read
  refine ⟨?_, ⟨hsound.counted .write, hreaders.once, hreaders.positive⟩,
    ⟨fun t => balanced h t .read, ?_, ?_, ?_⟩, ?_, ?_⟩
  · intro t ht v hv mode
    have halone : (u.locks h).holdCount v mode = 0 := hsound.alone (hsound.holds_iff.1 ht) hv
    by_contra hholds
    exact hsound.holds_iff.1 (by simpa using hholds) halone
  · -- entries are the threads with holds, and the balance tells how many these are
    intro t n
    have hbalance : (u.locks h).readers.holds t + _ = _ := balanced h t .read
    rw [hreaders.mem_iff, ← hbalance]
    constructor
    · rintro ⟨hn, rfl⟩
      exact ⟨hn, rfl⟩
    · rintro ⟨hn, hsum⟩
      exact ⟨hn, by omega⟩
  · intro t hw
    have hbalance := balanced h t .write
    simpa [State.holdCount, hw] using hbalance
  · intro t hw
    have hbalance := balanced h t .write
    simpa [State.holdCount, hw] using hbalance
  · -- a release succeeds exactly if there is a hold to give back
    intro t mode
    have hholds : (u.locks h).holds t mode = true ↔ (u.locks h).holdCount t mode ≠ 0 :=
      hsound.holds_iff
    rcases Table.release_cases hsound t mode with ⟨hcount, s, -, hrelease⟩ | ⟨hcount, hrelease⟩
    · rw [hrelease]
      have hheld := hholds.2 hcount
      simp [hheld, hcount]
    · rw [hrelease]
      have hheld : (u.locks h).holds t mode = false := by
        by_contra hheld
        exact hholds.1 (by simpa using hheld) hcount
      simp [hheld]
  · intro u' step
    refine ⟨locks_of_waiting step, ?_⟩
    intro t mode e hanswer
    refine ⟨locks_of_failed step hanswer, ?_⟩
    rintro d n rfl
    rcases attempt_of_upgradeRefused step hanswer with ⟨hdocument, hattempt⟩
    exact ⟨hdocument, refused_reader hsound hattempt⟩

/-- Two readers, of which one has two holds and wants to write: it is refused while the other reads,
which is struck out when it gives back its only hold, and granted the hold then. It gives back one
of its holds for reading and is still entered with the other. The other thread waits in vain. -/
theorem exclusion_and_balance_upgrade :
    ∃ u : Usage, Reachable { timeout := some 50, refuseUpgrade := true } u ∧
      u.answers = [⟨.acquire, "t2", ⟨1, 1⟩, .read, .error (.timeout 1 .read)⟩,
        ⟨.release, "t1", ⟨1, 1⟩, .read, .ok ()⟩, ⟨.acquire, "t1", ⟨1, 1⟩, .write, .ok ()⟩,
        ⟨.release, "t2", ⟨1, 1⟩, .read, .ok ()⟩,
        ⟨.acquire, "t1", ⟨1, 1⟩, .write, .error (.upgradeRefused 1 1)⟩,
        ⟨.acquire, "t2", ⟨1, 1⟩, .read, .ok ()⟩, ⟨.acquire, "t1", ⟨1, 1⟩, .read, .ok ()⟩,
        ⟨.acquire, "t1", ⟨1, 1⟩, .read, .ok ()⟩] ∧
      (∀ v, v ≠ "t1" → ∀ mode, (u.locks ⟨1, 1⟩).holds v mode = false) ∧
      ("t1", 1) ∈ (u.locks ⟨1, 1⟩).readers ∧ (∀ n, ("t2", n) ∉ (u.locks ⟨1, 1⟩).readers) ∧
      (u.locks.release "t2" .read ⟨1, 1⟩) = (.error (.notHeld 1 .read), u.locks) := by
  have read : Reachable { timeout := some 50, refuseUpgrade := true } _ :=
    .step .start (.acquired (t := "t1") (h := ⟨1, 1⟩) (m := .read) (.inl rfl) rfl)
  have twice := read.step (.acquired (t := "t1") (h := ⟨1, 1⟩) (m := .read) (.inl rfl) rfl)
  have shared := twice.step (.acquired (t := "t2") (h := ⟨1, 1⟩) (m := .read) (.inl rfl) rfl)
  have refused := shared.step (.refused (t := "t1") (h := ⟨1, 1⟩) (m := .write) (.inl rfl) rfl)
  have left := refused.step (.released (t := "t2") (h := ⟨1, 1⟩) (m := .read) rfl rfl)
  have upgraded := left.step (.acquired (t := "t1") (h := ⟨1, 1⟩) (m := .write) (.inl rfl) rfl)
  have once := upgraded.step (.released (t := "t1") (h := ⟨1, 1⟩) (m := .read) rfl rfl)
  have waiting := once.step (.waits (t := "t2") (h := ⟨1, 1⟩) (m := .read) (.inl rfl) rfl)
  have gone := waiting.step (.timedOut (t := "t2") (h := ⟨1, 1⟩) (m := .read) rfl rfl rfl rfl)
  rcases exclusion_and_balance gone ⟨1, 1⟩ with ⟨halone, -, ⟨-, hentries, -⟩, hrelease, -⟩
  refine ⟨_, gone, rfl, halone "t1" rfl, (hentries "t1" 1).2 ⟨by decide, by decide⟩, ?_,
    (hrelease "t2" .read).2.2 rfl⟩
  intro n hn
  -- it was granted one hold and gave it back
  rcases (hentries "t2" n).1 hn with ⟨hpos, hsum : n + 1 = 1⟩
  omega

end Usage
end DocBase.Lock
