import DocBase.Proofs.Lock.Accounts
import DocBase.Proofs.Lock.Workers
import Mathlib.Data.Finset.Max
/-!
# Threads that lock documents do not block one another for good

Locks are taken in ascending order of document ids. So a thread that waits holds only locks of
documents below the one it waits for, and of all threads that wait the one that waits for the
highest document does not wait in vain: whoever held the lock would be waiting for a higher one, or
be giving its locks back. Main statements:

* `invariant_step` — what one step preserves, and `invariant_of_reachable`, what holds at all times;
* `exists_moves` — as long as some thread is not finished, some thread can take or give back a lock.
-/

namespace DocBase.Lock

/-! ## The invariant -/

/-- A worker takes locks in ascending order of their ranks, in the present call and in later
ones. -/
structure Worker.Rising (rank : Handle → Nat) (w : Worker) : Prop where
  now : w.acquisition.locks.Pairwise fun h k => rank h < rank k
  later : ∀ c ∈ w.calls, c.set.locks.Pairwise fun h k => rank h < rank k
  /-- There is no next call while nothing of the present one is left. -/
  busy : w.acquisition.held = [] → w.acquisition.wanted = [] → w.calls = []

/-- The state of a lock is what the threads hold of it. -/
def System.Accounts (s : System) : Prop := Lock.Accounts s.locks fun t => (s.workers t).acquisition

/-- Threads that are not named are finished; all take locks in ascending order, and the locks are
held as they say. -/
structure Invariant (rank : Handle → Nat) (threads : List Thread) (s : System) : Prop where
  idle : ∀ t, t ∉ threads → (s.workers t).Finished
  rising : ∀ t, (s.workers t).Rising rank
  accounts : s.Accounts

namespace Worker.Rising

variable {rank : Handle → Nat}

theorem takeUp {cs : List Call}
    (h : ∀ c ∈ cs, c.set.locks.Pairwise fun h k => rank h < rank k) :
    (Worker.takeUp cs).Rising rank := by
  induction cs with
  | nil => exact ⟨List.Pairwise.nil, fun c hc => by simp [Worker.takeUp] at hc, fun _ _ => rfl⟩
  | cons c cs ih =>
    have hcs : ∀ c ∈ cs, c.set.locks.Pairwise fun h k => rank h < rank k :=
      fun c' hc => h c' (List.mem_cons_of_mem _ hc)
    rw [Worker.takeUp]
    split
    · exact ih hcs
    · next hne => exact ⟨h c (by simp), hcs, fun _ hw => absurd hw hne⟩

/-- Giving up what is still wanted, or giving back what was taken last, leaves a shorter list. -/
theorem goOn {mode : Mode} {held : List Handle} {calls : List Call}
    (hheld : held.reverse.Pairwise fun h k => rank h < rank k)
    (hcalls : ∀ c ∈ calls, c.set.locks.Pairwise fun h k => rank h < rank k) :
    (Worker.goOn ⟨⟨mode, held, []⟩, calls⟩).Rising rank := by
  unfold Worker.goOn
  split
  · exact takeUp hcalls
  · next hbusy =>
    refine ⟨by simpa [Acquisition.locks] using hheld, hcalls, fun hh hw => ?_⟩
    exact absurd ⟨hh, hw⟩ hbusy

/-- What is held ranks below what is wanted. -/
theorem rank_lt {mode : Mode} {held wanted : List Handle} {calls : List Call}
    (h : Rising rank ⟨⟨mode, held, wanted⟩, calls⟩) {k l : Handle} (hk : k ∈ held)
    (hl : l ∈ wanted) : rank k < rank l :=
  (List.pairwise_append.1 h.now).2.2 k (List.mem_reverse.2 hk) l hl

end Worker.Rising

/-- Another worker for a thread has another acquisition for it. -/
theorem System.Accounts.put {s : System} {t : Thread} {w : Worker} {locks : Table}
    (accounts : Lock.Accounts locks
      (Function.update (fun u => (s.workers u).acquisition) t w.acquisition)) :
    (s.put t w locks).Accounts := by
  have hcomp : (fun u => ((s.put t w locks).workers u).acquisition) =
      Function.update (fun u => (s.workers u).acquisition) t w.acquisition :=
    Function.comp_update ..
  rwa [System.Accounts, hcomp]

/-! ## Steps and runs -/

section

variable {options : Options} {rank : Handle → Nat} {threads : List Thread} {s s' : System}

/-- A step of a thread that is not finished keeps the invariant if the thread goes on rising and the
accounts of all locks are right. -/
theorem Invariant.of_put {t : Thread} (inv : Invariant rank threads s)
    (hopen : ¬ (s.workers t).Finished) {w : Worker} {locks : Table} (hrising : w.Rising rank)
    (haccounts : (s.put t w locks).Accounts) : Invariant rank threads (s.put t w locks) := by
  constructor
  · intro u hu
    -- finished threads do not move
    have hne : u ≠ t := by
      rintro rfl
      exact hopen (inv.idle u hu)
    rw [System.workers_put_ne hne]
    exact inv.idle u hu
  · intro u
    rcases eq_or_ne u t with rfl | hne
    · rwa [System.workers_put_self]
    · rw [System.workers_put_ne hne]
      exact inv.rising u
  · exact haccounts

/-- Every step keeps the invariant. -/
theorem invariant_step {t : Thread} (inv : Invariant rank threads s) (step : Step options t s s') :
    Invariant rank threads s' := by
  have hrising := inv.rising t
  cases step with
  | @acquire mode held wanted h calls state hw hattempt =>
    rw [hw] at hrising
    rcases State.attempt_granted hattempt with ⟨hgrants, rfl⟩
    have hnow : Worker.Rising rank ⟨⟨mode, h :: held, wanted⟩, calls⟩ := by
      refine ⟨?_, hrising.later, fun hheld => by simp at hheld⟩
      have hnow := hrising.now
      simpa [Acquisition.locks] using hnow
    refine inv.of_put (by simp [hw, Worker.Finished]) hnow (.put ?_)
    exact Lock.Accounts.acquire inv.accounts (congrArg Worker.acquisition hw) hgrants
  | @giveUp mode held wanted h calls hw _ =>
    rw [hw] at hrising
    have hheld := (List.pairwise_append.1 hrising.now).1
    refine inv.of_put (by simp [hw, Worker.Finished]) (.goOn hheld hrising.later) (.put ?_)
    -- no lock changes hands: those taken for the call are given back one by one later on
    exact Lock.Accounts.update inv.accounts (congrArg Worker.acquisition hw) rfl (Worker.held_goOn _)
      (Worker.mode_goOn _)
  | @release mode held h calls hw =>
    rw [hw] at hrising
    have hnow : held.reverse.Pairwise fun h k => rank h < rank k := by
      have hnow := hrising.now
      simp only [Acquisition.locks, List.reverse_cons, List.append_nil] at hnow
      exact (List.pairwise_append.1 hnow).1
    have hacquisition := congrArg Worker.acquisition hw
    rcases Lock.Accounts.release_ok inv.accounts hacquisition with ⟨state, hstate, hrelease⟩
    refine inv.of_put (by simp [hw, Worker.Finished]) (.goOn hnow hrising.later) (.put ?_)
    rw [hrelease]
    -- the lock is struck off, and then the thread goes on to its next call
    have hback : Lock.Accounts _ (Function.update _ t ⟨mode, held, []⟩) :=
      Lock.Accounts.release inv.accounts hacquisition hstate
    have hnext := hback.update (Function.update_self ..) rfl (Worker.held_goOn ⟨⟨mode, held, []⟩, calls⟩)
      (Worker.mode_goOn _)
    rwa [Function.update_idem] at hnext

theorem invariant_start {programs : List (Thread × List Call)}
    (hrank : ∀ p ∈ programs, ∀ c ∈ p.2, c.set.locks.Pairwise fun h k => rank h < rank k) :
    Invariant rank (programs.map Prod.fst) (System.start programs) where
  idle t ht := by
    -- a thread that is not named has no calls
    have hnone : programs.lookup t = none := by
      rw [List.lookup_eq_none_iff]
      intro p hp
      have hne : t ≠ p.1 := fun htp => ht (htp ▸ List.mem_map_of_mem hp)
      simpa using hne
    simp [System.start, hnone, Worker.takeUp, Worker.Finished]
  rising t := by
    refine .takeUp fun c hc => ?_
    cases hlookup : programs.lookup t with
    | none => simp [hlookup] at hc
    | some cs =>
      rw [hlookup, Option.getD_some] at hc
      rcases List.lookup_eq_some_iff.1 hlookup with ⟨before, after, hsplit, -⟩
      exact hrank (t, cs) (by simp [hsplit]) c hc
  accounts := .start fun t => Worker.held_takeUp _

/-- The invariant holds at all times. -/
theorem invariant_of_reachable {programs : List (Thread × List Call)}
    (hrank : ∀ p ∈ programs, ∀ c ∈ p.2, c.set.locks.Pairwise fun h k => rank h < rank k)
    (h : Reachable options programs s) : Invariant rank (programs.map Prod.fst) s := by
  induction h with
  | start => exact invariant_start hrank
  | step _ hstep ih => exact invariant_step ih hstep

/-! ## Progress -/

/-- A thread can take its next lock at once, or give one back. -/
def System.Moves (options : Options) (s : System) (t : Thread) : Prop :=
  (∃ mode held h wanted calls state, s.workers t = ⟨⟨mode, held, h :: wanted⟩, calls⟩ ∧
    (s.locks h).attempt options t mode = .granted state) ∨
  ∃ mode held h calls, s.workers t = ⟨⟨mode, h :: held, []⟩, calls⟩ ∧
    (s.locks.release t mode h).1 = .ok ()

/-- To move is to take a step. -/
theorem System.Moves.exists_step {t : Thread} (h : s.Moves options t) : ∃ s', Step options t s s' := by
  rcases h with ⟨mode, held, h, wanted, calls, state, hw, hattempt⟩ | ⟨mode, held, h, calls, hw, -⟩
  · exact ⟨_, .acquire hw hattempt⟩
  · exact ⟨_, .release hw⟩

/-- A thread that is not finished can give back a lock or waits for one. -/
theorem moves_or_wanted (options : Options) {t : Thread} (inv : Invariant rank threads s)
    (hopen : ¬ (s.workers t).Finished) :
    s.Moves options t ∨
      ∃ mode held h wanted calls, s.workers t = ⟨⟨mode, held, h :: wanted⟩, calls⟩ := by
  have hrising := inv.rising t
  rcases hw : s.workers t with ⟨⟨mode, held, wanted⟩, calls⟩
  rw [hw] at hopen hrising
  cases wanted with
  | cons h wanted => exact .inr ⟨mode, held, h, wanted, calls, rfl⟩
  | nil =>
    cases held with
    | nil => exact absurd ⟨rfl, rfl, hrising.busy rfl rfl⟩ hopen
    | cons h held =>
      rcases Lock.Accounts.release_ok inv.accounts (congrArg Worker.acquisition hw) with ⟨state, -, hok⟩
      exact .inl (.inr ⟨mode, held, h, calls, hw, by rw [hok]⟩)

/-- A thread that waits in vain waits for a lock that another thread holds. -/
theorem exists_holder_of_wanted {t : Thread} {mode : Mode} {held wanted : List Handle} {h : Handle}
    {calls : List Call} (inv : Invariant rank threads s)
    (hw : s.workers t = ⟨⟨mode, held, h :: wanted⟩, calls⟩) (hstuck : ¬ s.Moves options t) :
    ∃ u, h ∈ (s.workers u).acquisition.held := by
  have hgrants : (s.locks h).grants t mode = false := by
    by_contra hgrants
    refine hstuck (.inl ⟨mode, held, h, wanted, calls, (s.locks h).take t mode, hw, ?_⟩)
    rw [State.attempt, if_pos (by simpa using hgrants)]
  exact Lock.Accounts.exists_holder inv.accounts hgrants

/-- The rank of the lock a thread wants next. -/
def Worker.wantedRank (rank : Handle → Nat) (w : Worker) : Nat :=
  w.acquisition.wanted.head?.elim 0 rank

/-- Of the threads that are not finished, the one that wants the highest lock can move, unless one
can that wants none. -/
theorem exists_moves_of_invariant (inv : Invariant rank threads s)
    (hopen : ∃ t, ¬ (s.workers t).Finished) : ∃ t, s.Moves options t := by
  classical
  by_contra hstuck
  have hstuck : ∀ t, ¬ s.Moves options t := fun t ht => hstuck ⟨t, ht⟩
  -- finitely many, since threads that are not named are finished
  let unfinished := threads.toFinset.filter fun t => ¬ (s.workers t).Finished
  have hmem : ∀ t, ¬ (s.workers t).Finished → t ∈ unfinished := by
    intro t ht
    have hnamed : t ∈ threads := by
      by_contra hnamed
      exact ht (inv.idle t hnamed)
    simp [unfinished, hnamed, ht]
  rcases hopen with ⟨t₀, ht₀⟩
  obtain ⟨t, ht, hmax⟩ := unfinished.exists_max_image
    (fun t => (s.workers t).wantedRank rank) ⟨t₀, hmem t₀ ht₀⟩
  have hopen : ¬ (s.workers t).Finished := (Finset.mem_filter.1 ht).2
  -- the highest lock that anybody wants, and whoever holds it
  obtain ⟨mode, held, h, wanted, calls, hw⟩ :=
    (moves_or_wanted options inv hopen).resolve_left (hstuck t)
  rcases exists_holder_of_wanted inv hw (hstuck t) with ⟨u, hu⟩
  have huopen : ¬ (s.workers u).Finished := by
    intro hfinished
    rw [hfinished.1] at hu
    simp at hu
  obtain ⟨mode', held', k, wanted', calls', hw'⟩ :=
    (moves_or_wanted options inv huopen).resolve_left (hstuck u)
  have hrising := inv.rising u
  have hle := hmax u (hmem u huopen)
  rw [hw'] at hu hrising
  -- the holder waits for a higher one, against the choice of the first
  have hlt := hrising.rank_lt hu List.mem_cons_self
  simp only [hw, hw', Worker.wantedRank, List.head?_cons, Option.elim_some] at hle
  omega

end

/-! ## Documents and their locks -/

/-- The documents that any of these calls locks. -/
def documentsOf (programs : List (Thread × List Call)) : List Document :=
  programs.flatMap fun p => p.2.flatMap fun c => c.set.documents

/-- Ids and locks correspond one to one. -/
def OneToOne (documents : List Document) : Prop :=
  ∀ d ∈ documents, ∀ d' ∈ documents, d.lock = d'.lock ↔ d.id = d'.id

/-- The id of the document that a lock guards. -/
def rankIn (documents : List Document) (h : Handle) : Nat :=
  (documents.find? fun d => d.lock = h).elim 0 fun d => d.id.toNat

theorem rankIn_lock {documents : List Document} (assigned : OneToOne documents) {d : Document}
    (hd : d ∈ documents) : rankIn documents d.lock = d.id.toNat := by
  unfold rankIn
  cases hfind : documents.find? fun d' => d'.lock = d.lock with
  | none =>
    have hnone := List.find?_eq_none.1 hfind d hd
    simp at hnone
  | some d' =>
    have hlock : d'.lock = d.lock := by simpa using List.find?_some hfind
    have hid := (assigned d' (List.mem_of_find?_eq_some hfind) d hd).1 hlock
    simp [hid]

/-- The locks of a call are taken in ascending order of ids. -/
theorem pairwise_locks {documents : List Document} (assigned : OneToOne documents) (c : Call)
    (hc : ∀ d ∈ c.set.documents, d ∈ documents) :
    c.set.locks.Pairwise fun h k => rankIn documents h < rankIn documents k := by
  rw [DocumentSet.locks, List.pairwise_map]
  refine c.ascending.imp_of_mem fun {d d'} hd hd' hlt => ?_
  rw [rankIn_lock assigned (hc d hd), rankIn_lock assigned (hc d' hd')]
  exact UInt32.lt_iff_toNat_lt.1 hlt

/-- Where every document has its own lock, threads that lock documents by sets, each holding nothing
else, never all wait: in every state they can come to, as long as one of them is not finished, one
of them can take its next lock at once or give one back. This is so whether or not waiting is
limited and upgrades are refused. -/
theorem exists_moves {options : Options} {programs : List (Thread × List Call)}
    (assigned : OneToOne (documentsOf programs)) {s : System}
    (reached : Reachable options programs s) (unfinished : ∃ t, ¬ (s.workers t).Finished) :
    ∃ t, s.Moves options t := by
  have hrank : ∀ p ∈ programs, ∀ c ∈ p.2, c.set.locks.Pairwise fun h k =>
      rankIn (documentsOf programs) h < rankIn (documentsOf programs) k := by
    intro p hp c hc
    refine pairwise_locks assigned c fun d hd => ?_
    exact List.mem_flatMap.2 ⟨p, hp, List.mem_flatMap.2 ⟨c, hc, hd⟩⟩
  exact exists_moves_of_invariant (invariant_of_reachable hrank reached) unfinished

/-- A document with a lock of its own. -/
def sampleDocument (id : DocId) : Document where
  id
  fileName := "sample.xml"
  permission := Permission.ofMode "admin" "dba" Permission.documentMode
  kind := .xml
  lock := ⟨id.toNat, id⟩

/-- Two threads whose sets overlap. -/
def overlapping : List (Thread × List Call) :=
  [("t1", [.ofList [sampleDocument 2, sampleDocument 1] .write]),
    ("t2", [.ofList [sampleDocument 2] .write])]

/-- The first thread waits for the lock of the second, which has all it wants. -/
theorem exists_moves_overlapping :
    ∃ s, Reachable { timeout := none } overlapping s ∧
      (s.locks ⟨1, 1⟩).writer = some "t1" ∧ (s.locks ⟨2, 2⟩).writer = some "t2" ∧
      ∃ t, s.Moves { timeout := none } t := by
  have h₁ : (System.start overlapping).workers "t1" = ⟨⟨.write, [], [⟨1, 1⟩, ⟨2, 2⟩]⟩, []⟩ := rfl
  have h₂ : (System.start overlapping).workers "t2" = ⟨⟨.write, [], [⟨2, 2⟩]⟩, []⟩ := rfl
  have first : Reachable { timeout := none } overlapping
      ((System.start overlapping).put "t1" ⟨⟨.write, [⟨1, 1⟩], [⟨2, 2⟩]⟩, []⟩
        (Table.free.set ⟨1, 1⟩ { writer := some "t1", writeHolds := 1 })) :=
    .step .start (.acquire h₁ rfl)
  have second := first.step (.acquire ((System.workers_put_ne (by decide) _ _).trans h₂) rfl)
  refine ⟨_, second, rfl, rfl, exists_moves ?_ second ⟨"t2", ?_⟩⟩
  · unfold OneToOne
    decide +kernel
  · intro hfinished
    have hheld := hfinished.1
    simp at hheld

end DocBase.Lock
