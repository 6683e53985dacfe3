import DocBase.Session.Request
/-!
# Threads taking turns

Requests of several threads in the order they are made. A thread deals with one request at a time:
what it is asked while it waits is taken up when the wait is over, in the order it was asked. A
request that has to wait is continued as soon as its lock can be granted. Time passes only when an
answer is awaited that cannot be given yet: then the wait that began first ends without its lock,
and so on until the answer is there. Main statement: no request gets lost when its thread takes it
up (`outstanding_takeUp`).
-/

namespace DocBase

/-- A thread that waits, and the moment its present wait began. -/
structure Waiter (α : Type) where
  thread : Thread
  wait : Wait α
  since : Nat

/-- A session with the threads that wait, the requests that busy threads have yet to take up and the
answers that nobody has asked for yet. Requests and answers stand the oldest first. -/
structure Schedule (α : Type) where
  session : Session
  waiters : List (Waiter α) := []
  pending : List (Thread × Request α) := []
  answers : List (Thread × α) := []
  /-- Counts the waits that have begun. -/
  clock : Nat := 0

namespace Schedule

variable {α : Type}

/-- Whether a thread cannot take up another request. -/
def isBusy (s : Schedule α) (t : Thread) : Bool :=
  s.waiters.any (·.thread == t) || s.pending.any (·.1 == t)

def answerCount (s : Schedule α) (t : Thread) : Nat := s.answers.countP (·.1 == t)

/-- How many answers to a thread nobody has asked for yet, those included that are still to come. -/
def outstanding (s : Schedule α) (t : Thread) : Nat :=
  s.answerCount t + s.waiters.countP (·.thread == t) + s.pending.countP (·.1 == t)

def answer (s : Schedule α) (t : Thread) (a : α) (session : Session) : Schedule α :=
  { s with session, answers := s.answers ++ [(t, a)] }

/-! ## Going on -/

/-- A thread takes up a request. A wait of no length is over before anybody else moves. -/
def takeUp (s : Schedule α) (t : Thread) (r : Request α) : Schedule α :=
  match r t s.session with
  | .answered a session => s.answer t a session
  | .waiting wait session =>
    if session.store.options.timeout = some 0 then
      let (a, session) := wait.expire t session
      s.answer t a session
    else
      { s with session, waiters := s.waiters ++ [⟨t, wait, s.clock⟩], clock := s.clock + 1 }

/-- Lets waiters go on, one after another. -/
def continueAll : List (Waiter α) → Schedule α → Schedule α
  | [], s => s
  | w :: ws, s =>
    match w.wait.advance w.thread s.session with
    | .answered a session => continueAll ws (s.answer w.thread a session)
    | .waiting wait session =>
      -- a lock was taken meanwhile, so the wait for the next one begins now
      let began := wait.acquisition.wanted.length < w.wait.acquisition.wanted.length
      continueAll ws
        { s with
          session
          waiters := s.waiters ++ [{ w with wait, since := if began then s.clock else w.since }]
          clock := if began then s.clock + 1 else s.clock }

/-- Lets threads take up requests, one after another; those of busy threads stay for later. -/
def takeUpAll : List (Thread × Request α) → Schedule α → Schedule α
  | [], s => s
  | (t, r) :: rs, s =>
    takeUpAll rs (if s.isBusy t then { s with pending := s.pending ++ [(t, r)] } else s.takeUp t r)

/-- What is still to be done: a request has to be taken up and may then have to wait. -/
def load (s : Schedule α) : Nat := s.waiters.length + 2 * s.pending.length

/-- Lets threads go on until none of them gets further. Every round but the last lessens the load,
so there need not be more rounds than that. -/
def settle : (rounds : Nat) → Schedule α → Schedule α
  | 0, s => s
  | rounds + 1, s =>
    let continued := continueAll s.waiters { s with waiters := [] }
    let next := takeUpAll continued.pending { continued with pending := [] }
    if next.load < s.load then settle rounds next else next

def settled (s : Schedule α) : Schedule α := settle s.load s

/-! ## Passing time -/

/-- The wait that began first. -/
def firstWaiter? (s : Schedule α) : Option (Waiter α) :=
  s.waiters.foldl (fun first w =>
    match first with
    | some f => if w.since < f.since then some w else first
    | none => some w) none

/-- Ends the wait of a thread. -/
def expire (s : Schedule α) (w : Waiter α) : Schedule α :=
  let (a, session) := w.wait.expire w.thread s.session
  let waiters := s.waiters.filter (·.thread != w.thread)
  settled ({ s with waiters }.answer w.thread a session)

/-- Lets time pass until a thread has a number of answers. Without a limit on waiting, or when
nobody waits, no time passes. Every step ends a wait. -/
def await (t : Thread) (answers : Nat) : (steps : Nat) → Schedule α → Schedule α
  | 0, s => s
  | steps + 1, s =>
    if s.answerCount t < answers && s.session.store.options.timeout.isSome then
      match s.firstWaiter? with
      | some w => await t answers steps (s.expire w)
      | none => s
    else s

def awaited (s : Schedule α) (t : Thread) (answers : Nat) : Schedule α := await t answers s.load s

/-! ## Asking -/

/-- The oldest answer to a thread, which is then forgotten. -/
def takeOldest (s : Schedule α) (t : Thread) : Option α × Schedule α :=
  match s.answers.find? (·.1 == t) with
  | none => (none, s)
  | some (_, a) => (some a, { s with answers := s.answers.eraseP (·.1 == t) })

/-- The newest answer to a thread, which is then forgotten. -/
def takeNewest (s : Schedule α) (t : Thread) : Option α × Schedule α :=
  let (a, s) := { s with answers := s.answers.reverse }.takeOldest t
  (a, { s with answers := s.answers.reverse })

/-- Makes a request without waiting for its answer. -/
def start (s : Schedule α) (t : Thread) (r : Request α) : Schedule α :=
  settled { s with pending := s.pending ++ [(t, r)] }

/-- Waits for the answer to the oldest request of a thread whose answer nobody has asked for. -/
def join (s : Schedule α) (t : Thread) : Option α × Schedule α := (s.awaited t 1).takeOldest t

/-- Makes a request and waits for its answer. Answers to earlier requests of the thread are kept. -/
def perform (s : Schedule α) (t : Thread) (r : Request α) : Option α × Schedule α :=
  let s := s.start t r
  let all := s.outstanding t
  let s := s.awaited t all
  -- an answer that never comes is none of the earlier ones
  if s.answerCount t < all then (none, s) else s.takeNewest t

/-! ## Statements -/

/-- A request that its thread takes up is answered or waits: one more answer is outstanding. -/
theorem outstanding_takeUp (s : Schedule α) (t : Thread) (r : Request α) :
    (s.takeUp t r).outstanding t = s.outstanding t + 1 := by
  unfold takeUp
  split <;> try split
  all_goals
    simp only [answer, outstanding, answerCount, List.countP_append, List.countP_singleton,
      beq_self_eq_true, if_true]
    omega

end Schedule
end DocBase
