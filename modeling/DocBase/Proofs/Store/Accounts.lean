import DocBase.Proofs.Lock.Accounts
import DocBase.Proofs.Store.Consistency
import DocBase.Proofs.Store.Traffic
/-!
# Steps and the locks

What each step of a thread that works on a store does to the locks: most leave them alone, and the
others change them as the acquisition of the thread says. Main statement: `accounts_step` — while
threads work on a store, each lock has exactly the holds that the threads' acquisitions say.
-/

namespace DocBase

open Query

/-! ## Changes that leave the locks alone -/

namespace Store

variable {s s' : Store}

theorem quiet_concludeRemoval {r : Removal} {present : Bool} {released : Except Lock.Error Unit}
    {answer : Except StoreError Document}
    (h : s.concludeRemoval r present released = (answer, s')) : s.Quiet s' := by
  obtain rfl : (s.concludeRemoval r present released).2 = s' := congrArg Prod.snd h
  unfold concludeRemoval
  split
  · exact ⟨⟨rfl, rfl, rfl⟩, rfl⟩
  · cases present <;> exact ⟨⟨rfl, rfl, rfl⟩, rfl⟩

theorem quiet_failRemoval {r : Removal} {e : Lock.Error} {answer : Except StoreError Document}
    (h : s.failRemoval r e = (answer, s')) : s.Quiet s' := by
  obtain rfl : (s.failRemoval r e).2 = s' := congrArg Prod.snd h
  exact ⟨⟨rfl, rfl, rfl⟩, rfl⟩

theorem quiet_concludeQuery {x : Execution} {value answer : Except QueryError Sequence}
    {released : Except Lock.Error Unit}
    (h : s.concludeQuery x value released = (answer, s')) : s.Quiet s' := by
  obtain rfl : (s.concludeQuery x value released).2 = s' := congrArg Prod.snd h
  exact ⟨⟨rfl, rfl, rfl⟩, rfl⟩

theorem quiet_failQuery {x : Execution} {e : Lock.Error} {answer : Except QueryError Sequence}
    (h : s.failQuery x e = (answer, s')) : s.Quiet s' := by
  obtain rfl : (s.failQuery x e).2 = s' := congrArg Prod.snd h
  exact ⟨⟨rfl, rfl, rfl⟩, rfl⟩

theorem quiet_beginRemoval {path : String} {answer : Except StoreError Removal}
    (h : s.beginRemoval path = (answer, s')) : s.Quiet s' := by
  cases answer with
  | error e =>
    rcases beginRemoval_eq_error h with ⟨-, -, rfl⟩
    exact .refl _
  | ok r =>
    rcases beginRemoval_eq_ok h with ⟨-, -, -, rfl⟩
    exact ⟨⟨rfl, rfl, rfl⟩, rfl⟩

theorem locks_takeOut {d : Document} {present : Bool} (h : s.takeOut d = (present, s')) :
    s'.locks = s.locks := by
  obtain rfl : (s.takeOut d).2 = s' := congrArg Prod.snd h
  unfold takeOut
  split <;> rfl

end Store

namespace Traffic

/-- Every lock is sound, and its holds are those of the actors' acquisitions. -/
def Accounts (locks : Lock.Table) (actors : Thread → Actor) : Prop :=
  Lock.Accounts locks fun t => (actors t).acquisition

variable {s s' : Traffic} {t : Thread} {actors : Thread → Actor} {a : Actor} {locks : Lock.Table}

/-- Another actor for a thread has another acquisition for it. -/
theorem Accounts.put
    (accounts : Lock.Accounts locks (Function.update (fun u => (actors u).acquisition) t a.acquisition)) :
    Accounts locks (Function.update actors t a) := by
  have hcomp : (fun u => (Function.update actors t a u).acquisition) =
      Function.update (fun u => (actors u).acquisition) t a.acquisition :=
    Function.comp_update ..
  rwa [Accounts, hcomp]

/-- Each step enters or strikes off what it does to a lock. -/
theorem accounts_step (accounts : Accounts s.store.locks s.actors) (h : Step t s s') :
    Accounts s'.store.locks s'.actors := by
  cases h with
  -- what happens to collections and documents does not touch the locks
  | createCollection uri permission hactor =>
    rw [show _ = s.store.locks from (s.store.quiet_createCollection uri permission).locks_eq]
    exact accounts
  | storeDocument hactor hstore =>
    rw [show _ = s.store.locks from (Store.storeDocument_eq_ok hstore).locks_eq]
    exact accounts
  | refuseDocument hactor hstore =>
    have hsame := Store.storeDocument_error (congrArg Prod.fst hstore)
    rw [hstore] at hsame
    obtain rfl : s.store = _ := hsame.symm
    exact accounts
  | acquire hactor hattempt =>
    rcases Lock.State.attempt_granted hattempt with ⟨hgrants, rfl⟩
    exact .put (Lock.Accounts.acquire accounts (congrArg Actor.acquisition hactor) hgrants)
  -- the thread holds the lock it gives back, so it is not told that it does not
  | release hactor hrelease hback =>
    have hacquisition := congrArg Actor.acquisition hactor
    rcases Lock.Accounts.release_ok accounts hacquisition with ⟨state, hstate, hok⟩
    obtain ⟨-, rfl⟩ := Prod.mk.inj (hok.symm.trans hrelease)
    exact .put (Lock.Accounts.release accounts hacquisition hstate)
  | beginRemoval hactor hbegin =>
    -- a removal that begins wants one lock and holds none yet
    rcases Store.beginRemoval_eq_ok hbegin with ⟨-, -, hacquisition, -⟩
    have hheld : _ = [] := congrArg Lock.Acquisition.held hacquisition
    have hquiet := Store.quiet_beginRemoval hbegin
    exact .put (Lock.Accounts.update accounts (congrArg Actor.acquisition hactor) hquiet.locks_eq hheld
      (.inr hheld))
  -- a removal that fails or ends, and a query, too, leaves the locks as they are
  | missRemoval hactor hbegin =>
    exact .put (Lock.Accounts.update accounts (congrArg Actor.acquisition hactor)
      (Store.quiet_beginRemoval hbegin).locks_eq rfl (.inr rfl))
  | takeOut hactor htake =>
    exact .put (Lock.Accounts.update accounts (congrArg Actor.acquisition hactor)
      (Store.locks_takeOut htake) rfl (.inl rfl))
  | endRemoval hactor hend =>
    exact .put (Lock.Accounts.update accounts (congrArg Actor.acquisition hactor)
      (Store.quiet_concludeRemoval hend).locks_eq rfl (.inr rfl))
  | failRemoval hactor hend =>
    exact .put (Lock.Accounts.update accounts (congrArg Actor.acquisition hactor)
      (Store.quiet_failRemoval hend).locks_eq rfl (.inr rfl))
  | endQuery hactor hend =>
    exact .put (Lock.Accounts.update accounts (congrArg Actor.acquisition hactor)
      (Store.quiet_concludeQuery hend).locks_eq rfl (.inr rfl))
  | failQuery hactor hend =>
    exact .put (Lock.Accounts.update accounts (congrArg Actor.acquisition hactor)
      (Store.quiet_failQuery hend).locks_eq rfl (.inr rfl))
  | miss hactor hfound =>
    exact .put (Lock.Accounts.update accounts (congrArg Actor.acquisition hactor) rfl rfl (.inr rfl))
  | enter hactor =>
    exact .put (Lock.Accounts.update accounts (congrArg Actor.acquisition hactor) rfl rfl (.inr rfl))
  | refuse hactor hattempt hfail | timeOut hactor hattempt htimeout hfail
  | beginQuery q subject dynamic hactor | find hactor hfound | recheck hactor | leaveOut hactor
  | rechecked hactor | evaluate hactor =>
    -- whatever is still wanted, what is held stays as it is
    exact .put (Lock.Accounts.update accounts (congrArg Actor.acquisition hactor) rfl rfl (.inl rfl))

end Traffic
end DocBase
