import DocBase.Document.Locking
import DocBase.Proofs.Lock.AtOnce
import DocBase.Proofs.Lock.Progress
import DocBase.Proofs.Lock.Safety
/-!
# All documents of a set are locked or none

A set is locked by taking the locks of its documents in ascending order of ids. Where every document
has its own lock and no other thread moves, the set is locked if each of these locks is granted;
otherwise the call fails for the first document whose lock is not, and leaves no trace. A thread
that has locked a set may go on locking, the same documents among others: once it has given back
what it took since, it can give back the locks of the set, too. Main statements:

* `lock_result` — what comes of locking a set;
* `lock_all_or_nothing` — what a set that was locked adds and gives back, and what a set that was
  not leaves behind.
-/

namespace DocBase.DocumentSet

open Lock

variable {s : DocumentSet} {options : Options} {me : Thread} {mode : Mode} {t t' : Table} {g : Guard}

/-- The first document of a set whose lock is not granted is denied; if there is none all are
locked. -/
theorem lock_result (s : DocumentSet) (mode : Mode) (options : Options) (me : Thread) (t : Table) :
    (s.lock mode options me t).1 =
      match s.documents.find? fun d => !(t d.lock).grants me mode with
      | some d => .error ((t d.lock).denial options me mode d.lock.document)
      | none => .ok ⟨mode, s.locks.reverse⟩ := by
  have hrun : (s.lock mode options me t).1 = _ := Acquisition.run_result [] s.locks t
  have hfirst : s.locks.find? (fun h => !(t h).grants me mode) =
      (s.documents.find? fun d => !(t d.lock).grants me mode).map Document.lock := List.find?_map ..
  rw [hrun, hfirst]
  cases s.documents.find? _ with
  | some d => rfl
  | none => simp

/-- A set is locked exactly when every lock is granted. -/
theorem exists_lock_eq_ok :
    (∃ g, (s.lock mode options me t).1 = .ok g) ↔
      ∀ d ∈ s.documents, (t d.lock).grants me mode = true := by
  rw [lock_result]
  cases hfirst : s.documents.find? fun d => !(t d.lock).grants me mode with
  | some d =>
    have hd := List.find?_some hfirst
    simp only [reduceCtorEq, exists_false, false_iff]
    intro hall
    simp [hall d (List.mem_of_find?_eq_some hfirst)] at hd
  | none => simpa using hfirst

/-- The document whose lock is not granted and that has the smallest id of all such is denied. -/
theorem lock_eq_error (options : Options) (ascending : Keyed.Ascending Document.id s.documents)
    {d : Document} (hd : d ∈ s.documents) (hdenied : (t d.lock).grants me mode = false)
    (hbelow : ∀ d' ∈ s.documents, d'.id < d.id → (t d'.lock).grants me mode = true) :
    (s.lock mode options me t).1 = .error ((t d.lock).denial options me mode d.lock.document) := by
  have hfirst : (s.documents.find? fun d => !(t d.lock).grants me mode) = some d := by
    rcases List.mem_iff_append.1 hd with ⟨front, back, hsplit⟩
    rw [Keyed.Ascending, hsplit, List.pairwise_append] at ascending
    rw [List.find?_eq_some_iff_append]
    refine ⟨by simp [hdenied], front, back, hsplit, fun d' hd' => ?_⟩
    have hmem : d' ∈ s.documents := by simp [hsplit, hd']
    simp [hbelow d' hmem (ascending.2.2 d' hd' d List.mem_cons_self)]
  rw [lock_result, hfirst]

/-- Documents of different ids that have their own locks have different locks. -/
theorem nodup_locks (ascending : Keyed.Ascending Document.id s.documents)
    (own : ∀ d ∈ s.documents, d.lock.document = d.id) : s.locks.Nodup := by
  rw [locks, List.Nodup, List.pairwise_map]
  refine ascending.imp_of_mem fun {d d'} hd hd' hlt heq => ?_
  rw [← own d hd, ← own d' hd', heq] at hlt
  exact UInt32.lt_irrefl _ hlt

/-- What a set that is locked adds to what threads have of a lock. -/
theorem holdCount_lock (ascending : Keyed.Ascending Document.id s.documents)
    (own : ∀ d ∈ s.documents, d.lock.document = d.id) (sound : ∀ h, (t h).Sound)
    (h : s.lock mode options me t = (.ok g, t')) (k : Handle) :
    (t' k).Sound ∧ ∀ v kind, (t' k).holdCount v kind =
      (t k).holdCount v kind + if v = me ∧ kind = mode ∧ k ∈ s.locks then 1 else 0 := by
  have hstate := Acquisition.locks_of_run_ok h k
  -- the lock of a document is taken once, and no other is taken at all
  by_cases hk : k ∈ s.locks
  · rw [List.count_eq_one_of_mem (nodup_locks ascending own) hk, Function.iterate_one] at hstate
    rcases List.mem_map.1 hk with ⟨d, hd, rfl⟩
    have hgrants := exists_lock_eq_ok.1 ⟨g, congrArg Prod.fst h⟩ d hd
    rw [hstate]
    refine ⟨(sound _).take hgrants, fun v kind => ?_⟩
    rw [State.holdCount_take (sound _) hgrants]
    simp [hk]
  · rw [List.count_eq_zero.2 hk, Function.iterate_zero, id_eq] at hstate
    rw [hstate]
    exact ⟨sound k, by simp [hk]⟩

/-- Where every document has its own lock, with time limited and while no other thread moves, a set
is locked exactly when each of its locks is granted to the thread. Otherwise the document of the
smallest id among those whose locks are not is denied, and every lock is as it was. A set that is
locked adds one hold of the thread to each of its locks and nothing else, and all is as before when
it is unlocked at once. It can be unlocked, too, when the thread has gone on locking, whatever
others did meanwhile, once the thread has given back what it was granted since; just the holds that
were added are taken off then. -/
theorem lock_all_or_nothing (ascending : Keyed.Ascending Document.id s.documents)
    (own : ∀ d ∈ s.documents, d.lock.document = d.id) (sound : ∀ h, (t h).Sound) (mode : Mode)
    (options : Options) (me : Thread) :
    ((∃ g, (s.lock mode options me t).1 = .ok g) ↔
      ∀ d ∈ s.documents, (t d.lock).grants me mode = true) ∧
    (∀ d ∈ s.documents, (t d.lock).grants me mode = false →
      (∀ d' ∈ s.documents, d'.id < d.id → (t d'.lock).grants me mode = true) →
      s.lock mode options me t = (.error ((t d.lock).denial options me mode d.id), t)) ∧
    ∀ g t', s.lock mode options me t = (.ok g, t') →
      (∀ h v kind, (t' h).holdCount v kind =
        (t h).holdCount v kind + if v = me ∧ kind = mode ∧ h ∈ s.locks then 1 else 0) ∧
      g.unlock me t' = (.ok (), t) ∧
      ∀ u, Usage.Steps options { locks := t' } u →
        (∀ h kind, u.granted me h kind = u.returned me h kind) →
        (g.unlock me u.locks).1 = .ok () ∧
        ∀ h v kind, ((g.unlock me u.locks).2 h).holdCount v kind +
          (if v = me ∧ kind = mode ∧ h ∈ s.locks then 1 else 0) = (u.locks h).holdCount v kind := by
  have counted : ∀ h, (t h).Counted mode := fun h => (sound h).counted mode
  refine ⟨exists_lock_eq_ok, ?_, ?_⟩
  · intro d hd hdenied hbelow
    have hresult := lock_eq_error options ascending hd hdenied hbelow
    rcases hlock : s.lock mode options me t with ⟨result, t'⟩
    rw [hlock] at hresult
    obtain rfl : result = _ := hresult
    rw [own d hd, Acquisition.locks_of_run_error counted hlock]
  · intro g t' hlock
    have hadded := holdCount_lock ascending own sound hlock
    refine ⟨fun h => (hadded h).2, Acquisition.unlock_run counted hlock, fun u hsteps hbalanced => ?_⟩
    obtain rfl : g = ⟨mode, s.locks.reverse⟩ := by
      simpa [acquisition] using Acquisition.run_ok (congrArg Prod.fst hlock)
    rcases hsteps.balance fun h => (hadded h).1 with ⟨sound', hbalance⟩
    -- a lock is among those of the set at most once, and the thread still has what was added
    have hcount : ∀ h, s.locks.reverse.count h = if h ∈ s.locks then 1 else 0 := by
      intro h
      rw [List.count_reverse, (nodup_locks ascending own).count]
    have henough : ∀ h, s.locks.reverse.count h ≤ (u.locks h).holdCount me mode := by
      intro h
      have hsince := hbalance h me mode
      have hbefore := (hadded h).2 me mode
      rw [hbalanced h mode] at hsince
      simp only [true_and, Usage.granted, Usage.returned, List.count_nil] at hsince hbefore
      rw [hcount]
      omega
    refine ⟨Guard.releaseAll_ok henough, fun h v kind => ?_⟩
    -- what is given back is just what locking had added
    have hh := Guard.holdCount_releaseAll sound' henough h v kind
    rw [hcount] at hh
    rw [← hh]
    by_cases hmine : v = me ∧ kind = mode
    · simp [Guard.unlock, hmine]
    · simp only [Guard.unlock, ← and_assoc, hmine, false_and, if_false]

/-- A thread reads the second of three documents, and another thread the third. -/
def readBySome : Table :=
  (Table.free.set ⟨2, 2⟩ (State.take {} "t1" .read)).set ⟨3, 3⟩ (State.take {} "t2" .read)

theorem sound_readBySome (h : Handle) : (readBySome h).Sound := by
  simp only [readBySome, Table.set, Table.free]
  split
  · exact State.sound_free.take rfl
  · split
    · exact State.sound_free.take rfl
    · exact State.sound_free

/-- The reader of the second document cannot write all three documents, but the first two, and may
read the second again before it gives them back. -/
theorem lock_all_or_nothing_upgrade :
    (ofList ([3, 2, 1].map sampleDocument)).lock .write { timeout := some 50 } "t1" readBySome =
      (.error (.timeout 3 .write), readBySome) ∧
    ∃ g t', (ofList ([2, 1].map sampleDocument)).lock .write { timeout := some 50 } "t1" readBySome =
        (.ok g, t') ∧
      (t' ⟨2, 2⟩).holdCount "t1" .write = 1 ∧ (t' ⟨2, 2⟩).holdCount "t1" .read = 1 ∧
      (t' ⟨3, 3⟩).holdCount "t2" .read = 1 ∧ g.unlock "t1" t' = (.ok (), readBySome) ∧
      ∃ u, Usage.Steps { timeout := some 50 } { locks := t' } u ∧
        u.granted "t1" ⟨2, 2⟩ .read = 1 ∧ (g.unlock "t1" u.locks).1 = .ok () := by
  have ascending (l : List Document) : Keyed.Ascending Document.id (ofList l).documents :=
    (ascending_extend ascending_empty l).1
  constructor
  · have hall := lock_all_or_nothing (ascending ([3, 2, 1].map sampleDocument)) (by decide)
      sound_readBySome .write { timeout := some 50 } "t1"
    exact hall.2.1 (sampleDocument 3) (by decide) (by decide) (by decide)
  · have hall := lock_all_or_nothing (ascending ([2, 1].map sampleDocument)) (by decide)
      sound_readBySome .write { timeout := some 50 } "t1"
    rcases hall.2.2 _ _ rfl with ⟨-, hunlock, hnested⟩
    have read : Usage.Steps { timeout := some 50 } { locks := ((ofList ([2, 1].map
        sampleDocument)).lock .write { timeout := some 50 } "t1" readBySome).2 } _ :=
      .step .refl (.acquired (t := "t1") (h := ⟨2, 2⟩) (m := .read) (.inl rfl) rfl)
    have returned := read.step (.released (t := "t1") (h := ⟨2, 2⟩) (m := .read) rfl rfl)
    refine ⟨_, _, rfl, rfl, rfl, rfl, hunlock, _, returned, rfl, (hnested _ returned ?_).1⟩
    intro h kind
    simp [Usage.granted, Usage.returned, Usage.answer, Usage.count_answer]

end DocBase.DocumentSet
