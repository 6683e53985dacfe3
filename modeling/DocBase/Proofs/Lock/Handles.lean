import DocBase.Lock.Registry
import Mathlib.Data.List.Induction
import Mathlib.Data.List.Perm.Basic
/-!
# Handles and the registry

Handles are obtained from the registry, copied and let go in any order, and between any two of these
calls the registry may be purged. The registry does not keep a lock alive: it finds a lock as long
as a handle to it is kept, and makes another one in its place when there is none any more. So it
matters that a lock with a handle is neither forgotten nor hidden by another one. Main statements:

* `Handouts.faithful_perform` — what one call preserves;
* `Handouts.one_lock_per_id` — which locks handles name, are found and are forgotten after any
  calls.
-/

namespace DocBase.Lock

/-- A registry; the handles that are kept, each beside the id it was obtained for, the newest first;
and every lock that was ever handed out. -/
structure Handouts where
  registry : Registry := {}
  kept : List (DocId × Handle) := []
  past : List Handle := []

/-- What may be asked for. A handle is named by its place among those that are kept. -/
inductive Demand where
  | obtain (document : DocId)
  | clone (place : Nat)
  | drop (place : Nat)
  | purge
deriving DecidableEq, Repr

namespace Handouts

/-- A handle that is not kept can be neither copied nor let go. -/
def perform (s : Handouts) : Demand → Handouts
  | .obtain document =>
    let (h, registry) := s.registry.obtain document
    { registry, kept := (document, h) :: s.kept, past := h :: s.past }
  | .clone place =>
    match s.kept[place]? with
    | some p => { s with registry := s.registry.clone p.2, kept := p :: s.kept }
    | none => s
  | .drop place =>
    match s.kept[place]? with
    | some p => { s with registry := s.registry.drop p.2, kept := s.kept.eraseIdx place }
    | none => s
  | .purge => { s with registry := s.registry.purge.2 }

/-- After these calls of a new registry. -/
def run (demands : List Demand) : Handouts := demands.foldl perform {}

/-- The registry counts the handles that are kept, finds the lock of each, has one lock for an id,
and tells its locks apart by serial numbers that are used up. -/
structure Faithful (s : Handouts) : Prop where
  counted : s.registry.live.Perm (s.kept.map Prod.snd)
  found : ∀ p ∈ s.kept, Keyed.find? Handle.document p.1 s.registry.entries = some p.2
  ascending : Keyed.Ascending Handle.document s.registry.entries
  distinct : ∀ h ∈ s.registry.entries, ∀ k ∈ s.registry.entries, h.serial = k.serial → h = k
  registered : ∀ h ∈ s.registry.entries, h.serial < s.registry.nextSerial
  past : ∀ h ∈ s.past, h.serial < s.registry.nextSerial

/-- Somebody keeps a handle to the lock. -/
def Alive (s : Handouts) (h : Handle) : Prop := ∃ p ∈ s.kept, p.2 = h

instance (s : Handouts) (h : Handle) : Decidable (s.Alive h) :=
  inferInstanceAs (Decidable (∃ p ∈ s.kept, p.2 = h))

theorem faithful_start : Faithful {} where
  counted := .refl _
  found p hp := by simp at hp
  ascending := List.Pairwise.nil
  distinct h hh := by simp at hh
  registered h hh := by simp at hh
  past h hh := by simp at hh

namespace Faithful

variable {s : Handouts} {document : DocId} {h : Handle} {p : DocId × Handle}

/-- A lock is alive exactly while somebody keeps a handle to it. -/
theorem mem_live_iff (faithful : s.Faithful) : h ∈ s.registry.live ↔ s.Alive h := by
  rw [faithful.counted.mem_iff, List.mem_map, Alive]

/-- No handle for another id names the same lock. -/
theorem same_lock (faithful : s.Faithful) {q : DocId × Handle} (hp : p ∈ s.kept) (hq : q ∈ s.kept) :
    (p.1 = q.1 → p.2 = q.2) ∧ (p.1 ≠ q.1 → p.2.serial ≠ q.2.serial) := by
  have hfound := faithful.found p hp
  have hfound' := faithful.found q hq
  constructor
  · intro heq
    rw [heq, hfound'] at hfound
    exact (Option.some.inj hfound).symm
  · intro hne heq
    have hentry := Keyed.mem_of_find? hfound
    have hentry' := Keyed.mem_of_find? hfound'
    have hsame := faithful.distinct _ hentry.1 _ hentry'.1 heq
    exact hne (hentry.2.symm.trans (hsame ▸ hentry'.2))

/-- While a handle is kept that was obtained for an id, the same lock is obtained for it. -/
theorem obtain_of_kept (faithful : s.Faithful) (hp : p ∈ s.kept) :
    s.registry.obtain p.1 = (p.2, s.registry.clone p.2) :=
  Registry.obtain_of_live (faithful.found p hp) (faithful.mem_live_iff.2 ⟨p, hp, rfl⟩)

/-- An id that no handle is kept for gets a lock of its own, in place of one that is dead. -/
theorem obtain_of_none_kept (faithful : s.Faithful) (hnone : ∀ p ∈ s.kept, p.1 ≠ document) :
    s.registry.obtain document = s.registry.fresh document := by
  unfold Registry.obtain
  split
  · next h hfound =>
    rw [if_neg]
    intro hlive
    -- whoever keeps a handle to this lock obtained it for this id
    rcases faithful.mem_live_iff.1 hlive with ⟨p, hp, rfl⟩
    have hentry := (Keyed.mem_of_find? (faithful.found p hp)).2
    exact hnone p hp (hentry.symm.trans (Keyed.mem_of_find? hfound).2)
  · rfl

/-- A purge forgets the locks that nobody keeps a handle to, and counts them. -/
theorem purge_eq (faithful : s.Faithful) :
    s.registry.purge = (s.registry.entries.countP (¬s.Alive ·),
      { s.registry with entries := s.registry.entries.filter (s.Alive ·) }) := by
  have halive : (fun h => decide (h ∈ s.registry.live)) = fun h => decide (s.Alive h) :=
    funext fun h => decide_eq_decide.2 faithful.mem_live_iff
  have hsplit := List.length_eq_countP_add_countP (fun h => decide (s.Alive h)) (l := s.registry.entries)
  rw [List.countP_eq_length_filter] at hsplit
  simp only [Registry.purge, halive, Prod.mk.injEq, and_true]
  simp only [decide_not, decide_eq_true_eq] at hsplit ⊢
  omega

/-! ### What one call preserves -/

/-- One more handle to a lock that has one. -/
theorem again (faithful : s.Faithful) (hp : p ∈ s.kept) :
    Faithful { s with registry := s.registry.clone p.2, kept := p :: s.kept } where
  counted := faithful.counted.cons p.2
  found := List.forall_mem_cons.2 ⟨faithful.found p hp, faithful.found⟩
  ascending := faithful.ascending
  distinct := faithful.distinct
  registered := faithful.registered
  past := faithful.past

/-- A lock that was handed out is handed out again. -/
theorem remember (faithful : s.Faithful) (hp : p ∈ s.kept) :
    Faithful { s with past := p.2 :: s.past } where
  counted := faithful.counted
  found := faithful.found
  ascending := faithful.ascending
  distinct := faithful.distinct
  registered := faithful.registered
  past := List.forall_mem_cons.2
    ⟨faithful.registered _ (Keyed.mem_of_find? (faithful.found p hp)).1, faithful.past⟩

/-- A lock of its own for an id that no handle is kept for. -/
theorem fresh (faithful : s.Faithful) (hnone : ∀ p ∈ s.kept, p.1 ≠ document) :
    Faithful { registry := (s.registry.fresh document).2
               kept := (document, (s.registry.fresh document).1) :: s.kept
               past := (s.registry.fresh document).1 :: s.past } where
  counted := faithful.counted.cons _
  found := by
    refine List.forall_mem_cons.2 ⟨?_, fun p hp => ?_⟩
    · exact Keyed.find?_insert_self Handle.document (s.registry.fresh document).1 s.registry.entries
    · have hne : (s.registry.fresh document).1.document ≠ p.1 := Ne.symm (hnone p hp)
      exact (Keyed.find?_insert_ne hne s.registry.entries).trans (faithful.found p hp)
  ascending := Keyed.ascending_insert faithful.ascending _
  distinct h hh k hk heq := by
    -- the new lock differs from the registered ones by its serial number, which is the next one
    rcases Keyed.mem_insert_of_mem hh with rfl | hh <;> rcases Keyed.mem_insert_of_mem hk with rfl | hk
    · rfl
    · exact absurd heq.symm (Nat.ne_of_lt (faithful.registered k hk))
    · exact absurd heq (Nat.ne_of_lt (faithful.registered h hh))
    · exact faithful.distinct h hh k hk heq
  registered h hh := by
    rcases Keyed.mem_insert_of_mem hh with rfl | hh
    · exact Nat.lt_succ_self _
    · exact Nat.lt_succ_of_lt (faithful.registered h hh)
  past := List.forall_mem_cons.2
    ⟨Nat.lt_succ_self _, fun h hh => Nat.lt_succ_of_lt (faithful.past h hh)⟩

/-- A handle to the lock of an id, old or new. -/
theorem obtain (faithful : s.Faithful) (document : DocId) :
    (s.perform (.obtain document)).Faithful := by
  by_cases hkept : ∃ p ∈ s.kept, p.1 = document
  · rcases hkept with ⟨p, hp, rfl⟩
    simp only [perform, faithful.obtain_of_kept hp]
    exact (faithful.again hp).remember List.mem_cons_self
  · have hnone : ∀ p ∈ s.kept, p.1 ≠ document := fun p hp heq => hkept ⟨p, hp, heq⟩
    simp only [perform, faithful.obtain_of_none_kept hnone]
    exact faithful.fresh hnone

/-- One handle less, whichever of those to its lock it is. -/
theorem drop (faithful : s.Faithful) {place : Nat} (hp : s.kept[place]? = some p) :
    Faithful { s with registry := s.registry.drop p.2, kept := s.kept.eraseIdx place } where
  counted := by
    rcases List.getElem?_eq_some_iff.1 hp with ⟨hlt, rfl⟩
    have hkept := (List.getElem_cons_eraseIdx_perm hlt).map Prod.snd
    have herase := (faithful.counted.trans hkept.symm).erase s.kept[place].2
    rwa [List.map_cons, List.erase_cons_head] at herase
  found q hq := faithful.found q (List.mem_of_mem_eraseIdx hq)
  ascending := faithful.ascending
  distinct := faithful.distinct
  registered := faithful.registered
  past := faithful.past

/-- Locks without a handle are forgotten. -/
theorem purge (faithful : s.Faithful) : Faithful { s with registry := s.registry.purge.2 } where
  counted := faithful.counted
  found p hp := by
    have hentry := Keyed.mem_of_find? (faithful.found p hp)
    have hlive := faithful.mem_live_iff.2 ⟨p, hp, rfl⟩
    have hstays : p.2 ∈ s.registry.purge.2.entries :=
      List.mem_filter.2 ⟨hentry.1, decide_eq_true hlive⟩
    rw [← hentry.2]
    exact Keyed.find?_of_mem (faithful.ascending.sublist List.filter_sublist) hstays
  ascending := faithful.ascending.sublist List.filter_sublist
  distinct h hh k hk := faithful.distinct h (List.mem_of_mem_filter hh) k (List.mem_of_mem_filter hk)
  registered h hh := faithful.registered h (List.mem_of_mem_filter hh)
  past := faithful.past

end Faithful

variable {s : Handouts}

/-- One call more. -/
theorem faithful_perform (faithful : s.Faithful) (demand : Demand) :
    (s.perform demand).Faithful := by
  -- letting go and handing on are about a place that is kept, or do nothing
  cases demand with
  | obtain document => exact faithful.obtain document
  | clone place =>
    simp only [perform]
    split
    · next p hp => exact faithful.again (List.mem_of_getElem? hp)
    · exact faithful
  | drop place =>
    simp only [perform]
    split
    · next p hp => exact faithful.drop hp
    · exact faithful
  | purge => exact faithful.purge

theorem faithful_run (demands : List Demand) : (run demands).Faithful := by
  induction demands using List.reverseRecOn with
  | nil => exact faithful_start
  | append_singleton demands demand ih =>
    have hrun : run (demands ++ [demand]) = (run demands).perform demand := by simp [run]
    rw [hrun]
    exact faithful_perform ih demand

/-- After any calls the registry counts as many handles to each lock as are kept. Those kept for one
id name one lock, and those kept for different ids name different locks. As long as a handle for an
id is kept, its lock is what is obtained for the id; afterwards that is a lock that was never handed
out before. A purge forgets exactly the locks to which no handle is kept, and says how many they
are. -/
theorem one_lock_per_id (demands : List Demand) :
    let s := run demands
    (∀ h, s.registry.live.count h = (s.kept.map Prod.snd).count h) ∧
    (∀ p ∈ s.kept, ∀ q ∈ s.kept,
      (p.1 = q.1 → p.2 = q.2) ∧ (p.1 ≠ q.1 → p.2.serial ≠ q.2.serial)) ∧
    (∀ p ∈ s.kept, s.registry.obtain p.1 = (p.2, s.registry.clone p.2)) ∧
    (∀ document, (∀ p ∈ s.kept, p.1 ≠ document) →
      ∀ h ∈ s.past, h.serial ≠ (s.registry.obtain document).1.serial) ∧
    s.registry.purge = (s.registry.entries.countP (¬s.Alive ·),
      { s.registry with entries := s.registry.entries.filter (s.Alive ·) }) := by
  intro s
  have faithful : s.Faithful := faithful_run demands
  refine ⟨?_, ?_, ?_, ?_, faithful.purge_eq⟩
  · intro h
    exact faithful.counted.count_eq h
  · intro p hp q hq
    exact faithful.same_lock hp hq
  · intro p hp
    exact faithful.obtain_of_kept hp
  · intro document hnone h hh
    rw [faithful.obtain_of_none_kept hnone]
    exact Nat.ne_of_lt (faithful.past h hh)

/-- Calls by which two handles to one lock are let go before its id is asked for again, while
another lock gets a second handle and a third one dies. -/
def renewing : List Demand :=
  [.obtain 1, .obtain 2, .obtain 1, .drop 0, .drop 1, .obtain 1, .clone 1, .obtain 3, .drop 0]

/-- The first id gets a second lock in place of its first one. The third id's lock is forgotten, and
would not come back. -/
theorem one_lock_per_id_renewing :
    let s := run renewing
    s.kept = [(2, ⟨1, 2⟩), (1, ⟨2, 1⟩), (2, ⟨1, 2⟩)] ∧
    s.registry.live.count ⟨1, 2⟩ = 2 ∧
    (⟨0, 1⟩ : Handle) ∈ s.past ∧ (s.registry.obtain 1).1 = ⟨2, 1⟩ ∧
    (⟨2, 1⟩ : Handle).serial ≠ (⟨1, 2⟩ : Handle).serial ∧
    (⟨3, 3⟩ : Handle) ∈ s.past ∧ (s.registry.obtain 3).1.serial ≠ 3 ∧
    s.registry.purge.1 = 1 ∧ s.registry.purge.2.entries = [⟨2, 1⟩, ⟨1, 2⟩] := by
  intro s
  have hkept : s.kept = [(2, ⟨1, 2⟩), (1, ⟨2, 1⟩), (2, ⟨1, 2⟩)] := by decide
  have hold : (⟨0, 1⟩ : Handle) ∈ s.past := by decide
  have hdead : (⟨3, 3⟩ : Handle) ∈ s.past := by decide
  have hfirst : (1, ⟨2, 1⟩) ∈ s.kept := by simp [hkept]
  have hsecond : (2, ⟨1, 2⟩) ∈ s.kept := by simp [hkept]
  have hthird : ∀ p ∈ s.kept, p.1 ≠ 3 := by simp [hkept]
  rcases one_lock_per_id renewing with ⟨hcount, hsame, hobtain, hnew, hpurge⟩
  refine ⟨hkept, (hcount _).trans (by decide), hold, ?_, (hsame _ hfirst _ hsecond).2 (by decide),
    hdead, (hnew 3 hthird _ hdead).symm, ?_, ?_⟩
  · rw [hobtain _ hfirst]
  · rw [hpurge]
    decide
  · rw [hpurge]
    decide

end Handouts
end DocBase.Lock
