import DocBase.Proofs.Collection.Spelling
import DocBase.Proofs.Store.Consistency
/-!
# The hierarchy of collections

A store is rooted when it has the root collection and, with every other collection, the collection
that holds it. Creating a collection stops looking for missing ancestors at the first one that
exists; that one has all of its own ancestors already, so nothing is left out. Main statements:

* `Rooted.createCollection` — creating a collection keeps a store rooted;
* `collection?_createCollection` — what is found afterwards: what was there is left as it is.
-/

namespace DocBase.Store

variable {s s' : Store} {u v : CollectionUri} {permission : Permission}

/-! ## Finding collections -/

/-- Members stand in the order of their uris; the root is there, and with every other collection the
one that holds it. -/
structure Rooted (s : Store) : Prop where
  ascending : Keyed.Ascending Collection.key s.collections
  root : ∃ c ∈ s.collections, c.uri = CollectionUri.root
  parent : ∀ c ∈ s.collections, ∀ p, c.uri.parent? = some p → ∃ d ∈ s.collections, d.uri = p

/-- What is found is a collection with that uri. -/
theorem mem_of_collection? {c : Collection} (h : s.collection? u = some c) :
    c ∈ s.collections ∧ c.uri = u := by
  rcases Keyed.mem_of_find? h with ⟨hmem, hkey⟩
  exact ⟨hmem, CollectionUri.text_injective hkey⟩

theorem isSome_collection? : (s.collection? u).isSome = true ↔ ∃ c ∈ s.collections, c.uri = u := by
  constructor
  · intro h
    rcases Option.isSome_iff_exists.1 h with ⟨c, hc⟩
    exact ⟨c, mem_of_collection? hc⟩
  · rintro ⟨c, hc, rfl⟩
    exact Keyed.isSome_find?.2 ⟨c, hc, by simp [Collection.key]⟩

/-- A member is found by its uri. -/
theorem collection?_of_mem (h : Keyed.Ascending Collection.key s.collections) {c : Collection}
    (hc : c ∈ s.collections) : s.collection? c.uri = some c := Keyed.find?_of_mem h hc

theorem rooted_create (options : Lock.Options) : (create options).Rooted where
  ascending := List.pairwise_singleton _ _
  root := ⟨_, List.mem_singleton_self _, rfl⟩
  parent c hc p hp := by
    obtain rfl := List.mem_singleton.1 hc
    simp at hp

/-- A store with the same collections is rooted too. -/
theorem Rooted.of_collections_eq (h : s.Rooted) (heq : s'.collections = s.collections) :
    s'.Rooted := by
  constructor
  · rw [heq]
    exact h.ascending
  · rw [heq]
    exact h.root
  · rw [heq]
    exact h.parent

/-- All collections above one that exists are there. -/
theorem Rooted.isSome_of_mem_lineage (h : s.Rooted) (hu : (s.collection? u).isSome = true)
    (hv : v ∈ u.lineage) : (s.collection? v).isSome = true := by
  induction u using CollectionUri.ind with
  | step u ih =>
    rcases CollectionUri.mem_lineage.1 hv with rfl | ⟨p, hp, habove⟩
    · exact hu
    · rcases isSome_collection?.1 hu with ⟨c, hc, rfl⟩
      exact ih p hp (isSome_collection?.2 (h.parent c hc p hp)) habove

/-! ## Creating a collection -/

theorem ascending_foldl_insert {l : List Collection} (made : List Collection)
    (h : Keyed.Ascending Collection.key l) :
    Keyed.Ascending Collection.key
      (made.foldl (fun cs c => Keyed.insert Collection.key c cs) l) := by
  induction made generalizing l with
  | nil => exact h
  | cons c made ih => exact ih (Keyed.ascending_insert h c)

/-- Collections with the same permission are put in for some uris: those are found, and the others
as before. -/
theorem find?_foldl_insert (us : List CollectionUri) (l : List Collection) (v : CollectionUri) :
    Keyed.find? Collection.key v.text ((us.map fun u => Collection.mk u permission).foldl
        (fun cs c => Keyed.insert Collection.key c cs) l) =
      if v ∈ us then some ⟨v, permission⟩ else Keyed.find? Collection.key v.text l := by
  induction us generalizing l with
  | nil => simp
  | cons u us ih =>
    rw [List.map_cons, List.foldl_cons, ih, Keyed.find?_insert]
    by_cases huv : u = v
    · subst huv
      simp [Collection.key]
    · have hkey : (Collection.mk u permission).key ≠ v.text :=
        fun h => huv (CollectionUri.text_injective h)
      simp [hkey, Ne.symm huv]

/-- Where a uri has a collection, nothing is missing; where it has none, it is missing itself and so
is whatever its parent misses. -/
theorem missing_eq (s : Store) (u : CollectionUri) :
    s.missing u = if (s.collection? u).isSome then [] else
      u :: (u.parent?.map s.missing).getD [] := by
  rw [missing, CollectionUri.lineage_eq]
  cases hu : s.collection? u with
  | some c => simp [hu]
  | none =>
    cases u.parent? with
    | none => simp [hu]
    | some p => simp [hu, missing]

/-- What is missing has no collection yet. -/
theorem collection?_of_mem_missing (h : v ∈ s.missing u) : s.collection? v = none := by
  have hall := List.all_takeWhile (l := u.lineage) (p := fun u => (s.collection? u).isNone)
  rw [List.all_eq_true] at hall
  simpa using hall v h

/-- To stop at the first collection that exists is to leave out nothing: all those above it
exist. -/
theorem Rooted.mem_missing_iff (h : s.Rooted) :
    v ∈ s.missing u ↔ v ∈ u.lineage ∧ s.collection? v = none := by
  -- up the ancestors; where one is there, all above it are
  induction u using CollectionUri.ind with
  | step u ih =>
    rw [missing_eq]
    by_cases hu : (s.collection? u).isSome = true
    · rw [if_pos hu]
      constructor
      · intro hv
        simp at hv
      · rintro ⟨hv, hnone⟩
        have hthere := h.isSome_of_mem_lineage hu hv
        simp [hnone] at hthere
    · rw [if_neg hu, List.mem_cons, CollectionUri.mem_lineage]
      have hself : s.collection? u = none := by simpa using hu
      cases hparent : u.parent? with
      | none =>
        simp only [Option.map_none, Option.getD_none, List.not_mem_nil, or_false, reduceCtorEq,
          false_and, exists_false]
        constructor
        · rintro rfl
          exact ⟨rfl, hself⟩
        · exact And.left
      | some p =>
        simp only [Option.map_some, Option.getD_some, Option.some.injEq, exists_eq_left',
          ih p hparent]
        constructor
        · rintro (rfl | ⟨hv, hnone⟩)
          · exact ⟨.inl rfl, hself⟩
          · exact ⟨.inr hv, hnone⟩
        · rintro ⟨rfl | hv, hnone⟩
          · exact .inl rfl
          · exact .inr ⟨hv, hnone⟩

/-- The parent of what is missing is missing too, unless it is there. -/
theorem parent_of_mem_missing (h : v ∈ s.missing u) {p : CollectionUri} (hp : v.parent? = some p) :
    p ∈ s.missing u ∨ (s.collection? p).isSome = true := by
  induction u using CollectionUri.ind with
  | step u ih =>
    rw [missing_eq] at h ⊢
    by_cases hu : (s.collection? u).isSome = true
    · simp [hu] at h
    · simp only [hu, Bool.false_eq_true, if_false, List.mem_cons] at h ⊢
      rcases h with rfl | h
      · -- the first one that is missing: its parent comes next in line
        rw [hp, Option.map_some, Option.getD_some]
        by_cases hthere : (s.collection? p).isSome = true
        · exact .inr hthere
        · refine .inl (.inr ?_)
          rw [missing_eq]
          simp [hthere]
      · cases hparent : u.parent? with
        | none => simp [hparent] at h
        | some q =>
          rw [hparent, Option.map_some, Option.getD_some] at h
          rw [Option.map_some, Option.getD_some]
          rcases ih q hparent h with h | h
          · exact .inl (.inr h)
          · exact .inr h

/-- What is found after a collection was created: what was there before, just as it was, and
otherwise a new collection for each uri that was missing. -/
theorem collection?_createCollection (s : Store) (u : CollectionUri) (permission : Permission)
    (v : CollectionUri) :
    (s.createCollection u permission).2.collection? v =
      if v ∈ s.missing u then some ⟨v, permission⟩ else s.collection? v := by
  unfold createCollection
  split
  · next c hc =>
    have hnone : s.missing u = [] := by
      rw [missing_eq, hc]
      rfl
    simp [hnone]
  · exact find?_foldl_insert (s.missing u) s.collections v

/-- A collection that exists is never changed. -/
theorem collection?_createCollection_of_some {c : Collection} (h : s.collection? v = some c)
    (u : CollectionUri) (permission : Permission) :
    (s.createCollection u permission).2.collection? v = some c := by
  rw [collection?_createCollection, if_neg, h]
  intro hmissing
  rw [collection?_of_mem_missing hmissing] at h
  simp at h

theorem ascending_createCollection (h : Keyed.Ascending Collection.key s.collections)
    (u : CollectionUri) (permission : Permission) :
    Keyed.Ascending Collection.key (s.createCollection u permission).2.collections := by
  unfold createCollection
  split
  · exact h
  · exact ascending_foldl_insert _ h

/-- Creating a collection keeps a store rooted. -/
theorem Rooted.createCollection (h : s.Rooted) (u : CollectionUri) (permission : Permission) :
    (s.createCollection u permission).2.Rooted := by
  have hascending := ascending_createCollection h.ascending u permission
  -- whatever was there still is
  have hkept : ∀ v, (∃ c ∈ s.collections, c.uri = v) →
      ∃ c ∈ (s.createCollection u permission).2.collections, c.uri = v := by
    rintro v ⟨c, hc, rfl⟩
    have hthere := collection?_of_mem h.ascending hc
    exact ⟨c, mem_of_collection? (collection?_createCollection_of_some hthere u permission)⟩
  constructor
  · exact hascending
  · exact hkept _ h.root
  · intro c hc p hp
    have hfound := collection?_of_mem hascending hc
    rw [collection?_createCollection] at hfound
    split at hfound
    · next hmissing =>
      rcases parent_of_mem_missing hmissing hp with hp | hp
      · rw [← isSome_collection?, collection?_createCollection, if_pos hp]
        rfl
      · exact hkept p (isSome_collection?.1 hp)
    · exact hkept p (h.parent c (mem_of_collection? hfound).1 p hp)

end DocBase.Store
