import DocBase.Proofs.Store.Hierarchy
import DocBase.Proofs.Store.Traffic
import Mathlib.Data.List.Induction
/-!
# The life of a store

A store is created and then called, as often as one likes: collections are created, documents stored
and removed, and any of these calls may fail. Between calls other threads take and give back locks,
so a removal may find its document locked. A history keeps the documents that were stored beside the
store. Main statements:

* `removeDocument_keeping` — all that a removal does to documents, paths and collections;
* `History.sound_perform` — what one call preserves, whether or not it succeeds;
* `History.consistent_run` — collections, documents, paths and ids agree after any calls.
-/

namespace DocBase

namespace Store

variable {s s' : Store}

/-! ## What a call leaves alone -/

/-- Documents, paths, the next id and the collections are the same; locks, handles and users may
differ. -/
structure Keeping (s s' : Store) : Prop extends Alike s s' where
  collections_eq : s'.collections = s.collections

theorem Keeping.refl (s : Store) : s.Keeping s := ⟨⟨rfl, rfl, rfl⟩, rfl⟩

theorem Keeping.trans {s'' : Store} (h : s.Keeping s') (h' : s'.Keeping s'') : s.Keeping s'' where
  documents_eq := h'.documents_eq.trans h.documents_eq
  paths_eq := h'.paths_eq.trans h.paths_eq
  nextId_eq := h'.nextId_eq.trans h.nextId_eq
  collections_eq := h'.collections_eq.trans h.collections_eq

/-- Taking a document out does not look at locks or handles. -/
theorem Keeping.takeOut (h : s.Keeping s') (d : Document) :
    (s.takeOut d).2.Keeping (s'.takeOut d).2 := by
  have hdocument := h.document? d.id
  have hfiled := h.filed? d.uri
  -- both look up the same, so both take out the same
  unfold Store.takeOut
  rw [hdocument]
  cases s.document? d.id with
  | none => exact h
  | some stored =>
    dsimp only
    constructor
    · constructor
      · simp only [h.documents_eq]
      · simp only [hfiled, h.paths_eq]
      · exact h.nextId_eq
    · exact h.collections_eq

theorem keeping_concludeRemoval (s : Store) (r : Removal) (present : Bool)
    (released : Except Lock.Error Unit) : s.Keeping (s.concludeRemoval r present released).2 := by
  cases released with
  | error e => exact ⟨⟨rfl, rfl, rfl⟩, rfl⟩
  | ok => cases present <;> exact ⟨⟨rfl, rfl, rfl⟩, rfl⟩

/-- A removal that holds its lock takes out its document; beyond that it changes locks and handles
only. -/
theorem keeping_finishRemoval (s : Store) (r : Removal) (guard : Lock.Guard) (me : Thread) :
    (s.takeOut r.document).2.Keeping (s.finishRemoval r guard me).2 := by
  rw [finishRemoval_eq]
  have unlocked : ∀ s' locks', Keeping s' { s' with locks := locks' } :=
    fun _ _ => ⟨⟨rfl, rfl, rfl⟩, rfl⟩
  exact (unlocked _ _).trans (keeping_concludeRemoval _ _ _ _)

/-- A removal takes out the document it found at its path, or nothing at all; beyond that it changes
locks and handles only. -/
theorem removeDocument_keeping (s : Store) (path : String) (me : Thread) :
    s.Keeping (s.removeDocument path me).2 ∨
      ∃ d, s.documentAt? path = some d ∧ (s.takeOut d).2.Keeping (s.removeDocument path me).2 := by
  unfold removeDocument
  rcases hbegin : s.beginRemoval path with ⟨e | r, s₁⟩
  · -- nothing was found at the path
    rcases beginRemoval_eq_error hbegin with ⟨-, -, rfl⟩
    exact .inl (.refl _)
  · rcases beginRemoval_eq_ok hbegin with ⟨hat, -, -, rfl⟩
    dsimp only
    rcases hrun : r.acquisition.run s.options me s.locks with ⟨e | guard, locks⟩
    · -- the lock was not granted
      exact .inl ⟨⟨rfl, rfl, rfl⟩, rfl⟩
    · -- the lock was granted, so the document is taken out; giving locks back moves nothing
      refine .inr ⟨r.document, hat, ?_⟩
      have begun : s.Keeping
          { s with registry := s.registry.clone r.document.lock, locks } := ⟨⟨rfl, rfl, rfl⟩, rfl⟩
      exact (begun.takeOut r.document).trans (keeping_finishRemoval _ _ _ _)

/-- Storing a document changes no collection, and the document is in one of them. -/
theorem collections_storeDocument {path : String} {kind : ResourceKind} {permission : Permission}
    {d : Document} (h : s.storeDocument path kind permission = (.ok d, s')) :
    s'.collections = s.collections ∧ ∃ c ∈ s.collections, d.collection = some c := by
  rcases placed_of_storeDocument h with ⟨⟨p, c, -, hc, hdc, -, -⟩, -, -, hcollections⟩
  exact ⟨hcollections, c, (mem_of_collection? hc).1, hdc⟩

/-! ## Documents and their collections -/

/-- Every document is in a collection of the store. -/
def Housed (s : Store) : Prop :=
  ∀ d ∈ s.documents, ∃ c ∈ s.collections, d.collection = some c

/-- Documents that remain stay where they are. -/
theorem Housed.of_subset (h : s.Housed) (hdocuments : s'.documents ⊆ s.documents)
    (hcollections : s.collections ⊆ s'.collections) : s'.Housed := by
  intro d hd
  rcases h d (hdocuments hd) with ⟨c, hc, hdc⟩
  exact ⟨c, hcollections hc, hdc⟩

theorem documents_takeOut_subset (s : Store) (d : Document) :
    (s.takeOut d).2.documents ⊆ s.documents := by
  unfold takeOut
  split
  · exact List.Subset.refl _
  · exact (Keyed.erase_sublist _ _ _).subset

theorem collections_takeOut (s : Store) (d : Document) :
    (s.takeOut d).2.collections = s.collections := by
  unfold takeOut
  split <;> rfl

theorem collections_subset_createCollection
    (h : Keyed.Ascending Collection.key s.collections) (uri : CollectionUri)
    (permission : Permission) :
    s.collections ⊆ (s.createCollection uri permission).2.collections := by
  intro c hc
  have hfound := collection?_createCollection_of_some (collection?_of_mem h hc) uri permission
  exact (mem_of_collection? hfound).1

/-- Collections reach up to the root, every document is in one of them, and the documents stand in
ascending order of ids. This is so however many documents were stored. -/
structure Orderly (s : Store) : Prop where
  rooted : s.Rooted
  housed : s.Housed
  ascending : Keyed.Ascending Document.id s.documents

theorem orderly_create (options : Lock.Options) : (create options).Orderly where
  rooted := rooted_create options
  housed d hd := by simp [create] at hd
  ascending := List.Pairwise.nil

namespace Orderly

theorem eq_of_id (h : s.Orderly) {d e : Document} (hd : d ∈ s.documents) (he : e ∈ s.documents)
    (hid : d.id = e.id) : d = e := Store.eq_of_id h.ascending hd he hid

theorem keeping (h : s.Orderly) (keeping : s.Keeping s') : s'.Orderly where
  rooted := h.rooted.of_collections_eq keeping.collections_eq
  housed := by
    apply h.housed.of_subset
    · rw [keeping.documents_eq]
      exact List.Subset.refl _
    · rw [keeping.collections_eq]
      exact List.Subset.refl _
  ascending := by
    rw [keeping.documents_eq]
    exact h.ascending

theorem createCollection (h : s.Orderly) (uri : CollectionUri) (permission : Permission) :
    (s.createCollection uri permission).2.Orderly := by
  have hdocuments := (quiet_createCollection s uri permission).documents_eq
  constructor
  · exact h.rooted.createCollection uri permission
  · apply h.housed.of_subset
    · rw [hdocuments]
      exact List.Subset.refl _
    · exact collections_subset_createCollection h.rooted.ascending uri permission
  · rw [hdocuments]
    exact h.ascending

theorem storeDocument (h : s.Orderly) {path : String} {kind : ResourceKind}
    {permission : Permission} {d : Document}
    (hstore : s.storeDocument path kind permission = (.ok d, s')) : s'.Orderly := by
  have hdocuments := (storeDocument_eq_ok hstore).documents_eq
  rcases collections_storeDocument hstore with ⟨hcollections, c, hc, hdc⟩
  constructor
  · exact h.rooted.of_collections_eq hcollections
  · intro e he
    rw [hdocuments] at he
    rw [hcollections]
    rcases Keyed.mem_insert_of_mem he with rfl | he
    · exact ⟨c, hc, hdc⟩
    · exact h.housed e he
  · rw [hdocuments]
    exact Keyed.ascending_insert h.ascending d

theorem takeOut (h : s.Orderly) (d : Document) : (s.takeOut d).2.Orderly := by
  constructor
  · exact h.rooted.of_collections_eq (collections_takeOut s d)
  · apply h.housed.of_subset (documents_takeOut_subset s d)
    rw [collections_takeOut]
    exact List.Subset.refl _
  · unfold Store.takeOut
    split
    · exact h.ascending
    · exact h.ascending.sublist (Keyed.erase_sublist _ _ _)

end Orderly

end Store

/-! ## Calls -/

/-- What a store is asked to do, and what other threads do to the locks between two such calls. -/
inductive Call where
  | createCollection (uri : CollectionUri) (permission : Permission)
  | storeDocument (path : String) (kind : ResourceKind) (permission : Permission)
  | removeDocument (path : String) (me : Thread)
  | others (locks : Lock.Table) (registry : Lock.Registry)

/-- The document that a call stored, if it stored one, and the store afterwards. -/
def Store.perform (s : Store) : Call → Option Document × Store
  | .createCollection uri permission => (none, (s.createCollection uri permission).2)
  | .storeDocument path kind permission =>
    let (answer, s) := s.storeDocument path kind permission
    (answer.toOption, s)
  | .removeDocument path me => (none, (s.removeDocument path me).2)
  | .others locks registry => (none, { s with locks, registry })

/-- A store and every document that was ever stored in it, the last one first. -/
structure History where
  store : Store
  stored : List Document := []

namespace History

def perform (h : History) (c : Call) : History :=
  let (new, store) := h.store.perform c
  ⟨store, new.toList ++ h.stored⟩

/-- After these calls of a new store. -/
def run (options : Lock.Options) (calls : List Call) : History :=
  calls.foldl perform ⟨.create options, []⟩

/-- Collections, documents, paths and ids agree, and ids were handed out in ascending order. -/
structure Sound (h : History) : Prop where
  rooted : h.store.Rooted
  consistent : h.store.Consistent
  numbered : h.store.Numbered h.stored
  housed : h.store.Housed
  descending : h.stored.Pairwise fun later earlier => earlier.id < later.id

theorem sound_create (options : Lock.Options) : Sound ⟨.create options, []⟩ where
  rooted := Store.rooted_create options
  consistent := Store.consistent_create options
  numbered := Store.numbered_create options
  housed d hd := by simp [Store.create] at hd
  descending := List.Pairwise.nil

namespace Sound

variable {h : History}

theorem orderly (sound : h.Sound) : h.store.Orderly :=
  ⟨sound.rooted, sound.housed, sound.consistent.ascending⟩

/-- A call that keeps documents, paths and collections keeps everything. -/
theorem keeping {s : Store} (sound : h.Sound) (keeping : h.store.Keeping s) :
    Sound ⟨s, h.stored⟩ where
  rooted := (sound.orderly.keeping keeping).rooted
  consistent := sound.consistent.of_alike keeping.toAlike
  numbered := sound.numbered.of_alike keeping.toAlike
  housed := (sound.orderly.keeping keeping).housed
  descending := sound.descending

theorem createCollection (sound : h.Sound) (uri : CollectionUri) (permission : Permission) :
    Sound ⟨(h.store.createCollection uri permission).2, h.stored⟩ where
  rooted := sound.rooted.createCollection uri permission
  consistent := sound.consistent.of_alike (Store.quiet_createCollection ..).toAlike
  numbered := sound.numbered.of_alike (Store.quiet_createCollection ..).toAlike
  housed := (sound.orderly.createCollection uri permission).housed
  descending := sound.descending

theorem storeDocument (sound : h.Sound) {path : String} {kind : ResourceKind}
    {permission : Permission} {d : Document} {s : Store}
    (hstore : h.store.storeDocument path kind permission = (.ok d, s))
    (few : h.stored.length + 1 < UInt32.size - 1) : Sound ⟨s, d :: h.stored⟩ := by
  have stores := Store.storeDocument_eq_ok hstore
  have orderly := sound.orderly.storeDocument hstore
  have hfresh : h.store.document? d.id = none := by
    rw [stores.id_eq]
    exact sound.numbered.document?_nextId
  constructor
  · exact orderly.rooted
  · exact sound.consistent.storeDocument stores hfresh
  · exact sound.numbered.storeDocument stores few
  · exact orderly.housed
  · -- its number is the next one, and all earlier ones are below that
    refine List.pairwise_cons.2 ⟨fun e he => ?_, sound.descending⟩
    have hbelow := sound.numbered.below e he
    have hnext := sound.numbered.next
    rw [UInt32.lt_iff_toNat_lt, stores.id_eq]
    omega

theorem takeOut (sound : h.Sound) {path : String} {d : Document}
    (hat : h.store.documentAt? path = some d) : Sound ⟨(h.store.takeOut d).2, h.stored⟩ := by
  have hd := Store.document?_of_documentAt? hat
  have orderly := sound.orderly.takeOut d
  constructor
  · exact orderly.rooted
  · exact sound.consistent.takeOut hd
  · exact sound.numbered.takeOut hd
  · exact orderly.housed
  · exact sound.descending

end Sound

/-- One call more, as long as few documents were stored. -/
theorem sound_perform {h : History} (sound : h.Sound) (c : Call)
    (few : (h.perform c).stored.length < UInt32.size - 1) : (h.perform c).Sound := by
  cases c with
  | createCollection uri permission => exact sound.createCollection uri permission
  | storeDocument path kind permission =>
    rcases hstore : h.store.storeDocument path kind permission with ⟨e | d, s⟩
    · -- a document that is refused changes nothing
      have hsame := Store.storeDocument_error (congrArg Prod.fst hstore)
      rw [hstore] at hsame
      have hperform : h.perform (.storeDocument path kind permission) = h := by
        simp only [perform, Store.perform, hstore, Except.toOption, Option.toList, List.nil_append]
        rw [show s = h.store from hsame]
      rw [hperform]
      exact sound
    · have hperform : h.perform (.storeDocument path kind permission) = ⟨s, d :: h.stored⟩ := by
        simp only [perform, Store.perform, hstore, Except.toOption, Option.toList, List.cons_append,
          List.nil_append]
      rw [hperform] at few ⊢
      exact sound.storeDocument hstore (by simpa using few)
  | removeDocument path me =>
    show Sound ⟨(h.store.removeDocument path me).2, h.stored⟩
    -- a removal that fails changes no more than locks and handles
    rcases h.store.removeDocument_keeping path me with hkeeping | ⟨d, hat, hkeeping⟩
    · exact sound.keeping hkeeping
    · exact (sound.takeOut hat).keeping hkeeping
  | others locks registry => exact sound.keeping ⟨⟨rfl, rfl, rfl⟩, rfl⟩

theorem length_stored_le_perform (h : History) (c : Call) :
    h.stored.length ≤ (h.perform c).stored.length := by
  simp [perform]

theorem run_append_singleton (options : Lock.Options) (calls : List Call) (c : Call) :
    run options (calls ++ [c]) = (run options calls).perform c := by
  simp [run]

/-- A store is sound after any calls, as long as few documents were stored. -/
theorem sound_run (options : Lock.Options) (calls : List Call)
    (few : (run options calls).stored.length < UInt32.size - 1) : (run options calls).Sound := by
  induction calls using List.reverseRecOn with
  | nil => exact sound_create options
  | append_singleton calls c ih =>
    rw [run_append_singleton] at few ⊢
    have hle := length_stored_le_perform (run options calls) c
    exact sound_perform (ih (by omega)) c few

/-- After any calls by which fewer than 2³² − 1 documents were stored: the root collection is
there, and so is the parent of every other one; an id is filed under a path exactly when the
document with this id has that path for its uri; every document is in a collection of the store; no
two documents have the same id, and every id is below the next one; each document that was ever
stored got a greater id than all before it; and to create one more collection changes none of those
that exist. -/
theorem consistent_run (options : Lock.Options) (calls : List Call)
    (few : (run options calls).stored.length < UInt32.size - 1) :
    let s := (run options calls).store
    ((∃ c ∈ s.collections, c.uri = CollectionUri.root) ∧
      ∀ c ∈ s.collections, c.uri ≠ CollectionUri.root →
        ∃ p, c.uri.parent? = some p ∧ ∃ d ∈ s.collections, d.uri = p) ∧
    (∀ path id, s.filed? path = some id ↔ ∃ d, s.document? id = some d ∧ d.uri = path) ∧
    (∀ d ∈ s.documents, ∃ c ∈ s.collections, d.collection = some c) ∧
    ((s.documents.map Document.id).Nodup ∧ ∀ d ∈ s.documents, d.id < s.nextId) ∧
    (run options calls).stored.Pairwise (fun later earlier => earlier.id < later.id) ∧
    ∀ uri permission v c, s.collection? v = some c →
      (s.createCollection uri permission).2.collection? v = some c := by
  have sound := sound_run options calls few
  refine ⟨⟨sound.rooted.root, ?_⟩, sound.consistent.filed_iff, sound.housed, ⟨?_, ?_⟩,
    sound.descending, ?_⟩
  · -- a collection that has no parent is the root
    intro c hc hne
    rcases hp : c.uri.parent? with _ | p
    · exact absurd (CollectionUri.parent?_eq_none.1 hp) hne
    · exact ⟨p, rfl, sound.rooted.parent c hc p hp⟩
  · rw [List.nodup_iff_pairwise_ne, List.pairwise_map]
    refine sound.consistent.ascending.imp fun hlt heq => ?_
    rw [heq] at hlt
    exact absurd hlt (UInt32.lt_irrefl _)
  · -- ids were handed out in order, so each is below the next one
    intro d hd
    have hknown := sound.numbered.known d.id d (sound.consistent.document?_of_mem hd)
    have hbelow := sound.numbered.below d hknown
    have hnext := sound.numbered.next
    rw [UInt32.lt_iff_toNat_lt]
    omega
  · intro uri permission v c hc
    exact Store.collection?_createCollection_of_some hc uri permission

/-- Calls by which a document is stored below two collections that are made at once, stored again in
vain, not removed while somebody reads it, then removed, and another one stored in its place. -/
def replacing : List Call :=
  let registry : Lock.Registry := { entries := [⟨0, 1⟩], live := [⟨0, 1⟩], nextSerial := 1 }
  [.createCollection ⟨["a", "b"], by decide⟩ Store.rootPermission,
    .storeDocument "/db/a/b/x.xml" .xml Store.rootPermission,
    .storeDocument "/db/a/b/x.xml" .xml Store.rootPermission,
    .others (Lock.Table.free.set ⟨0, 1⟩ { readers := [("reader", 1)] }) registry,
    .removeDocument "/db/a/b/x.xml" "writer",
    .others Lock.Table.free registry,
    .removeDocument "/db/a/b/x.xml" "writer",
    .storeDocument "/db/a/b/x.xml" .binary Store.rootPermission]

/-- The reader keeps the first document where it is; in the end its path names the second one. -/
theorem consistent_run_replacing :
    (run {} replacing).stored.map Document.id = [2, 1] ∧
    (run {} (replacing.take 5)).store.filed? "/db/a/b/x.xml" = some 1 ∧
    (run {} replacing).store.filed? "/db/a/b/x.xml" = some 2 ∧
    (∃ d, (run {} replacing).store.document? 2 = some d ∧ d.uri = "/db/a/b/x.xml") ∧
    (∀ c ∈ (run {} replacing).store.collections, c.uri ≠ CollectionUri.root →
      ∃ p, c.uri.parent? = some p ∧ ∃ d ∈ (run {} replacing).store.collections, d.uri = p) ∧
    (run {} replacing).stored.Pairwise fun later earlier => earlier.id < later.id := by
  have few : (run {} replacing).stored.length < UInt32.size - 1 := by decide +kernel
  have hfiled : (run {} replacing).store.filed? "/db/a/b/x.xml" = some 2 := by decide +kernel
  rcases consistent_run {} replacing few with ⟨⟨-, hparent⟩, hiff, -, -, hdescending, -⟩
  refine ⟨by decide +kernel, by decide +kernel, hfiled, ?_, hparent, hdescending⟩
  exact (hiff "/db/a/b/x.xml" 2).1 hfiled

end History
end DocBase
