import DocBase.Proofs.Store.Undoing
/-!
# The ids of documents

Documents get their ids from a 32-bit counter that comes round, and nobody looks whether the next id
is in use. A document that has been there since as many others were stored as there are ids loses
its place to the one that is stored next: it is gone although nobody removed it, and its path leads
to the new document from then on. A path that leads astray once is never put right. Main statements:

* `Store.perform_cases` — all that a call does to documents, paths and the next id;
* `History.counted_run` — which id each document got, after any calls;
* `History.consistent_iff_fresh` — paths and documents agree exactly if no id was taken from a
  document;
* `History.ids_come_round` — when that happens, and what comes of it;
* `History.not_restored_by_removal` — to store a document and to remove it again may take out
  another.
-/

namespace DocBase

namespace Store

variable {s s' : Store} {d old : Document} {path : String}

/-- The document whose id is filed under a path. -/
def filedDocument? (s : Store) (path : String) : Option Document := (s.filed? path).bind s.document?

/-- A call leaves documents, paths and the next id alone, stores a document, or takes out one that
is there. -/
theorem perform_cases (s : Store) (c : Call) :
    (s.perform c).1 = none ∧ s.Alike (s.perform c).2 ∨
    (∃ d, (s.perform c).1 = some d ∧ s.Stores d (s.perform c).2) ∨
    (s.perform c).1 = none ∧
      ∃ d, s.document? d.id = some d ∧ (s.takeOut d).2.Alike (s.perform c).2 := by
  cases c with
  | createCollection uri permission =>
    exact .inl ⟨rfl, (quiet_createCollection s uri permission).toAlike⟩
  | storeDocument path kind permission =>
    simp only [perform]
    rcases hstore : s.storeDocument path kind permission with ⟨e | d, s₁⟩
    · -- what is refused is no document and changes nothing
      have hsame := storeDocument_error (congrArg Prod.fst hstore)
      rw [hstore] at hsame
      obtain rfl : s₁ = s := hsame
      exact .inl ⟨rfl, ⟨rfl, rfl, rfl⟩⟩
    · exact .inr (.inl ⟨d, rfl, storeDocument_eq_ok hstore⟩)
  | removeDocument path me =>
    rcases s.removeDocument_keeping path me with hkeeping | ⟨d, hat, hkeeping⟩
    · exact .inl ⟨rfl, hkeeping.toAlike⟩
    · exact .inr (.inr ⟨rfl, d, document?_of_documentAt? hat, hkeeping.toAlike⟩)
  | others locks registry => exact .inl ⟨rfl, ⟨rfl, rfl, rfl⟩⟩

theorem stores_of_perform {c : Call} (h : (s.perform c).1 = some d) : s.Stores d (s.perform c).2 := by
  rcases s.perform_cases c with ⟨hnone, -⟩ | ⟨e, hsome, stores⟩ | ⟨hnone, -⟩
  · rw [h] at hnone
    contradiction
  · obtain rfl := Option.some.inj (h.symm.trans hsome)
    exact stores
  · rw [h] at hnone
    contradiction

/-! ## What holds however often the counter comes round -/

/-- Documents stand in ascending order of ids, and each is filed under its uri. -/
structure Filed (s : Store) : Prop where
  ascending : Keyed.Ascending Document.id s.documents
  filed : ∀ d ∈ s.documents, s.filed? d.uri = some d.id

theorem filed_create (options : Lock.Options) : (create options).Filed where
  ascending := List.Pairwise.nil
  filed d hd := by simp [create] at hd

namespace Filed

theorem document?_of_mem (h : s.Filed) (hd : d ∈ s.documents) : s.document? d.id = some d :=
  Keyed.find?_of_mem h.ascending hd

theorem of_alike (h : s.Filed) (alike : s.Alike s') : s'.Filed where
  ascending := by
    rw [alike.documents_eq]
    exact h.ascending
  filed d hd := by
    rw [alike.documents_eq] at hd
    rw [alike.filed?]
    exact h.filed d hd

/-- A path that is free belongs to no document. -/
theorem uri_ne_of_free (h : s.Filed) (hfree : s.filed? path = none) (hold : old ∈ s.documents) :
    path ≠ old.uri := by
  rintro rfl
  rw [h.filed old hold] at hfree
  contradiction

/-- Whether or not the id is in use. -/
theorem stores (h : s.Filed) (stores : s.Stores d s') : s'.Filed where
  ascending := by
    rw [stores.documents_eq]
    exact Keyed.ascending_insert h.ascending d
  filed e he := by
    rw [stores.documents_eq] at he
    rw [filed?_of_stores stores]
    rcases Keyed.mem_insert_of_mem he with rfl | he
    · rw [if_pos rfl]
    · rw [if_neg (h.uri_ne_of_free stores.free he)]
      exact h.filed e he

theorem takeOut (h : s.Filed) (hd : s.document? d.id = some d) : (s.takeOut d).2.Filed where
  ascending := by
    rw [documents_takeOut hd]
    exact h.ascending.sublist (Keyed.erase_sublist _ _ _)
  filed e he := by
    have hmem : d ∈ s.documents := (Keyed.mem_of_find? hd).1
    have hfiled := h.filed d hmem
    rw [documents_takeOut hd, Keyed.erase, List.mem_filter] at he
    have hne : e.id ≠ d.id := of_decide_eq_true he.2
    rw [((takeOut_of_document? hd).2.2 hfiled).2, if_neg]
    · exact h.filed e he.1
    · -- one path has one id
      intro huri
      rw [← huri, h.filed e he.1] at hfiled
      exact hne (Option.some.inj hfiled)

/-- A document that was there stays unless the new one has its id. -/
theorem mem_stores_iff (h : s.Filed) (stores : s.Stores d s') (hold : old ∈ s.documents) :
    old ∈ s'.documents ↔ old.id ≠ d.id := by
  have hfound := document?_of_stores stores old.id
  constructor
  · intro hmem hid
    rw [(h.stores stores).document?_of_mem hmem, if_pos hid.symm] at hfound
    obtain rfl := Option.some.inj hfound
    exact h.uri_ne_of_free stores.free hold rfl
  · intro hne
    rw [if_neg (Ne.symm hne), h.document?_of_mem hold] at hfound
    exact (Keyed.mem_of_find? hfound).1

/-- The path of a document whose id is taken leads to the new one. -/
theorem filedDocument?_stores (h : s.Filed) (stores : s.Stores d s') (hold : old ∈ s.documents)
    (hid : old.id = d.id) : s'.filedDocument? old.uri = some d ∧ d.uri ≠ old.uri := by
  have hne := h.uri_ne_of_free stores.free hold
  rw [filedDocument?, filed?_of_stores stores, if_neg hne, h.filed old hold, Option.bind_some,
    document?_of_stores stores, if_pos hid.symm]
  exact ⟨rfl, hne⟩

end Filed

/-! ## Paths that lead astray -/

/-- An id is filed under the path, but no document has it for its uri. -/
structure Astray (s : Store) (path : String) : Prop where
  filed : (s.filed? path).isSome = true
  no_document : ∀ d ∈ s.documents, d.uri ≠ path

theorem Astray.not_filed_iff (h : s.Astray path) :
    ¬∀ path id, s.filed? path = some id ↔ ∃ d, s.document? id = some d ∧ d.uri = path := by
  intro hiff
  rcases Option.isSome_iff_exists.1 h.filed with ⟨id, hid⟩
  rcases (hiff path id).1 hid with ⟨d, hd, huri⟩
  exact h.no_document d (Keyed.mem_of_find? hd).1 huri

theorem Astray.of_alike (h : s.Astray path) (alike : s.Alike s') : s'.Astray path where
  filed := by
    rw [alike.filed?]
    exact h.filed
  no_document := by
    rw [alike.documents_eq]
    exact h.no_document

/-- No document can be stored at such a path. -/
theorem Astray.stores (h : s.Astray path) (stores : s.Stores d s') : s'.Astray path := by
  have hne : d.uri ≠ path := by
    rintro rfl
    simpa [stores.free] using h.filed
  constructor
  · rw [filed?_of_stores stores, if_neg hne]
    exact h.filed
  · intro e he
    rw [stores.documents_eq] at he
    rcases Keyed.mem_insert_of_mem he with rfl | he
    · exact hne
    · exact h.no_document e he

/-- No removal takes such a path out. -/
theorem Astray.takeOut (h : s.Astray path) (filed : s.Filed) (hd : s.document? d.id = some d) :
    (s.takeOut d).2.Astray path := by
  have hmem : d ∈ s.documents := (Keyed.mem_of_find? hd).1
  constructor
  · rw [((takeOut_of_document? hd).2.2 (filed.filed d hmem)).2, if_neg (h.no_document d hmem).symm]
    exact h.filed
  · intro e he
    exact h.no_document e (documents_takeOut_subset s d he)

/-- So it is not put right. -/
theorem Astray.perform (h : s.Astray path) (filed : s.Filed) (c : Call) :
    (s.perform c).2.Astray path := by
  rcases s.perform_cases c with ⟨-, alike⟩ | ⟨d, -, stores⟩ | ⟨-, d, hd, alike⟩
  · exact h.of_alike alike
  · exact h.stores stores
  · exact (h.takeOut filed hd).of_alike alike

/-- The path of a document whose id is taken leads astray. -/
theorem Filed.astray (h : s.Filed) (stores : s.Stores d s') (hold : old ∈ s.documents)
    (hid : old.id = d.id) : s'.Astray old.uri where
  filed := by
    rw [filed?_of_stores stores, if_neg (h.uri_ne_of_free stores.free hold), h.filed old hold]
    rfl
  no_document e he huri := by
    have hgone := (h.mem_stores_iff stores hold).not.2 (not_not.2 hid)
    have he' := he
    rw [stores.documents_eq] at he
    rcases Keyed.mem_insert_of_mem he with rfl | he
    · exact h.uri_ne_of_free stores.free hold huri
    · have hfiled := h.filed e he
      rw [huri, h.filed old hold] at hfiled
      obtain rfl := eq_of_id h.ascending hold he (Option.some.inj hfiled)
      exact hgone he'

/-- No document is stored under the id of another one. -/
def Fresh (s : Store) (c : Call) : Prop :=
  ∀ d, (s.perform c).1 = some d → ∀ old ∈ s.documents, old.id ≠ d.id

theorem Consistent.perform {c : Call} (h : s.Consistent) (fresh : s.Fresh c) :
    (s.perform c).2.Consistent := by
  rcases s.perform_cases c with ⟨-, alike⟩ | ⟨d, hsome, stores⟩ | ⟨-, d, hd, alike⟩
  · exact h.of_alike alike
  · refine h.storeDocument stores ?_
    rw [Option.eq_none_iff_forall_ne_some]
    intro old hold
    exact fresh d hsome old (Keyed.mem_of_find? hold).1 (id_of_document? hold)
  · exact (h.takeOut hd).of_alike alike

end Store

/-! ## Which id each document got -/

namespace History

variable {h : History} {options : Lock.Options}

/-- The documents that were stored got one number after another; those that are there are among
them. -/
structure Counted (h : History) : Prop where
  next : h.store.nextId = UInt32.ofNat (h.stored.length + 1)
  id_eq : ∀ i d, h.stored[i]? = some d → d.id = UInt32.ofNat (h.stored.length - i)
  known : ∀ d ∈ h.store.documents, d ∈ h.stored
  filed : h.store.Filed

theorem counted_create (options : Lock.Options) : Counted ⟨.create options, []⟩ where
  next := rfl
  id_eq i d hd := by simp at hd
  known d hd := by simp [Store.create] at hd
  filed := Store.filed_create options

theorem counted_perform (counted : h.Counted) (c : Call) : (h.perform c).Counted := by
  rcases h.store.perform_cases c with ⟨hnone, alike⟩ | ⟨d, hsome, stores⟩ | ⟨hnone, d, hd, alike⟩
  · -- one case for each thing a call can do: change neither, store, take out
    have hperform : h.perform c = ⟨(h.store.perform c).2, h.stored⟩ := by simp [perform, hnone]
    rw [hperform]
    constructor
    · rw [alike.nextId_eq]
      exact counted.next
    · exact counted.id_eq
    · rw [alike.documents_eq]
      exact counted.known
    · exact counted.filed.of_alike alike
  · have hperform : h.perform c = ⟨(h.store.perform c).2, d :: h.stored⟩ := by simp [perform, hsome]
    rw [hperform]
    constructor
    · rw [stores.nextId_eq, counted.next, List.length_cons, ← UInt32.ofNat_one, ← UInt32.ofNat_add]
    · -- the new document is the last one in line; the others have moved one place
      intro i e he
      cases i with
      | zero =>
        obtain rfl : d = e := by simpa using he
        rw [stores.id_eq, counted.next]
        rfl
      | succ i =>
        rw [List.getElem?_cons_succ] at he
        rw [counted.id_eq i e he, List.length_cons, Nat.add_sub_add_right]
    · intro e he
      rw [stores.documents_eq] at he
      rcases Keyed.mem_insert_of_mem he with rfl | he
      · exact List.mem_cons_self
      · exact List.mem_cons_of_mem _ (counted.known e he)
    · exact counted.filed.stores stores
  · have hperform : h.perform c = ⟨(h.store.perform c).2, h.stored⟩ := by simp [perform, hnone]
    rw [hperform]
    constructor
    · rw [alike.nextId_eq, Store.nextId_takeOut]
      -- to take out gives no number back
      exact counted.next
    · exact counted.id_eq
    · rw [alike.documents_eq]
      exact fun e he => counted.known e (Store.documents_takeOut_subset _ d he)
    · exact (counted.filed.takeOut hd).of_alike alike

theorem counted_run (options : Lock.Options) (calls : List Call) : (run options calls).Counted := by
  induction calls using List.reverseRecOn with
  | nil => exact counted_create options
  | append_singleton calls c ih =>
    rw [run_append_singleton]
    exact counted_perform ih c

/-- A document has the next id exactly if it was stored a multiple of 2³² documents ago. -/
theorem Counted.id_eq_nextId_iff (counted : h.Counted) {i : Nat} {d : Document}
    (hd : h.stored[i]? = some d) : d.id = h.store.nextId ↔ UInt32.size ∣ i + 1 := by
  have hsize : UInt32.size = 4294967296 := rfl
  have hlt : i < h.stored.length := (List.getElem?_eq_some_iff.1 hd).1
  rw [counted.id_eq i d hd, counted.next, ← UInt32.toNat_inj, UInt32.toNat_ofNat',
    UInt32.toNat_ofNat', hsize]
  omega

/-- A path that leads astray does so for ever. -/
theorem astray_run {calls : List Call} {path : String} (h : (run options calls).store.Astray path)
    (more : List Call) : (run options (calls ++ more)).store.Astray path := by
  induction more using List.reverseRecOn with
  | nil => rwa [List.append_nil]
  | append_singleton more c ih =>
    rw [← List.append_assoc, run_append_singleton]
    exact ih.perform (counted_run options (calls ++ more)).filed c

/-- After any calls an id is filed under a path just where its document has this path for its uri,
exactly if no call has stored a document under the id of another one. -/
theorem consistent_iff_fresh (options : Lock.Options) (calls : List Call) :
    (∀ path id, (run options calls).store.filed? path = some id ↔
      ∃ d, (run options calls).store.document? id = some d ∧ d.uri = path) ↔
    ∀ before c after, calls = before ++ c :: after → (run options before).store.Fresh c := by
  constructor
  · -- an id that is in use makes a path astray, and no later call puts that right
    rintro hiff before c after rfl d hsome old hold hid
    have hastray : (run options (before ++ [c])).store.Astray old.uri := by
      rw [run_append_singleton]
      exact (counted_run options before).filed.astray (Store.stores_of_perform hsome) hold hid
    have hends := astray_run hastray after
    rw [List.append_assoc, List.singleton_append] at hends
    exact hends.not_filed_iff hiff
  · intro fresh
    suffices consistent : (run options calls).store.Consistent from consistent.filed_iff
    -- the last call was the only one left to look at
    induction calls using List.reverseRecOn with
    | nil => exact Store.consistent_create options
    | append_singleton calls c ih =>
      have consistent := ih fun before c' after hcalls =>
        fresh before c' (after ++ [c]) (by simp [hcalls])
      rw [run_append_singleton]
      exact consistent.perform (fresh calls c [] rfl)

/-- After any calls, let one more document be stored. Its id is the number of documents stored so
far, itself included, modulo 2³². It is the id of another document exactly if one is there that was
stored a multiple of 2³² documents ago; so the first 2³² documents get ids of their own. All
documents remain but the one whose id it is: that one is gone, and its path leads to the new
document, which has another path. Paths and documents agree after the calls exactly if none of these
has stored a document under the id of another one. -/
theorem ids_come_round (options : Lock.Options) (calls : List Call) :
    let h := run options calls
    (∀ path kind permission d s', h.store.storeDocument path kind permission = (.ok d, s') →
      d.id.toNat = (h.stored.length + 1) % UInt32.size ∧
      ((∃ old ∈ h.store.documents, old.id = d.id) ↔
        ∃ i old, h.stored[i]? = some old ∧ old ∈ h.store.documents ∧ UInt32.size ∣ i + 1) ∧
      (h.stored.length < UInt32.size → ∀ old ∈ h.store.documents, old.id ≠ d.id) ∧
      (∀ old ∈ h.store.documents, old ∈ s'.documents ↔ old.id ≠ d.id) ∧
      ∀ old ∈ h.store.documents, old.id = d.id →
        s'.filedDocument? old.uri = some d ∧ d.uri ≠ old.uri) ∧
    ((∀ path id, h.store.filed? path = some id ↔
        ∃ d, h.store.document? id = some d ∧ d.uri = path) ↔
      ∀ before c after, calls = before ++ c :: after → (run options before).store.Fresh c) := by
  intro h
  have counted : h.Counted := counted_run options calls
  refine ⟨?_, consistent_iff_fresh options calls⟩
  intro path kind permission d s' hstore
  have stores := Store.storeDocument_eq_ok hstore
  have hmeets : (∃ old ∈ h.store.documents, old.id = d.id) ↔
      ∃ i old, h.stored[i]? = some old ∧ old ∈ h.store.documents ∧ UInt32.size ∣ i + 1 := by
    rw [stores.id_eq]
    constructor
    · rintro ⟨old, hold, hid⟩
      rcases List.getElem?_of_mem (counted.known old hold) with ⟨i, hi⟩
      exact ⟨i, old, hi, hold, (counted.id_eq_nextId_iff hi).1 hid⟩
    · rintro ⟨i, old, hi, hold, hround⟩
      exact ⟨old, hold, (counted.id_eq_nextId_iff hi).2 hround⟩
  refine ⟨?_, hmeets, ?_, fun old hold => counted.filed.mem_stores_iff stores hold,
    fun old hold hid => counted.filed.filedDocument?_stores stores hold hid⟩
  · rw [stores.id_eq, counted.next, UInt32.toNat_ofNat']
  · -- a multiple of all ids that there are lies further back than the first document
    intro few old hold hid
    rcases hmeets.1 ⟨old, hold, hid⟩ with ⟨i, old, hi, -, hround⟩
    have hlt : i < h.stored.length := (List.getElem?_eq_some_iff.1 hi).1
    have hle := Nat.le_of_dvd (Nat.succ_pos i) hround
    omega

end History

/-! ## A document that outlasts all others -/

namespace Store

variable {s s' : Store} {r : Removal} {me : Thread} {path : String}

/-- Documents, paths, collections and locks are the same; the next id and the handles may differ. -/
structure Resembles (s s' : Store) : Prop where
  documents_eq : s'.documents = s.documents
  paths_eq : s'.paths = s.paths
  collections_eq : s'.collections = s.collections
  locks_eq : s'.locks = s.locks

theorem locks_storeDocument (s : Store) (path : String) (kind : ResourceKind)
    (permission : Permission) : (s.storeDocument path kind permission).2.locks = s.locks := by
  rcases hstore : s.storeDocument path kind permission with ⟨e | d, s'⟩
  · have hsame := storeDocument_error (congrArg Prod.fst hstore)
    rw [hstore] at hsame
    exact congrArg locks hsame
  · exact (storeDocument_eq_ok hstore).locks_eq

theorem locks_finishRemoval {guard : Lock.Guard} {locks : Lock.Table}
    (hunlock : guard.unlock me s.locks = (.ok (), locks)) :
    (s.finishRemoval r guard me).2.locks = locks := by
  have hlocks : (s.takeOut r.document).2.locks = s.locks := locks_takeOut rfl
  rw [finishRemoval_eq, hlocks, hunlock]
  exact (quiet_concludeRemoval Prod.mk.eta.symm).locks_eq

/-- A removal gives back the lock it takes. -/
theorem locks_removeDocument (sound : ∀ h, (s.locks h).Sound) (path : String) (me : Thread) :
    (s.removeDocument path me).2.locks = s.locks := by
  rcases hremove : s.removeDocument path me with ⟨e | d, s'⟩
  · rw [(removeDocument_eq_error sound hremove).1]
  · -- a removal that gives a document was granted its lock and gave it back
    rcases hbegin : s.beginRemoval path with ⟨e | r, begun⟩
    · simp [removeDocument, hbegin] at hremove
    · rcases beginRemoval_eq_ok hbegin with ⟨-, -, hwrite, rfl⟩
      rw [removeDocument_of_begin hbegin, endRemoval] at hremove
      dsimp only at hremove
      rcases hrun : r.acquisition.run s.options me s.locks with ⟨e | guard, locks⟩
      · simp [hrun, failRemoval] at hremove
      · rw [hrun] at hremove
        rw [hwrite] at hrun
        have hunlock := Lock.Acquisition.unlock_run (fun h => (sound h).counted .write) hrun
        have hlocks := locks_finishRemoval (r := r)
          (s := { s with registry := s.registry.clone r.document.lock, locks }) hunlock
        rw [← hlocks]
        exact congrArg (fun answer => answer.2.locks) hremove.symm

/-- A document can be stored in a collection that is there, at a path that is free. -/
theorem exists_storeDocument_eq_ok {p : Path} {c : Collection} (hp : Path.parse path = .ok p)
    (hc : s.collection? p.collection = some c) (hfree : s.filed? p.text = none)
    (kind : ResourceKind) (permission : Permission) :
    ∃ d s', s.storeDocument path kind permission = (.ok d, s') ∧ d.uri = p.text := by
  refine ⟨(s.file p c kind permission).1, (s.file p c kind permission).2, ?_,
    uri_file hc kind permission⟩
  simp [storeDocument, hp, hc, hfree]

/-- A document that was stored under an id of its own and is removed again leaves nothing but the
next id behind, if nobody holds a lock. -/
theorem resembles_removeDocument {kind : ResourceKind} {permission : Permission} {d : Document}
    (hstore : s.storeDocument path kind permission = (.ok d, s'))
    (hid : s.document? s.nextId = none) (hfree : s.locks = Lock.Table.free) (me : Thread) :
    s.Resembles (s'.removeDocument path me).2 := by
  have hlocks : s'.locks = s.locks := (storeDocument_eq_ok hstore).locks_eq
  have sound : ∀ h, (s'.locks h).Sound := by
    rw [hlocks, hfree]
    exact fun _ => Lock.State.sound_free
  have hback := locks_removeDocument sound path me
  rcases exists_removeDocument_eq_ok hstore hfree me with ⟨s'', hremove⟩
  have hsame : { s' with locks := s'.locks, registry := s'.registry }.removeDocument path me =
      (.ok d, s'') := hremove
  rcases removeDocument_storeDocument hstore hsame with ⟨-, hcollections, hpaths, hdocuments⟩
  rw [hremove] at hback ⊢
  -- only the documents are left to compare, and here the free id is needed
  refine ⟨?_, hpaths, hcollections, hback.trans hlocks⟩
  rw [hdocuments]
  exact Keyed.erase_eq_self_iff.2 hid

/-- A document is there alone, another one could be stored at a path beside it, and nobody holds a
lock. -/
structure Lone (s : Store) (first : Document) (beside : Path) : Prop where
  documents_eq : s.documents = [first]
  collection : ∃ c, s.collection? beside.collection = some c
  free : s.filed? beside.text = none
  locks_eq : s.locks = Lock.Table.free

theorem Lone.of_resembles {first : Document} {beside : Path} (h : s.Lone first beside)
    (resembles : s.Resembles s') : s'.Lone first beside where
  documents_eq := resembles.documents_eq.trans h.documents_eq
  collection := by
    simp only [collection?, resembles.collections_eq]
    exact h.collection
  free := by
    rw [filed?, resembles.paths_eq]
    exact h.free
  locks_eq := resembles.locks_eq.trans h.locks_eq

/-- Any id but that of the document is free. -/
theorem Lone.document?_of_ne {first : Document} {beside : Path} (h : s.Lone first beside) {id : DocId}
    (hne : first.id ≠ id) : s.document? id = none := by
  rw [Option.eq_none_iff_forall_ne_some]
  intro d hd
  have hmem : d ∈ s.documents := (Keyed.mem_of_find? hd).1
  rw [h.documents_eq, List.mem_singleton] at hmem
  exact hne (hmem ▸ id_of_document? hd)

end Store

namespace History

/-- The collection in which the documents below are stored. -/
def letters : CollectionUri := ⟨["letters"], by decide⟩

/-- Calls by which a document is stored and then, beside it, `n` others one after another, each of
which is removed before the next one is stored. -/
def outlasting : Nat → List Call
  | 0 =>
    [.createCollection letters Store.rootPermission,
      .storeDocument "/db/letters/x.xml" .xml Store.rootPermission]
  | n + 1 =>
    outlasting n ++ [.storeDocument "/db/letters/y.xml" .xml Store.rootPermission,
      .removeDocument "/db/letters/y.xml" "main"]

theorem parse_beside :
    Path.parse "/db/letters/y.xml" = .ok ⟨letters, "y.xml"⟩ := by
  decide +kernel

/-- The first document has the first id. -/
theorem exists_lone :
    ∃ first, (run {} (outlasting 0)).store.Lone first ⟨letters, "y.xml"⟩ ∧
      first.id = 1 ∧ first.uri = "/db/letters/x.xml" := by
  have hone : (run {} (outlasting 0)).store.documents.map (fun d => (d.id, d.uri)) =
      [(1, "/db/letters/x.xml")] := by decide +kernel
  have hcollection : ((run {} (outlasting 0)).store.collection? letters).isSome = true := by
    decide +kernel
  have hrun : (run {} (outlasting 0)).store =
      (((Store.create {}).createCollection letters Store.rootPermission).2.storeDocument
        "/db/letters/x.xml" .xml Store.rootPermission).2 := rfl
  rcases List.map_eq_singleton_iff.1 hone with ⟨first, hfirst, heq⟩
  refine ⟨first, ⟨hfirst, Option.isSome_iff_exists.1 hcollection, by decide +kernel, ?_⟩,
    congrArg Prod.fst heq, congrArg Prod.snd heq⟩
  rw [hrun, Store.locks_storeDocument, (Store.quiet_createCollection _ _ _).locks_eq]
  rfl

/-- As long as the counter has not come round, the document is there alone when the others have
gone. -/
theorem lone_outlasting {first : Document} {beside : Path}
    (hparse : Path.parse "/db/letters/y.xml" = .ok beside)
    (lone : (run {} (outlasting 0)).store.Lone first beside) (hone : first.id = 1) {n : Nat}
    (hn : n < UInt32.size) :
    (run {} (outlasting n)).store.Lone first beside ∧ (run {} (outlasting n)).stored.length = n + 1 := by
  induction n with
  | zero => exact ⟨lone, by decide +kernel⟩
  | succ n ih =>
    rcases ih (Nat.lt_of_succ_lt hn) with ⟨lone, hlength⟩
    -- the first id comes round when as many documents were stored as there are ids, and not before
    have hid : first.id ≠ (run {} (outlasting n)).store.nextId := by
      rw [hone, (counted_run {} (outlasting n)).next, hlength]
      intro heq
      have htoNat := congrArg UInt32.toNat heq
      have hsize : UInt32.size = 4294967296 := rfl
      have hfirst : (1 : UInt32).toNat = 1 := rfl
      rw [UInt32.toNat_ofNat'] at htoNat
      omega
    rcases lone.collection with ⟨c, hc⟩
    rcases Store.exists_storeDocument_eq_ok hparse hc lone.free .xml Store.rootPermission with
      ⟨d, s', hstore, -⟩
    have hback := Store.resembles_removeDocument hstore (lone.document?_of_ne hid) lone.locks_eq "main"
    have hrun : run {} (outlasting (n + 1)) =
        ((run {} (outlasting n)).perform (.storeDocument "/db/letters/y.xml" .xml
          Store.rootPermission)).perform (.removeDocument "/db/letters/y.xml" "main") := by
      rw [outlasting, List.append_cons, run_append_singleton, run_append_singleton]
    -- stored and removed again: nothing remains of it but that it was counted
    rw [hrun]
    simp only [perform, Store.perform, hstore, Except.toOption, Option.toList, List.nil_append,
      List.cons_append, List.length_cons, hlength, and_true]
    exact lone.of_resembles hback

/-- When as many documents were stored as there are ids, the next one gets the id of the first. -/
theorem exists_collision {n : Nat} (hn : n + 1 = UInt32.size) :
    ∃ first d s', (run {} (outlasting n)).store.Lone first ⟨letters, "y.xml"⟩ ∧
      first.uri = "/db/letters/x.xml" ∧
      (run {} (outlasting n)).store.storeDocument "/db/letters/y.xml" .xml Store.rootPermission =
        (.ok d, s') ∧ d.uri = "/db/letters/y.xml" ∧ d.id = 1 ∧ first.id = 1 := by
  rcases exists_lone with ⟨first, lone, hone, huri⟩
  rcases lone_outlasting parse_beside lone hone (show n < UInt32.size by omega) with ⟨lone, hlength⟩
  rcases lone.collection with ⟨c, hc⟩
  rcases Store.exists_storeDocument_eq_ok parse_beside hc lone.free .xml Store.rootPermission with
    ⟨d, s', hstore, hd⟩
  refine ⟨first, d, s', lone, huri, hstore, hd.trans (by decide +kernel), ?_, hone⟩
  rw [(Store.storeDocument_eq_ok hstore).id_eq, (counted_run {} (outlasting n)).next, hlength, hn]
  rfl

/-- The counter has come round: the first document is replaced by one that was stored beside it, and
its path leads there from then on. -/
theorem ids_come_round_outlasting :
    ∃ first d s', (run {} (outlasting (UInt32.size - 1))).store.documents = [first] ∧
      (run {} (outlasting (UInt32.size - 1))).store.storeDocument "/db/letters/y.xml" .xml
        Store.rootPermission = (.ok d, s') ∧
      first.uri = "/db/letters/x.xml" ∧ d.uri = "/db/letters/y.xml" ∧ first ∉ s'.documents ∧
      s'.filedDocument? "/db/letters/x.xml" = some d := by
  rcases exists_collision (n := UInt32.size - 1) rfl with
    ⟨first, d, s', lone, huri, hstore, hd, hid, hone⟩
  have hfirst := lone.documents_eq
  have hmem : first ∈ (run {} (outlasting (UInt32.size - 1))).store.documents := by
    rw [hfirst]
    exact List.mem_singleton_self first
  have hsame : first.id = d.id := hone.trans hid.symm
  rcases ids_come_round {} (outlasting (UInt32.size - 1)) with ⟨hnext, -⟩
  rcases hnext _ _ _ _ _ hstore with ⟨-, -, -, hstays, hlost⟩
  refine ⟨first, d, s', hfirst, hstore, huri, hd, ?_, ?_⟩
  · -- the theorem tells which documents stay, and where the path of the one that is lost leads
    exact fun hstill => (hstays first hmem).1 hstill hsame
  · rw [← huri]
    exact (hlost first hmem hsame).1

/-- So ids of documents that are there are handed out again. And even if none is, a path under which
a document is stored may lead to another one, as it is not read as it is written. -/
theorem not_ids_unique :
    (¬∀ (options : Lock.Options) (calls : List Call) path kind permission d s',
      (run options calls).store.storeDocument path kind permission = (.ok d, s') →
        ∀ old ∈ (run options calls).store.documents, old.id ≠ d.id) ∧
    ¬∀ (options : Lock.Options) (calls : List Call),
      ∀ d ∈ (run options calls).store.documents, ∀ e ∈ (run options calls).store.documents,
        (run options calls).store.documentAt? d.uri = some e → e = d := by
  constructor
  · -- the counter has come round
    intro hunique
    rcases exists_collision (n := UInt32.size - 1) rfl with
      ⟨first, d, s', lone, -, hstore, -, hid, hone⟩
    refine hunique _ _ _ _ _ _ _ hstore first ?_ (hone.trans hid.symm)
    rw [lone.documents_eq]
    exact List.mem_singleton_self first
  · -- the second document of these is found under the path of the first
    intro hown
    have hall := hown {} spaced
    exact absurd hall (by decide +kernel)

/-- Nor does a removal of what was just stored always restore the documents: when the counter has
come round it takes out the new document, but not before this one has replaced the first. -/
theorem not_restored_by_removal :
    ¬∀ (options : Lock.Options) (calls : List Call) (u : Lock.Usage), Lock.Usage.Reachable options u →
      let s := { (run options calls).store with locks := u.locks }
      ∀ path kind permission d stored, s.storeDocument path kind permission = (.ok d, stored) →
        ∀ me e s', stored.removeDocument path me = (.ok e, s') →
          s'.collections = s.collections ∧ s'.documents = s.documents ∧ s'.paths = s.paths := by
  intro hrestores
  -- the number of the others is too large to be computed with
  rcases show ∃ n, n + 1 = UInt32.size from ⟨UInt32.size - 1, rfl⟩ with ⟨n, hn⟩
  rcases exists_collision hn with ⟨first, d, stored, lone, -, hstore, -, hid, hone⟩
  rcases Store.exists_removeDocument_eq_ok hstore lone.locks_eq "main" with ⟨s', hremove⟩
  have hsame : { stored with locks := stored.locks, registry := stored.registry }.removeDocument
      "/db/letters/y.xml" "main" = (.ok d, s') := hremove
  -- the new document has the id of the first, which goes with it
  have hgone : s'.documents = [] := by
    rw [(Store.removeDocument_storeDocument hstore hsame).2.2.2, lone.documents_eq,
      ← (Store.storeDocument_eq_ok hstore).id_eq, hid]
    simp [Keyed.erase, hone]
  have hlocks : { (run {} (outlasting n)).store with locks := ({} : Lock.Usage).locks } =
      (run {} (outlasting n)).store := by
    rw [show ({} : Lock.Usage).locks = Lock.Table.free from rfl, ← lone.locks_eq]
  have hback := hrestores {} (outlasting n) {} .start
  rw [hlocks] at hback
  have hdocuments := (hback _ _ _ _ _ hstore _ _ _ hremove).2.1
  rw [hgone, lone.documents_eq] at hdocuments
  exact List.cons_ne_nil first [] hdocuments.symm

end History
end DocBase
