import DocBase.Store.Removal
/-!
# What is filed and what is stored

A store is consistent when its paths and its documents say the same: an id is filed under a path
exactly when the document with that id has that path as its uri. Ids are handed out in ascending
order, so as long as the counter does not come round a new document has an id of its own. Main
statements:

* `Consistent.storeDocument` and `Consistent.takeOut` — what storing and taking out preserve;
* `Numbered.storeDocument` — every document ever stored keeps its id to itself.
-/

namespace DocBase.Store

variable {s s' : Store}

/-- The documents, the paths and the next id are the same. -/
structure Alike (s s' : Store) : Prop where
  documents_eq : s'.documents = s.documents
  paths_eq : s'.paths = s.paths
  nextId_eq : s'.nextId = s.nextId

theorem Alike.document? (h : s.Alike s') (id : DocId) : s'.document? id = s.document? id := by
  rw [Store.document?, Store.document?, h.documents_eq]

theorem Alike.filed? (h : s.Alike s') (path : String) : s'.filed? path = s.filed? path := by
  rw [Store.filed?, Store.filed?, h.paths_eq]

/-- The locks are the same too; users, collections and handles may differ. -/
structure Quiet (s s' : Store) : Prop extends Alike s s' where
  locks_eq : s'.locks = s.locks

theorem Quiet.refl (s : Store) : s.Quiet s := ⟨⟨rfl, rfl, rfl⟩, rfl⟩

theorem quiet_createCollection (s : Store) (uri : CollectionUri) (permission : Permission) :
    s.Quiet (s.createCollection uri permission).2 := by
  unfold createCollection
  split
  · exact .refl s
  · exact ⟨⟨rfl, rfl, rfl⟩, rfl⟩

/-! ## Storing -/

/-- A document that is stored has the next id; its path was free and names it from then on. -/
structure Stores (s : Store) (d : Document) (s' : Store) : Prop where
  id_eq : d.id = s.nextId
  free : s.filed? d.uri = none
  documents_eq : s'.documents = Keyed.insert Document.id d s.documents
  paths_eq : s'.paths = Keyed.insert Prod.fst (d.uri, d.id) s.paths
  nextId_eq : s'.nextId = s.nextId + 1
  locks_eq : s'.locks = s.locks
  options_eq : s'.options = s.options

/-- A collection is found by the text of its uri. -/
theorem text_of_collection? {uri : CollectionUri} {c : Collection} (h : s.collection? uri = some c) :
    c.uri.text = uri.text := (Keyed.mem_of_find? h).2

/-- What is stored is filed in the collection that its path names; this is there, and the path was
free. -/
theorem file_of_storeDocument {path : String} {kind : ResourceKind} {permission : Permission}
    {d : Document} (h : s.storeDocument path kind permission = (.ok d, s')) :
    ∃ p c, Path.parse path = .ok p ∧ s.collection? p.collection = some c ∧
      s.filed? p.text = none ∧
      d = (s.file p c kind permission).1 ∧ s' = (s.file p c kind permission).2 := by
  unfold storeDocument at h
  split at h
  · -- no path, no collection, or a document there already: none of these is a success
    simp at h
  · next p hp =>
    split at h
    · simp at h
    · next c hc =>
      split at h
      · simp at h
      · next hfree =>
        simp only [Prod.mk.injEq, Except.ok.injEq] at h
        exact ⟨p, c, hp, hc, by simpa using hfree, h.1.symm, h.2.symm⟩

theorem uri_file {p : Path} {c : Collection} (hc : s.collection? p.collection = some c)
    (kind : ResourceKind) (permission : Permission) :
    (s.file p c kind permission).1.uri = p.text := by
  simp only [file, Document.uri, Path.text, text_of_collection? hc]

theorem storeDocument_eq_ok {path : String} {kind : ResourceKind}
    {permission : Permission} {d : Document}
    (h : s.storeDocument path kind permission = (.ok d, s')) : s.Stores d s' := by
  rcases file_of_storeDocument h with ⟨p, c, -, hc, hfree, rfl, rfl⟩
  have huri := uri_file hc kind permission
  constructor
  · rfl
  · rw [huri]
    exact hfree
  · rfl
  · rw [huri]
    rfl
  · rfl
  · rfl
  · rfl

/-- A document knows its collection, its name there, its kind and its permission; no collection
changes. -/
theorem placed_of_storeDocument {path : String} {kind : ResourceKind} {permission : Permission}
    {d : Document} (h : s.storeDocument path kind permission = (.ok d, s')) :
    (∃ p c, Path.parse path = .ok p ∧ s.collection? p.collection = some c ∧
      d.collection = some c ∧ d.fileName = p.name ∧ d.uri = p.text) ∧
    d.kind = kind ∧ d.permission = permission ∧ s'.collections = s.collections := by
  rcases file_of_storeDocument h with ⟨p, c, hp, hc, -, rfl, rfl⟩
  exact ⟨⟨p, c, hp, hc, rfl, rfl, uri_file hc kind permission⟩, rfl, rfl, rfl⟩

/-! ## Looking up -/

theorem document?_of_stores {d : Document} (h : s.Stores d s') (id : DocId) :
    s'.document? id = if d.id = id then some d else s.document? id := by
  rw [document?, h.documents_eq, Keyed.find?_insert]
  rfl

theorem filed?_of_stores {d : Document} (h : s.Stores d s') (path : String) :
    s'.filed? path = if d.uri = path then some d.id else s.filed? path := by
  rw [filed?, h.paths_eq, Keyed.find?_insert]
  split <;> rfl

/-- What is found by an id has this id. -/
theorem id_of_document? {id : DocId} {d : Document} (h : s.document? id = some d) : d.id = id :=
  (Keyed.mem_of_find? h).2

/-- Where documents stand in ascending order of ids, an id stands for one document. -/
theorem eq_of_id (h : Keyed.Ascending Document.id s.documents) {d e : Document}
    (hd : d ∈ s.documents) (he : e ∈ s.documents) (hid : d.id = e.id) : d = e := by
  have hfound := Keyed.find?_of_mem h hd
  rw [hid, Keyed.find?_of_mem h he] at hfound
  exact (Option.some.inj hfound).symm

/-- What is at a path is found by its id. -/
theorem document?_of_documentAt? {path : String} {d : Document} (h : s.documentAt? path = some d) :
    s.document? d.id = some d := by
  unfold documentAt? at h
  split at h
  · rcases Option.bind_eq_some_iff.1 h with ⟨id, -, hid⟩
    rwa [id_of_document? hid]
  · simp at h

/-- Taking out a document that is there leaves every other one. -/
theorem takeOut_of_document? {d stored : Document} (h : s.document? d.id = some stored) :
    (s.takeOut d).1 = true ∧
      (∀ id, (s.takeOut d).2.document? id = if id = d.id then none else s.document? id) ∧
      (s.filed? d.uri = some d.id →
        (s.takeOut d).2.paths = Keyed.erase Prod.fst d.uri s.paths ∧
        ∀ path, (s.takeOut d).2.filed? path = if path = d.uri then none else s.filed? path) := by
  simp only [takeOut, h, true_and]
  constructor
  · intro id
    exact Keyed.find?_erase Document.id d.id id s.documents
  · intro hfiled
    simp only [hfiled, if_true, true_and]
    intro path
    rw [filed?, Keyed.find?_erase]
    split <;> rfl

theorem documents_takeOut {d stored : Document} (h : s.document? d.id = some stored) :
    (s.takeOut d).2.documents = Keyed.erase Document.id d.id s.documents := by
  simp [takeOut, h]

theorem nextId_takeOut (s : Store) (d : Document) : (s.takeOut d).2.nextId = s.nextId := by
  unfold takeOut
  split <;> rfl

/-- Taking out a document that is gone changes nothing. -/
theorem takeOut_of_gone {d : Document} (h : s.document? d.id = none) : s.takeOut d = (false, s) := by
  simp [takeOut, h]

/-! ## Consistency -/

/-- Documents stand in ascending order of ids, and an id is filed under the uri of its document and
nowhere else. -/
structure Consistent (s : Store) : Prop where
  ascending : Keyed.Ascending Document.id s.documents
  filed_iff : ∀ path id, s.filed? path = some id ↔ ∃ d, s.document? id = some d ∧ d.uri = path

theorem consistent_create (options : Lock.Options) : (create options).Consistent where
  ascending := List.Pairwise.nil
  filed_iff path id := by
    constructor
    · intro h
      simp [filed?, create, Keyed.find?] at h
    · rintro ⟨d, hd, -⟩
      simp [document?, create, Keyed.find?] at hd

/-- A member is found by its id. -/
theorem Consistent.document?_of_mem (h : s.Consistent) {d : Document} (hd : d ∈ s.documents) :
    s.document? d.id = some d := Keyed.find?_of_mem h.ascending hd

/-- What is found by an id is filed under its uri. -/
theorem Consistent.filed?_of_document? (h : s.Consistent) {id : DocId} {d : Document}
    (hd : s.document? id = some d) : s.filed? d.uri = some id := (h.filed_iff d.uri id).2 ⟨d, hd, rfl⟩

theorem Consistent.of_alike (h : s.Consistent) (alike : s.Alike s') : s'.Consistent where
  ascending := alike.documents_eq ▸ h.ascending
  filed_iff path id := by
    rw [alike.filed?, alike.document?]
    exact h.filed_iff path id

/-- Storing a document with an id of its own keeps a store consistent. -/
theorem Consistent.storeDocument {d : Document} (h : s.Consistent)
    (hstores : s.Stores d s') (hfresh : s.document? d.id = none) : s'.Consistent where
  ascending := by
    rw [hstores.documents_eq]
    exact Keyed.ascending_insert h.ascending d
  filed_iff path id := by
    have hold := h.filed_iff path id
    rw [filed?_of_stores hstores, document?_of_stores hstores]
    by_cases hpath : d.uri = path
    · by_cases hid : d.id = id
      · simp [hpath, hid]
      · -- the path was free, so no other document had it
        have hnone : ¬ ∃ e, s.document? id = some e ∧ e.uri = path := by
          rw [← hold, ← hpath, hstores.free]
          simp
        simp only [hpath, hid, if_true, if_false, Option.some.injEq]
        exact iff_of_false (fun h => h) hnone
    · by_cases hid : d.id = id
      · -- the id was free, so it was not filed
        subst hid
        rw [hfresh] at hold
        simp only [hpath, if_false, if_true]
        rw [hold]
        simp [hpath]
      · simp only [hpath, hid, if_false]
        exact hold

/-- Taking out a document that is filed under its uri keeps a store consistent. -/
theorem Consistent.takeOut {d : Document} (h : s.Consistent) (hd : s.document? d.id = some d) :
    (s.takeOut d).2.Consistent where
  ascending := by
    rw [documents_takeOut hd]
    exact h.ascending.sublist (Keyed.erase_sublist _ _ _)
  filed_iff path id := by
    have hold := h.filed_iff path id
    have hfiled := h.filed?_of_document? hd
    rcases takeOut_of_document? hd with ⟨-, hdocument, hpaths⟩
    rw [hdocument, (hpaths hfiled).2]
    -- paths and documents lose one entry each, and these belong together
    by_cases hid : id = d.id
    · subst hid
      simp only [if_true]
      by_cases hpath : path = d.uri
      · simp [hpath]
      · simp only [hpath, if_false]
        rw [hold, hd]
        simp [Ne.symm hpath]
    · simp only [hid, if_false]
      by_cases hpath : path = d.uri
      · subst hpath
        rw [if_pos rfl, ← hold, hfiled]
        simp [Ne.symm hid]
      · rw [if_neg hpath]
        exact hold

/-! ## Numbers -/

/-- The documents that were ever stored have ids of their own, all below the next one. -/
structure Numbered (s : Store) (stored : List Document) : Prop where
  next : s.nextId.toNat = stored.length + 1
  below : ∀ d ∈ stored, d.id.toNat ≤ stored.length
  distinct : ∀ d ∈ stored, ∀ e ∈ stored, d.id = e.id → d = e
  known : ∀ id d, s.document? id = some d → d ∈ stored

theorem numbered_create (options : Lock.Options) : (create options).Numbered [] where
  next := rfl
  below d hd := by simp at hd
  distinct d hd := by simp at hd
  known id d hd := by simp [document?, create, Keyed.find?] at hd

section Numbered

variable {stored : List Document}

/-- The next id belongs to no document that was ever stored. -/
theorem Numbered.nextId_ne (h : s.Numbered stored) {d : Document} (hd : d ∈ stored) :
    d.id ≠ s.nextId := by
  intro heq
  have hbelow := h.below d hd
  rw [heq, h.next] at hbelow
  omega

/-- A document that is there is the one that was stored under its id. -/
theorem Numbered.document?_eq (h : s.Numbered stored) {d e : Document} (hd : d ∈ stored)
    (he : s.document? d.id = some e) : e = d :=
  h.distinct e (h.known d.id e he) d hd (id_of_document? he)

theorem Numbered.document?_nextId (h : s.Numbered stored) : s.document? s.nextId = none := by
  cases hd : s.document? s.nextId with
  | none => rfl
  | some d => exact absurd (id_of_document? hd) (h.nextId_ne (h.known _ d hd))

theorem Numbered.of_alike (h : s.Numbered stored) (alike : s.Alike s') : s'.Numbered stored where
  next := alike.nextId_eq ▸ h.next
  below := h.below
  distinct := h.distinct
  known id d hd := h.known id d (by rwa [alike.document?] at hd)

/-- As long as the counter does not come round, a document that is stored has an id of its own. -/
theorem Numbered.storeDocument {d : Document} (h : s.Numbered stored)
    (hstores : s.Stores d s') (hfew : stored.length + 1 < UInt32.size - 1) :
    s'.Numbered (d :: stored) where
  next := by
    have hnext := h.next
    have hone : (1 : UInt32).toNat = 1 := rfl
    have hsize : UInt32.size = 4294967296 := rfl
    rw [hstores.nextId_eq, UInt32.toNat_add, hone, hnext, List.length_cons]
    omega
  -- the new number is the next one, and so above all earlier ones
  below e he := by
    rcases List.mem_cons.1 he with rfl | he
    · rw [hstores.id_eq, h.next]
      exact Nat.le_refl _
    · have hbelow := h.below e he
      rw [List.length_cons]
      omega
  distinct e he f hf heq := by
    rcases List.mem_cons.1 he with hed | he <;> rcases List.mem_cons.1 hf with hfd | hf
    · exact hed.trans hfd.symm
    · rw [hed, hstores.id_eq] at heq
      exact absurd heq.symm (h.nextId_ne hf)
    · rw [hfd, hstores.id_eq] at heq
      exact absurd heq (h.nextId_ne he)
    · exact h.distinct e he f hf heq
  -- what is found is the new document, or it was found before
  known id e he := by
    rw [document?_of_stores hstores] at he
    split at he
    · obtain rfl := Option.some.inj he
      exact List.mem_cons_self
    · exact List.mem_cons_of_mem _ (h.known id e he)

theorem Numbered.takeOut (h : s.Numbered stored) {d e : Document} (hd : s.document? d.id = some e) :
    (s.takeOut d).2.Numbered stored where
  next := by
    rw [nextId_takeOut]
    exact h.next
  below := h.below
  distinct := h.distinct
  known id f hf := by
    rw [(takeOut_of_document? hd).2.1] at hf
    split at hf
    · simp at hf
    · exact h.known id f hf

end Numbered

end DocBase.Store
