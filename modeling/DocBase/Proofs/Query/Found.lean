import DocBase.Proofs.Document.Membership
import DocBase.Proofs.Store.Consistency
import DocBase.Query.Execution
/-!
# The documents found for a query

Every document that a call addresses is a document of the store that was asked, one that the subject
may read, and every document of every call is locked. When documents are left out because they have
gone, a call keeps those that are still there. Main statements:

* `each_of_resourcesAmong` — nothing is found that is not in the store or not to be read;
* `Resources.contains_documents` — the lock set of a query has all documents of all calls;
* `Resources.stillIn_of_none_gone` — if no document of the lock set has gone, no call loses any.
-/

namespace DocBase

/-- A subject that gets documents asked for a collection that exists and that it may read. -/
theorem Store.collectionDocuments_eq_ok {s : Store} {subject : Subject} {uri : CollectionUri}
    {check : Bool} {set : DocumentSet} (h : s.collectionDocuments subject uri check = .ok set) :
    (∃ top, s.collection? uri = some top ∧
      (check = true → top.permission.readableBy subject = true)) ∧
    set = ({} : DocumentSet).extend
      (((s.documentsIn uri true).filter fun d => !check || collectionReadable d subject).filter
        fun d => !check || d.readableBy subject) := by
  unfold collectionDocuments at h
  split at h
  · simp at h
  · next top htop =>
    split at h
    · simp at h
    · next hopen =>
      refine ⟨⟨top, htop, ?_⟩, (Except.ok.inj h).symm⟩
      intro hcheck
      simpa [hcheck] using hopen

namespace Query

/-! ## Finding -/

namespace View

/-- A document of the store that the subject may read, or any document if that does not count. -/
def Shows (v : View) (d : Document) : Prop :=
  d ∈ v.store.documents ∧ (v.dynamic.checkPermissions = true → d.readableBy v.subject = true)

variable {v : View} {found set : DocumentSet} {d : Document}

theorem shows_of_readableDocument {path : String}
    (h : v.store.readableDocument v.subject path v.dynamic.checkPermissions = .ok (some d)) :
    v.Shows d := by
  unfold Store.readableDocument at h
  split at h
  · simp at h
  · rcases Option.filter_eq_some_iff.1 (Except.ok.inj h) with ⟨hd, hreadable⟩
    refine ⟨(Keyed.mem_of_find? (Store.document?_of_documentAt? hd)).1, ?_⟩
    intro hcheck
    simpa [hcheck] using hreadable

theorem shows_of_xmlDocument {path : String} (h : v.xmlDocument path = .ok d) : v.Shows d := by
  unfold xmlDocument at h
  split at h
  · simp at h
  · simp at h
  · next e he =>
    split at h
    · obtain rfl : e = d := Except.ok.inj h
      exact shows_of_readableDocument he
    · simp at h

theorem shows_of_collectionDocuments {uri : CollectionUri}
    (h : v.store.collectionDocuments v.subject uri v.dynamic.checkPermissions = .ok set)
    (hd : d ∈ set.documents) : v.Shows d := by
  rw [(Store.collectionDocuments_eq_ok h).2] at hd
  rcases DocumentSet.mem_extend hd with hd | hd
  · simp at hd
  · rcases List.mem_filter.1 hd with ⟨hvisible, hreadable⟩
    refine ⟨(List.mem_filter.1 (List.mem_filter.1 hvisible).1).1, ?_⟩
    intro hcheck
    simpa [hcheck] using hreadable

/-- What is retrieved is what was asked for. -/
theorem retrieved_eq_some {α : Type} {r : Except StoreError α} {a : α}
    (h : v.retrieved r = .ok (some a)) : r = .ok a := by
  cases r with
  | ok b => exact congrArg Except.ok (Option.some.inj (Except.ok.inj h))
  | error e =>
    simp only [retrieved] at h
    split at h <;> simp at h

theorem mem_addCollections {uris : List CollectionUri} (h : v.addCollections uris found = .ok set)
    (hd : d ∈ set.documents) : d ∈ found.documents ∨ v.Shows d := by
  -- the documents found so far are generalised
  induction uris generalizing found with
  | nil =>
    obtain rfl : found = set := Except.ok.inj h
    exact .inl hd
  | cons uri uris ih =>
    simp only [addCollections] at h
    split at h
    · simp at h
    · next more hmore =>
      cases more with
      | none => exact ih h
      | some more =>
        -- found in this collection, or among those found before or after
        rcases ih h with hd | hd
        · rcases DocumentSet.mem_extend hd with hd | hd
          · exact .inl hd
          · exact .inr (shows_of_collectionDocuments (retrieved_eq_some hmore) hd)
        · exact .inr hd

theorem mem_addDocuments {paths : List String} (h : v.addDocuments paths found = .ok set)
    (hd : d ∈ set.documents) : d ∈ found.documents ∨ v.Shows d := by
  induction paths generalizing found with
  | nil =>
    obtain rfl : found = set := Except.ok.inj h
    exact .inl hd
  | cons path paths ih =>
    simp only [addDocuments] at h
    split at h
    · simp at h
    · next one hone =>
      cases one with
      | none => exact ih h
      | some e =>
        rcases ih h with hd | hd
        · rcases DocumentSet.mem_add hd with rfl | hd
          · exact .inr (shows_of_xmlDocument (retrieved_eq_some hone))
          · exact .inl hd
        · exact .inr hd

/-- A call addresses documents of the store that the subject may read. -/
theorem shows_of_addressed {static : StaticContext} {f : Builtin} {arguments : List String}
    (h : v.addressed static f arguments = .ok set) (hd : d ∈ set.documents) : v.Shows d := by
  have hfound : d ∈ ({} : DocumentSet).documents ∨ v.Shows d := by
    unfold addressed at h
    split at h
    · exact mem_addDocuments h hd
    · cases huris : v.namedCollections static arguments with
      | error e => simp [huris, Except.bind] at h
      | ok uris =>
        rw [huris] at h
        exact mem_addCollections h hd
  simpa using hfound

end View

namespace Resources

/-- Some property of every document of every call. -/
def Each (r : Resources) (p : Document → Prop) : Prop := ∀ entry ∈ r, ∀ d ∈ entry.2.documents, p d

variable {r r' : Resources} {p : Document → Prop} {s : Store}

theorem each_append : (r ++ r').Each p ↔ r.Each p ∧ r'.Each p := by
  simp only [Each, List.mem_append]
  constructor
  · intro h
    exact ⟨fun entry he => h entry (.inl he), fun entry he => h entry (.inr he)⟩
  · rintro ⟨h, h'⟩ entry (he | he)
    · exact h entry he
    · exact h' entry he

theorem Each.imp {q : Document → Prop} (h : r.Each p) (hpq : ∀ d, p d → q d) : r.Each q :=
  fun entry he d hd => hpq d (h entry he d hd)

end Resources

/-- Nothing is found that is not in the store or that the subject may not read. -/
theorem each_of_resourcesAmong {v : View} {q : CompiledQuery} {calls : List ExprId} {r : Resources}
    (h : resourcesAmong v q calls = .ok r) : r.Each v.Shows := by
  induction calls generalizing r with
  | nil =>
    obtain rfl : [] = r := Except.ok.inj h
    intro entry he
    simp at he
  | cons call calls ih =>
    simp only [resourcesAmong] at h
    -- only calls that address documents add an entry
    split at h
    · next f arguments _ =>
      split at h
      · cases htexts : literalTexts q.tree arguments with
        | error e => simp [htexts, Except.bind] at h
        | ok texts =>
          cases hset : v.addressed q.static f texts with
          | error e => simp [htexts, hset, Except.bind] at h
          | ok set =>
            cases hothers : resourcesAmong v q calls with
            | error e => simp [htexts, hset, hothers, Except.bind, Except.map] at h
            | ok others =>
              simp only [htexts, hset, hothers, Except.bind, Except.map, Except.ok.injEq] at h
              subst h
              intro entry he d hd
              rcases List.mem_cons.1 he with rfl | he
              · exact View.shows_of_addressed hset hd
              · exact ih hothers entry he d hd
      · exact ih h
    · exact ih h

/-! ## Locking and leaving out -/

namespace Resources

variable {r : Resources} {p : Document → Prop} {s : Store} {d : Document}

theorem mem_foldl_extendFrom {all : DocumentSet}
    (h : d ∈ (r.foldl (fun all entry => all.extendFrom entry.2) all).documents) :
    d ∈ all.documents ∨ ∃ entry ∈ r, d ∈ entry.2.documents := by
  induction r generalizing all with
  | nil => exact .inl h
  | cons entry r ih =>
    rcases ih h with h | ⟨entry', he, hd⟩
    · rcases DocumentSet.mem_extend h with h | h
      · exact .inl h
      · exact .inr ⟨entry, List.mem_cons_self, h⟩
    · exact .inr ⟨entry', List.mem_cons_of_mem _ he, hd⟩

theorem contains_foldl_extendFrom {all : DocumentSet} {id : DocId} :
    (r.foldl (fun all entry => all.extendFrom entry.2) all).contains id = true ↔
      all.contains id = true ∨ ∃ entry ∈ r, ∃ d ∈ entry.2.documents, d.id = id := by
  induction r generalizing all with
  | nil => simp
  | cons entry r ih =>
    rw [List.foldl_cons, ih, DocumentSet.extendFrom, DocumentSet.contains_extend]
    simp only [List.mem_cons, exists_eq_or_imp, or_assoc]

/-- The lock set of a query has no documents but those of its calls. -/
theorem mem_documents (h : d ∈ r.documents.documents) : ∃ entry ∈ r, d ∈ entry.2.documents := by
  rcases mem_foldl_extendFrom h with h | h
  · simp at h
  · exact h

/-- The lock set of a query represents all documents of all calls. -/
theorem contains_documents {entry : ExprId × DocumentSet} (he : entry ∈ r)
    (hd : d ∈ entry.2.documents) : ∃ e ∈ r.documents.documents, e.id = d.id := by
  rw [← DocumentSet.contains_iff, documents, contains_foldl_extendFrom]
  exact .inr ⟨entry, he, d, hd, rfl⟩

/-- How many documents of the lock set are no longer in the store. -/
def gone (r : Resources) (s : Store) : Nat :=
  (r.documents.retain fun d => (s.document? d.id).isSome).1

/-- When none has gone, every document of every call is still there. -/
theorem each_of_none_gone (h : r.gone s = 0) : r.Each fun d => (s.document? d.id).isSome = true := by
  intro entry he d hd
  rcases contains_documents he hd with ⟨e, hmem, hid⟩
  have hthere := DocumentSet.dropped_eq_zero.1 h e hmem
  rwa [hid] at hthere

/-- When all documents are still there, no call loses any. -/
theorem stillIn_eq_self (h : r.Each fun d => (s.document? d.id).isSome = true) :
    r.stillIn s = r := by
  have hsame : ∀ entry ∈ r,
      (entry.1, (entry.2.retain fun d => (s.document? d.id).isSome).2) = entry := by
    intro entry he
    rw [DocumentSet.retain_of_all (h entry he)]
  rw [stillIn, List.map_congr_left hsame, List.map_id']

/-- When no document of the lock set has gone, no call loses any. -/
theorem stillIn_of_none_gone (h : r.gone s = 0) : r.stillIn s = r :=
  stillIn_eq_self (each_of_none_gone h)

/-- A call keeps those of its documents that are still there. -/
theorem each_stillIn (h : r.Each p) :
    (r.stillIn s).Each fun d => p d ∧ (s.document? d.id).isSome = true := by
  intro entry he d hd
  rcases List.mem_map.1 he with ⟨old, hold, rfl⟩
  rcases DocumentSet.mem_retain.1 hd with ⟨hmem, hthere⟩
  exact ⟨h old hold d hmem, hthere⟩

end Resources

/-- A call contributes nodes of documents that were found for it. -/
theorem Evaluation.mem_resourceNodes {v : Evaluation} {p : Document → Prop} (h : v.resources.Each p)
    {call : ExprId} {n : Node} (hn : Item.node n ∈ v.resourceNodes call) : p n.document := by
  unfold resourceNodes at hn
  split at hn
  · next set hset =>
    rcases List.mem_map.1 hn with ⟨m, hm, hmn⟩
    obtain rfl := Item.node.inj hmn
    have hentry : (call, set) ∈ v.resources := by
      rcases List.lookup_eq_some_iff.1 hset with ⟨l, l', hl, -⟩
      simp [hl]
    exact h _ hentry _ (DocumentSet.mem_toNodeSet hm)
  · simp at hn

end Query
end DocBase
