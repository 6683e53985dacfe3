import DocBase.Proofs.Document.Locking
import DocBase.Proofs.Query.Found
import DocBase.Proofs.Query.Plain
import DocBase.Proofs.Store.Custody
/-!
# What a subject may not read does not show

When permissions are checked, the answer to a query depends on the collections and on the documents
that the subject may read: on what they are, where they are filed and who holds their locks. It does
not depend on any other document: not on whether there is one, where it is filed or whether another
thread is about to remove it. Main statements:

* `Store.answer_execute` — what a query answers while no other thread moves;
* `Store.AgreeFor.resources` — over stores that agree for a subject it finds the same documents;
* `execute_hidden` — and it gives the same answer;
* `recheck_hidden` — and if it has to wait, it is evaluated on the same documents.
-/

namespace DocBase

open Query

/-! ## What a query answers -/

/-- The first document of a set that another thread writes is waited for; if there is none all are
locked. -/
theorem DocumentSet.lock_read (set : DocumentSet) (options : Lock.Options) (me : Thread)
    (t : Lock.Table) :
    (set.lock .read options me t).1 =
      match set.documents.find? fun d => !(t d.lock).canRead me with
      | some d => .error (.timeout d.lock.document .read)
      | none => .ok ⟨.read, set.locks.reverse⟩ := by
  have hresult := set.lock_result .read options me t
  simp only [Lock.State.denial_read] at hresult
  exact hresult

namespace Store

/-- What a query answers that has found its documents: it waits in vain for the first of them that
another thread writes, or has the value of its evaluation. -/
def answer (s : Store) (q : CompiledQuery) (dynamic : DynamicContext) (me : Thread) (r : Resources) :
    Except QueryError Sequence :=
  match r.documents.documents.find? fun d => !(s.locks d.lock).canRead me with
  | some d => .error (.lock (.timeout d.lock.document .read))
  | none => Evaluation.run ⟨q.tree, dynamic, r⟩

/-- While no other thread moves, a query finds its documents and answers. -/
theorem answer_execute (s : Store) (q : CompiledQuery) (subject : Subject) (dynamic : DynamicContext)
    (me : Thread) :
    (s.execute q subject dynamic me).1 =
      (q.resources ⟨s, subject, dynamic⟩).bind (s.answer q dynamic me) := by
  cases hfound : q.resources ⟨s, subject, dynamic⟩ with
  | error e =>
    rw [execute_of_resources_error hfound]
    rfl
  | ok r =>
    -- while no other thread moves no document goes
    have hthere : r.Each fun d => (s.document? d.id).isSome = true :=
      (each_of_resourcesAmong hfound).imp fun d hd => Keyed.isSome_find?.2 ⟨d, hd.1, rfl⟩
    have hstill : ∀ locks registry, r.stillIn { s with locks, registry } = r :=
      fun _ _ => Resources.stillIn_eq_self hthere
    have hlock := r.documents.lock_read s.options me s.locks
    rcases hrun : r.documents.lock .read s.options me s.locks with ⟨outcome, locks⟩
    have hacquire : (r.documents.acquisition .read).run s.options me s.locks = (outcome, locks) :=
      hrun
    rw [hrun] at hlock
    simp only [execute, beginQuery, hfound, hacquire, Except.bind, answer]
    -- locking fails at the first document that another thread writes, and otherwise succeeds
    cases hblocked : r.documents.documents.find? fun d => !(s.locks d.lock).canRead me with
    | some d =>
      rw [hblocked] at hlock
      obtain rfl : outcome = _ := hlock
      rfl
    | none =>
      rw [hblocked] at hlock
      obtain rfl : outcome = _ := hlock
      have hreleased := Lock.Acquisition.unlock_result hacquire
      simp only [finishQuery, Execution.value, hstill, hreleased]
      cases Evaluation.run ⟨q.tree, dynamic, r⟩ <;> rfl

/-! ## What a subject sees of a store -/

/-- The documents that a subject may read. -/
def readable (s : Store) (subject : Subject) : List Document :=
  (s.documents.filter (·.readableBy subject)).map Document.plain

/-- The document that is filed under a path, if the subject may read it. -/
def readableAt? (s : Store) (subject : Subject) (path : String) : Option Document :=
  (((s.filed? path).bind s.document?).filter (·.readableBy subject)).map Document.plain

/-- Two stores have the same collections, and the documents that the subject may read are the same
in both, are filed under the same paths and have their locks held by the same threads. Nothing is
said of other documents. -/
structure AgreeFor (s₁ s₂ : Store) (subject : Subject) : Prop where
  collections_eq : s₁.collections = s₂.collections
  readable_eq : s₁.readable subject = s₂.readable subject
  readableAt?_eq : ∀ path, s₁.readableAt? subject path = s₂.readableAt? subject path
  locks_eq : ∀ d₁ ∈ s₁.documents, ∀ d₂ ∈ s₂.documents, d₁.readableBy subject = true →
    d₁.plain = d₂.plain → s₁.locks d₁.lock = s₂.locks d₂.lock

variable {s s₁ s₂ : Store} {subject : Subject}

/-- In a consistent store a document is filed under its uri and nowhere else. -/
theorem Consistent.bind_filed?_iff (h : s.Consistent) {path : String} {d : Document} :
    (s.filed? path).bind s.document? = some d ↔ d ∈ s.documents ∧ d.uri = path := by
  constructor
  · intro hd
    rcases Option.bind_eq_some_iff.1 hd with ⟨id, hfiled, hid⟩
    rcases (h.filed_iff path id).1 hfiled with ⟨e, he, huri⟩
    obtain rfl : d = e := Option.some.inj (hid.symm.trans he)
    exact ⟨(Keyed.mem_of_find? hid).1, huri⟩
  · rintro ⟨hmem, rfl⟩
    have hd := h.document?_of_mem hmem
    rw [h.filed?_of_document? hd, Option.bind_some, hd]

/-- So its documents say what a subject finds at a path. -/
theorem Consistent.readableAt?_eq (h : s.Consistent) (subject : Subject) (path : String) :
    s.readableAt? subject path = (s.readable subject).find? fun d => d.uri = path := by
  have hfind : (s.readable subject).find? (fun d => d.uri = path) =
      ((s.documents.filter (·.readableBy subject)).find? fun d => d.uri = path).map Document.plain :=
    List.find?_map ..
  rw [hfind, readableAt?]
  -- to look among what may be read, or to look everywhere and ask then: it is the same
  congr 1
  cases hfound : (s.documents.filter (·.readableBy subject)).find? fun d => d.uri = path with
  | some d =>
    have huri : d.uri = path := by simpa using List.find?_some hfound
    rcases List.mem_filter.1 (List.mem_of_find?_eq_some hfound) with ⟨hmem, hreadable⟩
    rw [h.bind_filed?_iff.2 ⟨hmem, huri⟩, Option.filter_some, if_pos hreadable]
  | none =>
    rw [Option.filter_eq_none_iff]
    intro d hd hreadable
    rcases h.bind_filed?_iff.1 hd with ⟨hmem, huri⟩
    have hother := List.find?_eq_none.1 hfound d (List.mem_filter.2 ⟨hmem, hreadable⟩)
    exact hother (decide_eq_true huri)

/-- Consistent stores agree for a subject if their collections, the documents that the subject may
read and the holders of their locks are the same. -/
theorem AgreeFor.of_consistent (h₁ : s₁.Consistent) (h₂ : s₂.Consistent)
    (collections : s₁.collections = s₂.collections)
    (readable : s₁.readable subject = s₂.readable subject)
    (locks : ∀ d₁ ∈ s₁.documents, ∀ d₂ ∈ s₂.documents, d₁.readableBy subject = true →
      d₁.plain = d₂.plain → s₁.locks d₁.lock = s₂.locks d₂.lock) :
    s₁.AgreeFor s₂ subject where
  collections_eq := collections
  readable_eq := readable
  readableAt?_eq path := by
    rw [h₁.readableAt?_eq subject path, h₂.readableAt?_eq subject path, readable]
  locks_eq := locks

/-! ## Finding documents -/

/-- Of the documents in a collection, those that are visible are told from what the subject sees. -/
theorem visible_plain (s : Store) (subject : Subject) (uri : CollectionUri) :
    (((s.documentsIn uri true).filter fun d => collectionReadable d subject).filter
        (·.readableBy subject)).map Document.plain =
      (s.readable subject).filter fun d =>
        (d.collection.any fun c => c.uri.within uri) && collectionReadable d subject := by
  rw [documentsIn, readable, List.filter_map, List.filter_filter, List.filter_filter,
    List.filter_filter]
  congr 2
  funext d
  show _ = ((_ && collectionReadable d subject) && d.readableBy subject)
  rw [Bool.and_comm, Bool.and_comm (d.readableBy subject), ← Bool.and_assoc]
  rfl

/-- A subject finds in a collection what it sees of it. -/
theorem collectionDocuments_plain (s : Store) (subject : Subject) (uri : CollectionUri) :
    (s.collectionDocuments subject uri true).map DocumentSet.plain =
      match s.collection? uri with
      | none => .error (.collectionNotFound uri)
      | some c =>
        if c.permission.readableBy subject then
          .ok (DocumentSet.ofList ((s.readable subject).filter fun d =>
            (d.collection.any fun c => c.uri.within uri) && collectionReadable d subject))
        else .error (.readDenied subject.name uri.text) := by
  -- a collection that may not be read is told from one that is not there, in either store alike
  rw [collectionDocuments]
  cases hc : s.collection? uri with
  | none => rfl
  | some c =>
    cases hreadable : c.permission.readableBy subject with
    | false => simp [hreadable, Except.map]
    | true =>
      rw [← visible_plain, DocumentSet.ofList_plain]
      simp [hreadable, Except.map, DocumentSet.addAll, DocumentSet.ofList]

/-- A subject finds at a path what it sees there. -/
theorem readableDocument_plain (s : Store) (subject : Subject) (path : String) :
    (s.readableDocument subject path true).map (Option.map Document.plain) =
      (Path.parse path).map fun p => s.readableAt? subject p.text := by
  rw [readableDocument, documentAt?]
  cases Path.parse path with
  | error e => rfl
  | ok p => rfl

end Store

/-- What shows the same is the same error, or two values that show the same. -/
theorem error_or_ok_of_map_eq {ε α β : Type} {x y : Except ε α} {p : α → β} (h : x.map p = y.map p) :
    (∃ e, x = .error e ∧ y = .error e) ∨ ∃ a b, x = .ok a ∧ y = .ok b ∧ p a = p b := by
  cases x with
  | error e =>
    cases y with
    | error e' => exact .inl ⟨e, rfl, congrArg Except.error (Except.error.inj h).symm⟩
    | ok b => simp [Except.map] at h
  | ok a =>
    cases y with
    | error e' => simp [Except.map] at h
    | ok b => exact .inr ⟨a, b, rfl, rfl, Except.ok.inj h⟩

/-- It is nothing in both cases, or two things that show the same. -/
theorem none_or_some_of_map_eq {α β : Type} {x y : Option α} {p : α → β} (h : x.map p = y.map p) :
    (x = none ∧ y = none) ∨ ∃ a b, x = some a ∧ y = some b ∧ p a = p b := by
  cases x with
  | none => exact .inl ⟨rfl, Option.map_eq_none_iff.1 h.symm⟩
  | some a =>
    rcases Option.map_eq_some_iff.1 h.symm with ⟨b, hb, hab⟩
    exact .inr ⟨a, b, rfl, hb, hab.symm⟩

namespace Query

/-- Two views under which every collection and every path shows the same. -/
structure View.Alike (v v' : View) : Prop where
  dynamic_eq : v.dynamic = v'.dynamic
  collection_eq : ∀ uri,
    (v.store.collectionDocuments v.subject uri v.dynamic.checkPermissions).map DocumentSet.plain =
      (v'.store.collectionDocuments v'.subject uri v'.dynamic.checkPermissions).map DocumentSet.plain
  document_eq : ∀ path,
    (v.xmlDocument path).map Document.plain = (v'.xmlDocument path).map Document.plain

namespace View.Alike

variable {v v' : View} {found found' : DocumentSet}

theorem retrieved (h : v.Alike v') {α β : Type} {r r' : Except StoreError α} {p : α → β}
    (hr : r.map p = r'.map p) :
    (v.retrieved r).map (Option.map p) = (v'.retrieved r').map (Option.map p) := by
  rcases error_or_ok_of_map_eq hr with ⟨e, rfl, rfl⟩ | ⟨a, b, rfl, rfl, hab⟩
  · rw [View.retrieved, View.retrieved, h.dynamic_eq]
  · exact congrArg (fun c => Except.ok (some c)) hab

theorem namedCollections (h : v.Alike v') (static : StaticContext) (texts : List String) :
    v.namedCollections static texts = v'.namedCollections static texts := by
  have hretrieved : ∀ r : Except StoreError CollectionUri, v.retrieved r = v'.retrieved r := by
    intro r
    cases r with
    | ok uri => rfl
    -- a failure is raised or not as the context says, which is the same for both
    | error e => rw [View.retrieved, View.retrieved, h.dynamic_eq]
  have huris : ∀ texts, v.uris texts = v'.uris texts := by
    intro texts
    induction texts with
    | nil => rfl
    | cons text texts ih => rw [View.uris, View.uris, hretrieved, ih]
  unfold View.namedCollections
  split
  · rfl
  · rfl
  · exact huris _

/-- The documents of collections, added to what shows the same, show the same. -/
theorem addCollections (h : v.Alike v') (uris : List CollectionUri)
    (hfound : found.plain = found'.plain) :
    (v.addCollections uris found).map DocumentSet.plain =
      (v'.addCollections uris found').map DocumentSet.plain := by
  induction uris generalizing found found' with
  | nil => exact congrArg Except.ok hfound
  | cons uri uris ih =>
    rcases error_or_ok_of_map_eq (h.retrieved (h.collection_eq uri)) with
      ⟨e, he, he'⟩ | ⟨more, more', hmore, hmore', hsame⟩
    · simp only [View.addCollections, he, he']
    · simp only [View.addCollections, hmore, hmore']
      apply ih
      rcases none_or_some_of_map_eq hsame with ⟨rfl, rfl⟩ | ⟨set, set', rfl, rfl, hset⟩
      · exact hfound
      · show (found.extendFrom set).plain = (found'.extendFrom set').plain
        rw [← DocumentSet.extendFrom_plain, ← DocumentSet.extendFrom_plain, hfound, hset]

/-- The documents at paths, added to what shows the same, show the same. -/
theorem addDocuments (h : v.Alike v') (paths : List String) (hfound : found.plain = found'.plain) :
    (v.addDocuments paths found).map DocumentSet.plain =
      (v'.addDocuments paths found').map DocumentSet.plain := by
  induction paths generalizing found found' with
  | nil => exact congrArg Except.ok hfound
  | cons path paths ih =>
    rcases error_or_ok_of_map_eq (h.retrieved (h.document_eq path)) with
      ⟨e, he, he'⟩ | ⟨one, one', hone, hone', hsame⟩
    · simp only [View.addDocuments, he, he']
    · simp only [View.addDocuments, hone, hone']
      apply ih
      rcases none_or_some_of_map_eq hsame with ⟨rfl, rfl⟩ | ⟨d, d', rfl, rfl, hd⟩
      · exact hfound
      · show (found.add d).2.plain = (found'.add d').2.plain
        rw [← DocumentSet.add_plain, ← DocumentSet.add_plain, hfound, hd]

theorem addressed (h : v.Alike v') (static : StaticContext) (f : Builtin) (texts : List String) :
    (v.addressed static f texts).map DocumentSet.plain =
      (v'.addressed static f texts).map DocumentSet.plain := by
  unfold View.addressed
  split
  · exact h.addDocuments texts rfl
  · rw [h.namedCollections]
    cases v'.namedCollections static texts with
    | error e => rfl
    | ok uris => exact h.addCollections uris rfl

/-- What is found under views that are alike shows the same. -/
theorem resourcesAmong (h : v.Alike v') (q : CompiledQuery) (calls : List ExprId) :
    (resourcesAmong v q calls).map Resources.plain =
      (Query.resourcesAmong v' q calls).map Resources.plain := by
  induction calls with
  | nil => rfl
  | cons call calls ih =>
    simp only [Query.resourcesAmong]
    split
    · next f arguments _ =>
      -- a call that reads no documents adds nothing to either
      split
      · cases literalTexts q.tree arguments with
        | error e => rfl
        | ok texts =>
          rcases error_or_ok_of_map_eq (h.addressed q.static f texts) with
            ⟨e, he, he'⟩ | ⟨set, set', hset, hset', hsame⟩
          · simp only [Except.bind, he, he']
          · simp only [Except.bind, hset, hset']
            rcases error_or_ok_of_map_eq ih with ⟨e, he, he'⟩ | ⟨r, r', hr, hr', hothers⟩
            · rw [he, he']
              rfl
            · rw [hr, hr']
              exact congrArg₂ (fun set others => Except.ok ((call, set) :: others)) hsame hothers
      · exact ih
    · exact ih

end View.Alike
/-- The lock set of a query shows what the documents of its calls show. -/
theorem Resources.documents_plain (r : Resources) : r.plain.documents = r.documents.plain := by
  have hfold : ∀ all : DocumentSet,
      r.plain.foldl (fun all entry => all.extendFrom entry.2) all.plain =
        (r.foldl (fun all entry => all.extendFrom entry.2) all).plain := by
    induction r with
    | nil => exact fun all => rfl
    | cons entry r ih =>
      intro all
      show (Resources.plain r).foldl _ (all.plain.extendFrom entry.2.plain) = _
      rw [DocumentSet.extendFrom_plain, ih]
      rfl
  exact hfold {}

end Query

/-! ## Stores that agree for a subject -/

namespace Store.AgreeFor

variable {s₁ s₂ : Store} {subject : Subject} {dynamic : DynamicContext}

/-- A subject has the same view of both stores. -/
theorem alike (h : s₁.AgreeFor s₂ subject) (check : dynamic.checkPermissions = true) :
    View.Alike ⟨s₁, subject, dynamic⟩ ⟨s₂, subject, dynamic⟩ where
  dynamic_eq := rfl
  collection_eq uri := by
    have hcollection : s₁.collection? uri = s₂.collection? uri := by
      rw [collection?, collection?, h.collections_eq]
    simp only [check, collectionDocuments_plain, hcollection, h.readable_eq]
  document_eq path := by
    have hdocument : (s₁.readableDocument subject path true).map (Option.map Document.plain) =
        (s₂.readableDocument subject path true).map (Option.map Document.plain) := by
      simp only [readableDocument_plain, h.readableAt?_eq]
    simp only [View.xmlDocument, check]
    -- either both answer with the same error, or both with documents that look the same
    rcases error_or_ok_of_map_eq hdocument with ⟨e, he, he'⟩ | ⟨one, one', hone, hone', hsame⟩
    · rw [he, he']
    · rw [hone, hone']
      rcases none_or_some_of_map_eq hsame with ⟨rfl, rfl⟩ | ⟨d, d', rfl, rfl, hd⟩
      · rfl
      · have hxml : d.isXml = d'.isXml :=
          show d.plain.isXml = d'.plain.isXml from congrArg Document.isXml hd
        cases hx : d'.isXml <;> simp [hxml, hx, Except.map, hd]

/-- A query finds the same documents in both stores. -/
theorem resources (h : s₁.AgreeFor s₂ subject) (check : dynamic.checkPermissions = true)
    (q : CompiledQuery) :
    (q.resources ⟨s₁, subject, dynamic⟩).map Resources.plain =
      (q.resources ⟨s₂, subject, dynamic⟩).map Resources.plain :=
  (h.alike check).resourcesAmong q q.tree.reachable

end Store.AgreeFor

open Store

/-- Members that show the same, of which those are kept that pass a test that cannot tell them
apart. -/
theorem filter_agree {α β : Type} {f : α → β} {l l' : List α} {p p' : α → Bool}
    (h : l.map f = l'.map f) (hp : ∀ a ∈ l, ∀ b ∈ l', f a = f b → p a = p' b) :
    (l.filter p).map f = (l'.filter p').map f := by
  induction l generalizing l' with
  | nil =>
    obtain rfl : l' = [] := List.map_eq_nil_iff.1 h.symm
    rfl
  | cons a l ih =>
    match l' with
    | [] => simp at h
    | b :: l' =>
      obtain ⟨hab, hrest⟩ := List.cons.inj h
      -- the first two look the same, so both are kept or neither is
      have hfirst := hp a List.mem_cons_self b List.mem_cons_self hab
      have hothers := ih hrest fun a ha b hb =>
        hp a (List.mem_cons_of_mem _ ha) b (List.mem_cons_of_mem _ hb)
      rw [List.filter_cons, List.filter_cons, hfirst]
      cases p' b with
      | true => exact congrArg₂ List.cons hab hothers
      | false => exact hothers

/-- The first member that passes the test. -/
theorem find?_agree {α β : Type} {f : α → β} {l l' : List α} {p p' : α → Bool}
    (h : l.map f = l'.map f) (hp : ∀ a ∈ l, ∀ b ∈ l', f a = f b → p a = p' b) :
    (l.find? p).map f = (l'.find? p').map f := by
  rw [← List.head?_filter, ← List.head?_filter, ← List.head?_map, ← List.head?_map,
    filter_agree h hp]

namespace Store.AgreeFor

variable {s₁ s₂ : Store} {subject : Subject} {dynamic : DynamicContext} {q : CompiledQuery}
  {r r' : Resources}

/-- Documents that show the same and that the subject may read are locked in both stores or are both
kept from being locked by the same one of them. -/
theorem written (h : s₁.AgreeFor s₂ subject) (check : dynamic.checkPermissions = true)
    (hr : q.resources ⟨s₁, subject, dynamic⟩ = .ok r)
    (hr' : q.resources ⟨s₂, subject, dynamic⟩ = .ok r')
    (hsame : Resources.plain r = Resources.plain r') (me : Thread) :
    (r.documents.documents.find? fun d => !(s₁.locks d.lock).canRead me).map Document.plain =
      (r'.documents.documents.find? fun d => !(s₂.locks d.lock).canRead me).map Document.plain := by
  have hdocuments : r.documents.plain = r'.documents.plain := by
    rw [← r.documents_plain, ← r'.documents_plain, hsame]
  apply find?_agree (congrArg DocumentSet.documents hdocuments)
  intro d hd d' hd' hplain
  rcases Resources.mem_documents hd with ⟨entry, hentry, hmem⟩
  rcases Resources.mem_documents hd' with ⟨entry', hentry', hmem'⟩
  rcases each_of_resourcesAmong hr entry hentry d hmem with ⟨hthere, hreadable⟩
  have hthere' := (each_of_resourcesAmong hr' entry' hentry' d' hmem').1
  rw [h.locks_eq d hthere d' hthere' (hreadable check) hplain]

end Store.AgreeFor

/-- A text is compiled to a query of which one thing can be tested and another holds in any case. -/
theorem exists_of_compile_any {source : String} {static : StaticContext} {p r : CompiledQuery → Prop}
    [DecidablePred p] (h : (compile source static).toOption.any (fun q => p q) = true)
    (hr : ∀ q, compile source static = .ok q → r q) :
    ∃ q, compile source static = .ok q ∧ p q ∧ r q := by
  cases hq : compile source static with
  | error e =>
    rw [hq] at h
    simp [Except.toOption] at h
  | ok q =>
    rw [hq] at h
    exact ⟨q, rfl, of_decide_eq_true h, hr q hq⟩

/-- When permissions are checked, documents that the subject may not read do not show in the answer
to a query: over stores that agree for the subject the query has the same value or fails with the
same error. -/
theorem execute_hidden {source : String} {static : StaticContext} {q : CompiledQuery}
    {s₁ s₂ : Store} {subject : Subject} {dynamic : DynamicContext}
    (compiled : compile source static = .ok q) (check : dynamic.checkPermissions = true)
    (agree : s₁.AgreeFor s₂ subject) (me : Thread) :
    (s₁.execute q subject dynamic me).1.map plainItems =
      (s₂.execute q subject dynamic me).1.map plainItems := by
  rw [answer_execute, answer_execute]
  rcases error_or_ok_of_map_eq (agree.resources check q) with
    ⟨e, he, he'⟩ | ⟨r, r', hr, hr', hsame⟩
  · -- no call could be resolved, and the error is the same
    rw [he, he']
    rfl
  · rw [hr, hr']
    show (s₁.answer q dynamic me r).map plainItems = (s₂.answer q dynamic me r').map plainItems
    have hwritten := agree.written check hr hr' hsame me
    have hvalue : (Evaluation.run ⟨q.tree, dynamic, r⟩).map plainItems =
        (Evaluation.run ⟨q.tree, dynamic, r'⟩).map plainItems := by
      rw [run_plain compiled, run_plain compiled, hsame]
    unfold answer
    generalize (r.documents.documents.find? _) = written at hwritten ⊢
    generalize (r'.documents.documents.find? _) = written' at hwritten ⊢
    -- no document is in the way, or one that the subject may read is
    rcases none_or_some_of_map_eq hwritten with ⟨rfl, rfl⟩ | ⟨d, d', rfl, rfl, hd⟩
    · exact hvalue
    · have hid : d.plain.lock.document = d'.plain.lock.document :=
        congrArg (fun d => d.lock.document) hd
      exact congrArg (fun id => Except.error (QueryError.lock (.timeout id .read))) hid

/-- One store has a document that only administrators may read and that another thread is about to
remove; the other store has no such document. A guest who asks for this document and for the number
of all documents is told that there is one. -/
theorem execute_hidden_removal_pending :
    ∃ s₁ s₂ : Store, (∀ d ∈ s₁.documents, d.uri = "/db/x.xml") ∧
      (∃ d ∈ s₂.documents, d.uri = "/db/secret.xml" ∧ d.readableBy Subject.guest = false ∧
        (s₂.locks d.lock).canRead "q" = false) ∧
      s₁.AgreeFor s₂ Subject.guest ∧
      ∃ q, compile "(doc('/db/secret.xml'), count(collection('/db')))" {} = .ok q ∧
        (s₂.execute q Subject.guest {} "q").1.toOption.map (List.map Item.atomize) =
          some [.integer 1] ∧
        (s₁.execute q Subject.guest {} "q").1.map plainItems =
          (s₂.execute q Subject.guest {} "q").1.map plainItems := by
  -- a document the guest may read, and one that nobody else may, which is just being removed
  have one : Traffic.Reachable {} _ := .step .start
    (@Traffic.Step.storeDocument "c" _ "/db/x.xml" .xml Store.rootPermission _ _ rfl rfl)
  have two := one.step (@Traffic.Step.storeDocument "c" _ "/db/secret.xml" .xml
    (.ofMode adminUser adminGroup 0o600) _ _ rfl rfl)
  have removing := two.step (@Traffic.Step.beginRemoval "a" _ "/db/secret.xml" _ _ rfl rfl)
  have writing := removing.step (.acquire (t := "a") rfl rfl)
  have consistent₁ := (Traffic.custody_of_reachable one (by decide)).consistent
  have consistent₂ := (Traffic.custody_of_reachable writing (by decide)).consistent
  have agree := @Store.AgreeFor.of_consistent _ _ Subject.guest consistent₁ consistent₂ rfl rfl
    (by decide +kernel)
  refine ⟨_, _, by decide +kernel, by decide +kernel, agree, ?_⟩
  apply exists_of_compile_any (by decide +kernel)
  intro q hq
  exact execute_hidden hq rfl agree "q"

/-! ## Looking again -/

theorem DocumentSet.collectionsOf_plain (l : List Document) :
    collectionsOf (l.map Document.plain) = collectionsOf l := by
  rw [collectionsOf, List.filterMap_map]
  rfl

/-- Sets that show the same, of which those documents are kept that pass a test that cannot tell
them apart. -/
theorem DocumentSet.retain_agree {set set' : DocumentSet} {keep keep' : Document → Bool}
    (h : set.plain = set'.plain)
    (hkeep : ∀ d ∈ set.documents, ∀ d' ∈ set'.documents, d.plain = d'.plain → keep d = keep' d') :
    (set.retain keep).2.plain = (set'.retain keep').2.plain := by
  have hdocuments : set.documents.map Document.plain = set'.documents.map Document.plain :=
    congrArg DocumentSet.documents h
  have hkept := filter_agree hdocuments hkeep
  have hlength : set.documents.length = set'.documents.length := by
    rw [← List.length_map Document.plain, hdocuments, List.length_map]
  have hsame : (set.documents.filter keep).length = (set'.documents.filter keep').length := by
    rw [← List.length_map Document.plain, hkept, List.length_map]
  have hcollections : collectionsOf (set.documents.filter keep) =
      collectionsOf (set'.documents.filter keep') := by
    rw [← collectionsOf_plain, hkept, collectionsOf_plain]
  simp only [retain, hlength, hsame]
  split
  · exact h
  · rw [plain, plain, hkept, hcollections]

namespace Store.AgreeFor

variable {s₁ s₂ : Store} {subject : Subject} {stored₁ stored₂ : List Document} {d : Document}

theorem symm (h : s₁.AgreeFor s₂ subject) : s₂.AgreeFor s₁ subject where
  collections_eq := h.collections_eq.symm
  readable_eq := h.readable_eq.symm
  readableAt?_eq path := (h.readableAt?_eq path).symm
  locks_eq d₂ hd₂ d₁ hd₁ hreadable hplain := by
    have hpermission : d₂.permission = d₁.permission :=
      show d₂.plain.permission = d₁.plain.permission from congrArg Document.permission hplain
    rw [Document.readableBy, hpermission] at hreadable
    exact (h.locks_eq d₁ hd₁ d₂ hd₂ hreadable hplain.symm).symm

/-- A readable document that is still there is still there in the other store. -/
theorem isSome_document? (h : s₁.AgreeFor s₂ subject) (numbered : s₁.Numbered stored₁)
    (hd : d ∈ stored₁) (hreadable : d.readableBy subject = true)
    (hthere : (s₁.document? d.id).isSome = true) : (s₂.document? d.id).isSome = true := by
  rcases Option.isSome_iff_exists.1 hthere with ⟨e, he⟩
  obtain rfl := numbered.document?_eq hd he
  have hmem : e ∈ s₁.documents.filter (·.readableBy subject) :=
    List.mem_filter.2 ⟨(Keyed.mem_of_find? he).1, hreadable⟩
  have hseen : e.plain ∈ s₁.readable subject := List.mem_map_of_mem hmem
  rw [h.readable_eq] at hseen
  rcases List.mem_map.1 hseen with ⟨f, hf, hsame⟩
  have hid : f.id = e.id := show f.plain.id = e.plain.id from congrArg Document.id hsame
  exact Keyed.isSome_find?.2 ⟨f, (List.mem_filter.1 hf).1, hid⟩

end Store.AgreeFor

/-- Calls that show the same, of whose documents those are left that are still there. -/
theorem Query.Resources.stillIn_agree {s₁ s₂ : Store} {r r' : Resources} {p p' : Document → Prop}
    (h : Resources.plain r = Resources.plain r') (hr : r.Each p) (hr' : r'.Each p')
    (hthere : ∀ d d' : Document, p d → p' d' → d.plain = d'.plain →
      (s₁.document? d.id).isSome = (s₂.document? d'.id).isSome) :
    Resources.plain (r.stillIn s₁) = Resources.plain (r'.stillIn s₂) := by
  induction r generalizing r' with
  | nil =>
    obtain rfl : r' = [] := List.map_eq_nil_iff.1 h.symm
    rfl
  | cons entry r ih =>
    -- equal lists of calls are gone through side by side
    match r' with
    | [] => simp [Resources.plain] at h
    | entry' :: r' =>
      obtain ⟨hentry, hrest⟩ := List.cons.inj h
      obtain ⟨hcall, hset⟩ := Prod.mk.inj hentry
      have hfirst := DocumentSet.retain_agree hset fun d hd d' hd' =>
        hthere d d' (hr entry List.mem_cons_self d hd) (hr' entry' List.mem_cons_self d' hd')
      have hothers := ih hrest (fun e he => hr e (List.mem_cons_of_mem _ he))
        fun e he => hr' e (List.mem_cons_of_mem _ he)
      exact congrArg₂ List.cons (congrArg₂ Prod.mk hcall hfirst) hothers

/-- Nor do they show when a query has waited for its locks and looks which of its documents are
still there: if the stores, whatever they have become, agree for the subject again, the query is
evaluated on the same documents. -/
theorem recheck_hidden {source : String} {static : StaticContext} {q : CompiledQuery}
    {s₁ s₂ s₁' s₂' : Store} {subject : Subject} {dynamic : DynamicContext} {r₁ r₂ : Resources}
    {stored₁ stored₂ : List Document}
    (compiled : compile source static = .ok q) (check : dynamic.checkPermissions = true)
    (agree : s₁.AgreeFor s₂ subject) (found₁ : q.resources ⟨s₁, subject, dynamic⟩ = .ok r₁)
    (found₂ : q.resources ⟨s₂, subject, dynamic⟩ = .ok r₂)
    (numbered₁ : s₁'.Numbered stored₁) (known₁ : ∀ d ∈ s₁.documents, d ∈ stored₁)
    (numbered₂ : s₂'.Numbered stored₂) (known₂ : ∀ d ∈ s₂.documents, d ∈ stored₂)
    (again : s₁'.AgreeFor s₂' subject) :
    (Evaluation.run ⟨q.tree, dynamic, r₁.stillIn s₁'⟩).map plainItems =
      (Evaluation.run ⟨q.tree, dynamic, r₂.stillIn s₂'⟩).map plainItems := by
  have hsame : Resources.plain r₁ = Resources.plain r₂ := by
    have hfound := agree.resources check q
    rw [found₁, found₂] at hfound
    exact Except.ok.inj hfound
  have hstill : Resources.plain (r₁.stillIn s₁') = Resources.plain (r₂.stillIn s₂') := by
    have hshows₁ := each_of_resourcesAmong found₁
    have hshows₂ := each_of_resourcesAmong found₂
    apply Resources.stillIn_agree hsame hshows₁ hshows₂
    intro d d' hd hd' hplain
    have hid : d.id = d'.id := show d.plain.id = d'.plain.id from congrArg Document.id hplain
    -- a document is gone from both stores or from neither, as it was readable in both
    rw [Bool.eq_iff_iff]
    constructor
    · intro hthere
      rw [← hid]
      exact again.isSome_document? numbered₁ (known₁ d hd.1) (hd.2 check) hthere
    · intro hthere
      rw [hid]
      exact again.symm.isSome_document? numbered₂ (known₂ d' hd'.1) (hd'.2 check) hthere
  rw [run_plain compiled, run_plain compiled, hstill]

end DocBase
