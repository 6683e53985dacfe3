import DocBase.CommandLine.Command
import DocBase.Proofs.Document.Algebra
import DocBase.Proofs.Manifest
import DocBase.Proofs.Store.Visibility
import Mathlib.Data.List.Basic
/-!
# The documents of several collections

A command goes through the collections it was given and joins the documents of each with those found
so far, or keeps what they have in common. Each round makes a new set; its report is right if the
collections listed in the set keep up with its documents. Main statements:

* `DocumentsReport.tells_ofSet` and `DocumentsReport.Tells.unique` — a report says what it should of
  its documents, and there is one report that does;
* `DocumentsArguments.Gathered.join` and `DocumentsArguments.exists_gather` — what one round keeps,
  and what is found in the end;
* `DocumentsArguments.exact_of_run` — the documents that a command reports.
-/

namespace DocBase.CommandLine

variable {s : DocumentSet} {docs : List Document}

/-- A store that was loaded was built from a manifest. -/
theorem orderly_of_loadStore {files : Files} {settings : Settings} {path : String}
    {store : Store} (h : loadStore files settings path = .ok store) : store.Orderly := by
  -- the file is there, it reads as a manifest, and the manifest can be built
  unfold loadStore at h
  cases hfile : files path with
  | none => simp [hfile] at h
  | some text =>
    cases hparse : Manifest.parse text with
    | error e => simp [hfile, hparse, Except.bind, Except.mapError] at h
    | ok m =>
      cases hbuild : m.build settings with
      | error e => simp [hfile, hparse, hbuild, Except.bind, Except.mapError] at h
      | ok s =>
        simp only [hfile, hparse, hbuild, Except.bind, Except.mapError, Except.ok.injEq] at h
        rw [← h]
        exact Manifest.orderly_of_build hbuild

/-! ## Reports -/

/-- The report counts these documents, lists them as they stand here, names the least and the
greatest of their ids and, each once and in order, the uris of the collections they are in. -/
structure DocumentsReport.Tells (r : DocumentsReport) (docs : List Document) : Prop where
  count_eq : r.count = docs.length
  documents_eq : r.documents = docs.map Document.uri
  minId_iff : ∀ id, r.minId = some id ↔ (∃ d ∈ docs, d.id = id) ∧ ∀ d ∈ docs, id ≤ d.id
  maxId_iff : ∀ id, r.maxId = some id ↔ (∃ d ∈ docs, d.id = id) ∧ ∀ d ∈ docs, d.id ≤ id
  collections_ascending : r.collections.Pairwise (· < ·)
  mem_collections_iff : ∀ text, text ∈ r.collections ↔
    ∃ d ∈ docs, ∃ c, d.collection = some c ∧ c.uri.text = text

namespace DocumentsReport

/-- The report on a set tells of its documents. -/
theorem tells_ofSet (h : s.Faithful) : (ofSet s).Tells s.documents := by
  have hkeys : (s.collections.map Collection.key).Pairwise (· < ·) :=
    List.pairwise_map.2 h.ascending.2
  -- they stand in order before they are sorted
  have hsorted : (ofSet s).collections = s.collections.map Collection.key :=
    List.mergeSort_of_pairwise (hkeys.imp fun hlt => decide_eq_true (Std.le_of_lt hlt))
  constructor
  · rfl
  · rfl
  · -- the first document has the smallest id, and the last one the largest
    intro id
    rw [← DocumentSet.contains_iff]
    exact DocumentSet.minId?_eq_some h.ascending
  · intro id
    rw [← DocumentSet.contains_iff]
    exact DocumentSet.maxId?_eq_some h.ascending
  · rwa [hsorted]
  · intro text
    rw [hsorted, List.mem_map]
    exact h.listed_iff text

/-- What is told of some documents leaves nothing open. -/
theorem Tells.unique {r r' : DocumentsReport} (h : r.Tells docs) (h' : r'.Tells docs) : r = r' := by
  have hmin : r.minId = r'.minId := Option.ext fun id => (h.minId_iff id).trans (h'.minId_iff id).symm
  have hmax : r.maxId = r'.maxId := Option.ext fun id => (h.maxId_iff id).trans (h'.maxId_iff id).symm
  have hcollections : r.collections = r'.collections := by
    have hascending : Keyed.Ascending id r.collections := h.collections_ascending
    apply Keyed.eq_of_mem_iff hascending h'.collections_ascending
    intro text
    exact (h.mem_collections_iff text).trans (h'.mem_collections_iff text).symm
  have hcount := h.count_eq.trans h'.count_eq.symm
  have hdocuments := h.documents_eq.trans h'.documents_eq.symm
  cases r
  cases r'
  simp_all

end DocumentsReport

namespace DocumentsArguments

variable {d : DocumentsArguments} {store : Store} {user : Subject} {check : Bool}
  {through rest texts : List String} {more : DocumentSet}

/-! ## What is looked for -/

/-- The text names a collection that can be retrieved, and these are its documents. -/
def Yields (store : Store) (user : Subject) (check : Bool) (text : String) (set : DocumentSet) :
    Prop :=
  ∃ uri, CollectionUri.parse text = .ok uri ∧ store.collectionDocuments user uri check = .ok set

/-- The document is among those that this text yields. -/
def Shows (store : Store) (user : Subject) (check : Bool) (text : String) (e : Document) : Prop :=
  ∃ set, Yields store user check text set ∧ e ∈ set.documents

/-- A command wants the documents that all texts show, or those that some text shows. -/
def Wants (d : DocumentsArguments) (store : Store) (user : Subject) (check : Bool)
    (texts : List String) (e : Document) : Prop :=
  if d.intersect then ∀ text ∈ texts, Shows store user check text e
  else ∃ text ∈ texts, Shows store user check text e

theorem shows_iff {text : String} {e : Document} (h : Yields store user check text more) :
    Shows store user check text e ↔ e ∈ more.documents := by
  rcases h with ⟨uri, hparse, hmore⟩
  constructor
  · rintro ⟨set, ⟨uri', hparse', hset⟩, he⟩
    obtain rfl := Except.ok.inj (hparse.symm.trans hparse')
    obtain rfl := Except.ok.inj (hmore.symm.trans hset)
    exact he
  · intro he
    exact ⟨more, ⟨uri, hparse, hmore⟩, he⟩

/-- Whether a text was given once or often, first or last, does not count. -/
theorem wants_congr {texts' : List String} (h : ∀ text, text ∈ texts' ↔ text ∈ texts)
    (e : Document) : d.Wants store user check texts' e ↔ d.Wants store user check texts e := by
  simp only [Wants, h]

/-! ## Rounds -/

/-- The documents that are wanted of the texts gone through have been found, and their
collections. -/
structure Gathered (d : DocumentsArguments) (store : Store) (user : Subject) (check : Bool)
    (through : List String) (found : DocumentSet) : Prop where
  faithful : found.Faithful
  stored : ∀ e ∈ found.documents, e ∈ store.documents
  mem_iff : ∀ e, e ∈ found.documents ↔ d.Wants store user check through e

/-- What is done with the documents of one more collection. -/
def join (d : DocumentsArguments) (found more : DocumentSet) : DocumentSet :=
  if d.intersect then found.intersection more else found.union more

theorem faithful_of_yields {text : String} (h : Yields store user check text more) :
    more.Faithful := by
  rcases h with ⟨uri, -, hmore⟩
  rw [(Store.collectionDocuments_eq_ok hmore).2]
  exact DocumentSet.faithful_empty.extend _

theorem stored_of_yields (orderly : store.Orderly) {text : String}
    (h : Yields store user check text more) {e : Document} (he : e ∈ more.documents) :
    e ∈ store.documents := by
  rcases h with ⟨uri, -, hmore⟩
  exact ((orderly.mem_collectionDocuments hmore e).1 he).1

/-- The first text is taken as it is. -/
theorem gathered_singleton (d : DocumentsArguments) (orderly : store.Orderly) {text : String}
    (h : Yields store user check text more) : d.Gathered store user check [text] more where
  faithful := faithful_of_yields h
  stored _ he := stored_of_yields orderly h he
  mem_iff e := by simp [Wants, shows_iff h]

/-- Documents that are joined are those of both sets, or those that the sets share. -/
theorem mem_join_iff {found : DocumentSet} (hfound : found.Ascending) (hmore : more.Ascending)
    (hids : ∀ e ∈ found.documents ++ more.documents, ∀ e' ∈ found.documents ++ more.documents,
      e.id = e'.id → e = e') (e : Document) :
    e ∈ (d.join found more).documents ↔
      if d.intersect then e ∈ found.documents ∧ e ∈ more.documents
      else e ∈ found.documents ∨ e ∈ more.documents := by
  unfold join
  split
  · refine DocumentSet.mem_intersection_iff hfound hmore ?_
    intro a ha b hb
    exact hids a (List.mem_append_left _ ha) b (List.mem_append_right _ hb)
  · exact DocumentSet.mem_union_iff hids

theorem wants_append_singleton (text : String) (e : Document) :
    d.Wants store user check (through ++ [text]) e ↔
      if d.intersect then d.Wants store user check through e ∧ Shows store user check text e
      else d.Wants store user check through e ∨ Shows store user check text e := by
  unfold Wants
  split
  · rw [List.forall_mem_append, List.forall_mem_singleton]
  · simp only [List.mem_append, List.mem_singleton, or_and_right, exists_or, exists_eq_left]

/-- One more text is joined with those gone through. -/
theorem Gathered.join (orderly : store.Orderly) {found : DocumentSet}
    (gathered : d.Gathered store user check through found) {text : String}
    (h : Yields store user check text more) :
    d.Gathered store user check (through ++ [text]) (d.join found more) := by
  have hfaithful := faithful_of_yields h
  have hstored : ∀ e ∈ found.documents ++ more.documents, e ∈ store.documents := by
    intro e he
    rcases List.mem_append.1 he with he | he
    · exact gathered.stored e he
    · exact stored_of_yields orderly h he
  -- an id stands for one document of the store, and so for the same one in both sets
  have hmem := mem_join_iff (d := d) gathered.faithful.ascending hfaithful.ascending
    fun e he e' he' => orderly.eq_of_id (hstored e he) (hstored e' he')
  constructor
  · unfold DocumentsArguments.join
    split
    · exact gathered.faithful.intersection hfaithful
    · exact .union found more
  · -- whatever was joined was in one of the two
    intro e he
    apply hstored
    rw [hmem] at he
    rw [List.mem_append]
    split at he
    · exact .inl he.1
    · exact he
  · intro e
    rw [hmem, wants_append_singleton, gathered.mem_iff, shows_iff h]

/-- The first of the texts is not joined with anything. -/
theorem gather_cons_none {text : String} (h : Yields store user check text more) :
    d.gather store user check none (text :: rest) =
      d.gather store user check (some more) rest := by
  rcases h with ⟨uri, hparse, hmore⟩
  simp [gather, parseUri, hparse, hmore, Except.mapError, bind, Except.bind]

theorem gather_cons_some {text : String} {found : DocumentSet}
    (h : Yields store user check text more) :
    d.gather store user check (some found) (text :: rest) =
      d.gather store user check (some (d.join found more)) rest := by
  rcases h with ⟨uri, hparse, hmore⟩
  simp [gather, parseUri, hparse, hmore, Except.mapError, bind, Except.bind, join]

/-- What has been found is joined with all that comes behind it. -/
theorem gathered_gather (orderly : store.Orderly) {found : DocumentSet}
    (gathered : d.Gathered store user check through found)
    (hall : ∀ text ∈ rest, ∃ more, Yields store user check text more) :
    ∃ set, d.gather store user check (some found) rest = .ok set ∧
      d.Gathered store user check (through ++ rest) set := by
  induction rest generalizing through found with
  | nil => exact ⟨found, rfl, by rwa [List.append_nil]⟩
  | cons text rest ih =>
    rcases List.forall_mem_cons.1 hall with ⟨⟨more, hmore⟩, hrest⟩
    rcases ih (gathered.join orderly hmore) hrest with ⟨set, hset, hgathered⟩
    refine ⟨set, (gather_cons_some hmore).trans hset, ?_⟩
    rwa [List.append_assoc, List.singleton_append] at hgathered

/-- If all collections can be retrieved, the documents that are wanted are found. -/
theorem exists_gather (d : DocumentsArguments) (orderly : store.Orderly) (hne : texts ≠ [])
    (hall : ∀ text ∈ texts, ∃ more, Yields store user check text more) :
    ∃ set, d.gather store user check none texts = .ok set ∧
      d.Gathered store user check texts set := by
  cases texts with
  | nil => contradiction
  | cons text rest =>
    rcases List.forall_mem_cons.1 hall with ⟨⟨more, hmore⟩, hrest⟩
    rcases gathered_gather orderly (gathered_singleton d orderly hmore) hrest with
      ⟨set, hset, hgathered⟩
    exact ⟨set, (gather_cons_none hmore).trans hset, hgathered⟩

/-! ## Reports of commands -/

section

variable {files : Files} {settings : Settings}

/-- A command that finds its store and its user, and whose collections can all be retrieved, reports
the documents that are wanted of them. -/
theorem exists_run (hload : loadStore files settings d.store = .ok store)
    (huser : findUser store settings d.user = .ok user) (hne : d.collections ≠ [])
    (hall : ∀ text ∈ d.collections,
      ∃ set, Yields store user settings.queries.checkPermissions text set) :
    ∃ docs report, d.run files settings = .ok report ∧ report.Tells docs ∧
      Keyed.Ascending Document.id docs ∧
      ∀ e, e ∈ docs ↔ d.Wants store user settings.queries.checkPermissions d.collections e := by
  rcases exists_gather d (orderly_of_loadStore hload) hne hall with ⟨set, hset, hgathered⟩
  refine ⟨set.documents, .ofSet set, ?_, DocumentsReport.tells_ofSet hgathered.faithful,
    hgathered.faithful.ascending.1, hgathered.mem_iff⟩
  simp [run, hload, huser, hset, bind, Except.bind, pure, Except.pure]

/-- A command that finds its store and its user, and whose collections can all be retrieved, reports
those documents, each once and in ascending order of ids, that at least one of the collections shows
to the user, or, to intersect them, those that every one of them shows. The report is the same for
all commands whose texts are the same ones, in whatever order and however often they occur. -/
theorem exact_of_run (hload : loadStore files settings d.store = .ok store)
    (huser : findUser store settings d.user = .ok user) (hne : d.collections ≠ [])
    (hall : ∀ text ∈ d.collections,
      ∃ set, Yields store user settings.queries.checkPermissions text set) :
    ∃ docs report, d.run files settings = .ok report ∧ report.Tells docs ∧
      docs.Pairwise (fun e e' => e.id < e'.id) ∧
      (∀ e, e ∈ docs ↔ d.Wants store user settings.queries.checkPermissions d.collections e) ∧
      ∀ texts, (∀ text, text ∈ texts ↔ text ∈ d.collections) →
        { d with collections := texts }.run files settings = .ok report := by
  rcases exists_run hload huser hne hall with ⟨docs, report, hrun, htells, hascending, hmem⟩
  -- the same texts in another order, or some of them more than once
  refine ⟨docs, report, hrun, htells, hascending, hmem, ?_⟩
  intro texts hsame
  have hne' : texts ≠ [] := by
    rintro rfl
    have hnone : ∀ text, text ∉ d.collections := fun text h => List.not_mem_nil ((hsame text).2 h)
    exact hne (List.eq_nil_iff_forall_not_mem.2 hnone)
  have hall' := fun text h => hall text ((hsame text).1 h)
  rcases exists_run (d := { d with collections := texts }) hload huser hne' hall' with
    ⟨docs', report', hrun', htells', hascending', hmem'⟩
  -- both lists are in order, so they are equal if they have the same members
  have hdocs : docs' = docs := by
    apply Keyed.eq_of_mem_iff hascending' hascending
    intro e
    rw [hmem', hmem]
    exact wants_congr hsame e
  rw [hdocs] at htells'
  rw [hrun', htells'.unique htells]

end

/-- One collection lies within the other, and each has a document of its own. -/
def nested : Manifest where
  collections := [{ uri := "/db/a/b" }]
  documents := [{ path := "/db/a/x" }, { path := "/db/a/b/y", kind := .binary }]

/-- How it is written. -/
def nestedText : String :=
  "collections=[\x7buri=\"/db/a/b\"\x7d]\n" ++
    "documents=[\x7bpath=\"/db/a/x\"\x7d,\x7bpath=\"/db/a/b/y\",type=\"binary\"\x7d]"

def nestedFiles : Files := fun _ => some nestedText

/-- A command that asks what both collections show. -/
def shared : DocumentsArguments where
  collections := ["/db/a/b", "/db/a"]
  store := "base.toml"
  intersect := true

/-- They share the binary document, which is in one collection only; the same is told when one of
the collections is named twice and both in the other order. -/
theorem exact_of_run_nested :
    ∃ docs report, shared.run nestedFiles {} = .ok report ∧ report.Tells docs ∧
      report = ⟨1, some 2, some 2, ["/db/a/b/y"], ["/db/a/b"]⟩ ∧
      { shared with collections := ["/db/a", "/db/a/b", "/db/a"] }.run nestedFiles {} =
        .ok report := by
  have hload : loadStore nestedFiles {} shared.store =
      (nested.build {}).mapError (.manifest shared.store) := by
    have hparse : Manifest.parse nestedText = .ok nested := by decide +kernel
    simp [loadStore, nestedFiles, hparse, Except.bind]
  have hreport : shared.run nestedFiles {} =
      .ok ⟨1, some 2, some 2, ["/db/a/b/y"], ["/db/a/b"]⟩ := by
    rw [run, hload]
    decide +kernel
  -- the store has a user, and every text is the uri of a collection that may be read
  have hready : ((nested.build {}).toOption.bind fun s => (findUser s {} shared.user).toOption.map
      fun u => shared.collections.all fun text => (CollectionUri.parse text).toOption.any fun uri =>
        (s.collectionDocuments u uri true).toOption.isSome) = some true := by decide +kernel
  cases hbuild : nested.build {} with
  | error e => simp [hbuild, Except.toOption] at hready
  | ok store =>
    rw [hbuild] at hload hready
    cases huser : findUser store {} shared.user with
    | error e => simp [huser, Except.toOption] at hready
    | ok user =>
      simp only [Except.toOption, Option.bind_some, huser, Option.map_some, Option.some.injEq,
        List.all_eq_true] at hready
      have hall : ∀ text ∈ shared.collections, ∃ set, Yields store user true text set := by
        intro text htext
        have hfound := hready text htext
        cases hparse : CollectionUri.parse text with
        | error e => simp [hparse] at hfound
        | ok uri =>
          cases hset : store.collectionDocuments user uri true with
          | error e => simp [hparse, hset] at hfound
          | ok set => exact ⟨set, uri, hparse, hset⟩
      rcases exact_of_run hload huser (by decide) hall with ⟨docs, report, hrun, htells, -, -, hsame⟩
      have hreport' := Except.ok.inj (hrun.symm.trans hreport)
      refine ⟨docs, report, hrun, htells, hreport', hsame _ ?_⟩
      simp [shared, or_comm]

end DocumentsArguments
end DocBase.CommandLine
