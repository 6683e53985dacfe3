import DocBase.Proofs.Collection.Lineage
import DocBase.Proofs.Store.History
/-!
# Looking documents up by their uris

The uri of a document is made of its collection's uri and its file name, and is read as a path when
the document is looked up: blanks are cut off its ends, it is cut at its last slash, and the front
is read as the uri of a collection. The name comes out as it was. The collection does unless its
last segment ends in a blank; then another document may be found, or none. Main statements:

* `Path.parse_text` — how the text of a path is read;
* `Store.documentAt?_uri_iff` — which documents are found under their own uris;
* `History.found_by_uri` — looking up, retrieving and removing by uri after any calls.
-/

namespace DocBase

/-! ## Paths -/

/-- What may stand behind the last slash of a path. -/
structure IsFileName (s : String) : Prop where
  ne_empty : s ≠ ""
  no_slash : '/' ∉ s.toList
  tight : Text.trimEnd s.toList = s.toList

namespace Path

/-- A path that was read ends in a file name: the blanks behind it were cut off. -/
theorem isFileName_of_parse {input : String} {p : Path} (h : parse input = .ok p) :
    IsFileName p.name := by
  unfold parse at h
  split at h
  · simp at h
  · simp at h
  · next front name hne hcut =>
    rcases Text.cutLast_eq hcut with ⟨hinput, hslash⟩
    -- nothing can be cut off behind the last slash, as the text was trimmed before it was cut
    have htight : Text.trimEnd name = name := by
      have htrim : Text.trimEnd (Text.trim input.toList) = Text.trim input.toList :=
        Text.dropEndWhile_idem _ _
      rw [hinput, Text.trimEnd, Text.dropEndWhile_append_cons (by decide)] at htrim
      simpa [Text.trimEnd] using htrim
    split at h
    · obtain rfl := Except.ok.inj h
      exact ⟨by simpa using hne, by simpa using hslash, by simpa using htight⟩
    · simp at h

/-- The text of a path is cut where it was put together, and then its front is read. -/
theorem parse_text {p : Path} (h : IsFileName p.name) :
    parse p.text =
      match CollectionUri.parse p.collection.text with
      | .ok uri => .ok ⟨uri, p.name⟩
      | .error e => .error (.invalidUri e) := by
  have htext : p.text.toList = p.collection.text.toList ++ '/' :: p.name.toList := by simp [text]
  have htrim := Text.trim_slash p.collection.text.toList p.name.toList
    (.inr (by simp [CollectionUri.toList_text]))
  have hcut : Text.cutLast '/' (p.collection.text.toList ++ '/' :: p.name.toList) = some (_, _) :=
    Text.cutLast_append h.no_slash
  unfold parse
  -- the cut is at the slash before the name, so only the uri in front of it is read once more
  rw [htext, htrim, h.tight, hcut]
  split
  · next hnone => simp at hnone
  · next hempty =>
    have hname : p.name.toList = [] := by simpa using congrArg (Option.map Prod.snd) hempty
    exact absurd (by simpa using hname) h.ne_empty
  · next front name _ heq =>
    obtain ⟨rfl, rfl⟩ : p.collection.text.toList = front ∧ p.name.toList = name := by simpa using heq
    cases hread : CollectionUri.parse p.collection.text <;> simp [hread]

end Path

/-! ## The names of documents -/

namespace Store

variable {s s' : Store}

/-- Every document has a file name. -/
def Named (s : Store) : Prop := ∀ d ∈ s.documents, IsFileName d.fileName

theorem isFileName_storeDocument {path : String} {kind : ResourceKind} {permission : Permission}
    {d : Document} (h : s.storeDocument path kind permission = (.ok d, s')) :
    IsFileName d.fileName := by
  rcases placed_of_storeDocument h with ⟨⟨p, c, hp, -, -, hname, -⟩, -⟩
  rw [hname]
  exact Path.isFileName_of_parse hp

theorem Named.of_subset (h : s.Named) (hdocuments : s'.documents ⊆ s.documents) : s'.Named :=
  fun d hd => h d (hdocuments hd)

theorem Named.of_alike (h : s.Named) (alike : s.Alike s') : s'.Named := by
  refine h.of_subset ?_
  rw [alike.documents_eq]
  exact List.Subset.refl _

/-- No call gives a document anything but a file name. -/
theorem named_perform (h : s.Named) (c : Call) : (s.perform c).2.Named := by
  cases c with
  | createCollection uri permission =>
    exact h.of_alike (quiet_createCollection s uri permission).toAlike
  | storeDocument path kind permission =>
    simp only [perform]
    rcases hstore : s.storeDocument path kind permission with ⟨e | d, s₁⟩
    · -- a refused document leaves the store as it was
      have hsame := storeDocument_error (congrArg Prod.fst hstore)
      rw [hstore] at hsame
      exact (show s₁ = s from hsame) ▸ h
    · -- the new document has the name it was given, and any other was there before
      intro d' hd'
      rw [(storeDocument_eq_ok hstore).documents_eq] at hd'
      rcases Keyed.mem_insert_of_mem hd' with rfl | hd'
      · exact isFileName_storeDocument hstore
      · exact h d' hd'
  | removeDocument path me =>
    rcases s.removeDocument_keeping path me with hkeeping | ⟨d, -, hkeeping⟩
    · exact h.of_alike hkeeping.toAlike
    · exact (h.of_subset (documents_takeOut_subset s d)).of_alike hkeeping.toAlike
  | others locks registry => exact h

end Store

theorem History.named_run (options : Lock.Options) (calls : List Call) :
    (run options calls).store.Named := by
  induction calls using List.reverseRecOn with
  | nil => exact fun d hd => by simp [run, Store.create] at hd
  | append_singleton calls c ih =>
    rw [run_append_singleton]
    exact Store.named_perform ih c

/-! ## Looking up -/

namespace Store

variable {s s' : Store} {d : Document} {c : Collection}

/-- What is at a path is filed under the text of the path. -/
theorem filed?_of_documentAt? {path : String} (h : s.documentAt? path = some d) :
    ∃ p, Path.parse path = .ok p ∧ s.filed? p.text = some d.id := by
  unfold documentAt? at h
  split at h
  · next p hp =>
    rcases Option.bind_eq_some_iff.1 h with ⟨id, hfiled, hid⟩
    exact ⟨p, hp, by rw [hfiled, id_of_document? hid]⟩
  · simp at h

/-- A document is found under its own uri unless the last segment of its collection's uri ends in a
blank: then the uri is read as another path. -/
theorem documentAt?_uri_iff (consistent : s.Consistent) (hd : d ∈ s.documents)
    (hc : d.collection = some c) (hname : IsFileName d.fileName) :
    s.documentAt? d.uri = some d ↔ c.uri.Tight := by
  have hdocument := consistent.document?_of_mem hd
  have huri : d.uri = (Path.mk c.uri d.fileName).text := by simp [Document.uri, Path.text, hc]
  have hparse := Path.parse_text (p := ⟨c.uri, d.fileName⟩) hname
  rw [← huri] at hparse
  rw [← CollectionUri.parse_text_iff]
  constructor
  · intro h
    rcases filed?_of_documentAt? h with ⟨p, hp, hfiled⟩
    -- what is filed there is this document, so the path that was read is its own
    obtain ⟨e, he, heuri⟩ := (consistent.filed_iff _ _).1 hfiled
    obtain rfl := Option.some.inj (hdocument.symm.trans he)
    rw [hparse] at hp
    split at hp
    · next uri hread =>
      obtain rfl := Except.ok.inj hp
      have htext : c.uri.text = uri.text := by
        rw [huri] at heuri
        simpa [Path.text] using heuri
      rw [hread, CollectionUri.text_injective htext]
    · simp at hp
  · -- the path that was read is its own, and there it is filed
    intro h
    rw [h] at hparse
    rw [documentAt?, hparse]
    simp only [← huri, consistent.filed?_of_document? hdocument, Option.bind_some, hdocument]

/-- Without a check a document is retrieved if it is at the path. -/
theorem readableDocument_eq_some {subject : Subject} {path : String} :
    s.readableDocument subject path false = .ok (some d) ↔ s.documentAt? path = some d := by
  rw [readableDocument]
  split
  · next e he => simp [documentAt?, he]
  · simp

/-- A removal that succeeded answers with the document it took out, if it was there. -/
theorem concludeRemoval_eq_ok {r : Removal} {present : Bool} {released : Except Lock.Error Unit}
    {e : Document} (h : s.concludeRemoval r present released = (.ok e, s')) :
    present = true ∧ e = r.document := by
  cases released with
  | error err => simp [concludeRemoval, failRemoval] at h
  | ok =>
    cases present with
    | false => simp [concludeRemoval] at h
    | true =>
      simp only [concludeRemoval, if_true, Prod.mk.injEq, Except.ok.injEq] at h
      exact ⟨rfl, h.1.symm⟩

/-- A removal that succeeds has taken out the document at the path; beyond that it changes locks and
handles only. -/
theorem keeping_of_removeDocument_ok {path : String} {me : Thread} {e : Document}
    (h : s.removeDocument path me = (.ok e, s')) :
    s.documentAt? path = some e ∧ (s.takeOut e).2.Keeping s' := by
  unfold removeDocument at h
  rcases hbegin : s.beginRemoval path with ⟨err | r, s₁⟩
  · simp [hbegin] at h
  · rcases beginRemoval_eq_ok hbegin with ⟨hat, -, -, rfl⟩
    rw [hbegin] at h
    dsimp only at h
    -- a lock was granted; from then on the removal only takes the document out
    split at h
    · next guard locks _ =>
      have begun : s.Keeping
          { s with registry := s.registry.clone r.document.lock, locks } := ⟨⟨rfl, rfl, rfl⟩, rfl⟩
      generalize { s with registry := s.registry.clone r.document.lock, locks } = s₂ at begun h
      have finished := keeping_finishRemoval s₂ r guard me
      rw [finishRemoval_eq] at h finished
      rcases concludeRemoval_eq_ok h with ⟨-, rfl⟩
      rw [h] at finished
      exact ⟨hat, (begun.takeOut r.document).trans finished⟩
    · simp [failRemoval] at h

/-- So no other document is taken out. -/
theorem removeDocument_eq_ok {path : String} {me : Thread} {e : Document}
    (h : s.removeDocument path me = (.ok e, s')) :
    s.documentAt? path = some e ∧
      ∀ id, s'.document? id = if id = e.id then none else s.document? id := by
  rcases keeping_of_removeDocument_ok h with ⟨hat, taken⟩
  refine ⟨hat, fun id => ?_⟩
  rw [taken.document?, (takeOut_of_document? (document?_of_documentAt? hat)).2.1]

end Store

namespace History

/-- After any calls by which fewer than 2³² − 1 documents were stored, every document can be looked
up and retrieved under its own uri, and a removal by this uri that succeeds takes out this document,
unless the last segment of its collection's uri ends in a blank. If it does, none of this is so. In
either case a removal that succeeds takes out the document that it answers with, and no other. -/
theorem found_by_uri (options : Lock.Options) (calls : List Call)
    (few : (run options calls).stored.length < UInt32.size - 1) :
    let s := (run options calls).store
    ∀ d ∈ s.documents, ∃ c, d.collection = some c ∧
      (s.documentAt? d.uri = some d ↔ c.uri.Tight) ∧
      (∀ subject, s.readableDocument subject d.uri false = .ok (some d) ↔ c.uri.Tight) ∧
      ∀ me e s', s.removeDocument d.uri me = (.ok e, s') →
        (e = d ↔ c.uri.Tight) ∧ ∀ id, s'.document? id = if id = e.id then none else s.document? id := by
  intro s d hd
  have sound := sound_run options calls few
  rcases sound.housed d hd with ⟨c, -, hc⟩
  have hfound := Store.documentAt?_uri_iff sound.consistent hd hc (named_run options calls d hd)
  refine ⟨c, hc, hfound, fun subject => ?_, fun me e s' hremove => ?_⟩
  · -- a retrieval that asks for no permission finds what the path leads to
    rw [Store.readableDocument_eq_some, hfound]
  · rcases Store.removeDocument_eq_ok hremove with ⟨hat, hrest⟩
    have hsame : e = d ↔ s.documentAt? d.uri = some d := by rw [hat, Option.some.injEq]
    exact ⟨hsame.trans hfound, hrest⟩

/-- Calls by which two documents of one name are stored, in a collection and in one whose uri is
longer by a blank. -/
def spaced : List Call :=
  [.createCollection ⟨["a"], by decide⟩ Store.rootPermission,
    .createCollection ⟨["a "], by decide⟩ Store.rootPermission,
    .storeDocument "/db/a/x.xml" .xml Store.rootPermission,
    .storeDocument "/db/a //x.xml" .xml Store.rootPermission]

/-- The first one is found under its uri, and the uri of the second one is read as that of the
first: it is the first one that is removed by it. -/
theorem found_by_uri_spaced :
    let s := (run {} spaced).store
    (∃ d ∈ s.documents, d.uri = "/db/a/x.xml" ∧ s.documentAt? d.uri = some d ∧
      s.readableDocument Subject.guest d.uri false = .ok (some d)) ∧
    ∃ d ∈ s.documents, d.uri = "/db/a /x.xml" ∧ s.documentAt? d.uri ≠ some d ∧
      ∃ e s', s.removeDocument d.uri "main" = (.ok e, s') ∧ e ≠ d ∧ e.uri = "/db/a/x.xml" ∧
        s'.document? e.id = none := by
  -- one uri is tight and the other is not, so the theorem tells them apart
  have few : (run {} spaced).stored.length < UInt32.size - 1 := by decide +kernel
  have found := found_by_uri {} spaced few
  constructor
  · obtain ⟨d, hd, huri, htight⟩ : ∃ d ∈ (run {} spaced).store.documents, d.uri = "/db/a/x.xml" ∧
        ∀ c ∈ d.collection, c.uri.Tight := by decide +kernel
    rcases found d hd with ⟨c, hc, hfound, hretrieved, -⟩
    exact ⟨d, hd, huri, hfound.2 (htight c hc), (hretrieved _).2 (htight c hc)⟩
  · obtain ⟨d, hd, huri, hloose⟩ : ∃ d ∈ (run {} spaced).store.documents, d.uri = "/db/a /x.xml" ∧
        ∀ c ∈ d.collection, ¬c.uri.Tight := by decide +kernel
    rcases found d hd with ⟨c, hc, hfound, -, hremoved⟩
    have hanswer : ((run {} spaced).store.removeDocument "/db/a /x.xml" "main").1.toOption.map
        Document.uri = some "/db/a/x.xml" := by decide +kernel
    rw [← huri] at hanswer
    refine ⟨d, hd, huri, fun hat => hloose c hc (hfound.1 hat), ?_⟩
    rcases hremove : (run {} spaced).store.removeDocument d.uri "main" with ⟨err | e, s'⟩
    · simp [hremove, Except.toOption] at hanswer
    · rcases hremoved "main" e s' hremove with ⟨hsame, hrest⟩
      have heuri : e.uri = "/db/a/x.xml" := by simpa [hremove, Except.toOption] using hanswer
      exact ⟨e, s', rfl, fun h => hloose c hc (hsame.1 h), heuri, by rw [hrest, if_pos rfl]⟩

/-- So not every document is found under its own uri. -/
theorem not_found_by_uri :
    ¬∀ (options : Lock.Options) (calls : List Call),
      (run options calls).stored.length < UInt32.size - 1 →
        ∀ d ∈ (run options calls).store.documents,
          (run options calls).store.documentAt? d.uri = some d := by
  intro found
  have hall := found {} spaced (by decide +kernel)
  exact absurd hall (by decide +kernel)

end History
end DocBase
