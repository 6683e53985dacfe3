import DocBase.Manifest
import DocBase.Proofs.Collection.Lineage
import DocBase.Proofs.Store.History
/-!
# The store that a manifest describes

The entries of a manifest are gone through in order, and a collection that exists is left as it is.
So an entry says nothing about a collection that an earlier entry has brought into being, be it one
that lies deeper in the tree. Main statements:

* `foldlM_ok` — what every round of a loop keeps for the entries gone through;
* `Store.Lists.addCollection` and `Store.Stocks.addDocument` — what one entry adds;
* `Manifest.described_of_build` — what the store has in the end.
-/

namespace DocBase

/-- A loop that may fail but does not: what holds for no entries, and is kept for the entries gone
through when one more is, holds for all of them. -/
theorem foldlM_ok {α σ ε : Type} {f : σ → α → Except ε σ} {motive : List α → σ → Prop} {l : List α}
    {s s' : σ} (h : l.foldlM f s = .ok s') (start : motive [] s)
    (round : ∀ through a s₁ s₂, motive through s₁ → f s₁ a = .ok s₂ → motive (through ++ [a]) s₂) :
    motive l s' := by
  -- the induction is on what is left to do, while the motive is about what is done
  have go : ∀ (todo through : List α) (s₁ : σ), motive through s₁ → todo.foldlM f s₁ = .ok s' →
      motive (through ++ todo) s' := by
    intro todo
    induction todo with
    | nil =>
      intro through s₁ hthrough hfold
      obtain rfl : s₁ = s' := Except.ok.inj hfold
      rwa [List.append_nil]
    | cons a todo ih =>
      intro through s₁ hthrough hfold
      rw [List.foldlM_cons] at hfold
      cases hround : f s₁ a with
      | error e => simp [hround, bind, Except.bind] at hfold
      | ok s₂ =>
        rw [hround] at hfold
        have hrest := ih (through ++ [a]) s₂ (round through a s₁ s₂ hthrough hround) hfold
        rwa [List.append_assoc, List.singleton_append] at hrest
  exact go l [] s start h

/-! ## Entries -/

/-- Owner, group and mode are those of the entry; without them they are the administrator, his group
and a default. -/
def EntryPermission.Gives (p : EntryPermission) (defaultMode : Nat) (made : Permission) : Prop :=
  ∃ mode, (p.mode = none ∧ mode = defaultMode ∨
      ∃ text, p.mode = some text ∧ Mode.parse text = .ok mode) ∧
    made = Permission.ofMode (p.owner.getD "admin") (p.group.getD "dba") mode

theorem EntryPermission.gives_of_read {p : EntryPermission} {defaultMode : Nat} {made : Permission}
    (h : p.read defaultMode = .ok made) : p.Gives defaultMode made := by
  unfold read at h
  cases hmode : p.mode with
  | none =>
    simp only [hmode, Except.ok.injEq] at h
    exact ⟨defaultMode, .inl ⟨hmode, rfl⟩, h.symm⟩
  | some text =>
    cases hparse : Mode.parse text with
    | error e => simp [hmode, hparse, Except.map] at h
    | ok mode =>
      simp only [hmode, hparse, Except.map, Except.ok.injEq] at h
      exact ⟨mode, .inr ⟨text, hmode, hparse⟩, h.symm⟩

/-- The entry is about this collection or one below it. -/
def CollectionEntry.liesWithin (e : CollectionEntry) (v : CollectionUri) : Bool :=
  match CollectionUri.parse e.uri with
  | .ok u => u.within v
  | .error _ => false

theorem CollectionEntry.liesWithin_iff {e : CollectionEntry} {v : CollectionUri} :
    e.liesWithin v = true ↔ ∃ u, CollectionUri.parse e.uri = .ok u ∧ v ∈ u.lineage := by
  unfold liesWithin
  cases CollectionUri.parse e.uri with
  | error fault => simp
  | ok u => simp [CollectionUri.within_iff_mem_lineage]

/-- The entry at a place in the list, counted from zero, has become this document. -/
structure DocumentEntry.Becomes (e : DocumentEntry) (s : Store) (place : Nat) (d : Document) :
    Prop where
  id_eq : d.id.toNat = (place + 1) % UInt32.size
  filed : ∃ p c, Path.parse e.path = .ok p ∧ s.collection? p.collection = some c ∧
    d.collection = some c ∧ d.fileName = p.name ∧ s.filed? p.text = some d.id
  kind_eq : d.kind = e.kind
  permission : e.permission.Gives Permission.documentMode d.permission

namespace Store

variable {s s' before : Store} {u v : CollectionUri}

/-! ## Users -/

/-- Users are registered beside collections and documents. -/
theorem keeping_registerUsers (s : Store) (users : List UserEntry) :
    s.Keeping (users.foldl (fun s u => s.registerUser u.subject) s) := by
  induction users generalizing s with
  | nil => exact .refl s
  | cons u users ih =>
    have hone : s.Keeping (s.registerUser u.subject) := ⟨⟨rfl, rfl, rfl⟩, rfl⟩
    exact hone.trans (ih (s.registerUser u.subject))

/-! ## Collections -/

/-- An entry that is added can be read, and its collection is created. -/
theorem addCollection_eq_ok {e : CollectionEntry} (h : s.addCollection e = .ok s') :
    ∃ u made, CollectionUri.parse e.uri = .ok u ∧
      e.permission.read Permission.collectionMode = .ok made ∧
      s' = (s.createCollection u made).2 := by
  unfold addCollection at h
  cases hparse : CollectionUri.parse e.uri with
  | error fault => simp [hparse, Except.mapError, bind, Except.bind] at h
  | ok u =>
    cases hread : e.permission.read Permission.collectionMode with
    | error fault => simp [hparse, hread, Except.mapError, bind, Except.bind] at h
    | ok made =>
      simp only [hparse, hread, Except.mapError, bind, Except.bind, pure, Except.pure,
        Except.ok.injEq] at h
      exact ⟨u, made, rfl, rfl, h.symm⟩

/-- The root has kept its permission; every other collection has that of the first entry gone
through that is about it or about one below it, and there are no others. Nothing is stored yet. -/
structure Lists (through : List CollectionEntry) (s : Store) : Prop where
  rooted : s.Rooted
  documents_eq : s.documents = []
  nextId_eq : s.nextId = 1
  readable : ∀ e ∈ through, ∃ made, e.permission.read Permission.collectionMode = .ok made
  collection?_eq : ∀ v, s.collection? v =
    if v = CollectionUri.root then some ⟨v, rootPermission⟩
    else (through.find? (·.liesWithin v)).bind fun e =>
      (e.permission.read Permission.collectionMode).toOption.map (Collection.mk v)

namespace Lists

variable {through : List CollectionEntry}

/-- Before the first entry there is the root, and users are not part of it. -/
theorem start (options : Lock.Options) (users : List UserEntry) :
    (users.foldl (fun s u => s.registerUser u.subject) (create options)).Lists [] := by
  have hkeeping := keeping_registerUsers (create options) users
  constructor
  · exact (rooted_create options).of_collections_eq hkeeping.collections_eq
  · exact hkeeping.documents_eq
  · exact hkeeping.nextId_eq
  · intro e he
    simp at he
  · -- nothing was listed yet, so there is only the root
    intro v
    rw [collection?, hkeeping.collections_eq]
    by_cases hv : v = CollectionUri.root
    · simp [hv, create, Keyed.find?, Collection.key]
    · have hkey : ¬ "/db" = v.text := by
        rw [← CollectionUri.text_root]
        intro htext
        exact hv (CollectionUri.text_injective htext).symm
      simp [hv, create, Keyed.find?, Collection.key, hkey]

/-- A collection other than the root is there if an entry gone through is about it or one below
it. -/
theorem collection?_eq_some (lists : s.Lists through) (hv : v ≠ CollectionUri.root)
    {e : CollectionEntry} (he : through.find? (·.liesWithin v) = some e) :
    ∃ made, e.permission.read Permission.collectionMode = .ok made ∧
      s.collection? v = some ⟨v, made⟩ := by
  rcases lists.readable e (List.mem_of_find?_eq_some he) with ⟨made, hmade⟩
  refine ⟨made, hmade, ?_⟩
  rw [lists.collection?_eq, if_neg hv, he, Option.bind_some, hmade]
  rfl

/-- What is missing is not the root, and no entry gone through is about it or one below it. -/
theorem find?_eq_none (lists : s.Lists through) (hnone : s.collection? v = none) :
    v ≠ CollectionUri.root ∧ through.find? (·.liesWithin v) = none := by
  have hv : v ≠ CollectionUri.root := by
    intro hv
    rw [lists.collection?_eq, if_pos hv] at hnone
    simp at hnone
  refine ⟨hv, ?_⟩
  cases he : through.find? (·.liesWithin v) with
  | none => rfl
  | some e =>
    rcases lists.collection?_eq_some hv he with ⟨made, -, hsome⟩
    simp [hnone] at hsome

/-- The root is there, and whatever some entry is about or about one below it. -/
theorem isSome_collection?_iff (lists : s.Lists through) :
    (s.collection? v).isSome = true ↔ v = CollectionUri.root ∨
      ∃ e ∈ through, ∃ u, CollectionUri.parse e.uri = .ok u ∧ v ∈ u.lineage := by
  simp only [← CollectionEntry.liesWithin_iff]
  by_cases hv : v = CollectionUri.root
  · rw [lists.collection?_eq, if_pos hv]
    simp [hv]
  · rw [or_iff_right hv, ← List.find?_isSome]
    cases hfirst : through.find? (·.liesWithin v) with
    | none =>
      rw [lists.collection?_eq, if_neg hv, hfirst]
      rfl
    | some e =>
      rcases lists.collection?_eq_some hv hfirst with ⟨made, -, hsome⟩
      rw [hsome]
      rfl

/-- One more entry is about what is missing of its collection and those above it. -/
theorem addCollection (lists : s.Lists through) {e : CollectionEntry}
    (h : s.addCollection e = .ok s') : s'.Lists (through ++ [e]) := by
  rcases addCollection_eq_ok h with ⟨u, made, hparse, hmade, rfl⟩
  -- an entry speaks about its uri and all collections above it
  have hwithin : ∀ v, e.liesWithin v = true ↔ v ∈ u.lineage := by
    intro v
    simp [CollectionEntry.liesWithin_iff, hparse]
  have hquiet := quiet_createCollection s u made
  constructor
  · exact lists.rooted.createCollection u made
  · rw [hquiet.documents_eq, lists.documents_eq]
  · rw [hquiet.nextId_eq, lists.nextId_eq]
  · intro e' he'
    rcases List.mem_append.1 he' with he' | he'
    · exact lists.readable e' he'
    · obtain rfl := List.mem_singleton.1 he'
      exact ⟨made, hmade⟩
  · intro v
    rw [collection?_createCollection, List.find?_append]
    by_cases hmissing : v ∈ s.missing u
    · -- nobody spoke about it before
      rcases lists.rooted.mem_missing_iff.1 hmissing with ⟨habove, hnone⟩
      rcases lists.find?_eq_none hnone with ⟨hv, hfirst⟩
      have hlast : [e].find? (·.liesWithin v) = some e := by simp [hwithin, habove]
      rw [if_pos hmissing, if_neg hv, hfirst, Option.none_or, hlast, Option.bind_some, hmade]
      rfl
    · -- what was there stays as it is, and what is still not there is not above the new uri
      rw [if_neg hmissing]
      by_cases hv : v = CollectionUri.root
      · rw [lists.collection?_eq, if_pos hv, if_pos hv]
      · rw [if_neg hv]
        cases hfirst : through.find? (·.liesWithin v) with
        | some e' =>
          rw [lists.collection?_eq, if_neg hv, hfirst, Option.some_or]
        | none =>
          have hnone : s.collection? v = none := by
            rw [lists.collection?_eq, if_neg hv, hfirst, Option.bind_none]
          have hbeside : v ∉ u.lineage := by
            intro habove
            exact hmissing (lists.rooted.mem_missing_iff.2 ⟨habove, hnone⟩)
          have hlast : [e].find? (·.liesWithin v) = none := by simp [hwithin, hbeside]
          rw [hnone, Option.none_or, hlast, Option.bind_none]

end Lists

/-! ## Documents -/

/-- An entry that is added has a permission that can be read, and its document is stored. -/
theorem addDocument_eq_ok {e : DocumentEntry} (h : s.addDocument e = .ok s') :
    ∃ made d, e.permission.read Permission.documentMode = .ok made ∧
      s.storeDocument e.path e.kind made = (.ok d, s') := by
  unfold addDocument at h
  cases hread : e.permission.read Permission.documentMode with
  | error fault => simp [hread, Except.mapError, bind, Except.bind] at h
  | ok made =>
    rcases hstore : s.storeDocument e.path e.kind made with ⟨fault | d, s₁⟩
    · simp [hread, hstore, Except.mapError, bind, Except.bind, throw, throwThe,
        MonadExceptOf.throw] at h
    · simp only [hread, hstore, Except.mapError, bind, Except.bind, pure, Except.pure,
        Except.ok.injEq] at h
      rw [h] at hstore
      exact ⟨made, d, rfl, hstore⟩

/-- Every entry gone through has become a document, unless its id was handed out again since, and
there are no other documents. -/
structure Stocks (before : Store) (through : List DocumentEntry) (s : Store) : Prop where
  collections_eq : s.collections = before.collections
  nextId_eq : s.nextId.toNat = (through.length + 1) % UInt32.size
  becomes : ∀ (k : Nat) (e : DocumentEntry), through[k]? = some e →
    through.length ≤ k + UInt32.size → ∃ d, s.document? d.id = some d ∧ e.Becomes s k d
  listed : ∀ d ∈ s.documents, ∃ (k : Nat) (e : DocumentEntry),
    through[k]? = some e ∧ e.Becomes s k d

/-- To store another document leaves it where it is filed. -/
theorem becomes_of_stores {e : DocumentEntry} {place : Nat} {d d' : Document}
    (h : e.Becomes s place d) (stores : s.Stores d' s')
    (hcollections : s'.collections = s.collections) : e.Becomes s' place d := by
  rcases h with ⟨hid, ⟨p, c, hp, hc, hdc, hname, hfiled⟩, hkind, hpermission⟩
  refine ⟨hid, ⟨p, c, hp, ?_, hdc, hname, ?_⟩, hkind, hpermission⟩
  · rw [collection?, hcollections]
    exact hc
  · rw [filed?_of_stores stores, if_neg, hfiled]
    -- the other one was stored at a path that was free
    intro hsame
    have hfree := stores.free
    rw [hsame, hfiled] at hfree
    simp at hfree

/-- Before the first entry no document is stored. -/
theorem Lists.stocks {through : List CollectionEntry} (lists : s.Lists through) :
    s.Stocks [] s where
  collections_eq := rfl
  nextId_eq := by rw [lists.nextId_eq]; rfl
  becomes k e he := by simp at he
  listed d hd := by simp [lists.documents_eq] at hd

/-- One more entry becomes one more document. -/
theorem Stocks.addDocument {through : List DocumentEntry} (stocks : before.Stocks through s)
    {e : DocumentEntry} (h : s.addDocument e = .ok s') : before.Stocks (through ++ [e]) s' := by
  rcases addDocument_eq_ok h with ⟨made, d, hmade, hstore⟩
  have stores := storeDocument_eq_ok hstore
  rcases placed_of_storeDocument hstore with
    ⟨⟨p, c, hp, hc, hdc, hname, huri⟩, hkind, hmode, hcollections⟩
  have hid : d.id.toNat = (through.length + 1) % UInt32.size := by
    rw [stores.id_eq, stocks.nextId_eq]
  have hnew : e.Becomes s' through.length d := by
    refine ⟨hid, ⟨p, c, hp, ?_, hdc, hname, ?_⟩, hkind, ?_⟩
    · rw [collection?, hcollections]
      exact hc
    · rw [filed?_of_stores stores, if_pos huri]
    · rw [hmode]
      exact EntryPermission.gives_of_read hmade
  constructor
  · rw [hcollections, stocks.collections_eq]
  · rw [stores.nextId_eq, UInt32.toNat_add, stocks.nextId_eq, List.length_append]
    simp
  · intro k e' he' hlast
    rw [List.length_append, List.length_singleton] at hlast
    rcases Nat.lt_trichotomy k through.length with hlt | rfl | hgt
    · rw [List.getElem?_append_left hlt] at he'
      rcases stocks.becomes k e' he' (by omega) with ⟨d', hd', hbecomes⟩
      refine ⟨d', ?_, becomes_of_stores hbecomes stores hcollections⟩
      rw [document?_of_stores stores, if_neg, hd']
      -- fewer than 2³² entries later the counter has not come round to it
      intro hsame
      have hid' := hbecomes.id_eq
      rw [← hsame, hid] at hid'
      unfold UInt32.size at hlast hid'
      omega
    · rw [List.getElem?_append_right (Nat.le_refl _), Nat.sub_self] at he'
      -- the entry that was just added
      obtain rfl := Option.some.inj he'
      refine ⟨d, ?_, hnew⟩
      rw [document?_of_stores stores, if_pos rfl]
    · rw [List.getElem?_eq_none (by simp; omega)] at he'
      simp at he'
  · intro d' hd'
    -- a document that is there now is the new one or was there before
    rw [stores.documents_eq] at hd'
    rcases Keyed.mem_insert_of_mem hd' with rfl | hd'
    · exact ⟨through.length, e, by simp, hnew⟩
    · rcases stocks.listed d' hd' with ⟨k, e', he', hbecomes⟩
      refine ⟨k, e', ?_, becomes_of_stores hbecomes stores hcollections⟩
      rw [List.getElem?_append_left (List.getElem?_eq_some_iff.1 he').1]
      exact he'

end Store

open Store

/-- A store that is built has its users first, then its collections and then its documents. -/
theorem Manifest.build_eq_ok {m : Manifest} {settings : Settings} {s : Store}
    (h : m.build settings = .ok s) :
    ∃ listed, m.collections.foldlM addCollection
        (m.users.foldl (fun s u => s.registerUser u.subject) (create settings.locks.options)) =
          .ok listed ∧
      m.documents.foldlM addDocument listed = .ok s := by
  simp only [build, bind, Except.bind] at h
  split at h
  · simp at h
  · next listed hlisted => exact ⟨listed, hlisted, h⟩

/-- In the store that is built collections and documents agree, however many there are. -/
theorem Manifest.orderly_of_build {m : Manifest} {settings : Settings} {s : Store}
    (h : m.build settings = .ok s) : s.Orderly := by
  rcases build_eq_ok h with ⟨listed, hlisted, hstocked⟩
  have hstart := (orderly_create settings.locks.options).keeping
    (keeping_registerUsers (create settings.locks.options) m.users)
  have orderly : listed.Orderly := by
    refine foldlM_ok (motive := fun _ s => s.Orderly) hlisted hstart ?_
    intro _ e s₁ s₂ orderly hadd
    rcases addCollection_eq_ok hadd with ⟨u, made, -, -, rfl⟩
    exact orderly.createCollection u made
  refine foldlM_ok (motive := fun _ s => s.Orderly) hstocked orderly ?_
  intro _ e s₁ s₂ orderly hadd
  rcases addDocument_eq_ok hadd with ⟨made, d, -, hstore⟩
  exact orderly.storeDocument hstore

/-- Whatever a manifest lists, if a store is built from it: its collections are the root and all
uris from that of a listed collection upwards, once each. The root is the administrator's; any other
one has the permission of the first entry in the list whose collection it is or lies above, be that
entry one deeper in the tree. The entry of each document has become the document whose id is the
entry's number in the list, filed in the collection that its path names and with its own permission;
as ids have 32 bits, an entry 2³² places further on gets the same id and takes its place. There are
no other documents. -/
theorem Manifest.described_of_build {m : Manifest} {settings : Settings} {s : Store}
    (h : m.build settings = .ok s) :
    ((∀ v, (∃ c ∈ s.collections, c.uri = v) ↔ v = CollectionUri.root ∨
        ∃ e ∈ m.collections, ∃ u, CollectionUri.parse e.uri = .ok u ∧ v ∈ u.lineage) ∧
      (s.collections.map Collection.uri).Nodup) ∧
    s.collection? CollectionUri.root =
      some ⟨CollectionUri.root, Permission.ofMode "admin" "dba" 0o755⟩ ∧
    (∀ c ∈ s.collections, c.uri ≠ CollectionUri.root →
      ∃ e, m.collections.find? (·.liesWithin c.uri) = some e ∧
        e.permission.Gives 0o755 c.permission) ∧
    (∀ (k : Nat) (e : DocumentEntry), m.documents[k]? = some e →
      m.documents.length ≤ k + UInt32.size → ∃ d, s.document? d.id = some d ∧ e.Becomes s k d) ∧
    ∀ d ∈ s.documents, ∃ (k : Nat) (e : DocumentEntry),
      m.documents[k]? = some e ∧ e.Becomes s k d := by
  rcases build_eq_ok h with ⟨listed, hlisted, hstocked⟩
  -- the collections come first, then the documents; either list has its own invariant
  have lists : listed.Lists m.collections := foldlM_ok hlisted
    (.start settings.locks.options m.users) fun _ _ _ _ lists => lists.addCollection
  have stocks : listed.Stocks m.documents s := foldlM_ok hstocked
    lists.stocks fun _ _ _ _ stocks => stocks.addDocument
  have hcollection : ∀ v, s.collection? v = listed.collection? v := by
    intro v
    rw [collection?, collection?, stocks.collections_eq]
  have hascending : Keyed.Ascending Collection.key s.collections := by
    rw [stocks.collections_eq]
    exact lists.rooted.ascending
  refine ⟨⟨?_, ?_⟩, ?_, ?_, stocks.becomes, stocks.listed⟩
  · intro v
    rw [← isSome_collection?, hcollection, lists.isSome_collection?_iff]
  · -- ordered by their keys, the collections cannot repeat
    rw [List.nodup_iff_pairwise_ne, List.pairwise_map]
    apply hascending.imp
    intro b c hlt hsame
    rw [Collection.key, hsame] at hlt
    exact Std.lt_irrefl hlt
  · rw [hcollection, lists.collection?_eq, if_pos rfl]
    rfl
  · -- the first entry that spoke about a collection made it
    intro c hc hroot
    have hfound := collection?_of_mem hascending hc
    rw [hcollection] at hfound
    cases hfirst : m.collections.find? (·.liesWithin c.uri) with
    | none =>
      rw [lists.collection?_eq, if_neg hroot, hfirst] at hfound
      simp at hfound
    | some e =>
      rcases lists.collection?_eq_some hroot hfirst with ⟨made, hmade, hsome⟩
      have hpermission : made = c.permission :=
        congrArg Collection.permission (Option.some.inj (hsome.symm.trans hfound))
      rw [← hpermission]
      exact ⟨e, rfl, EntryPermission.gives_of_read hmade⟩

/-- The first entry brings `/db/a` into being, so the second one says nothing about it; the third
one says nothing about the root. -/
def Manifest.shadowing : Manifest where
  collections := [⟨"/db/a/b", { owner := some "ann", mode := some "0700" }⟩,
    ⟨"/db/a/", { mode := some "0777" }⟩, ⟨"/db", { owner := some "ann" }⟩]
  documents := [⟨"/db/a/x.xml", .xml, {}⟩, ⟨"/db/a/b/y.bin", .binary, { mode := some "600" }⟩]

/-- So `/db/a` is what the first entry says, and the second document is the one with id two. -/
theorem Manifest.described_of_build_shadowing :
    ∃ s, shadowing.build {} = .ok s ∧
      (∃ c ∈ s.collections, c.uri.text = "/db/a" ∧
        c.permission = Permission.ofMode "ann" "dba" 0o700) ∧
      s.collection? CollectionUri.root =
        some ⟨CollectionUri.root, Permission.ofMode "admin" "dba" 0o755⟩ ∧
      ∃ d, s.document? 2 = some d ∧ d.fileName = "y.bin" ∧ d.kind = .binary ∧
        d.permission = Permission.ofMode "admin" "dba" 0o600 := by
  have hok : (shadowing.build {}).toOption.isSome = true := by decide +kernel
  cases hbuild : shadowing.build {} with
  | error e => simp [hbuild, Except.toOption] at hok
  | ok s =>
    rcases described_of_build hbuild with ⟨⟨hthere, -⟩, hroot, hcollections, hdocuments, -⟩
    refine ⟨s, rfl, ?_, hroot, ?_⟩
    · have hparse : CollectionUri.parse "/db/a/b" = .ok ⟨["a", "b"], by decide⟩ := by decide +kernel
      -- the entry is about a collection below, so this one was made on the way
      have habove : ⟨["a"], by decide⟩ ∈ CollectionUri.lineage ⟨["a", "b"], by decide⟩ :=
        CollectionUri.within_iff_mem_lineage.1 (by decide +kernel)
      rcases (hthere _).2 (.inr ⟨_, List.mem_cons_self, _, hparse, habove⟩) with ⟨c, hc, huri⟩
      rcases hcollections c hc (by rw [huri]; decide) with ⟨e, hfirst, mode, hmode, hpermission⟩
      have hentry : shadowing.collections.find? (·.liesWithin ⟨["a"], by decide⟩) =
          some ⟨"/db/a/b", { owner := some "ann", mode := some "0700" }⟩ := by decide +kernel
      rw [huri, hentry] at hfirst
      obtain rfl := Option.some.inj hfirst
      have hread : Mode.parse "0700" = .ok 0o700 := by decide +kernel
      rcases hmode with ⟨hnone, -⟩ | ⟨text, htext, hmode⟩
      · simp at hnone
      · obtain rfl := Option.some.inj htext
        obtain rfl := Except.ok.inj (hread.symm.trans hmode)
        exact ⟨c, hc, by rw [huri]; decide +kernel, hpermission⟩
    · rcases hdocuments 1 _ rfl (by decide) with
        ⟨d, hd, hid, hfiled, hkind, mode, hmode, hpermission⟩
      have hparse : Path.parse "/db/a/b/y.bin" = .ok ⟨⟨["a", "b"], by decide⟩, "y.bin"⟩ := by
        decide +kernel
      have hread : Mode.parse "600" = .ok 0o600 := by decide +kernel
      have htwo : d.id = 2 := UInt32.toNat_inj.1 hid
      rcases hfiled with ⟨p, c, hp, -, -, hname, -⟩
      obtain rfl := Except.ok.inj (hparse.symm.trans hp)
      rcases hmode with ⟨hnone, -⟩ | ⟨text, htext, hmode⟩
      · simp at hnone
      · obtain rfl := Option.some.inj htext
        obtain rfl := Except.ok.inj (hread.symm.trans hmode)
        rw [htwo] at hd
        exact ⟨d, hd, hname, hkind, hpermission⟩

end DocBase
