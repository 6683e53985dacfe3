import DocBase.Proofs.Collection.Lineage
import DocBase.Proofs.Document.Membership
import DocBase.Proofs.Store.History
/-!
# What a subject gets to see of a collection

The documents below a collection are not looked for on the way down from one collection to the next:
the whole store is gone through, and a document is handed out if its own collection lies within the
one that was asked for and may be read. What lies between the two is not looked at. Main statements:

* `Orderly.mem_collectionDocuments` — which documents are handed out;
* `Traffic.orderly_of_reachable` — collections and documents agree whatever threads do;
* `Traffic.mem_visible_iff` — what a subject sees, and when it could have got there by itself;
* `Traffic.not_visible_through_open` — a closed collection does not hide what lies deeper inside it.
-/

namespace DocBase

namespace Store

variable {s : Store} {subject : Subject} {uri : CollectionUri} {check : Bool} {set : DocumentSet}

namespace Orderly

/-- What is handed out stands in the order in which the store has it. -/
theorem documents_collectionDocuments (orderly : s.Orderly)
    (h : s.collectionDocuments subject uri check = .ok set) :
    set.documents =
      ((s.documentsIn uri true).filter fun d => !check || collectionReadable d subject).filter
        fun d => !check || d.readableBy subject := by
  rw [(collectionDocuments_eq_ok h).2, DocumentSet.documents_extend, List.nil_append]
  exact ((orderly.ascending.filter _).filter _).filter _

/-- Handed out are the documents whose own collection lies within the one that was asked for; where
permissions count, the collection and the document have to be readable. -/
theorem mem_collectionDocuments (orderly : s.Orderly)
    (h : s.collectionDocuments subject uri check = .ok set) (d : Document) :
    d ∈ set.documents ↔ d ∈ s.documents ∧ ∃ c, d.collection = some c ∧ c.uri.within uri = true ∧
      (check = true → c.permission.readableBy subject = true ∧ d.readableBy subject = true) := by
  rw [orderly.documents_collectionDocuments h, List.mem_filter, List.mem_filter, documentsIn,
    List.mem_filter]
  constructor
  · -- a document of the answer passed both filters, that of its collection and its own
    rintro ⟨⟨⟨hd, hwithin⟩, hcollection⟩, hreadable⟩
    rcases (Option.any_eq_true _ _).1 hwithin with ⟨c, hc, hwithin⟩
    refine ⟨hd, c, hc, by simpa using hwithin, ?_⟩
    intro hcheck
    exact ⟨by simpa [collectionReadable, hcheck, hc] using hcollection,
      by simpa [hcheck] using hreadable⟩
  · rintro ⟨hd, c, hc, hwithin, hopen⟩
    refine ⟨⟨⟨hd, by simpa [hc] using hwithin⟩, ?_⟩, ?_⟩
    · cases check with
      | false => rfl
      | true => simpa [collectionReadable, hc] using (hopen rfl).1
    · cases check with
      | false => rfl
      | true => simpa using (hopen rfl).2

end Orderly

/-- Every collection on the way from `top` down to `uri`, both of them included, is there and may be
read. -/
def OpenBetween (s : Store) (subject : Subject) (top uri : CollectionUri) : Prop :=
  ∀ w, uri.within w = true → w.within top = true →
    ∃ c, s.collection? w = some c ∧ c.permission.readableBy subject = true

/-- All collections on the way exist; so if both ends may be read, it depends on those in
between. -/
theorem Rooted.openBetween_iff (h : s.Rooted) {top c : Collection}
    (htop : s.collection? top.uri = some top) (hc : s.collection? c.uri = some c)
    (hopen : top.permission.readableBy subject = true ∧ c.permission.readableBy subject = true) :
    s.OpenBetween subject top.uri c.uri ↔
      ∀ b ∈ s.collections, c.uri.within b.uri = true → b.uri.within top.uri = true →
        b.uri ≠ c.uri → b.uri ≠ top.uri → b.permission.readableBy subject = true := by
  constructor
  · -- what lies between is a collection of the store, and the hypothesis is about it
    intro hall b hb hbelow habove _ _
    rcases hall b.uri hbelow habove with ⟨e, he, hreadable⟩
    rw [collection?_of_mem h.ascending hb] at he
    rwa [Option.some.inj he]
  · -- every ancestor of a collection is there; the two ends are known to be open
    intro hbetween w hbelow habove
    have hthere := h.isSome_of_mem_lineage (Option.isSome_of_eq_some hc)
      (CollectionUri.within_iff_mem_lineage.1 hbelow)
    rcases Option.isSome_iff_exists.1 hthere with ⟨b, hfound⟩
    rcases mem_of_collection? hfound with ⟨hb, rfl⟩
    refine ⟨b, hfound, ?_⟩
    by_cases hlow : b.uri = c.uri
    · rw [hlow, hc] at hfound
      rw [← Option.some.inj hfound]
      exact hopen.2
    by_cases hhigh : b.uri = top.uri
    · rw [hhigh, htop] at hfound
      rw [← Option.some.inj hfound]
      exact hopen.1
    exact hbetween b hb hbelow habove hlow hhigh

end Store

namespace Traffic

variable {s s' : Traffic} {t : Thread} {options : Lock.Options}

/-! ## Every store -/

/-- A step of a thread keeps collections and documents in agreement. -/
theorem orderly_step (orderly : s.store.Orderly) (h : Step t s s') : s'.store.Orderly := by
  cases h with
  | createCollection uri permission => exact orderly.createCollection uri permission
  | storeDocument _ hstore => exact orderly.storeDocument hstore
  | refuseDocument _ hstore =>
    have hsame := Store.storeDocument_error (congrArg Prod.fst hstore)
    rw [hstore] at hsame
    obtain rfl : _ = s.store := hsame
    exact orderly
  | beginRemoval _ hbegin =>
    rcases Store.beginRemoval_eq_ok hbegin with ⟨-, -, -, rfl⟩
    exact orderly.keeping ⟨⟨rfl, rfl, rfl⟩, rfl⟩
  | missRemoval _ hbegin =>
    rcases Store.beginRemoval_eq_error hbegin with ⟨-, -, rfl⟩
    exact orderly
  | @takeOut r _ _ _ _ store _ htake =>
    obtain rfl : (s.store.takeOut r.document).2 = store := congrArg Prod.snd htake
    exact orderly.takeOut r.document
  | @endRemoval r present released _ _ _ store _ hend =>
    obtain rfl : (s.store.concludeRemoval r present released).2 = store := congrArg Prod.snd hend
    exact orderly.keeping (Store.keeping_concludeRemoval s.store r present released)
  | failRemoval _ hend | endQuery _ hend | failQuery _ hend =>
    obtain ⟨-, rfl⟩ := Prod.mk.inj hend
    exact orderly.keeping ⟨⟨rfl, rfl, rfl⟩, rfl⟩
  -- locks and handles are no part of it
  | acquire | release | enter => exact orderly.keeping ⟨⟨rfl, rfl, rfl⟩, rfl⟩
  | refuse | timeOut | beginQuery | find | miss | recheck | leaveOut | rechecked | evaluate =>
    exact orderly

/-- Whatever threads do in whatever order, collections and documents agree. -/
theorem orderly_of_reachable (h : Reachable options s) : s.store.Orderly := by
  induction h with
  | start => exact Store.orderly_create options
  | step _ hstep ih => exact orderly_step ih hstep

/-! ## What is seen -/

/-- What a subject is handed out when it asks for a collection, whatever threads did before: the
collection has to exist and be readable, and then it gets exactly the readable documents of the
store whose own collection is readable and lies within it. It could have got to such a document
through readable collections only just if all collections strictly in between are readable, too. -/
theorem mem_visible_iff (h : Reachable options s) {subject : Subject} {uri : CollectionUri}
    {set : DocumentSet} (hset : s.store.collectionDocuments subject uri true = .ok set) :
    (∃ top, s.store.collection? uri = some top ∧ top.permission.readableBy subject = true) ∧
    (∀ d, d ∈ set.documents ↔ d ∈ s.store.documents ∧ d.readableBy subject = true ∧
      ∃ c, d.collection = some c ∧ s.store.collection? c.uri = some c ∧
        c.uri.within uri = true ∧ c.permission.readableBy subject = true) ∧
    ∀ d ∈ set.documents, ∀ c, d.collection = some c →
      (s.store.OpenBetween subject uri c.uri ↔
        ∀ b ∈ s.store.collections, c.uri.within b.uri = true → b.uri.within uri = true →
          b.uri ≠ c.uri → b.uri ≠ uri → b.permission.readableBy subject = true) := by
  have orderly := orderly_of_reachable h
  rcases (Store.collectionDocuments_eq_ok hset).1 with ⟨top, htop, hreadable⟩
  -- a document describes its collection as the store has it
  have hown : ∀ d ∈ s.store.documents, ∀ c, d.collection = some c →
      s.store.collection? c.uri = some c := by
    intro d hd c hc
    rcases orderly.housed d hd with ⟨e, he, hde⟩
    obtain rfl := Option.some.inj (hde.symm.trans hc)
    exact Store.collection?_of_mem orderly.rooted.ascending he
  have hmem := orderly.mem_collectionDocuments hset
  refine ⟨⟨top, htop, hreadable rfl⟩, ?_, ?_⟩
  · intro d
    rw [hmem]
    constructor
    · rintro ⟨hd, c, hc, hwithin, hopen⟩
      exact ⟨hd, (hopen rfl).2, c, hc, hown d hd c hc, hwithin, (hopen rfl).1⟩
    · rintro ⟨hd, hread, c, hc, -, hwithin, hopen⟩
      exact ⟨hd, c, hc, hwithin, fun _ => ⟨hopen, hread⟩⟩
  · -- the collection asked for and that of the document are readable, as the answer holds it
    intro d hd c hc
    rcases (hmem d).1 hd with ⟨hstored, e, he, -, hopen⟩
    obtain rfl := Option.some.inj (he.symm.trans hc)
    obtain rfl : top.uri = uri := (Store.mem_of_collection? htop).2
    exact orderly.rooted.openBetween_iff htop (hown d hstored e he) ⟨hreadable rfl, (hopen rfl).1⟩

/-- Everyone may read the first and the third of these collections, but the one in between is its
owner's; then a document is stored. -/
def closedBetween (top closed inner : CollectionUri) (path : String) :
    Except StoreError Document × Store :=
  let s := ((Store.create {}).createCollection top Store.rootPermission).2
  let s := (s.createCollection closed (Permission.ofMode adminUser adminGroup 0o700)).2
  (s.createCollection inner Store.rootPermission).2.storeDocument path .xml Store.rootPermission

/-- A guest who asks for `/db/a` is handed out the document in `/db/a/closed/open`. -/
theorem seen_closedBetween :
    ∃ s set d c, Reachable {} s ∧
      s.store.collectionDocuments Subject.guest ⟨["a"], by decide⟩ true = .ok set ∧
      d ∈ set.documents ∧ d.collection = some c ∧
      c.uri = ⟨["a", "closed", "open"], by decide⟩ ∧
      ∃ b, s.store.collection? ⟨["a", "closed"], by decide⟩ = some b ∧
        b.permission.readableBy Subject.guest = false := by
  generalize hmade : closedBetween ⟨["a"], by decide⟩ ⟨["a", "closed"], by decide⟩
    ⟨["a", "closed", "open"], by decide⟩ "/db/a/closed/open/x.xml" = made
  have hstored : made.1.toOption.isSome = true := by
    rw [← hmade]
    decide +kernel
  have hseen : (made.2.collectionDocuments Subject.guest ⟨["a"], by decide⟩ true).toOption.map
      (fun set => set.documents.map fun d => d.collection.map Collection.uri) =
        some [some ⟨["a", "closed", "open"], by decide⟩] := by
    rw [← hmade]
    decide +kernel
  have hclosed : (made.2.collection? ⟨["a", "closed"], by decide⟩).map
      (fun b => b.permission.readableBy Subject.guest) = some false := by
    rw [← hmade]
    decide +kernel
  rcases made with ⟨e | d, store⟩
  · simp [Except.toOption] at hstored
  rcases hset : store.collectionDocuments Subject.guest ⟨["a"], by decide⟩ true with e | set
  · simp [hset, Except.toOption] at hseen
  simp only [hset, Except.toOption, Option.map_some, Option.some.injEq] at hseen
  rcases List.map_eq_singleton_iff.1 hseen with ⟨d', hdocuments, hcollection⟩
  rcases Option.map_eq_some_iff.1 hcollection with ⟨c, hc, huri⟩
  rcases Option.map_eq_some_iff.1 hclosed with ⟨b, hb, hshut⟩
  -- each of these calls is a step
  have top : Reachable {} _ :=
    .step .start (@Step.createCollection "c" _ ⟨["a"], by decide⟩ Store.rootPermission rfl)
  have closed := top.step (@Step.createCollection "c" _ ⟨["a", "closed"], by decide⟩
    (Permission.ofMode adminUser adminGroup 0o700) rfl)
  have inner := closed.step
    (@Step.createCollection "c" _ ⟨["a", "closed", "open"], by decide⟩ Store.rootPermission rfl)
  have stored := inner.step (@Step.storeDocument "c" _ "/db/a/closed/open/x.xml" .xml
    Store.rootPermission d store rfl hmade)
  exact ⟨_, set, d', c, stored, hset, by simp [hdocuments], hc, huri, b, hb, hshut⟩

/-- What the guest sees there it could not have got to: the collection in between is closed to
it. -/
theorem mem_visible_iff_closed :
    ∃ s set d c, Reachable {} s ∧
      s.store.collectionDocuments Subject.guest ⟨["a"], by decide⟩ true = .ok set ∧
      d ∈ set.documents ∧ d.readableBy Subject.guest = true ∧ d.collection = some c ∧
      ¬ s.store.OpenBetween Subject.guest ⟨["a"], by decide⟩ c.uri := by
  rcases seen_closedBetween with ⟨s, set, d, c, hs, hset, hd, hc, huri, b, hb, hshut⟩
  rcases mem_visible_iff hs hset with ⟨-, hmem, hopen⟩
  refine ⟨s, set, d, c, hs, hset, hd, ((hmem d).1 hd).2.1, hc, ?_⟩
  rw [hopen d hd c hc, huri]
  intro hall
  rcases Store.mem_of_collection? hb with ⟨hb, hburi⟩
  have hreadable := hall b hb (by rw [hburi]; decide +kernel) (by rw [hburi]; decide +kernel)
    (by rw [hburi]; decide) (by rw [hburi]; decide)
  simp [hshut] at hreadable

/-- So it is not true that every document that is handed out lies below the collection that was
asked for through collections that may be read, all of them. -/
theorem not_visible_through_open :
    ¬ ∀ options s, Reachable options s → ∀ subject uri set,
      s.store.collectionDocuments subject uri true = .ok set → ∀ d ∈ set.documents,
        d.readableBy subject = true ∧
        ∃ c, d.collection = some c ∧ c.uri.within uri = true ∧
          s.store.OpenBetween subject uri c.uri := by
  intro hclaim
  rcases seen_closedBetween with ⟨s, set, d, c, hs, hset, hd, hc, huri, b, hb, hshut⟩
  rcases hclaim {} s hs _ _ set hset d hd with ⟨-, e, he, -, hopen⟩
  obtain rfl := Option.some.inj (he.symm.trans hc)
  rw [huri] at hopen
  rcases hopen ⟨["a", "closed"], by decide⟩ (by decide +kernel) (by decide +kernel) with
    ⟨b', hb', hreadable⟩
  obtain rfl := Option.some.inj (hb'.symm.trans hb)
  simp [hshut] at hreadable

end Traffic
end DocBase
