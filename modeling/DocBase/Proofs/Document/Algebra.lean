import DocBase.Document.Catalogue
import DocBase.Proofs.Collection.Spelling
import DocBase.Proofs.Document.Membership
import Mathlib.Data.Finset.Card
import Mathlib.Data.Finset.Dedup
/-!
# The algebra of document sets

A document set is told by the ids of its documents. The collections it lists beside them are those
its documents are in, and readers are handed the documents in ascending order of ids, whether or not
a list was made for an earlier reader. Main statements:

* `DocumentSet.Faithful` and its laws — the listed collections keep up with the documents;
* `DocumentSet.ids_union` and `DocumentSet.ids_intersection` — sets are combined by their ids;
* `Catalogue.sound_of_built` — what every operation on a set in use preserves;
* `Catalogue.faithful_of_built` — what can be seen of sets however they were built.
-/

namespace DocBase

namespace Keyed

variable {α κ : Type} [LT κ] [DecidableLT κ] [DecidableEq κ] {key : α → κ} {l : List α}

/-- Some member has a key after an insertion exactly when one had it before or the new one has
it. -/
theorem exists_mem_insertNew (x : α) (k : κ) :
    (∃ y ∈ insertNew key x l, key y = k) ↔ key x = k ∨ ∃ y ∈ l, key y = k := by
  rw [← isSome_find?, ← isSome_find?, insertNew]
  split
  · next hthere =>
    constructor
    · intro h
      exact .inr h
    · rintro (rfl | h)
      · exact hthere
      · exact h
  · rw [find?_insert]
    by_cases hx : key x = k <;> simp [hx]

/-- A member is put in beside all others if its key is free. -/
theorem mem_insert_of_free [LE κ] [Std.LawfulOrderLT κ] (h : Ascending key l) {x : α}
    (hfree : ∀ y ∈ l, key y ≠ key x) (y : α) : y ∈ insert key x l ↔ y = x ∨ y ∈ l := by
  constructor
  · exact mem_insert_of_mem
  · rintro (rfl | hy)
    · exact (mem_of_find? (find?_insert_self key y l)).1
    · have hfound := find?_of_mem h hy
      rw [← find?_insert_ne (Ne.symm (hfree y hy))] at hfound
      exact (mem_of_find? hfound).1

end Keyed

namespace DocumentSet

variable {s t : DocumentSet} {d : Document} {l : List Document} {id : DocId}

/-! ## Collections -/

/-- Some of these documents is in a collection with that uri. -/
def InCollection (l : List Document) (text : String) : Prop :=
  ∃ d ∈ l, ∃ c, d.collection = some c ∧ c.key = text

/-- Documents and collections stand in order, and the collections listed are those of the
documents. -/
structure Faithful (s : DocumentSet) : Prop where
  ascending : s.Ascending
  listed_iff : ∀ text, (∃ c ∈ s.collections, c.key = text) ↔ InCollection s.documents text

theorem faithful_empty : ({} : DocumentSet).Faithful where
  ascending := ascending_empty
  listed_iff text := by simp [InCollection]

/-- A document whose id is free brings its collection along. -/
theorem Faithful.put (h : s.Faithful) (hfree : s.contains d.id = false) : (s.put d).Faithful where
  ascending := ascending_put h.ascending d
  listed_iff text := by
    -- no document is replaced whose collection would stay listed
    have hids : ∀ e ∈ s.documents, e.id ≠ d.id := by
      intro e he heq
      have hthere := contains_iff.2 ⟨e, he, heq⟩
      rw [hfree] at hthere
      contradiction
    have hlisted : (∃ c ∈ (s.put d).collections, c.key = text) ↔
        (∃ c, d.collection = some c ∧ c.key = text) ∨ ∃ c ∈ s.collections, c.key = text := by
      unfold DocumentSet.put
      cases d.collection with
      | none => simp
      | some c => simpa using Keyed.exists_mem_insertNew c text
    rw [hlisted, h.listed_iff]
    have hmem := Keyed.mem_insert_of_free h.ascending.1 hids
    constructor
    · rintro (⟨c, hc, htext⟩ | ⟨e, he, c, hc, htext⟩)
      · exact ⟨d, (hmem d).2 (.inl rfl), c, hc, htext⟩
      · exact ⟨e, (hmem e).2 (.inr he), c, hc, htext⟩
    · rintro ⟨e, he, c, hc, htext⟩
      rcases (hmem e).1 he with heq | he
      · rw [heq] at hc
        exact .inl ⟨c, hc, htext⟩
      · exact .inr ⟨e, he, c, hc, htext⟩

theorem Faithful.add (h : s.Faithful) (d : Document) : (s.add d).2.Faithful := by
  unfold DocumentSet.add addWith
  split
  · exact h
  · next hfree => exact h.put (by simpa using hfree)

theorem Faithful.extend (h : s.Faithful) (l : List Document) : (s.extend l).Faithful := by
  induction l generalizing s with
  | nil => exact h
  | cons d l ih => exact ih (h.add d)

/-- The collections of some documents are listed once each, in order. -/
theorem collectionsOf_spec (l : List Document) :
    Keyed.Ascending Collection.key (collectionsOf l) ∧
      ∀ text, (∃ c ∈ collectionsOf l, c.key = text) ↔ InCollection l text := by
  have fold : ∀ (cs listed : List Collection), Keyed.Ascending Collection.key listed →
      Keyed.Ascending Collection.key
        (cs.foldl (fun cs c => Keyed.insertNew Collection.key c cs) listed) ∧
      ∀ text, (∃ c ∈ cs.foldl (fun cs c => Keyed.insertNew Collection.key c cs) listed,
        c.key = text) ↔ (∃ c ∈ cs, c.key = text) ∨ ∃ c ∈ listed, c.key = text := by
    -- generalised over what is listed already
    intro cs
    induction cs with
    | nil =>
      intro listed h
      exact ⟨h, fun text => by simp⟩
    | cons c cs ih =>
      intro listed h
      rcases ih _ (Keyed.ascending_insertNew h c) with ⟨hascending, hlisted⟩
      refine ⟨hascending, fun text => ?_⟩
      rw [List.foldl_cons, hlisted, Keyed.exists_mem_insertNew]
      simp only [List.mem_cons, exists_eq_or_imp]
      rw [or_left_comm, or_assoc]
  rcases fold (l.filterMap Document.collection) [] List.Pairwise.nil with ⟨hascending, hlisted⟩
  refine ⟨hascending, fun text => (hlisted text).trans ?_⟩
  simp only [List.mem_filterMap, List.not_mem_nil, false_and, exists_false, or_false, InCollection]
  constructor
  · rintro ⟨c, ⟨d, hd, hc⟩, htext⟩
    exact ⟨d, hd, c, hc, htext⟩
  · rintro ⟨d, hd, c, hc, htext⟩
    exact ⟨c, ⟨d, hd, hc⟩, htext⟩

/-- The collections are listed anew when a document is dropped, and there is no need to
otherwise. -/
theorem Faithful.retain (h : s.Faithful) (keep : Document → Bool) :
    (s.retain keep).2.Faithful := by
  unfold DocumentSet.retain
  dsimp only
  split
  · exact h
  · rcases collectionsOf_spec (s.documents.filter keep) with ⟨hascending, hlisted⟩
    exact ⟨⟨h.ascending.1.sublist List.filter_sublist, hascending⟩, hlisted⟩

/-! ## Ids -/

def ids (s : DocumentSet) : Finset DocId := (s.documents.map Document.id).toFinset

theorem mem_ids : id ∈ s.ids ↔ s.contains id = true := by
  simp [ids, contains_iff]

/-- In an ascending list no id stands twice. -/
theorem nodup_ids (h : s.Ascending) : (s.documents.map Document.id).Nodup := by
  rw [List.nodup_iff_pairwise_ne, List.pairwise_map]
  refine h.1.imp fun hlt heq => ?_
  rw [heq] at hlt
  exact Std.lt_irrefl hlt

theorem card_ids (h : s.Ascending) : s.ids.card = s.size := by
  rw [ids, List.toFinset_card_of_nodup (nodup_ids h), List.length_map, size]

/-- Documents that are added bring their ids along. -/
theorem ids_extend (s : DocumentSet) (l : List Document) :
    (s.extend l).ids = s.ids ∪ (l.map Document.id).toFinset := by
  ext id
  rw [mem_ids, contains_extend, Finset.mem_union, mem_ids]
  simp

theorem ids_extendFrom (s t : DocumentSet) : (s.extendFrom t).ids = s.ids ∪ t.ids :=
  ids_extend s t.documents

theorem ids_union (s t : DocumentSet) : (s.union t).ids = s.ids ∪ t.ids := by
  have hempty : ({} : DocumentSet).ids = ∅ := rfl
  rw [union, ids_extendFrom, ids_extendFrom, hempty, Finset.empty_union, Finset.union_comm]

/-- Documents with ids of their own may be put in without looking for them first. -/
theorem foldl_put_eq_extend (hl : l.Pairwise fun d e => d.id ≠ e.id)
    (hfree : ∀ d ∈ l, s.contains d.id = false) : l.foldl DocumentSet.put s = s.extend l := by
  induction l generalizing s with
  | nil => rfl
  | cons d l ih =>
    have hd := List.pairwise_cons.1 hl
    -- the document is new each time, so to put it in is to add it
    have hput : (s.add d).2 = s.put d := by
      simp [DocumentSet.add, addWith, hfree d List.mem_cons_self]
    have hrest : ∀ e ∈ l, (s.put d).contains e.id = false := by
      intro e he
      rw [← hput, Bool.eq_false_iff]
      intro hthere
      rcases (contains_add s d e.id).1 hthere with heq | hthere
      · exact hd.1 e he heq
      · rw [hfree e (List.mem_cons_of_mem _ he)] at hthere
        contradiction
    rw [List.foldl_cons, ih hd.2 hrest, ← hput]
    rfl

/-- The common documents come from the smaller set, whose ids differ already. -/
theorem intersection_eq (hs : s.Ascending) (ht : t.Ascending) :
    s.intersection t =
      if s.size ≤ t.size then ofList (s.documents.filter fun d => t.contains d.id)
      else ofList (t.documents.filter fun d => s.contains d.id) := by
  -- either way the smaller set is gone through, and its documents have ids of their own
  have build : ∀ {small : DocumentSet} (large : DocumentSet), small.Ascending →
      (small.documents.filter fun d => large.contains d.id).foldl DocumentSet.put {} =
        ofList (small.documents.filter fun d => large.contains d.id) := by
    intro small large h
    have hdistinct : small.documents.Pairwise fun d e => d.id ≠ e.id := by
      have hnodup := nodup_ids h
      rwa [List.nodup_iff_pairwise_ne, List.pairwise_map] at hnodup
    refine foldl_put_eq_extend (hdistinct.sublist List.filter_sublist) ?_
    intro d _
    rfl
  by_cases hle : s.size ≤ t.size
  · simp only [intersection, hle, if_true]
    exact build t hs
  · simp only [intersection, hle, if_false]
    exact build s ht

theorem ids_intersection (hs : s.Ascending) (ht : t.Ascending) :
    (s.intersection t).ids = s.ids ∩ t.ids := by
  -- which of the two is gone through does not matter for the ids
  have common : ∀ small large : DocumentSet,
      (ofList (small.documents.filter fun d => large.contains d.id)).ids =
        small.ids ∩ large.ids := by
    intro small large
    have hempty : ({} : DocumentSet).ids = ∅ := rfl
    rw [ofList, ids_extend, hempty, Finset.empty_union]
    ext id
    simp only [List.mem_toFinset, List.mem_map, List.mem_filter, Finset.mem_inter, mem_ids,
      contains_iff (s := small)]
    constructor
    · rintro ⟨d, ⟨hd, hlarge⟩, rfl⟩
      exact ⟨⟨d, hd, rfl⟩, hlarge⟩
    · rintro ⟨⟨d, hd, rfl⟩, hlarge⟩
      exact ⟨d, ⟨hd, hlarge⟩, rfl⟩
  rw [intersection_eq hs ht]
  split
  · exact common s t
  · rw [common, Finset.inter_comm]

theorem Faithful.intersection (hs : s.Faithful) (ht : t.Faithful) :
    (s.intersection t).Faithful := by
  rw [intersection_eq hs.ascending ht.ascending]
  split <;> exact faithful_empty.extend _

theorem Faithful.union (s t : DocumentSet) : (s.union t).Faithful :=
  (faithful_empty.extend _).extend _

/-- Where an id stands for one document, the documents of a union are those of both sets. -/
theorem mem_union_iff
    (hids : ∀ e ∈ s.documents ++ t.documents, ∀ e' ∈ s.documents ++ t.documents,
      e.id = e'.id → e = e') :
    d ∈ (s.union t).documents ↔ d ∈ s.documents ∨ d ∈ t.documents := by
  have hright : ∀ e, e ∈ (({} : DocumentSet).extend t.documents).documents ↔ e ∈ t.documents := by
    intro e
    rw [mem_extend_iff, or_iff_right List.not_mem_nil]
    intro e he e' he'
    exact hids e (List.mem_append_right _ he) e' (List.mem_append_right _ he')
  rw [union, extendFrom, extendFrom, mem_extend_iff, hright, or_comm]
  intro e he e' he'
  simp only [List.mem_append, hright] at he he'
  exact hids e (List.mem_append.2 he.symm) e' (List.mem_append.2 he'.symm)

/-- The documents of an intersection are those that both sets have. -/
theorem mem_intersection_iff (hs : s.Ascending) (ht : t.Ascending)
    (hids : ∀ e ∈ s.documents, ∀ e' ∈ t.documents, e.id = e'.id → e = e') :
    d ∈ (s.intersection t).documents ↔ d ∈ s.documents ∧ d ∈ t.documents := by
  have hfrom : ∀ small large : DocumentSet, small.Ascending →
      (d ∈ (ofList (small.documents.filter fun e => large.contains e.id)).documents ↔
        d ∈ small.documents ∧ large.contains d.id = true) := by
    intro small large h
    rw [ofList, documents_extend, List.nil_append, List.mem_filter]
    exact h.1.filter _
  rw [intersection_eq hs ht]
  split
  · rw [hfrom s t hs, contains_iff]
    refine and_congr_right fun hd => ⟨?_, fun hd' => ⟨d, hd', rfl⟩⟩
    rintro ⟨e, he, hid⟩
    rwa [hids d hd e he hid.symm]
  · rw [hfrom t s ht, contains_iff, and_comm]
    refine and_congr_left fun hd => ⟨?_, fun hd' => ⟨d, hd', rfl⟩⟩
    rintro ⟨e, he, hid⟩
    rwa [← hids e he d hd hid]

/-- Looking for every document of one set in the other compares their ids. -/
theorem all_contains_iff :
    (t.documents.all fun d => s.contains d.id) = true ↔ t.ids ⊆ s.ids := by
  rw [List.all_eq_true]
  constructor
  · intro h id hid
    rcases contains_iff.1 (mem_ids.1 hid) with ⟨d, hd, rfl⟩
    exact mem_ids.2 (h d hd)
  · intro h d hd
    exact mem_ids.1 (h (mem_ids.2 (contains_iff.2 ⟨d, hd, rfl⟩)))

/-- A set with more documents than another has one that the other has not. -/
theorem containsAll_iff (hs : s.Ascending) (ht : t.Ascending) :
    s.containsAll t = true ↔ t.ids ⊆ s.ids := by
  rw [containsAll, Bool.and_eq_true, decide_eq_true_eq, all_contains_iff]
  constructor
  · intro h
    exact h.2
  · intro h
    have hcard := Finset.card_le_card h
    rw [card_ids hs, card_ids ht] at hcard
    exact ⟨hcard, h⟩

/-- Of two sets that are equally large it is enough to look for the ids of one in the other. -/
theorem equals_iff (hs : s.Ascending) (ht : t.Ascending) :
    s.equals t = true ↔ s.ids = t.ids := by
  rw [equals, Bool.and_eq_true, beq_iff_eq, all_contains_iff, ← card_ids hs, ← card_ids ht]
  constructor
  · rintro ⟨hcard, h⟩
    exact Finset.eq_of_subset_of_card_le h hcard.ge
  · intro h
    rw [h]
    exact ⟨rfl, Finset.Subset.refl _⟩

/-! ## The first and the last -/

theorem minId?_eq_some (h : s.Ascending) :
    s.minId? = some id ↔ s.contains id = true ∧ ∀ d ∈ s.documents, id ≤ d.id := by
  rcases s with ⟨_ | ⟨d, ds⟩, cs⟩
  · simp [minId?, contains_iff]
  · have hfirst := (List.pairwise_cons.1 h.1).1
    simp only [minId?, List.head?_cons, Option.map_some, Option.some.injEq, contains_iff,
      List.mem_cons, exists_eq_or_imp, forall_eq_or_imp]
    constructor
    · rintro rfl
      exact ⟨.inl rfl, Std.le_refl _, fun e he => Std.le_of_lt (hfirst e he)⟩
    · rintro ⟨hid | ⟨e, he, rfl⟩, hle, -⟩
      · exact hid
      · exact absurd (hfirst e he) (Std.not_lt.2 hle)

theorem maxId?_eq_some (h : s.Ascending) :
    s.maxId? = some id ↔ s.contains id = true ∧ ∀ d ∈ s.documents, d.id ≤ id := by
  rcases s with ⟨ds, cs⟩
  -- the last document has the largest id
  rcases List.eq_nil_or_concat ds with rfl | ⟨ds, d, rfl⟩
  · simp [maxId?, contains_iff]
  · rw [List.concat_eq_append] at h ⊢
    have hlast : ∀ e ∈ ds, e.id < d.id := by
      intro e he
      have hpair := (List.pairwise_append.1 h.1).2.2
      exact hpair e he d (List.mem_singleton_self d)
    simp only [maxId?, List.getLast?_append, List.getLast?_singleton, Option.some_or,
      Option.map_some, Option.some.injEq, contains_iff, List.mem_append, List.mem_singleton]
    constructor
    · intro hid
      subst hid
      refine ⟨⟨d, .inr rfl, rfl⟩, fun e he => ?_⟩
      rcases he with he | he
      · exact Std.le_of_lt (hlast e he)
      · rw [he]
        exact Std.le_refl _
    · rintro ⟨⟨e, he | he, hid⟩, hle⟩
      · subst hid
        exact absurd (hlast e he) (Std.not_lt.2 (hle d (.inr rfl)))
      · rw [← he, hid]

end DocumentSet

namespace Catalogue

open DocumentSet (Faithful)

variable {c e : Catalogue}

/-! ## Sets in use -/

/-- The set is faithful, and a list that was kept is still that of its documents. -/
structure Sound (c : Catalogue) : Prop where
  faithful : c.set.Faithful
  current : ∀ l, c.listed = some l → l = c.set.documents

/-- Without a list there is only the set to look at. -/
theorem Sound.of_set {s : DocumentSet} (h : s.Faithful) : Sound { set := s } where
  faithful := h
  current l hl := by simp at hl

theorem Sound.read_eq (h : c.Sound) : c.read.1 = c.set.documents := by
  unfold read
  split
  · next l hl => exact h.current l hl
  · rfl

theorem Sound.read (h : c.Sound) : c.read.2.Sound := by
  unfold Catalogue.read
  split
  · exact h
  · constructor
    · exact h.faithful
    · intro l hl
      exact (Option.some.inj hl).symm

/-- A document may be added without looking for it if its id is free. -/
theorem Sound.addWith (h : c.Sound) {d : Document} {check : Bool}
    (hcheck : check = false → c.set.contains d.id = false) : (c.addWith d check).2.Sound := by
  unfold Catalogue.addWith
  split
  · next set hadd =>
    refine .of_set ?_
    unfold DocumentSet.addWith at hadd
    split at hadd
    · simp at hadd
    · next hnot =>
      have hfree : c.set.contains d.id = false := by
        cases check with
        | false => exact hcheck rfl
        | true => simpa using hnot
      have hset : c.set.put d = set := congrArg Prod.snd hadd
      rw [← hset]
      exact h.faithful.put hfree
  · exact h

theorem Sound.add (h : c.Sound) (d : Document) : (c.add d).2.Sound :=
  h.addWith fun hcheck => by simp at hcheck

theorem Sound.addNode (h : c.Sound) (n : Node) : (c.addNode n).2.Sound := by
  unfold Catalogue.addNode
  split
  · exact h.add n.document
  · exact h

theorem Sound.extend (h : c.Sound) (l : List Document) : (c.extend l).Sound := by
  induction l generalizing c with
  | nil => exact h
  | cons d l ih => exact ih (h.add d)

theorem Sound.retain (h : c.Sound) (keep : Document → Bool) : (c.retain keep).2.Sound := by
  unfold Catalogue.retain
  split
  · exact h
  · next dropped set _ hretain =>
    have hset : (c.set.retain keep).2 = set := congrArg Prod.snd hretain
    rw [← hset]
    exact .of_set (h.faithful.retain keep)

/-- Sets in use: made of nothing, changed and read in any order, and combined. A document is added
without looking for it only if its id is free. -/
inductive Built : Catalogue → Prop
  | empty : Built {}
  | read {c : Catalogue} : Built c → Built c.read.2
  | addWith {c : Catalogue} (d : Document) (check : Bool)
    (hcheck : check = false → c.set.contains d.id = false) : Built c → Built (c.addWith d check).2
  | addNode {c : Catalogue} (n : Node) : Built c → Built (c.addNode n).2
  | addAll {c : Catalogue} (l : List Document) (subject : Option Subject) (check : Bool) :
    Built c → Built (c.addAll l subject check).2
  | extend {c : Catalogue} (l : List Document) : Built c → Built (c.extend l)
  | extendFrom {c e : Catalogue} : Built c → Built e → Built (c.extendFrom e)
  | retain {c : Catalogue} (keep : Document → Bool) : Built c → Built (c.retain keep).2
  | clear {c : Catalogue} : Built c → Built c.clear
  | union {c e : Catalogue} : Built c → Built e → Built (c.union e)
  | intersection {c e : Catalogue} : Built c → Built e → Built (c.intersection e)

/-- No operation leaves a list behind that its set has outgrown. -/
theorem sound_of_built (h : c.Built) : c.Sound := by
  have empty : Sound {} := .of_set DocumentSet.faithful_empty
  induction h with
  | empty => exact empty
  | read _ ih => exact ih.read
  | addWith d check hcheck _ ih => exact ih.addWith hcheck
  | addNode n _ ih => exact ih.addNode n
  | addAll l subject check _ ih => exact ih.extend _
  | extend l _ ih => exact ih.extend l
  | extendFrom _ _ ihc _ => exact ihc.extend _
  | retain keep _ ih => exact ih.retain keep
  | clear _ _ => exact empty
  | union _ _ _ _ => exact (empty.extend _).extend _
  | intersection _ _ ihc ihe => exact .of_set (ihc.faithful.intersection ihe.faithful)

theorem set_union (c e : Catalogue) : (c.union e).set = c.set.union e.set := by
  rw [union, extendFrom, set_extend, extendFrom, set_extend]
  rfl

/-- However sets were built, and whoever read them in between: the collections listed are those that
the documents found are in, once each and in the order of their uris; readers get the documents
found, once each and in ascending order of ids; their number and the extreme ids are right. And two
such sets are combined and compared as the sets of their ids are. -/
theorem faithful_of_built (h : c.Built) :
    (c.set.collections.Pairwise (fun a b => a.uri.text < b.uri.text) ∧
      ∀ u, (∃ a ∈ c.set.collections, a.uri = u) ↔
        ∃ d, c.set.find? d.id = some d ∧ ∃ a, d.collection = some a ∧ a.uri = u) ∧
    (c.read.1.Pairwise (fun d d' => d.id < d'.id) ∧
      (∀ d, d ∈ c.read.1 ↔ c.set.find? d.id = some d) ∧
      (∀ n, (c.at? n).1 = c.read.1[n]?) ∧ c.set.size = c.read.1.length) ∧
    ((∀ id, c.set.minId? = some id ↔ id ∈ c.set.ids ∧ ∀ i ∈ c.set.ids, id ≤ i) ∧
      ∀ id, c.set.maxId? = some id ↔ id ∈ c.set.ids ∧ ∀ i ∈ c.set.ids, i ≤ id) ∧
    ∀ e : Catalogue, e.Built →
      (c.union e).set.ids = c.set.ids ∪ e.set.ids ∧
      (c.intersection e).set.ids = c.set.ids ∩ e.set.ids ∧
      (c.set.containsAll e.set = true ↔ e.set.ids ⊆ c.set.ids) ∧
      (c.set.equals e.set = true ↔ c.set.ids = e.set.ids) ∧
      (c.union e).set.size + (c.intersection e).set.size = c.set.size + e.set.size := by
  have sound := sound_of_built h
  have hascending := sound.faithful.ascending
  have hfound : ∀ d, d ∈ c.set.documents ↔ c.set.find? d.id = some d := by
    intro d
    constructor
    · exact Keyed.find?_of_mem hascending.1
    · intro hd
      exact (Keyed.mem_of_find? hd).1
  have heach : ∀ P : DocId → Prop, (∀ i ∈ c.set.ids, P i) ↔ ∀ d ∈ c.set.documents, P d.id := by
    intro P
    simp [DocumentSet.ids]
  refine ⟨⟨hascending.2, fun u => ?_⟩, ⟨?_, ?_, fun n => rfl, ?_⟩, ⟨fun id => ?_, fun id => ?_⟩,
    fun e he => ?_⟩
  · -- what is listed under a text has that uri, as uris are told by their texts
    have hlisted := sound.faithful.listed_iff u.text
    constructor
    · rintro ⟨a, ha, rfl⟩
      rcases hlisted.1 ⟨a, ha, rfl⟩ with ⟨d, hd, b, hb, htext⟩
      exact ⟨d, (hfound d).1 hd, b, hb, CollectionUri.text_injective htext⟩
    · rintro ⟨d, hd, a, ha, rfl⟩
      rcases hlisted.2 ⟨d, (hfound d).2 hd, a, ha, rfl⟩ with ⟨b, hb, htext⟩
      exact ⟨b, hb, CollectionUri.text_injective htext⟩
  · -- what is read is the kept list, which is that of the documents
    rw [sound.read_eq]
    exact hascending.1
  · rw [sound.read_eq]
    exact hfound
  · rw [sound.read_eq]
    rfl
  · rw [DocumentSet.minId?_eq_some hascending, DocumentSet.mem_ids, heach]
  · rw [DocumentSet.maxId?_eq_some hascending, DocumentSet.mem_ids, heach]
  · have hother := (sound_of_built he).faithful.ascending
    have hunion := (sound_of_built (h.union he)).faithful.ascending
    have hintersection := (sound_of_built (h.intersection he)).faithful.ascending
    have hids : (c.union e).set.ids = c.set.ids ∪ e.set.ids := by
      rw [set_union, DocumentSet.ids_union]
    have hcommon : (c.intersection e).set.ids = c.set.ids ∩ e.set.ids :=
      DocumentSet.ids_intersection hascending hother
    refine ⟨hids, hcommon, DocumentSet.containsAll_iff hascending hother,
      DocumentSet.equals_iff hascending hother, ?_⟩
    -- numbers of members are numbers of ids, for which the law is known
    rw [← DocumentSet.card_ids hunion, ← DocumentSet.card_ids hintersection, hids, hcommon,
      Finset.card_union_add_card_inter, DocumentSet.card_ids hascending,
      DocumentSet.card_ids hother]

/-- A document that was put into a collection below the root. -/
def filedIn (segment : String) (h : IsSegment segment) (id : DocId) : Document where
  id
  fileName := "x.xml"
  collection := some ⟨⟨[segment], by simpa using h⟩, Permission.ofMode adminUser adminGroup 0⟩
  permission := Permission.ofMode adminUser adminGroup 0
  kind := .xml
  lock := ⟨0, id⟩

/-- A set is read and then changed: the next reader finds the new document in its place, and another
document under a number that is taken is left out with its collection. -/
theorem faithful_of_built_reread :
    let a := filedIn "a" (by decide)
    let b := filedIn "b" (by decide)
    let c := (((ofList [b 5, a 2]).read.2.add (b 1)).2.add (filedIn "c" (by decide) 2)).2
    let e := ofList [a 2, a 7]
    c.read.1.map Document.id = [1, 2, 5] ∧
    c.set.collections.map Collection.key = ["/db/a", "/db/b"] ∧
    (∀ d, d ∈ c.read.1 ↔ c.set.find? d.id = some d) ∧
    (c.union e).set.size + (c.intersection e).set.size = 5 ∧ c.set.containsAll e.set = false := by
  intro a b c e
  have hc : Built c :=
    .addWith _ true (by simp) (.addWith _ true (by simp) (.read (.extend _ .empty)))
  have he : Built e := .extend _ .empty
  rcases faithful_of_built hc with ⟨-, ⟨-, hfound, -, -⟩, -, halgebra⟩
  rcases halgebra e he with ⟨-, -, -, -, hsize⟩
  refine ⟨by decide +kernel, by decide +kernel, hfound, ?_, by decide +kernel⟩
  rw [hsize]
  decide +kernel

end Catalogue
end DocBase
