import DocBase.Proofs.Document.Algebra
import DocBase.Query.Evaluation
import Mathlib.Data.Finset.Prod
/-!
# The algebra of node sets

A node set is told by the places of its nodes: the document and the number of the node in it. As
sets are searched by halves and merged in one pass, all of this holds because every way to build a
set keeps document order. Main statements:

* `NodeSet.ascending_of_built` — every operation keeps document order;
* `NodeSet.places_union`, `NodeSet.places_intersection` and `NodeSet.places_except` — sets are
  combined by their places, and nodes of both are taken from the left one;
* `NodeSet.exact_of_built` — what can be seen of sets however they were built, and of the values of
  the operators that queries combine nodes with.
-/

namespace DocBase

open Query

namespace Node

/-- What tells a node from others. -/
def place (n : Node) : DocId × NodeId := (n.document.id, n.id)

theorem key_eq_iff_place {m n : Node} : m.key = n.key ↔ m.place = n.place := by
  rw [key_eq_iff, place, place, Prod.mk.injEq]

/-- The document id counts before the node id. -/
theorem key_lt_iff {m n : Node} :
    m.key < n.key ↔ m.document.id < n.document.id ∨ m.document.id = n.document.id ∧ m.id < n.id := by
  have hm := m.id.toNat_lt
  have hn := n.id.toNat_lt
  rw [UInt32.lt_iff_toNat_lt, UInt32.lt_iff_toNat_lt, ← UInt32.toNat_inj]
  unfold key
  omega

end Node

/-- Document order without repeats. -/
def InDocumentOrder (l : List Node) : Prop :=
  l.Pairwise fun m n =>
    m.document.id < n.document.id ∨ m.document.id = n.document.id ∧ m.id < n.id

/-- The places of some nodes. -/
def places (l : List Node) : Finset (DocId × NodeId) := (l.map Node.place).toFinset

theorem mem_places {l : List Node} {p : DocId × NodeId} : p ∈ places l ↔ ∃ n ∈ l, n.place = p := by
  simp [places]

/-- What an operator makes of the places on its left and on its right. -/
def Query.SetOperator.onPlaces : SetOperator → Finset (DocId × NodeId) → Finset (DocId × NodeId) →
    Finset (DocId × NodeId)
  | .union => (· ∪ ·)
  | .intersect => (· ∩ ·)
  | .except => (· \ ·)

namespace NodeSet

variable {s t : NodeSet} {n m : Node} {l : List Node} {p : DocId × NodeId}

theorem Ascending.inDocumentOrder (h : s.Ascending) : InDocumentOrder s.nodes :=
  List.Pairwise.imp (fun hlt => Node.key_lt_iff.1 hlt) h

/-- In document order a node is found exactly if its place is taken. -/
theorem contains_iff (h : s.Ascending) : s.contains n = true ↔ n.place ∈ places s.nodes := by
  rw [contains_eq h, Keyed.isSome_find?, mem_places]
  simp only [Node.key_eq_iff_place]

/-! ## Adding -/

/-- A node is added if its place is free, and nothing else changes. -/
theorem mem_add_iff (h : s.Ascending) :
    m ∈ (s.add n).2.nodes ↔ m ∈ s.nodes ∨ m = n ∧ n.place ∉ places s.nodes := by
  rw [add_eq h, ← contains_iff h, contains_eq h]
  dsimp only
  rw [Keyed.insertNew]
  split
  · next hthere => simp [hthere]
  · next hfree =>
    have hother : ∀ m ∈ s.nodes, m.key ≠ n.key := fun m hm hkey =>
      hfree (Keyed.isSome_find?.2 ⟨m, hm, hkey⟩)
    rw [Keyed.mem_insert_of_free h hother, or_comm]
    simp [hfree]

theorem places_add (h : s.Ascending) (n : Node) :
    places (s.add n).2.nodes = insert n.place (places s.nodes) := by
  ext p
  rw [Finset.mem_insert, mem_places, mem_places]
  simp only [mem_add_iff h]
  constructor
  · rintro ⟨m, hm | ⟨rfl, -⟩, rfl⟩
    · exact .inr ⟨m, hm, rfl⟩
    · exact .inl rfl
  · rintro (rfl | ⟨m, hm, rfl⟩)
    · -- a place that is taken keeps its node
      by_cases hn : n.place ∈ places s.nodes
      · rcases mem_places.1 hn with ⟨m, hm, hplace⟩
        exact ⟨m, .inl hm, hplace⟩
      · exact ⟨n, .inr ⟨rfl, hn⟩, rfl⟩
    · exact ⟨m, .inl hm, rfl⟩

theorem places_addAll (h : s.Ascending) (l : List Node) :
    places (s.addAll l).nodes = places s.nodes ∪ places l := by
  induction l generalizing s with
  | nil => simp [addAll, places]
  | cons n l ih =>
    show places ((s.add n).2.addAll l).nodes = _
    rw [ih (ascending_add h n), places_add h]
    simp [places]

/-! ## Sorting -/

/-- Of the nodes at one place the first is kept. -/
theorem mem_ofList : n ∈ (ofList l).nodes ↔ l.find? (·.place = n.place) = some n := by
  rw [ofList, Keyed.mem_sorted, Keyed.find?]
  simp only [Node.key_eq_iff_place]

theorem places_ofList (l : List Node) : places (ofList l).nodes = places l := by
  ext p
  rw [mem_places, mem_places]
  simp only [mem_ofList]
  constructor
  · rintro ⟨n, hn, rfl⟩
    exact ⟨n, List.mem_of_find?_eq_some hn, rfl⟩
  · rintro ⟨n, hn, rfl⟩
    have hsome : (l.find? (·.place = n.place)).isSome = true := by
      rw [List.find?_isSome]
      exact ⟨n, hn, by simp⟩
    rcases Option.isSome_iff_exists.1 hsome with ⟨first, hfirst⟩
    have hplace : first.place = n.place := by simpa using List.find?_some hfirst
    exact ⟨first, by rw [hplace, hfirst], hplace⟩

/-! ## Combining -/

theorem mem_union (hs : s.Ascending) (ht : t.Ascending) :
    n ∈ (s.union t).nodes ↔ n ∈ s.nodes ∨ n ∈ t.nodes ∧ n.place ∉ places s.nodes := by
  rw [union, Keyed.mem_merge hs ht, mem_places]
  simp only [ne_eq, Node.key_eq_iff_place, not_exists, not_and]

theorem mem_intersection (ht : t.Ascending) :
    n ∈ (s.intersection t).nodes ↔ n ∈ s.nodes ∧ n.place ∈ places t.nodes := by
  rw [intersection, List.mem_filter, contains_iff ht]

theorem mem_except (ht : t.Ascending) :
    n ∈ (s.except t).nodes ↔ n ∈ s.nodes ∧ n.place ∉ places t.nodes := by
  rw [except, List.mem_filter, ← contains_iff ht]
  simp

theorem places_union (hs : s.Ascending) (ht : t.Ascending) :
    places (s.union t).nodes = places s.nodes ∪ places t.nodes := by
  ext p
  rw [Finset.mem_union, mem_places]
  simp only [mem_union hs ht]
  constructor
  · rintro ⟨n, hn | ⟨hn, -⟩, rfl⟩
    · exact .inl (mem_places.2 ⟨n, hn, rfl⟩)
    · exact .inr (mem_places.2 ⟨n, hn, rfl⟩)
  · intro hp
    -- of two nodes at one place the left one stays
    by_cases hleft : p ∈ places s.nodes
    · rcases mem_places.1 hleft with ⟨n, hn, rfl⟩
      exact ⟨n, .inl hn, rfl⟩
    · rcases mem_places.1 (hp.resolve_left hleft) with ⟨n, hn, rfl⟩
      exact ⟨n, .inr ⟨hn, hleft⟩, rfl⟩

theorem places_intersection (ht : t.Ascending) :
    places (s.intersection t).nodes = places s.nodes ∩ places t.nodes := by
  ext p
  rw [Finset.mem_inter, mem_places, mem_places]
  simp only [mem_intersection ht]
  constructor
  · rintro ⟨n, ⟨hn, hother⟩, rfl⟩
    exact ⟨⟨n, hn, rfl⟩, hother⟩
  · rintro ⟨⟨n, hn, rfl⟩, hother⟩
    exact ⟨n, ⟨hn, hother⟩, rfl⟩

theorem places_except (ht : t.Ascending) :
    places (s.except t).nodes = places s.nodes \ places t.nodes := by
  ext p
  rw [Finset.mem_sdiff, mem_places, mem_places]
  simp only [mem_except ht]
  constructor
  · rintro ⟨n, ⟨hn, hother⟩, rfl⟩
    exact ⟨⟨n, hn, rfl⟩, hother⟩
  · rintro ⟨⟨n, hn, rfl⟩, hother⟩
    exact ⟨n, ⟨hn, hother⟩, rfl⟩

/-- What the operators that queries combine nodes with have in common: the nodes are in document
order, their places are those on both sides as the operator says, and a node on the left is taken
from there. -/
structure Combines (op : SetOperator) (left right nodes : List Node) : Prop where
  ordered : InDocumentOrder nodes
  places_eq : places nodes = op.onPlaces (places left) (places right)
  from_left : ∀ n ∈ nodes, n ∈ left ∨ n ∈ right ∧ n.place ∉ places left

theorem combines_apply (op : SetOperator) (hs : s.Ascending) (ht : t.Ascending) :
    Combines op s.nodes t.nodes (op.apply s t).nodes := by
  cases op with
  | union =>
    exact ⟨(ascending_union hs ht).inDocumentOrder, places_union hs ht, fun n => (mem_union hs ht).1⟩
  | intersect =>
    exact ⟨(ascending_intersection hs t).inDocumentOrder, places_intersection ht,
      fun n hn => .inl ((mem_intersection ht).1 hn).1⟩
  | except =>
    exact ⟨(ascending_except hs t).inDocumentOrder, places_except ht,
      fun n hn => .inl ((mem_except ht).1 hn).1⟩

/-! ## However sets are built -/

/-- Sets made of nothing, of lists and of document sets, added to and combined in any order. -/
inductive Built : NodeSet → Prop
  | empty : Built {}
  | ofList (l : List Node) : Built (ofList l)
  | toNodeSet (set : DocumentSet) : Built set.toNodeSet
  | add {s : NodeSet} (n : Node) : Built s → Built (s.add n).2
  | union {s t : NodeSet} : Built s → Built t → Built (s.union t)
  | intersection {s t : NodeSet} : Built s → Built t → Built (s.intersection t)
  | except {s t : NodeSet} : Built s → Built t → Built (s.except t)

/-- Every operation keeps document order. -/
theorem ascending_of_built (built : Built s) : s.Ascending := by
  induction built with
  | empty => exact ascending_empty
  | ofList l => exact ascending_ofList l
  | toNodeSet set => exact ascending_addAll ascending_empty _
  | add n _ ih => exact ascending_add ih n
  | union _ _ ihs iht => exact ascending_union ihs iht
  | intersection _ _ ihs _ => exact ascending_intersection ihs _
  | except _ _ ihs _ => exact ascending_except ihs _

/-! ## Documents -/

/-- The documents of some nodes are those their places name. -/
theorem ids_documents (s : NodeSet) : s.documents.ids = (places s.nodes).image Prod.fst := by
  ext id
  have hempty : ({} : DocumentSet).contains id = false := rfl
  rw [documents, DocumentSet.mem_ids, DocumentSet.ofList, DocumentSet.contains_extend, hempty]
  simp [places, Node.place]

/-- The documents of the document nodes of a set are its XML documents. -/
theorem ids_toNodeSet (set : DocumentSet) :
    set.toNodeSet.documents.ids = ((set.documents.filter Document.isXml).map Document.id).toFinset := by
  rw [ids_documents, DocumentSet.toNodeSet, places_addAll ascending_empty]
  ext id
  simp [places, Node.place]

end NodeSet

/-! ## Operators of queries -/

theorem Query.nodesOf_map (op : SetOperator) (l : List Node) : nodesOf op (l.map .node) = .ok l := by
  induction l with
  | nil => rfl
  | cons n l ih =>
    rw [List.map_cons, nodesOf, ih]
    rfl

/-- Operands that are nodes, in any order and with repeats, are combined. -/
theorem Query.Evaluation.evaluate_combine {v : Evaluation} {fuel : Nat} {id l r : ExprId}
    {op : SetOperator} {left right : List Node} {m m₁ m₂ : Machine}
    (hkind : v.tree.kind? id = some (.combine op l r))
    (hleft : v.evaluate fuel l m = (.ok (left.map .node), m₁))
    (hright : v.evaluate fuel r m₁ = (.ok (right.map .node), m₂)) :
    v.evaluate (fuel + 1) id m =
      (.ok ((op.apply (.ofList left) (.ofList right)).nodes.map .node), m₂) := by
  simp only [evaluate, hkind]
  simp only [bind, ExceptT.bind, ExceptT.mk, StateT.bind, hleft, ExceptT.bindCont, nodesOf_map,
    Evaluating.ofExcept, hright]
  rfl

namespace NodeSet

/-- Lists are combined as the sets made of them are. -/
theorem Combines.of_ofList {op : SetOperator} {left right nodes : List Node}
    (h : Combines op (ofList left).nodes (ofList right).nodes nodes) : Combines op left right nodes where
  ordered := h.ordered
  places_eq := by rw [h.places_eq, places_ofList, places_ofList]
  from_left n hn := by
    rcases h.from_left n hn with hleft | ⟨hright, hother⟩
    · exact .inl (List.mem_of_find?_eq_some (mem_ofList.1 hleft))
    · rw [places_ofList] at hother
      exact .inr ⟨List.mem_of_find?_eq_some (mem_ofList.1 hright), hother⟩

/-- However a set was built, its nodes are in document order without repeats; it contains a node
exactly if one of them has its place; a node is added exactly if none has, and then beside all
others; and two such sets are combined as the sets of their places are, the nodes of both being
those of the left one. A set made of a list has the places of the list, and of the nodes at one
place the first; one made of a document set has its XML documents. So what an operator of a query
gives for operands that are nodes, in whatever order and with whatever repeats, is what it says of
their places, in document order and without repeats. -/
theorem exact_of_built :
    (∀ s, Built s →
      InDocumentOrder s.nodes ∧
      (∀ n, s.contains n = true ↔ n.place ∈ places s.nodes) ∧
      (∀ n, ((s.add n).1 = true ↔ n.place ∉ places s.nodes) ∧
        ∀ m, m ∈ (s.add n).2.nodes ↔ m ∈ s.nodes ∨ m = n ∧ n.place ∉ places s.nodes) ∧
      ∀ t, Built t →
        Combines .union s.nodes t.nodes (s.union t).nodes ∧
        Combines .intersect s.nodes t.nodes (s.intersection t).nodes ∧
        Combines .except s.nodes t.nodes (s.except t).nodes) ∧
    (∀ l, places (ofList l).nodes = places l ∧
      ∀ n ∈ (ofList l).nodes, l.find? (·.place = n.place) = some n) ∧
    (∀ set : DocumentSet, set.toNodeSet.documents.ids =
      ((set.documents.filter Document.isXml).map Document.id).toFinset) ∧
    ∀ (v : Evaluation) (fuel : Nat) (id l r : ExprId) (op : SetOperator) (left right : List Node)
      (m m₁ m₂ : Machine), v.tree.kind? id = some (.combine op l r) →
      v.evaluate fuel l m = (.ok (left.map .node), m₁) →
      v.evaluate fuel r m₁ = (.ok (right.map .node), m₂) →
      ∃ nodes, v.evaluate (fuel + 1) id m = (.ok (nodes.map .node), m₂) ∧
        Combines op left right nodes := by
  -- sets are ordered by how they are built, and from that each law follows
  refine ⟨fun s hs => ?_, fun l => ⟨places_ofList l, fun n => mem_ofList.1⟩, ids_toNodeSet, ?_⟩
  · have ascending := ascending_of_built hs
    refine ⟨ascending.inDocumentOrder, fun n => contains_iff ascending, fun n => ⟨?_, fun m => ?_⟩,
      fun t ht => ?_⟩
    · rw [add_eq ascending, ← contains_iff ascending]
      simp
    · exact mem_add_iff ascending
    · have other := ascending_of_built ht
      exact ⟨combines_apply .union ascending other, combines_apply .intersect ascending other,
        combines_apply .except ascending other⟩
  · -- operands come as sequences, so they are put in order before they are combined
    intro v fuel id l r op left right m m₁ m₂ hkind hleft hright
    have hcombined := combines_apply op (ascending_ofList left) (ascending_ofList right)
    exact ⟨_, Evaluation.evaluate_combine hkind hleft hright, hcombined.of_ofList⟩

/-- The query `collection('/db/a') intersect doc('/db/a/x.xml')` as it is compiled. -/
def bothCalls : Tree where
  nodes := #[⟨.literal (.string "/db/a"), some 1, none⟩, ⟨.call .collection [0], some 4, none⟩,
    ⟨.literal (.string "/db/a/x.xml"), some 3, none⟩, ⟨.call .doc [2], some 4, none⟩,
    ⟨.combine .intersect 1 3, none, none⟩]
  root := some 4

/-- A list with repeats, beside documents of which one is described anew. -/
theorem exact_of_built_repeated :
    let d := Catalogue.filedIn "a" (by decide)
    let set := DocumentSet.ofList [d 3, { d 1 with fileName := "y.xml" }]
    let s := ofList [⟨d 2, 0⟩, ⟨d 1, 7⟩, ⟨d 2, 0⟩, ⟨d 1, 0⟩]
    let t := set.toNodeSet
    InDocumentOrder (s.union t).nodes ∧
    places (s.union t).nodes = {(1, 0), (1, 7), (2, 0), (3, 0)} ∧
    (∀ n ∈ (s.union t).nodes, n.place = (1, 0) → n.document.fileName = "x.xml") ∧
    places (s.except t).nodes = {(1, 7), (2, 0)} ∧ (s.add ⟨d 3, 0⟩).1 = true ∧
    set.toNodeSet.documents.ids = {1, 3} ∧
    ∃ nodes, Evaluation.evaluate ⟨bothCalls, {}, [(1, set), (3, .ofList [d 1])]⟩ 2 4 {} =
      (.ok (nodes.map .node), {}) ∧ places nodes = {(1, 0)} := by
  intro d set s t
  rcases exact_of_built with ⟨hbuilt, hlist, hids, hquery⟩
  rcases hbuilt s (.ofList _) with ⟨-, -, hadd, hcombine⟩
  rcases hcombine t (.toNodeSet _) with ⟨hunion, -, hexcept⟩
  have hs : places s.nodes = {(1, 0), (1, 7), (2, 0)} := by
    rw [(hlist _).1]
    decide +kernel
  have ht : places t.nodes = {(1, 0), (3, 0)} := by decide +kernel
  refine ⟨hunion.ordered, ?_, fun n hn hplace => ?_, ?_, ?_, ?_, ?_⟩
  · rw [hunion.places_eq, hs, ht]
    decide +kernel
  · -- the node at this place is in both sets, and the union takes it from the left one
    rcases hunion.from_left n hn with hleft | ⟨-, hother⟩
    · have hfirst := (hlist _).2 n hleft
      rw [hplace] at hfirst
      have hname : (List.find? (fun m : Node => m.place = (1, 0))
          [⟨d 2, 0⟩, ⟨d 1, 7⟩, ⟨d 2, 0⟩, ⟨d 1, 0⟩]).map (·.document.fileName) = some "x.xml" := by
        decide +kernel
      rw [hfirst] at hname
      exact Option.some.inj hname
    · rw [hplace, hs] at hother
      exact absurd hother (by decide)
  · rw [hexcept.places_eq, hs, ht]
    decide +kernel
  · rw [(hadd _).1, hs]
    decide +kernel
  · rw [hids]
    decide +kernel
  · rcases hquery ⟨bothCalls, {}, [(1, set), (3, .ofList [d 1])]⟩ 1 4 1 3 .intersect
      set.toNodeSet.nodes (DocumentSet.ofList [d 1]).toNodeSet.nodes {} {} {} rfl rfl rfl
      with ⟨nodes, heval, hnodes⟩
    refine ⟨nodes, heval, ?_⟩
    rw [hnodes.places_eq]
    decide +kernel

end NodeSet
end DocBase
