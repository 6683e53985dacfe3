import DocBase.Document.Set
import Mathlib.Data.List.InsertIdx
/-!
# Documents apart from their locks

Two stores may guard the same document with different locks. What is left of a document when its
lock is not told from others is the same in both, and sets of documents and nodes are built from
that alone. Main statements:

* `DocumentSet.extend_plain` and `DocumentSet.toNodeSet_plain` — sets of documents;
* `NodeSet.union_plain`, `NodeSet.intersection_plain` and `NodeSet.except_plain` — sets of nodes.
-/

namespace DocBase

/-- The document as everybody sees it: its lock is not told from other locks of the same id. -/
def Document.plain (d : Document) : Document := { d with lock := ⟨0, d.lock.document⟩ }

def Node.plain (n : Node) : Node := { n with document := n.document.plain }

theorem Document.id_plain (d : Document) : d.plain.id = d.id := rfl

theorem Node.key_plain (n : Node) : n.plain.key = n.key := rfl

def NodeSet.plain (s : NodeSet) : NodeSet := ⟨s.nodes.map Node.plain⟩

def DocumentSet.plain (s : DocumentSet) : DocumentSet :=
  { s with documents := s.documents.map Document.plain }

namespace NodeSet

variable {s t : NodeSet}

theorem locate_plain (s : NodeSet) (n : Node) :
    Keyed.locate Node.key n.plain.key s.plain.nodes = Keyed.locate Node.key n.key s.nodes :=
  Keyed.locateFrom_map Node.key_plain n.key 0 s.nodes

theorem contains_plain (s : NodeSet) (n : Node) : s.plain.contains n.plain = s.contains n := by
  rw [contains, contains, locate_plain]

theorem add_plain (s : NodeSet) (n : Node) : (s.plain.add n.plain).2 = (s.add n).2.plain := by
  have hlast : s.plain.nodes.getLast?.all (·.key < n.plain.key) =
      s.nodes.getLast?.all (·.key < n.key) := by
    rw [plain, List.getLast?_map, Option.all_map]
    rfl
  rw [add, add, hlast, locate_plain]
  split
  · simp [plain]
  · split
    · rfl
    · simp [plain, List.map_insertIdx]

theorem addAll_plain (s : NodeSet) (l : List Node) :
    s.plain.addAll (l.map Node.plain) = (s.addAll l).plain := by
  induction l generalizing s with
  | nil => rfl
  | cons n l ih =>
    show (s.plain.add n.plain).2.addAll (l.map Node.plain) = _
    rw [add_plain, ih]
    rfl

theorem ofList_plain (l : List Node) : ofList (l.map Node.plain) = (ofList l).plain :=
  congrArg NodeSet.mk (Keyed.sorted_map Node.key_plain l)

theorem union_plain (s t : NodeSet) : s.plain.union t.plain = (s.union t).plain :=
  congrArg NodeSet.mk (Keyed.merge_map Node.key_plain s.nodes t.nodes)

theorem filter_plain {p q : Node → Bool} (h : ∀ n, p n.plain = q n) (l : List Node) :
    (l.map Node.plain).filter p = (l.filter q).map Node.plain := by
  rw [List.filter_map]
  congr 2
  funext n
  exact h n

theorem intersection_plain (s t : NodeSet) :
    s.plain.intersection t.plain = (s.intersection t).plain :=
  congrArg NodeSet.mk (filter_plain (contains_plain t) s.nodes)

theorem except_plain (s t : NodeSet) : s.plain.except t.plain = (s.except t).plain :=
  congrArg NodeSet.mk (filter_plain (fun n => congrArg not (contains_plain t n)) s.nodes)

end NodeSet

namespace DocumentSet

theorem contains_plain (s : DocumentSet) (id : DocId) : s.plain.contains id = s.contains id := by
  have hfind := Keyed.find?_map Document.id_plain id s.documents
  rw [contains, contains, find?, find?, plain, hfind, Option.isSome_map]

theorem put_plain (s : DocumentSet) (d : Document) : s.plain.put d.plain = (s.put d).plain := by
  have hinsert := Keyed.insert_map Document.id_plain d s.documents
  simp only [put, plain, hinsert]
  rfl

theorem add_plain (s : DocumentSet) (d : Document) : (s.plain.add d.plain).2 = (s.add d).2.plain := by
  unfold add addWith
  rw [show s.plain.contains d.plain.id = s.contains d.id from contains_plain s d.id, put_plain]
  split <;> rfl

theorem extend_plain (s : DocumentSet) (l : List Document) :
    s.plain.extend (l.map Document.plain) = (s.extend l).plain := by
  induction l generalizing s with
  | nil => rfl
  | cons d l ih =>
    show (s.plain.add d.plain).2.extend (l.map Document.plain) = _
    rw [add_plain, ih]
    rfl

theorem ofList_plain (l : List Document) : ofList (l.map Document.plain) = (ofList l).plain :=
  extend_plain {} l

theorem extendFrom_plain (s t : DocumentSet) : s.plain.extendFrom t.plain = (s.extendFrom t).plain :=
  extend_plain s t.documents

theorem toNodeSet_plain (s : DocumentSet) : s.plain.toNodeSet = s.toNodeSet.plain := by
  have hxml : (s.documents.map Document.plain).filter Document.isXml =
      (s.documents.filter Document.isXml).map Document.plain := List.filter_map ..
  rw [toNodeSet, toNodeSet, plain, hxml, ← NodeSet.addAll_plain, List.map_map, List.map_map]
  rfl

end DocumentSet
end DocBase
