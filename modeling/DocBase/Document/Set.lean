import DocBase.Node.Set
/-!
# Document sets

Documents by id in ascending order, together with the collections they come from in the order of
their uris. Sets are compared and combined by document id alone. Main statements: adding documents
keeps both orders (`ascending_add`), as do the set operations built from it.
-/

namespace DocBase

structure DocumentSet where
  documents : List Document := []
  collections : List Collection := []
deriving Repr

/-- A node that is no document where a document was asked for. -/
structure NotADocument where
  document : DocId
  node : NodeId
deriving DecidableEq, Repr

def NotADocument.message (e : NotADocument) : String :=
  "node NodeId(" ++ toString e.node.toNat ++ ") of document " ++ toString e.document.toNat ++
    " is not a document node"

namespace DocumentSet

/-- The document with an id. -/
def find? (s : DocumentSet) (id : DocId) : Option Document :=
  Keyed.find? Document.id id s.documents

def contains (s : DocumentSet) (id : DocId) : Bool := (s.find? id).isSome

def size (s : DocumentSet) : Nat := s.documents.length

def isEmpty (s : DocumentSet) : Bool := s.documents.isEmpty

/-- Puts a document in, replacing one with the same id. The collection of a replaced document stays
listed, so callers see to it that the id is free. -/
def put (s : DocumentSet) (d : Document) : DocumentSet where
  documents := Keyed.insert Document.id d s.documents
  collections := match d.collection with
    | some c => Keyed.insertNew Collection.key c s.collections
    | none => s.collections

/-- Adds a document and says whether it did; with `check`, a document whose id is taken is not
added. -/
def addWith (s : DocumentSet) (d : Document) (check : Bool) : Bool × DocumentSet :=
  if check && s.contains d.id then (false, s) else (true, s.put d)

def add (s : DocumentSet) (d : Document) : Bool × DocumentSet := s.addWith d true

/-- Adds the document that a document node stands for. -/
def addNode (s : DocumentSet) (n : Node) : Except NotADocument Bool × DocumentSet :=
  if n.isDocument then
    let (added, s') := s.add n.document
    (.ok added, s')
  else (.error ⟨n.document.id, n.id⟩, s)

def extend (s : DocumentSet) (l : List Document) : DocumentSet :=
  l.foldl (fun s d => (s.add d).2) s

def ofList (l : List Document) : DocumentSet := ({} : DocumentSet).extend l

/-- Adds the documents a subject may read, or all of them without a subject or without `check`; says
how many were added. -/
def addAll (s : DocumentSet) (l : List Document) (subject : Option Subject) (check : Bool) :
    Nat × DocumentSet :=
  let allowed := l.filter fun d => !check || subject.all d.readableBy
  let s' := s.extend allowed
  (s'.size - s.size, s')

def extendFrom (s t : DocumentSet) : DocumentSet := s.extend t.documents

/-- The collections of some documents. -/
def collectionsOf (l : List Document) : List Collection :=
  (l.filterMap Document.collection).foldl (fun cs c => Keyed.insertNew Collection.key c cs) []

/-- Keeps the documents that satisfy `keep` and says how many were dropped. The collections are
listed anew if any was. -/
def retain (s : DocumentSet) (keep : Document → Bool) : Nat × DocumentSet :=
  let kept := s.documents.filter keep
  let dropped := s.documents.length - kept.length
  if dropped = 0 then (0, s) else (dropped, ⟨kept, collectionsOf kept⟩)

/-- Whether the left set has all ids of the right one; a larger set is not looked through. -/
def containsAll (s t : DocumentSet) : Bool :=
  t.size ≤ s.size && t.documents.all fun d => s.contains d.id

/-- The same ids. -/
def equals (s t : DocumentSet) : Bool := s.size == t.size && s.documents.all fun d => t.contains d.id

/-- A document of both sets is taken from the right one. -/
def union (s t : DocumentSet) : DocumentSet := (({} : DocumentSet).extendFrom t).extendFrom s

/-- The documents of the smaller set that the larger one has too; of two equally large sets the left
one counts as the smaller. -/
def intersection (s t : DocumentSet) : DocumentSet :=
  let (small, large) := if s.size ≤ t.size then (s, t) else (t, s)
  -- ids differ within a set, so none needs to be looked for
  (small.documents.filter fun d => large.contains d.id).foldl put {}

def minId? (s : DocumentSet) : Option DocId := s.documents.head?.map Document.id

def maxId? (s : DocumentSet) : Option DocId := s.documents.getLast?.map Document.id

/-- File names in alphabetical order, repeats included. -/
def names (s : DocumentSet) : List String :=
  (s.documents.map Document.fileName).mergeSort

/-- One document node per XML document. -/
def toNodeSet (s : DocumentSet) : NodeSet :=
  ({} : NodeSet).addAll ((s.documents.filter Document.isXml).map fun d => ⟨d, 0⟩)

end DocumentSet

/-- The documents that nodes belong to. -/
def NodeSet.documents (s : NodeSet) : DocumentSet :=
  DocumentSet.ofList (s.nodes.map Node.document)

namespace DocumentSet

/-! ## Order -/

/-- Documents ascend by id and collections by uri. -/
def Ascending (s : DocumentSet) : Prop :=
  Keyed.Ascending Document.id s.documents ∧ Keyed.Ascending Collection.key s.collections

theorem ascending_empty : ({} : DocumentSet).Ascending :=
  ⟨List.Pairwise.nil, List.Pairwise.nil⟩

theorem ascending_put {s : DocumentSet} (h : s.Ascending) (d : Document) :
    (s.put d).Ascending := by
  refine ⟨Keyed.ascending_insert h.1 d, ?_⟩
  unfold put
  split
  · exact Keyed.ascending_insertNew h.2 _
  · exact h.2

theorem ascending_add {s : DocumentSet} (h : s.Ascending) (d : Document) :
    (s.add d).2.Ascending := by
  unfold add addWith
  split
  · exact h
  · exact ascending_put h d

theorem ascending_extend {s : DocumentSet} (h : s.Ascending) (l : List Document) :
    (s.extend l).Ascending := by
  induction l generalizing s with
  | nil => exact h
  | cons d l ih => exact ih (ascending_add h d)

end DocumentSet
end DocBase
