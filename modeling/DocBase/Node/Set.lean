import DocBase.Keyed.Search
import DocBase.Keyed.Sort
import DocBase.Node.Basic
/-!
# Node sets

Nodes without repeats in document order, so that a node is found by halves and two sets are merged
in one pass. A node that is there already is kept as it is when an equal one is added. Main
statements: every way to build a set keeps document order (`ascending_add`, `ascending_ofList`,
`ascending_union`, `ascending_intersection`, `ascending_except`), and in that order a node is found
if it is there (`contains_eq`) and added where it belongs (`add_eq`).
-/

namespace DocBase

structure NodeSet where
  nodes : List Node := []
deriving Repr

namespace NodeSet

def contains (s : NodeSet) (n : Node) : Bool := (Keyed.locate Node.key n.key s.nodes).isTaken

/-- Adds a node unless it is there; says whether it was added. -/
def add (s : NodeSet) (n : Node) : Bool × NodeSet :=
  -- nodes often come in order
  if s.nodes.getLast?.all (·.key < n.key) then (true, ⟨s.nodes ++ [n]⟩)
  else
    match Keyed.locate Node.key n.key s.nodes with
    | .taken _ => (false, s)
    | .free i => (true, ⟨s.nodes.insertIdx i n⟩)

def addAll (s : NodeSet) (l : List Node) : NodeSet := l.foldl (fun s n => (s.add n).2) s

/-- Of equal nodes the first is kept. -/
def ofList (l : List Node) : NodeSet := ⟨Keyed.sorted Node.key l⟩

/-- A node of both sets is taken from the left one. -/
def union (s t : NodeSet) : NodeSet := ⟨Keyed.merge Node.key s.nodes t.nodes⟩

def intersection (s t : NodeSet) : NodeSet := ⟨s.nodes.filter t.contains⟩

def except (s t : NodeSet) : NodeSet := ⟨s.nodes.filter fun n => !t.contains n⟩

/-- The same nodes, whatever descriptions of documents they carry. -/
def equals (s t : NodeSet) : Bool := s.nodes.map Node.key == t.nodes.map Node.key

def size (s : NodeSet) : Nat := s.nodes.length

/-! ## Document order -/

/-- Document order without repeats. -/
def Ascending (s : NodeSet) : Prop := Keyed.Ascending Node.key s.nodes

variable {s t : NodeSet}

theorem ascending_empty : ({} : NodeSet).Ascending := List.Pairwise.nil

/-- In document order a node is found if it is there. -/
theorem contains_eq (h : s.Ascending) (n : Node) :
    s.contains n = (Keyed.find? Node.key n.key s.nodes).isSome :=
  Keyed.isTaken_locate h

/-- A node that is not there is added where it belongs, at the end or before it. -/
theorem add_eq (h : s.Ascending) (n : Node) :
    s.add n = (!s.contains n, ⟨Keyed.insertNew Node.key n s.nodes⟩) := by
  have hcontains := contains_eq h n
  unfold add
  split
  · next hlast =>
    have hlt := h.lt_of_getLast? hlast
    have hnew : (Keyed.find? Node.key n.key s.nodes).isSome = false := by
      rw [Bool.eq_false_iff, ne_eq, Keyed.isSome_find?]
      rintro ⟨m, hm, hkey⟩
      exact Nat.ne_of_lt (hlt m hm) hkey
    simp [hcontains, hnew, Keyed.insertNew, Keyed.insert_eq_append hlt]
  · split
    · next i hlocate =>
      rw [contains, hlocate] at hcontains
      simp [contains, hlocate, Keyed.insertNew, ← hcontains, Keyed.Place.isTaken]
    · next i hlocate =>
      rw [contains, hlocate] at hcontains
      simp [contains, hlocate, Keyed.insertNew, ← hcontains, Keyed.Place.isTaken,
        Keyed.insert_eq_insertIdx h hlocate]

theorem ascending_add (h : s.Ascending) (n : Node) : (s.add n).2.Ascending := by
  rw [add_eq h]
  exact Keyed.ascending_insertNew h n

theorem ascending_addAll (h : s.Ascending) (l : List Node) : (s.addAll l).Ascending := by
  induction l generalizing s with
  | nil => exact h
  | cons n l ih => exact ih (ascending_add h n)

theorem ascending_ofList (l : List Node) : (ofList l).Ascending := Keyed.ascending_sorted Node.key l

theorem ascending_union (hs : s.Ascending) (ht : t.Ascending) : (s.union t).Ascending :=
  Keyed.ascending_merge hs ht

theorem ascending_intersection (h : s.Ascending) (t : NodeSet) : (s.intersection t).Ascending :=
  List.Pairwise.filter _ h

theorem ascending_except (h : s.Ascending) (t : NodeSet) : (s.except t).Ascending :=
  List.Pairwise.filter _ h

end NodeSet
end DocBase
