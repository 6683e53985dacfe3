import DocBase.Document.Basic
/-!
# Nodes

A node is named by its document and its number in it; number zero is the document itself. Nodes are
told apart and ordered by document id, then by number, whichever copy of the document's description
they carry.
-/

namespace DocBase

/-- Nodes of a document are numbered by 32-bit words. -/
abbrev NodeId := UInt32

structure Node where
  document : Document
  id : NodeId := 0
deriving Repr

namespace Node

def isDocument (n : Node) : Bool := n.id == 0

/-- The place in document order: the document id counts before the node id. -/
def key (n : Node) : Nat := (n.document.id.toNat <<< 32) + n.id.toNat

instance : BEq Node where
  beq m n := m.key == n.key

/-- The uri of the document, with the node's number after a hash unless it is the document. -/
def label (n : Node) : String :=
  if n.isDocument then n.document.uri
  else n.document.uri ++ "#" ++ toString n.id.toNat

/-- Equal places are equal document ids and equal node ids. -/
theorem key_eq_iff {m n : Node} : m.key = n.key ↔ m.document.id = n.document.id ∧ m.id = n.id := by
  have hm := m.id.toNat_lt
  have hn := n.id.toNat_lt
  rw [← UInt32.toNat_inj, ← UInt32.toNat_inj]
  unfold key
  omega

end Node
end DocBase
