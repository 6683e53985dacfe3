import DocBase.Document.Set
/-!
# Document sets and their readers

Readers of a set go through a list of its documents in ascending order of ids. The list is made for
the first of them and kept for the others until the set changes. A call that adds or drops no
document keeps the list. Main statement: `set_extend` — a catalogue's set changes as the set alone
would.
-/

namespace DocBase

/-- A document set and the list that was made for its readers, if there is one. -/
structure Catalogue where
  set : DocumentSet := {}
  listed : Option (List Document) := none
deriving Repr

namespace Catalogue

/-- All documents in ascending order of ids. -/
def read (c : Catalogue) : List Document × Catalogue :=
  match c.listed with
  | some l => (l, c)
  | none => (c.set.documents, { c with listed := some c.set.documents })

/-- The document at a position in that order. -/
def at? (c : Catalogue) (position : Nat) : Option Document × Catalogue :=
  let (l, c) := c.read
  (l[position]?, c)

def clear (_ : Catalogue) : Catalogue := {}

/-- See `DocumentSet.addWith`. -/
def addWith (c : Catalogue) (d : Document) (check : Bool) : Bool × Catalogue :=
  match c.set.addWith d check with
  | (true, set) => (true, { set })
  | (false, _) => (false, c)

def add (c : Catalogue) (d : Document) : Bool × Catalogue := c.addWith d true

def addNode (c : Catalogue) (n : Node) : Except NotADocument Bool × Catalogue :=
  if n.isDocument then
    let (added, c') := c.add n.document
    (.ok added, c')
  else (.error ⟨n.document.id, n.id⟩, c)

def extend (c : Catalogue) (l : List Document) : Catalogue :=
  l.foldl (fun c d => (c.add d).2) c

def ofList (l : List Document) : Catalogue := ({} : Catalogue).extend l

/-- See `DocumentSet.addAll`. -/
def addAll (c : Catalogue) (l : List Document) (subject : Option Subject) (check : Bool) :
    Nat × Catalogue :=
  let allowed := l.filter fun d => !check || subject.all d.readableBy
  let c' := c.extend allowed
  (c'.set.size - c.set.size, c')

def extendFrom (c e : Catalogue) : Catalogue := c.extend e.set.documents

/-- See `DocumentSet.retain`. -/
def retain (c : Catalogue) (keep : Document → Bool) : Nat × Catalogue :=
  match c.set.retain keep with
  | (0, _) => (0, c)
  | (dropped, set) => (dropped, { set })

def union (c e : Catalogue) : Catalogue := (({} : Catalogue).extendFrom e).extendFrom c

def intersection (c e : Catalogue) : Catalogue := { set := c.set.intersection e.set }

/-! ## The set alone -/

@[simp] theorem set_add (c : Catalogue) (d : Document) : (c.add d).2.set = (c.set.add d).2 := by
  unfold add addWith DocumentSet.add DocumentSet.addWith
  cases c.set.contains d.id <;> rfl

/-- A catalogue's set changes as the set alone would. -/
@[simp] theorem set_extend (c : Catalogue) (l : List Document) :
    (c.extend l).set = c.set.extend l := by
  induction l generalizing c with
  | nil => rfl
  | cons d l ih =>
    have hcons := ih (c.add d).2
    rw [set_add] at hcons
    exact hcons

end Catalogue
end DocBase
