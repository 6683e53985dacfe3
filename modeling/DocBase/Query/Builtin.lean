/-!
# Built-in functions

The functions a query may call: the standard ones, which need no qualifier, and the document helpers
behind `util:`. Main statement: `resolve?_eq_some_iff` — a name resolves to a function exactly when
it is the function's own name or, for a standard function, that name without its qualifier.
-/

namespace DocBase.Query

inductive Builtin where
  | collection
  | doc
  | count
  /-- `exists` in queries. -/
  | nonEmpty
  | empty
  | not
  | true
  | false
  | position
  | last
  | documentName
  | documentId
  | collectionName
deriving DecidableEq, Repr

namespace Builtin

def all : List Builtin :=
  [collection, doc, count, nonEmpty, empty, not, true, false, position, last, documentName, documentId,
    collectionName]

/-- The qualifier of the document helpers is `util`, that of all others `fn`. -/
def qualifier : Builtin → String
  | documentName | documentId | collectionName => "util"
  | _ => "fn"

def localName : Builtin → String
  | collection => "collection"
  | doc => "doc"
  | count => "count"
  | nonEmpty => "exists"
  | empty => "empty"
  | not => "not"
  | true => "true"
  | false => "false"
  | position => "position"
  | last => "last"
  | documentName => "document-name"
  | documentId => "document-id"
  | collectionName => "collection-name"

def name (f : Builtin) : String := f.qualifier ++ ":" ++ f.localName

/-- The function a name stands for; the qualifier `fn` may be left out. -/
def resolve? (qualifier : Option String) (localName : String) : Option Builtin :=
  all.find? fun f => f.qualifier = qualifier.getD "fn" ∧ f.localName = localName

/-- The fewest arguments. -/
def minArity : Builtin → Nat
  | collection | true | false | position | last => 0
  | _ => 1

/-- The most arguments; `collection` takes any number. -/
def maxArity? : Builtin → Option Nat
  | collection => none
  | true | false | position | last => some 0
  | _ => some 1

def accepts (f : Builtin) (arguments : Nat) : Bool :=
  f.minArity ≤ arguments && f.maxArity?.all (arguments ≤ ·)

/-- Functions whose arguments name stored documents. -/
def readsStore (f : Builtin) : Bool := f == collection || f == doc

/-- Functions that read the place of the context item. -/
def needsFocus (f : Builtin) : Bool := f == position || f == last

/-- What a name resolves to bears that name. -/
theorem resolve?_eq_some_iff {q : Option String} {n : String} {f : Builtin} :
    resolve? q n = some f ↔ f.qualifier = q.getD "fn" ∧ f.localName = n := by
  constructor
  · intro h
    simpa using List.find?_some h
  · rintro ⟨hq, rfl⟩
    unfold resolve?
    rw [← hq]
    cases f <;> rfl

end Builtin
end DocBase.Query
