import DocBase.Query.Builtin
import DocBase.Query.Value
/-!
# Expression trees

The expressions of one query in an arena: each has a number, its position in the arena, and refers
to its children by their numbers. Every node also knows its parent and, once it has been analysed,
the context it was reached in. Children are in the arena before their parent is added.
-/

namespace DocBase.Query

/-- Expressions are numbered in the order they are added. -/
abbrev ExprId := Nat

/-- Hints handed down from an expression to its parts, one bit each. -/
abbrev Flags := BitVec 32

namespace Flags

/-- Inside a predicate. -/
def inPredicate : Flags := 1#32

/-- Inside a `where` clause. -/
def inWhere : Flags := 2#32

/-- A predicate that is an integer literal and so selects by position. -/
def positional : Flags := 4#32

def contains (given asked : Flags) : Bool := given &&& asked == asked

end Flags

/-- How an expression is reached: its parent, hints, and the expression that established the context
item, if any. -/
structure AnalysisContext where
  parent : Option ExprId := none
  flags : Flags := 0#32
  focus : Option ExprId := none
deriving DecidableEq, Repr

namespace AnalysisContext

/-- The same hints and context item below another parent. -/
def forChild (c : AnalysisContext) (parent : ExprId) : AnalysisContext :=
  { c with parent := some parent }

def addFlag (c : AnalysisContext) (f : Flags) : AnalysisContext := { c with flags := c.flags ||| f }

def removeFlag (c : AnalysisContext) (f : Flags) : AnalysisContext :=
  { c with flags := c.flags &&& ~~~f }

def hasFlag (c : AnalysisContext) (f : Flags) : Bool := c.flags.contains f

/-- Below an expression that establishes a new context item. -/
def focusedOn (c : AnalysisContext) (establisher : ExprId) : AnalysisContext :=
  { c with focus := some establisher }

/-- The establishing expression after a hash, or `none`. -/
def focusText (c : AnalysisContext) : String :=
  match c.focus with
  | some id => "#" ++ toString id
  | none => "none"

end AnalysisContext

/-- An expression over the numbers of its children. -/
inductive Kind where
  | literal (value : Atomic)
  | var (name : String)
  | contextItem
  | sequence (items : List ExprId)
  | filter (input : ExprId) (predicates : List ExprId)
  | forEach (bound : String) (input : ExprId) (condition : Option ExprId) (body : ExprId)
  | compare (op : Comparison) (left right : ExprId)
  | connect (op : Connective) (left right : ExprId)
  | combine (op : SetOperator) (left right : ExprId)
  | call (function : Builtin) (arguments : List ExprId)
deriving DecidableEq, Repr

/-- Replaces the first occurrence of a number, if there is one. -/
def replaceFirst? (old new : ExprId) : List ExprId → Option (List ExprId)
  | [] => none
  | id :: ids =>
    if id = old then some (new :: ids) else (replaceFirst? old new ids).map (id :: ·)

namespace Kind

/-- Children in the order they are evaluated. -/
def children : Kind → List ExprId
  | literal _ | var _ | contextItem => []
  | sequence items => items
  | filter input predicates => input :: predicates
  | forEach _ input condition body => input :: (condition.toList ++ [body])
  | compare _ l r | connect _ l r | combine _ l r => [l, r]
  | call _ arguments => arguments

/-- The expression with the first child `old` replaced, if it has that child. -/
def replaceChild? (k : Kind) (old new : ExprId) : Option Kind :=
  match k with
  | literal _ | var _ | contextItem => none
  | sequence items => (replaceFirst? old new items).map sequence
  | filter input predicates =>
    if input = old then some (filter new predicates)
    else (replaceFirst? old new predicates).map (filter input)
  | forEach x input condition body =>
    if input = old then some (forEach x new condition body)
    else if condition = some old then some (forEach x input (some new) body)
    else if body = old then some (forEach x input condition new)
    else none
  | compare op l r =>
    if l = old then some (compare op new r) else if r = old then some (compare op l new) else none
  | connect op l r =>
    if l = old then some (connect op new r) else if r = old then some (connect op l new) else none
  | combine op l r =>
    if l = old then some (combine op new r) else if r = old then some (combine op l new) else none
  | call f arguments => (replaceFirst? old new arguments).map (call f)

def isStringLiteral : Kind → Bool
  | literal (.string _) => true
  | _ => false

def isIntegerLiteral : Kind → Bool
  | literal (.integer _) => true
  | _ => false

end Kind

structure TreeNode where
  kind : Kind
  parent : Option ExprId := none
  /-- The context the expression was analysed in. -/
  record : Option AnalysisContext := none
deriving DecidableEq, Repr

structure Tree where
  nodes : Array TreeNode := #[]
  root : Option ExprId := none
deriving DecidableEq, Repr

namespace Tree

def size (t : Tree) : Nat := t.nodes.size

def node? (t : Tree) (id : ExprId) : Option TreeNode := t.nodes[id]?

def kind? (t : Tree) (id : ExprId) : Option Kind := (t.node? id).map TreeNode.kind

def children (t : Tree) (id : ExprId) : List ExprId := ((t.kind? id).map Kind.children).getD []

def setParent (t : Tree) (id : ExprId) (parent : Option ExprId) : Tree :=
  { t with nodes := t.nodes.modify id fun n => { n with parent } }

def setKind (t : Tree) (id : ExprId) (kind : Kind) : Tree :=
  { t with nodes := t.nodes.modify id fun n => { n with kind } }

def setRecord (t : Tree) (id : ExprId) (record : Option AnalysisContext) : Tree :=
  { t with nodes := t.nodes.modify id fun n => { n with record } }

/-- Adds an expression and makes it the parent of its children. -/
def push (t : Tree) (kind : Kind) : ExprId × Tree :=
  let id := t.size
  -- the children are in the arena already and learn of their parent now
  let t := kind.children.foldl (fun t c => t.setParent c (some id)) t
  (id, { t with nodes := t.nodes.push { kind } })

/-- Makes an expression the root, which has no parent. -/
def setRoot (t : Tree) (id : ExprId) : Tree := { t.setParent id none with root := some id }

/-- Puts `new` in the place of `old` below a parent, or as the root; says whether `old` was
there. -/
def replaceChild (t : Tree) (parent : Option ExprId) (old new : ExprId) : Bool × Tree :=
  let replaced : Option Tree :=
    match parent with
    | some p => ((t.kind? p).bind (·.replaceChild? old new)).map (t.setKind p)
    | none => if t.root = some old then some { t with root := some new } else none
  match replaced with
  | some t => (true, (t.setParent new parent).setParent old none)
  | none => (false, t)

/-- The expressions under one, itself first, each before its children. A path without repeats is no
longer than the arena is large, so the depth `n` need not exceed that. -/
def preorder (t : Tree) : Nat → ExprId → List ExprId
  | 0, _ => []
  | n + 1, id => id :: (t.children id).flatMap (t.preorder n)

/-- The expressions under the root. -/
def reachable (t : Tree) : List ExprId :=
  match t.root with
  | some r => t.preorder t.size r
  | none => []

end Tree
end DocBase.Query
