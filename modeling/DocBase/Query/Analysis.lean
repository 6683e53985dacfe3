import DocBase.Query.Context
import DocBase.Query.Error
import DocBase.Query.Tree
/-!
# Static analysis

Walks a tree from its root and records for every expression the context it is reached in: the
expression above it, hints, and the expression that established the context item. It fails with the
first error found. A sequence of one item is replaced by the item when rewriting is on.
-/

namespace DocBase.Query

/-- What analysing a part of a tree leaves: the tree and the first error. Records made before an
error stay. -/
structure Analysis where
  tree : Tree
  error : Option QueryError := none
deriving Repr

namespace Analysis

/-- Goes on with the tree unless an error was found. -/
def andThen (a : Analysis) (f : Tree → Analysis) : Analysis :=
  match a.error with
  | none => f a.tree
  | some _ => a

/-- Visits expressions in order up to the first error. -/
def visitEach (visit : ExprId → Tree → Analysis) : List ExprId → Tree → Analysis
  | [], t => { tree := t }
  | id :: ids, t => (visit id t).andThen (visitEach visit ids)

end Analysis

namespace Tree

/-- Fails with `e` unless `ok`. -/
def require (t : Tree) (ok : Bool) (e : QueryError) : Analysis :=
  { tree := t, error := if ok then none else some e }

/-- Forgets all records. -/
def clearRecords (t : Tree) : Tree :=
  { t with nodes := t.nodes.map fun n => { n with record := none } }

/-- Whether a predicate is an integer literal as it stands. -/
def isPosition (t : Tree) (predicate : ExprId) : Bool := (t.kind? predicate).any Kind.isIntegerLiteral

/-- Whether all arguments of a call are string literals as they stand. -/
def argumentsLiteral (t : Tree) (call : ExprId) : Bool :=
  (t.children call).all fun a => (t.kind? a).any Kind.isStringLiteral

end Tree

namespace AnalysisContext

/-- The context of a predicate: the filter establishes the context item. -/
def forPredicate (c : AnalysisContext) (filter : ExprId) (isPosition : Bool) : AnalysisContext :=
  let c := ((c.forChild filter).focusedOn filter).addFlag Flags.inPredicate
  if isPosition then c.addFlag Flags.positional else c.removeFlag Flags.positional

/-- The context of a `where` clause: its `for` establishes the context item. -/
def forWhere (c : AnalysisContext) (loop : ExprId) : AnalysisContext :=
  ((c.forChild loop).focusedOn loop).addFlag Flags.inWhere

end AnalysisContext

namespace Analysis

/-- Analyses the expression `id`, reached in the context `ctx` with the variables `scope` bound by
the `for` expressions around it. `fuel` bounds the depth. -/
def visit (static : StaticContext) :
    (fuel : Nat) → List String → AnalysisContext → ExprId → Tree → Analysis
  | 0, _, _, _, t => { tree := t, error := some .circular }
  | fuel + 1, scope, ctx, id, t =>
    match t.kind? id with
    | none => { tree := t }
    | some kind =>
      let t := t.setRecord id (some ctx)
      let child := visit static fuel scope (ctx.forChild id)
      match kind with
      | .literal _ => { tree := t }
      | .var x => t.require (scope.contains x || static.declares x) (.undeclared x)
      | .contextItem => t.require ctx.focus.isSome (.noFocus none)
      | .sequence [item] =>
        if static.rewriting then
          -- the item takes the place of the sequence, and its context
          visit static fuel scope ctx item ((t.replaceChild ctx.parent id item).2.setRecord id none)
        else child item t
      | .filter input predicates =>
        (child input t).andThen <|
          visitEach (fun p t => visit static fuel scope (ctx.forPredicate id (t.isPosition p)) p t)
            predicates
      | .forEach x input condition body =>
        (child input t).andThen fun t =>
          (visitEach (visit static fuel (x :: scope) (ctx.forWhere id)) condition.toList t).andThen
            (visit static fuel (x :: scope) (ctx.forChild id) body)
      | .call f arguments =>
        ((t.require (!f.needsFocus || ctx.focus.isSome) (.noFocus (some f))).andThen
          (visitEach child arguments)).andThen fun t =>
            -- looked up anew: a sequence among the arguments may have been replaced
            t.require (!f.readsStore || t.argumentsLiteral id) (.resourceNotLiteral f)
      | kind => visitEach child kind.children t

end Analysis

namespace Tree

/-- Analyses a tree anew. A path from the root holds no expression twice, so it is no longer than
the tree is large. -/
def analyze (t : Tree) (static : StaticContext) : Analysis :=
  let t := t.clearRecords
  match t.root with
  | some r => Analysis.visit static t.size [] {} r t
  | none => { tree := t }

end Tree
end DocBase.Query
