import DocBase.Document.Set
import DocBase.Query.Comparing
import DocBase.Query.Compiled
import Std.Data.ExtTreeMap
/-!
# Evaluation

The value of an expression of a compiled query, given the documents its calls address and the
values of its variables. A machine keeps the variables bound by `for` on a stack and the context
items in a map by establishing expression; analysis recorded for every expression which of them is
its context item. Bindings are pushed and popped, context items are put in the map and what was
there before is put back. A predicate that is an integer literal selects by position; any other is
tried on every item, and a single number it gives is a position. Main statements: what is selected
keeps its order (`select_sublist`), and an integer literal selects at most one item
(`length_itemAt_le`).
-/

namespace DocBase.Query

/-- The context item with its place in the sequence it is taken from, counted from one. -/
structure Focus where
  item : Item
  position : Nat
  size : Nat
deriving Repr

/-- One focus per item of a sequence, in order. -/
def Focus.each (items : Sequence) : List Focus :=
  let size := items.length
  items.mapIdx fun i item => ⟨item, i + 1, size⟩

/-- What an evaluation keeps as it goes: variables bound by `for`, the innermost first, and the
context items by establishing expression. -/
structure Machine where
  bindings : List (String × Item) := []
  focuses : Std.ExtTreeMap ExprId Focus := ∅

/-- A step of an evaluation. An error leaves the machine as the step had it by then. -/
abbrev Evaluating (α : Type) : Type := ExceptT QueryError (StateM Machine) α

namespace Evaluating

variable {α : Type}

/-- An answer that does not involve the machine. -/
def ofExcept (r : Except QueryError α) : Evaluating α := fun m => (r, m)

/-- Runs a step with one more variable bound, which is unbound again whatever comes of the step. -/
def withBinding (x : String) (item : Item) (step : Evaluating α) : Evaluating α := fun m =>
  let (r, m) := step { m with bindings := (x, item) :: m.bindings }
  (r, { m with bindings := m.bindings.tail })

/-- Runs a step with a context item in place. What was there before is put back whatever comes of
the step. -/
def withFocus (establisher : ExprId) (f : Focus) (step : Evaluating α) : Evaluating α := fun m =>
  let previous := m.focuses[establisher]?
  let (r, m) := step { m with focuses := m.focuses.insert establisher f }
  match previous with
  | some p => (r, { m with focuses := m.focuses.insert establisher p })
  | none => (r, { m with focuses := m.focuses.erase establisher })

end Evaluating

/-- The documents each `collection()` and `doc()` call of a query addresses. -/
abbrev Resources := List (ExprId × DocumentSet)

/-- The nodes of a sequence, all of whose items have to be nodes. -/
def nodesOf (op : SetOperator) : Sequence → Except QueryError (List Node)
  | [] => .ok []
  | .node n :: items => (nodesOf op items).map (n :: ·)
  | .atomic v :: _ => .error (.notANode op v)

/-- The node set an operator gives. -/
def SetOperator.apply : SetOperator → NodeSet → NodeSet → NodeSet
  | .union => NodeSet.union
  | .intersect => NodeSet.intersection
  | .except => NodeSet.except

/-- The items that `f` gives for every element, up to the first error. -/
def gather {m : Type → Type} [Monad m] {α : Type} (f : α → m Sequence) : List α → m Sequence
  | [] => pure []
  | a :: as => do
    let items ← f a
    let others ← gather f as
    return items ++ others

/-- The elements for which `f` holds, up to the first error. -/
def select {m : Type → Type} [Monad m] {α : Type} (f : α → m Bool) : List α → m (List α)
  | [] => pure []
  | a :: as => do
    let keep ← f a
    let kept ← select f as
    return if keep then a :: kept else kept

/-- Whether a predicate with this value keeps the item at a position: one number is compared with
the position, anything else has its boolean value. -/
def keeps (position : Nat) : Sequence → Except QueryError Bool
  | [.atomic (.integer i)] => .ok (i.toInt == position)
  | [.atomic (.double d)] => .ok (d.numEq (.ofInt position))
  | value => booleanValue value

/-- The item at a position counted from one, as a sequence. -/
def itemAt (position : Int) (items : Sequence) : Sequence :=
  if 0 < position then (items[position.toNat - 1]?).toList else []

/-- What a document function gives for the node it is called with. -/
def Builtin.describe (f : Builtin) (n : Node) : Sequence :=
  match f with
  | .documentName => [.atomic (.string n.document.fileName)]
  | .documentId => [.ofNat n.document.id.toNat]
  | _ => n.document.collection.toList.map fun c => .atomic (.string c.uri.text)

/-- The functions of one argument that look at its value alone. -/
def Builtin.applyTo (f : Builtin) (value : Sequence) : Except QueryError Sequence :=
  match f with
  | .count => .ok [.ofNat value.length]
  | .nonEmpty => .ok [.boolean !value.isEmpty]
  | .empty => .ok [.boolean value.isEmpty]
  | .not => (booleanValue value).map fun b => [.boolean !b]
  | f =>
    match value with
    | [] => .ok []
    | [.node n] => .ok (f.describe n)
    | items => .error (.notOneNode f items.length)

/-- A compiled query about to be run. -/
structure Evaluation where
  tree : Tree
  dynamic : DynamicContext
  resources : Resources

namespace Evaluation

/-- The focus of the expression that established the context item where `id` stands. -/
def focus (v : Evaluation) (id : ExprId) : Evaluating Focus := do
  let record := (v.tree.node? id).bind TreeNode.record
  let focuses := (← get).focuses
  match (record.bind AnalysisContext.focus).bind fun c => focuses[c]? with
  | some f => return f
  | none => throw .focusAbsent

/-- The innermost binding of a variable, or its external value. -/
def variableValue (v : Evaluation) (x : String) : Evaluating Sequence := do
  match (← get).bindings.lookup x with
  | some item => return [item]
  | none =>
    match v.dynamic.value? x with
    | some items => return items
    | none => throw (.noValue x)

/-- The position a predicate selects, if analysis found it to be an integer literal. -/
def position? (v : Evaluation) (predicate : ExprId) : Option Int :=
  match v.tree.node? predicate with
  | some ⟨.literal (.integer i), _, some record⟩ =>
    if record.hasFlag Flags.positional then some i.toInt else none
  | _ => none

/-- The nodes a `collection()` or `doc()` call gives. -/
def resourceNodes (v : Evaluation) (call : ExprId) : Sequence :=
  match v.resources.lookup call with
  | some s => s.toNodeSet.nodes.map .node
  | none => []

/-- The items of a sequence that a predicate of the expression `filter` keeps. -/
def applyPredicate (v : Evaluation) (evaluate : ExprId → Evaluating Sequence)
    (filter predicate : ExprId) (items : Sequence) : Evaluating Sequence :=
  match v.position? predicate with
  | some p => return itemAt p items
  | none => do
    -- positions are counted among the items that the predicates before have left
    let kept ← select (fun f => do
      let value ← Evaluating.withFocus filter f (evaluate predicate)
      .ofExcept (keeps f.position value)) (Focus.each items)
    return kept.map Focus.item

/-- The items left when the predicates of the expression `filter` are applied one after another. -/
def applyPredicates (v : Evaluation) (evaluate : ExprId → Evaluating Sequence) (filter : ExprId) :
    List ExprId → Sequence → Evaluating Sequence
  | [], items => return items
  | p :: ps, items => do
    let items ← v.applyPredicate evaluate filter p items
    v.applyPredicates evaluate filter ps items

/-- What the `for` expression `loop` gives for one item, whose variable is bound. The condition sees
the item as its context item, the body does not. -/
def forItem (evaluate : ExprId → Evaluating Sequence) (loop : ExprId) (condition : Option ExprId)
    (body : ExprId) (f : Focus) : Evaluating Sequence := do
  match condition with
  | none => evaluate body
  | some c =>
    let wanted ← Evaluating.withFocus loop f do
      let value ← evaluate c
      .ofExcept (booleanValue value)
    if wanted then evaluate body else return []

/-- The value of a call. -/
def applyCall (v : Evaluation) (evaluate : ExprId → Evaluating Sequence) (call : ExprId)
    (f : Builtin) (arguments : List ExprId) : Evaluating Sequence := do
  match f with
  -- the documents were found before the evaluation began
  | .collection | .doc => return v.resourceNodes call
  | .true => return [.boolean true]
  | .false => return [.boolean false]
  | .position => return [.ofNat (← v.focus call).position]
  | .last => return [.ofNat (← v.focus call).size]
  | f =>
    match arguments with
    | [] => throw (.argumentMissing f)
    | a :: _ =>
      let value ← evaluate a
      .ofExcept (f.applyTo value)

/-- Evaluates the expression `id`. `fuel` bounds the depth. -/
def evaluate (v : Evaluation) : (fuel : Nat) → ExprId → Evaluating Sequence
  | 0, _ => throw .circular
  | fuel + 1, id => do
    match v.tree.kind? id with
    | none => return []
    | some (.literal value) => return [.atomic value]
    | some (.var x) => v.variableValue x
    | some .contextItem => return [(← v.focus id).item]
    | some (.sequence items) => gather (v.evaluate fuel) items
    | some (.filter input predicates) =>
      let items ← v.evaluate fuel input
      v.applyPredicates (v.evaluate fuel) id predicates items
    | some (.forEach x input condition body) =>
      let items ← v.evaluate fuel input
      gather (fun f => Evaluating.withBinding x f.item (forItem (v.evaluate fuel) id condition body f))
        (Focus.each items)
    | some (.compare op l r) =>
      let left ← v.evaluate fuel l
      let right ← v.evaluate fuel r
      return [.boolean (← .ofExcept (generalCompare op left right))]
    | some (.connect op l r) =>
      let left ← .ofExcept (booleanValue (← v.evaluate fuel l))
      -- the right side is evaluated only if the left one does not decide
      match op, left with
      | .and, false => return [.boolean false]
      | .or, true => return [.boolean true]
      | _, _ => return [.boolean (← .ofExcept (booleanValue (← v.evaluate fuel r)))]
    | some (.combine op l r) =>
      let left ← .ofExcept (nodesOf op (← v.evaluate fuel l))
      let right ← .ofExcept (nodesOf op (← v.evaluate fuel r))
      return (op.apply (.ofList left) (.ofList right)).nodes.map .node
    | some (.call f arguments) => v.applyCall (v.evaluate fuel) id f arguments

/-- Evaluates a whole query; a path from the root is no longer than the tree is large. -/
def run (v : Evaluation) : Except QueryError Sequence :=
  match v.tree.root with
  | some r => (v.evaluate v.tree.size r {}).1
  | none => .ok []

end Evaluation

/-! ## Leaving items out -/

/-- What is selected keeps its order. -/
theorem select_sublist {α : Type} {f : α → Except QueryError Bool} {l kept : List α}
    (h : select f l = .ok kept) : kept.Sublist l := by
  induction l generalizing kept with
  | nil => simp_all [select, pure, Except.pure]
  | cons a as ih =>
    simp only [select, bind, Except.bind, pure, Except.pure] at h
    split at h
    · simp at h
    · next keep _ =>
      split at h
      · simp at h
      · next rest hs =>
        simp only [Except.ok.injEq] at h
        subst h
        -- an item that is not kept leaves a gap, and no other order
        cases keep
        · exact (ih hs).cons a
        · exact (ih hs).cons_cons a

/-- At most one item has a position. -/
theorem length_itemAt_le (position : Int) (items : Sequence) :
    (itemAt position items).length ≤ 1 := by
  unfold itemAt
  split
  · cases items[position.toNat - 1]? <;> simp
  · simp

end DocBase.Query
