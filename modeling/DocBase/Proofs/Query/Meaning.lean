import DocBase.Proofs.Query.Numbering
import DocBase.Query.Evaluation
/-!
# What a query means

A reading of expressions as they were written, without an arena, records, a stack or a map: an
expression stands in surroundings, the variables bound around it and at most one context item, and
has a value there. A predicate is tried on every item. The documents of `collection()` and `doc()`
are given by the numbers of the calls, counting expressions as they end in the text. Main
statement: `map_item_select` — trying an integer on every item selects by position.
-/

namespace DocBase.Query

/-- What the value of a whole query depends on. -/
structure Given where
  dynamic : DynamicContext
  /-- The documents a call addresses. -/
  documents : Nat → Option DocumentSet

/-- What the value of an expression depends on where it stands. -/
structure Surroundings where
  /-- Variables bound by `for`, the innermost first. -/
  bound : List (String × Item) := []
  focus : Option Focus := none

namespace Surroundings

/-- Inside a `for` that binds a variable to an item. -/
def binding (s : Surroundings) (x : String) (item : Item) : Surroundings :=
  { s with bound := (x, item) :: s.bound }

/-- Inside a predicate or a `where` that is tried on an item. -/
def focusedOn (s : Surroundings) (f : Focus) : Surroundings := { s with focus := some f }

/-- The context item with its place. -/
def here (s : Surroundings) : Except QueryError Focus :=
  match s.focus with
  | some f => .ok f
  | none => .error .focusAbsent

/-- The innermost binding of a variable, or its external value. -/
def variableValue (s : Surroundings) (dynamic : DynamicContext) (x : String) :
    Except QueryError Sequence :=
  match s.bound.lookup x with
  | some item => .ok [item]
  | none =>
    match dynamic.value? x with
    | some items => .ok items
    | none => .error (.noValue x)

end Surroundings

/-- The nodes of the documents that the call with this number addresses. -/
def Given.nodes (g : Given) (call : Nat) : Sequence :=
  match g.documents call with
  | some s => s.toNodeSet.nodes.map .node
  | none => []

mutual

/-- The value of an expression whose parts are numbered from `first` on. -/
def Expr.meaning (g : Given) (first : Nat) (s : Surroundings) : Expr → Except QueryError Sequence
  | .literal v => .ok [.atomic v.value]
  | .var x => s.variableValue g.dynamic x.text
  | .contextItem => do
    let f ← s.here
    return [f.item]
  | .sequence items => meaningEach g first s items
  | .filter input predicates => do
    let items ← input.meaning g first s
    keptBy g (first + input.size) s predicates items
  | .forEach x input none body => do
    let items ← input.meaning g first s
    gather (fun item => body.meaning g (first + input.size) (s.binding x.text item)) items
  | .forEach x input (some c) body => do
    let items ← input.meaning g first s
    gather (fun f => do
      let inner := s.binding x.text f.item
      let value ← c.meaning g (first + input.size) (inner.focusedOn f)
      let wanted ← booleanValue value
      if wanted then body.meaning g (first + input.size + c.size) inner else return [])
      (Focus.each items)
  | .compare op l r => do
    let left ← l.meaning g first s
    let right ← r.meaning g (first + l.size) s
    let holds ← generalCompare op left right
    return [.boolean holds]
  | .connect op l r => do
    let left ← l.meaning g first s
    let left ← booleanValue left
    -- the right side counts only if the left one does not decide
    match op, left with
    | .and, false => return [.boolean false]
    | .or, true => return [.boolean true]
    | _, _ =>
      let right ← r.meaning g (first + l.size) s
      let right ← booleanValue right
      return [.boolean right]
  | .combine op l r => do
    let left ← l.meaning g first s
    let left ← nodesOf op left
    let right ← r.meaning g (first + l.size) s
    let right ← nodesOf op right
    return (op.apply (.ofList left) (.ofList right)).nodes.map .node
  | .call name arguments =>
    match Builtin.resolve? name.qualifier name.name with
    | none => .error (.unknownFunction name arguments.length)
    | some .collection | some .doc => .ok (g.nodes (first + sizeEach arguments))
    | some .true => .ok [.boolean true]
    | some .false => .ok [.boolean false]
    | some .position => do
      let f ← s.here
      return [.ofNat f.position]
    | some .last => do
      let f ← s.here
      return [.ofNat f.size]
    | some f =>
      match arguments with
      | [] => .error (.argumentMissing f)
      | a :: _ => do
        let value ← a.meaning g first s
        f.applyTo value

/-- The values of expressions, joined. -/
def meaningEach (g : Given) (first : Nat) (s : Surroundings) :
    List Expr → Except QueryError Sequence
  | [] => .ok []
  | e :: es => do
    let items ← e.meaning g first s
    let others ← meaningEach g (first + e.size) s es
    return items ++ others

/-- What is left of a sequence when predicates are tried on its items, one predicate after
another. -/
def keptBy (g : Given) (first : Nat) (s : Surroundings) :
    List Expr → Sequence → Except QueryError Sequence
  | [], items => .ok items
  | p :: ps, items => do
    let kept ← select (fun f => do
      let value ← p.meaning g first (s.focusedOn f)
      keeps f.position value) (Focus.each items)
    keptBy g (first + p.size) s ps (kept.map Focus.item)

end

/-! ## Places in a sequence -/

@[simp] theorem Focus.map_item_each (items : Sequence) : (Focus.each items).map Focus.item = items := by
  apply List.ext_getElem?
  intro i
  simp only [Focus.each, List.getElem?_map, List.getElem?_mapIdx, Option.map_map]
  cases items[i]? <;> rfl

theorem gather_map {α β : Type} (f : β → Except QueryError Sequence) (h : α → β) (l : List α) :
    gather f (l.map h) = gather (fun a => f (h a)) l := by
  induction l with
  | nil => rfl
  | cons a as ih => simp only [List.map_cons, gather, ih]

/-- Of the items counted from `k` on, the one with a position. -/
theorem map_item_filter_mapIdx (p : Int) (size : Nat) (items : Sequence) (k : Nat) :
    ((items.mapIdx fun i item => (⟨item, i + k, size⟩ : Focus)).filter
        (fun f => p == f.position)).map Focus.item =
      if (k : Int) ≤ p then (items[(p - k).toNat]?).toList else [] := by
  -- counting the rest from `k` on is counting it from zero with `k + 1` added
  induction items generalizing k with
  | nil => simp
  | cons item items ih =>
    have hshift : (fun i item => (⟨item, i + 1 + k, size⟩ : Focus)) =
        fun i item => ⟨item, i + (k + 1), size⟩ := by
      funext i item
      rw [Nat.add_assoc, Nat.add_comm 1 k]
    rw [List.mapIdx_cons, hshift, List.filter_cons]
    -- the position is here, or further on, or was passed already
    by_cases hp : p = k
    · have hrest : ¬ ((k + 1 : Nat) : Int) ≤ p := by omega
      have hhere : (p == ((0 + k : Nat) : Int)) = true := by simp [hp]
      have hzero : (p - k).toNat = 0 := by omega
      rw [if_pos hhere, List.map_cons, ih, if_neg hrest, if_pos (by omega), hzero]
      rfl
    · have hhere : ¬ (p == ((0 + k : Nat) : Int)) = true := by simp [hp]
      rw [if_neg hhere, ih]
      by_cases hlt : (k : Int) ≤ p
      · have hpred : (p - k).toNat = (p - (k + 1 : Nat)).toNat + 1 := by omega
        rw [if_pos hlt, if_pos (by omega), hpred, List.getElem?_cons_succ]
      · rw [if_neg hlt, if_neg (by omega)]

/-- Choosing without errors is filtering. -/
theorem select_ok {α : Type} (f : α → Bool) (l : List α) :
    select (fun a => (Except.ok (f a) : Except QueryError Bool)) l = .ok (l.filter f) := by
  induction l with
  | nil => rfl
  | cons a as ih =>
    simp only [select, ih, bind, Except.bind, pure, Except.pure, List.filter_cons]

/-- Trying an integer on every item selects by position. -/
theorem map_item_select (i : Int64) (items : Sequence) :
    (do
      let kept ← select (fun f => keeps f.position [.atomic (.integer i)]) (Focus.each items)
      return kept.map Focus.item) = Except.ok (itemAt i.toInt items) := by
  have hkeeps : (fun f : Focus => keeps f.position [.atomic (.integer i)]) =
      fun f => .ok (i.toInt == f.position) := rfl
  rw [hkeeps, select_ok]
  show Except.ok _ = _
  rw [Focus.each, map_item_filter_mapIdx, itemAt]
  by_cases hpos : 0 < i.toInt
  · have hindex : (i.toInt - (1 : Nat)).toNat = i.toInt.toNat - 1 := by omega
    rw [if_pos hpos, if_pos (by omega), hindex]
  · rw [if_neg hpos, if_neg (by omega)]

end DocBase.Query
