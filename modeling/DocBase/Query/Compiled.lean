import DocBase.Query.Analysis
/-!
# Compiled queries

A query is read, its functions are resolved and its expressions put into a tree, which is then
analysed. Main statement: `compile_ok` — a compiled query keeps its text and the context it was
compiled in.
-/

namespace DocBase.Query

/-- A step that adds expressions to a tree. -/
abbrev Adding (α : Type) : Type := StateT Tree (Except QueryError) α

namespace Adding

/-- Adds one expression over expressions that are in the tree. A tree holds at most 2³². -/
def push (kind : Kind) : Adding ExprId := fun t =>
  if t.size < 1 <<< 32 then .ok (t.push kind) else .error .tooManyExpressions

def fail {α : Type} (e : QueryError) : Adding α := fun _ => .error e

/-- The function a call names, if it takes that many arguments. -/
def resolve (name : QName) (arguments : Nat) : Adding Builtin :=
  match Builtin.resolve? name.qualifier name.name with
  | none => fail (.unknownFunction name arguments)
  | some f => if f.accepts arguments then pure f else fail (.wrongArity f arguments)

end Adding

/-- The value a literal stands for. -/
def Literal.value : Literal → Atomic
  | integer i => .integer i
  | double d => .double d
  | string s => .string s

mutual

/-- Adds an expression after its parts. A call is resolved before its arguments are looked at. -/
def Expr.addTo : Expr → Adding ExprId
  | .literal v => Adding.push (.literal v.value)
  | .var x => Adding.push (.var x.text)
  | .contextItem => Adding.push .contextItem
  | .sequence items => do
    let items ← addEach items
    Adding.push (.sequence items)
  | .filter input predicates => do
    let input ← input.addTo
    let predicates ← addEach predicates
    Adding.push (.filter input predicates)
  | .forEach x input condition body => do
    let input ← input.addTo
    let condition ← addOption condition
    let body ← body.addTo
    Adding.push (.forEach x.text input condition body)
  | .compare op l r => do
    let l ← l.addTo
    let r ← r.addTo
    Adding.push (.compare op l r)
  | .connect op l r => do
    let l ← l.addTo
    let r ← r.addTo
    Adding.push (.connect op l r)
  | .combine op l r => do
    let l ← l.addTo
    let r ← r.addTo
    Adding.push (.combine op l r)
  | .call name arguments => do
    -- so an unknown function is told before what is wrong with its arguments
    let f ← Adding.resolve name arguments.length
    let arguments ← addEach arguments
    Adding.push (.call f arguments)

def addEach : List Expr → Adding (List ExprId)
  | [] => pure []
  | e :: es => do
    let id ← e.addTo
    let ids ← addEach es
    pure (id :: ids)

def addOption : Option Expr → Adding (Option ExprId)
  | none => pure none
  | some e => do
    let id ← e.addTo
    pure (some id)

end

/-- The tree of an expression, not yet analysed. -/
def Expr.tree (e : Expr) : Except QueryError Tree :=
  match e.addTo {} with
  | .ok (root, t) => .ok (t.setRoot root)
  | .error err => .error err

/-- A query ready to be run. -/
structure CompiledQuery where
  tree : Tree
  static : StaticContext
  source : String
deriving Repr

/-- Reads a query and analyses it. -/
def compile (source : String) (static : StaticContext) : Except QueryError CompiledQuery :=
  match parse source with
  | .error e => .error (.malformed e)
  | .ok e =>
    match e.tree with
    | .error err => .error err
    | .ok t =>
      match t.analyze static with
      | ⟨tree, none⟩ => .ok { tree, static, source }
      | ⟨_, some err⟩ => .error err

/-- A compiled query keeps its text and the context it was compiled in. -/
theorem compile_ok {source : String} {static : StaticContext} {q : CompiledQuery}
    (h : compile source static = .ok q) : q.source = source ∧ q.static = static := by
  unfold compile at h
  split at h
  · simp at h
  · split at h
    · simp at h
    · split at h
      · simp only [Except.ok.injEq] at h
        exact ⟨h ▸ rfl, h ▸ rfl⟩
      · simp at h

end DocBase.Query
