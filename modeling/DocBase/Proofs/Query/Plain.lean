import DocBase.Proofs.Document.Plain
import DocBase.Proofs.Query.Evaluation
/-!
# Values apart from locks

A query sees of a document what everybody sees: it cannot tell by which lock the document is
guarded. So if the same query is evaluated on documents that differ in their locks alone, then so do
the values, and an error is the same. Main statements:

* `Expr.meaning_plain` — an expression, wherever it stands;
* `run_plain` — a compiled query.
-/

namespace DocBase.Query

/-! ## Values -/

def Item.plain : Item → Item
  | .node n => .node n.plain
  | .atomic v => .atomic v

/-- The items as everybody sees them. -/
def plainItems (items : Sequence) : Sequence := items.map Item.plain

def Focus.plain (f : Focus) : Focus := { f with item := f.item.plain }

def DynamicContext.plain (c : DynamicContext) : DynamicContext :=
  { c with values := c.values.map fun b => (b.1, plainItems b.2) }

def Surroundings.plain (s : Surroundings) : Surroundings where
  bound := s.bound.map fun b => (b.1, b.2.plain)
  focus := s.focus.map Focus.plain

def Given.plain (g : Given) : Given where
  dynamic := g.dynamic.plain
  documents call := (g.documents call).map DocumentSet.plain

/-- A step that gives something that shows as `p` says, and goes on in the same way. -/
theorem map_bind_of {α α' β β' : Type} {x : Except QueryError α} {x' : Except QueryError α'}
    {f : α → Except QueryError β} {f' : α' → Except QueryError β'} {p : α → α'} {p' : β → β'}
    (hx : x' = x.map p) (hf : ∀ a, f' (p a) = (f a).map p') :
    (x' >>= f') = (x >>= f).map p' := by
  subst hx
  cases x with
  | error e => rfl
  | ok a => exact hf a

/-- A step that does not show. -/
theorem bind_of {α β β' : Type} {x : Except QueryError α} {f : α → Except QueryError β}
    {f' : α → Except QueryError β'} {p' : β → β'} (hf : ∀ a, f' a = (f a).map p') :
    (x >>= f') = (x >>= f).map p' := by
  cases x with
  | error e => rfl
  | ok a => exact hf a

/-- Going on in a way that does not show. -/
theorem bind_same {α α' β : Type} {x : Except QueryError α} {x' : Except QueryError α'}
    {f : α → Except QueryError β} {f' : α' → Except QueryError β} {p : α → α'}
    (hx : x' = x.map p) (hf : ∀ a, f' (p a) = f a) : (x' >>= f') = (x >>= f) := by
  subst hx
  cases x with
  | error e => rfl
  | ok a => exact hf a

@[simp] theorem Item.atomize_plain (i : Item) : i.plain.atomize = i.atomize := by
  cases i <;> rfl

theorem booleanValue_plain (items : Sequence) :
    booleanValue (plainItems items) = booleanValue items := by
  match items with
  | [] | .node _ :: _ | [.atomic _] => rfl
  | .atomic v :: _ :: _ => cases v <;> rfl

theorem holdsForSome_plain (op : Comparison) (v : Atomic) (items : Sequence) :
    holdsForSome op v (plainItems items) = holdsForSome op v items := by
  induction items with
  | nil => rfl
  | cons i items ih =>
    show holdsForSome op v (i.plain :: plainItems items) = _
    simp only [holdsForSome, Item.atomize_plain, ih]

theorem generalCompare_plain (op : Comparison) (l r : Sequence) :
    generalCompare op (plainItems l) (plainItems r) = generalCompare op l r := by
  induction l with
  | nil => rfl
  | cons i l ih =>
    show generalCompare op (i.plain :: plainItems l) (plainItems r) = _
    simp only [generalCompare, Item.atomize_plain, holdsForSome_plain, ih]

theorem nodesOf_plain (op : SetOperator) (items : Sequence) :
    nodesOf op (plainItems items) = (nodesOf op items).map (List.map Node.plain) := by
  induction items with
  | nil => rfl
  | cons i items ih =>
    cases i with
    | node n =>
      show (nodesOf op (plainItems items)).map (n.plain :: ·) = _
      rw [ih, nodesOf]
      cases nodesOf op items <;> rfl
    | atomic v => rfl

theorem keeps_plain (position : Nat) (items : Sequence) :
    keeps position (plainItems items) = keeps position items := by
  match items with
  | [] | .node _ :: _ | [.atomic _] => rfl
  | .atomic v :: _ :: _ => cases v <;> rfl

theorem SetOperator.apply_plain (op : SetOperator) (s t : NodeSet) :
    op.apply s.plain t.plain = (op.apply s t).plain := by
  cases op with
  | union => exact NodeSet.union_plain s t
  | intersect => exact NodeSet.intersection_plain s t
  | except => exact NodeSet.except_plain s t

/-- The nodes of a set as items. -/
theorem plainItems_nodes (s : NodeSet) :
    s.plain.nodes.map Item.node = plainItems (s.nodes.map Item.node) := by
  rw [NodeSet.plain, plainItems, List.map_map, List.map_map]
  rfl

theorem Builtin.applyTo_plain (f : Builtin) (items : Sequence) :
    f.applyTo (plainItems items) = (f.applyTo items).map plainItems := by
  have hlength : (plainItems items).length = items.length := List.length_map ..
  have hempty : (plainItems items).isEmpty = items.isEmpty := List.isEmpty_map
  -- what a document function gives is no node
  have hdescribe : ∀ n, f.describe n.plain = plainItems (f.describe n) := by
    intro n
    unfold describe
    split
    · rfl
    · rfl
    · cases hc : n.document.collection <;>
        simp [Node.plain, Document.plain, hc, plainItems, Item.plain]
  unfold applyTo
  split
  · rw [hlength]
    rfl
  · rw [hempty]
    rfl
  · rw [hempty]
    rfl
  · rw [booleanValue_plain]
    cases booleanValue items <;> rfl
  · -- only one node alone is described; otherwise the number of items is told
    match items with
    | [] => rfl
    | [.node n] => exact congrArg Except.ok (hdescribe n)
    | [.atomic v] => rfl
    | .node _ :: _ :: _ | .atomic _ :: _ :: _ =>
      exact congrArg (fun n => Except.error (QueryError.notOneNode f n)) hlength

theorem Focus.each_plain (items : Sequence) :
    Focus.each (plainItems items) = (Focus.each items).map Focus.plain := by
  apply List.ext_getElem?
  intro i
  simp only [Focus.each, plainItems, List.length_map, List.getElem?_map, List.getElem?_mapIdx,
    Option.map_map]
  rfl

theorem map_item_plain (l : List Focus) :
    (l.map Focus.plain).map Focus.item = plainItems (l.map Focus.item) := by
  rw [plainItems, List.map_map, List.map_map]
  rfl

theorem gather_plain {α α' : Type} {f : α → Except QueryError Sequence}
    {f' : α' → Except QueryError Sequence} {p : α → α'} (hf : ∀ a, f' (p a) = (f a).map plainItems)
    (l : List α) : gather f' (l.map p) = (gather f l).map plainItems := by
  induction l with
  | nil => rfl
  | cons a l ih =>
    simp only [List.map_cons, gather]
    refine map_bind_of (hf a) fun items => map_bind_of ih fun others => ?_
    exact congrArg Except.ok (List.map_append ..).symm

theorem select_plain {α α' : Type} {f : α → Except QueryError Bool} {f' : α' → Except QueryError Bool}
    {p : α → α'} (hf : ∀ a, f' (p a) = f a) (l : List α) :
    select f' (l.map p) = (select f l).map (List.map p) := by
  induction l with
  | nil => rfl
  | cons a l ih =>
    simp only [List.map_cons, select, hf]
    refine bind_of fun keep => map_bind_of ih fun kept => ?_
    cases keep <;> rfl

/-! ## Expressions -/

theorem Surroundings.here_plain (s : Surroundings) : s.plain.here = s.here.map Focus.plain := by
  rw [here, here, plain]
  cases s.focus <;> rfl

theorem lookup_map {κ α β : Type} [BEq κ] (f : α → β) (x : κ) (l : List (κ × α)) :
    (l.map fun b => (b.1, f b.2)).lookup x = (l.lookup x).map f := by
  induction l with
  | nil => rfl
  | cons b l ih =>
    rw [List.map_cons, List.lookup_cons, List.lookup_cons, ih]
    cases x == b.1 <;> rfl

theorem Surroundings.variableValue_plain (s : Surroundings) (c : DynamicContext) (x : String) :
    s.plain.variableValue c.plain x = (s.variableValue c x).map plainItems := by
  have hvalue : c.plain.value? x = (c.value? x).map plainItems := lookup_map plainItems x c.values
  have hbound : s.plain.bound.lookup x = (s.bound.lookup x).map Item.plain :=
    lookup_map Item.plain x s.bound
  rw [variableValue, variableValue, hbound, hvalue]
  cases s.bound.lookup x with
  | some item => rfl
  | none => cases c.value? x <;> rfl

theorem Given.nodes_plain (g : Given) (call : Nat) :
    g.plain.nodes call = plainItems (g.nodes call) := by
  have hdocuments : g.plain.documents call = (g.documents call).map DocumentSet.plain := rfl
  rw [nodes, nodes, hdocuments]
  cases g.documents call with
  | none => rfl
  | some s =>
    show s.plain.toNodeSet.nodes.map Item.node = _
    rw [DocumentSet.toNodeSet_plain, plainItems_nodes]

section

variable (g : Given)

theorem meaningEach_plain {es : List Expr}
    (h : ∀ e ∈ es, ∀ (first : Nat) (s : Surroundings),
      e.meaning g.plain first s.plain = (e.meaning g first s).map plainItems)
    (first : Nat) (s : Surroundings) :
    meaningEach g.plain first s.plain es = (meaningEach g first s es).map plainItems := by
  induction es generalizing first with
  | nil => rfl
  | cons e es ih =>
    rw [meaningEach, meaningEach]
    refine map_bind_of (h e List.mem_cons_self first s) fun items => ?_
    refine map_bind_of (ih (fun e he => h e (List.mem_cons_of_mem _ he)) _) fun others => ?_
    exact congrArg Except.ok (List.map_append ..).symm

theorem keptBy_plain {ps : List Expr}
    (h : ∀ p ∈ ps, ∀ (first : Nat) (s : Surroundings),
      p.meaning g.plain first s.plain = (p.meaning g first s).map plainItems)
    (first : Nat) (s : Surroundings) (items : Sequence) :
    keptBy g.plain first s.plain ps (plainItems items) =
      (keptBy g first s ps items).map plainItems := by
  induction ps generalizing first items with
  | nil => rfl
  | cons p ps ih =>
    -- the others go through what the first one keeps, which is plain too
    rw [keptBy, keptBy, Focus.each_plain]
    have hselect : ∀ f : Focus,
        (p.meaning g.plain first (s.plain.focusedOn f.plain) >>= keeps f.plain.position) =
          (p.meaning g first (s.focusedOn f) >>= keeps f.position) :=
      fun f => bind_same (h p List.mem_cons_self first (s.focusedOn f)) (keeps_plain f.position)
    refine map_bind_of (select_plain hselect _) fun kept => ?_
    rw [map_item_plain]
    exact ih (fun p hp => h p (List.mem_cons_of_mem _ hp)) _ _

/-- A call shows what its arguments show. -/
theorem meaning_call_plain {name : QName} {arguments : List Expr}
    (h : ∀ a ∈ arguments, ∀ (first : Nat) (s : Surroundings),
      a.meaning g.plain first s.plain = (a.meaning g first s).map plainItems)
    (first : Nat) (s : Surroundings) :
    (Expr.call name arguments).meaning g.plain first s.plain =
      ((Expr.call name arguments).meaning g first s).map plainItems := by
  rw [Expr.meaning, Expr.meaning]
  cases Builtin.resolve? name.qualifier name.name with
  | none => rfl
  | some f =>
    cases f with
    -- calls of documents and of positions do not look at their arguments
    | collection | doc => exact congrArg Except.ok (g.nodes_plain _)
    | true | false => rfl
    | position | last => exact map_bind_of s.here_plain fun f => rfl
    | _ =>
      cases arguments with
      | nil => rfl
      | cons a rest =>
        exact map_bind_of (h a List.mem_cons_self first s) fun value => Builtin.applyTo_plain _ value

/-- What an expression means where documents show as they do shows in the same way. -/
theorem Expr.meaning_plain (e : Expr) :
    ∀ (first : Nat) (s : Surroundings),
      e.meaning g.plain first s.plain = (e.meaning g first s).map plainItems := by
  -- documents are read by builtins and set operators only, and these read what is plain
  induction e using Expr.ind with
  | literal v =>
    intro first s
    rfl
  | var x =>
    intro first s
    exact s.variableValue_plain g.dynamic x.text
  | contextItem =>
    intro first s
    exact map_bind_of s.here_plain fun f => rfl
  | sequence items ih =>
    intro first s
    exact meaningEach_plain g ih first s
  | filter input predicates ihi ihp =>
    intro first s
    rw [meaning, meaning]
    exact map_bind_of (ihi first s) fun items => keptBy_plain g ihp _ s items
  | forEach x input condition body ihi ihc ihb =>
    intro first s
    cases condition with
    | none =>
      rw [meaning, meaning]
      refine map_bind_of (ihi first s) fun items => gather_plain (fun item => ?_) items
      exact ihb _ (s.binding x.text item)
    | some c =>
      rw [meaning, meaning]
      refine map_bind_of (ihi first s) fun items => ?_
      rw [Focus.each_plain]
      refine gather_plain (fun f => ?_) _
      have hcondition := ihc c rfl (first + input.size) ((s.binding x.text f.item).focusedOn f)
      refine map_bind_of hcondition fun value => ?_
      rw [booleanValue_plain]
      refine bind_of fun wanted => ?_
      cases wanted
      · rfl
      · exact ihb _ (s.binding x.text f.item)
  | compare op l r ihl ihr =>
    intro first s
    rw [meaning, meaning]
    refine map_bind_of (ihl first s) fun left => map_bind_of (ihr _ s) fun right => ?_
    rw [generalCompare_plain]
    exact bind_of fun holds => rfl
  | connect op l r ihl ihr =>
    intro first s
    rw [meaning, meaning]
    refine map_bind_of (ihl first s) fun left => ?_
    rw [booleanValue_plain]
    refine bind_of fun left => ?_
    split
    · rfl
    · rfl
    · refine map_bind_of (ihr _ s) fun right => ?_
      rw [booleanValue_plain]
      exact bind_of fun right => rfl
  | combine op l r ihl ihr =>
    intro first s
    rw [meaning, meaning]
    refine map_bind_of (ihl first s) fun left => ?_
    refine map_bind_of (nodesOf_plain op left) fun left => ?_
    refine map_bind_of (ihr _ s) fun right => ?_
    refine map_bind_of (nodesOf_plain op right) fun right => ?_
    rw [NodeSet.ofList_plain, NodeSet.ofList_plain, SetOperator.apply_plain, plainItems_nodes]
    rfl
  | call name arguments ih =>
    intro first s
    exact meaning_call_plain g ih first s

end

/-! ## Queries -/

def Resources.plain (r : Resources) : Resources := r.map fun entry => (entry.1, entry.2.plain)

/-- The value of a compiled query shows what the documents of its calls and the values of its
variables show. -/
theorem run_plain {source : String} {static : StaticContext} {q : CompiledQuery}
    (h : compile source static = .ok q) (dynamic : DynamicContext) (r : Resources) :
    (Evaluation.run ⟨q.tree, dynamic, r⟩).map plainItems =
      Evaluation.run ⟨q.tree, dynamic.plain, r.plain⟩ := by
  rcases compile_eq_ok h with ⟨e, t, -, htree, -, hrep⟩
  have hresolved := Expr.resolved_of_tree htree
  have hgiven : (Evaluation.given ⟨q.tree, dynamic, r⟩).plain =
      Evaluation.given ⟨q.tree, dynamic.plain, r.plain⟩ := by
    rw [Given.plain, Evaluation.given, Evaluation.given]
    congr 1
    funext call
    exact (lookup_map DocumentSet.plain call r).symm
  rw [Expr.run_of_represents hrep hresolved, Expr.run_of_represents hrep hresolved, ← hgiven]
  exact (e.meaning_plain _ 0 {}).symm

end DocBase.Query
