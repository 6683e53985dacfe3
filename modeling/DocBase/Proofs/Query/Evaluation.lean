import DocBase.Proofs.Query.Checking
import DocBase.Proofs.Query.Meaning
/-!
# Evaluating is reading the meaning

The machine of an evaluation stands for the surroundings of an expression: its stack holds the
variables bound around the expression, and its map has the context item under the expression that
the analysis recorded. Every step leaves the machine as it found it, so this holds at every
expression that is reached. Main statements:

* `Expr.evaluates_of_size_le` — one expression, wherever its entries are in an arena;
* `run_eq_meaning` — a compiled query has the value that its text means.
-/

namespace DocBase.Query

/-- A step that has this result and leaves the machine as it was. -/
def Gives {α : Type} (x : Evaluating α) (m : Machine) (r : Except QueryError α) : Prop :=
  x m = (r, m)

namespace Gives

variable {α β : Type} {m : Machine}

theorem pure (a : α) : Gives (Pure.pure a) m (Pure.pure a) := rfl

theorem throw (e : QueryError) : Gives (α := α) (throw e) m (.error e) := rfl

theorem get_bind {f : Machine → Evaluating β} {r : Except QueryError β} (h : Gives (f m) m r) :
    Gives (get >>= f) m r := h

theorem ofExcept (r : Except QueryError α) : Gives (.ofExcept r) m r := rfl

theorem bind {x : Evaluating α} {r : Except QueryError α} {f : α → Evaluating β}
    {g : α → Except QueryError β} (hx : Gives x m r) (hf : ∀ a, r = .ok a → Gives (f a) m (g a)) :
    Gives (x >>= f) m (r >>= g) := by
  have hrun : (x >>= f) m = ExceptT.bindCont f (x m).1 (x m).2 := rfl
  cases r with
  | error e =>
    rw [Gives, hrun, hx]
    rfl
  | ok a =>
    rw [Gives, hrun, hx]
    exact hf a rfl

theorem gather {f : α → Evaluating Sequence} {g : α → Except QueryError Sequence} {l : List α}
    (h : ∀ a ∈ l, Gives (f a) m (g a)) : Gives (Query.gather f l) m (Query.gather g l) := by
  induction l with
  | nil => exact .pure []
  | cons a as ih =>
    refine (h a (by simp)).bind fun items _ => ?_
    exact (ih fun b hb => h b (List.mem_cons_of_mem _ hb)).bind fun others _ => .pure _

theorem select {f : α → Evaluating Bool} {g : α → Except QueryError Bool} {l : List α}
    (h : ∀ a ∈ l, Gives (f a) m (g a)) : Gives (Query.select f l) m (Query.select g l) := by
  induction l with
  | nil => exact .pure []
  | cons a as ih =>
    refine (h a (by simp)).bind fun keep _ => ?_
    exact (ih fun b hb => h b (List.mem_cons_of_mem _ hb)).bind fun kept _ => .pure _

/-- A variable that was pushed is popped. -/
theorem withBinding {x : String} {item : Item} {step : Evaluating α} {r : Except QueryError α}
    (h : Gives step { m with bindings := (x, item) :: m.bindings } r) :
    Gives (Evaluating.withBinding x item step) m r := by
  rw [Gives, Evaluating.withBinding, h]
  rfl

/-- A context item that was put in the map is taken out, and what was there before is put back. -/
theorem withFocus {id : ExprId} {f : Focus} {step : Evaluating α} {r : Except QueryError α}
    (h : Gives step { m with focuses := m.focuses.insert id f } r) :
    Gives (Evaluating.withFocus id f step) m r := by
  -- the step gives the machine back with the item in place
  rw [Gives, Evaluating.withFocus, h]
  -- in both cases the map is again what it was, at every number
  cases hprevious : m.focuses[id]? with
  | none =>
    have hrestored : (m.focuses.insert id f).erase id = m.focuses := by
      apply Std.ExtTreeMap.ext_getElem?
      intro k
      rw [Std.ExtTreeMap.getElem?_erase, Std.ExtTreeMap.getElem?_insert]
      by_cases hk : id = k
      · subst hk
        simp [hprevious]
      · simp [hk]
    simp only [hrestored]
  | some p =>
    have hrestored : (m.focuses.insert id f).insert id p = m.focuses := by
      apply Std.ExtTreeMap.ext_getElem?
      intro k
      rw [Std.ExtTreeMap.getElem?_insert, Std.ExtTreeMap.getElem?_insert]
      by_cases hk : id = k
      · subst hk
        simp [hprevious]
      · simp [hk]
    simp only [hrestored]

end Gives

/-- The machine has what the surroundings of an expression with this record have. -/
structure Machine.StandsFor (m : Machine) (ctx : AnalysisContext) (s : Surroundings) : Prop where
  bindings_eq : m.bindings = s.bound
  focus_eq : (ctx.focus.bind fun c => m.focuses[c]?) = s.focus

namespace Machine.StandsFor

variable {m : Machine} {ctx : AnalysisContext} {s : Surroundings}

/-- Below another parent the surroundings are the same. -/
theorem forChild (h : m.StandsFor ctx s) (id : ExprId) : m.StandsFor (ctx.forChild id) s :=
  ⟨h.bindings_eq, h.focus_eq⟩

theorem binding (h : m.StandsFor ctx s) (x : String) (item : Item) :
    StandsFor { m with bindings := (x, item) :: m.bindings } ctx (s.binding x item) :=
  ⟨by simp [h.bindings_eq, Surroundings.binding], h.focus_eq⟩

/-- Once a context item is in the map, whatever record names it sees it. -/
theorem focusedOn (h : m.StandsFor ctx s) {ctx' : AnalysisContext} {id : ExprId}
    (hctx : ctx'.focus = some id) (f : Focus) :
    StandsFor { m with focuses := m.focuses.insert id f } ctx' (s.focusedOn f) :=
  ⟨h.bindings_eq, by simp [hctx, Surroundings.focusedOn]⟩

end Machine.StandsFor

namespace Evaluation

variable {v : Evaluation} {m : Machine} {s : Surroundings}

/-- An expression with a record finds the context item of its surroundings. -/
theorem gives_focus {id : ExprId} {kind : Kind} {parent : Option ExprId} {ctx : AnalysisContext}
    (hnode : v.tree.node? id = some ⟨kind, parent, some ctx⟩) (stands : m.StandsFor ctx s) :
    Gives (v.focus id) m s.here := by
  refine Gives.get_bind ?_
  have hfocus := stands.focus_eq
  simp only [hnode, Option.bind_some, hfocus, Surroundings.here]
  cases s.focus with
  | none => exact .throw _
  | some f => exact .pure f

theorem gives_variableValue {ctx : AnalysisContext} (stands : m.StandsFor ctx s) (x : String) :
    Gives (v.variableValue x) m (s.variableValue v.dynamic x) := by
  refine Gives.get_bind ?_
  simp only [stands.bindings_eq, Surroundings.variableValue]
  cases s.bound.lookup x with
  | some item => exact .pure _
  | none =>
    cases v.dynamic.value? x with
    | some items => exact .pure items
    | none => exact .throw _

end Evaluation

/-! ## Predicates -/

namespace AnalysisContext

/-- A hint that was added is there. -/
theorem hasFlag_addFlag (c : AnalysisContext) (f : Flags) : (c.addFlag f).hasFlag f = true := by
  have hflags : (c.flags ||| f) &&& f = f := by
    ext i hi
    simp only [BitVec.getElem_or, BitVec.getElem_and]
    cases c.flags[i] <;> cases f[i] <;> rfl
  simp [addFlag, hasFlag, Flags.contains, hflags]

theorem hasFlag_forPredicate (c : AnalysisContext) (filter : ExprId) (isPosition : Bool) :
    (c.forPredicate filter isPosition).hasFlag Flags.positional = isPosition := by
  cases isPosition with
  | true => exact hasFlag_addFlag _ _
  | false =>
    have hcleared : ∀ x : Flags, (x &&& ~~~Flags.positional) &&& Flags.positional = 0#32 := by
      intro x
      rw [BitVec.and_assoc, BitVec.and_comm (~~~Flags.positional), BitVec.and_not_self]
      exact BitVec.and_zero
    have hne : ¬ (0#32 == Flags.positional) = true := by decide
    simpa only [forPredicate, hasFlag, removeFlag, Flags.contains, Bool.false_eq_true, if_false,
      hcleared, Bool.not_eq_true] using hne

end AnalysisContext

namespace Evaluation

variable {v : Evaluation} {m : Machine} {s : Surroundings} {rewriting : Bool}

/-- Only a predicate that was written as an integer selects by position. -/
theorem position?_place {p : Expr} {first : Nat} {parent : Option ExprId} {ctx : AnalysisContext}
    {filter : ExprId} (held : v.tree.Holds (p.entries rewriting first parent
      (some (ctx.forPredicate filter p.isPosition)))) :
    (∃ i, p = .literal (.integer i) ∧ v.position? (p.place rewriting first) = some i.toInt) ∨
      v.position? (p.place rewriting first) = none := by
  have hnode := Expr.node?_place held
  by_cases hp : p.isPosition
  · -- an integer is nothing that rewriting leaves out, so it stands at its own number
    obtain ⟨i, rfl⟩ : ∃ i, p = .literal (.integer i) := by
      unfold Expr.isPosition at hp
      split at hp
      · exact ⟨_, rfl⟩
      · simp at hp
    refine .inl ⟨i, rfl, ?_⟩
    simp only [Expr.unwrap, Expr.kindAt, Literal.value] at hnode
    simp [position?, hnode, AnalysisContext.hasFlag_forPredicate, hp]
  · -- the flag is missing, even if an integer in parentheses came to stand here
    refine .inr ?_
    unfold position?
    split
    · next i _ record heq =>
      rw [hnode] at heq
      obtain ⟨-, -, rfl⟩ : _ ∧ _ ∧ ctx.forPredicate filter p.isPosition = record := by
        simpa using heq
      simp [AnalysisContext.hasFlag_forPredicate, hp]
    · rfl

/-- Applying a predicate keeps the items on which it holds when it is tried on each. -/
theorem gives_applyPredicate {p : Expr} {first : Nat} {parent : Option ExprId}
    {ctx : AnalysisContext} {filter : ExprId} {evaluate : ExprId → Evaluating Sequence} {g : Given}
    (held : v.tree.Holds (p.entries rewriting first parent
      (some (ctx.forPredicate filter p.isPosition))))
    (hp : ∀ f : Focus, Gives (evaluate (p.place rewriting first))
      { m with focuses := m.focuses.insert filter f } (p.meaning g first (s.focusedOn f)))
    (items : Sequence) :
    Gives (v.applyPredicate evaluate filter (p.place rewriting first) items) m (do
      let kept ← select (fun f => do
        let value ← p.meaning g first (s.focusedOn f)
        keeps f.position value) (Focus.each items)
      return kept.map Focus.item) := by
  rcases position?_place held with ⟨i, rfl, hposition⟩ | hposition
  · -- selected by position, where the meaning tries the integer on every item
    have hmeaning : (fun f : Focus => (do
        let value ← (Expr.literal (.integer i)).meaning g first (s.focusedOn f)
        keeps f.position value)) = fun f => keeps f.position [.atomic (.integer i)] := by
      funext f
      simp only [Expr.meaning, Literal.value]
      rfl
    simp only [applyPredicate, hposition, hmeaning, map_item_select]
    exact .pure _
  · simp only [applyPredicate, hposition]
    refine Gives.bind (Gives.select fun f _ => ?_) fun kept _ => .pure _
    exact (Gives.withFocus (hp f)).bind fun value _ => .ofExcept _

/-- The same for predicates that are applied one after another. -/
theorem gives_applyPredicates {ps : List Expr} {first : Nat} {parent : Option ExprId}
    {ctx : AnalysisContext} {filter : ExprId} {evaluate : ExprId → Evaluating Sequence} {g : Given}
    (held : v.tree.Holds (entriesEach rewriting first parent
      (fun p => some (ctx.forPredicate filter p.isPosition)) ps))
    (hps : ∀ p ∈ ps, ∀ first, v.tree.Holds (p.entries rewriting first parent
        (some (ctx.forPredicate filter p.isPosition))) →
      ∀ f : Focus, Gives (evaluate (p.place rewriting first))
        { m with focuses := m.focuses.insert filter f } (p.meaning g first (s.focusedOn f)))
    (items : Sequence) :
    Gives (v.applyPredicates evaluate filter (placeEach rewriting first ps) items) m
      (keptBy g first s ps items) := by
  induction ps generalizing first items with
  | nil => exact .pure items
  | cons p ps ih =>
    rw [entriesEach, Tree.holds_append] at held
    -- what the first predicate keeps is all that the others see
    have head := gives_applyPredicate held.1 (hps p (by simp) first held.1) items
    have both := head.bind (f := v.applyPredicates evaluate filter
        (placeEach rewriting (first + p.size) ps)) fun kept _ =>
      ih held.2 (fun p hp => hps p (List.mem_cons_of_mem _ hp)) kept
    rw [keptBy, placeEach, applyPredicates]
    simpa only [bind_assoc, pure_bind] using both

/-- Expressions that are gathered give their values joined. -/
theorem gives_gather_placeEach {es : List Expr} {first : Nat} {parent : Option ExprId}
    {record : Option AnalysisContext} {evaluate : ExprId → Evaluating Sequence} {g : Given}
    (held : v.tree.Holds (entriesEach rewriting first parent (fun _ => record) es))
    (hes : ∀ e ∈ es, ∀ first, v.tree.Holds (e.entries rewriting first parent record) →
      Gives (evaluate (e.place rewriting first)) m (e.meaning g first s)) :
    Gives (gather evaluate (placeEach rewriting first es)) m (meaningEach g first s es) := by
  induction es generalizing first with
  | nil => exact .pure []
  | cons e es ih =>
    rw [entriesEach, Tree.holds_append] at held
    refine (hes e (by simp) first held.1).bind fun items _ => ?_
    exact (ih held.2 fun e he => hes e (List.mem_cons_of_mem _ he)).bind fun others _ => .pure _

/-- What the evaluation of a query is given. -/
def given (v : Evaluation) : Given := ⟨v.dynamic, fun call => v.resources.lookup call⟩

end Evaluation

/-! ## Expressions -/

/-- The value of several expressions of which there is one. -/
theorem meaningEach_singleton (g : Given) (first : Nat) (s : Surroundings) (e : Expr) :
    meaningEach g first s [e] = e.meaning g first s := by
  rw [meaningEach, meaningEach]
  cases e.meaning g first s with
  | error err => rfl
  | ok items => exact congrArg Except.ok (List.append_nil items)

namespace Expr

/-- With this much fuel, evaluating at the place of an expression gives its meaning and leaves the
machine as it was, wherever the expression is in the arena and whatever surrounds it. -/
def Evaluates (v : Evaluation) (rewriting : Bool) (fuel : Nat) (e : Expr) : Prop :=
  ∀ (first : Nat) (parent : Option ExprId) (ctx : AnalysisContext) (s : Surroundings) (m : Machine),
    v.tree.Holds (e.entries rewriting first parent (some ctx)) → m.StandsFor ctx s →
    Gives (v.evaluate fuel (e.place rewriting first)) m (e.meaning v.given first s)

section Construct

variable {v : Evaluation} {rewriting : Bool} {fuel : Nat}

attribute [local simp] Evaluation.evaluate meaning entries kindAt unwrap

theorem evaluates_literal (value : Literal) :
    (literal value).Evaluates v rewriting (fuel + 1) := by
  intro first parent ctx s m held stands
  have hkind := kind?_place held
  simp only [Evaluation.evaluate, hkind, unwrap, kindAt, meaning]
  exact .pure _

/-- The stack of the machine has the variables in scope. -/
theorem evaluates_var (x : QName) : (var x).Evaluates v rewriting (fuel + 1) := by
  intro first parent ctx s m held stands
  have hkind := kind?_place held
  simp only [Evaluation.evaluate, hkind, unwrap, kindAt, meaning]
  exact Evaluation.gives_variableValue stands x.text

/-- The map of the machine has the context item under the number that was recorded. -/
theorem evaluates_contextItem : contextItem.Evaluates v rewriting (fuel + 1) := by
  intro first parent ctx s m held stands
  have hnode := node?_place held
  have hkind := kind?_place held
  simp only [Evaluation.evaluate, hkind, unwrap, kindAt, meaning]
  exact (Evaluation.gives_focus hnode stands).bind fun f _ => .pure _

/-- What stands for a one-item sequence is its item. -/
theorem evaluates_inlined {item : Expr} (h : item.Evaluates v true fuel) :
    (sequence [item]).Evaluates v true fuel := by
  intro first parent ctx s m held stands
  rw [place, unwrap_singleton, meaning, meaningEach_singleton]
  have held' : v.tree.Holds (item.entries true first parent (some ctx)) := by
    simpa [entriesEach] using held
  exact h first parent ctx s m held' stands

theorem evaluates_sequence {items : List Expr} (hstay : (rewriting && items.length == 1) = false)
    (h : ∀ e ∈ items, e.Evaluates v rewriting fuel) :
    (sequence items).Evaluates v rewriting (fuel + 1) := by
  intro first parent ctx s m held stands
  have hkind := kind?_place held
  simp only [unwrap_sequence hstay] at hkind
  simp only [entries, hstay, Bool.false_eq_true, if_false, Tree.holds_cons] at held
  simp only [Evaluation.evaluate, hkind, kindAt, meaning]
  refine Evaluation.gives_gather_placeEach held.2 ?_
  intro e he first' held'
  exact h e he first' _ _ s m held' (stands.forChild _)

/-- A predicate is evaluated with the item it is tried on in the map, under the number of the
filter. -/
theorem evaluates_filter {input : Expr} {predicates : List Expr}
    (hi : input.Evaluates v rewriting fuel) (hp : ∀ p ∈ predicates, p.Evaluates v rewriting fuel) :
    (filter input predicates).Evaluates v rewriting (fuel + 1) := by
  intro first parent ctx s m held stands
  have hkind := kind?_place held
  simp only [entries, Tree.holds_cons, Tree.holds_append] at held
  rcases held with ⟨-, hinput, hpredicates⟩
  simp only [Evaluation.evaluate, hkind, unwrap, kindAt, meaning]
  refine (hi first _ _ s m hinput (stands.forChild _)).bind fun items _ => ?_
  refine Evaluation.gives_applyPredicates hpredicates ?_ items
  intro p hmem first' held' f
  have focused := stands.focusedOn (AnalysisContext.focus_forPredicate ctx
    (number first (filter input predicates)) p.isPosition) f
  exact hp p hmem first' _ _ (s.focusedOn f) _ held' focused

/-- Without a condition only the variable is pushed, and the places of the items do not matter. -/
theorem evaluates_forEach_none {x : QName} {input body : Expr}
    (hi : input.Evaluates v rewriting fuel) (hb : body.Evaluates v rewriting fuel) :
    (forEach x input none body).Evaluates v rewriting (fuel + 1) := by
  intro first parent ctx s m held stands
  have hkind := kind?_place held
  simp only [entries, Tree.holds_cons, Tree.holds_append] at held
  rcases held with ⟨-, hinput, hbody⟩
  simp only [Evaluation.evaluate, hkind, unwrap, kindAt, meaning, Option.map_none,
    Option.toList_none, sizeEach, Nat.add_zero]
  refine (hi first _ _ s m hinput (stands.forChild _)).bind fun items _ => ?_
  rw [← Focus.map_item_each items, gather_map, Focus.map_item_each]
  refine Gives.gather fun f _ => Gives.withBinding ?_
  have inner := (stands.forChild (number first (forEach x input none body))).binding x.text f.item
  exact hb (first + input.size) _ _ (s.binding x.text f.item) _ hbody inner

/-- The condition has the item in the map, under the number of the `for`; the body does not. -/
theorem evaluates_forEach_some {x : QName} {input c body : Expr}
    (hi : input.Evaluates v rewriting fuel) (hc : c.Evaluates v rewriting fuel)
    (hb : body.Evaluates v rewriting fuel) :
    (forEach x input (some c) body).Evaluates v rewriting (fuel + 1) := by
  intro first parent ctx s m held stands
  have hkind := kind?_place held
  simp only [entries, Tree.holds_cons, Tree.holds_append] at held
  rcases held with ⟨-, hinput, hcondition, hbody⟩
  simp only [Evaluation.evaluate, hkind, unwrap, kindAt, meaning, Option.map_some,
    Option.toList_some, sizeEach, Nat.add_zero]
  refine (hi first _ _ s m hinput (stands.forChild _)).bind fun items _ => ?_
  -- each item is bound in turn, and the machine is the same again before the next one
  refine Gives.gather fun f _ => Gives.withBinding ?_
  have inner := (stands.forChild (number first (forEach x input (some c) body))).binding x.text
    f.item
  have condition := hc (first + input.size) _ _ ((s.binding x.text f.item).focusedOn f) _
    hcondition (inner.focusedOn rfl f)
  have wanted := Gives.withFocus
    (condition.bind fun value _ => Gives.ofExcept (booleanValue value))
  -- the machine is back where it was, so the body may use what is known of it
  have whole := wanted.bind (f := fun wanted =>
    if wanted then v.evaluate fuel (body.place rewriting (first + input.size + c.size))
    else return []) (g := fun wanted =>
    if wanted then body.meaning v.given (first + input.size + c.size) (s.binding x.text f.item)
    else return []) fun wanted _ => by
      cases wanted
      · exact .pure _
      · exact hb (first + input.size + c.size) _ _ (s.binding x.text f.item) _ hbody inner
  rw [bind_assoc] at whole
  exact whole

theorem evaluates_compare {op : Comparison} {l r : Expr} (hl : l.Evaluates v rewriting fuel)
    (hr : r.Evaluates v rewriting fuel) : (compare op l r).Evaluates v rewriting (fuel + 1) := by
  intro first parent ctx s m held stands
  have hkind := kind?_place held
  simp only [entries, Tree.holds_cons, Tree.holds_append] at held
  simp only [Evaluation.evaluate, hkind, unwrap, kindAt, meaning]
  have left := hl first _ _ s m held.2.1 (stands.forChild _)
  have right := hr (first + l.size) _ _ s m held.2.2 (stands.forChild _)
  refine left.bind fun left _ => right.bind fun right _ => ?_
  exact (Gives.ofExcept _).bind fun b _ => .pure _

/-- The right side is evaluated only where the left one does not decide. -/
theorem evaluates_connect {op : Connective} {l r : Expr} (hl : l.Evaluates v rewriting fuel)
    (hr : r.Evaluates v rewriting fuel) : (connect op l r).Evaluates v rewriting (fuel + 1) := by
  intro first parent ctx s m held stands
  have hkind := kind?_place held
  simp only [entries, Tree.holds_cons, Tree.holds_append] at held
  simp only [Evaluation.evaluate, hkind, unwrap, kindAt, meaning]
  have left := hl first _ _ s m held.2.1 (stands.forChild _)
  have right := hr (first + l.size) _ _ s m held.2.2 (stands.forChild _)
  have decided : Gives (do
      let right ← v.evaluate fuel (r.place rewriting (first + l.size))
      let right ← Evaluating.ofExcept (booleanValue right)
      return [Item.boolean right]) m (do
      let right ← r.meaning v.given (first + l.size) s
      let right ← booleanValue right
      return [Item.boolean right]) :=
    right.bind fun right _ => (Gives.ofExcept _).bind fun b _ => .pure _
  refine left.bind fun left _ => (Gives.ofExcept _).bind fun left _ => ?_
  -- `and` is decided by false, `or` by true; otherwise the right operand counts
  cases op <;> cases left
  · exact .pure _
  · exact decided
  · exact decided
  · exact .pure _

theorem evaluates_combine {op : SetOperator} {l r : Expr} (hl : l.Evaluates v rewriting fuel)
    (hr : r.Evaluates v rewriting fuel) : (combine op l r).Evaluates v rewriting (fuel + 1) := by
  intro first parent ctx s m held stands
  have hkind := kind?_place held
  simp only [entries, Tree.holds_cons, Tree.holds_append] at held
  simp only [Evaluation.evaluate, hkind, unwrap, kindAt, meaning]
  have left := hl first _ _ s m held.2.1 (stands.forChild _)
  have right := hr (first + l.size) _ _ s m held.2.2 (stands.forChild _)
  refine left.bind fun left _ => (Gives.ofExcept _).bind fun left _ => ?_
  refine right.bind fun right _ => (Gives.ofExcept _).bind fun right _ => ?_
  exact .pure _

/-- A function looks at no more than its first argument. -/
theorem evaluates_call {name : QName} {arguments : List Expr}
    (hres : (call name arguments).Resolved) (h : ∀ a ∈ arguments, a.Evaluates v rewriting fuel) :
    (call name arguments).Evaluates v rewriting (fuel + 1) := by
  intro first parent ctx s m held stands
  simp only [Resolved] at hres
  rcases hres with ⟨⟨f, hf, -⟩, -⟩
  have hnode := node?_place held
  have hkind := kind?_place held
  simp only [entries, Tree.holds_cons] at held
  simp only [Evaluation.evaluate, hkind, unwrap, kindAt, meaning, hf]
  cases arguments with
  | nil =>
    -- functions of an argument fail without one
    cases f with
    | collection | doc | true | false => exact .pure _
    | position | last => exact (Evaluation.gives_focus hnode stands).bind fun f _ => .pure _
    | _ => exact .throw _
  | cons a as =>
    simp only [entriesEach, Tree.holds_append] at held
    have argument := h a List.mem_cons_self first _ _ s m held.2.1 (stands.forChild _)
    cases f with
    -- the functions that address documents have them ready, so their arguments are not evaluated
    | collection | doc | true | false => exact .pure _
    | position | last => exact (Evaluation.gives_focus hnode stands).bind fun f _ => .pure _
    | _ => exact argument.bind fun value _ => .ofExcept _

end Construct

/-- Fuel for each of its expressions is enough to evaluate an expression. -/
theorem evaluates_of_size_le (v : Evaluation) (rewriting : Bool) (e : Expr) :
    ∀ fuel, e.size ≤ fuel → e.Resolved → e.Evaluates v rewriting fuel := by
  induction e using Expr.ind_parts with
  | h e ih =>
    intro fuel hfuel hres
    rw [size_eq] at hfuel
    rcases Nat.exists_eq_add_of_le' (Nat.le_of_add_left_le hfuel) with ⟨fuel, rfl⟩
    -- the item of a sequence that was left out is evaluated in its place, with all the fuel
    have evaluates : ∀ p ∈ e.parts, ∀ n, fuel ≤ n → p.Evaluates v rewriting n := by
      intro p hp n hn
      have hsize := size_le_sizeEach hp
      exact ih p hp n (by omega) (resolved_of_mem_parts hres hp)
    have parts : ∀ p ∈ e.parts, p.Evaluates v rewriting fuel :=
      fun p hp => evaluates p hp fuel (Nat.le_refl _)
    cases e with
    | literal value => exact evaluates_literal value
    | var x => exact evaluates_var x
    | contextItem => exact evaluates_contextItem
    | sequence items =>
      cases hr : rewriting && items.length == 1 with
      | true =>
        obtain ⟨rfl, hlen⟩ : rewriting = true ∧ items.length = 1 := by simpa using hr
        rcases List.length_eq_one_iff.1 hlen with ⟨item, rfl⟩
        exact evaluates_inlined (evaluates item List.mem_cons_self _ (Nat.le_succ _))
      | false => exact evaluates_sequence hr parts
    | filter input predicates =>
      have hpredicates := fun p hp => parts p (List.mem_cons_of_mem input hp)
      exact evaluates_filter (parts input List.mem_cons_self) hpredicates
    | forEach x input condition body =>
      have hinput := parts input List.mem_cons_self
      cases condition with
      | none => exact evaluates_forEach_none hinput (parts body (by simp [Expr.parts]))
      | some c =>
        have hcondition := parts c (by simp [Expr.parts])
        exact evaluates_forEach_some hinput hcondition (parts body (by simp [Expr.parts]))
    | compare op l r =>
      exact evaluates_compare (parts l (by simp [Expr.parts])) (parts r (by simp [Expr.parts]))
    | connect op l r =>
      exact evaluates_connect (parts l (by simp [Expr.parts])) (parts r (by simp [Expr.parts]))
    | combine op l r =>
      exact evaluates_combine (parts l (by simp [Expr.parts])) (parts r (by simp [Expr.parts]))
    | call name arguments => exact evaluates_call hres parts

end Expr

/-! ## Compiled queries -/

/-- The value of a tree that holds just an expression. -/
theorem Expr.run_of_represents {e : Expr} {rewriting : Bool} {v : Evaluation}
    (h : e.Represents rewriting v.tree) (hres : e.Resolved) :
    v.run = e.meaning v.given 0 {} := by
  have stands : Machine.StandsFor {} {} {} := ⟨rfl, rfl⟩
  have evaluates := e.evaluates_of_size_le v rewriting e.size (Nat.le_refl _) hres
  have gives := evaluates 0 none {} {} {} h.holds stands
  rw [Evaluation.run, h.root_eq, h.size_eq]
  exact congrArg Prod.fst gives

/-- A compiled query gives what its text means, or the same error, whatever documents its calls
address. -/
theorem run_eq_meaning {source : String} {static : StaticContext} {q : CompiledQuery}
    (h : compile source static = .ok q) :
    ∃ e : Expr, parse source = .ok e ∧ ∀ (dynamic : DynamicContext) (resources : Resources),
      Evaluation.run ⟨q.tree, dynamic, resources⟩ =
        e.meaning ⟨dynamic, fun call => resources.lookup call⟩ 0 {} := by
  rcases compile_eq_ok h with ⟨e, t, hparse, htree, -, hrep⟩
  refine ⟨e, hparse, fun dynamic resources => ?_⟩
  exact Expr.run_of_represents hrep (Expr.resolved_of_tree htree)

/-- A condition that asks for a position, inside of which a filter has a position of its own. -/
theorem run_eq_meaning_nested :
    ∃ q e, compile "for $x in (5, 6, 7) where (1, 2)[2] <= position() return ($x, (8, 9)[1])" {} =
        .ok q ∧
      parse "for $x in (5, 6, 7) where (1, 2)[2] <= position() return ($x, (8, 9)[1])" = .ok e ∧
      ∀ (dynamic : DynamicContext) (resources : Resources),
        Evaluation.run ⟨q.tree, dynamic, resources⟩ =
          e.meaning ⟨dynamic, fun call => resources.lookup call⟩ 0 {} := by
  obtain ⟨q, hq⟩ : ∃ q, compile
      "for $x in (5, 6, 7) where (1, 2)[2] <= position() return ($x, (8, 9)[1])" {} = .ok q :=
    exists_of_compile_isOk (by decide +kernel)
  rcases run_eq_meaning hq with ⟨e, he, hrun⟩
  exact ⟨q, e, hq, he, hrun⟩

end DocBase.Query
